import Reactor.SnDeadlock
import Reactor.SnGreetings

/-!
# One hello each way

A hello is the first message of a connection, and each side is to say one.
But the end a node has dialed comes back to it as a `Connected` event like
any other: it reads the hello of whoever was dialed, and answers it with a
second one of its own, which arrives where a receiving thread takes it for
a message to pass on.

**`one_hello_iff`**: hellos are said once, wherever a remote peer is
registered, and no thread passes one on, for as long as nobody answers on
an end he has dialed; and no longer. That is so in runs in which nodes are
told to end and connections break at any time, too (`faulty`).
-/

namespace Reactor.Sn

open Function (update)
open Reactor.System (Any)

/-! ## Networks in which things fail -/

/-- What may happen to a network beside its moves. -/
inductive Fault
  /-- Somebody tells a node to end. -/
  | terminate
  /-- A connection breaks while the loop reads, -/
  | read
  /-- or while a receiving thread does. -/
  | receive (k : Nat)

namespace Network

variable {ι : Type} [DecidableEq ι]

def stepOrFail (hosts : Hosts ι) (s : Network ι) : ι × (Move ⊕ Fault) → Option (Network ι)
  | (x, .inl mv) => s.step hosts (x, mv)
  | (x, .inr .terminate) => some (s.setNode x ((s.nodes x).post .terminate .outside))
  | (x, .inr .read) =>
      match (s.nodes x).pending with
      | some (.readPeerMessage _) => s.advance x (Io.calm.reading none) s
      | _ => none
  | (x, .inr (.receive k)) => ((s.nodes x).receiveEnds k).map (s.setNode x)

omit [DecidableEq ι] in
/-- The end on which a step says hello. -/
def hellos (s : Network ι) : ι × (Move ⊕ Fault) → List TcpStream
  | (x, .inl (.loop io)) =>
      match (s.nodes x).pending with
      | some (.writePeerMessage e (.hello hello)) =>
          if io (.writePeerMessage e (.hello hello)) then [e] else []
      | _ => []
  | _ => []

end Network

/-- Any number of nodes, of which each may end, and whose connections may
break. -/
def faulty {ι : Type} [DecidableEq ι] (hosts : Hosts ι) :
    System (Network ι) (ι × (Move ⊕ Fault)) :=
  ⟨.new hosts, Network.stepOrFail hosts⟩

/-! ## The property, and when it holds -/

section

variable {ι : Type} [DecidableEq ι]

/-- The ends on which a run has said hello, each as often as it has. -/
def greetings (hosts : Hosts ι) (as : List (ι × (Move ⊕ Fault))) : List TcpStream :=
  (faulty hosts).outputs Network.hellos (faulty hosts).init as

structure OneHello (hosts : Hosts ι) (as : List (ι × (Move ⊕ Fault))) (s : Network ι) : Prop where
  once : ∀ e, (greetings hosts as).count e ≤ 1
  /-- Whoever has a peer has said hello to him. -/
  registered : ∀ x id peer, (s.nodes x).node.peers.lookup id = some peer →
    (greetings hosts as).count peer.stream = 1
  /-- Nobody but someone outside puts a received hello in a channel. -/
  unheard : ∀ x, ∀ m ∈ (s.nodes x).mails, ∀ id hello,
    m.ev = .peer (.receivedMessage id (.hello hello)) → m.sender = .outside

end

/-- A round has read a hello, and has yet to answer it. -/
def Ctl.met : Ctl → Bool
  | .handling _ (.introduced _) _ => true
  | _ => false

/-- The loop does not answer a hello on an end its node has dialed. -/
def AnswersOthers {ι : Type} (s : Network ι) (a : ι × (Move ⊕ Fault)) : Prop :=
  (s.nodes a.1).ctl.met → ∀ e ∈ s.hellos a, e.side = .listener

instance {ι : Type} (s : Network ι) (a : ι × (Move ⊕ Fault)) : Decidable (AnswersOthers s a) :=
  inferInstanceAs (Decidable (_ → _))

/-! ## A process -/

namespace Process

variable {p p' : Process} {a : Act}

/-- A peer has been registered before, or the stream of a round is kept. -/
theorem step_peers (hsound : p.Sound) (hs : p.step a = some p') {id : ID} {peer : RemotePeer}
    (hl : p'.node.peers.lookup id = some peer) :
    p.node.peers.lookup id = some peer ∨ p.Keeps peer.stream := by
  cases a with
  | post ev =>
      obtain rfl := Option.some.inj hs
      exact .inl hl
  | accept stream =>
      obtain rfl := Option.some.inj hs
      exact .inl hl
  | take =>
      obtain ⟨m, rest, -, -, rfl⟩ := take_cases hs
      exact .inl hl
  | loop io =>
      obtain ⟨m, st, c, k, hctl, rfl⟩ | ⟨m, st, node, hctl, rfl⟩ | ⟨m, st, node, hctl, rfl⟩ |
        ⟨m, st, e, hctl, rfl⟩ := advance_cases hs
      · have hnode : (p.perform io c).2.node = p.node := by
          cases c with
          | drop old =>
              simp only [perform]
              split <;> rfl
          | _ => rfl
        exact .inl (hnode ▸ hl)
      · obtain ⟨-, -, hleaves⟩ := hsound.follows m st _ hctl
        have hsame : node.peers = p.node.peers →
            p.node.peers.lookup id = some peer ∨ p.Keeps peer.stream := fun heq => .inl (heq ▸ hl)
        cases st with
        | start => exact hsame hleaves.1
        | posted => exact hsame hleaves
        | aborted => exact hsame hleaves
        | introduced id' => exact hsame hleaves.1
        | announced new =>
            have hl : (p.node.peers.insert new.id new).lookup id = some peer :=
              (show node.peers = _ from hleaves) ▸ hl
            by_cases hid : id = new.id
            · subst hid
              obtain rfl := Option.some.inj ((Finmap.lookup_insert _).symm.trans hl)
              have hev := (hsound.started m _ _ new hctl (.inr rfl)).1
              exact .inr (.inl ⟨m, _, _, hctl, hev, rfl⟩)
            · exact .inl (by rwa [Finmap.lookup_insert_of_ne _ hid] at hl)
        | dropped =>
            obtain ⟨id', -, hpeers⟩ := hleaves
            simp only [hpeers] at hl
            by_cases hid : id = id'
            · subst hid
              simp at hl
            · exact .inl (by rwa [Finmap.lookup_erase_ne hid] at hl)
        | _ => exact hleaves.elim
      · exact .inl ((hsound.follows m st _ hctl).2 id peer hl)
      · exact .inl hl
  | sendEnds k =>
      obtain ⟨t, -, -, -, rfl⟩ := sendEnds_cases hs
      exact .inl hl
  | received k msg =>
      obtain ⟨t, -, -, rfl⟩ := received_cases hs
      exact .inl hl
  | receiveEnds k =>
      obtain ⟨t, -, -, rfl⟩ := receiveEnds_cases hs
      exact .inl hl

/-- Nobody but someone outside puts a received message in the channel. -/
def Deaf (p : Process) : Prop :=
  ∀ m ∈ p.mails, ∀ id msg, m.ev = .peer (.receivedMessage id msg) → m.sender = .outside

theorem Deaf.post (h : p.Deaf) {ev : Event} {sender : Sender}
    (hev : ∀ id msg, ev = .peer (.receivedMessage id msg) → sender = .outside) :
    (p.post ev sender).Deaf := by
  intro m hm
  rw [mails_post] at hm
  rcases List.mem_append.mp hm with hm | hm
  · exact h m hm
  · obtain rfl := List.mem_singleton.mp hm
    exact hev

theorem Deaf.of_mails (h : p.Deaf) (hmails : p'.mails ⊆ p.mails) : p'.Deaf :=
  fun m hm => h m (hmails hm)

theorem deaf_step (h : p.Deaf) (hsound : p.Sound) (hs : p.step a = some p')
    (hreceived : ∀ k msg, a ≠ .received k msg) : p'.Deaf := by
  cases a with
  | post ev =>
      obtain rfl := Option.some.inj hs
      exact h.post fun _ _ _ => rfl
  | accept stream =>
      obtain rfl := Option.some.inj hs
      exact h.post (by simp)
  | take =>
      obtain ⟨m, rest, hctl, hqueue, rfl⟩ := take_cases hs
      exact h.of_mails (by simp [mails, hctl, hqueue])
  | loop io =>
      obtain ⟨m, st, c, k, hctl, rfl⟩ | ⟨m, st, node, hctl, rfl⟩ | ⟨m, st, node, hctl, rfl⟩ |
        ⟨m, st, e, hctl, rfl⟩ := advance_cases hs
      · have hqueue : (∀ ev, c ≠ .send ev) → (p.perform io c).2.queue = p.queue := by
          intro hsend
          cases c with
          | send ev => exact absurd rfl (hsend ev)
          | drop old =>
              simp only [perform]
              split <;> rfl
          | _ => rfl
        cases c with
        | send ev =>
            have hgo : Deaf { p with ctl := .handling m (st.next (.send ev) ()) (k ()) } :=
              h.of_mails (by simp [mails, hctl])
            refine hgo.post ?_
            rcases (hsound.follows m st _ hctl).1 with ⟨e, -, rfl⟩ | ⟨peer, addr, -, rfl⟩ <;> simp
        | _ => exact h.of_mails (by simp [mails, hctl, hqueue])
      · exact h.of_mails (by simp [mails, hctl])
      · exact h.of_mails (by simp [mails, hctl])
      · exact h.of_mails (by simp [mails, hctl])
  | sendEnds k =>
      obtain ⟨t, -, -, -, rfl⟩ := sendEnds_cases hs
      exact Deaf.post h (by simp)
  | received k msg => exact absurd rfl (hreceived k msg)
  | receiveEnds k =>
      obtain ⟨t, -, -, rfl⟩ := receiveEnds_cases hs
      exact Deaf.post h (by simp)

end Process

/-! ## The network -/

namespace Network

variable {ι : Type} [DecidableEq ι] {hosts : Hosts ι} {s s' : Network ι} {x : ι}
  {a : Move ⊕ Fault} {said : List TcpStream}

/-- Whatever happens, a node does what a process does, and a message is
passed on in no other step than that of a receiving thread. -/
theorem stepOrFail_process (h : s.stepOrFail hosts (x, a) = some s') (z : ι) :
    s'.nodes z = s.nodes z ∨ ∃ act, (s.nodes z).step act = some (s'.nodes z) ∧
      ∀ k msg, act = .received k msg → ∃ k, a = .inl (.receive k) := by
  have hmove : ∀ {act : Act} {p : Process}, (s.nodes x).step act = some p →
      s'.nodes = update s.nodes x p → (∀ k msg, act ≠ .received k msg) →
      s'.nodes z = s.nodes z ∨ ∃ act, (s.nodes z).step act = some (s'.nodes z) ∧
        ∀ k msg, act = .received k msg → ∃ k, a = .inl (.receive k) := by
    intro act p hp hnodes hact
    by_cases hz : z = x
    · subst hz
      exact .inr ⟨act, by rw [hp, hnodes]; simp, fun k msg heq => absurd heq (hact k msg)⟩
    · exact .inl (by simp [hnodes, hz])
  cases a with
  | inl mv =>
      rcases step_process h z with heq | ⟨rfl, act, hact, hacts⟩
      · exact .inl heq
      · refine .inr ⟨act, hact, fun k msg heq => ?_⟩
        subst heq
        cases mv with
        | receive k => exact ⟨k, rfl⟩
        | _ => exact hacts.elim
  | inr fault =>
      cases fault with
      | terminate =>
          obtain rfl := Option.some.inj h
          exact @hmove (.post .terminate) _ rfl rfl (by simp)
      | read =>
          simp only [stepOrFail] at h
          split at h
          · obtain ⟨p, hp, rfl⟩ := Option.map_eq_some_iff.mp h
            exact @hmove (.loop (Io.calm.reading none)) _ hp rfl (by simp)
          · cases h
      | receive k =>
          obtain ⟨p, hp, rfl⟩ := Option.map_eq_some_iff.mp h
          exact @hmove (.receiveEnds k) _ hp rfl (by simp)

/-- A move says hello on the end it writes on. -/
theorem said_step {mv : Move} (hsound : (s.nodes x).Sound) (h : s.step hosts (x, mv) = some s') :
    Exchange.Said s.inbox s'.inbox (s.hellos (x, .inl mv)) := by
  rcases inbox_cases h with ⟨hsuffix, hno⟩ | ⟨e, msg, hwrites, hinbox⟩
  · have hnil : s.hellos (x, .inl mv) = [] := by
      cases mv with
      | loop io =>
          simp only [hellos]
          split
          · next hpending => exact if_neg fun hio => hno _ _ ⟨hpending, hio⟩
          · rfl
      | _ => rfl
    rw [hnil]
    exact .nothing hsuffix
  · obtain ⟨m, st, k, hctl⟩ := Process.handling_of_pending hwrites.pending
    obtain ⟨⟨rfl, -⟩, -⟩ := hsound.follows m st _ hctl
    cases mv with
    | loop io =>
        obtain ⟨hpending, hio⟩ := hwrites
        simp only [hellos, hpending, hio, if_true]
        exact .hello hinbox
    | _ => exact hwrites.elim

theorem stepOrFail_view (hsound : (s.nodes x).Sound)
    (h : s.stepOrFail hosts (x, a) = some s') :
    (s'.view = s.view ∧ s.hellos (x, a) = []) ∨
      ∃ d, s.view.Step x d s'.view ∧ s.view.hellos x d = s.hellos (x, a) := by
  cases a with
  | inl mv =>
      have hsaid := said_step hsound h
      rcases step_view hsound h with heq | ⟨d, hd, -⟩
      · have hinbox : s'.inbox = s.inbox := congrArg Exchange.inbox heq
        refine .inl ⟨heq, hsaid.unique (.nothing fun f => ?_)⟩
        rw [hinbox]
      · exact .inr ⟨d, hd, hd.said.unique hsaid⟩
  | inr fault =>
      cases fault with
      | terminate =>
          obtain rfl := Option.some.inj h
          exact .inl ⟨view_post rfl, rfl⟩
      | read =>
          simp only [stepOrFail] at h
          split at h
          · next e hpending =>
              obtain ⟨m, st, k, hctl⟩ := Process.handling_of_pending hpending
              obtain ⟨⟨rfl, hev⟩, -⟩ := hsound.follows m st _ hctl
              exact .inr ⟨.lose, lose_read hctl hev h, rfl⟩
          · cases h
      | receive k =>
          obtain ⟨p, hp, hs⟩ := Option.map_eq_some_iff.mp h
          obtain ⟨t, ht, hreceiving, rfl⟩ := Process.receiveEnds_cases hp
          exact .inr ⟨.forget, @step_forget _ _ s s' x k t { t with receiving := false } _ _ ht rfl
            (fun _ => .inr (.inl hreceiving)) hs, rfl⟩

/-- What holds after hellos have been said on the ends `said`. -/
structure Civil (said : List TcpStream) (s : Network ι) : Prop where
  sound : ∀ x, (s.nodes x).Sound
  owned : s.view.Owned
  polite : s.view.Polite said
  registered : ∀ x id peer, (s.nodes x).node.peers.lookup id = some peer → peer.stream ∈ said
  deaf : ∀ x, (s.nodes x).Deaf

omit [DecidableEq ι] in
theorem civil_new (hosts : Hosts ι) : (new hosts).Civil [] where
  sound x := Process.sound_new _
  owned := view_new hosts ▸ Exchange.owned_empty
  polite := view_new hosts ▸ Exchange.polite_empty
  registered x id peer hl := by simp [new, Process.new, SeedNode.new] at hl
  deaf x m hm := by cases hm

/-- What a receiving thread could pass on has been read before. -/
theorem Civil.no_receive (h : s.Civil said) (k : Nat) : s.step hosts (x, .receive k) ≠ some s' := by
  intro hs
  simp only [step] at hs
  split at hs
  · next t ht =>
      split at hs
      · next msg rest hinbox =>
          obtain ⟨p, hp, -⟩ := Option.map_eq_some_iff.mp hs
          obtain ⟨t', ht', hreceiving, -⟩ := Process.received_cases hp
          obtain rfl : t = t' := Option.some.inj (ht.symm.trans ht')
          have hkept : t.peer.stream ∈ s.view.kept x := .inr ⟨k, t, ht, rfl, .inr (.inl hreceiving)⟩
          have hheard := h.polite.heard x _ (.inr hkept)
          have honce := List.nodup_iff_count_le_one.mp h.polite.once t.peer.stream.other
          rw [show s.view.inbox t.peer.stream = msg :: rest from hinbox, List.length_cons] at hheard
          omega
      · cases hs
  · cases hs

theorem civil_step (h : s.Civil said) (hanswers : AnswersOthers s (x, a))
    (hs : s.stepOrFail hosts (x, a) = some s') : s'.Civil (said ++ s.hellos (x, a)) := by
  have hview := stepOrFail_view (h.sound x) hs
  have hprocess := fun z => stepOrFail_process hs z
  refine ⟨fun z => ?_, ?_, ?_, fun z id peer hl => ?_, fun z => ?_⟩
  · rcases hprocess z with heq | ⟨act, hact, -⟩
    · exact heq ▸ h.sound z
    · exact Process.sound_step (h.sound z) hact
  · rcases hview with ⟨heq, -⟩ | ⟨d, hd, -⟩
    · exact heq ▸ h.owned
    · exact Exchange.owned_step h.owned hd
  · rcases hview with ⟨heq, hnil⟩ | ⟨d, hd, hsaid⟩
    · rw [heq, hnil, List.append_nil]
      exact h.polite
    · rw [← hsaid]
      refine Exchange.polite_step h.polite h.owned hd fun e hanswer hnow => ?_
      subst hanswer
      obtain ⟨m, id, rest, hctl, -⟩ := Ctl.now_eq_met.mp hnow
      exact hanswers (by rw [hctl]; rfl) e (by rw [← hsaid]; simp [Exchange.hellos, hnow])
  · rcases hprocess z with heq | ⟨act, hact, -⟩
    · exact List.mem_append_left _ (h.registered z id peer (heq ▸ hl))
    · rcases Process.step_peers (h.sound z) hact hl with hl | hkeeps
      · exact List.mem_append_left _ (h.registered z id peer hl)
      · exact List.mem_append_left _ (h.polite.kept z _ hkeeps)
  · rcases hprocess z with heq | ⟨act, hact, hreceived⟩
    · exact heq ▸ h.deaf z
    · refine Process.deaf_step (h.deaf z) (h.sound z) hact fun k msg heq => ?_
      obtain ⟨k, rfl⟩ := hreceived k msg heq
      have hs : s.step hosts (x, .receive k) = some s' := hs
      exact h.no_receive k hs

theorem civil_run {as : List (ι × (Move ⊕ Fault))} (h : (faulty hosts).Run AnswersOthers as s) :
    s.Civil (greetings hosts as) := by
  induction h with
  | nil => exact civil_new hosts
  | @snoc as s s' a hrun hanswers hs ih =>
      have hsnoc : greetings hosts (as ++ [a]) = greetings hosts as ++ s.hellos a :=
        hrun.outputs_snoc a
      rw [hsnoc]
      exact civil_step ih hanswers hs

theorem Civil.oneHello {as : List (ι × (Move ⊕ Fault))} (h : s.Civil (greetings hosts as)) :
    OneHello hosts as s where
  once := List.nodup_iff_count_le_one.mp h.polite.once
  registered x id peer hl := List.count_eq_one_of_mem h.polite.once (h.registered x id peer hl)
  unheard x m hm id hello := h.deaf x m hm id (.hello hello)

omit [DecidableEq ι] in
/-- On an end he has dialed, whoever answers has said hello before. -/
theorem Civil.mem_of_answer (h : s.Civil said) (hmet : (s.nodes x).ctl.met) {e : TcpStream}
    (he : e ∈ s.hellos (x, a)) (hside : e.side ≠ .listener) : e ∈ said := by
  have hside : e.side = .dialer := by
    cases hs : e.side with
    | dialer => rfl
    | listener => exact absurd hs hside
  cases a with
  | inr fault => cases he
  | inl mv =>
      cases mv with
      | loop io =>
          simp only [hellos] at he
          split at he
          · next e' hello hpending =>
              split at he
              · obtain rfl := List.mem_singleton.mp he
                obtain ⟨m, st, k, hctl⟩ := Process.handling_of_pending hpending
                obtain ⟨⟨-, hst⟩, -⟩ := (h.sound x).follows m st _ hctl
                rcases hst with ⟨rfl, -⟩ | ⟨id, rfl, hev, -⟩
                · simp [hctl, Ctl.met] at hmet
                · exact h.polite.dialer x e hside
                    (.inr (Ctl.now_eq_met.mpr ⟨m, id, _, hctl, hev⟩))
              · cases he
          · cases he
      | _ => cases he

end Network

/-- **One hello each way.** In a run of any nodes, whatever fails in it,
each end of a connection says hello at most once, once if it belongs to a
peer, and no thread passes a hello on, for as long as no loop answers on an
end its own node has dialed. When one does, that end has said two. -/
theorem one_hello_iff {ι : Type} [DecidableEq ι] {hosts : Hosts ι}
    {as : List (ι × (Move ⊕ Fault))} {s : Network ι} (h : (faulty hosts).Run Any as s) :
    (faulty hosts).Run AnswersOthers as s ↔
      ∀ bs t, bs <+: as → (faulty hosts).Run Any bs t → OneHello hosts bs t := by
  refine System.Run.guarded_iff (fun as s hrun => (Network.civil_run hrun).oneHello) ?_ h
  intro as s a s' hrun hanswers hs hone
  obtain ⟨hmet, e, he, hside⟩ : (s.nodes a.1).ctl.met ∧ ∃ e ∈ s.hellos a, e.side ≠ .listener := by
    simpa [AnswersOthers] using hanswers
  have hmem := (Network.civil_run hrun).mem_of_answer hmet he hside
  have hsnoc : greetings hosts (as ++ [a]) = greetings hosts as ++ s.hellos a :=
    hrun.outputs_snoc a
  have honce := hone.once e
  have hbefore := List.count_pos_iff.mpr hmem
  have hnow := List.count_pos_iff.mpr he
  rw [hsnoc, List.count_append] at honce
  omega

/-! ## Runs -/

/-- One node dials the other, which registers it, and has not been answered. -/
def accepting : List (Bool × (Move ⊕ Fault)) :=
  ([(false, .post (.peer (.connect "127.0.0.1:29002")))] ++ takes false 4 ++
    [(true, .accept)] ++ takes true 12 : List (Bool × Move)).map (Prod.map id .inl)

theorem one_hello_accepting : ∃ s, (faulty pair).Run Any accepting s ∧
    "1" ∈ (s.nodes true).node.peers ∧
      ∀ bs t, bs <+: accepting → (faulty pair).Run Any bs t → OneHello pair bs t := by
  have h : ((faulty pair).exec AnswersOthers (faulty pair).init accepting).bind
      (fun s => if "1" ∈ (s.nodes true).node.peers then some () else none) = some () := by
    decide
  obtain ⟨s, hs, hpeer⟩ := Option.bind_eq_some_iff.mp h
  have hrun := System.run_iff.mpr hs
  have hany := hrun.weaken (H := Any) fun _ _ _ => trivial
  split at hpeer
  · next hp => exact ⟨s, hany, hp, (one_hello_iff hany).mp hrun⟩
  · cases hpeer

/-- Then the node that has dialed reads the hello of the other, and answers
it. -/
def answering : List (Bool × (Move ⊕ Fault)) :=
  accepting ++ (takes false 12 ++ [(true, Move.receive 0)]).map (Prod.map id .inl)

/-- It has said two hellos to its peer, and the second one is passed on. -/
theorem two_hellos_answering : pair.name false ≠ pair.name true ∧
    ∃ s, (faulty pair).Run Any answering s ∧ ¬OneHello pair answering s ∧
      (∃ peer ∈ (s.nodes false).node.peers.lookup "2",
        (greetings pair answering).count peer.stream = 2) ∧
      ⟨.peer (.receivedMessage "1" (.hello ⟨"1"⟩)), .receiveLoop 0⟩ ∈ (s.nodes true).queue := by
  refine ⟨by decide, ?_⟩
  have h : ((faulty pair).exec Any (faulty pair).init answering).bind
      (fun s => if (s.nodes false).node.peers.lookup "2" = some ⟨"2", ⟨0, .dialer⟩, 0⟩ ∧
        ⟨.peer (.receivedMessage "1" (.hello ⟨"1"⟩)), .receiveLoop 0⟩ ∈ (s.nodes true).queue
        then some () else none) = some () := by
    decide
  have htwo : (greetings pair answering).count ⟨0, .dialer⟩ = 2 := by decide
  obtain ⟨s, hs, hstate⟩ := Option.bind_eq_some_iff.mp h
  split at hstate
  · next hst =>
      refine ⟨s, System.run_iff.mpr hs, fun hone => ?_, ⟨_, hst.1, htwo⟩, hst.2⟩
      have honce := hone.once ⟨0, .dialer⟩
      omega
  · cases hstate

end Reactor.Sn
