import Reactor.SnMesh

/-!
# Asked and joined

Nodes that come in some order, each of them asked only to connect to nodes
that come after it, any number of times, while no call of a loop fails
(`Upward`), nobody is told to end and no connection breaks (`network`).
The argument about connections is that of `Meshed`. What is left for a node
is that it loses no peer, and that the threads of its peers do not end
(`Process.Steady`).

**`asked_are_joined`**: at rest every loop waits for an event and there is
none, and whoever was asked to connect to a node has it registered, and is
registered there, on the two ends of one connection.
-/

namespace Reactor.Sn

open Function (update)
open Relation

/-! ## A node that loses nobody -/

/-- A round answers nobody who is a peer already, and has dropped nobody. -/
def Stage.Adds (node : SeedNode) : Stage → Prop
  | .answered id => id ∉ node.peers
  | .started peer | .announced peer => peer.id ∉ node.peers
  | .dropped => False
  | _ => True

theorem Stage.Adds.next {node : SeedNode} {ev : Event} {st : Stage} {c : Call} {r : c.Answer}
    (h : st.Adds node) (hallows : node.Allows ev st c) (hdrop : ∀ peer, c ≠ .drop peer) :
    (st.next c r).Adds node ∧ ∀ peer, st.peer? = some peer → (st.next c r).peer? = some peer := by
  cases c with
  | tryClone site e =>
      obtain ⟨rfl | ⟨id, rfl⟩, -⟩ := hallows <;> cases r <;>
        simp_all [Stage.next, Stage.Adds, Stage.peer?]
  | connect addr =>
      obtain ⟨rfl, -⟩ := hallows
      cases r <;> simp [Stage.next, Stage.Adds, Stage.peer?]
  | localAddr e =>
      obtain ⟨id, rfl, -⟩ := hallows
      cases r <;> simp [Stage.next, Stage.Adds, Stage.peer?]
  | readPeerMessage e =>
      obtain ⟨rfl, -⟩ := hallows
      cases r with
      | none => simp [Stage.next, Stage.Adds, Stage.peer?]
      | some msg => cases msg <;> simp [Stage.next, Stage.Adds, Stage.peer?]
  | writePeerMessage e msg =>
      obtain ⟨-, ⟨rfl, -⟩ | ⟨id, rfl, -, hid⟩⟩ := hallows
      · cases r <;> simp [Stage.next, Stage.Adds, Stage.peer?]
      · cases r <;> simp [Stage.next, Stage.Adds, Stage.peer?, hid]
  | trySend id notify ev' =>
      obtain ⟨rfl, -⟩ := hallows
      simp [Stage.next, Stage.Adds, Stage.peer?]
  | send ev' =>
      rcases hallows with ⟨e, rfl, -⟩ | ⟨peer, addr, rfl, -⟩
      · simp [Stage.next, Stage.Adds, Stage.peer?]
      · simpa [Stage.next, Stage.Adds, Stage.peer?] using h
  | spawn id e =>
      obtain ⟨rfl, -, hid⟩ := hallows
      simp [Stage.next, Stage.Adds, Stage.peer?, hid]
  | drop peer => exact absurd rfl (hdrop peer)
  | subscriptionOrder | eventIdOrder | peerOrder =>
      obtain rfl : st = .start := hallows
      simp [Stage.next, Stage.Adds, Stage.peer?]

namespace Process

/-- Every thread runs for a peer, or for one about to be registered. -/
structure Steady (asks : String → Prop) (p : Process) : Prop where
  mails : ∀ m ∈ p.mails, m.Fair asks
  adds : ∀ m st rest, p.ctl = .handling m st rest → st.Adds p.node
  /-- A disconnect being handled finds nobody. -/
  absent : ∀ m st rest id, p.ctl = .handling m st rest → m.ev = .peer (.disconnect id) →
    id ∉ p.node.peers
  threads : ∀ k t, p.threads k = some t → t.sending ∧ t.receiving ∧ t.dropped = false ∧
    (p.node.peers.lookup t.peer.id = some t.peer ∨ p.ctl.joining? = some t.peer)

variable {asks : String → Prop} {p p' : Process}

theorem Steady.post (h : p.Steady asks) {ev : Event} {sender : Sender}
    (hmail : (Mail.mk ev sender).Fair asks) : (p.post ev sender).Steady asks where
  mails m hm := by
    rw [mails_post] at hm
    rcases List.mem_append.mp hm with hm | hm
    · exact h.mails m hm
    · exact List.mem_singleton.mp hm ▸ hmail
  adds := h.adds
  absent := h.absent
  threads := h.threads

/-- A call that changes nothing in the process but the round. -/
theorem Steady.goOn (h : p.Steady asks) {m : Mail} {st : Stage} {c : Call}
    {k : c.Answer → Prog Turn} {r : c.Answer} (hctl : p.ctl = .handling m st (.call c k))
    (hadds : (st.next c r).Adds p.node)
    (hpeer : ∀ peer, st.peer? = some peer → (st.next c r).peer? = some peer) :
    Steady asks { p with ctl := .handling m (st.next c r) (k r) } where
  mails m' hm' := h.mails m' (mails_handling hctl ▸ hm')
  adds m' st' rest' hctl' := by
    obtain ⟨rfl, rfl, rfl⟩ := Ctl.handling.inj hctl'
    exact hadds
  absent m' st' rest' id hctl' := by
    obtain ⟨rfl, rfl, rfl⟩ := Ctl.handling.inj hctl'
    exact h.absent m st _ id hctl
  threads k' t ht := by
    obtain ⟨hsending, hreceiving, hdropped, hpeer'⟩ := h.threads k' t ht
    rw [hctl] at hpeer'
    exact ⟨hsending, hreceiving, hdropped, hpeer'.imp_right (hpeer _)⟩

/-- A remote peer started for somebody who is none. -/
theorem Steady.start (h : p.Steady asks) (hsound : p.Sound) {m : Mail} {st : Stage}
    {id : ID} {stream : TcpStream} {k : Nat → Prog Turn}
    (hctl : p.ctl = .handling m st (.call (.spawn id stream) k)) :
    Steady asks
      { p.setThreads p.nextChannel ⟨⟨id, stream, p.nextChannel⟩, true, true, false⟩ with
        nextChannel := p.nextChannel + 1
        ctl := .handling m (.started ⟨id, stream, p.nextChannel⟩) (k p.nextChannel) } := by
  obtain ⟨⟨rfl, -, hid⟩, -⟩ := hsound.follows m st _ hctl
  refine ⟨fun m' hm' => h.mails m' (mails_handling hctl ▸ hm'),
    fun m' st' rest' hctl' => ?_, fun m' st' rest' id' hctl' => ?_, fun k' t ht => ?_⟩
  · obtain ⟨rfl, rfl, rfl⟩ := Ctl.handling.inj hctl'
    exact hid
  · obtain ⟨rfl, rfl, rfl⟩ := Ctl.handling.inj hctl'
    exact h.absent m _ _ id' hctl
  · rcases setThreads_cases ht with ⟨-, rfl⟩ | ⟨-, hold⟩
    · exact ⟨rfl, rfl, rfl, .inr rfl⟩
    · obtain ⟨hsending, hreceiving, hdropped, hpeer | hpeer⟩ := h.threads k' t hold
      · exact ⟨hsending, hreceiving, hdropped, .inl hpeer⟩
      · simp [hctl, Ctl.joining?, Stage.peer?] at hpeer

/-- The end of a round loses no peer. -/
theorem Steady.next (h : p.Steady asks) {m : Mail} {st : Stage} {node : SeedNode}
    (hctl : p.ctl = .handling m st (.ret (.next node)))
    (hleaves : p.node.Leaves m.ev st node.peers) :
    Steady asks { p with node, ctl := .waiting } := by
  have hadds := h.adds m st _ hctl
  have hpeers : ∀ peer : RemotePeer,
      p.node.peers.lookup peer.id = some peer ∨ st.peer? = some peer →
        node.peers.lookup peer.id = some peer := by
    have hsame : node.peers = p.node.peers → st.peer? = none → ∀ peer : RemotePeer,
        p.node.peers.lookup peer.id = some peer ∨ st.peer? = some peer →
          node.peers.lookup peer.id = some peer := by
      intro heq hst peer hpeer
      rw [heq]
      exact hpeer.resolve_right (by simp [hst])
    cases st with
    | start => exact hsame hleaves.1 rfl
    | posted => exact hsame hleaves rfl
    | aborted => exact hsame hleaves rfl
    | introduced id => exact hsame hleaves.1 rfl
    | announced new =>
        rw [show node.peers = _ from hleaves]
        rintro peer (hpeer | hpeer)
        · have hne : peer.id ≠ new.id := fun heq =>
            hadds (heq ▸ Finmap.mem_of_lookup_eq_some hpeer)
          rwa [Finmap.lookup_insert_of_ne _ hne]
        · obtain rfl : new = peer := Option.some.inj hpeer
          exact Finmap.lookup_insert _
    | dropped => exact hadds.elim
    | _ => exact hleaves.elim
  refine ⟨fun m' hm' => h.mails m' ?_, fun _ _ _ hc => (nomatch hc),
    fun _ _ _ _ hc => (nomatch hc), fun k t ht => ?_⟩
  · exact mails_handling hctl ▸ List.mem_cons_of_mem _ hm'
  · obtain ⟨hsending, hreceiving, hdropped, hpeer⟩ := h.threads k t ht
    rw [hctl] at hpeer
    exact ⟨hsending, hreceiving, hdropped, .inl (hpeers _ hpeer)⟩

/-- No call drops a peer, and no round says it is the last. -/
theorem Steady.no_end (h : p.Steady asks) (hsound : p.Sound) {m : Mail} {st : Stage}
    {rest : Prog Turn} (hctl : p.ctl = .handling m st rest) :
    (∀ peer k, rest ≠ .call (.drop peer) k) ∧ ∀ node, rest ≠ .ret (.done node) := by
  have hterm : m.ev ≠ .terminate := by
    intro hev
    have hfair := h.mails m (mails_handling hctl ▸ List.mem_cons_self ..)
    simp [Mail.Fair, hev] at hfair
  have hfollows := hsound.follows m st _ hctl
  constructor
  · rintro peer k rfl
    rcases hfollows.1 with ⟨-, id, hev, hpeer⟩ | ⟨-, hev⟩
    · exact h.absent m st _ id hctl hev (Finmap.mem_of_lookup_eq_some hpeer)
    · exact hterm hev
  · rintro node rfl
    exact hterm hfollows.1

/-- A request to connect is in the channel, or a round for it has not
dialed yet. -/
def Asked (p : Process) (addr : String) : Prop :=
  (∃ m ∈ p.queue, m.ev = .peer (.connect addr)) ∨
    ∃ m rest, p.ctl = .handling m .start rest ∧ m.ev = .peer (.connect addr)

theorem Asked.post {addr : String} (h : p.Asked addr) (ev : Event) (sender : Sender) :
    (p.post ev sender).Asked addr :=
  h.imp_left fun ⟨m, hm, hev⟩ => ⟨m, List.mem_append_left _ hm, hev⟩

end Process

/-! ## A network that dials in one direction -/

/-- The node an address leads to comes after the one that is asked. -/
def Onward {ι : Type} [LT ι] (hosts : Hosts ι) (x : ι) (addr : String) : Prop :=
  ∀ y, hosts.host addr = some y → x < y

/-- The address of a `Connect`. -/
def Event.address? : Event → Option String
  | .peer (.connect addr) => some addr
  | _ => none

/-- The id of a `Disconnect` from outside. -/
def Mail.dismisses? : Mail → Option ID
  | ⟨.peer (.disconnect id), .outside⟩ => some id
  | _ => none

/-- Nodes are asked to connect only to nodes that come after them, nothing
fails, and no `Disconnect` from outside finds a peer. -/
def Upward {ι : Type} [LT ι] (hosts : Hosts ι) (s : Network ι) : ι × Move → Prop
  | (x, .post ev) => ∀ addr ∈ ev.address?, Onward hosts x addr
  | (x, .take) =>
      ∀ m ∈ (s.nodes x).queue.head?, ∀ id ∈ m.dismisses?, id ∉ (s.nodes x).node.peers
  | (x, .loop io) => ¬s.Fails hosts x (.loop io)
  | _ => True

namespace Network

/-- Everybody knows who the others are, and loses nobody. -/
structure Joining {ι : Type} [LT ι] (hosts : Hosts ι) (s : Network ι) : Prop where
  introduced : s.Introduced hosts
  nodes : ∀ x, (s.nodes x).Steady (Onward hosts x)

variable {ι : Type} [DecidableEq ι] {hosts : Hosts ι} {s s' : Network ι} {x : ι} {mv : Move}

section

variable [LT ι]

omit [DecidableEq ι] in
/-- A kept end has not come to its end. -/
theorem Joining.kept_open (h : s.Joining hosts) (hmeshed : s.view.Meshed) {k : Nat} {t : Threads}
    (ht : (s.nodes x).threads k = some t) (hreceiving : t.receiving) :
    s.Open t.peer.stream.other := by
  have hkept : t.peer.stream ∈ s.view.kept x := .inr ⟨k, t, ht, rfl, .inr (.inl hreceiving)⟩
  exact open_of_held h.introduced.sound (hmeshed.held_other hkept)

theorem Joining.no_receiveEnds (h : s.Joining hosts) (hmeshed : s.view.Meshed)
    (hs : s.step hosts (x, mv) = some s') (k : Nat) : mv ≠ .receiveEnds k := by
  rintro rfl
  simp only [step] at hs
  split at hs
  · next t ht =>
      split at hs
      · next hend => exact hend.2 (h.kept_open hmeshed ht ((h.nodes x).threads k t ht).2.1)
      · cases hs
  · cases hs

omit [DecidableEq ι] in
/-- The end that is kept for a peer, and who is at the other one. -/
theorem Joining.kept_peer (h : s.Joining hosts) {id : ID} (hid : id ∈ (s.nodes x).node.peers) :
    ∃ f ∈ s.view.kept x, s.Names hosts f id := by
  obtain ⟨peer, hpeer⟩ := Option.isSome_iff_exists.mp (Finmap.lookup_isSome.mpr hid)
  obtain ⟨rfl, t, ht, rfl⟩ := (h.introduced.sound x).peers id peer hpeer
  exact ⟨_, .inr ⟨_, t, ht, rfl, .inl ((h.nodes x).threads _ t ht).1⟩,
    (h.introduced.knows x).threads _ t ht⟩

omit [DecidableEq ι] in
/-- Before it has answered a hello, a node keeps ends for its peers only. -/
theorem Joining.peer_of_kept (h : s.Joining hosts) {m : Mail} {id : ID} {rest : Prog Turn}
    (hctl : (s.nodes x).ctl = .handling m (.introduced id) rest) {f : TcpStream}
    (hf : f ∈ s.view.kept x) : ∃ id' ∈ (s.nodes x).node.peers, s.Names hosts f id' := by
  rcases (keeps_handling hctl).mp hf with ⟨-, hst⟩ | ⟨k, t, ht, rfl, -⟩
  · cases hst
  · obtain ⟨-, -, -, hpeer | hpeer⟩ := (h.nodes x).threads k t ht
    · exact ⟨t.peer.id, Finmap.mem_of_lookup_eq_some hpeer, (h.introduced.knows x).threads k t ht⟩
    · simp [hctl, Ctl.joining?, Stage.peer?] at hpeer

omit [DecidableEq ι] in
/-- Who is at the other end of a stream whose hello has been read. -/
theorem Joining.names_met (h : s.Joining hosts) {m : Mail} {id : ID} {rest : Prog Turn}
    (hctl : (s.nodes x).ctl = .handling m (.introduced id) rest) {e : TcpStream}
    (hmet : s.view.now x = .met e) : s.Names hosts e id := by
  obtain ⟨e', hev, hname⟩ := (h.introduced.knows x).stage m _ rest id hctl rfl
  obtain rfl : e' = e := by
    simpa [view_now hctl, Stage.now, hev, Event.stream?] using hmet
  exact hname

/-- What a node does is a step in one direction. -/
theorem Joining.rising (hinj : Function.Injective hosts.name) (h : s.Joining hosts)
    (hmeshed : s.view.Meshed) (hup : Upward hosts s (x, mv)) {d : Exchange.Deed ι}
    {t : Exchange ι} (hd : s.view.Step x d t) (hwhy : s.Why hosts x mv d) :
    s.view.Rising x d := by
  have hsound := h.introduced.sound
  have hfails : ¬s.Fails hosts x mv := by
    cases mv with
    | loop io => exact hup
    | _ => exact fun hf => hf
  cases d with
  | dial y =>
      obtain ⟨io, addr, rfl, hpending, hhost⟩ := hwhy
      obtain ⟨m, st, k, hctl⟩ := Process.handling_of_pending hpending
      obtain ⟨⟨rfl, hev⟩, -⟩ := (hsound x).follows m st _ hctl
      have hfair := (h.nodes x).mails m (Process.mails_handling hctl ▸ List.mem_cons_self ..)
      have honward : Onward hosts x addr := by simpa [Mail.Fair, hev] using hfair
      exact honward y hhost
  | answer =>
      obtain ⟨m, id, rest, hctl, hid⟩ := hwhy
      intro e f hmet hf howner
      obtain ⟨y, hy, rfl⟩ := h.names_met hctl hmet
      obtain ⟨id', hid', z, hz, rfl⟩ := h.peer_of_kept hctl hf
      obtain rfl : y = z := Option.some.inj (hy.symm.trans (howner.symm.trans hz))
      exact hid hid'
  | lose =>
      rcases hwhy with hf | ⟨e, hnow, -, hopen⟩ | ⟨e, msg, hnow, hmsg, hno⟩ |
        ⟨m, id, rest, hctl, hid⟩
      · exact absurd hf hfails
      · exact .inl ⟨e, hnow, fun hheld => hopen (open_of_held hsound hheld)⟩
      · obtain ⟨id, rfl, -⟩ := h.introduced.inbox e msg hmsg
        exact absurd rfl (hno _)
      · obtain ⟨f, hf, z, hz, hname⟩ := h.kept_peer hid
        cases hd with
        | @lose e _ hnow _ =>
            rcases hnow with hnow | hmet
            · cases hev : m.ev.stream? <;> simp [view_now hctl, Stage.now, hev] at hnow
            · obtain ⟨y, hy, hname'⟩ := h.names_met hctl hmet
              obtain rfl : z = y := hinj (hname.symm.trans hname')
              exact .inr ⟨e, f, hmet, hf, hz.trans hy.symm⟩
  | forget =>
      rcases hwhy with hf | ⟨peer, hpending⟩ | ⟨k, t, ht, hdropped | ⟨hreceiving, -, hopen⟩⟩
      · exact absurd hf hfails
      · obtain ⟨m, st, k, hctl⟩ := Process.handling_of_pending hpending
        exact ((h.nodes x).no_end (hsound x) hctl).1 peer k rfl
      · rw [((h.nodes x).threads k t ht).2.2.1] at hdropped
        cases hdropped
      · exact hopen (h.kept_open hmeshed ht hreceiving)
  | halt =>
      rcases hwhy with hf | ⟨m, st, node, hctl⟩
      · exact absurd hf hfails
      · exact ((h.nodes x).no_end (hsound x) hctl).2 node rfl
  | _ => trivial

end

/-! ### Runs -/

section

variable [Preorder ι]

end

/-! ### At rest -/

section

variable [LT ι]

omit [DecidableEq ι] in
/-- A node that waits for an event keeps ends for its peers. -/
theorem Joining.lookup_of_kept (h : s.Joining hosts) (hctl : (s.nodes x).ctl = .waiting) {y : ι}
    {f : TcpStream} (hf : f ∈ s.view.kept x) (howner : s.owner f.other = some y) :
    ∃ p, (s.nodes x).node.peers.lookup (hosts.name y) = some p ∧ p.stream = f := by
  rcases hf with ⟨m, st, rest, hctl', -⟩ | ⟨k, t, ht, rfl, -⟩
  · rw [hctl] at hctl'
    cases hctl'
  · obtain ⟨-, -, -, hpeer | hpeer⟩ := (h.nodes x).threads k t ht
    · obtain ⟨z, hz, hname⟩ := (h.introduced.knows x).threads k t ht
      obtain rfl : z = y := Option.some.inj (hz.symm.trans howner)
      exact ⟨t.peer, hname ▸ hpeer, rfl⟩
    · simp [hctl, Ctl.joining?] at hpeer

end

omit [DecidableEq ι] in
/-- Nodes that wait for an event, one of which has dialed the other, are
peers. -/
theorem Joining.joined [Preorder ι] (h : s.Joining hosts) (hmeshed : s.view.Meshed)
    (hidle : ∀ x, (s.nodes x).ctl = .waiting ∧ (s.nodes x).queue = [])
    (hbacklog : ∀ x, s.backlog x = []) {c : Nat} {x y : ι} (hc : s.view.Dialed c x y) :
    ∃ p q, (s.nodes x).node.peers.lookup (hosts.name y) = some p ∧
      (s.nodes y).node.peers.lookup (hosts.name x) = some q ∧ q.stream = p.stream.other := by
  have hfree : ∀ z, s.view.now z = .free ∧ s.view.log z = [] := fun z => by
    simp [view, Process.arrived, hidle z, hbacklog z, Ctl.now]
  obtain ⟨k, ⟨hx, hy⟩, hkeptx, hkepty⟩ := hmeshed.joined hfree hc
  obtain ⟨p, hp, hpstream⟩ := h.lookup_of_kept (hidle x).1 hkeptx hy
  obtain ⟨q, hq, hqstream⟩ := h.lookup_of_kept (hidle y).1 hkepty hx
  exact ⟨p, q, hp, hq, by rw [hpstream, hqstream, TcpStream.other_dialer]⟩

/-- Nobody has ended, so that nobody waits. -/
theorem Resting.idle [Finite ι] [Preorder ι] (hrest : s.Resting)
    (hsound : ∀ x, (s.nodes x).Sound) (hmeshed : s.view.Meshed) (hflowing : s.view.Flowing)
    (x : ι) : (s.nodes x).ctl = .waiting ∧ (s.nodes x).queue = [] := by
  have hrunning : ∀ y, (s.nodes y).ctl.ended = false := by
    intro y
    have hnow := hmeshed.running y
    cases hctl : (s.nodes y).ctl <;> simp_all [view, Ctl.now, Ctl.ended]
  rcases hrest.stands x with hended | ⟨hidle, hqueue⟩ | ⟨e, hreading, hinbox, hopen⟩
  · rw [hrunning x] at hended
    cases hended
  · exact ⟨Ctl.idle_iff.mp hidle, hqueue⟩
  · obtain ⟨y, -, hended⟩ := hrest.waits_for_ended hsound hflowing hreading hinbox hopen
    rw [hrunning y] at hended
    cases hended

end Network

section

variable {ι : Type} [Fintype ι] [DecidableEq ι] [LT ι] [DecidableLT ι]

instance (hosts : Hosts ι) (x : ι) (addr : String) : Decidable (Onward hosts x addr) :=
  inferInstanceAs (Decidable (∀ y, hosts.host addr = some y → x < y))

instance (hosts : Hosts ι) (s : Network ι) [∀ x io, Decidable (s.Fails hosts x (.loop io))] :
    DecidablePred (Upward hosts s)
  | (x, .post ev) => inferInstanceAs (Decidable (∀ addr ∈ ev.address?, Onward hosts x addr))
  | (x, .take) =>
      inferInstanceAs (Decidable (∀ m ∈ (s.nodes x).queue.head?, ∀ id ∈ m.dismisses?, id ∉ _))
  | (x, .loop io) => inferInstanceAs (Decidable ¬s.Fails hosts x (.loop io))
  | (_, .accept) | (_, .sendEnds _) | (_, .receive _) | (_, .receiveEnds _) | (_, .release _) =>
      .isTrue trivial

end

end Reactor.Sn
