import Reactor.SnAccord

/-!
# Simultaneous connects

Two nodes that dial each other, any number of times. Each keeps whichever
of their connections it handles first and turns the others away, so with
two that cross each may keep the one the other has turned away, and then
both lose what they kept.

**`simultaneous_connect`**: they agree as long as no node dials while the
other is between dialing and queueing its own end, no call fails, and a
`Disconnect` from outside finds nobody to disconnect (`Careful`). When
nothing is left to do, each has the other for a peer and holds the other
end of the same connection, or no connection was ever made.

The argument about connections is that of `Accord`. What is left for the
network is that a node has one peer at most, whose threads do not end
(`Process.Paired`), and that only hellos are ever written.
-/

namespace Reactor.Sn

open Function (update)

/-! ## A node that knows of one other -/

/-- The remote peer a round is about to register. -/
def Stage.peer? : Stage → Option RemotePeer
  | .started peer | .announced peer => some peer
  | _ => none

/-- A round has met nobody but `other`, answers him only if he is no peer
yet, and has dropped nobody. -/
def Stage.Meets (node : SeedNode) (other : ID) : Stage → Prop
  | .introduced id => id = other
  | .answered id => id = other ∧ other ∉ node.peers
  | .started peer | .announced peer => peer.id = other ∧ other ∉ node.peers
  | .dropped => False
  | _ => True

/-- The remote peer the loop is about to register. -/
def Ctl.joining? : Ctl → Option RemotePeer
  | .handling _ st _ => st.peer?
  | _ => none

/-- Nobody asks for the end, or for a connection not allowed, and only
someone outside for a disconnect. -/
def Mail.Fair (asks : String → Prop) (m : Mail) : Prop :=
  match m.ev with
  | .terminate => False
  | .peer (.connect addr) => asks addr
  | .peer (.disconnect _) => m.sender = .outside
  | _ => True

namespace Process

/-- A node with the id `own` whose only peer, if any, is `other`, and whose
threads all run for him. -/
structure Paired (own other : ID) (asks : String → Prop) (p : Process) : Prop where
  id : p.node.id = own
  mails : ∀ m ∈ p.mails, m.Fair asks
  meets : ∀ m st rest, p.ctl = .handling m st rest → st.Meets p.node other
  /-- A disconnect being handled finds nobody. -/
  absent : ∀ m st rest id, p.ctl = .handling m st rest → m.ev = .peer (.disconnect id) →
    id ∉ p.node.peers
  peers : ∀ id ∈ p.node.peers, id = other
  threads : ∀ k t, p.threads k = some t → t.sending ∧ t.receiving ∧ t.dropped = false ∧
    (p.node.peers.lookup other = some t.peer ∨ p.ctl.joining? = some t.peer)

/-- What is asked of a step for a node to stay so. -/
def FairAct (other : ID) (asks : String → Prop) (p : Process) : Act → Prop
  | .post ev => (Mail.mk ev .outside).Fair asks
  | .take => ∀ m rest id, p.queue = m :: rest → m.ev = .peer (.disconnect id) → id ∉ p.node.peers
  | .loop io => (∀ m st e, p.ctl ≠ .handling m st (.stop e)) ∧
      ∀ e msg, p.pending = some (.readPeerMessage e) → io (.readPeerMessage e) = some msg →
        msg = .hello ⟨other⟩
  | .receiveEnds _ => False
  | _ => True

variable {own other : ID} {asks : String → Prop} {p p' : Process}

theorem paired_new (own other : ID) (asks : String → Prop) : (new own).Paired own other asks where
  id := rfl
  mails m hm := by cases hm
  meets m st rest hctl := by cases hctl
  absent m st rest id hctl := by cases hctl
  peers id hid := absurd hid (Finmap.notMem_empty)
  threads k t ht := by cases ht

end Process

/-! ### Calls -/

/-- What a round has met is still so after a call other than dropping a
peer, and the remote peer it is about to register is still the same. -/
theorem Stage.Meets.next {node : SeedNode} {other : ID} {ev : Event} {st : Stage} {c : Call}
    {r : c.Answer} (h : st.Meets node other) (hallows : node.Allows ev st c)
    (hdrop : ∀ peer, c ≠ .drop peer)
    (hread : ∀ e msg, c = .readPeerMessage e → HEq r (some msg : Option PeerMessage) →
      msg = .hello ⟨other⟩) :
    (st.next c r).Meets node other ∧ ∀ peer, st.peer? = some peer →
      (st.next c r).peer? = some peer := by
  cases c with
  | tryClone site e =>
      obtain ⟨rfl | ⟨id, rfl⟩, -⟩ := hallows <;> cases r <;>
        simp_all [Stage.next, Stage.Meets, Stage.peer?]
  | connect addr =>
      obtain ⟨rfl, -⟩ := hallows
      cases r <;> simp [Stage.next, Stage.Meets, Stage.peer?]
  | localAddr e =>
      obtain ⟨id, rfl, -⟩ := hallows
      cases r <;> simp_all [Stage.next, Stage.Meets, Stage.peer?]
  | readPeerMessage e =>
      obtain ⟨rfl, -⟩ := hallows
      cases r with
      | none => simp [Stage.next, Stage.Meets, Stage.peer?]
      | some msg =>
          obtain rfl := hread e msg rfl .rfl
          simp [Stage.next, Stage.Meets, Stage.peer?]
  | writePeerMessage e msg =>
      obtain ⟨-, ⟨rfl, -⟩ | ⟨id, rfl, -, hid⟩⟩ := hallows
      · cases r <;> simp [Stage.next, Stage.Meets, Stage.peer?]
      · obtain rfl : id = other := h
        cases r <;> simp [Stage.next, Stage.Meets, Stage.peer?, hid]
  | trySend id notify ev' =>
      obtain ⟨rfl, -⟩ := hallows
      simp [Stage.next, Stage.Meets, Stage.peer?]
  | send ev' =>
      rcases hallows with ⟨e, rfl, -⟩ | ⟨peer, addr, rfl, -⟩
      · simp [Stage.next, Stage.Meets, Stage.peer?]
      · simpa [Stage.next, Stage.Meets, Stage.peer?] using h
  | spawn id e =>
      obtain ⟨rfl, -, hid⟩ := hallows
      obtain ⟨rfl, -⟩ : id = other ∧ _ := h
      simp [Stage.next, Stage.Meets, Stage.peer?, hid]
  | drop peer => exact absurd rfl (hdrop peer)
  | subscriptionOrder | eventIdOrder | peerOrder =>
      obtain rfl : st = .start := hallows
      simp [Stage.next, Stage.Meets, Stage.peer?]

namespace Process

variable {own other : ID} {asks : String → Prop} {p p' : Process}

/-! ### Steps -/

theorem Paired.post (h : p.Paired own other asks) {ev : Event} {sender : Sender}
    (hmail : (Mail.mk ev sender).Fair asks) : (p.post ev sender).Paired own other asks where
  id := h.id
  mails m hm := by
    rw [mails_post] at hm
    rcases List.mem_append.mp hm with hm | hm
    · exact h.mails m hm
    · exact List.mem_singleton.mp hm ▸ hmail
  meets := h.meets
  absent := h.absent
  peers := h.peers
  threads := h.threads

/-- A call that changes nothing in the process but the round. -/
theorem Paired.goOn (h : p.Paired own other asks) {m : Mail} {st : Stage} {c : Call}
    {k : c.Answer → Prog Turn} {r : c.Answer} (hctl : p.ctl = .handling m st (.call c k))
    (hmeets : (st.next c r).Meets p.node other)
    (hpeer : ∀ peer, st.peer? = some peer → (st.next c r).peer? = some peer) :
    Paired own other asks { p with ctl := .handling m (st.next c r) (k r) } where
  id := h.id
  mails m' hm' := h.mails m' (mails_handling hctl ▸ hm')
  meets m' st' rest' hctl' := by
    obtain ⟨rfl, rfl, rfl⟩ := Ctl.handling.inj hctl'
    exact hmeets
  absent m' st' rest' id hctl' := by
    obtain ⟨rfl, rfl, rfl⟩ := Ctl.handling.inj hctl'
    exact h.absent m st _ id hctl
  peers := h.peers
  threads k' t ht := by
    obtain ⟨hsending, hreceiving, hdropped, hpeer'⟩ := h.threads k' t ht
    rw [hctl] at hpeer'
    exact ⟨hsending, hreceiving, hdropped, hpeer'.imp_right (hpeer _)⟩

/-- A remote peer started where there is none. -/
theorem Paired.start (h : p.Paired own other asks) (hsound : p.Sound) {m : Mail} {st : Stage}
    {id : ID} {stream : TcpStream} {k : Nat → Prog Turn}
    (hctl : p.ctl = .handling m st (.call (.spawn id stream) k)) :
    Paired own other asks
      { p.setThreads p.nextChannel ⟨⟨id, stream, p.nextChannel⟩, true, true, false⟩ with
        nextChannel := p.nextChannel + 1
        ctl := .handling m (.started ⟨id, stream, p.nextChannel⟩) (k p.nextChannel) } := by
  obtain ⟨⟨rfl, -, -⟩, -⟩ := hsound.follows m st _ hctl
  obtain ⟨rfl, hother⟩ := h.meets m _ _ hctl
  refine ⟨h.id, fun m' hm' => h.mails m' (mails_handling hctl ▸ hm'),
    fun m' st' rest' hctl' => ?_, fun m' st' rest' id' hctl' => ?_, h.peers, fun k' t ht => ?_⟩
  · obtain ⟨rfl, rfl, rfl⟩ := Ctl.handling.inj hctl'
    exact ⟨rfl, hother⟩
  · obtain ⟨rfl, rfl, rfl⟩ := Ctl.handling.inj hctl'
    exact h.absent m _ _ id' hctl
  · by_cases hk : k' = p.nextChannel
    · subst hk
      obtain rfl := Option.some.inj (show some _ = some t by simpa using ht)
      exact ⟨rfl, rfl, rfl, .inr rfl⟩
    · -- there are no other threads, since there is no peer
      obtain ⟨-, -, -, hpeer | hpeer⟩ := h.threads k' t (by simpa [hk] using ht)
      · exact absurd (Finmap.mem_of_lookup_eq_some hpeer) hother
      · simp [hctl, Ctl.joining?, Stage.peer?] at hpeer

/-- The end of a round. -/
theorem Paired.next (h : p.Paired own other asks) {m : Mail} {st : Stage} {node : SeedNode}
    (hctl : p.ctl = .handling m st (.ret (.next node))) (hid : node.id = p.node.id)
    (hleaves : p.node.Leaves m.ev st node.peers) :
    Paired own other asks { p with node, ctl := .waiting } := by
  have hmeets := h.meets m st _ hctl
  have hpeers : (∀ id ∈ node.peers, id = other) ∧ ∀ peer,
      p.node.peers.lookup other = some peer ∨ st.peer? = some peer →
        node.peers.lookup other = some peer := by
    have hsame : node.peers = p.node.peers → st.peer? = none →
        (∀ id ∈ node.peers, id = other) ∧ ∀ peer,
          p.node.peers.lookup other = some peer ∨ st.peer? = some peer →
            node.peers.lookup other = some peer := by
      intro heq hst
      rw [heq, hst]
      exact ⟨h.peers, fun peer hpeer => hpeer.resolve_right (by simp)⟩
    cases st with
    | start => exact hsame hleaves.1 rfl
    | posted => exact hsame hleaves rfl
    | aborted => exact hsame hleaves rfl
    | introduced id => exact hsame hleaves.1 rfl
    | announced peer =>
        obtain ⟨rfl, hother⟩ := hmeets
        rw [show node.peers = _ from hleaves]
        refine ⟨fun id hid => ?_, fun peer' hpeer => ?_⟩
        · rcases Finmap.mem_insert.mp hid with rfl | hid
          · rfl
          · exact h.peers id hid
        · rcases hpeer with hpeer | hpeer
          · exact absurd (Finmap.mem_of_lookup_eq_some hpeer) hother
          · rw [Finmap.lookup_insert]
            exact hpeer
    | dropped => exact hmeets.elim
    | _ => exact hleaves.elim
  refine ⟨hid.trans h.id, fun m' hm' => h.mails m' ?_, fun _ _ _ hc => (nomatch hc),
    fun _ _ _ _ hc => (nomatch hc), hpeers.1, fun k t ht => ?_⟩
  · exact mails_handling hctl ▸ List.mem_cons_of_mem _ hm'
  · obtain ⟨hsending, hreceiving, hdropped, hpeer⟩ := h.threads k t ht
    rw [hctl] at hpeer
    exact ⟨hsending, hreceiving, hdropped, .inl (hpeers.2 _ hpeer)⟩

/-- No call drops a peer, and no round says it is the last. -/
theorem Paired.no_end (h : p.Paired own other asks) (hsound : p.Sound) {m : Mail} {st : Stage}
    {rest : Prog Turn} (hctl : p.ctl = .handling m st rest) :
    (∀ peer k, rest ≠ .call (.drop peer) k) ∧ ∀ node, rest ≠ .ret (.done node) := by
  have hterm : m.ev ≠ .terminate := by
    intro hev
    have hfair := h.mails m (mails_handling hctl ▸ List.mem_cons_self ..)
    simp [Mail.Fair, hev] at hfair
  have hfollows := hsound.follows m st _ hctl
  constructor
  · rintro peer k rfl
    rcases hfollows.1 with ⟨-, id, hev, hpeer⟩ | ⟨-, hev⟩
    · exact h.absent m st _ id hctl hev (Finmap.mem_of_lookup_eq_some hpeer)
    · exact hterm hev
  · rintro node rfl
    exact hterm hfollows.1

theorem paired_advance {io : Io} (h : p.Paired own other asks) (hsound : p.Sound)
    (hfair : p.FairAct other asks (.loop io)) (hs : p.advance io = some p') :
    p'.Paired own other asks := by
  obtain ⟨hstop, hread⟩ := hfair
  obtain ⟨m, st, c, k, hctl, rfl⟩ | ⟨m, st, node, hctl, rfl⟩ | ⟨m, st, node, hctl, rfl⟩ |
    ⟨m, st, e, hctl, rfl⟩ := advance_cases hs
  · obtain ⟨hdrop, -⟩ := h.no_end hsound hctl
    have hgo : ∀ r : c.Answer, (∀ e msg, c = .readPeerMessage e →
        HEq r (some msg : Option PeerMessage) → msg = .hello ⟨other⟩) →
        Paired own other asks { p with ctl := .handling m (st.next c r) (k r) } := by
      intro r hr
      obtain ⟨hmeets, hpeer⟩ := (h.meets m st _ hctl).next (hsound.follows m st _ hctl).1
        (fun peer hc => by subst hc; exact hdrop peer k rfl) hr
      exact h.goOn hctl hmeets hpeer
    cases c with
    | spawn id stream => exact h.start hsound hctl
    | send ev =>
        refine (hgo () (by simp)).post ?_
        rcases (hsound.follows m st _ hctl).1 with ⟨e, -, rfl⟩ | ⟨peer, addr, -, rfl⟩ <;> trivial
    | drop peer => exact absurd rfl (hdrop peer k)
    | readPeerMessage e =>
        refine hgo _ fun e' msg he hmsg => ?_
        exact hread e msg (by simp [pending, hctl]) (eq_of_heq hmsg)
    | _ => exact hgo _ (by simp)
  · obtain ⟨-, hid, hleaves⟩ := hsound.follows m st _ hctl
    exact h.next hctl hid hleaves
  · exact absurd rfl ((h.no_end hsound hctl).2 node)
  · exact absurd hctl (hstop m st e)

theorem paired_step {a : Act} (h : p.Paired own other asks) (hsound : p.Sound)
    (hfair : p.FairAct other asks a) (hs : p.step a = some p') : p'.Paired own other asks := by
  cases a with
  | post ev =>
      obtain rfl := Option.some.inj hs
      exact h.post hfair
  | accept stream =>
      obtain rfl := Option.some.inj hs
      exact h.post trivial
  | take =>
      obtain ⟨m, rest, hctl, hqueue, rfl⟩ := take_cases hs
      have hjoining : p.ctl.joining? = none := by rw [hctl]; rfl
      refine ⟨h.id, fun m' hm' => h.mails m' ?_, fun m' st' rest' hctl' => ?_,
        fun m' st' rest' id hctl' => ?_, h.peers, fun k t ht => ?_⟩
      · simpa [mails, hctl, hqueue] using hm'
      · obtain ⟨rfl, rfl, rfl⟩ := Ctl.handling.inj hctl'
        trivial
      · obtain ⟨rfl, rfl, rfl⟩ := Ctl.handling.inj hctl'
        exact hfair m rest id hqueue
      · obtain ⟨hsending, hreceiving, hdropped, hpeer⟩ := h.threads k t ht
        exact ⟨hsending, hreceiving, hdropped, .inl (hpeer.resolve_right (by simp [hjoining]))⟩
  | loop io => exact paired_advance h hsound hfair hs
  | sendEnds k =>
      obtain ⟨t, ht, -, hdropped, -⟩ := sendEnds_cases hs
      rw [(h.threads k t ht).2.2.1] at hdropped
      cases hdropped
  | received k msg =>
      obtain ⟨t, -, -, rfl⟩ := received_cases hs
      exact h.post trivial
  | receiveEnds k => exact hfair.elim

end Process

/-! ## Two nodes -/

/-- No call fails, nobody asks a node to dial itself, no node dials while
the other has dialed and not yet queued its own end, and no `Disconnect`
from outside finds a peer. -/
def Careful (hosts : Hosts Bool) (s : Network Bool) : Bool × Move → Prop
  | (x, .post ev) =>
      match ev with
      | .peer (.connect addr) => hosts.host addr ≠ some x
      | _ => True
  | (x, .take) =>
      match (s.nodes x).queue with
      | ⟨.peer (.disconnect id), .outside⟩ :: _ => id ∉ (s.nodes x).node.peers
      | _ => True
  | (x, .loop io) => ¬s.Fails hosts x (.loop io) ∧
      match (s.nodes x).pending with
      | some (.connect _) => (s.nodes !x).ctl.dialing? = none
      | _ => True
  | _ => True

namespace Network

/-- What a node has to read was written by the other, who only says hello. -/
def Hellos (hosts : Hosts Bool) (s : Network Bool) : Prop :=
  ∀ e x, s.owner e = some x → ∀ msg ∈ s.inbox e, msg = .hello ⟨hosts.name (!x)⟩

/-- Both nodes know of each other only. -/
structure Paired (hosts : Hosts Bool) (s : Network Bool) : Prop where
  sound : ∀ x, (s.nodes x).Sound
  nodes : ∀ x, (s.nodes x).Paired (hosts.name x) (hosts.name !x)
    fun addr => hosts.host addr ≠ some x
  hellos : s.Hellos hosts

variable {hosts : Hosts Bool} {s s' : Network Bool} {x : Bool} {mv : Move}

theorem paired_new (hosts : Hosts Bool) : (new hosts).Paired hosts where
  sound x := Process.sound_new _
  nodes x := Process.paired_new _ _ _
  hellos e x h := by cases h

/-- Whoever holds an end in the exchange holds it in the network. -/
theorem open_of_held {ι : Type} {s : Network ι} (hsound : ∀ x, (s.nodes x).Sound) {e : TcpStream}
    (h : s.view.Held e) : s.Open e := by
  obtain ⟨x, howner, hhas⟩ := h
  refine .inr ⟨x, howner, ?_⟩
  have hhandling : ∀ {m st rest}, (s.nodes x).ctl = .handling m st rest →
      m.ev = .peer (.connected e) → (s.nodes x).Holds e := fun hctl hev =>
    .inl ⟨_, Process.mails_handling hctl ▸ List.mem_cons_self .., hev⟩
  rcases hhas with hunread | hmet | hkept
  · rcases List.mem_append.mp hunread with hpending | hlog
    · rcases Ctl.mem_pending.mp hpending with hdialing | ⟨m, rest, hctl, hev⟩
      · exact .inr (.inr (.inl hdialing))
      · exact .inr (hhandling hctl hev)
    · rcases List.mem_append.mp hlog with harrived | hbacklog
      · obtain ⟨m, hm, hev⟩ := List.mem_filterMap.mp harrived
        refine .inr (.inl ⟨m, ?_, Event.stream?_eq_some.mp hev⟩)
        unfold Process.mails
        split
        · exact List.mem_cons_of_mem _ hm
        · exact hm
      · obtain ⟨c, hc, rfl⟩ := List.mem_map.mp hbacklog
        exact .inl ⟨rfl, hc⟩
  · obtain ⟨m, id, rest, hctl, hev⟩ := Ctl.now_eq_met.mp hmet
    exact .inr (hhandling hctl hev)
  · rcases hkept with ⟨m, st, rest, hctl, hev, -⟩ | ⟨k, t, ht, he, halive⟩
    · exact .inr (hhandling hctl hev)
    · exact .inr (.inr (.inr ⟨k, (hsound x |>.channel k t ht).1, t, ht, he, halive⟩))

/-! ### Steps -/

/-- A step of a careful run is fair to the node that makes it. -/
theorem Paired.fairAct (h : s.Paired hosts) (hcareful : Careful hosts s (x, mv))
    (haccord : s.view.Accord) {a : Act} (hends : ∀ k, mv ≠ .receiveEnds k)
    (ha : s.Acts x mv a) :
    (s.nodes x).FairAct (hosts.name !x) (fun addr => hosts.host addr ≠ some x) a := by
  cases mv with
  | post ev =>
      cases a with
      | post ev' =>
          obtain ⟨rfl, hreq⟩ := ha
          cases ev' with
          | peer pe =>
              cases pe with
              | connect addr => exact hcareful
              | disconnect id => exact rfl
              | _ => trivial
          | pubSub req => trivial
          | terminate => cases hreq
      | _ => exact ha.elim
  | take =>
      cases a with
      | take =>
          intro m rest id hqueue hev
          have hm : m ∈ (s.nodes x).mails := by
            unfold Process.mails
            split <;> simp [hqueue]
          have hfair := (h.nodes x).mails m hm
          obtain ⟨ev, sender⟩ := m
          subst hev
          obtain rfl : sender = .outside := hfair
          simpa [Careful, hqueue] using hcareful
      | _ => exact ha.elim
  | loop io =>
      cases a with
      | loop io' =>
          refine ⟨fun m st e hctl => hcareful.1 (by simp [Fails, hctl]), fun e msg he hmsg => ?_⟩
          have hnow := view_reading (h.sound x) he
          have howner := haccord.owned.unread x e
            (Exchange.mem_unread_of_now (by simp [hnow, Now.pending]))
          exact h.hellos e x howner msg (ha e msg he hmsg)
      | _ => exact ha.elim
  | receiveEnds k => exact absurd rfl (hends k)
  | accept | sendEnds _ | receive _ =>
      cases a with
      | accept _ | sendEnds _ | received _ _ => trivial
      | _ => exact ha.elim
  | release e => cases a <;> exact ha.elim

/-- Only hellos are written. -/
theorem Paired.hellos_step (h : s.Paired hosts) (haccord : s.view.Accord)
    (hs : s.step hosts (x, mv) = some s') : s'.Hellos hosts := by
  intro e z howner msg hmsg
  have hnew : e.conn < s.nextConn ∧ s'.owner e = s.owner e ∨ s'.inbox e = [] := by
    rcases step_view (h.sound x) hs with heq | ⟨d, hd, -⟩
    · by_cases hlt : e.conn < s.nextConn
      · exact .inl ⟨hlt, congrFun (congrArg Exchange.owner heq) e⟩
      · exact .inr ((congrFun (congrArg Exchange.inbox heq) e).trans
          (haccord.owned.blank e (Nat.le_of_not_lt hlt)))
    · by_cases hlt : e.conn < s.nextConn
      · exact .inl ⟨hlt, hd.owner_of_lt hlt⟩
      · rcases hd.inbox haccord.owned e with heq | hlt'
        · exact .inr (heq.trans (haccord.owned.blank e (Nat.le_of_not_lt hlt)))
        · exact absurd hlt' hlt
  rcases hnew with ⟨hlt, howner'⟩ | hnil
  · rw [howner'] at howner
    rcases inbox_cases hs with ⟨hsuffix, -⟩ | ⟨f, hello, hwrites, hinbox⟩
    · exact h.hellos e z howner msg ((hsuffix e).subset hmsg)
    · by_cases he : e = f.other
      · subst he
        rw [hinbox, Function.update_self] at hmsg
        rcases List.mem_append.mp hmsg with hmsg | hmsg
        · exact h.hellos _ z howner msg hmsg
        · -- the loop of `x` has its own end, and says hello
          obtain rfl := List.mem_singleton.mp hmsg
          obtain ⟨m, st, k, hctl⟩ := Process.handling_of_pending hwrites.pending
          obtain ⟨⟨rfl, hst⟩, -⟩ := (h.sound x).follows m st _ hctl
          have hf : s.owner f = some x := by
            rcases hst with ⟨rfl, -⟩ | ⟨id, rfl, hev, -⟩
            · have hnow : s.view.now x = .dialed f := view_now hctl
              exact haccord.owned.unread x f
                (Exchange.mem_unread_of_now (by simp [hnow, Now.pending]))
            · have hnow : s.view.now x = .met f := by
                simp [view_now hctl, Stage.now, hev, Event.stream?]
              exact (haccord.owned.met x f hnow).1
          obtain rfl : z = !x := Option.some.inj (howner.symm.trans (haccord.apart f x hf))
          rw [(h.nodes x).id, Bool.not_not]
      · rw [hinbox, Function.update_of_ne he] at hmsg
        exact h.hellos e z howner msg hmsg
  · rw [hnil] at hmsg
    cases hmsg

/-- A kept end has not come to its end. -/
theorem Paired.kept_open (h : s.Paired hosts) (haccord : s.view.Accord) {k : Nat} {t : Threads}
    (ht : (s.nodes x).threads k = some t) (hreceiving : t.receiving) :
    s.Open t.peer.stream.other := by
  have hkept : t.peer.stream ∈ s.view.kept x := .inr ⟨k, t, ht, rfl, .inr (.inl hreceiving)⟩
  exact open_of_held h.sound (haccord.held_other hkept)

theorem Paired.no_receiveEnds (h : s.Paired hosts) (haccord : s.view.Accord)
    (hs : s.step hosts (x, mv) = some s') (k : Nat) : mv ≠ .receiveEnds k := by
  rintro rfl
  simp only [step] at hs
  split at hs
  · next t ht =>
      split at hs
      · next hend => exact hend.2 (h.kept_open haccord ht ((h.nodes x).threads k t ht).2.1)
      · cases hs
  · cases hs

/-- A node keeps what it has a remote peer for, and nothing else between
rounds. -/
theorem Paired.kept_nonempty (h : s.Paired hosts) {id : ID} (hid : id ∈ (s.nodes x).node.peers) :
    (s.view.kept x).Nonempty := by
  obtain ⟨peer, hpeer⟩ := Option.isSome_iff_exists.mp (Finmap.lookup_isSome.mpr hid)
  obtain ⟨-, t, ht, rfl⟩ := (h.sound x).peers id peer hpeer
  exact ⟨_, .inr ⟨_, t, ht, rfl, .inl ((h.nodes x).threads _ t ht).1⟩⟩

theorem Paired.kept_empty (h : s.Paired hosts) {m : Mail} {id : ID} {rest : Prog Turn}
    (hctl : (s.nodes x).ctl = .handling m (.introduced id) rest)
    (hid : id ∉ (s.nodes x).node.peers) : s.view.kept x = ∅ := by
  refine Set.eq_empty_of_forall_notMem fun e he => ?_
  rcases (keeps_handling hctl).mp he with ⟨-, hst⟩ | ⟨k, t, ht, -, -⟩
  · cases hst
  · obtain rfl : id = hosts.name !x := (h.nodes x).meets m _ _ hctl
    obtain ⟨-, -, -, hpeer | hpeer⟩ := (h.nodes x).threads k t ht
    · exact hid (Finmap.mem_of_lookup_eq_some hpeer)
    · simp [hctl, Ctl.joining?, Stage.peer?] at hpeer

/-- What a node does in a careful run is in order. -/
theorem Paired.orderly (h : s.Paired hosts) (haccord : s.view.Accord)
    (hcareful : Careful hosts s (x, mv)) {d : Exchange.Deed Bool} {t : Exchange Bool}
    (hd : s.view.Step x d t) (hwhy : s.Why hosts x mv d) : s.view.Orderly x d := by
  have hfails : ¬s.Fails hosts x mv := by
    cases mv with
    | loop io => exact hcareful.1
    | _ => exact fun hf => hf
  cases d with
  | dial y =>
      obtain ⟨io, addr, rfl, hpending, hhost⟩ := hwhy
      have hdialing : (s.nodes !x).ctl.dialing? = none := by
        have hquiet := hcareful.2
        simpa only [hpending] using hquiet
      refine ⟨?_, fun e => ?_⟩
      · obtain ⟨m, st, k, hctl⟩ := Process.handling_of_pending hpending
        obtain ⟨⟨rfl, hev⟩, -⟩ := (h.sound x).follows m st _ hctl
        have hfair := (h.nodes x).mails m (Process.mails_handling hctl ▸ List.mem_cons_self ..)
        have hne : hosts.host addr ≠ some x := by simpa [Mail.Fair, hev] using hfair
        rw [hhost] at hne
        exact Bool.eq_not_of_ne fun hy => hne (congrArg some hy)
      · have hnow : ∀ now : Now, s.view.now (!x) = now → now ≠ .dialed e ∧ now ≠ .greeted e := by
          rintro now rfl
          cases hctl : (s.nodes !x).ctl with
          | handling m st rest =>
              rw [view_now hctl]
              cases st with
              | dialed f => simp [hctl, Ctl.dialing?] at hdialing
              | greeted f => simp [hctl, Ctl.dialing?] at hdialing
              | start => cases hev : m.ev.stream? <;> simp [Stage.now, hev]
              | introduced id => cases hev : m.ev.stream? <;> simp [Stage.now, hev]
              | _ => simp [Stage.now]
          | _ => simp [view, hctl, Ctl.now]
        exact hnow _ rfl
  | answer =>
      obtain ⟨m, id, rest, hctl, hid⟩ := hwhy
      exact h.kept_empty hctl hid
  | lose =>
      rcases hwhy with hf | ⟨e, hnow, -, hopen⟩ | ⟨e, msg, hnow, hmsg, hno⟩ |
        ⟨m, id, rest, hctl, hid⟩
      · exact absurd hf hfails
      · exact .inl ⟨e, hnow, fun hheld => hopen (open_of_held h.sound hheld)⟩
      · have howner := haccord.owned.unread x e
          (Exchange.mem_unread_of_now (by simp [hnow, Now.pending]))
        exact absurd (h.hellos e x howner msg hmsg) (hno _)
      · refine .inr ⟨?_, h.kept_nonempty hid⟩
        cases hd with
        | @lose e rest' hnow hinbox =>
            rcases hnow with hnow | hnow
            · cases hev : m.ev.stream? <;> simp [view_now hctl, Stage.now, hev] at hnow
            · exact ⟨e, hnow⟩
  | forget =>
      rcases hwhy with hf | ⟨peer, hpending⟩ | ⟨k, t, ht, hdropped | ⟨hreceiving, -, hopen⟩⟩
      · exact absurd hf hfails
      · obtain ⟨m, st, k, hctl⟩ := Process.handling_of_pending hpending
        exact ((h.nodes x).no_end (h.sound x) hctl).1 peer k rfl
      · rw [((h.nodes x).threads k t ht).2.2.1] at hdropped
        cases hdropped
      · exact hopen (h.kept_open haccord ht hreceiving)
  | halt =>
      rcases hwhy with hf | ⟨m, st, node, hctl⟩
      · exact absurd hf hfails
      · exact ((h.nodes x).no_end (h.sound x) hctl).2 node rfl
  | _ => trivial

theorem paired_step (h : s.Paired hosts) (haccord : s.view.Accord)
    (hcareful : Careful hosts s (x, mv)) (hs : s.step hosts (x, mv) = some s') :
    s'.Paired hosts ∧ (s'.view = s.view ∨ ∃ y d, s.view.Step y d s'.view ∧ s.view.Orderly y d) := by
  refine ⟨⟨fun z => sound_step h.sound hs z, fun z => ?_, h.hellos_step haccord hs⟩, ?_⟩
  · rcases step_process hs z with heq | ⟨rfl, a, ha, hacts⟩
    · exact heq ▸ h.nodes z
    · exact Process.paired_step (h.nodes z) (h.sound z)
        (h.fairAct hcareful haccord (h.no_receiveEnds haccord hs) hacts) ha
  · refine (step_view (h.sound x) hs).imp id ?_
    rintro ⟨d, hd, hwhy⟩
    exact ⟨x, d, hd, h.orderly haccord hcareful hd hwhy⟩

/-- What a careful run comes to. -/
theorem paired_run {as : List (Bool × Move)}
    (h : (network hosts).Run (Careful hosts) as s) : s.Paired hosts ∧ s.view.Accord := by
  have haccord : ∀ {t : Exchange Bool}, Relation.ReflTransGen
      (fun t t' : Exchange Bool => ∃ y d, t.Step y d t' ∧ t.Orderly y d)
      (network hosts).init.view t → t.Accord := by
    intro t ht
    rw [show (network hosts).init.view = .empty from view_new hosts] at ht
    induction ht with
    | refl => exact Exchange.accord_empty
    | tail _ hstep ih =>
        obtain ⟨y, d, hd, hd'⟩ := hstep
        exact Exchange.accord_step ih hd hd'
  obtain ⟨hpaired, hpath⟩ := h.refines view (·.Paired hosts) (paired_new hosts)
    fun s ⟨x, mv⟩ s' hpaired hpath hcareful hs => paired_step hpaired (haccord hpath) hcareful hs
  exact ⟨hpaired, haccord hpath⟩

end Network

/-! ## Nothing left to do -/

/-- What a node does by itself. -/
def Move.ofNode : Move → Bool
  | .post _ | .release _ => false
  | _ => true

namespace Network

/-- Both channels are empty, and no loop and no thread can go on. -/
def Quiescent (hosts : Hosts Bool) (s : Network Bool) : Prop :=
  ∀ x, (s.nodes x).queue = [] ∧ ∀ mv, mv.ofNode → s.step hosts (x, mv) = none

/-- The remote peer that a node has the other registered as. -/
def peer (hosts : Hosts Bool) (s : Network Bool) (x : Bool) : Option RemotePeer :=
  (s.nodes x).node.peers.lookup (hosts.name !x)

/-- Each node has the other for a peer or neither has, and if so on the two
ends of one connection. -/
def Agrees (hosts : Hosts Bool) (s : Network Bool) : Prop :=
  ((s.peer hosts false).isSome ↔ (s.peer hosts true).isSome) ∧
    ∀ p q, s.peer hosts false = some p → s.peer hosts true = some q → q.stream = p.stream.other

variable {hosts : Hosts Bool} {s : Network Bool} {x : Bool}

/-- A loop that is in a round goes on, but for a read with nothing to read. -/
theorem loop_enabled {ι : Type} [DecidableEq ι] {hosts : Hosts ι} {s : Network ι} {x : ι}
    {m : Mail} {st : Stage} {rest : Prog Turn} (hctl : (s.nodes x).ctl = .handling m st rest)
    (io : Io) (h : s.loop hosts x io = none) :
    ∃ e, (s.nodes x).pending = some (.readPeerMessage e) ∧ s.inbox e = [] := by
  have hadvance : ∀ {io' : Io} {t : Network ι}, s.advance x io' t ≠ none := by
    intro io' t
    cases rest with
    | call c k => simp [Network.advance, Process.advance, hctl]
    | ret turn => cases turn <;> simp [Network.advance, Process.advance, hctl]
    | stop e => simp [Network.advance, Process.advance, hctl]
  unfold loop at h
  split at h
  · split at h <;> exact absurd h hadvance
  · next e hpending =>
      split at h
      · exact absurd h hadvance
      · next hinbox => exact ⟨e, hpending, hinbox⟩
  · exact absurd h hadvance
  · exact absurd h hadvance
  · exact absurd h hadvance

/-- Where nothing is left to do, a loop waits for an event, or for a hello. -/
theorem Quiescent.ctl (hq : s.Quiescent hosts) (haccord : s.view.Accord) (x : Bool) :
    (s.nodes x).ctl = .waiting ∨
      ∃ e, (s.nodes x).pending = some (.readPeerMessage e) ∧ s.inbox e = [] := by
  cases hctl : (s.nodes x).ctl with
  | waiting => exact .inl rfl
  | handling m st rest => exact .inr (loop_enabled hctl .calm ((hq x).2 (.loop .calm) rfl))
  | _ => exact absurd (by simp [view, hctl, Ctl.now]) (haccord.running x)

theorem Quiescent.atRest (hq : s.Quiescent hosts) (hsound : ∀ x, (s.nodes x).Sound)
    (haccord : s.view.Accord) : s.view.AtRest := by
  intro x
  have hbacklog : s.backlog x = [] := by
    have haccept := (hq x).2 .accept rfl
    simp only [step] at haccept
    split at haccept
    · cases haccept
    · assumption
  refine ⟨by simp [view, Process.arrived, (hq x).1, hbacklog], ?_⟩
  rcases hq.ctl haccord x with hctl | ⟨e, hpending, hinbox⟩
  · exact .inl (by simp [view, hctl, Ctl.now])
  · exact .inr ⟨e, view_reading (hsound x) hpending, hinbox⟩

/-- Where nothing is left to do, a node keeps the stream of its peer. -/
theorem Quiescent.mem_kept (hq : s.Quiescent hosts) (h : s.Paired hosts) (haccord : s.view.Accord)
    {e : TcpStream} : e ∈ s.view.kept x ↔ ∃ p, s.peer hosts x = some p ∧ p.stream = e := by
  have hround : ∀ m st rest, (s.nodes x).ctl = .handling m st rest → st = .start := by
    intro m st rest hctl
    rcases hq.ctl haccord x with hwaiting | ⟨e, hpending, -⟩
    · rw [hctl] at hwaiting
      cases hwaiting
    · obtain ⟨m', st', k, hctl'⟩ := Process.handling_of_pending hpending
      obtain ⟨rfl, rfl, rfl⟩ := Ctl.handling.inj (hctl.symm.trans hctl')
      exact ((h.sound x).follows m st _ hctl).1.1
  constructor
  · rintro (⟨m, st, rest, hctl, -, hst⟩ | ⟨k, t, ht, rfl, -⟩)
    · obtain rfl := hround m st rest hctl
      cases hst
    · obtain ⟨-, -, -, hpeer | hjoining⟩ := (h.nodes x).threads k t ht
      · exact ⟨t.peer, hpeer, rfl⟩
      · unfold Ctl.joining? at hjoining
        split at hjoining
        · next m st rest hctl =>
            obtain rfl := hround m st rest hctl
            cases hjoining
        · cases hjoining
  · rintro ⟨p, hp, rfl⟩
    obtain ⟨-, t, ht, rfl⟩ := (h.sound x).peers _ p hp
    exact .inr ⟨_, t, ht, rfl, .inl ((h.nodes x).threads _ t ht).1⟩

end Network

/-- **Simultaneous connects.** When a careful run has nothing left to do,
the nodes agree on the connection they have, and if any was ever made they
have one. -/
theorem simultaneous_connect {hosts : Hosts Bool} {as : List (Bool × Move)} {s : Network Bool}
    (h : (network hosts).Run (Careful hosts) as s) (hq : s.Quiescent hosts) :
    s.Agrees hosts ∧ (s.nextConn ≠ 0 → ∀ x, (s.peer hosts x).isSome) := by
  obtain ⟨hpaired, haccord⟩ := Network.paired_run h
  have hkept : ∀ {x e}, e ∈ s.view.kept x ↔ ∃ p, s.peer hosts x = some p ∧ p.stream = e :=
    hq.mem_kept hpaired haccord
  rcases haccord.agreement (hq.atRest hpaired.sound haccord) with ⟨hnone, hempty⟩ | ⟨c, x, hx, hy⟩
  · have hpeer : ∀ x, s.peer hosts x = none := by
      intro x
      by_contra hsome
      obtain ⟨p, hp⟩ := Option.ne_none_iff_exists'.mp hsome
      exact (hempty x ▸ hkept.mpr ⟨p, hp, rfl⟩ : p.stream ∈ (∅ : Set TcpStream))
    refine ⟨⟨by simp [hpeer], fun p q hp => ?_⟩, fun hconn => absurd hnone hconn⟩
    rw [hpeer] at hp
    cases hp
  · -- each has exactly its own end of the connection
    obtain ⟨p, hp, hpstream⟩ := hkept.mp (hx ▸ Set.mem_singleton _ : (⟨c, .dialer⟩ : TcpStream) ∈ _)
    obtain ⟨q, hq', hqstream⟩ :=
      hkept.mp (hy ▸ Set.mem_singleton _ : (⟨c, .listener⟩ : TcpStream) ∈ _)
    cases x with
    | false =>
        rw [Bool.not_false] at hq'
        refine ⟨⟨by simp [hp, hq'], fun p' q' hp' hq'' => ?_⟩, fun _ x => ?_⟩
        · obtain rfl := Option.some.inj (hp.symm.trans hp')
          obtain rfl := Option.some.inj (hq'.symm.trans hq'')
          simp [hpstream, hqstream]
        · cases x <;> simp [hp, hq']
    | true =>
        rw [Bool.not_true] at hq'
        refine ⟨⟨by simp [hp, hq'], fun p' q' hp' hq'' => ?_⟩, fun _ x => ?_⟩
        · obtain rfl := Option.some.inj (hq'.symm.trans hp')
          obtain rfl := Option.some.inj (hp.symm.trans hq'')
          simp [hpstream, hqstream]
        · cases x <;> simp [hp, hq']

/-! ## Runs -/

namespace Network

/-- Both loops wait for an event and there is none, and no thread has
anything to do. -/
def Still (s : Network Bool) : Prop :=
  ∀ x, (s.nodes x).ctl.idle ∧ (s.nodes x).queue = [] ∧ s.backlog x = [] ∧
    ∀ k < (s.nodes x).nextChannel, ∀ t ∈ (s.nodes x).threads k, ¬(t.sending ∧ t.dropped) ∧
      (t.receiving → s.inbox t.peer.stream = [] ∧ s.Open t.peer.stream.other)

instance (s : Network Bool) : Decidable s.Still :=
  inferInstanceAs (Decidable (∀ _, _ ∧ _ ∧ _ ∧ ∀ k < _, ∀ t ∈ (s.nodes _).threads k, _))

theorem quiescent_of_still {hosts : Hosts Bool} {s : Network Bool} (hsound : ∀ x, (s.nodes x).Sound)
    (h : s.Still) : s.Quiescent hosts := by
  intro x
  obtain ⟨hidle, hqueue, hbacklog, hthreads⟩ := h x
  have hctl : (s.nodes x).ctl = .waiting := by
    unfold Ctl.idle at hidle
    split at hidle
    · assumption
    · cases hidle
  refine ⟨hqueue, fun mv hmv => ?_⟩
  have hthread : ∀ {k t}, (s.nodes x).threads k = some t → ¬(t.sending ∧ t.dropped) ∧
      (t.receiving → s.inbox t.peer.stream = [] ∧ s.Open t.peer.stream.other) :=
    fun ht => hthreads _ ((hsound x).channel _ _ ht).1 _ ht
  cases mv with
  | post ev => cases hmv
  | release e => cases hmv
  | accept => simp [step, hbacklog]
  | take => simp [step, Process.take, hctl, hqueue]
  | loop io => simp [step, loop, Process.pending, Network.advance, Process.advance, hctl]
  | sendEnds k =>
      cases ht : (s.nodes x).threads k with
      | none => simp [step, Process.sendEnds, ht]
      | some t => simpa [step, Process.sendEnds, ht] using (hthread ht).1
  | receive k =>
      cases ht : (s.nodes x).threads k with
      | none => simp [step, ht]
      | some t =>
          cases hreceiving : t.receiving with
          | false =>
              simp only [step, ht]
              split
              · simp [Process.received, ht, hreceiving]
              · rfl
          | true => simp [step, ht, ((hthread ht).2 hreceiving).1]
  | receiveEnds k =>
      cases ht : (s.nodes x).threads k with
      | none => simp [step, ht]
      | some t =>
          cases hreceiving : t.receiving with
          | false => simp [step, ht, Process.receiveEnds, hreceiving]
          | true => simp [step, ht, ((hthread ht).2 hreceiving).2]

instance (hosts : Hosts Bool) (s : Network Bool) (x : Bool) (mv : Move) :
    Decidable (s.Fails hosts x mv) := by
  unfold Fails
  split
  · split <;> infer_instance
  · infer_instance

end Network

instance (hosts : Hosts Bool) (s : Network Bool) (a : Bool × Move) :
    Decidable (Careful hosts s a) := by
  unfold Careful
  split
  · split <;> infer_instance
  · split <;> infer_instance
  · refine @instDecidableAnd _ _ _ ?_
    split <;> infer_instance
  · infer_instance

/-- Each node dials the other, and both keep the first of the two
connections. -/
def meeting : List (Bool × Move) :=
  [(false, .post (.peer (.connect "127.0.0.1:29002"))),
    (true, .post (.peer (.connect "127.0.0.1:29001")))] ++
    takes false 4 ++ [(true, .accept)] ++ takes true 4 ++ [(false, .accept)] ++
    takes true 12 ++ takes false 12 ++ takes false 5 ++ takes true 5 ++
    takes true 1 ++ takes false 1 ++ [(true, .receive 0)] ++ takes true 1

theorem simultaneous_connect_meeting : ∃ s, (network pair).Run (Careful pair) meeting s ∧
    s.Quiescent pair ∧ s.nextConn = 2 ∧ s.Agrees pair ∧ ∀ x, (s.peer pair x).isSome := by
  have h : ((network pair).exec (Careful pair) (network pair).init meeting).bind
      (fun s => if s.Still then some s.nextConn else none) = some 2 := by
    decide
  obtain ⟨s, hs, hstill⟩ := Option.bind_eq_some_iff.mp h
  have hrun := System.run_iff.mpr hs
  split at hstill
  · next hst =>
      have hq : s.Quiescent pair := Network.quiescent_of_still (Network.paired_run hrun).1.sound hst
      have hconn := Option.some.inj hstill
      obtain ⟨hagrees, hconnected⟩ := simultaneous_connect hrun hq
      exact ⟨s, hrun, hq, hconn, hagrees, hconnected (by simp [hconn])⟩
  · cases hstill

/-- Nothing is asked of the nodes but to connect to each other, and nothing
fails. -/
def OnlyConnects (hosts : Hosts Bool) (s : Network Bool) : Bool × Move → Prop
  | (x, .post ev) =>
      match ev with
      | .peer (.connect addr) => hosts.host addr = some !x
      | _ => False
  | (x, mv) => ¬s.Fails hosts x mv

instance (hosts : Hosts Bool) (s : Network Bool) (a : Bool × Move) :
    Decidable (OnlyConnects hosts s a) := by
  unfold OnlyConnects
  split
  · split <;> infer_instance
  · infer_instance

/-- Both nodes dial, and each puts the connection of the other in front of
its own: it keeps that one, and turns its own away. -/
def missing : List (Bool × Move) :=
  [(false, .post (.peer (.connect "127.0.0.1:29002"))),
    (true, .post (.peer (.connect "127.0.0.1:29001")))] ++
    takes false 2 ++ takes true 2 ++ [(false, .accept), (true, .accept)] ++
    List.replicate 2 (false, .loop .calm) ++ List.replicate 2 (true, .loop .calm) ++
    takes false 12 ++ takes true 12 ++ takes false 5 ++ takes true 5 ++
    [(false, .receiveEnds 0), (true, .receiveEnds 0)] ++
    takes false 1 ++ takes true 1 ++ takes false 2 ++ takes true 2 ++
    [(false, .sendEnds 0), (true, .sendEnds 0)] ++ takes false 1 ++ takes true 1

/-- Two connections were made, and nobody is connected. -/
theorem simultaneous_connect_missing : ∃ s, (network pair).Run (OnlyConnects pair) missing s ∧
    s.Quiescent pair ∧ s.nextConn = 2 ∧ ∀ x, s.peer pair x = none := by
  have h : ((network pair).exec (OnlyConnects pair) (network pair).init missing).bind
      (fun s => if s.Still ∧ ∀ x, s.peer pair x = none then some s.nextConn else none) =
        some 2 := by
    decide
  obtain ⟨s, hs, hstill⟩ := Option.bind_eq_some_iff.mp h
  have hrun := System.run_iff.mpr hs
  have hsound : ∀ x, (s.nodes x).Sound :=
    hrun.invariant (fun s => ∀ x, (s.nodes x).Sound) (fun x => Process.sound_new _)
      fun _ _ _ hsound _ hstep => Network.sound_step hsound hstep
  split at hstill
  · next hst =>
      exact ⟨s, hrun, Network.quiescent_of_still hsound hst.1, Option.some.inj hstill, hst.2⟩
  · cases hstill

end Reactor.Sn
