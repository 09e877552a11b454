import Reactor.SnExchange
import Reactor.SnNetwork

/-!
# The seed node: a network as an exchange of hellos

`view` is what a network looks like when only connections count, and
**`step_view`** says that it is an `Exchange` that one sees: a step of the
network shows as one of the exchange, or not at all, and `Why` says what a
node must have done for the one to be seen. What is proved about an
exchange holds of networks through this.
-/

namespace Reactor.Sn

open Function (update)

/-! ## The network as an exchange of hellos -/

/-- The stages at which a hello has been answered. -/
def Stage.joined : Stage → Bool
  | .answered _ | .started _ | .announced _ => true
  | _ => false

/-- The stream of a `Connected` event. -/
def Event.stream? : Event → Option TcpStream
  | .peer (.connected e) => some e
  | _ => none

@[simp] theorem Event.stream?_eq_some {ev : Event} {e : TcpStream} :
    ev.stream? = some e ↔ ev = .peer (.connected e) := by
  unfold Event.stream?
  split <;> simp_all

def Stage.now (ev : Event) : Stage → Now
  | .dialed e => .dialed e
  | .greeted e => .greeted e
  | .start => ev.stream?.elim .free .reading
  | .introduced _ => ev.stream?.elim .free .met
  | .broken => .halted
  | _ => .free

def Ctl.now : Ctl → Now
  | .waiting => .free
  | .handling m s _ => s.now m.ev
  | .returned | .failed _ => .halted

/-- A loop has still to read a hello on an end it has just dialed, and on
the one that comes with the event it starts to handle. -/
theorem Ctl.mem_pending {ctl : Ctl} {e : TcpStream} :
    e ∈ ctl.now.pending ↔ ctl.dialing? = some e ∨
      ∃ m rest, ctl = .handling m .start rest ∧ m.ev = .peer (.connected e) := by
  cases ctl with
  | handling m st rest =>
      cases st with
      | start =>
          cases hstream : m.ev.stream? with
          | none =>
              have hev : m.ev ≠ .peer (.connected e) := fun hev => by
                simp [hev, Event.stream?] at hstream
              simp [Ctl.now, Stage.now, Now.pending, Ctl.dialing?, hstream, hev]
          | some f =>
              have hev := Event.stream?_eq_some.mp hstream
              simp [Ctl.now, Stage.now, Now.pending, Ctl.dialing?, hev, Event.stream?, eq_comm]
      | introduced id =>
          cases hstream : m.ev.stream? <;>
            simp [Ctl.now, Stage.now, Now.pending, Ctl.dialing?, hstream]
      | _ => simp [Ctl.now, Stage.now, Now.pending, Ctl.dialing?, eq_comm]
  | _ => simp [Ctl.now, Now.pending, Ctl.dialing?]

theorem Ctl.now_eq_met {ctl : Ctl} {e : TcpStream} :
    ctl.now = .met e ↔
      ∃ m id rest, ctl = .handling m (.introduced id) rest ∧ m.ev = .peer (.connected e) := by
  constructor
  · intro h
    cases ctl with
    | handling m st rest =>
        cases st with
        | introduced id =>
            refine ⟨m, id, rest, rfl, Event.stream?_eq_some.mp ?_⟩
            cases hstream : m.ev.stream? <;> simp_all [Ctl.now, Stage.now]
        | start => cases hstream : m.ev.stream? <;> simp [Ctl.now, Stage.now, hstream] at h
        | _ => cases h
    | _ => cases h
  · rintro ⟨m, id, rest, rfl, hev⟩
    simp [Ctl.now, Stage.now, hev, Event.stream?]

/-- The loop has answered a hello on the stream, or there is a remote peer. -/
def Process.Keeps (p : Process) (e : TcpStream) : Prop :=
  (∃ m s rest, p.ctl = .handling m s rest ∧ m.ev = .peer (.connected e) ∧ s.joined) ∨
    ∃ k t, p.threads k = some t ∧ t.peer.stream = e ∧ t.Alive

/-- A process whose round has come to a stage. -/
@[simp] def Process.resume (p : Process) (m : Mail) (st : Stage) (rest : Prog Turn) : Process :=
  { p with ctl := .handling m st rest }

/-- The streams of the `Connected` events in the channel. -/
def Process.arrived (p : Process) : List TcpStream := p.queue.filterMap (·.ev.stream?)

namespace Network

variable {ι : Type}

def view (s : Network ι) : Exchange ι where
  now x := (s.nodes x).ctl.now
  log x := (s.nodes x).arrived ++ (s.backlog x).map (⟨·, .listener⟩)
  kept x := {e | (s.nodes x).Keeps e}
  owner := s.owner
  inbox := s.inbox
  nextConn := s.nextConn

/-- `s'` is `s` with `p` for the process of `x`, but for what has been
written and lent. -/
structure Moved [DecidableEq ι] (s s' : Network ι) (x : ι) (p : Process) : Prop where
  nodes : s'.nodes = update s.nodes x p
  backlog : s'.backlog = s.backlog
  owner : s'.owner = s.owner
  nextConn : s'.nextConn = s.nextConn

theorem moved_setNode [DecidableEq ι] (s : Network ι) (x : ι) (p : Process) :
    s.Moved (s.setNode x p) x p :=
  ⟨rfl, rfl, rfl, rfl⟩

theorem Moved.view [DecidableEq ι] {s s' : Network ι} {x : ι} {p : Process} (h : s.Moved s' x p) :
    s'.view = { s.view with
      now := update s.view.now x p.ctl.now
      log := update s.view.log x (p.arrived ++ (s.backlog x).map (⟨·, .listener⟩))
      kept := update s.view.kept x {e | p.Keeps e}
      inbox := s'.inbox } := by
  ext1
  · funext z
    by_cases hz : z = x
    · subst hz; simp [Network.view, h.nodes]
    · simp [Network.view, h.nodes, hz]
  · funext z
    by_cases hz : z = x
    · subst hz; simp [Network.view, h.nodes, h.backlog]
    · simp [Network.view, h.nodes, h.backlog, hz]
  · funext z
    by_cases hz : z = x
    · subst hz; simp [Network.view, h.nodes]
    · simp [Network.view, h.nodes, hz]
  · exact h.owner
  · rfl
  · exact h.nextConn

/-- Nothing new in the channel that is a connection. -/
theorem Moved.view_of_arrived [DecidableEq ι] {s s' : Network ι} {x : ι} {p : Process}
    (h : s.Moved s' x p) (harrived : p.arrived = (s.nodes x).arrived) :
    s'.view = { s.view with
      now := update s.view.now x p.ctl.now
      kept := update s.view.kept x {e | p.Keeps e}
      inbox := s'.inbox } := by
  have hlog : (s.nodes x).arrived ++ (s.backlog x).map (⟨·, .listener⟩) = s.view.log x := rfl
  rw [h.view, harrived, hlog, Function.update_eq_self]

/-- A call of the loop of `x` fails, or the loop does. -/
def Fails (hosts : Hosts ι) (s : Network ι) (x : ι) : Move → Prop
  | .loop io =>
      match (s.nodes x).ctl with
      | .handling _ _ (.call (.tryClone site e) _) => io (.tryClone site e) = false
      | .handling _ _ (.call (.connect addr) _) =>
          io (.connect addr) = none ∨ hosts.host addr = none
      | .handling _ _ (.call (.localAddr e) _) => io (.localAddr e) = none
      | .handling _ _ (.call (.writePeerMessage e msg) _) => io (.writePeerMessage e msg) = false
      | .handling _ _ (.stop _) => True
      | _ => False
  | _ => False

/-- What makes a node do what it does. -/
def Why (hosts : Hosts ι) (s : Network ι) (x : ι) (mv : Move) : Exchange.Deed ι → Prop
  | .dial y => ∃ io addr, mv = .loop io ∧ (s.nodes x).pending = some (.connect addr) ∧
      hosts.host addr = some y
  | .answer => ∃ m id rest, (s.nodes x).ctl = .handling m (.introduced id) rest ∧
      id ∉ (s.nodes x).node.peers
  | .lose => s.Fails hosts x mv ∨
      (∃ e, s.view.now x = .reading e ∧ s.inbox e = [] ∧ ¬s.Open e.other) ∨
      (∃ e msg, s.view.now x = .reading e ∧ msg ∈ s.inbox e ∧ ∀ hello, msg ≠ .hello hello) ∨
      ∃ m id rest, (s.nodes x).ctl = .handling m (.introduced id) rest ∧
        id ∈ (s.nodes x).node.peers
  | .forget => s.Fails hosts x mv ∨ (∃ peer, (s.nodes x).pending = some (.drop peer)) ∨
      ∃ k t, (s.nodes x).threads k = some t ∧ (t.dropped ∨ t.receiving ∧
        s.inbox t.peer.stream = [] ∧ ¬s.Open t.peer.stream.other)
  | .halt => s.Fails hosts x mv ∨
      ∃ m st node, (s.nodes x).ctl = .handling m st (.ret (.done node))
  | _ => True

/-- A step of the exchange, or none. -/
def Shown [DecidableEq ι] (hosts : Hosts ι) (s : Network ι) (x : ι) (mv : Move) (s' : Network ι) :
    Prop :=
  s'.view = s.view ∨ ∃ d, s.view.Step x d s'.view ∧ s.Why hosts x mv d

/-! ## Calls of a loop -/

theorem keeps_handling {p : Process} {m : Mail} {st : Stage} {rest : Prog Turn}
    (hctl : p.ctl = .handling m st rest) {e : TcpStream} :
    p.Keeps e ↔ (m.ev = .peer (.connected e) ∧ st.joined) ∨
      ∃ k t, p.threads k = some t ∧ t.peer.stream = e ∧ t.Alive := by
  simp only [Process.Keeps, hctl, Ctl.handling.injEq]
  refine or_congr ⟨?_, fun ⟨hev, hst⟩ => ⟨m, st, rest, ⟨rfl, rfl, rfl⟩, hev, hst⟩⟩ Iff.rfl
  rintro ⟨_, _, _, ⟨rfl, rfl, rfl⟩, hev, hst⟩
  exact ⟨hev, hst⟩

section

variable [DecidableEq ι] {hosts : Hosts ι} {s s' : Network ι} {x : ι} {io : Io} {m : Mail}
  {st st' : Stage} {rest rest' : Prog Turn}

omit [DecidableEq ι] in
theorem view_now (hctl : (s.nodes x).ctl = .handling m st rest) :
    s.view.now x = st.now m.ev := by
  simp [view, hctl, Ctl.now]

omit [DecidableEq ι] in
theorem kept_resume (hctl : (s.nodes x).ctl = .handling m st rest)
    (hjoined : st'.joined = st.joined) :
    {e | ((s.nodes x).resume m st' rest').Keeps e} = s.view.kept x := by
  ext e
  refine (keeps_handling rfl).trans ?_
  rw [hjoined]
  exact (keeps_handling hctl).symm

/-- A call that changes nothing in the process but the round. -/
theorem view_goOn (hctl : (s.nodes x).ctl = .handling m st rest)
    (h : s.Moved s' x ((s.nodes x).resume m st' rest')) (hjoined : st'.joined = st.joined) :
    s'.view = { s.view with now := update s.view.now x (st'.now m.ev), inbox := s'.inbox } := by
  rw [h.view_of_arrived rfl, kept_resume hctl hjoined, Function.update_eq_self]
  rfl

/-- A call that others do not see. -/
theorem view_stay (hctl : (s.nodes x).ctl = .handling m st rest)
    (h : s.Moved s' x ((s.nodes x).resume m st rest')) (hinbox : s'.inbox = s.inbox) :
    s'.view = s.view := by
  rw [view_goOn hctl h rfl, ← view_now hctl, Function.update_eq_self, hinbox]
  rfl

/-- The stage is left at which a hello has been answered. -/
theorem view_leave (hctl : (s.nodes x).ctl = .handling m st rest)
    (h : s.Moved s' x ((s.nodes x).resume m st' rest')) (hinbox : s'.inbox = s.inbox)
    (hnow : st'.now m.ev = st.now m.ev) (hjoined : st'.joined = false) :
    ∃ kept ⊆ s.view.kept x, s'.view = { s.view with kept := update s.view.kept x kept } := by
  refine ⟨{e | ((s.nodes x).resume m st' rest').Keeps e}, fun e he => ?_, ?_⟩
  · rcases (keeps_handling rfl).mp he with ⟨-, hst⟩ | hthread
    · rw [hjoined] at hst
      cases hst
    · exact .inr hthread
  · rw [h.view_of_arrived rfl, hinbox]
    simp only [Process.resume, Ctl.now, hnow, ← view_now hctl, Function.update_eq_self]
    rfl

/-- A call answered by the world, with no effect outside of the loop. -/
theorem loop_plain {c : Call} {k : c.Answer → Prog Turn}
    (hctl : (s.nodes x).ctl = .handling m st (.call c k))
    (hc : (∃ site e, c = .tryClone site e) ∨ (∃ e, c = .localAddr e) ∨ c = .subscriptionOrder ∨
      c = .eventIdOrder ∨ c = .peerOrder) :
    s.loop hosts x io =
      some (s.setNode x ((s.nodes x).resume m (st.next c (io c)) (k (io c)))) := by
  rcases hc with ⟨site, e, rfl⟩ | ⟨e, rfl⟩ | rfl | rfl | rfl <;>
    simp [loop, Process.pending, hctl, Network.advance, Process.advance, Process.perform]

theorem shown_tryClone {site : CloneSite} {e : TcpStream} {k : Bool → Prog Turn}
    (hctl : (s.nodes x).ctl = .handling m st (.call (.tryClone site e) k))
    (hallows : (st = .start ∨ ∃ id, st = .answered id) ∧ m.ev = .peer (.connected e))
    (h : s.loop hosts x io = some s') : s.Shown hosts x (.loop io) s' := by
  obtain rfl := Option.some.inj ((loop_plain hctl (.inl ⟨site, e, rfl⟩)).symm.trans h)
  have hmoved := moved_setNode s x ((s.nodes x).resume m
    (st.next (.tryClone site e) (io (.tryClone site e))) (k (io (.tryClone site e))))
  cases hio : io (.tryClone site e) with
  | true =>
      rw [hio] at hmoved
      exact .inl (view_stay hctl hmoved rfl)
  | false =>
      rw [hio] at hmoved
      have hfails : s.Fails hosts x (.loop io) := by simpa [Fails, hctl] using hio
      obtain ⟨hst, hev⟩ := hallows
      right
      rcases hst with rfl | ⟨id, rfl⟩
      · have hnow : s.view.now x = .reading e := by
          simp [view_now hctl, Stage.now, hev, Event.stream?]
        refine ⟨.lose, ?_, .inl hfails⟩
        rw [view_goOn hctl hmoved rfl]
        exact .lose_all (.inl hnow)
      · obtain ⟨kept, hkept, hview⟩ := view_leave hctl hmoved rfl rfl rfl
        exact ⟨.forget, hview ▸ .forget hkept, .inl hfails⟩

theorem shown_localAddr {e : TcpStream} {k : Option SocketAddr → Prog Turn}
    (hctl : (s.nodes x).ctl = .handling m st (.call (.localAddr e) k))
    (hallows : ∃ id, st = .introduced id ∧ m.ev = .peer (.connected e) ∧
      id ∉ (s.nodes x).node.peers)
    (h : s.loop hosts x io = some s') : s.Shown hosts x (.loop io) s' := by
  obtain rfl := Option.some.inj ((loop_plain hctl (.inr (.inl ⟨e, rfl⟩))).symm.trans h)
  have hmoved := moved_setNode s x ((s.nodes x).resume m
    (st.next (.localAddr e) (io (.localAddr e))) (k (io (.localAddr e))))
  obtain ⟨id, rfl, hev, -⟩ := hallows
  cases hio : io (.localAddr e) with
  | some addr =>
      rw [hio] at hmoved
      exact .inl (view_stay hctl hmoved rfl)
  | none =>
      rw [hio] at hmoved
      have hnow : s.view.now x = .met e := by simp [view_now hctl, Stage.now, hev, Event.stream?]
      refine .inr ⟨.lose, ?_, .inl (by simpa [Fails, hctl] using hio)⟩
      rw [view_goOn hctl hmoved rfl]
      exact .lose_all (.inr hnow)

theorem shown_order {c : Call} {k : c.Answer → Prog Turn}
    (hctl : (s.nodes x).ctl = .handling m st (.call c k))
    (hc : c = .subscriptionOrder ∨ c = .eventIdOrder ∨ c = .peerOrder)
    (h : s.loop hosts x io = some s') : s.Shown hosts x (.loop io) s' := by
  obtain rfl := Option.some.inj ((loop_plain hctl (.inr (.inr hc))).symm.trans h)
  have hst : st.next c (io c) = st := by
    rcases hc with rfl | rfl | rfl <;> cases st <;> rfl
  have hmoved := moved_setNode s x ((s.nodes x).resume m (st.next c (io c)) (k (io c)))
  rw [hst] at hmoved
  exact .inl (by rw [hst]; exact view_stay hctl hmoved rfl)

theorem view_connect (hctl : (s.nodes x).ctl = .handling m .start rest) (y : ι) :
    ((s.connect x y).setNode x
      ((s.nodes x).resume m (.dialed ⟨s.nextConn, .dialer⟩) rest')).view = s.view.connect x y := by
  ext1
  · funext z
    by_cases hz : z = x
    · subst hz; simp [view, Exchange.connect, Ctl.now, Stage.now]
    · simp [view, Exchange.connect, hz]
  · funext z
    have harrived : (((s.connect x y).setNode x
        ((s.nodes x).resume m (.dialed ⟨s.nextConn, .dialer⟩) rest')).nodes z).arrived =
        (s.nodes z).arrived := by
      by_cases hz : z = x
      · subst hz; simp [Process.arrived]
      · simp [hz]
    change _ ++ List.map _ (update s.backlog y _ z) = update s.view.log y _ z
    rw [harrived]
    by_cases hz : z = y
    · subst hz; simp [view]
    · simp [view, hz]
  · funext z
    by_cases hz : z = x
    · subst hz
      have hkept := @kept_resume _ s z m .start (.dialed ⟨s.nextConn, .dialer⟩) _ rest' hctl rfl
      simpa [view, Exchange.connect] using hkept
    · simp [view, Exchange.connect, hz]
  · rfl
  · rfl
  · rfl

theorem shown_connect {addr : String} {k : Option TcpStream → Prog Turn}
    (hctl : (s.nodes x).ctl = .handling m st (.call (.connect addr) k))
    (hallows : st = .start ∧ m.ev = .peer (.connect addr))
    (h : s.loop hosts x io = some s') : s.Shown hosts x (.loop io) s' := by
  obtain ⟨rfl, hev⟩ := hallows
  have hnow : s.view.now x = .free := by simp [view_now hctl, Stage.now, hev, Event.stream?]
  have hrefused : io (.connect addr) = none ∨ hosts.host addr = none →
      s.Shown hosts x (.loop io) s' := by
    intro hno
    have hs : s.setNode x ((s.nodes x).resume m .broken (k none)) = s' := by
      rcases hno with hno | hno
      · simpa [loop, Process.pending, hctl, hno, Network.advance, Process.advance, Process.perform,
          Io.dialing, Stage.next] using h
      · simp only [loop, Process.pending, hctl, hno] at h
        cases hio : io (.connect addr) <;>
          simpa [hio, hctl, Network.advance, Process.advance, Process.perform, Io.dialing,
            Stage.next] using h
    have hmoved := hs ▸ moved_setNode s x ((s.nodes x).resume m .broken (k none))
    refine .inr ⟨.halt, ?_, .inl (by simpa [Fails, hctl] using hno)⟩
    rw [view_goOn hctl hmoved rfl, ← hs]
    exact .halt_keeping _ _
  cases hio : io (.connect addr) with
  | none => exact hrefused (.inl hio)
  | some e =>
      cases hhost : hosts.host addr with
      | none => exact hrefused (.inr hhost)
      | some y =>
          have hs : (s.connect x y).setNode x ((s.nodes x).resume m
              (.dialed ⟨s.nextConn, .dialer⟩) (k (some ⟨s.nextConn, .dialer⟩))) = s' := by
            simpa [loop, Process.pending, hctl, hio, hhost, Network.advance, Process.advance,
              Process.perform, Io.dialing, Stage.next] using h
          refine .inr ⟨.dial y, ?_, io, addr, rfl, by simp [Process.pending, hctl], hhost⟩
          rw [← hs, view_connect hctl y]
          exact .dial y hnow

/-- A read fails. -/
theorem lose_read {e : TcpStream} {k : Option PeerMessage → Prog Turn}
    (hctl : (s.nodes x).ctl = .handling m .start (.call (.readPeerMessage e) k))
    (hev : m.ev = .peer (.connected e)) (h : s.advance x (io.reading none) s = some s') :
    s.view.Step x .lose s'.view := by
  have hs : s.setNode x ((s.nodes x).resume m .aborted (k none)) = s' := by
    simpa [hctl, Network.advance, Process.advance, Process.perform, Io.reading,
      Stage.next] using h
  have hmoved := hs ▸ moved_setNode s x ((s.nodes x).resume m .aborted (k none))
  have hnow : s.view.now x = .reading e := by simp [view_now hctl, Stage.now, hev, Event.stream?]
  rw [view_goOn hctl hmoved rfl, ← hs]
  exact .lose_all (.inl hnow)

theorem shown_read {e : TcpStream} {k : Option PeerMessage → Prog Turn}
    (hctl : (s.nodes x).ctl = .handling m st (.call (.readPeerMessage e) k))
    (hallows : st = .start ∧ m.ev = .peer (.connected e))
    (h : s.loop hosts x io = some s') : s.Shown hosts x (.loop io) s' := by
  obtain ⟨rfl, hev⟩ := hallows
  have hnow : s.view.now x = .reading e := by simp [view_now hctl, Stage.now, hev, Event.stream?]
  cases hinbox : s.inbox e with
  | nil =>
      simp only [loop, Process.pending, hctl, hinbox] at h
      split at h
      · cases h
      · next hopen =>
          exact .inr ⟨.lose, lose_read hctl hev h, .inr (.inl ⟨e, hnow, hinbox, hopen⟩)⟩
  | cons msg rest =>
      have hs : Network.setNode { s with inbox := update s.inbox e rest } x ((s.nodes x).resume m
          (Stage.start.next (.readPeerMessage e) (some msg)) (k (some msg))) = s' := by
        simpa [loop, Process.pending, hctl, hinbox, Network.advance, Process.advance,
          Process.perform, Io.reading] using h
      have hmoved : s.Moved s' x ((s.nodes x).resume m
          (Stage.start.next (.readPeerMessage e) (some msg)) (k (some msg))) :=
        hs ▸ ⟨rfl, rfl, rfl, rfl⟩
      have hinbox' : s'.inbox = update s.view.inbox e rest := hs ▸ rfl
      have hlost : (∀ hello, msg ≠ .hello hello) →
          Stage.start.next (.readPeerMessage e) (some msg) = .aborted →
            s.Shown hosts x (.loop io) s' := by
        intro hmsg hover
        rw [hover] at hmoved
        refine .inr ⟨.lose, ?_, .inr (.inr (.inl ⟨e, msg, hnow, by simp [hinbox], hmsg⟩))⟩
        rw [view_goOn hctl hmoved rfl, hinbox']
        exact .lose (.inl hnow) (by simp [view, hinbox])
      cases msg with
      | hello hello =>
          refine .inr ⟨.meet, ?_, trivial⟩
          rw [view_goOn hctl hmoved rfl, hinbox']
          have hmet : (Stage.start.next (.readPeerMessage e) (some (.hello hello))).now m.ev =
              .met e := by
            simp [Stage.next, Stage.now, hev, Event.stream?]
          rw [hmet]
          exact .meet hnow hinbox
      | addressBookRequest => exact hlost (by simp) rfl
      | addressBook book => exact hlost (by simp) rfl

theorem shown_write {e : TcpStream} {msg : PeerMessage} {k : Bool → Prog Turn}
    (hctl : (s.nodes x).ctl = .handling m st (.call (.writePeerMessage e msg) k))
    (hallows : (s.nodes x).node.Allows m.ev st (.writePeerMessage e msg))
    (h : s.loop hosts x io = some s') : s.Shown hosts x (.loop io) s' := by
  obtain ⟨-, hst⟩ := hallows
  cases hio : io (.writePeerMessage e msg) with
  | false =>
      have hs : s.setNode x ((s.nodes x).resume m
          (st.next (.writePeerMessage e msg) false) (k false)) = s' := by
        simpa [loop, Process.pending, hctl, hio, Network.advance, Process.advance,
          Process.perform] using h
      have hmoved := hs ▸ moved_setNode s x ((s.nodes x).resume m
        (st.next (.writePeerMessage e msg) false) (k false))
      have hfails : s.Fails hosts x (.loop io) := by simpa [Fails, hctl] using hio
      right
      rcases hst with ⟨rfl, -⟩ | ⟨id, rfl, hev, -⟩
      · refine ⟨.halt, ?_, .inl hfails⟩
        rw [view_goOn hctl hmoved rfl, ← hs]
        exact .halt_keeping _ _
      · have hnow : s.view.now x = .met e := by simp [view_now hctl, Stage.now, hev, Event.stream?]
        refine ⟨.lose, ?_, .inl hfails⟩
        rw [view_goOn hctl hmoved rfl, ← hs]
        exact .lose_all (.inr hnow)
  | true =>
      have hs : (s.write e msg).setNode x ((s.nodes x).resume m
          (st.next (.writePeerMessage e msg) true) (k true)) = s' := by
        simpa [loop, Process.pending, hctl, hio, Network.advance, Process.advance,
          Process.perform] using h
      have hmoved : s.Moved s' x ((s.nodes x).resume m
          (st.next (.writePeerMessage e msg) true) (k true)) := hs ▸ ⟨rfl, rfl, rfl, rfl⟩
      have hinbox : s'.inbox =
          update s.view.inbox e.other (s.view.inbox e.other ++ [msg]) := hs ▸ rfl
      right
      rcases hst with ⟨rfl, -⟩ | ⟨id, rfl, hev, hid⟩
      · refine ⟨.greet, ?_, trivial⟩
        rw [view_goOn hctl hmoved rfl, hinbox]
        exact .greet msg (view_now hctl)
      · have hnow : s.view.now x = .met e := by simp [view_now hctl, Stage.now, hev, Event.stream?]
        have hkept : {f | ((s.nodes x).resume m
            ((Stage.introduced id).next (.writePeerMessage e msg) true) (k true)).Keeps f} =
            insert e (s.view.kept x) := by
          ext f
          refine (keeps_handling rfl).trans ?_
          rw [Set.mem_insert_iff, hev]
          refine (or_congr (by simp [Stage.next, Stage.joined, eq_comm]) ?_)
          exact (Iff.trans (by simp [Stage.joined]) (keeps_handling hctl).symm)
        refine ⟨.answer, ?_, m, id, _, hctl, hid⟩
        rw [hmoved.view_of_arrived rfl, hkept, hinbox]
        exact .answer msg hnow

theorem shown_trySend {id : SubscriptionID} {notify : Notify} {ev : Event}
    {k : Channel → Prog Turn}
    (hctl : (s.nodes x).ctl = .handling m st (.call (.trySend id notify ev) k))
    (h : s.loop hosts x io = some s') : s.Shown hosts x (.loop io) s' := by
  obtain ⟨lent, hs⟩ : ∃ lent, Network.setNode { s with lent } x ((s.nodes x).resume m
      (st.next (.trySend id notify ev) (io (.trySend id notify ev)))
      (k (io (.trySend id notify ev)))) = s' := by
    cases ev with
    | peer pe =>
        cases pe with
        | connected e =>
            exact ⟨_, by simpa [loop, Process.pending, hctl, Network.advance, Process.advance,
              Process.perform] using h⟩
        | _ =>
            exact ⟨s.lent, by simpa [loop, Process.pending, hctl, Network.advance,
              Process.advance, Process.perform] using h⟩
    | _ =>
        exact ⟨s.lent, by simpa [loop, Process.pending, hctl, Network.advance, Process.advance,
          Process.perform] using h⟩
  have hst : st.next (.trySend id notify ev) (io (.trySend id notify ev)) = st := by
    cases st <;> rfl
  rw [hst] at hs
  have hmoved : s.Moved s' x ((s.nodes x).resume m st (k (io (.trySend id notify ev)))) :=
    hs ▸ ⟨rfl, rfl, rfl, rfl⟩
  exact .inl (view_stay hctl hmoved (hs ▸ rfl))

theorem shown_send {ev : Event} {k : Unit → Prog Turn}
    (hctl : (s.nodes x).ctl = .handling m st (.call (.send ev) k))
    (hallows : (s.nodes x).node.Allows m.ev st (.send ev))
    (h : s.loop hosts x io = some s') : s.Shown hosts x (.loop io) s' := by
  have hs : s.setNode x ((((s.nodes x).post ev .node)).resume m
      (st.next (.send ev) ()) (k ())) = s' := by
    simpa [loop, Process.pending, hctl, Network.advance, Process.advance, Process.perform] using h
  have hmoved := hs ▸ moved_setNode s x ((((s.nodes x).post ev .node)).resume m
    (st.next (.send ev) ()) (k ()))
  rcases hallows with ⟨e, rfl, rfl⟩ | ⟨peer, addr, rfl, rfl⟩
  · refine .inr ⟨.enqueue, ?_, trivial⟩
    have hkept := @kept_resume _ s x m _ .posted _ (k ()) hctl rfl
    have harrived : (((s.nodes x).post (.peer (.connected e)) .node).resume m
        ((Stage.greeted e).next (.send (.peer (.connected e))) ()) (k ())).arrived =
        (s.nodes x).arrived ++ [e] := by
      simp [Process.arrived, Event.stream?]
    have hlog : s.view.log x = (s.nodes x).arrived ++ (s.backlog x).map (⟨·, .listener⟩) := rfl
    have hstep := Exchange.Step.enqueue (view_now hctl) hlog
    rw [hmoved.view, ← hs]
    change s.view.Step x .enqueue { s.view with
      now := update s.view.now x .free
      log := update s.view.log x (_ ++ _)
      kept := update s.view.kept x {f | ((s.nodes x).resume m .posted (k ())).Keeps f} }
    rw [harrived, hkept, Function.update_eq_self, List.append_assoc]
    exact hstep
  · left
    have hkept := @kept_resume _ s x m _ (.announced peer) _ (k ()) hctl rfl
    have harrived : (((s.nodes x).post (.peer (.addedToAddressBook addr)) .node).resume m
        (.announced peer) (k ())).arrived = (s.nodes x).arrived := by
      simp [Process.arrived, Event.stream?]
    rw [hmoved.view_of_arrived harrived, ← hs]
    change { s.view with
      now := update s.view.now x .free
      kept :=
        update s.view.kept x {f | ((s.nodes x).resume m (.announced peer) (k ())).Keeps f} } = _
    rw [hkept, Function.update_eq_self, ← show s.view.now x = .free from view_now hctl,
      Function.update_eq_self]

theorem shown_spawn {id : ID} {e : TcpStream} {k : Nat → Prog Turn} (hsound : (s.nodes x).Sound)
    (hctl : (s.nodes x).ctl = .handling m st (.call (.spawn id e) k))
    (hallows : (s.nodes x).node.Allows m.ev st (.spawn id e))
    (h : s.loop hosts x io = some s') : s.Shown hosts x (.loop io) s' := by
  obtain ⟨rfl, hev, -⟩ := hallows
  have hs : s.setNode x { (s.nodes x).setThreads (s.nodes x).nextChannel
        ⟨⟨id, e, (s.nodes x).nextChannel⟩, true, true, false⟩ with
      nextChannel := (s.nodes x).nextChannel + 1
      ctl := .handling m (.started ⟨id, e, (s.nodes x).nextChannel⟩)
        (k (s.nodes x).nextChannel) } = s' := by
    simpa [loop, Process.pending, hctl, Network.advance, Process.advance, Process.perform,
      Stage.next] using h
  have hmoved := hs ▸ moved_setNode s x _
  have hkept : {f | Process.Keeps { (s.nodes x).setThreads (s.nodes x).nextChannel
        ⟨⟨id, e, (s.nodes x).nextChannel⟩, true, true, false⟩ with
      nextChannel := (s.nodes x).nextChannel + 1
      ctl := .handling m (.started ⟨id, e, (s.nodes x).nextChannel⟩)
        (k (s.nodes x).nextChannel) } f} = s.view.kept x := by
    ext f
    refine (keeps_handling rfl).trans (Iff.trans ?_ (keeps_handling hctl).symm)
    -- the threads are new, and those of the stream that is joined already
    constructor
    · rintro (hjoined | ⟨k', t, ht, rfl, halive⟩)
      · exact .inl hjoined
      · by_cases hk : k' = (s.nodes x).nextChannel
        · subst hk
          obtain rfl := Option.some.inj (show some _ = some t by simpa using ht)
          exact .inl ⟨hev, rfl⟩
        · exact .inr ⟨k', t, by simpa [hk] using ht, rfl, halive⟩
    · rintro (hjoined | ⟨k', t, ht, hf, halive⟩)
      · exact .inl hjoined
      · have hk : k' ≠ (s.nodes x).nextChannel := (hsound.channel k' t ht).1.ne
        exact .inr ⟨k', t, by simpa [hk] using ht, hf, halive⟩
  left
  rw [hmoved.view_of_arrived rfl, hkept, Function.update_eq_self, ← hs]
  change { s.view with now := update s.view.now x .free } = _
  rw [← show s.view.now x = .free from view_now hctl, Function.update_eq_self]

omit [DecidableEq ι] in
/-- What is kept after threads have ended or been dropped. -/
theorem keeps_of_setThreads {p q : Process} {k : Nat} {t u : Threads} (ht : p.threads k = some t)
    (hq : q.threads = update p.threads k (some u)) (hpeer : u.peer = t.peer)
    (halive : u.Alive → t.Alive) {e : TcpStream}
    (h : ∃ k t, q.threads k = some t ∧ t.peer.stream = e ∧ t.Alive) :
    ∃ k t, p.threads k = some t ∧ t.peer.stream = e ∧ t.Alive := by
  obtain ⟨k', t', ht', he, halive'⟩ := h
  rw [hq] at ht'
  obtain ⟨-, rfl⟩ | ⟨-, hold⟩ := Process.setThreads_cases (p := p) ht'
  · exact ⟨k, t, ht, hpeer ▸ he, halive halive'⟩
  · exact ⟨k', t', hold, he, halive'⟩

theorem shown_drop {peer : RemotePeer} {k : Unit → Prog Turn}
    (hctl : (s.nodes x).ctl = .handling m st (.call (.drop peer) k))
    (hallows : (s.nodes x).node.Allows m.ev st (.drop peer))
    (h : s.loop hosts x io = some s') : s.Shown hosts x (.loop io) s' := by
  have hnow : s.view.now x = .free := by
    rw [view_now hctl]
    rcases hallows with ⟨rfl, id, hev, -⟩ | ⟨rfl | rfl, hev⟩ <;>
      simp [Stage.now, hev, Event.stream?]
  obtain ⟨q, hq, hctl', harrived, hs⟩ : ∃ q : Process,
      (∀ e, (∃ k t, q.threads k = some t ∧ t.peer.stream = e ∧ t.Alive) →
        ∃ k t, (s.nodes x).threads k = some t ∧ t.peer.stream = e ∧ t.Alive) ∧
      q.ctl = .handling m .dropped (k ()) ∧ q.arrived = (s.nodes x).arrived ∧
      s.setNode x q = s' := by
    simp only [loop, Process.pending, hctl, Network.advance, Process.advance, Process.perform,
      Option.map_some, Option.some.injEq] at h
    cases ht : (s.nodes x).threads peer.senderChannel with
    | none =>
        rw [ht] at h
        exact ⟨{ s.nodes x with ctl := .handling m (st.next (.drop peer) ()) (k ()) },
          fun e he => he, by simp [Stage.next], rfl, h⟩
    | some t =>
        rw [ht] at h
        refine ⟨{ (s.nodes x).setThreads peer.senderChannel { t with dropped := true } with
          ctl := .handling m (st.next (.drop peer) ()) (k ()) }, fun e he => ?_,
          by simp [Stage.next], rfl, h⟩
        refine @keeps_of_setThreads (s.nodes x) _ _ t { t with dropped := true } ht rfl rfl ?_ e he
        rintro (hs | hr | hd)
        · exact .inl hs
        · exact .inr (.inl hr)
        · cases hd
  have hmoved := hs ▸ moved_setNode s x q
  refine .inr ⟨.forget, ?_, .inr (.inl ⟨peer, by simp [Process.pending, hctl]⟩)⟩
  have hstep := @Exchange.Step.forget _ _ s.view x {e | q.Keeps e} fun e he => by
    rcases (keeps_handling hctl').mp he with ⟨-, hst⟩ | hthread
    · cases hst
    · exact .inr (hq e hthread)
  rw [hmoved.view_of_arrived harrived, hctl', ← hs]
  change s.view.Step x .forget { s.view with
    now := update s.view.now x .free, kept := update s.view.kept x {e | q.Keeps e} }
  rw [← hnow, Function.update_eq_self]
  exact hstep

/-! ## The end of a round -/

theorem shown_next {node : SeedNode} (hsound : (s.nodes x).Sound)
    (hctl : (s.nodes x).ctl = .handling m st (.ret (.next node)))
    (h : s.loop hosts x io = some s') : s.Shown hosts x (.loop io) s' := by
  obtain ⟨-, -, hleaves⟩ := hsound.follows m st _ hctl
  have hs : s.setNode x { s.nodes x with node, ctl := .waiting } = s' := by
    simpa [loop, Process.pending, hctl, Network.advance, Process.advance] using h
  have hmoved := hs ▸ moved_setNode s x { s.nodes x with node, ctl := .waiting }
  have hkept : {e | Process.Keeps { s.nodes x with node, ctl := .waiting } e} = s.view.kept x := by
    ext e
    refine Iff.trans ?_ (keeps_handling hctl).symm
    constructor
    · rintro (⟨m, st, rest, hwaiting, -⟩ | hthread)
      · cases hwaiting
      · exact .inr hthread
    · rintro (⟨hev, hst⟩ | hthread)
      · -- what was answered has its threads by now
        cases st with
        | announced peer =>
            obtain ⟨hpeer, t, ht, rfl, hdropped⟩ := hsound.started m _ _ peer hctl (.inr rfl)
            obtain rfl := PeerEvent.connected.inj (Event.peer.inj (hev.symm.trans hpeer))
            exact .inr ⟨_, t, ht, rfl, .inr (.inr hdropped)⟩
        | answered id => exact absurd hleaves (by simp [SeedNode.Leaves])
        | started peer => exact absurd hleaves (by simp [SeedNode.Leaves])
        | _ => cases hst
      · exact .inr hthread
  have hview : s'.view = { s.view with now := update s.view.now x .free } := by
    rw [hmoved.view_of_arrived rfl, hkept, Function.update_eq_self, ← hs]
    rfl
  by_cases hmet : ∃ id, st = .introduced id
  · obtain ⟨id, rfl⟩ := hmet
    have hseen : id ∈ (s.nodes x).node.peers := hleaves.2
    by_cases hev : ∃ e, m.ev = .peer (.connected e)
    · obtain ⟨e, hev⟩ := hev
      have hnow : s.view.now x = .met e := by simp [view_now hctl, Stage.now, hev, Event.stream?]
      exact .inr ⟨.lose, hview ▸ .lose_all (.inr hnow), .inr (.inr (.inr ⟨m, id, _, hctl, hseen⟩))⟩
    · have hnow : s.view.now x = .free := by
        have hnone : m.ev.stream? = none := by
          cases hstream : m.ev.stream? with
          | none => rfl
          | some e => exact absurd ⟨e, Event.stream?_eq_some.mp hstream⟩ hev
        simp [view_now hctl, Stage.now, hnone]
      rw [← hnow, Function.update_eq_self] at hview
      exact .inl hview
  · have hnow : s.view.now x = .free := by
      rw [view_now hctl]
      cases st with
      | start =>
          have hnone : m.ev.stream? = none := by
            cases hstream : m.ev.stream? with
            | none => rfl
            | some e => exact absurd (Event.stream?_eq_some.mp hstream) (hleaves.2.1 e)
          simp [Stage.now, hnone]
      | introduced id => exact absurd ⟨id, rfl⟩ hmet
      | dialed e => exact absurd hleaves (by simp [SeedNode.Leaves])
      | greeted e => exact absurd hleaves (by simp [SeedNode.Leaves])
      | broken => exact absurd hleaves (by simp [SeedNode.Leaves])
      | _ => rfl
    rw [← hnow, Function.update_eq_self] at hview
    exact .inl hview

/-- The loop halts, and lets go of the stream it was busy with. -/
theorem shown_halt {node : SeedNode} {ctl : Ctl} (hctl : (s.nodes x).ctl = .handling m st rest)
    (hs : s.setNode x { s.nodes x with node, ctl } = s') (hend : ctl.now = .halted)
    (hloop : ∀ m st rest, ctl ≠ .handling m st rest) :
    s.view.Step x .halt s'.view := by
  have hmoved := hs ▸ moved_setNode s x { s.nodes x with node, ctl }
  rw [hmoved.view_of_arrived rfl, ← hs]
  change s.view.Step x .halt { s.view with
    now := update s.view.now x ctl.now
    kept := update s.view.kept x {e | Process.Keeps { s.nodes x with node, ctl } e} }
  rw [hend]
  refine .halt fun e he => ?_
  rcases he with ⟨m, st, rest, hc, -⟩ | hthread
  · exact absurd hc (hloop m st rest)
  · exact (keeps_handling hctl).mpr (.inr hthread)

theorem shown_done {node : SeedNode} (hctl : (s.nodes x).ctl = .handling m st (.ret (.done node)))
    (h : s.loop hosts x io = some s') : s.Shown hosts x (.loop io) s' := by
  have hs : s.setNode x { s.nodes x with node, ctl := .returned } = s' := by
    simpa [loop, Process.pending, hctl, Network.advance, Process.advance] using h
  exact .inr ⟨.halt, shown_halt hctl hs rfl (by simp), .inr ⟨m, st, node, hctl⟩⟩

theorem shown_stop {e : Failure} (hctl : (s.nodes x).ctl = .handling m st (.stop e))
    (h : s.loop hosts x io = some s') : s.Shown hosts x (.loop io) s' := by
  have hs : s.setNode x { s.nodes x with node := (s.nodes x).node, ctl := .failed e } = s' := by
    simpa [loop, Process.pending, hctl, Network.advance, Process.advance] using h
  exact .inr ⟨.halt, shown_halt hctl hs rfl (by simp), .inl (by simp [Fails, hctl])⟩

theorem shown_loop (hsound : (s.nodes x).Sound) (h : s.loop hosts x io = some s') :
    s.Shown hosts x (.loop io) s' := by
  cases hctl : (s.nodes x).ctl with
  | handling m st rest =>
      have hfollows := hsound.follows m st rest hctl
      cases rest with
      | call c k =>
          have hallows := hfollows.1
          cases c with
          | tryClone site e => exact shown_tryClone hctl hallows h
          | connect addr => exact shown_connect hctl hallows h
          | localAddr e => exact shown_localAddr hctl hallows h
          | readPeerMessage e => exact shown_read hctl hallows h
          | writePeerMessage e msg => exact shown_write hctl hallows h
          | trySend id notify ev => exact shown_trySend hctl h
          | send ev => exact shown_send hctl hallows h
          | spawn id e => exact shown_spawn hsound hctl hallows h
          | drop peer => exact shown_drop hctl hallows h
          | subscriptionOrder => exact shown_order hctl (.inl rfl) h
          | eventIdOrder => exact shown_order hctl (.inr (.inl rfl)) h
          | peerOrder => exact shown_order hctl (.inr (.inr rfl)) h
      | ret turn =>
          cases turn with
          | next node => exact shown_next hsound hctl h
          | done node => exact shown_done hctl h
      | stop e => exact shown_stop hctl h
  | _ => simp [loop, Process.pending, hctl, Network.advance, Process.advance] at h

/-! ## Other steps -/

/-- An event that is no connection, put in a channel. -/
theorem view_post {ev : Event} {sender : Sender} (hstream : ev.stream? = none) :
    (s.setNode x ((s.nodes x).post ev sender)).view = s.view := by
  have harrived : ((s.nodes x).post ev sender).arrived = (s.nodes x).arrived := by
    simp [Process.arrived, hstream]
  rw [(moved_setNode s x _).view_of_arrived harrived]
  change { s.view with
    now := update s.view.now x (s.view.now x), kept := update s.view.kept x (s.view.kept x) } = _
  rw [Function.update_eq_self, Function.update_eq_self]

theorem shown_post {ev : Event} (h : s.step hosts (x, .post ev) = some s') :
    s.Shown hosts x (.post ev) s' := by
  simp only [step] at h
  split at h
  · next hreq =>
      obtain rfl := Option.some.inj h
      refine .inl (view_post ?_)
      unfold Event.stream?
      split
      · cases hreq
      · rfl
  · cases h

theorem shown_accept (h : s.step hosts (x, .accept) = some s') : s.Shown hosts x .accept s' := by
  simp only [step] at h
  split at h
  · next c rest hbacklog =>
      obtain rfl := Option.some.inj h
      left
      ext1
      · funext z
        by_cases hz : z = x
        · subst hz; simp [view]
        · simp [view, hz]
      · funext z
        by_cases hz : z = x
        · subst hz; simp [view, Process.arrived, Event.stream?, hbacklog]
        · simp [view, hz]
      · funext z
        by_cases hz : z = x
        · subst hz; simp [view, Process.Keeps]
        · simp [view, hz]
      all_goals rfl
  · cases h

theorem shown_take (h : s.step hosts (x, .take) = some s') : s.Shown hosts x .take s' := by
  obtain ⟨p, hp, rfl⟩ := Option.map_eq_some_iff.mp h
  obtain ⟨m, rest, hctl, hqueue, rfl⟩ := Process.take_cases hp
  have hmoved := moved_setNode s x
    { s.nodes x with ctl := .handling m .start ((s.nodes x).node.turn m.ev), queue := rest }
  have hnow : s.view.now x = .free := by simp [view, hctl, Ctl.now]
  have hkept : {e | Process.Keeps { s.nodes x with
      ctl := .handling m .start ((s.nodes x).node.turn m.ev), queue := rest } e} =
      s.view.kept x := by
    ext e
    refine (keeps_handling rfl).trans ?_
    simp [view, Process.Keeps, hctl, Stage.joined]
  cases hstream : m.ev.stream? with
  | none =>
      left
      have harrived : Process.arrived { s.nodes x with
          ctl := .handling m .start ((s.nodes x).node.turn m.ev), queue := rest } =
          (s.nodes x).arrived := by
        simp [Process.arrived, hqueue, hstream]
      rw [hmoved.view_of_arrived harrived, hkept, Function.update_eq_self]
      change { s.view with now := update s.view.now x (Stage.start.now m.ev) } = _
      rw [show Stage.start.now m.ev = s.view.now x by simp [Stage.now, hstream, hnow],
        Function.update_eq_self]
  | some e =>
      refine .inr ⟨.take, ?_, trivial⟩
      have hlog : s.view.log x = e :: (Process.arrived { s.nodes x with
          ctl := .handling m .start ((s.nodes x).node.turn m.ev), queue := rest } ++
          (s.backlog x).map (⟨·, .listener⟩)) := by
        simp [view, Process.arrived, hqueue, hstream]
      rw [hmoved.view, hkept, Function.update_eq_self]
      change s.view.Step x .take { s.view with
        now := update s.view.now x (Stage.start.now m.ev), log := _ }
      rw [show Stage.start.now m.ev = .reading e by simp [Stage.now, hstream]]
      exact .take hnow hlog

/-- A thread ends. -/
theorem step_forget {k : Nat} {t u : Threads} {id : ID} {sender : Sender}
    (ht : (s.nodes x).threads k = some t) (hpeer : u.peer = t.peer) (halive : u.Alive → t.Alive)
    (hs : s.setNode x (((s.nodes x).setThreads k u).post (.peer (.disconnect id)) sender) = s') :
    s.view.Step x .forget s'.view := by
  have harrived : (((s.nodes x).setThreads k u).post (.peer (.disconnect id)) sender).arrived =
      (s.nodes x).arrived := by
    simp [Process.arrived, Event.stream?]
  have hmoved := hs ▸ moved_setNode s x
    (((s.nodes x).setThreads k u).post (.peer (.disconnect id)) sender)
  rw [hmoved.view_of_arrived harrived, ← hs]
  change s.view.Step x .forget { s.view with
    now := update s.view.now x (s.view.now x), kept := update s.view.kept x _ }
  rw [Function.update_eq_self]
  refine .forget fun e he => ?_
  rcases he with hjoined | hthread
  · exact .inl hjoined
  · exact .inr (keeps_of_setThreads ht rfl hpeer halive hthread)

theorem shown_sendEnds {k : Nat} (h : s.step hosts (x, .sendEnds k) = some s') :
    s.Shown hosts x (.sendEnds k) s' := by
  obtain ⟨p, hp, hs⟩ := Option.map_eq_some_iff.mp h
  obtain ⟨t, ht, hsending, hdropped, rfl⟩ := Process.sendEnds_cases hp
  refine .inr ⟨.forget, @step_forget _ _ s s' x k t { t with sending := false } _ _ ht rfl ?_ hs,
    .inr (.inr ⟨k, t, ht, .inl hdropped⟩)⟩
  exact fun _ => .inl hsending

theorem shown_receive {k : Nat} (h : s.step hosts (x, .receive k) = some s') :
    s.Shown hosts x (.receive k) s' := by
  simp only [step] at h
  split at h
  · next t ht =>
      split at h
      · next msg rest hinbox =>
          obtain ⟨p, hp, hs⟩ := Option.map_eq_some_iff.mp h
          obtain ⟨t', ht', hreceiving, rfl⟩ := Process.received_cases hp
          obtain rfl : t = t' := Option.some.inj (ht.symm.trans ht')
          refine .inr ⟨.hear, ?_, trivial⟩
          have hmoved : s.Moved s' x ((s.nodes x).post (.peer (.receivedMessage t.peer.id msg))
              (.receiveLoop k)) := hs ▸ ⟨rfl, rfl, rfl, rfl⟩
          have harrived : ((s.nodes x).post (.peer (.receivedMessage t.peer.id msg))
              (.receiveLoop k)).arrived = (s.nodes x).arrived := by
            simp [Process.arrived, Event.stream?]
          have hkept : t.peer.stream ∈ s.view.kept x := .inr ⟨k, t, ht, rfl, .inr (.inl hreceiving)⟩
          rw [hmoved.view_of_arrived harrived, ← hs]
          change s.view.Step x .hear { s.view with
            now := update s.view.now x (s.view.now x)
            kept := update s.view.kept x (s.view.kept x)
            inbox := update s.view.inbox t.peer.stream rest }
          rw [Function.update_eq_self, Function.update_eq_self]
          exact .hear hkept hinbox
      · cases h
  · cases h

theorem shown_receiveEnds {k : Nat} (h : s.step hosts (x, .receiveEnds k) = some s') :
    s.Shown hosts x (.receiveEnds k) s' := by
  simp only [step] at h
  split at h
  · next t ht =>
      split at h
      · next hend =>
          obtain ⟨p, hp, hs⟩ := Option.map_eq_some_iff.mp h
          obtain ⟨t', ht', hreceiving, rfl⟩ := Process.receiveEnds_cases hp
          obtain rfl : t = t' := Option.some.inj (ht.symm.trans ht')
          refine .inr ⟨.forget,
            @step_forget _ _ s s' x k t { t with receiving := false } _ _ ht rfl ?_ hs,
            .inr (.inr ⟨k, t, ht, .inr ⟨hreceiving, hend⟩⟩)⟩
          exact fun _ => .inr (.inl hreceiving)
      · cases h
  · cases h

theorem shown_release {e : TcpStream} (h : s.step hosts (x, .release e) = some s') :
    s.Shown hosts x (.release e) s' := by
  simp only [step] at h
  split at h
  · obtain rfl := Option.some.inj h
    exact .inl rfl
  · cases h

omit [DecidableEq ι] in
/-- A loop about to read is reading. -/
theorem view_reading {e : TcpStream} (hsound : (s.nodes x).Sound)
    (h : (s.nodes x).pending = some (.readPeerMessage e)) : s.view.now x = .reading e := by
  obtain ⟨m, st, k, hctl⟩ := Process.handling_of_pending h
  obtain ⟨⟨rfl, hev⟩, -⟩ := hsound.follows m st _ hctl
  simp [view_now hctl, Stage.now, hev, Event.stream?]

omit [DecidableEq ι] in
@[simp] theorem view_new (hosts : Hosts ι) : (new hosts).view = .empty := by
  ext1
  · rfl
  · rfl
  · funext x
    refine Set.eq_empty_of_forall_notMem fun e he => ?_
    rcases he with ⟨m, st, rest, hctl, -⟩ | ⟨k, t, ht, -⟩
    · cases hctl
    · cases ht
  all_goals rfl

/-- **What a step of the network shows.** -/
theorem step_view {mv : Move} (hsound : (s.nodes x).Sound)
    (h : s.step hosts (x, mv) = some s') : s.Shown hosts x mv s' := by
  cases mv with
  | post ev => exact shown_post h
  | accept => exact shown_accept h
  | take => exact shown_take h
  | loop io => exact shown_loop hsound h
  | sendEnds k => exact shown_sendEnds h
  | receive k => exact shown_receive h
  | receiveEnds k => exact shown_receiveEnds h
  | release e => exact shown_release h

end

end Network

end Reactor.Sn
