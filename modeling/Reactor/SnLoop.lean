import Mathlib.Tactic.Common
import Reactor.SnNode
import Reactor.Transition

/-!
# What ends the event loop

Handlers report failure with `?` all the way up to `run`, and the loop
ends with the first one, although several error paths next to those that
do this only log and go on. `Survivable` says, for one round, which I/O
outcomes the loop lives through: every clone of a published stream, every
subscriber of the event accepting it, the dial and the hello of a
`Connect`, and of a `Connected` the clone of its stream and, once a new
peer has introduced itself, the hello back and the next clone.

**`loop_survives`**: a run of the loop has kept going, or has returned
after `Terminate` with no peers left, exactly when every round of it was
survivable. The round lemmas (`exec_publishEvent`, `handlePeerEvent_ok`)
say the same of the parts, and `turn_keeps` what a round does to the
subscriptions.
-/

namespace Reactor.Sn

open Program

/-! ## Publishing -/

/-- The clone of an event made at a site goes well. -/
def cloneable (io : Io) (site : CloneSite) : Event → Bool
  | .peer (.connected stream) => io (.tryClone site stream)
  | _ => true

/-- A subscription that is sent an event, and the channel it is sent on. -/
def SeedNode.Subscribed (self : SeedNode) (ev : Event) (id : SubscriptionID)
    (notify : Notify) : Prop :=
  ∃ e, ev.id = some e ∧ self.subscriptions.byEventId.find e id = some notify

theorem exec_clone (io : Io) (site : CloneSite) (ev : Event) :
    (ev.clone site).exec io = if cloneable io site ev then .ok () else .error .panic := by
  unfold Event.clone cloneable
  split <;> simp
  split <;> rfl

theorem exec_notifyAll (io : Io) (ev : Event) (subs : HashMap SubscriptionID Notify) :
    ∀ ids : List SubscriptionID, (notifyAll ev subs ids).exec io = .ok (.ok ()) ↔
      ∀ id ∈ ids, ∀ notify, subs.lookup id = some notify →
        cloneable io (.publish id) ev ∧ io (.trySend id notify ev) = .vacant
  | [] => by simp [notifyAll]
  | id :: ids => by
      rw [notifyAll, List.forall_mem_cons]
      cases hl : subs.lookup id with
      | none => simp [exec_notifyAll io ev subs ids]
      | some notify =>
          have ih := exec_notifyAll io ev subs ids
          simp only [trySend_bind]
          rw [exec_bind_eq_ok, exec_clone]
          cases hc : cloneable io (.publish id) ev
          · simp
          · cases hs : io (.trySend id notify ev) <;>
              simp [hs, Channel.trySend, ih]

theorem notifyAll_error (io : Io) (ev : Event) (subs : HashMap SubscriptionID Notify) :
    ∀ ids : List SubscriptionID, ∀ e, (notifyAll ev subs ids).exec io = .ok (.error e) →
      ∃ e', e = .channelSendFailed e'
  | [], e, h => by simp [notifyAll] at h
  | id :: ids, e, h => by
      have ih := notifyAll_error io ev subs ids e
      rw [notifyAll] at h
      cases hl : subs.lookup id with
      | none => exact ih (by simpa [hl] using h)
      | some notify =>
          simp only [hl, trySend_bind] at h
          obtain ⟨-, -, h⟩ := (exec_bind_eq_ok io).mp h
          cases hs : io (.trySend id notify ev) <;> simp [hs, Channel.trySend] at h
          · exact ih h
          · exact ⟨_, h.symm⟩
          · exact ⟨_, h.symm⟩

theorem exec_publish (io : Io) (self : Subscriptions) (ev : Event) :
    ((self.publish ev).exec io = .ok (.ok ()) ∨
      (self.publish ev).exec io = .ok (.error .noEventIDForEvent)) ↔
    ∀ e, ev.id = some e → ∀ id notify, self.byEventId.find e id = some notify →
      cloneable io (.publish id) ev ∧ io (.trySend id notify ev) = .vacant := by
  unfold Subscriptions.publish
  cases hid : ev.id with
  | none => simp
  | some e =>
      cases hl : self.byEventId.lookup e with
      | none => simp [Index.find, hl]
      | some subs =>
          have hall := exec_notifyAll io ev subs ((io .subscriptionOrder).order subs.keys)
          have herr := notifyAll_error io ev subs ((io .subscriptionOrder).order subs.keys)
          simp only [hl, subscriptionOrder_bind, exec_call]
          constructor
          · rintro (h | h) e' he' id notify hfind
            · obtain rfl := Option.some.inj he'
              have hlook : subs.lookup id = some notify := by simpa [Index.find, hl] using hfind
              exact hall.mp h id (by simp [Finmap.mem_keys, Finmap.mem_iff, hlook]) notify hlook
            · obtain ⟨e', he'⟩ := herr _ h
              cases he'
          · intro h
            refine .inl (hall.mpr fun id _ notify hlook => h e rfl id notify ?_)
            simp [Index.find, hl, hlook]

/-- Publishing goes well when the event can be cloned for the subscribers
and each of them accepts it. -/
theorem exec_publishEvent (io : Io) (self : SeedNode) (ev : Event) :
    (self.publishEvent ev).exec io = .ok () ↔
      cloneable io .publishEvent ev ∧ ∀ id notify, self.Subscribed ev id notify →
        cloneable io (.publish id) ev ∧ io (.trySend id notify ev) = .vacant := by
  have hpublish := exec_publish io self.subscriptions ev
  have hsub : (∀ id notify, self.Subscribed ev id notify →
      cloneable io (.publish id) ev ∧ io (.trySend id notify ev) = .vacant) ↔
      ∀ e, ev.id = some e → ∀ id notify, self.subscriptions.byEventId.find e id = some notify →
        cloneable io (.publish id) ev ∧ io (.trySend id notify ev) = .vacant := by
    simp only [SeedNode.Subscribed]
    exact ⟨fun h e he id notify hf => h id notify ⟨e, he, hf⟩,
      fun h id notify ⟨e, he, hf⟩ => h e he id notify hf⟩
  rw [hsub, ← hpublish, SeedNode.publishEvent, exec_bind, exec_clone]
  cases hc : cloneable io .publishEvent ev
  · simp [Except.bind]
  simp only [if_true, true_and, Except.bind]
  constructor
  · intro h
    obtain ⟨r, hr, h⟩ := (exec_bind_eq_ok io).mp h
    split at h
    · exact .inl hr
    · exact .inr hr
    · cases h
  · rintro (h | h) <;> rw [exec_bind_ok io h] <;> rfl

/-! ## Handling -/

/-- The I/O outcomes with which the handler of an event succeeds. -/
def Handled (io : Io) (self : SeedNode) : Event → Prop
  | .peer (.connect addr) =>
      ∃ stream, io (.connect addr) = some stream ∧
        io (.writePeerMessage stream (.hello ⟨self.id⟩)) = true
  | .peer (.connected stream) =>
      io (.tryClone .peerConnected stream) = true ∧
      ∀ hello addr, io (.readPeerMessage stream) = some (.hello hello) →
        hello.id ∉ self.peers → io (.localAddr stream) = some addr →
        io (.writePeerMessage stream (.hello ⟨self.id⟩)) = true ∧
          io (.tryClone .tryAddPeer stream) = true
  | _ => True

theorem exec_tryAddPeer (io : Io) (self : SeedNode) (stream : TcpStream) (hello : PeerHello) :
    (∃ node, (self.tryAddPeer stream hello).exec io = .ok node) ↔
      ∀ addr, hello.id ∉ self.peers → io (.localAddr stream) = some addr →
        io (.writePeerMessage stream (.hello ⟨self.id⟩)) = true ∧
          io (.tryClone .tryAddPeer stream) = true := by
  unfold SeedNode.tryAddPeer
  by_cases hid : hello.id ∈ self.peers
  · simp [hid]
  simp only [if_neg hid, localAddr_bind, exec_call]
  cases haddr : io (.localAddr stream) with
  | none => simp
  | some addr =>
      simp only [SeedNode.sayHelloToPeer_bind, exec_call]
      cases io (.writePeerMessage stream (.hello ⟨self.id⟩))
      · simp [hid]
      simp only [if_true, tryClone_bind, orFail_bind, exec_call]
      cases io (.tryClone .tryAddPeer stream)
      · simp [hid]
      simp only [if_true, RemotePeer.new_bind, exec_call]
      -- from here on every failure is swallowed
      cases io (.tryClone .sendStream stream)
      · simp
      cases hr : io (.tryClone .receiveStream stream) <;> simp [hr]

/-- Handling a peer event succeeds exactly with those outcomes. -/
theorem handlePeerEvent_ok (io : Io) (self : SeedNode) (pe : PeerEvent) :
    (∃ node, (self.handlePeerEvent pe).exec io = .ok node) ↔ Handled io self (.peer pe) := by
  cases pe with
  | connected stream =>
      simp only [SeedNode.handlePeerEvent, SeedNode.peerConnected, tryClone_bind, orFail_bind,
        exec_call, Handled]
      cases io (.tryClone .peerConnected stream)
      · simp
      simp only [if_true, SeedNode.readPeerHello, readPeerMessage_bind, exec_call, true_and]
      cases io (.readPeerMessage stream) with
      | none => simp
      | some msg =>
          cases msg with
          | hello hello =>
              rw [exec_tryAddPeer]
              refine ⟨fun h hello' addr heq => ?_, fun h addr => h hello addr rfl⟩
              obtain rfl := PeerMessage.hello.inj (Option.some.inj heq)
              exact h addr
          | addressBookRequest => simp
          | addressBook book => simp
  | connect addr =>
      simp only [SeedNode.handlePeerEvent, SeedNode.connectToPeer, connect_bind, exec_call,
        Handled]
      cases io (.connect addr) with
      | none => simp
      | some stream =>
          cases hwrite : io (.writePeerMessage stream (.hello ⟨self.id⟩)) <;> simp [hwrite]
  | disconnect id =>
      simp only [SeedNode.handlePeerEvent, SeedNode.disconnectPeer, Handled]
      split <;> simp
  | addedToAddressBook addr => simp [SeedNode.handlePeerEvent, Handled]
  | receivedMessage id msg => simp [SeedNode.handlePeerEvent, Handled]
  | sendMessage id msg => simp [SeedNode.handlePeerEvent, Handled]

/-! ## What a round keeps -/

/-- Calls other than those that publish. -/
def Call.Silent : Call → Prop
  | .trySend _ _ _ => False
  | _ => True

/-- The handlers of peer events touch neither the node's id nor its
subscriptions, and notify nobody. -/
def SeedNode.Untouched (self : SeedNode) : Contract Call Call.Answer SeedNode Unit :=
  .flat Call.Silent fun node => node.id = self.id ∧ node.subscriptions = self.subscriptions

theorem tryAddPeer_untouched (self : SeedNode) (stream : TcpStream) (hello : PeerHello) :
    (self.tryAddPeer stream hello).Follows self.Untouched () := by
  unfold SeedNode.tryAddPeer
  split
  · exact ⟨rfl, rfl⟩
  · simp [SeedNode.Untouched, Contract.flat, Call.Silent, Option.forall]

theorem handlePeerEvent_untouched (self : SeedNode) (pe : PeerEvent) :
    (self.handlePeerEvent pe).Follows self.Untouched () := by
  have hself : self.Untouched.returns () self := ⟨rfl, rfl⟩
  cases pe with
  | connected stream =>
      simp only [SeedNode.handlePeerEvent, SeedNode.peerConnected, SeedNode.readPeerHello,
        tryClone_bind, orFail_bind, readPeerMessage_bind, follows_call, Bool.forall_bool]
      refine ⟨trivial, trivial, trivial, fun r => ?_⟩
      beta_reduce
      split
      · exact tryAddPeer_untouched self stream _
      · exact hself
  | connect addr =>
      simp [SeedNode.handlePeerEvent, SeedNode.connectToPeer, SeedNode.Untouched,
        Contract.flat, Call.Silent, Option.forall]
  | disconnect id =>
      simp only [SeedNode.handlePeerEvent, SeedNode.disconnectPeer]
      split
      · exact hself
      · exact ⟨trivial, fun _ => ⟨rfl, rfl⟩⟩
  | addedToAddressBook _ | receivedMessage _ _ | sendMessage _ _ => exact hself

/-- What handling an event does to the live subscriptions. -/
def Table.handle (table : Table) : Event → Table
  | .pubSub (.subscribe subs) => table.add subs
  | .pubSub (.unsubscribe ids) => table.removeAll ids
  | _ => table

theorem handlePubsubEvent_ok (io : Io) {self : SeedNode} {table : Table}
    (h : Represents self.subscriptions table) (req : PubSubRequest) :
    ∃ subscriptions, (self.handlePubsubEvent req).exec io = .ok { self with subscriptions } ∧
      Represents subscriptions (table.handle (.pubSub req)) := by
  cases req with
  | subscribe subs =>
      obtain ⟨r, s', hadd, h', -⟩ := h.add (io .eventIdOrder subs.id) subs
      refine ⟨s', ?_, h'⟩
      simp [SeedNode.handlePubsubEvent, SeedNode.handleSubscribe, hadd, unwrap]
  | unsubscribe ids =>
      obtain ⟨s', hremove, h'⟩ :=
        h.removeAll (io .subscriptionOrder) (io .eventIdOrder) ids
      refine ⟨s', ?_, h'⟩
      simp [SeedNode.handlePubsubEvent, SeedNode.handleUnsubscribe, hremove, unwrap]

/-- `disconnect_all_peers` leaves no peer. -/
theorem disconnectAllPeers_ok (io : Io) (self : SeedNode) :
    self.disconnectAllPeers.exec io = .ok { self with peers := ∅ } := by
  -- after the loop the peers left are those not in the list
  have loop : ∀ (ids : List ID) (self : SeedNode), ∃ peers : HashMap ID RemotePeer,
      (self.disconnectEach ids).exec io = .ok { self with peers } ∧
        ∀ id ∈ peers, id ∈ self.peers ∧ id ∉ ids := by
    intro ids
    induction ids with
    | nil => exact fun self => ⟨self.peers, rfl, fun id hid => ⟨hid, List.not_mem_nil⟩⟩
    | cons id ids ih =>
        intro self
        obtain ⟨peers, hexec, hkeep⟩ := ih { self with peers := self.peers.erase id }
        refine ⟨peers, ?_, fun id' hid' => ?_⟩
        · rw [SeedNode.disconnectEach, SeedNode.disconnectPeer]
          cases hl : self.peers.lookup id with
          | none =>
              have herase : self.peers.erase id = self.peers :=
                Finmap.ext_lookup fun id' => by
                  by_cases hid : id' = id
                  · subst hid; rw [Finmap.lookup_erase, hl]
                  · rw [Finmap.lookup_erase_ne hid]
              rw [herase] at hexec
              exact hexec
          | some peer => exact hexec
        · obtain ⟨hmem, hnot⟩ := hkeep id' hid'
          obtain ⟨hne, hmem⟩ := Finmap.mem_erase.mp hmem
          exact ⟨hmem, by simp [hne, hnot]⟩
  obtain ⟨peers, hexec, hkeep⟩ := loop ((io .peerOrder).order self.peers.keys) self
  have hempty : peers = ∅ := by
    refine Finmap.ext_lookup fun id => ?_
    rw [Finmap.lookup_empty, Finmap.lookup_eq_none]
    intro hid
    obtain ⟨hmem, hnot⟩ := hkeep id hid
    exact hnot ((Iter.mem_order _).mpr (Finmap.mem_keys.mpr hmem))
  simpa [SeedNode.disconnectAllPeers, hempty] using hexec

/-! ## Rounds -/

/-- The I/O outcomes a round of the loop lives through. An outcome is what
a call returns, and the calls of a round all do: that a silent peer keeps
`read_peer_hello` waiting is the subject of `SnDeadlock`. -/
structure Survivable (io : Io) (self : SeedNode) (ev : Event) : Prop where
  clones : cloneable io .run ev ∧ cloneable io .publishEvent ev
  accepted : ∀ id notify, self.Subscribed ev id notify →
    cloneable io (.publish id) ev ∧ io (.trySend id notify ev) = .vacant
  handled : Handled io self ev

def Turn.node : Turn → SeedNode
  | next node => node
  | done node => node

/-- A round that does not end in a failure goes on, or, after `Terminate`,
is done with no peers left. -/
theorem turn_result {io : Io} {self : SeedNode} {table : Table}
    (h : Represents self.subscriptions table) {ev : Event} {t : Turn}
    (ht : (self.turn ev).exec io = .ok t) :
    Represents t.node.subscriptions (table.handle ev) ∧
      if ev = .terminate then ∃ node, t = .done node ∧ node.peers = ∅
      else ∃ node, t = .next node := by
  obtain ⟨-, -, ht⟩ := (exec_bind_eq_ok io).mp ht
  obtain ⟨-, -, ht⟩ := (exec_bind_eq_ok io).mp ht
  cases ev with
  | peer pe =>
      obtain ⟨node, hnode, ht⟩ := (exec_bind_eq_ok io).mp ht
      obtain rfl := Except.ok.inj ht
      obtain ⟨-, -, hkeep⟩ := (handlePeerEvent_untouched self pe).exec_ok hnode
      exact ⟨hkeep ▸ h, by simp⟩
  | pubSub req =>
      obtain ⟨subscriptions, hnode, h'⟩ := handlePubsubEvent_ok io h req
      rw [SeedNode.handleEvent, exec_bind_ok io hnode] at ht
      obtain rfl := Except.ok.inj ht
      exact ⟨h', by simp⟩
  | terminate =>
      rw [SeedNode.handleEvent, exec_bind_ok io (disconnectAllPeers_ok io self)] at ht
      obtain rfl := Except.ok.inj ht
      exact ⟨h, by simp⟩

/-- **One round.** It does not fail exactly when its I/O outcomes are
survivable. -/
theorem turn_ok {io : Io} {self : SeedNode} {table : Table}
    (h : Represents self.subscriptions table) (ev : Event) :
    (∃ t, (self.turn ev).exec io = .ok t) ↔ Survivable io self ev := by
  have hrest : (∃ t, (self.turn ev).exec io = .ok t) ↔
      cloneable io .run ev ∧ (self.publishEvent ev).exec io = .ok () ∧ Handled io self ev := by
    unfold SeedNode.turn
    rw [exec_bind, exec_clone]
    cases cloneable io .run ev
    · simp [Except.bind]
    simp only [if_true, Except.bind, true_and]
    cases hp : (self.publishEvent ev).exec io with
    | error e => simp [exec_bind_error io hp]
    | ok u =>
        rw [exec_bind_ok io hp]
        simp only [true_and]
        cases ev with
        | peer pe =>
            rw [← handlePeerEvent_ok]
            simp [SeedNode.handleEvent, exec_bind_eq_ok]
        | pubSub req =>
            obtain ⟨subscriptions, hnode, -⟩ := handlePubsubEvent_ok io h req
            simp [SeedNode.handleEvent, exec_bind_ok io hnode, Handled]
        | terminate =>
            simp [SeedNode.handleEvent, exec_bind_ok io (disconnectAllPeers_ok io self), Handled]
  rw [hrest, exec_publishEvent]
  exact ⟨fun ⟨h₁, ⟨h₂, h₃⟩, h₄⟩ => ⟨⟨h₁, h₂⟩, h₃, h₄⟩,
    fun ⟨⟨h₁, h₂⟩, h₃, h₄⟩ => ⟨h₁, ⟨h₂, h₃⟩, h₄⟩⟩

/-! ## Runs -/

/-- An event the loop takes, and the I/O outcomes while it handles it. -/
structure Round where
  ev : Event
  io : Io

/-- Where `run` is: waiting for the next event, returned, or ended by a
failure. -/
inductive Loop
  | running (node : SeedNode)
  | returned (node : SeedNode)
  | failed (e : Failure)

/-- The node of a loop that is running. -/
def Loop.running? : Loop → Option SeedNode
  | .running node => some node
  | _ => none

/-- The node a loop has returned with. -/
def Loop.returned? : Loop → Option SeedNode
  | .returned node => some node
  | _ => none

def Loop.step : Loop → Round → Option Loop
  | .running node, a =>
      match (node.turn a.ev).exec a.io with
      | .ok (.next node) => some (.running node)
      | .ok (.done node) => some (.returned node)
      | .error e => some (.failed e)
  | _, _ => none

/-- `SeedNode::run` on a new node, taking events as they come. -/
def loop (id : ID) : System Loop Round := ⟨.running (.new id), Loop.step⟩

/-- The loop has gone on, or returned after `Terminate` with no peers. -/
def Loop.Alive (as : List Round) : Loop → Prop
  | .running _ => ∀ a ∈ as, a.ev ≠ .terminate
  | .returned node => node.peers = ∅ ∧ ∃ bs a, as = bs ++ [a] ∧ a.ev = .terminate ∧
      ∀ b ∈ bs, b.ev ≠ .terminate
  | .failed _ => False

/-- The condition on a round at the state it starts from. -/
def Loop.Survives : Loop → Round → Prop
  | .running node, a => Survivable a.io node a.ev
  | _, _ => True

open Reactor.System (Any)

/-- While the loop runs it has taken no `Terminate`, and its subscriptions
are those of a table. -/
theorem running_invariant {id : ID} {as : List Round} {s : Loop} (h : (loop id).Run Any as s)
    {node : SeedNode} (hs : s = .running node) :
    (∀ a ∈ as, a.ev ≠ .terminate) ∧ ∃ table, Represents node.subscriptions table := by
  induction h generalizing node with
  | nil =>
      obtain rfl := Loop.running.inj hs
      exact ⟨by simp, Table.empty, Represents.new⟩
  | @snoc as s s' a h _ hstep ih =>
      subst hs
      cases s with
      | returned _ => cases hstep
      | failed _ => cases hstep
      | running node₀ =>
          obtain ⟨hold, table, htable⟩ := ih rfl
          simp only [loop, Loop.step] at hstep
          split at hstep <;> cases hstep
          next ht =>
          obtain ⟨h', hresult⟩ := turn_result htable ht
          split at hresult
          · obtain ⟨_, hdone, -⟩ := hresult
            cases hdone
          · next hev =>
              refine ⟨fun b hb => ?_, _, h'⟩
              rcases List.mem_append.mp hb with hb | hb
              · exact hold b hb
              · rwa [List.mem_singleton.mp hb]

/-- **Survival.** A run of the loop has kept going, or has returned after
`Terminate` with no peers, exactly when every round was survivable. The
rounds of a run are those whose calls have all returned. -/
theorem loop_survives {id : ID} {as : List Round} {s : Loop} (h : (loop id).Run Any as s) :
    s.Alive as ↔ (loop id).Run Loop.Survives as s := by
  induction h with
  | nil => exact ⟨fun _ => .nil, fun _ => by simp [Loop.Alive, loop]⟩
  | @snoc as s s' a h _ hstep ih =>
      cases s with
      | returned _ => cases hstep
      | failed _ => cases hstep
      | running node =>
          obtain ⟨hold, table, htable⟩ := running_invariant h rfl
          have hok := @turn_ok a.io _ _ htable a.ev
          constructor
          · intro halive
            refine .snoc (ih.mp hold) (hok.mp ?_) hstep
            simp only [loop, Loop.step] at hstep
            split at hstep <;> cases hstep
            · next ht => exact ⟨_, ht⟩
            · next ht => exact ⟨_, ht⟩
            · cases halive
          · intro hrun
            obtain ⟨s₁, h₁, hsurvives, -⟩ := hrun.unsnoc
            obtain rfl := h.unique h₁
            obtain ⟨t, ht⟩ := hok.mpr hsurvives
            obtain ⟨-, hresult⟩ := turn_result htable ht
            simp only [loop, Loop.step, ht] at hstep
            split at hresult
            · next hev =>
                obtain ⟨node', rfl, hempty⟩ := hresult
                obtain rfl := Option.some.inj hstep
                exact ⟨hempty, as, a, rfl, hev, hold⟩
            · next hev =>
                obtain ⟨node', rfl⟩ := hresult
                obtain rfl := Option.some.inj hstep
                intro b hb
                rcases List.mem_append.mp hb with hb | hb
                · exact hold b hb
                · rwa [List.mem_singleton.mp hb]

/-- The host at the other end refuses connections. -/
def Io.refused : Io
  | .connect _ => none
  | c => Io.calm c

/-- A refused dial ends the loop. -/
theorem refused_connect_ends_loop :
    (loop "1").Run Any [⟨.peer (.connect "127.0.0.1:29000"), .refused⟩] (.failed .io) ∧
      ¬(Loop.failed .io).Alive [⟨.peer (.connect "127.0.0.1:29000"), .refused⟩] :=
  ⟨System.run_iff.mpr rfl, fun h => h⟩

/-- Two subscribers, a dial, and the end. -/
def visit : List Round :=
  [⟨.pubSub (.subscribe ⟨⟨0⟩, {.peerConnect, .terminate}, 0⟩), .calm⟩,
    ⟨.pubSub (.subscribe ⟨⟨1⟩, {.peerConnect}, 1⟩), .calm⟩,
    ⟨.peer (.connect "127.0.0.1:29000"), .calm⟩,
    ⟨.peer (.disconnect "2"), .calm⟩,
    ⟨.terminate, .calm⟩]

theorem visit_state : ∃ node : SeedNode, (loop "1").Run Any visit (.returned node) ∧
    node.peers = ∅ := by
  have h : ((loop "1").exec Any (loop "1").init visit).bind (fun s =>
      s.returned?.map (·.peers)) = some ∅ := by
    decide
  obtain ⟨s, hs, hproj⟩ := Option.bind_eq_some_iff.mp h
  obtain ⟨node, hnode, hpeers⟩ := Option.map_eq_some_iff.mp hproj
  unfold Loop.returned? at hnode
  split at hnode
  · obtain rfl := Option.some.inj hnode
    exact ⟨_, System.run_iff.mpr hs, hpeers⟩
  · cases hnode

/-- Every round of the visit is survivable. -/
theorem loop_survives_visit : ∃ node : SeedNode,
    (loop "1").Run Loop.Survives visit (.returned node) := by
  obtain ⟨node, hrun, hempty⟩ := visit_state
  refine ⟨node, (loop_survives hrun).mp ⟨hempty, visit.dropLast, ⟨.terminate, .calm⟩, rfl, rfl, ?_⟩⟩
  intro b hb
  simp only [visit, List.dropLast, List.mem_cons, List.not_mem_nil, or_false] at hb
  rcases hb with rfl | rfl | rfl | rfl <;> simp

end Reactor.Sn
