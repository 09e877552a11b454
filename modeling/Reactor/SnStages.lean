import Mathlib.Tactic.Common
import Reactor.SnNode

/-!
# The seed node: stages of a round

When rounds of several nodes and the steps of their threads interleave, a
round is seen between two of its calls. What matters of it then is how far
it has come with the few calls that others can see: whether it has dialed,
said hello, read a hello, started a remote peer, dropped one. `Stage` says
that, `Stage.next` how a call changes it, and `handling` which calls a
round makes at which stage and what it returns from there.

**`turn_follows`**: a round of the loop keeps that contract, whatever the
answers to its calls. Everything proved about interleavings stands on it,
and looks into no handler again.
-/

namespace Reactor.Sn

open Program

/-- How far a round has come. -/
inductive Stage
  | start
  /-- A `Connect` has its connection, -/
  | dialed (stream : TcpStream)
  /-- has said hello on it, -/
  | greeted (stream : TcpStream)
  /-- and has queued its `Connected` event. -/
  | posted
  /-- A `Connected` has read a hello, -/
  | introduced (id : ID)
  /-- has answered it, -/
  | answered (id : ID)
  /-- has started the threads of a remote peer, -/
  | started (peer : RemotePeer)
  /-- and has queued its `AddedToAddressBook` event. -/
  | announced (peer : RemotePeer)
  /-- A `Disconnect` or `Terminate` has dropped a remote peer. -/
  | dropped
  /-- A call has failed, or nobody has introduced himself. -/
  | aborted
  /-- A `Connect` has failed, which ends the loop. -/
  | broken
deriving DecidableEq

/-- The stage after a call. `answered` becomes `started` with the channel
and the stream of the remote peer started. -/
def Stage.next : Stage → ∀ call : Call, call.Answer → Stage
  | s, .tryClone _ _, ok => if ok then s else aborted
  | _, .connect _, some stream => dialed stream
  | _, .connect _, none => broken
  | s, .localAddr _, some _ => s
  | _, .localAddr _, none => aborted
  | _, .readPeerMessage _, some (.hello hello) => introduced hello.id
  | _, .readPeerMessage _, _ => aborted
  | dialed stream, .writePeerMessage _ _, ok => if ok then greeted stream else broken
  | introduced id, .writePeerMessage _ _, ok => if ok then answered id else aborted
  | started peer, .send _, _ => announced peer
  | _, .send _, _ => posted
  | _, .spawn id stream, channel => started ⟨id, stream, channel⟩
  | _, .drop _, _ => dropped
  | s, _, _ => s

/-- The calls a round on an event may make at a stage. -/
def SeedNode.Allows (self : SeedNode) (ev : Event) (s : Stage) : Call → Prop
  | .connect addr => s = .start ∧ ev = .peer (.connect addr)
  | .readPeerMessage stream => s = .start ∧ ev = .peer (.connected stream)
  | .localAddr stream =>
      ∃ id, s = .introduced id ∧ ev = .peer (.connected stream) ∧ id ∉ self.peers
  | .writePeerMessage stream msg => msg = .hello ⟨self.id⟩ ∧
      ((s = .dialed stream ∧ ∃ addr, ev = .peer (.connect addr)) ∨
        ∃ id, s = .introduced id ∧ ev = .peer (.connected stream) ∧ id ∉ self.peers)
  | .send ev' =>
      (∃ stream, s = .greeted stream ∧ ev' = .peer (.connected stream)) ∨
        ∃ peer addr, s = .started peer ∧ ev' = .peer (.addedToAddressBook addr)
  | .spawn id stream => s = .answered id ∧ ev = .peer (.connected stream) ∧ id ∉ self.peers
  | .drop peer => (s = .start ∧ ∃ id, ev = .peer (.disconnect id) ∧
      self.peers.lookup id = some peer) ∨ ((s = .start ∨ s = .dropped) ∧ ev = .terminate)
  | .tryClone _ stream => (s = .start ∨ ∃ id, s = .answered id) ∧ ev = .peer (.connected stream)
  | .trySend _ _ ev' => s = .start ∧ ev' = ev
  | .subscriptionOrder | .eventIdOrder | .peerOrder => s = .start

/-- The peers after a round that returns at a stage. -/
def SeedNode.Leaves (self : SeedNode) (ev : Event) (s : Stage) (peers : HashMap ID RemotePeer) :
    Prop :=
  match s with
  | .start => peers = self.peers ∧ (∀ stream, ev ≠ .peer (.connected stream)) ∧
      (∀ addr, ev ≠ .peer (.connect addr)) ∧
      ∀ id, ev = .peer (.disconnect id) → id ∉ self.peers
  | .posted | .aborted => peers = self.peers
  | .introduced id => peers = self.peers ∧ id ∈ self.peers
  | .announced peer => peers = self.peers.insert peer.id peer
  | .dropped => ∃ id, ev = .peer (.disconnect id) ∧ peers = self.peers.erase id
  | .dialed _ | .greeted _ | .answered _ | .started _ | .broken => False

/-- What a round comes back with. -/
def SeedNode.Returns (self : SeedNode) (ev : Event) (s : Stage) : Turn → Prop
  | .next node => ev ≠ .terminate ∧ node.id = self.id ∧ self.Leaves ev s node.peers
  | .done node => ev = .terminate ∧
      ∀ id peer, node.peers.lookup id = some peer → self.peers.lookup id = some peer

/-- The contract of a round. -/
def SeedNode.handling (self : SeedNode) (ev : Event) : Contract Call Call.Answer Turn Stage :=
  ⟨self.Allows ev, Stage.next, self.Returns ev⟩

/-- Only starting a remote peer comes to `started`, and only a send goes
on from there. -/
theorem Stage.next_started {s : Stage} {c : Call} {r : c.Answer} {peer : RemotePeer}
    (hc : ∀ id stream, c ≠ .spawn id stream)
    (h : s.next c r = .started peer ∨ s.next c r = .announced peer) :
    s = .started peer ∨ s = .announced peer := by
  unfold Stage.next at h
  split at h <;> try split at h
  all_goals simp_all

/-! ## The contract is kept -/

/-- The part of a round before anything can be seen of it. -/
def SeedNode.opening (self : SeedNode) (ev : Event) (α : Type) :
    Contract Call Call.Answer α Stage :=
  ⟨self.Allows ev, Stage.next, fun s _ => s = .start⟩

section

variable (self : SeedNode) (ev : Event)

theorem clone_opening (site : CloneSite) :
    (ev.clone site).Follows (self.opening ev Unit) .start := by
  unfold Event.clone
  split
  · rw [tryClone_bind]
    refine ⟨⟨.inl rfl, rfl⟩, fun ok => ?_⟩
    cases ok
    · trivial
    · exact rfl
  · exact rfl

theorem notifyAll_opening (subs : HashMap SubscriptionID Notify) :
    ∀ ids : List SubscriptionID,
    (notifyAll ev subs ids).Follows (self.opening ev (Except SubscriptionError Unit)) .start
  | [] => rfl
  | id :: ids => by
      rw [notifyAll]
      cases subs.lookup id with
      | none => exact notifyAll_opening subs ids
      | some notify =>
          refine (clone_opening self ev _).bind (fun _ _ h => h) rfl fun s _ hs => ?_
          subst hs
          rw [trySend_bind]
          refine ⟨⟨rfl, rfl⟩, fun channel => ?_⟩
          cases channel with
          | vacant => exact notifyAll_opening subs ids
          | full | disconnected => exact rfl

theorem publishEvent_opening :
    (self.publishEvent ev).Follows (self.opening ev Unit) .start := by
  have hpublish : (self.subscriptions.publish ev).Follows
      (self.opening ev (Except SubscriptionError Unit)) .start := by
    unfold Subscriptions.publish
    split
    · exact rfl
    · split
      · exact rfl
      · rw [subscriptionOrder_bind]
        exact ⟨rfl, fun it => notifyAll_opening self ev _ _⟩
  refine (clone_opening self ev _).bind (fun _ _ h => h) rfl fun s _ hs => ?_
  subst hs
  refine hpublish.bind (fun _ _ h => h) rfl fun s r hs => ?_
  subst hs
  split <;> trivial

end

/-- The peers that a handler of peer events leaves. -/
def SeedNode.leaving (self : SeedNode) (ev : Event) : Contract Call Call.Answer SeedNode Stage :=
  ⟨self.Allows ev, Stage.next, fun s node => node.id = self.id ∧ self.Leaves ev s node.peers⟩

theorem tryAddPeer_leaving (self : SeedNode) (stream : TcpStream) (hello : PeerHello) :
    (self.tryAddPeer stream hello).Follows (self.leaving (.peer (.connected stream)))
      (.introduced hello.id) := by
  unfold SeedNode.tryAddPeer
  split
  · next hid => exact ⟨rfl, rfl, hid⟩
  · next hid =>
      simp [SeedNode.leaving, SeedNode.Allows, SeedNode.Leaves, Stage.next, Option.forall, hid]

theorem handlePeerEvent_leaving (self : SeedNode) (pe : PeerEvent) :
    (self.handlePeerEvent pe).Follows (self.leaving (.peer pe)) .start := by
  cases pe with
  | connected stream =>
      simp only [SeedNode.handlePeerEvent, SeedNode.peerConnected, SeedNode.readPeerHello,
        tryClone_bind, orFail_bind, readPeerMessage_bind, follows_call, Bool.forall_bool]
      refine ⟨⟨.inl rfl, rfl⟩, trivial, ⟨rfl, rfl⟩, fun r => ?_⟩
      cases r with
      | none => exact ⟨rfl, rfl⟩
      | some msg =>
          cases msg with
          | hello hello => exact tryAddPeer_leaving self stream hello
          | addressBookRequest => exact ⟨rfl, rfl⟩
          | addressBook book => exact ⟨rfl, rfl⟩
  | connect addr =>
      simp [SeedNode.handlePeerEvent, SeedNode.connectToPeer, SeedNode.leaving, SeedNode.Allows,
        SeedNode.Leaves, Stage.next, Option.forall]
  | disconnect id =>
      simp only [SeedNode.handlePeerEvent, SeedNode.disconnectPeer]
      split
      · next hl =>
          refine ⟨rfl, rfl, by simp, by simp, fun id' hid' => ?_⟩
          obtain rfl := PeerEvent.disconnect.inj (Event.peer.inj hid')
          exact Finmap.lookup_eq_none.mp hl
      · next peer hl =>
          rw [drop_bind]
          exact ⟨.inl ⟨rfl, id, rfl, hl⟩, fun _ => ⟨rfl, id, rfl, rfl⟩⟩
  | addedToAddressBook _ | receivedMessage _ _ | sendMessage _ _ =>
      exact ⟨rfl, rfl, by simp, by simp, by simp⟩

/-- Terminating, a node that drops its peers. -/
def SeedNode.shrinking (self : SeedNode) : Contract Call Call.Answer SeedNode Stage :=
  ⟨self.Allows .terminate, Stage.next, fun _ node =>
    ∀ id peer, node.peers.lookup id = some peer → self.peers.lookup id = some peer⟩

theorem disconnectAllPeers_shrinking (self : SeedNode) :
    self.disconnectAllPeers.Follows self.shrinking .start := by
  refine ⟨rfl, fun it => follows_disconnectEach (I := fun s node => (s = .start ∨ s = .dropped) ∧
    ∀ id peer, node.peers.lookup id = some peer → self.peers.lookup id = some peer)
    (fun h => h.2) ?_ _ ⟨.inl rfl, fun _ _ hl => hl⟩⟩
  rintro s node id peer ⟨hs, h⟩ -
  refine ⟨.inr ⟨hs, rfl⟩, .inr rfl, fun id' peer' hl => h id' peer' ?_⟩
  by_cases hid : id' = id
  · subst hid; simp at hl
  · rwa [Finmap.lookup_erase_ne hid] at hl

theorem handlePubsubEvent_follows (self : SeedNode) (req : PubSubRequest) :
    (self.handlePubsubEvent req).Follows
      (⟨self.Allows (.pubSub req), Stage.next,
        fun s node => s = .start ∧ node.id = self.id ∧ node.peers = self.peers⟩ :
        Contract _ _ SeedNode Stage) .start :=
  follows_handlePubsubEvent (fun _ _ => ⟨rfl, fun _ _ => ⟨rfl, rfl, rfl⟩⟩)
    fun _ _ => ⟨rfl, fun _ => ⟨rfl, fun _ _ => ⟨rfl, rfl, rfl⟩⟩⟩

/-- **The stages of a round.** From its start on, a round makes the calls
allowed at the stage it has come to, and leaves what that stage says. -/
theorem turn_follows (self : SeedNode) (ev : Event) :
    (self.turn ev).Follows (self.handling ev) .start := by
  refine (clone_opening self ev .run).bind (fun _ _ h => h) rfl fun s _ hs => ?_
  subst hs
  refine (publishEvent_opening self ev).bind (fun _ _ h => h) rfl fun s _ hs => ?_
  subst hs
  cases ev with
  | peer pe =>
      refine (handlePeerEvent_leaving self pe).bind (fun _ _ h => h) rfl fun s node h => ?_
      exact ⟨by simp, h⟩
  | pubSub req =>
      refine (handlePubsubEvent_follows self req).bind (fun _ _ h => h) rfl fun s node h => ?_
      obtain ⟨rfl, hid, hpeers⟩ := h
      exact ⟨by simp, hid, hpeers, by simp, by simp, by simp⟩
  | terminate =>
      exact (disconnectAllPeers_shrinking self).bind (fun _ _ h => h) rfl fun _ _ h => ⟨rfl, h⟩

end Reactor.Sn
