import Reactor.Program
import Reactor.SnPubSub

/-!
# The seed node: the event loop

`SeedNode::run` and its handlers, as programs over the calls they make:
network calls, sends on channels, the two threads a `RemotePeer` starts,
and the orders in which hash maps are iterated. Every clone of a stream is
a call of its own, since every one of them can fail, and named after the
place it is made from: a failing clone is a panic in `PeerEvent::clone`,
an error passed up by `peer_connected` and `try_add_peer`, and only an
error message when it is made for a new `RemotePeer`.

`turn` is one round of the loop: publish, then handle.
-/

namespace Reactor.Sn

/-! ## State -/

/-- A registered peer. `senderChannel` names the channel to its sending
thread, which is new for every `RemotePeer` and so tells any two apart. -/
structure RemotePeer where
  id : ID
  stream : TcpStream
  senderChannel : Nat
deriving DecidableEq, Repr

/-- What the event loop owns. `id` is the one of the node's config. -/
structure SeedNode where
  id : ID
  peers : HashMap ID RemotePeer
  addrBook : AddressBook
  subscriptions : Subscriptions

def SeedNode.new (id : ID) : SeedNode := ⟨id, ∅, .new, .new⟩

/-! ## Calls -/

/-- Where a stream is cloned: in `run`, in `publish_event`, for each
subscriber in `publish`, in `peer_connected`, in `try_add_peer`, and for
the two threads of a `RemotePeer`. -/
inductive CloneSite
  | run
  | publishEvent
  | publish (id : SubscriptionID)
  | peerConnected
  | tryAddPeer
  | sendStream
  | receiveStream
deriving DecidableEq, Repr

inductive Call
  | tryClone (site : CloneSite) (stream : TcpStream)
  | connect (addr : String)
  | localAddr (stream : TcpStream)
  | readPeerMessage (stream : TcpStream)
  | writePeerMessage (stream : TcpStream) (msg : PeerMessage)
  /-- A send on behalf of a subscription, on its notify channel. -/
  | trySend (id : SubscriptionID) (notify : Notify) (ev : Event)
  /-- A send on the node's own channel. -/
  | send (ev : Event)
  /-- A new channel, and the two threads of the remote peer it belongs to. -/
  | spawn (id : ID) (stream : TcpStream)
  /-- Drops a remote peer, and with it the sending end of its channel. -/
  | drop (peer : RemotePeer)
  | subscriptionOrder
  | eventIdOrder
  | peerOrder

/-- What a call comes back with; of an I/O error only that it occurred.
The node's own channel has no other receiver than the loop, so a `send`
does not fail. -/
@[reducible] def Call.Answer : Call → Type
  | .tryClone _ _ => Bool
  | .connect _ => Option TcpStream
  | .localAddr _ => Option SocketAddr
  | .readPeerMessage _ => Option PeerMessage
  | .writePeerMessage _ _ => Bool
  | .trySend _ _ _ => Channel
  | .send _ => Unit
  | .spawn _ _ => Nat
  | .drop _ => Unit
  | .subscriptionOrder => Iter SubscriptionID
  | .eventIdOrder => SubscriptionID → Iter EventID
  | .peerOrder => Iter ID

/-- What ends the loop before its time: an `Err` returned by `run`, or a
panic. -/
inductive Failure
  | io
  | subscription (e : SubscriptionError)
  | panic
deriving DecidableEq

abbrev Prog (α : Type) := Program Call Call.Answer Failure α

/-- How the environment answers each call. -/
abbrev Io := ∀ call : Call, call.Answer

open Program (stop)

/-! The calls one by one, each with the rule that makes it the root of the
program it starts. -/

section Calls

variable {α : Type}

def tryClone (site : CloneSite) (stream : TcpStream) : Prog Bool :=
  .call (.tryClone site stream) .ret

def connect (addr : String) : Prog (Option TcpStream) := .call (.connect addr) .ret

def localAddr (stream : TcpStream) : Prog (Option SocketAddr) := .call (.localAddr stream) .ret

def readPeerMessage (stream : TcpStream) : Prog (Option PeerMessage) :=
  .call (.readPeerMessage stream) .ret

def writePeerMessage (stream : TcpStream) (msg : PeerMessage) : Prog Bool :=
  .call (.writePeerMessage stream msg) .ret

def trySend (id : SubscriptionID) (notify : Notify) (ev : Event) : Prog Channel :=
  .call (.trySend id notify ev) .ret

def send (ev : Event) : Prog Unit := .call (.send ev) .ret

def spawn (id : ID) (stream : TcpStream) : Prog Nat := .call (.spawn id stream) .ret

def drop (peer : RemotePeer) : Prog Unit := .call (.drop peer) .ret

def subscriptionOrder : Prog (Iter SubscriptionID) := .call .subscriptionOrder .ret

def eventIdOrder : Prog (SubscriptionID → Iter EventID) := .call .eventIdOrder .ret

def peerOrder : Prog (Iter ID) := .call .peerOrder .ret

@[simp] theorem tryClone_bind (site : CloneSite) (stream : TcpStream) (f : Bool → Prog α) :
    tryClone site stream >>= f = .call (.tryClone site stream) f := rfl

@[simp] theorem connect_bind (addr : String) (f : Option TcpStream → Prog α) :
    connect addr >>= f = .call (.connect addr) f := rfl

@[simp] theorem localAddr_bind (stream : TcpStream) (f : Option SocketAddr → Prog α) :
    localAddr stream >>= f = .call (.localAddr stream) f := rfl

@[simp] theorem readPeerMessage_bind (stream : TcpStream) (f : Option PeerMessage → Prog α) :
    readPeerMessage stream >>= f = .call (.readPeerMessage stream) f := rfl

@[simp] theorem writePeerMessage_bind (stream : TcpStream) (msg : PeerMessage)
    (f : Bool → Prog α) :
    writePeerMessage stream msg >>= f = .call (.writePeerMessage stream msg) f := rfl

@[simp] theorem trySend_bind (id : SubscriptionID) (notify : Notify) (ev : Event)
    (f : Channel → Prog α) :
    trySend id notify ev >>= f = .call (.trySend id notify ev) f := rfl

@[simp] theorem send_bind (ev : Event) (f : Unit → Prog α) :
    send ev >>= f = .call (.send ev) f := rfl

@[simp] theorem spawn_bind (id : ID) (stream : TcpStream) (f : Nat → Prog α) :
    spawn id stream >>= f = .call (.spawn id stream) f := rfl

@[simp] theorem drop_bind (peer : RemotePeer) (f : Unit → Prog α) :
    drop peer >>= f = .call (.drop peer) f := rfl

@[simp] theorem subscriptionOrder_bind (f : Iter SubscriptionID → Prog α) :
    subscriptionOrder >>= f = .call .subscriptionOrder f := rfl

@[simp] theorem eventIdOrder_bind (f : (SubscriptionID → Iter EventID) → Prog α) :
    eventIdOrder >>= f = .call .eventIdOrder f := rfl

@[simp] theorem peerOrder_bind (f : Iter ID → Prog α) :
    peerOrder >>= f = .call .peerOrder f := rfl

end Calls

/-- An environment in which every call succeeds, no peer says anything,
and maps are iterated in increasing order. -/
def Io.calm : Io
  | .tryClone _ _ => true
  | .connect _ => some ⟨0, .dialer⟩
  | .localAddr _ => some ⟨.localhost, 0⟩
  | .readPeerMessage _ => none
  | .writePeerMessage _ _ => true
  | .trySend _ _ _ => .vacant
  | .send _ => ()
  | .spawn _ _ => 0
  | .drop _ => ()
  | .subscriptionOrder => .sorted _
  | .eventIdOrder => fun _ => .sorted _
  | .peerOrder => .sorted _

/-- The `?` operator on the result of an I/O call. -/
def orFail : Bool → Prog Unit
  | true => pure ()
  | false => stop .io

@[simp] theorem orFail_bind {α : Type} (ok : Bool) (f : Unit → Prog α) :
    orFail ok >>= f = if ok then f () else stop .io := by
  cases ok <;> rfl

/-- An `unwrap`. -/
def unwrap {α : Type} : Option α → Prog α
  | some a => pure a
  | none => stop .panic

@[simp] theorem unwrap_bind {α β : Type} (o : Option α) (f : α → Prog β) :
    unwrap o >>= f = o.elim (stop .panic) f := by
  cases o <;> rfl

/-- `Clone for Event`. Only a stream is cloned by a call. -/
def Event.clone (site : CloneSite) : Event → Prog Unit
  | .peer (.connected stream) => do
      if ← tryClone site stream then pure () else stop .panic
  | _ => pure ()

/-! ## Publishing -/

/-- The loop of `publish`, over the ids in the order they come up. -/
def notifyAll (ev : Event) (subsForEvid : HashMap SubscriptionID Notify) :
    List SubscriptionID → Prog (Except SubscriptionError Unit)
  | [] => pure (.ok ())
  | id :: ids =>
      match subsForEvid.lookup id with
      | none => notifyAll ev subsForEvid ids
      | some notify => do
          ev.clone (.publish id)
          match (← trySend id notify ev).trySend ev with
          | .ok () => notifyAll ev subsForEvid ids
          | .error e => pure (.error (.channelSendFailed e))

/-- Attempts to publish the event to all its subscribers. -/
def Subscriptions.publish (self : Subscriptions) (ev : Event) :
    Prog (Except SubscriptionError Unit) :=
  match ev.id with
  | none => pure (.error .noEventIDForEvent)
  | some eventId =>
      match self.byEventId.lookup eventId with
      | none => pure (.ok ())
      | some subsForEvid => do
          let it ← subscriptionOrder
          notifyAll ev subsForEvid (it.order subsForEvid.keys)

/-! ## Remote peers -/

/-- Starts the two threads of a new remote peer, unless a clone of the
stream fails. -/
def RemotePeer.new (id : ID) (stream : TcpStream) : Prog (Option RemotePeer) := do
  if ← tryClone .sendStream stream then
    if ← tryClone .receiveStream stream then
      let channel ← spawn id stream
      pure (some ⟨id, stream, channel⟩)
    else
      pure none
  else
    pure none

@[simp] theorem RemotePeer.new_bind {α : Type} (id : ID) (stream : TcpStream)
    (f : Option RemotePeer → Prog α) :
    RemotePeer.new id stream >>= f =
      .call (.tryClone .sendStream stream) fun ok =>
        if ok then
          .call (.tryClone .receiveStream stream) fun ok =>
            if ok then .call (.spawn id stream) fun channel => f (some ⟨id, stream, channel⟩)
            else f none
        else f none := by
  simp only [RemotePeer.new, tryClone_bind, spawn_bind, Program.call_bind]
  congr 1; funext ok
  cases ok
  · rfl
  simp only [if_true, Program.call_bind]
  congr 1; funext ok
  cases ok <;> rfl

/-! ## Handlers -/

namespace SeedNode

def publishEvent (self : SeedNode) (ev : Event) : Prog Unit := do
  ev.clone .publishEvent
  match ← self.subscriptions.publish ev with
  | .ok () => pure ()
  | .error .noEventIDForEvent => pure ()
  | .error e => stop (.subscription e)

def sayHelloToPeer (self : SeedNode) (stream : TcpStream) : Prog Unit := do
  orFail (← writePeerMessage stream (.hello ⟨self.id⟩))

@[simp] theorem sayHelloToPeer_bind {α : Type} (self : SeedNode) (stream : TcpStream)
    (f : Unit → Prog α) :
    self.sayHelloToPeer stream >>= f =
      .call (.writePeerMessage stream (.hello ⟨self.id⟩)) fun ok =>
        if ok then f () else stop .io := by
  simp only [sayHelloToPeer, writePeerMessage_bind, Program.call_bind]
  congr 1; funext ok
  cases ok <;> rfl

/-- Registers the peer that introduced itself on the stream, and answers
its hello, unless its id is registered already. -/
def tryAddPeer (self : SeedNode) (stream : TcpStream) (hello : PeerHello) : Prog SeedNode :=
  if hello.id ∈ self.peers then
    pure self
  else do
    match ← localAddr stream with
    | none => pure self
    | some peerSockaddr => do
        let peerAddr : PeerAddr := ⟨hello.id, peerSockaddr.ip, peerSockaddr.port⟩
        self.sayHelloToPeer stream
        orFail (← tryClone .tryAddPeer stream)
        match ← RemotePeer.new hello.id stream with
        | none => pure self
        | some remotePeer => do
            send (.peer (.addedToAddressBook peerAddr))
            pure { self with
              peers := self.peers.insert hello.id remotePeer
              addrBook := ⟨self.addrBook.addrs ++ [peerAddr]⟩ }

/-- Blocks until the peer introduces itself. -/
def readPeerHello (self : SeedNode) (stream : TcpStream) : Prog SeedNode := do
  match ← readPeerMessage stream with
  | some (.hello hello) => self.tryAddPeer stream hello
  | _ => pure self

def peerConnected (self : SeedNode) (stream : TcpStream) : Prog SeedNode := do
  orFail (← tryClone .peerConnected stream)
  self.readPeerHello stream

/-- Dials, says hello, and leaves the rest to the `Connected` event. -/
def connectToPeer (self : SeedNode) (addr : String) : Prog SeedNode := do
  match ← connect addr with
  | none => stop .io
  | some stream => do
      self.sayHelloToPeer stream
      send (.peer (.connected stream))
      pure self

def disconnectPeer (self : SeedNode) (id : ID) : Prog SeedNode :=
  match self.peers.lookup id with
  | none => pure self
  | some peer => do
      drop peer
      pure { self with peers := self.peers.erase id }

/-- The loop of `disconnect_all_peers`. -/
def disconnectEach (self : SeedNode) : List ID → Prog SeedNode
  | [] => pure self
  | id :: ids => do
      let self ← self.disconnectPeer id
      self.disconnectEach ids

def disconnectAllPeers (self : SeedNode) : Prog SeedNode := do
  let it ← peerOrder
  self.disconnectEach (it.order self.peers.keys)

def handlePeerEvent (self : SeedNode) : PeerEvent → Prog SeedNode
  | .connected stream => self.peerConnected stream
  | .connect addr => self.connectToPeer addr
  | .disconnect id => self.disconnectPeer id
  | .addedToAddressBook _ | .receivedMessage _ _ | .sendMessage _ _ => pure self

/-- A refused subscription is only logged. -/
def handleSubscribe (self : SeedNode) (subs : Subscription) : Prog SeedNode := do
  let keys ← eventIdOrder
  let (_, subscriptions) ← unwrap (self.subscriptions.add (keys subs.id) subs)
  pure { self with subscriptions }

def handleUnsubscribe (self : SeedNode) (ids : Finset SubscriptionID) : Prog SeedNode := do
  let it ← subscriptionOrder
  let keys ← eventIdOrder
  let subscriptions ← unwrap (self.subscriptions.removeAll it keys ids)
  pure { self with subscriptions }

def handlePubsubEvent (self : SeedNode) : PubSubRequest → Prog SeedNode
  | .subscribe subs => self.handleSubscribe subs
  | .unsubscribe ids => self.handleUnsubscribe ids

end SeedNode

/-! ## The loop -/

/-- What a round of the loop leaves behind: the node waiting for the next
event, or the node as `run` returns. -/
inductive Turn
  | next (node : SeedNode)
  | done (node : SeedNode)

/-- What `run` does with an event once it is published. -/
def SeedNode.handleEvent (self : SeedNode) : Event → Prog Turn
  | .peer pe => do pure (.next (← self.handlePeerEvent pe))
  | .pubSub req => do pure (.next (← self.handlePubsubEvent req))
  | .terminate => do pure (.done (← self.disconnectAllPeers))

/-- One round of `run`. -/
def SeedNode.turn (self : SeedNode) (ev : Event) : Prog Turn := do
  ev.clone .run
  self.publishEvent ev
  self.handleEvent ev

/-! ## Contracts -/

section

variable {σ : Type} {C : Program.Contract Call Call.Answer SeedNode σ}

/-- Peers are dropped one by one, and `I` holds before each. -/
theorem follows_disconnectEach {I : σ → SeedNode → Prop}
    (hreturns : ∀ {s node}, I s node → C.returns s node)
    (hdrop : ∀ {s node id peer}, I s node → node.peers.lookup id = some peer →
      C.allows s (.drop peer) ∧
        I (C.next s (.drop peer) ()) { node with peers := node.peers.erase id })
    (ids : List ID) {s : σ} {node : SeedNode} (h : I s node) :
    (node.disconnectEach ids).Follows C s := by
  induction ids generalizing s node with
  | nil => exact hreturns h
  | cons id ids ih =>
      simp only [SeedNode.disconnectEach, SeedNode.disconnectPeer]
      split
      · exact ih h
      · next peer hl =>
          obtain ⟨hallows, hnext⟩ := hdrop h hl
          exact ⟨hallows, fun _ => ih hnext⟩

theorem follows_handlePubsubEvent {s : σ} {self : SeedNode} {req : PubSubRequest}
    (hsubscribe : ∀ subs, req = .subscribe subs → C.allows s .eventIdOrder ∧
      ∀ keys table,
        C.returns (C.next s .eventIdOrder keys) { self with subscriptions := table })
    (hunsubscribe : ∀ ids, req = .unsubscribe ids → C.allows s .subscriptionOrder ∧
      ∀ it, C.allows (C.next s .subscriptionOrder it) .eventIdOrder ∧
        ∀ keys table, C.returns (C.next (C.next s .subscriptionOrder it) .eventIdOrder keys)
          { self with subscriptions := table }) :
    (self.handlePubsubEvent req).Follows C s := by
  cases req with
  | subscribe subs =>
      obtain ⟨hallows, hreturns⟩ := hsubscribe subs rfl
      simp only [SeedNode.handlePubsubEvent, SeedNode.handleSubscribe, eventIdOrder_bind,
        unwrap_bind]
      refine ⟨hallows, fun keys => ?_⟩
      beta_reduce
      cases self.subscriptions.add (keys subs.id) subs with
      | none => trivial
      | some r => exact hreturns keys r.2
  | unsubscribe ids =>
      obtain ⟨hallows, hkeys⟩ := hunsubscribe ids rfl
      simp only [SeedNode.handlePubsubEvent, SeedNode.handleUnsubscribe, eventIdOrder_bind,
        subscriptionOrder_bind, unwrap_bind]
      refine ⟨hallows, fun it => ⟨(hkeys it).1, fun keys => ?_⟩⟩
      beta_reduce
      cases self.subscriptions.removeAll it keys ids with
      | none => trivial
      | some table => exact (hkeys it).2 keys table

end

end Reactor.Sn
