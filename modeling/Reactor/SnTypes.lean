import Mathlib.Data.String.Basic
import Reactor.Rust

/-!
# The seed node: data

The single-threaded, blocking implementation. One event loop owns
everything a node knows; the listener thread and two threads for each
remote peer only feed its channel. This file holds the data those parts
exchange: the types and messages of the network, and the events of a node
with the subscriptions to them.
-/

namespace Reactor.Sn

/-! ## Types and messages -/

/-- A node's hex-encoded cryptographic address. -/
abbrev ID := String

/-- The message that introduces a peer. -/
structure PeerHello where
  id : ID
deriving DecidableEq, Repr

/-- The address of a peer in the network. -/
structure PeerAddr where
  id : ID
  ip : IpAddr
  port : UInt16
deriving DecidableEq, Repr

/-- Addresses in the order they were added, repetitions included. -/
structure AddressBook where
  addrs : List PeerAddr
deriving DecidableEq, Repr

def AddressBook.new : AddressBook := ⟨[]⟩

/-- A message from one peer to another. -/
inductive PeerMessage
  | hello (hello : PeerHello)
  | addressBookRequest
  | addressBook (book : AddressBook)
deriving DecidableEq, Repr

/-! ## Handles -/

/-- The two ends of a connection: the one that dialed it and the one a
listener accepted. -/
inductive Side
  | dialer
  | listener
deriving DecidableEq, Repr

/-- One end of a TCP connection. Clones of a stream are the same end. -/
structure TcpStream where
  conn : Nat
  side : Side
deriving DecidableEq, Repr

def Side.other : Side → Side
  | .dialer => .listener
  | .listener => .dialer

/-- The other end of the same connection. -/
def TcpStream.other (e : TcpStream) : TcpStream := ⟨e.conn, e.side.other⟩

@[simp] theorem TcpStream.other_conn (e : TcpStream) : e.other.conn = e.conn := rfl

@[simp] theorem TcpStream.other_dialer (c : Nat) :
    TcpStream.other ⟨c, .dialer⟩ = ⟨c, .listener⟩ := rfl

@[simp] theorem TcpStream.other_listener (c : Nat) :
    TcpStream.other ⟨c, .listener⟩ = ⟨c, .dialer⟩ := rfl

@[simp] theorem TcpStream.other_other (e : TcpStream) : e.other.other = e := by
  obtain ⟨c, side⟩ := e
  cases side <;> rfl

/-- The sending end of a channel on which a subscriber is notified. -/
abbrev Notify := Nat

/-- Handed out from a global counter of 64 bits. -/
structure SubscriptionID where
  val : UInt64
deriving DecidableEq, Repr

/-- In the order they were handed out. -/
instance : LinearOrder SubscriptionID :=
  .lift' (fun id => id.val.toNat) fun a b h => by
    cases a; cases b; exact congrArg _ (UInt64.toNat_inj.mp h)

/-! ## Events -/

/-- The events to which one can subscribe. -/
inductive EventID
  | peerConnected
  | peerConnect
  | peerAddedToAddressBook
  | peerReceivedMessage
  | peerSendMessage
  | peerDisconnect
  | terminate
deriving DecidableEq, Repr

/-- In the order of their declaration. -/
instance : LinearOrder EventID :=
  .lift' EventID.ctorIdx fun a b h => by cases a <;> cases b <;> first | rfl | cases h

/-- A subscription to a set of event ids. -/
structure Subscription where
  id : SubscriptionID
  eventIds : Finset EventID
  notify : Notify
deriving DecidableEq

inductive PubSubRequest
  | subscribe (subs : Subscription)
  | unsubscribe (ids : Finset SubscriptionID)
deriving DecidableEq

/-- Events related to a specific peer. -/
inductive PeerEvent
  | connected (stream : TcpStream)
  | connect (addr : String)
  | addedToAddressBook (addr : PeerAddr)
  | receivedMessage (id : ID) (msg : PeerMessage)
  | sendMessage (id : ID) (msg : PeerMessage)
  | disconnect (id : ID)
deriving DecidableEq

/-- The core event model for the whole system. -/
inductive Event
  | peer (pe : PeerEvent)
  | pubSub (req : PubSubRequest)
  | terminate
deriving DecidableEq

def PeerEvent.id : PeerEvent → Option EventID
  | .connected _ => some .peerConnected
  | .connect _ => some .peerConnect
  | .addedToAddressBook _ => some .peerAddedToAddressBook
  | .receivedMessage _ _ => some .peerReceivedMessage
  | .sendMessage _ _ => some .peerSendMessage
  | .disconnect _ => some .peerDisconnect

/-- The id of an event, if one can subscribe to it: subscribing to
subscription events is not possible. -/
def Event.id : Event → Option EventID
  | .peer e => e.id
  | .pubSub _ => none
  | .terminate => some .terminate

end Reactor.Sn
