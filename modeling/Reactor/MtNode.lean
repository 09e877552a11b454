import Reactor.Rust

/-!
# The loops of the multithreaded node

One node is two event loops: the *dispatcher*, which owns the map of
connected peers and spawns the tasks that own the connections, and
*tendermint*, which owns the address book. This file is what each loop
does with one message, as a function of the loop's own state: the state
after it and what it hands to others. Queues, tasks and interleavings are
`MtSystem`'s.

A framed connection is moved from owner to owner and never copied, so it
is known by its number. The sender half of a per-peer command channel is
created together with the task that holds the receiver half and the
connection, so it goes by the connection's number too.
-/

namespace Reactor

namespace Mt

/-! ## Messages -/

structure PeerId where
  id : String
deriving DecidableEq, Repr

/-- The address of a peer in the network. -/
structure Entry where
  id : PeerId
  ip : IpAddr
  port : UInt16
deriving DecidableEq, Repr

/-- A connection with its length-delimited JSON framing. -/
abbrev MessageFramed := Nat

inductive PeerMessage
  | hello (id : PeerId)
  | addressBookRequest (id : PeerId)
  | addressBookResponse (peers : Finset PeerId)
deriving DecidableEq

/-- The dispatcher's inbox. The one sender of the confirmation channel
travels inside `exit`: whoever drops the message drops the sender. -/
inductive DispatcherMsg
  | toPeer (peerId : PeerId) (msg : PeerMessage)
  | peerHandshake (encoder : MessageFramed) (myId : PeerId)
  | handshakeCompleted (encoder : MessageFramed) (peerId : PeerId)
  | peerDisconnected (peerId : PeerId)
  | exit
deriving DecidableEq

/-- Tendermint's inbox. -/
inductive FromDispatcherMsg
  | fromPeer (msg : PeerMessage)
  | peerConnected (peerId : PeerId)
  | peerDisconnected (peerId : PeerId)
deriving DecidableEq

/-! ## The dispatcher -/

structure Dispatcher where
  connectedPeers : HashMap PeerId MessageFramed

/-- What the dispatcher hands to others while it handles a message. -/
inductive Effect
  | spawnHandshake (encoder : MessageFramed) (myId : PeerId)
  | sendToPeer (encoder : MessageFramed) (msg : PeerMessage)
  | toTendermint (msg : FromDispatcherMsg)
  | spawnPeerTask (encoder : MessageFramed) (peerId : PeerId)
deriving DecidableEq

/-- How one turn of a loop ends. -/
inductive Turn
  | next (d : Dispatcher) (effects : List Effect)
  | exit
  | panic

/-- Handle a new peer connected after a successful handshake. An older
sender under the same id is dropped. -/
def Dispatcher.handleNewConnectedPeer (d : Dispatcher)
    (encoder : MessageFramed) (peerId : PeerId) : Dispatcher × List Effect :=
  ({ d with connectedPeers := d.connectedPeers.insert peerId encoder },
    [.toTendermint (.peerConnected peerId), .spawnPeerTask encoder peerId])

/-- One turn of the dispatcher's loop. -/
def Dispatcher.run (d : Dispatcher) : DispatcherMsg → Turn
  | .peerHandshake encoder myId => .next d [.spawnHandshake encoder myId]
  | .toPeer peerId msg =>
      match d.connectedPeers.lookup peerId with
      | none => .panic -- "Attempt to send msg to disconnected peer."
      | some chan => .next d [.sendToPeer chan msg]
  | .peerDisconnected peerId =>
      .next { d with connectedPeers := d.connectedPeers.erase peerId } []
  | .handshakeCompleted encoder peerId =>
      let (d', effects) := d.handleNewConnectedPeer encoder peerId
      .next d' effects
  | .exit => .exit

/-! ## Tendermint -/

structure Tendermint where
  seedNode : PeerId
  addrBook : HashMap PeerId Entry

/-- The turn of the ticker: an address book request to each peer, in the
order the map is iterated in. -/
def Tendermint.tick (it : Iter PeerId) (t : Tendermint) : List DispatcherMsg :=
  (it.order t.addrBook.keys).map fun peerId =>
    .toPeer peerId (.addressBookRequest t.seedNode)

/-- The turn of a message from the dispatcher: the state after it and the
messages sent to the dispatcher. -/
def Tendermint.run (t : Tendermint) :
    FromDispatcherMsg → Tendermint × List DispatcherMsg
  | .fromPeer (.addressBookRequest peerId) =>
      (t, [.toPeer peerId (.addressBookResponse t.addrBook.keys)])
  | .fromPeer (.hello peerId) => (t, [.toPeer peerId (.hello t.seedNode)])
  | .fromPeer (.addressBookResponse _) => (t, [])
  | .peerConnected peerId =>
      let entry : Entry := { id := peerId, ip := .localhost, port := 0 }
      ({ t with addrBook := t.addrBook.insert peerId entry }, [])
  | .peerDisconnected peerId =>
      ({ t with addrBook := t.addrBook.erase peerId },
        [.peerDisconnected peerId])

end Mt

end Reactor
