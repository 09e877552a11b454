import Reactor.Rust

/-!
# The concurrent address book: one node

What an `AddrBook` does when it is started, when its ticker fires and
with each message, as functions of its own state: the state after it and
what it hands to others, in the order it does. Threads, channels and
interleavings are `AbSystem`'s.

A channel of peer messages is read by one party, so a sender is known by
whose channel it feeds. There is one done channel, so that its sender is
a `Unit`.
-/

namespace Reactor.Ab

structure PeerId where
  val : UInt32
deriving DecidableEq, Repr

instance : LinearOrder PeerId :=
  .lift' (fun peerId => peerId.val.toNat) fun a b h => by
    cases a; cases b; exact congrArg _ (UInt32.toNat_inj.mp h)

/-- A `Sender<PeerMsg>`: the seed's or one of the nodes'. -/
inductive Sender (ι : Type)
  | seed
  | node (i : ι)
deriving DecidableEq, Repr

structure PeerInfo (ι : Type) where
  id : PeerId
  sender : Sender ι
deriving DecidableEq, Repr

inductive PeerMsg (ι : Type)
  | request (sender : Sender ι)
  | response (sender : Sender ι)
  | ping (sender : Sender ι)
  | pong (info : PeerInfo ι)
  | exit
deriving DecidableEq, Repr

/-- What `gen_range(1, 10)` can return. -/
abbrev RandomId := { r : UInt32 // 1 ≤ r ∧ r < 10 }

structure AddrBook (ι : Type) where
  peerId : PeerId
  sender : Sender ι
  knownPeers : HashMap PeerId (Sender ι)
  doneSender : Option Unit

/-- What a node hands to others. -/
inductive Effect (ι : Type)
  | send (sender : Sender ι) (msg : PeerMsg ι)
  | done
deriving DecidableEq

/-- How one turn of a node ends: `run` returns true or false. -/
inductive Turn (ι : Type)
  | next (book : AddrBook ι) (effects : List (Effect ι))
  | exit

namespace AddrBook

variable {ι : Type}

def start (peerId : PeerId) (sender : Sender ι) (seedNode : PeerId × Sender ι) :
    AddrBook ι × List (Effect ι) :=
  let knownPeers : HashMap PeerId (Sender ι) := ∅
  ({ peerId
     sender
     knownPeers := knownPeers.insert seedNode.1 seedNode.2
     doneSender := some () },
    [.send seedNode.2 (.request sender)])

/-- A request to each of these that is known. -/
def requests (book : AddrBook ι) (peerIds : List PeerId) : List (Effect ι) :=
  peerIds.filterMap fun peerId =>
    (book.knownPeers.lookup peerId).map fun peerSender =>
      .send peerSender (.request book.sender)

/-- The turn of the ticker: a request to each known peer, in the order the
map is iterated in. -/
def tick (it : Iter PeerId) (book : AddrBook ι) : List (Effect ι) :=
  book.requests (it.order book.knownPeers.keys)

/-- The turn of a message. The random id is drawn for a request only. -/
def receive (rand : RandomId) (book : AddrBook ι) : PeerMsg ι → Turn ι
  | .request responseSender =>
      match book.knownPeers.lookup ⟨rand⟩ with
      | some sender => .next book [.send responseSender (.response sender)]
      | none => .next book []
  | .response sender => .next book [.send sender (.ping book.sender)]
  | .ping sender =>
      let info : PeerInfo ι := { id := book.peerId, sender := book.sender }
      .next book [.send sender (.pong info)]
  | .pong info =>
      let book := { book with knownPeers := book.knownPeers.insert info.id info.sender }
      if book.knownPeers.keys.card = 10 then
        -- send when done, only once
        match book.doneSender with
        | some () => .next { book with doneSender := none } [.done]
        | none => .next book []
      else
        .next book []
  | .exit => .exit

/-- The book after a pong. -/
def learn (book : AddrBook ι) (info : PeerInfo ι) : AddrBook ι :=
  let knownPeers := book.knownPeers.insert info.id info.sender
  { book with
    knownPeers
    doneSender := if knownPeers.keys.card = 10 then none else book.doneSender }

/-- The pong is the one after which the node says it is done. -/
def completes (book : AddrBook ι) (info : PeerInfo ι) : Bool :=
  (book.knownPeers.insert info.id info.sender).keys.card = 10 && book.doneSender.isSome

theorem receive_pong (rand : RandomId) (book : AddrBook ι) (info : PeerInfo ι) :
    book.receive rand (.pong info) =
      .next (book.learn info) (if book.completes info then [.done] else []) := by
  obtain ⟨peerId, sender, knownPeers, doneSender⟩ := book
  by_cases hlen : (knownPeers.insert info.id info.sender).keys.card = 10
  · cases doneSender <;> simp [receive, learn, completes, hlen]
  · simp [receive, learn, completes, hlen]

end AddrBook

end Reactor.Ab
