import Reactor.SnProcess
import Reactor.SnStream

/-!
# The seed node: an incoming connection

One connection from its `Connected` event on: `peer_connected` in the
event loop and, once that has started it, the receiving thread of the new
remote peer. Both read from the same socket, the loop as it is and the
thread through a `BufReader`, and both put events in the node's channel;
between any two calls of the loop the thread may move. The messages of the
frames are never made up here: they are what `read_peer_message` makes of
the bytes that come.

**`incoming_connection`**: when the first frame is the `Hello` of a peer
that is not known and the calls on the stream succeed, the channel gets
one `AddedToAddressBook`, a `ReceivedMessage` for each frame after the
`Hello` up to the first one that does not parse, and then one `Disconnect`
— however the bytes come and the two interleave.
-/

namespace Reactor.Sn

open Program (Contract)
open Proto3 (Bytes)
open Source (left ending)

/-! ## The receiving thread -/

/-- One iteration of `remote_peer_receive_loop`: the events the node gets
of it, the reader after it, and whether another one follows. Nothing gets
into a channel that has been closed. -/
def remotePeerReceiveLoop (libs : Libs) (id : ID) (isOpen : Bool) (reader : BufReader Socket) :
    List Event × BufReader Socket × Bool :=
  match PeerMessageReader.readPeerMessage libs reader with
  | (.ok msg, reader) =>
      if isOpen then ([.peer (.receivedMessage id msg)], reader, true)
      else ([], reader, false)
  | (.error e, reader) =>
      if e.kind = .wouldBlock then ([], reader, true) -- after a pause
      else (if isOpen then [.peer (.disconnect id)] else [], reader, false)

/-- The receiving thread between two iterations. -/
structure Receiver where
  channel : Nat
  id : ID
  buffer : Bytes
  running : Bool

/-! ## The system -/

/-- `rest` is what is left of `peer_connected`, and `queue` what has been
put in the node's channel. -/
structure Admission where
  rest : Prog SeedNode
  socket : Socket
  /-- The `Hello` has been answered. -/
  replied : Bool
  thread : Option Receiver
  queue : List Mail

namespace Admission

/-- The call the loop is about to make. -/
def pending (s : Admission) : Option Call :=
  match s.rest with
  | .call c _ => some c
  | _ => none

def perform (libs : Libs) (s : Admission) (io : Io) : ∀ c : Call, c.Answer × Admission
  | .readPeerMessage _ =>
      let (r, socket) := PeerMessageReader.readPeerMessage libs s.socket
      (r.toOption, { s with socket })
  | .writePeerMessage stream msg =>
      (io (.writePeerMessage stream msg),
        { s with replied := io (.writePeerMessage stream msg) })
  | .spawn id stream =>
      (io (.spawn id stream), { s with thread := some ⟨io (.spawn id stream), id, [], true⟩ })
  | .send ev => ((), { s with queue := s.queue ++ [⟨ev, .node⟩] })
  | c => (io c, s)

/-- One call of the loop. -/
def loop (libs : Libs) (s : Admission) (io : Io) : Option Admission :=
  match s.rest with
  | .call c k =>
      let (r, s) := s.perform libs io c
      some { s with rest := k r }
  | _ => none

/-- One iteration of the thread. -/
def receive (libs : Libs) (s : Admission) (isOpen : Bool) : Option Admission :=
  match s.thread with
  | some t =>
      if t.running then
        let (evs, reader, running) :=
          remotePeerReceiveLoop libs t.id isOpen ⟨t.buffer, s.socket⟩
        some { s with
          socket := reader.inner
          thread := some { t with buffer := reader.buffer, running }
          queue := s.queue ++ evs.map fun ev => ⟨ev, .receiveLoop t.channel⟩ }
      else none
  | none => none

inductive Act
  | loop (io : Io)
  | receive (isOpen : Bool)

def step (libs : Libs) (s : Admission) : Act → Option Admission
  | .loop io => s.loop libs io
  | .receive isOpen => s.receive libs isOpen

/-- What a sender has put in the channel. -/
def sentBy (s : Admission) (sender : Sender) : List Event :=
  (s.queue.filter (·.sender = sender)).map Mail.ev

end Admission

/-- The connection as its `Connected` event is handled. -/
def admission (libs : Libs) (node : SeedNode) (stream : TcpStream) (socket : Socket) :
    System Admission Admission.Act :=
  ⟨⟨node.peerConnected stream, socket, false, none, []⟩, Admission.step libs⟩

/-- A clone has been made, a message written. -/
def Call.Succeeds : ∀ c : Call, c.Answer → Prop
  | .tryClone _ _, ok => ok = true
  | .writePeerMessage _ _, ok => ok = true
  | _, _ => True

instance : ∀ (c : Call) (a : c.Answer), Decidable (c.Succeeds a)
  | .tryClone _ _, ok | .writePeerMessage _ _, ok => inferInstanceAs (Decidable (ok = true))
  | .connect _, _ | .localAddr _, _ | .readPeerMessage _, _ | .trySend _ _ _, _ | .send _, _
  | .spawn _ _, _ | .drop _, _ | .subscriptionOrder, _ | .eventIdOrder, _ | .peerOrder, _ =>
      inferInstanceAs (Decidable True)

theorem Io.calm_succeeds (c : Call) : c.Succeeds (Io.calm c) := by
  cases c <;> trivial

/-- Clones of the stream and the answer to the `Hello` succeed, and the
node's channel is open. -/
def Admission.Succeeds (s : Admission) : Admission.Act → Prop
  | .loop io => ∀ c ∈ s.pending, c.Succeeds (io c)
  | .receive isOpen => isOpen = true

instance (s : Admission) : ∀ a, Decidable (s.Succeeds a)
  | .loop io => inferInstanceAs (Decidable (∀ c ∈ s.pending, c.Succeeds (io c)))
  | .receive isOpen => inferInstanceAs (Decidable (isOpen = true))

/-! ## How far the loop has come -/

/-- What the loop has done for the connection. -/
inductive Entry
  | connected
  | cloned
  | introduced
  | addressed (addr : PeerAddr)
  | replied (addr : PeerAddr) (clones : Nat)
  | spawned (addr : PeerAddr) (channel : Nat)
  | announced (addr : PeerAddr) (channel : Nat)
  | refused

section

variable (stream : TcpStream) (id : ID)

def Entry.Allows : Entry → Call → Prop
  | connected, c => ∃ site, c = .tryClone site stream
  | cloned, c => c = .readPeerMessage stream
  | introduced, c => c = .localAddr stream
  | addressed _, c => ∃ msg, c = .writePeerMessage stream msg
  | replied _ clones, c =>
      (clones < 3 ∧ ∃ site, c = .tryClone site stream) ∨ (clones = 3 ∧ c = .spawn id stream)
  | spawned addr _, c => c = .send (.peer (.addedToAddressBook addr))
  | announced _ _, _ | refused, _ => False

def Entry.next : Entry → ∀ c : Call, c.Answer → Entry
  | connected, .tryClone _ _, _ => cloned
  | cloned, .readPeerMessage _, _ => introduced
  | introduced, .localAddr _, some addr => addressed ⟨id, addr.ip, addr.port⟩
  | introduced, .localAddr _, none => refused
  | addressed addr, .writePeerMessage _ _, _ => replied addr 0
  | replied addr clones, .tryClone _ _, _ => replied addr (clones + 1)
  | replied addr _, .spawn _ _, channel => spawned addr channel
  | spawned addr channel, .send _, _ => announced addr channel
  | e, _, _ => e

/-- What `peer_connected` does when the first frame is the `Hello` of `id`:
it comes to an end with the peer announced, or without having answered. -/
def entering : Contract Call Call.Answer SeedNode Entry :=
  ⟨Entry.Allows stream id, Entry.next id, fun e _ =>
    e = .refused ∨ ∃ addr channel, e = .announced addr channel⟩

/-- The call succeeds, and reads the `Hello`. -/
def Greets : ∀ c : Call, c.Answer → Prop
  | .readPeerMessage _, r => r = some (.hello ⟨id⟩)
  | .tryClone _ _, ok => ok = true
  | .writePeerMessage _ _, ok => ok = true
  | _, _ => True

end

theorem peerConnected_keeps {node : SeedNode} {stream : TcpStream} {id : ID}
    (hid : id ∉ node.peers) :
    (node.peerConnected stream).Keeps (entering stream id) (Greets id) .connected := by
  unfold SeedNode.peerConnected SeedNode.readPeerHello
  rw [tryClone_bind]
  refine ⟨⟨_, rfl⟩, fun ok hok => ?_⟩
  obtain rfl : ok = true := hok
  simp only [orFail_bind, if_true, readPeerMessage_bind]
  refine ⟨rfl, fun r hr => ?_⟩
  obtain rfl : r = some (.hello ⟨id⟩) := hr
  dsimp only
  unfold SeedNode.tryAddPeer
  rw [if_neg hid, localAddr_bind]
  refine ⟨rfl, fun r _ => ?_⟩
  cases r with
  | none => exact .inl rfl
  | some peerSockaddr =>
      dsimp only
      rw [SeedNode.sayHelloToPeer_bind]
      refine ⟨⟨_, rfl⟩, fun ok hok => ?_⟩
      obtain rfl : ok = true := hok
      simp only [if_true, tryClone_bind]
      refine ⟨.inl ⟨by decide, _, rfl⟩, fun ok hok => ?_⟩
      obtain rfl : ok = true := hok
      simp only [orFail_bind, if_true, RemotePeer.new_bind]
      refine ⟨.inl ⟨by decide, _, rfl⟩, fun ok hok => ?_⟩
      obtain rfl : ok = true := hok
      simp only [if_true]
      refine ⟨.inl ⟨by decide, _, rfl⟩, fun ok hok => ?_⟩
      obtain rfl : ok = true := hok
      simp only [if_true]
      refine ⟨.inr ⟨rfl, rfl⟩, fun channel _ => ?_⟩
      simp only [send_bind]
      exact ⟨rfl, fun _ _ => .inr ⟨_, _, rfl⟩⟩

/-! ## The invariant -/

/-- The events the thread makes of a byte string. -/
def deliveries (libs : Libs) (id : ID) (bs : Bytes) : List Event :=
  (messages libs bs).map (fun msg => .peer (.receivedMessage id msg)) ++ [.peer (.disconnect id)]

namespace Admission

variable {libs : Libs} {stream : TcpStream} {id : ID} {bs after : Bytes} {s s' : Admission}

/-- The thread has not been started; these bytes are left. -/
structure Silent (s : Admission) (bs : Bytes) : Prop where
  left : Source.left s.socket = bs
  ending : s.socket.ending ≠ some .wouldBlock
  thread : s.thread = none
  queue : s.queue = []

/-- The thread has been started when `after` was left: what it has put in
the channel and what it still will, the loop's events apart. -/
structure Receiving (libs : Libs) (id : ID) (after : Bytes) (s : Admission) (channel : Nat)
    (announced : List Event) : Prop where
  thread : ∃ t, s.thread = some t ∧ t.channel = channel ∧ t.id = id ∧
    (t.running = true → s.socket.ending ≠ some .wouldBlock) ∧
    s.sentBy (.receiveLoop channel) ++
      (if t.running then deliveries libs id (t.buffer ++ Source.left s.socket) else []) =
        deliveries libs id after
  loop : s.sentBy .node = announced
  senders : ∀ m ∈ s.queue, m.sender = .node ∨ m.sender = .receiveLoop channel

/-- Where the connection is after `n` steps, with the bytes `bs` to begin
with and `after` behind the `Hello`. -/
def Holds (libs : Libs) (id : ID) (bs after : Bytes) (s : Admission) (n : Nat) : Entry → Prop
  | .connected => s.Silent bs ∧ s.replied = false ∧ n = 0
  | .cloned => s.Silent bs ∧ s.replied = false ∧ n = 1
  | .introduced => s.Silent after ∧ s.replied = false ∧ n = 2
  | .addressed addr => s.Silent after ∧ s.replied = false ∧ n = 3 ∧ addr.id = id
  | .replied addr clones => s.Silent after ∧ n = 4 + clones ∧ clones ≤ 3 ∧ addr.id = id
  | .spawned addr channel => Receiving libs id after s channel [] ∧
      n = 8 + (s.sentBy (.receiveLoop channel)).length ∧ addr.id = id
  | .announced addr channel =>
      Receiving libs id after s channel [.peer (.addedToAddressBook addr)] ∧
        n = 9 + (s.sentBy (.receiveLoop channel)).length ∧ addr.id = id
  | .refused => s.thread = none ∧ s.replied = false ∧ n = 3

theorem sentBy_self {ev : Event} {x : Sender} (hq : s'.queue = s.queue ++ [⟨ev, x⟩]) :
    s'.sentBy x = s.sentBy x ++ [ev] := by
  simp [sentBy, hq]

theorem sentBy_other {ev : Event} {x y : Sender} (hq : s'.queue = s.queue ++ [⟨ev, x⟩])
    (hne : x ≠ y) : s'.sentBy y = s.sentBy y := by
  simp [sentBy, hq, hne]

theorem Silent.goOn (h : s.Silent bs) {rest : Prog SeedNode} {replied : Bool} :
    Silent { s with rest, replied } bs :=
  ⟨h.left, h.ending, h.thread, h.queue⟩

/-- A read by the loop takes the `Hello` from the socket, and no more. -/
theorem Silent.read (h : s.Silent bs) {msg : PeerMessage}
    (hfirst : PeerMessageReader.readPeerMessage libs bs = (.ok msg, after)) :
    ∃ socket, PeerMessageReader.readPeerMessage libs s.socket = (.ok msg, socket) ∧
      Source.left socket = after ∧ socket.ending ≠ some .wouldBlock := by
  obtain ⟨socket, hread, hleft, hend⟩ :=
    (agrees_readPeerMessage libs).ok (s := s.socket) (by rw [h.left]; exact hfirst)
  have hend : socket.ending = s.socket.ending := hend
  exact ⟨socket, hread, hleft, fun hk => h.ending (hend ▸ hk)⟩

/-- The thread is started, and has done nothing yet. -/
theorem Silent.spawn (h : s.Silent after) {rest : Prog SeedNode} (channel : Nat) :
    Receiving libs id after { s with rest, thread := some ⟨channel, id, [], true⟩ } channel [] where
  thread := ⟨_, rfl, rfl, rfl, fun _ => h.ending, by simp [sentBy, h.queue, h.left]⟩
  loop := by simp [sentBy, h.queue]
  senders := by simp [h.queue]

/-- What the loop puts in the channel is apart from what the thread does. -/
theorem Receiving.announce {channel : Nat} {ev : Event} (h : Receiving libs id after s channel [])
    {rest : Prog SeedNode} :
    Receiving libs id after { s with rest, queue := s.queue ++ [⟨ev, .node⟩] } channel [ev] where
  thread := by
    obtain ⟨t, ht, hch, hid, hend, hsent⟩ := h.thread
    refine ⟨t, ht, hch, hid, hend, ?_⟩
    rw [sentBy_other (s := s) rfl (by simp)]
    exact hsent
  loop := (sentBy_self (s := s) rfl).trans (by rw [h.loop]; rfl)
  senders m hm := by
    rcases List.mem_append.mp hm with hm | hm
    · exact h.senders m hm
    · exact .inl (List.mem_singleton.mp hm ▸ rfl)

/-- One call of the loop. -/
theorem holds_loop (hfirst : PeerMessageReader.readPeerMessage libs bs = (.ok (.hello ⟨id⟩), after))
    {e : Entry} {n : Nat} {io : Io} (hkeeps : s.rest.Keeps (entering stream id) (Greets id) e)
    (h : s.Holds libs id bs after n e) (hg : s.Succeeds (.loop io))
    (hs : s.loop libs io = some s') :
    ∃ e', s'.rest.Keeps (entering stream id) (Greets id) e' ∧
      s'.Holds libs id bs after (n + 1) e' := by
  unfold loop at hs
  split at hs
  case h_2 => cases hs
  next c k hrest =>
  rw [hrest] at hkeeps
  obtain ⟨hallows, hnext⟩ := hkeeps
  have hg : c.Succeeds (io c) := hg c (by simp [pending, hrest])
  obtain rfl := Option.some.inj hs
  cases e with
  | connected =>
      obtain ⟨site, rfl⟩ := hallows
      obtain ⟨hsilent, hreplied, rfl⟩ := h
      exact ⟨.cloned, hnext _ hg, hsilent.goOn, hreplied, rfl⟩
  | cloned =>
      obtain rfl := hallows
      obtain ⟨hsilent, hreplied, rfl⟩ := h
      obtain ⟨socket, hread, hleft, hend⟩ := hsilent.read hfirst
      refine ⟨.introduced, ?_, ?_⟩
      · simp only [hread]
        exact hnext _ rfl
      · simp only [hread]
        exact ⟨⟨hleft, hend, hsilent.thread, hsilent.queue⟩, hreplied, rfl⟩
  | introduced =>
      obtain rfl := hallows
      obtain ⟨hsilent, hreplied, rfl⟩ := h
      have hk := hnext (io (.localAddr stream)) trivial
      cases haddr : io (.localAddr stream) with
      | none =>
          rw [haddr] at hk
          refine ⟨.refused, ?_, hsilent.thread, hreplied, rfl⟩
          show (k (io (.localAddr stream))).Keeps _ _ _
          rw [haddr]
          exact hk
      | some addr =>
          rw [haddr] at hk
          refine ⟨.addressed ⟨id, addr.ip, addr.port⟩, ?_, hsilent.goOn, hreplied, rfl, rfl⟩
          show (k (io (.localAddr stream))).Keeps _ _ _
          rw [haddr]
          exact hk
  | addressed addr =>
      obtain ⟨msg, rfl⟩ := hallows
      obtain ⟨hsilent, -, rfl, haddr⟩ := h
      exact ⟨.replied addr 0, hnext _ hg, hsilent.goOn, rfl, by omega, haddr⟩
  | replied addr clones =>
      obtain ⟨hsilent, rfl, hclones, haddr⟩ := h
      rcases hallows with ⟨hlt, site, rfl⟩ | ⟨rfl, rfl⟩
      · exact ⟨.replied addr (clones + 1), hnext _ hg, hsilent.goOn, by omega, hlt, haddr⟩
      · exact ⟨.spawned addr (io (.spawn id stream)), hnext _ trivial, hsilent.spawn _,
          by simp [sentBy, hsilent.queue], haddr⟩
  | spawned addr channel =>
      obtain rfl := hallows
      obtain ⟨hreceiving, rfl, haddr⟩ := h
      let s₁ : Admission :=
        { s with
          rest := k ()
          queue := s.queue ++ [⟨.peer (.addedToAddressBook addr), .node⟩] }
      have hthread : s₁.sentBy (.receiveLoop channel) = s.sentBy (.receiveLoop channel) :=
        sentBy_other rfl (by simp)
      refine ⟨.announced addr channel, hnext () trivial, hreceiving.announce, ?_, haddr⟩
      show _ = 9 + (s₁.sentBy _).length
      rw [hthread]
      omega
  | announced _ _ | refused => exact hallows.elim

theorem deliveries_ok {msg : PeerMessage}
    (h : PeerMessageReader.readPeerMessage libs bs = (.ok msg, after)) :
    deliveries libs id bs = .peer (.receivedMessage id msg) :: deliveries libs id after := by
  rw [deliveries, messages_ok h]
  rfl

theorem deliveries_error {e : Error}
    (h : PeerMessageReader.readPeerMessage libs bs = (.error e, after)) :
    deliveries libs id bs = [.peer (.disconnect id)] := by
  rw [deliveries, messages_error h]
  rfl

/-- An iteration of the thread puts the next of its events in the channel,
and the `Disconnect` is its last. -/
theorem receives (libs : Libs) (id : ID) (reader : BufReader Socket)
    (hend : reader.inner.ending ≠ some .wouldBlock) :
    ∃ ev reader' running, remotePeerReceiveLoop libs id true reader = ([ev], reader', running) ∧
      (running = true → reader'.inner.ending ≠ some .wouldBlock) ∧
      deliveries libs id (Source.left reader) =
        ev :: if running then deliveries libs id (Source.left reader') else [] := by
  cases hread : PeerMessageReader.readPeerMessage libs (Source.left reader) with
  | mk r t =>
      cases r with
      | ok msg =>
          obtain ⟨reader', hreader, rfl, hsame⟩ := (agrees_readPeerMessage libs).ok hread
          have hsame : reader'.inner.ending = reader.inner.ending := hsame
          refine ⟨_, reader', true, by rw [remotePeerReceiveLoop, hreader]; rfl, fun _ => ?_,
            deliveries_ok hread⟩
          rw [hsame]
          exact hend
      | error e =>
          obtain ⟨e', reader', hreader, hkind⟩ := (agrees_readPeerMessage libs).error hread
          have hkind : e'.kind ≠ .wouldBlock := fun hk => hend (hkind hk)
          refine ⟨_, reader', false, ?_, fun h => (by cases h), deliveries_error hread⟩
          rw [remotePeerReceiveLoop, hreader]
          simp only [if_neg hkind, if_true]

theorem Receiving.receive {channel : Nat} {announced : List Event}
    (h : Receiving libs id after s channel announced) (hs : s.receive libs true = some s') :
    Receiving libs id after s' channel announced ∧
      (s'.sentBy (.receiveLoop channel)).length =
        (s.sentBy (.receiveLoop channel)).length + 1 ∧ s'.rest = s.rest := by
  obtain ⟨⟨t, ht, rfl, rfl, hend, hsent⟩, hloop, hsenders⟩ := h
  rw [Admission.receive, ht] at hs
  cases hrun : t.running with
  | false => simp [hrun] at hs
  | true =>
      obtain ⟨ev, reader, running, hiter, hend', hnext⟩ :=
        receives libs t.id ⟨t.buffer, s.socket⟩ (hend hrun)
      simp only [hrun, if_true, hiter, Option.some.injEq] at hs hsent
      let s₁ : Admission :=
        { s with
          socket := reader.inner
          thread := some { t with buffer := reader.buffer, running }
          queue := s.queue ++ [⟨ev, .receiveLoop t.channel⟩] }
      obtain rfl : s₁ = s' := hs
      have hthread : s₁.sentBy (.receiveLoop t.channel) =
          s.sentBy (.receiveLoop t.channel) ++ [ev] := sentBy_self rfl
      have hnode : s₁.sentBy .node = s.sentBy .node := sentBy_other rfl (by simp)
      refine ⟨⟨⟨_, rfl, rfl, rfl, hend', ?_⟩, hnode.trans hloop, fun m hm => ?_⟩, ?_, rfl⟩
      · rw [hthread, ← hsent, List.append_assoc]
        exact congrArg _ hnext.symm
      · rcases List.mem_append.mp hm with hm | hm
        · exact hsenders m hm
        · exact .inr (List.mem_singleton.mp hm ▸ rfl)
      · rw [hthread, List.length_append, List.length_singleton]

theorem holds_receive {e : Entry} {n : Nat} (h : s.Holds libs id bs after n e)
    (hs : s.receive libs true = some s') :
    s'.rest = s.rest ∧ s'.Holds libs id bs after (n + 1) e := by
  have hthread : s.thread ≠ none := by
    intro hnone
    rw [receive, hnone] at hs
    cases hs
  cases e with
  | connected | cloned | introduced | addressed _ | replied _ _ =>
      exact absurd h.1.thread hthread
  | refused => exact absurd h.1 hthread
  | spawned addr channel =>
      obtain ⟨hreceiving, rfl, haddr⟩ := h
      obtain ⟨hreceiving', hlen, hrest⟩ := hreceiving.receive hs
      exact ⟨hrest, hreceiving', by rw [hlen]; omega, haddr⟩
  | announced addr channel =>
      obtain ⟨hreceiving, rfl, haddr⟩ := h
      obtain ⟨hreceiving', hlen, hrest⟩ := hreceiving.receive hs
      exact ⟨hrest, hreceiving', by rw [hlen]; omega, haddr⟩

theorem holds_run {node : SeedNode} {socket : Socket}
    (hblock : socket.ending ≠ some .wouldBlock)
    (hfirst : PeerMessageReader.readPeerMessage libs socket.left = (.ok (.hello ⟨id⟩), after))
    (hid : id ∉ node.peers) {as : List Act}
    (h : (admission libs node stream socket).Run Succeeds as s) :
    ∃ e, s.rest.Keeps (entering stream id) (Greets id) e ∧
      s.Holds libs id socket.left after as.length e := by
  induction h with
  | nil => exact ⟨.connected, peerConnected_keeps hid, ⟨rfl, hblock, rfl, rfl⟩, rfl, rfl⟩
  | @snoc as s s' a _ hg hs ih =>
      obtain ⟨e, hkeeps, hholds⟩ := ih
      rw [List.length_append, List.length_singleton]
      cases a with
      | loop io => exact holds_loop hfirst hkeeps hholds hg hs
      | receive isOpen =>
          obtain rfl : isOpen = true := hg
          obtain ⟨hrest, hholds'⟩ := holds_receive hholds hs
          exact ⟨e, hrest ▸ hkeeps, hholds'⟩

/-! ## Where nothing is left to do -/

/-- The loop has a call to make until the peer is announced or refused. -/
theorem loop_over {e : Entry} (hkeeps : s.rest.Keeps (entering stream id) (Greets id) e)
    (hover : s.loop libs .calm = none) :
    e = .refused ∨ ∃ addr channel, e = .announced addr channel := by
  unfold loop at hover
  split at hover
  · cases hover
  · next hrest =>
      cases hprog : s.rest with
      | ret node =>
          rw [hprog] at hkeeps
          exact hkeeps
      | stop e =>
          rw [hprog] at hkeeps
          exact hkeeps.elim
      | call c k => exact absurd hprog (hrest c k)

/-- The thread puts nothing in the channel but its events, in order. -/
theorem Receiving.within {channel : Nat} {announced : List Event}
    (h : Receiving libs id after s channel announced) :
    s.sentBy (.receiveLoop channel) <+: deliveries libs id after := by
  obtain ⟨⟨t, -, -, -, -, hsent⟩, -, -⟩ := h
  exact ⟨_, hsent⟩

/-- The thread has everything in the channel when it is over. -/
theorem Receiving.over {channel : Nat} {announced : List Event}
    (h : Receiving libs id after s channel announced) (hover : s.receive libs true = none) :
    s.sentBy (.receiveLoop channel) = deliveries libs id after := by
  obtain ⟨⟨t, ht, -, -, -, hsent⟩, -, -⟩ := h
  cases hrun : t.running with
  | false => simpa [hrun] using hsent
  | true => simp [Admission.receive, ht, hrun] at hover

end Admission

/-! ## The connection from end to end -/

/-- **An incoming connection.** The stream does not block, its first frame
is the `Hello` of a peer that is not registered, and the `Hello` has been
answered. Then the loop has put no other event in the channel than the
`AddedToAddressBook`, and the thread the first of its `deliveries` of what
came after the `Hello`; when nothing is left to do, both have put in all
of it. That takes no more than so many steps. -/
theorem incoming_connection {libs : Libs} {node : SeedNode} {stream : TcpStream}
    {socket : Socket} {id : ID} {after : Bytes} (hblock : socket.ending ≠ some .wouldBlock)
    (hfirst : PeerMessageReader.readPeerMessage libs socket.left = (.ok (.hello ⟨id⟩), after))
    (hid : id ∉ node.peers) {as : List Admission.Act} {s : Admission}
    (h : (admission libs node stream socket).Run Admission.Succeeds as s)
    (hreplied : s.replied = true) :
    ∃ addr channel, addr.id = id ∧
      (∀ m ∈ s.queue, m.sender = .node ∨ m.sender = .receiveLoop channel) ∧
      s.sentBy .node <+: [.peer (.addedToAddressBook addr)] ∧
      s.sentBy (.receiveLoop channel) <+: (messages libs after).map
        (fun msg => .peer (.receivedMessage id msg)) ++ [.peer (.disconnect id)] ∧
      ((∀ a, s.Succeeds a → (admission libs node stream socket).step s a = none) →
        s.sentBy .node = [.peer (.addedToAddressBook addr)] ∧
        s.sentBy (.receiveLoop channel) = (messages libs after).map
          (fun msg => .peer (.receivedMessage id msg)) ++ [.peer (.disconnect id)]) ∧
      as.length ≤ (messages libs after).length + 10 := by
  obtain ⟨e, hkeeps, hholds⟩ := Admission.holds_run hblock hfirst hid h
  have hover : (∀ a, s.Succeeds a → (admission libs node stream socket).step s a = none) →
      (e = .refused ∨ ∃ addr channel, e = .announced addr channel) ∧
        s.receive libs true = none := by
    intro hnone
    exact ⟨Admission.loop_over hkeeps (hnone (.loop .calm) fun c _ => Io.calm_succeeds c),
      hnone (.receive true) rfl⟩
  have hlength : (deliveries libs id after).length = (messages libs after).length + 1 := by
    simp [deliveries]
  cases e with
  | connected | cloned | introduced =>
      exact absurd hreplied (by simp [hholds.2.1])
  | addressed addr => exact absurd hreplied (by simp [hholds.2.1])
  | refused => exact absurd hreplied (by simp [hholds.2.1])
  | replied addr clones =>
      obtain ⟨hsilent, hlen, hclones, haddr⟩ := hholds
      have hnone : ∀ x, s.sentBy x = [] := by
        intro x
        simp [Admission.sentBy, hsilent.queue]
      refine ⟨addr, 0, haddr, by simp [hsilent.queue], ?_, ?_, ?_, by omega⟩
      · simp [hnone]
      · simp [hnone]
      · intro hno
        rcases (hover hno).1 with h | ⟨_, _, h⟩ <;> cases h
  | spawned addr channel =>
      obtain ⟨hreceiving, hlen, haddr⟩ := hholds
      have hle := hreceiving.within.length_le
      refine ⟨addr, channel, haddr, hreceiving.senders, by simp [hreceiving.loop],
        hreceiving.within, ?_, by omega⟩
      intro hno
      rcases (hover hno).1 with h | ⟨_, _, h⟩ <;> cases h
  | announced addr channel =>
      obtain ⟨hreceiving, hlen, haddr⟩ := hholds
      have hle := hreceiving.within.length_le
      refine ⟨addr, channel, haddr, hreceiving.senders, by simp [hreceiving.loop],
        hreceiving.within, ?_, by omega⟩
      intro hno
      exact ⟨hreceiving.loop, hreceiving.over (hover hno).2⟩

/-- A `Hello` and a request, cut in the middle of the request, and two
bytes of a frame that does not come. -/
def greeting : Socket :=
  let bs := (writeMessages Libs.standard [.hello ⟨"2"⟩, .addressBookRequest] ([] : Bytes)).2
  ⟨[⟨bs.take 30, by decide⟩, ⟨bs.drop 30 ++ [16, 0], by decide⟩], none⟩

/-- The loop greets the peer while its thread takes the request and then
finds the stream closed. -/
theorem incoming_connection_greeting :
    ∃ s, (admission .standard (.new "1") ⟨0, .listener⟩ greeting).Run Admission.Succeeds
        (List.replicate 8 (.loop .calm) ++ [.receive true, .loop .calm, .receive true]) s ∧
      s.queue.map Mail.ev = [.peer (.receivedMessage "2" .addressBookRequest),
        .peer (.addedToAddressBook ⟨"2", .localhost, 0⟩), .peer (.disconnect "2")] ∧
      s.sentBy (.receiveLoop 0) = (messages .standard (greeting.left.drop 18)).map
        (fun msg => .peer (.receivedMessage "2" msg)) ++ [.peer (.disconnect "2")] := by
  have hexec : ((admission .standard (.new "1") ⟨0, .listener⟩ greeting).exec Admission.Succeeds
      (admission .standard (.new "1") ⟨0, .listener⟩ greeting).init
      (List.replicate 8 (.loop .calm) ++ [.receive true, .loop .calm, .receive true])).map
        (fun s => (s.replied, s.pending.isNone, s.thread.map Receiver.running, s.queue)) =
      some (true, true, some false,
        [⟨.peer (.receivedMessage "2" .addressBookRequest), .receiveLoop 0⟩,
          ⟨.peer (.addedToAddressBook ⟨"2", .localhost, 0⟩), .node⟩,
          ⟨.peer (.disconnect "2"), .receiveLoop 0⟩]) := by decide +kernel
  obtain ⟨s, hs, hobs⟩ := Option.map_eq_some_iff.mp hexec
  obtain ⟨hreplied, hpending, hthread, hqueue⟩ : _ ∧ _ ∧ _ ∧ _ := by simpa using hobs
  have hrun := System.run_iff.mpr hs
  have hfirst : PeerMessageReader.readPeerMessage .standard greeting.left =
      (.ok (.hello ⟨"2"⟩), greeting.left.drop 18) := by decide +kernel
  obtain ⟨addr, channel, -, hsenders, -, -, hover, -⟩ :=
    incoming_connection (by decide) hfirst (by decide) hrun hreplied
  obtain rfl : 0 = channel := by simpa [hqueue] using hsenders
  refine ⟨s, hrun, by rw [hqueue]; rfl, (hover fun a _ => ?_).2⟩
  cases a with
  | loop io =>
      show s.loop _ io = none
      unfold Admission.loop
      split
      · next hrest => simp [Admission.pending, hrest] at hpending
      · rfl
  | receive isOpen =>
      obtain ⟨t, ht, hrunning⟩ := hthread
      show s.receive _ isOpen = none
      rw [Admission.receive, ht]
      simp [hrunning]

end Reactor.Sn
