import Reactor.Rest
import Reactor.SnRetries
import Reactor.SnSending

/-!
# The seed node: a link from end to end

One direction of a connection: the sending thread of a remote peer at one
end with its buffered writer, the network, which brings the bytes in pieces
of any size whenever it likes, and the receiving thread at the other end
with its buffered reader, whose node keeps its channel open. All of them
are interleaved. The sender's end is closed when the last clone of its
stream is gone, and the sending thread has but one of them: another is with
the receiving thread that `RemotePeer::new` starts beside it, and outlives
the remote peer.

**`link_fifo`**: the events of the receiving thread are the messages that
were sent, in order, up to some point, and at the end one `Disconnect`.
What is sent behind a message that has no frame is not among them.

**`link_delivers`**: when the remote peer is dropped and the connection is
not lost, they come to all of them, and the `Disconnect` comes only if the
sender's node has no clone of the stream left.
-/

namespace Reactor.Sn

open Proto3 (Bytes)
open Reactor.System (Any Only AtRest Settles)
open Source (left ending)

/-! ## The system -/

/-- What the stream still has to carry. -/
def SendLoop.stream : SendLoop Bytes → Bytes
  | .receiving w => w.inner
  | .ended _ s => s

/-- The network takes so many bytes off the stream. -/
def SendLoop.carry (n : Nat) : SendLoop Bytes → SendLoop Bytes
  | .receiving w => .receiving { w with inner := w.inner.drop n }
  | .ended e s => .ended e (s.drop n)

/-- A connection from the sending thread to the receiving thread. While it
is open, a read after the last byte that has arrived waits, which is what
the ending `WouldBlock` stands for here. -/
structure Link where
  sender : Sending Bytes
  /-- The sender's node has clones of the stream beside those of the sending
  thread and the remote peer: its own receiving thread has one. -/
  cloned : Bool
  reader : BufReader Socket
  /-- The receiving thread has not returned. -/
  running : Bool
  events : List Event

namespace Link

/-- The connection has not ended for the receiver. -/
def isOpen (l : Link) : Bool := l.reader.inner.ending = some .wouldBlock

/-- What happens to the receiver's socket. -/
def setSocket (l : Link) (socket : Socket) : Link :=
  { l with reader := { l.reader with inner := socket } }

inductive Act
  /-- The sender's node sends or drops the remote peer, or its thread makes a turn. -/
  | sender (a : SendAction)
  /-- The network brings the next so many bytes. -/
  | carry (n : Nat)
  /-- The last of the other clones at the sender's node goes. -/
  | release
  /-- The end of a stream that has been closed arrives, after its bytes. -/
  | close
  /-- The connection is lost. -/
  | lose (kind : ErrorKind)
  /-- One iteration of the receiving thread. -/
  | receive

variable (libs : Libs) (sender receiver : ID)

/-- `sender` is the id the receiving thread was started with, and
`receiver` the one of the sending thread. -/
def step (l : Link) : Act → Option Link
  | .sender a => (l.sender.step libs receiver a).map fun s => { l with sender := s }
  | .carry n =>
      if h : l.sender.loop.stream.take n ≠ [] ∧ l.isOpen then
        some { l.setSocket { l.reader.inner with
            chunks := l.reader.inner.chunks ++ [⟨l.sender.loop.stream.take n, h.1⟩] } with
          sender := { l.sender with loop := l.sender.loop.carry n } }
      else none
  | .release => some { l with cloned := false }
  | .close =>
      match l.sender.loop with
      | .ended _ [] =>
          -- the stream closes with its last clone
          if l.isOpen ∧ ¬l.sender.connected ∧ ¬l.cloned then
            some (l.setSocket { l.reader.inner with ending := none })
          else none
      | _ => none
  | .lose kind =>
      if l.isOpen ∧ kind ≠ .wouldBlock then
        some (l.setSocket { l.reader.inner with ending := some kind })
      else none
  | .receive =>
      if l.running then
        match remotePeerReceiveLoop libs sender true l.reader with
        | ([], _, true) => none -- waiting for more bytes
        | (evs, reader, running) => some { l with reader, running, events := l.events ++ evs }
      else none

def init : Link := ⟨.new [], true, .new ⟨[], some .wouldBlock⟩, true, []⟩

def system : System Link Act := ⟨init, step libs sender receiver⟩

/-- What is sent in a step, while the sending thread runs. -/
def sends (l : Link) : Act → List PeerMessage
  | .sender a => l.sender.sends a
  | _ => []

/-- Everything that has been sent. -/
def sentOver (as : List Act) : List PeerMessage :=
  (system libs sender receiver).outputs sends init as

end Link

/-- The messages that have a frame, up to the first one that has none. -/
def framed (libs : Libs) (msgs : List PeerMessage) : List PeerMessage :=
  msgs.takeWhile fun msg => Acceptable (msg.body libs).length

/-! ## The sender's end -/

/-- The bytes the sending thread has written, less those the network has
taken. -/
def SendLoop.unsent : SendLoop Bytes → Bytes
  | .receiving w => Write.written w
  | .ended _ s => s

theorem SendLoop.unsent_carry (loop : SendLoop Bytes) (n : Nat) :
    loop.unsent = loop.stream.take n ++ (loop.carry n).unsent := by
  cases loop with
  | receiving w =>
      show w.inner ++ w.buf = w.inner.take n ++ (w.inner.drop n ++ w.buf)
      rw [← List.append_assoc, List.take_append_drop]
  | ended e s => exact (List.take_append_drop n s).symm

/-- The thread is where it was. -/
theorem SendLoop.of_carry_receiving {loop : SendLoop Bytes} {n : Nat} {w : BufWriter Bytes}
    (h : loop.carry n = .receiving w) : ∃ w₀, loop = .receiving w₀ := by
  cases loop with
  | receiving w₀ => exact ⟨w₀, rfl⟩
  | ended e s => cases h

theorem SendLoop.of_carry_ended {loop : SendLoop Bytes} {n : Nat} {e : RemotePeerError}
    {s : Bytes} (h : loop.carry n = .ended e s) : ∃ s₀, loop = .ended e s₀ := by
  cases loop with
  | receiving w => cases h
  | ended e₀ s₀ => exact ⟨s₀, by rw [(SendLoop.ended.inj h).1]⟩

/-- What a turn of the sending thread does: it writes the frame of the next
message; or it ends, at a message that has none or because the remote peer
is gone, and the writer is flushed. -/
inductive Sending.Turn (libs : Libs) (s s' : Sending Bytes) : Prop
  | writes {msg : PeerMessage} {w w' : BufWriter Bytes} (hloop : s.loop = .receiving w)
      (hqueue : s.queue = msg :: s'.queue) (hfits : Acceptable (msg.body libs).length)
      (hloop' : s'.loop = .receiving w')
      (hunsent : s'.loop.unsent = s.loop.unsent ++ frame (msg.body libs))
  | fails {msg : PeerMessage} {w : BufWriter Bytes} {e : RemotePeerError} {inner : Bytes}
      (hloop : s.loop = .receiving w) (hqueue : s.queue = msg :: s'.queue)
      (hnot : ¬Acceptable (msg.body libs).length) (hloop' : s'.loop = .ended e inner)
      (hunsent : s'.loop.unsent = s.loop.unsent)
  | hangsUp {w : BufWriter Bytes} {e : RemotePeerError} {inner : Bytes}
      (hloop : s.loop = .receiving w) (hqueue : s.queue = []) (hqueue' : s'.queue = [])
      (hconn : s.connected = false) (hloop' : s'.loop = .ended e inner)
      (hunsent : s'.loop.unsent = s.loop.unsent)

theorem Sending.turn {libs : Libs} {id : ID} (hsized : Sized libs.prost) {s s' : Sending Bytes}
    (h : remotePeerSendLoop libs id s = some s') :
    s.Turn libs s' ∧ s'.connected = s.connected := by
  obtain ⟨loop, queue, connected, events⟩ := s
  cases loop with
  | ended e inner => cases h
  | receiving w =>
      have hdrop : w.drop = Write.written w := BufWriter.written_drop takesAll_bytes w
      cases queue with
      | nil =>
          cases connected
          · obtain rfl := Option.some.inj h
            exact ⟨.hangsUp rfl rfl rfl rfl rfl hdrop, rfl⟩
          · cases h
      | cons msg queue =>
          rcases PeerMessageWriter.writePeerMessage_eq hsized
            (BufWriter.takesAll takesAll_bytes) msg w with ⟨⟨w', hok⟩, hfits⟩ | ⟨⟨e, herr⟩, hnot⟩
          · simp only [remotePeerSendLoop, hok] at h
            obtain rfl := Option.some.inj h
            exact ⟨.writes rfl rfl hfits rfl (PeerMessageWriter.written_ok hok), rfl⟩
          · simp only [remotePeerSendLoop, herr] at h
            obtain rfl := Option.some.inj h
            exact ⟨.fails rfl rfl hnot rfl hdrop, rfl⟩

/-! ## The receiver's end -/

/-- A message is read back from its frame. -/
theorem readPeerMessage_written {libs : Libs} (h : libs.Lawful) (hsized : Sized libs.prost)
    {msg : PeerMessage} (hfits : Acceptable (msg.body libs).length) (t : Bytes) :
    PeerMessageReader.readPeerMessage libs (frame (msg.body libs) ++ t) = (.ok msg, t) := by
  rcases PeerMessageWriter.writePeerMessage_eq hsized takesAll_bytes msg ([] : Bytes) with
    ⟨⟨s', hok⟩, -⟩ | ⟨-, hnot⟩
  · obtain ⟨frame', hwritten, hread⟩ := PeerMessageWriter.writePeerMessage_ok h hok
    have hframe : ([] : Bytes) ++ frame (msg.body libs) = [] ++ frame' :=
      (PeerMessageWriter.written_ok hok).symm.trans hwritten
    rw [List.nil_append, List.nil_append] at hframe
    rw [hframe]
    exact hread t
  · exact absurd hfits hnot

/-- The first bytes of some frames: the first message can be read, or bytes
are missing. -/
theorem readPeerMessage_framesOf {libs : Libs} (h : libs.Lawful) (hsized : Sized libs.prost)
    {msgs : List PeerMessage} (hfits : ∀ msg ∈ msgs, Acceptable (msg.body libs).length)
    {bs t : Bytes} (heq : bs ++ t = framesOf libs msgs) :
    (∃ msg rest bs', msgs = msg :: rest ∧
      PeerMessageReader.readPeerMessage libs bs = (.ok msg, bs') ∧
        bs' ++ t = framesOf libs rest) ∨
    ∃ bs', PeerMessageReader.readPeerMessage libs bs = (.error .unexpectedEof, bs') ∧
      (t = [] → msgs = []) := by
  cases msgs with
  | nil =>
      obtain ⟨rfl, rfl⟩ := List.append_eq_nil_iff.mp (heq.trans (by simp [framesOf]))
      exact .inr ⟨[], rfl, fun _ => rfl⟩
  | cons msg rest =>
      have hall : PeerMessageReader.readPeerMessage libs (bs ++ t) =
          (.ok msg, framesOf libs rest) := by
        rw [heq, framesOf, List.flatMap_cons]
        exact readPeerMessage_written h hsized (hfits msg List.mem_cons_self) _
      cases hread : PeerMessageReader.readPeerMessage libs bs with
      | mk r bs' =>
          cases r with
          | ok msg' =>
              have hmore := ((stable_readPeerMessage libs).ok hread t).symm.trans hall
              obtain ⟨rfl, hrest⟩ : msg' = msg ∧ bs' ++ t = framesOf libs rest := by
                simpa using hmore
              exact .inl ⟨msg', rest, bs', rfl, rfl, hrest⟩
          | error e =>
              by_cases he : e = .unexpectedEof
              · subst he
                refine .inr ⟨bs', rfl, fun ht => ?_⟩
                subst ht
                rw [List.append_nil, hread] at hall
                cases hall
              · obtain ⟨bs'', hmore⟩ := (stable_readPeerMessage libs).error hread he t
                rw [hall] at hmore
                cases hmore

/-- An event of the receiving thread. -/
def Event.received (id : ID) (msg : PeerMessage) : Event := .peer (.receivedMessage id msg)

/-- What an iteration of the receiving thread does when the bytes under way
are the frames of some messages: it takes the first message, or waits, or
it ends, with nothing under way if the connection has been closed. -/
theorem Link.receive_cases {libs : Libs} (h : libs.Lawful) (hsized : Sized libs.prost)
    (sender receiver : ID) {l : Link} (hrun : l.running = true) {msgs : List PeerMessage}
    (hfits : ∀ msg ∈ msgs, Acceptable (msg.body libs).length) {t : Bytes}
    (heq : left l.reader ++ t = framesOf libs msgs) :
    (∃ msg rest reader, msgs = msg :: rest ∧
      l.step libs sender receiver .receive =
        some { l with reader, events := l.events ++ [.received sender msg] } ∧
      left reader ++ t = framesOf libs rest ∧ (left reader).length < (left l.reader).length ∧
      ending reader = ending l.reader) ∨
    ((t = [] → msgs = []) ∧
      (l.isOpen = true ∧ l.step libs sender receiver .receive = none ∨
        l.isOpen = false ∧ ∃ reader, left reader = [] ∧ ending reader = ending l.reader ∧
          l.step libs sender receiver .receive = some { l with
            reader, running := false, events := l.events ++ [.peer (.disconnect sender)] })) := by
  rcases readPeerMessage_framesOf h hsized hfits heq with
    ⟨msg, rest, bs', rfl, hread, hbs'⟩ | ⟨bs', hread, hnone⟩
  · obtain ⟨reader, hloop, hleft, hend⟩ := remotePeerReceiveLoop_ok sender hread
    refine .inl ⟨msg, rest, reader, rfl, ?_, hleft ▸ hbs', ?_, hend⟩
    · simp [step, hrun, hloop, Event.received]
    · exact hleft ▸ readPeerMessage_shorter hread
  · refine .inr ⟨hnone, ?_⟩
    obtain ⟨reader, hloop, hreader⟩ := failsAlike_readPeerMessage settled_reader _ _ _ hread
    cases hopen : l.isOpen with
    | true =>
        have hblock : ending l.reader = some .wouldBlock := of_decide_eq_true hopen
        refine .inl ⟨rfl, ?_⟩
        simp [step, hrun, remotePeerReceiveLoop, hloop, hblock, Error.under, Error.kind]
    | false =>
        have hblock : ending l.reader ≠ some .wouldBlock := of_decide_eq_false hopen
        refine .inr ⟨rfl, reader, (hreader rfl).1, (hreader rfl).2, ?_⟩
        have hkind : (Error.under (ending l.reader) .unexpectedEof).kind ≠ .wouldBlock := by
          cases hending : ending l.reader with
          | none => simp [Error.under, Error.kind]
          | some kind => simpa [Error.under, Error.kind, hending] using hblock
        simp [step, hrun, remotePeerReceiveLoop, hloop, hkind]

/-! ## The account of a link -/

/-- The messages `done` are delivered, `under` are under way, and the rest
of those sent are in the channel, or, when the thread has ended, behind one
that has no frame. -/
structure Link.Accounted (libs : Libs) (sender : ID) (sent done under : List PeerMessage)
    (l : Link) : Prop where
  fits : ∀ msg ∈ done ++ under, Acceptable (msg.body libs).length
  receiving : ∀ w, l.sender.loop = .receiving w → sent = done ++ under ++ l.sender.queue
  ended : ∀ e inner, l.sender.loop = .ended e inner → framed libs sent = done ++ under
  events : l.events =
    done.map (.received sender) ++ if l.running then [] else [.peer (.disconnect sender)]
  bytes : l.running = true → left l.reader ++ l.sender.loop.unsent = framesOf libs under
  closed : ending l.reader = none → ∃ e, l.sender.loop = .ended e []
  finished : l.running = false → l.isOpen = false ∧ (ending l.reader = none → under = [])

variable {libs : Libs} {sender receiver : ID} {sent done under : List PeerMessage} {l l' : Link}

theorem framed_append {msgs msgs' : List PeerMessage}
    (h : ∀ msg ∈ msgs, Acceptable (msg.body libs).length) :
    framed libs (msgs ++ msgs') = msgs ++ framed libs msgs' :=
  List.takeWhile_append_of_pos fun msg hmsg => decide_eq_true (h msg hmsg)

theorem framed_cons_of_not {msg : PeerMessage} (h : ¬Acceptable (msg.body libs).length)
    (msgs : List PeerMessage) : framed libs (msg :: msgs) = [] :=
  List.takeWhile_cons_of_neg (by simpa using h)

theorem Link.accounted_init : (Link.init).Accounted libs sender [] [] [] where
  fits := by simp
  receiving _ _ := rfl
  ended _ _ h := by cases h
  events := rfl
  bytes _ := rfl
  closed h := by cases h
  finished h := by cases h

theorem Link.Accounted.send (h : l.Accounted libs sender sent done under) (msg : PeerMessage) :
    ({ l with sender := (l.sender.send msg).2 } : Link).Accounted libs sender
      (sent ++ l.sender.sends (.send msg)) done under := by
  cases hloop : l.sender.loop with
  | receiving w =>
      have hsend : (l.sender.send msg).2 = { l.sender with queue := l.sender.queue ++ [msg] } := by
        simp [Sending.send, hloop]
      have hsends : l.sender.sends (.send msg) = [msg] := by simp [Sending.sends, hloop]
      rw [hsend, hsends]
      refine ⟨h.fits, fun w' hw' => ?_, fun e inner hinner => ?_, h.events, h.bytes, h.closed,
        h.finished⟩
      · rw [h.receiving w' hw', List.append_assoc]
      · rw [show l.sender.loop = _ from hinner] at hloop
        cases hloop
  | ended e inner =>
      have hsend : (l.sender.send msg).2 = l.sender := by simp [Sending.send, hloop]
      have hsends : l.sender.sends (.send msg) = [] := by simp [Sending.sends, hloop]
      rw [hsend, hsends, List.append_nil]
      exact h

/-- What is under way when the sending thread has made a turn. -/
theorem Link.Accounted.turn (hsized : Sized libs.prost)
    (h : l.Accounted libs sender sent done under) {s : Sending Bytes}
    (hturn : remotePeerSendLoop libs receiver l.sender = some s) :
    ∃ under', ({ l with sender := s } : Link).Accounted libs sender sent done under' := by
  have hclosed : ∀ {w}, l.sender.loop = .receiving w → ending l.reader ≠ none := by
    intro w hloop hend
    obtain ⟨e, hended⟩ := h.closed hend
    rw [hloop] at hended
    cases hended
  obtain ⟨hcases, -⟩ := Sending.turn hsized hturn
  cases hcases with
  | @writes msg w w' hloop hqueue hfits hloop' hunsent =>
      refine ⟨under ++ [msg], ?_, fun w₁ _ => ?_, fun e inner hinner => ?_, h.events,
        fun hrun => ?_, fun hend => absurd hend (hclosed hloop), fun hrun =>
          ⟨(h.finished hrun).1, fun hend => absurd hend (hclosed hloop)⟩⟩
      · rw [← List.append_assoc]
        intro m hm
        rcases List.mem_append.mp hm with hm | hm
        · exact h.fits m hm
        · rwa [List.mem_singleton.mp hm]
      · rw [h.receiving w hloop, hqueue]
        simp
      · rw [hloop'] at hinner
        cases hinner
      · have hbytes := h.bytes hrun
        rw [hunsent, ← List.append_assoc, hbytes, framesOf_append]
        simp [framesOf]
  | @fails msg w e inner hloop hqueue hnot hloop' hunsent =>
      refine ⟨under, h.fits, fun w₁ hw₁ => ?_, fun e' inner' _ => ?_, h.events, fun hrun => ?_,
        fun hend => absurd hend (hclosed hloop), h.finished⟩
      · rw [hloop'] at hw₁
        cases hw₁
      · rw [h.receiving w hloop, framed_append h.fits, hqueue, framed_cons_of_not hnot,
          List.append_nil]
      · rw [hunsent]
        exact h.bytes hrun
  | @hangsUp w e inner hloop hqueue _ _ hloop' hunsent =>
      refine ⟨under, h.fits, fun w₁ hw₁ => ?_, fun e' inner' _ => ?_, h.events, fun hrun => ?_,
        fun hend => absurd hend (hclosed hloop), h.finished⟩
      · rw [hloop'] at hw₁
        cases hw₁
      · rw [h.receiving w hloop, framed_append h.fits, hqueue, framed, List.takeWhile_nil,
          List.append_nil]
      · rw [hunsent]
        exact h.bytes hrun

theorem left_append (reader : BufReader Socket) (chunk : { bs : Bytes // bs ≠ [] }) :
    left ({ reader with inner := { reader.inner with
      chunks := reader.inner.chunks ++ [chunk] } } : BufReader Socket) =
      left reader ++ chunk.val := by
  show _ ++ (List.map _ _).flatten = (_ ++ (List.map _ _).flatten) ++ _
  simp

/-- The network brings some bytes. -/
theorem Link.Accounted.carry (h : l.Accounted libs sender sent done under) {n : Nat}
    (hstep : l.step libs sender receiver (.carry n) = some l') :
    l'.Accounted libs sender sent done under := by
  simp only [step] at hstep
  split at hstep
  case isFalse => cases hstep
  next hcarry =>
  obtain rfl := Option.some.inj hstep
  have hopen : ending l.reader = some .wouldBlock := of_decide_eq_true hcarry.2
  refine ⟨h.fits, fun w hw => ?_, fun e inner hinner => ?_, h.events, fun hrun => ?_,
    fun hend => ?_, fun hrun => ?_⟩
  · obtain ⟨w₀, hloop⟩ := SendLoop.of_carry_receiving hw
    exact h.receiving w₀ hloop
  · obtain ⟨s₀, hloop⟩ := SendLoop.of_carry_ended hinner
    exact h.ended e s₀ hloop
  · have hbytes := h.bytes hrun
    rw [SendLoop.unsent_carry _ n, ← List.append_assoc] at hbytes
    rw [← hbytes]
    exact congrArg (· ++ _) (left_append ..)
  · cases hopen.symm.trans hend
  · have hno := (h.finished hrun).1
    rw [hcarry.2] at hno
    cases hno

/-- The receiver learns that the connection has ended. -/
theorem Link.Accounted.ends (h : l.Accounted libs sender sent done under) (hopen : l.isOpen = true)
    {socket : Socket} (hchunks : socket.chunks = l.reader.inner.chunks)
    (hclosed : socket.ending = none → ∃ e, l.sender.loop = .ended e []) :
    (l.setSocket socket).Accounted libs sender sent done under := by
  refine ⟨h.fits, h.receiving, h.ended, h.events, fun hrun => ?_, hclosed, fun hrun => ?_⟩
  · have hleft : left (l.setSocket socket).reader = left l.reader := by
      show _ ++ (List.map _ _).flatten = _ ++ (List.map _ _).flatten
      rw [← hchunks]
      rfl
    rw [hleft]
    exact h.bytes hrun
  · have hno := (h.finished hrun).1
    rw [hopen] at hno
    cases hno

theorem Link.Accounted.fits_under (h : l.Accounted libs sender sent done under) :
    ∀ msg ∈ under, Acceptable (msg.body libs).length := fun msg hmsg =>
  h.fits msg (List.mem_append_right _ hmsg)

theorem Link.running_of_receive (hstep : l.step libs sender receiver .receive = some l') :
    l.running = true := by
  simp only [step] at hstep
  split at hstep
  · assumption
  · cases hstep

/-- An iteration of the receiving thread that does not wait: it takes the
first message under way, or it ends. -/
theorem Link.Accounted.received (hlibs : libs.Lawful) (hsized : Sized libs.prost)
    (h : l.Accounted libs sender sent done under)
    (hstep : l.step libs sender receiver .receive = some l') :
    (∃ msg rest reader, under = msg :: rest ∧
      l' = { l with reader, events := l.events ++ [.received sender msg] } ∧
      left reader ++ l.sender.loop.unsent = framesOf libs rest ∧
      (left reader).length < (left l.reader).length ∧ ending reader = ending l.reader) ∨
    ∃ reader, l' = { l with
        reader, running := false, events := l.events ++ [.peer (.disconnect sender)] } ∧
      l.isOpen = false ∧ (l.sender.loop.unsent = [] → under = []) ∧
      left reader = [] ∧ ending reader = ending l.reader := by
  have hrun := running_of_receive hstep
  rcases receive_cases hlibs hsized sender receiver hrun h.fits_under (h.bytes hrun) with
    ⟨msg, rest, reader, hunder, hnext, hbytes, hlt, hend⟩ |
      ⟨hnone, ⟨-, hwait⟩ | ⟨hopen, reader, hleft, hend, hover⟩⟩
  · exact .inl ⟨msg, rest, reader, hunder, Option.some.inj (hstep.symm.trans hnext), hbytes, hlt,
      hend⟩
  · rw [hwait] at hstep
    cases hstep
  · exact .inr ⟨reader, Option.some.inj (hstep.symm.trans hover), hopen, hnone, hleft, hend⟩

/-- An iteration of the receiving thread. -/
theorem Link.Accounted.receive (hlibs : libs.Lawful) (hsized : Sized libs.prost)
    (h : l.Accounted libs sender sent done under)
    (hstep : l.step libs sender receiver .receive = some l') :
    ∃ done' under', l'.Accounted libs sender sent done' under' := by
  have hrun := running_of_receive hstep
  have hevents := h.events
  rw [hrun, if_pos rfl, List.append_nil] at hevents
  rcases h.received hlibs hsized hstep with
    ⟨msg, rest, reader, rfl, rfl, hbytes, -, hend⟩ | ⟨reader, rfl, hopen, hnone, -, hend⟩
  · refine ⟨done ++ [msg], rest, by simpa using h.fits, fun w hw => ?_, fun e inner hinner => ?_,
      ?_, fun _ => hbytes, fun hclosed => h.closed (hend ▸ hclosed), fun hno => ?_⟩
    · simpa using h.receiving w hw
    · simpa using h.ended e inner hinner
    · simp [hevents, hrun]
    · cases hrun.symm.trans hno
  · refine ⟨done, under, h.fits, h.receiving, h.ended, by simp [hevents], fun hno => (by cases hno),
      fun hclosed => h.closed (hend ▸ hclosed), fun _ => ⟨?_, fun hclosed => hnone ?_⟩⟩
    · exact decide_eq_false fun hblock =>
        absurd (hend.symm.trans hblock) (of_decide_eq_false hopen)
    · obtain ⟨e, hended⟩ := h.closed (hend ▸ hclosed)
      simp [hended, SendLoop.unsent]

theorem Link.accounted_step (hlibs : libs.Lawful) (hsized : Sized libs.prost)
    (h : l.Accounted libs sender sent done under) {a : Act}
    (hstep : l.step libs sender receiver a = some l') :
    ∃ done' under', l'.Accounted libs sender (sent ++ l.sends a) done' under' := by
  cases a with
  | sender a =>
      obtain ⟨s, hs, rfl⟩ := Option.map_eq_some_iff.mp hstep
      cases a with
      | send msg =>
          simp only [Sending.step] at hs
          split at hs
          · obtain rfl := Option.some.inj hs
            exact ⟨done, under, h.send msg⟩
          · cases hs
      | drop =>
          obtain rfl := Option.some.inj hs
          rw [show l.sends _ = [] from rfl, List.append_nil]
          exact ⟨done, under, h.fits, h.receiving, h.ended, h.events, h.bytes, h.closed, h.finished⟩
      | turn =>
          rw [show l.sends _ = [] from rfl, List.append_nil]
          exact ⟨done, h.turn hsized hs⟩
  | carry n =>
      rw [show l.sends _ = [] from rfl, List.append_nil]
      exact ⟨done, under, h.carry hstep⟩
  | release =>
      rw [show l.sends _ = [] from rfl, List.append_nil]
      obtain rfl := Option.some.inj hstep
      exact ⟨done, under, h.fits, h.receiving, h.ended, h.events, h.bytes, h.closed, h.finished⟩
  | close =>
      rw [show l.sends _ = [] from rfl, List.append_nil]
      simp only [step] at hstep
      split at hstep
      · next e hloop =>
          split at hstep
          · next hgone =>
              obtain rfl := Option.some.inj hstep
              exact ⟨done, under, h.ends hgone.1 rfl fun _ => ⟨e, hloop⟩⟩
          · cases hstep
      · cases hstep
  | lose kind =>
      rw [show l.sends _ = [] from rfl, List.append_nil]
      simp only [step] at hstep
      split at hstep
      · next hopen =>
          obtain rfl := Option.some.inj hstep
          exact ⟨done, under, h.ends hopen.1 rfl fun hno => by cases hno⟩
      · cases hstep
  | receive =>
      rw [show l.sends _ = [] from rfl, List.append_nil]
      exact h.receive hlibs hsized hstep

theorem Link.accounted_run (hlibs : libs.Lawful) (hsized : Sized libs.prost)
    {G : Link → Act → Prop} {as : List Act} (h : (system libs sender receiver).Run G as l) :
    ∃ done under, l.Accounted libs sender (sentOver libs sender receiver as) done under := by
  induction h with
  | nil => exact ⟨[], [], accounted_init⟩
  | @snoc as l l' a h _ hstep ih =>
      obtain ⟨done, under, hacc⟩ := ih
      have hsent : sentOver libs sender receiver (as ++ [a]) =
          sentOver libs sender receiver as ++ l.sends a := h.outputs_snoc a
      rw [hsent]
      exact accounted_step hlibs hsized hacc hstep

/-! ## First in, first out -/

/-- What has been delivered or is under way was sent. -/
theorem Link.Accounted.prefix_framed (h : l.Accounted libs sender sent done under) :
    done ++ under <+: framed libs sent := by
  cases hloop : l.sender.loop with
  | receiving w =>
      rw [h.receiving w hloop, framed_append h.fits]
      exact List.prefix_append ..
  | ended e inner => rw [h.ended e inner hloop]

/-- **First in, first out.** Whatever the network does, and as long as the
receiver's node keeps its channel open, the events of the receiving thread
are the first of the messages that were sent, those that have a frame, in
order; and then, when it has returned, one `Disconnect`. If it has returned
because the connection was closed, they are all of them. -/
theorem link_fifo (libs : Libs) (hlibs : libs.Lawful) (hsized : Sized libs.prost)
    (sender receiver : ID) {as : List Link.Act} {l : Link}
    (h : (Link.system libs sender receiver).Run Any as l) :
    ∃ done, done <+: framed libs (Link.sentOver libs sender receiver as) ∧
      l.events =
        done.map (.received sender) ++ (if l.running then [] else [.peer (.disconnect sender)]) ∧
      (l.running = false → ending l.reader = none →
        done = framed libs (Link.sentOver libs sender receiver as)) := by
  obtain ⟨done, under, hacc⟩ := Link.accounted_run hlibs hsized h
  refine ⟨done, (List.prefix_append ..).trans hacc.prefix_framed, hacc.events, fun hrun hend => ?_⟩
  obtain ⟨e, hended⟩ := hacc.closed hend
  rw [hacc.ended e _ hended, (hacc.finished hrun).2 hend, List.append_nil]

/-- Two messages are written when the remote peer is dropped, of which the
network brings the first and a part of the second. -/
def torn : List Link.Act :=
  [.sender (.send (.hello ⟨"1"⟩)), .sender .turn, .sender (.send .addressBookRequest),
    .sender .turn, .sender .drop, .sender .turn, .carry 7, .carry 15, .receive,
    .lose .connectionReset, .receive]

theorem link_fifo_torn : ∃ l, (Link.system .standard "1" "2").Run Any torn l ∧
    l.events = [.received "1" (.hello ⟨"1"⟩), .peer (.disconnect "1")] ∧
      ∃ done, done <+: [.hello ⟨"1"⟩, .addressBookRequest] ∧
        l.events = done.map (.received "1") ++ [.peer (.disconnect "1")] := by
  have hexec : ((Link.system .standard "1" "2").exec Any Link.init torn).map
      (fun l => (l.running, l.events)) =
      some (false, [.received "1" (.hello ⟨"1"⟩), .peer (.disconnect "1")]) := by decide +kernel
  have hsent : framed .standard (Link.sentOver .standard "1" "2" torn) =
      [.hello ⟨"1"⟩, .addressBookRequest] := by decide +kernel
  obtain ⟨l, hl, hobs⟩ := Option.map_eq_some_iff.mp hexec
  obtain ⟨hover, hevents⟩ := Prod.mk.inj hobs
  have hrun := System.run_iff.mpr hl
  obtain ⟨done, hdone, hall, -⟩ := link_fifo .standard Libs.standard_lawful .proto3 "1" "2" hrun
  rw [hsent] at hdone
  rw [hover] at hall
  exact ⟨l, hrun, hevents, done, hdone, hall⟩

/-! ## Nothing is left behind -/

/-- What happens when nobody sends, drops the remote peer, lets go of a
clone or cuts the connection. -/
def Link.Act.Own : Act → Prop
  | .sender .turn | .carry _ | .close | .receive => True
  | _ => False

/-- A thread that has not ended has still to end. -/
def SendLoop.toNat : SendLoop Bytes → Nat
  | .receiving _ => 1
  | .ended _ _ => 0

theorem SendLoop.toNat_carry (loop : SendLoop Bytes) (n : Nat) :
    (loop.carry n).toNat = loop.toNat := by
  cases loop <;> rfl

/-- What is ahead of a message in the channel, the thread and its stream:
the message is written, and its bytes are carried and read. -/
def Sending.load (libs : Libs) (s : Sending Bytes) : Nat :=
  (s.queue.map fun msg => 2 * (frame (msg.body libs)).length + 1).sum + s.loop.toNat +
    2 * s.loop.unsent.length

def Link.load (libs : Libs) (l : Link) : Nat :=
  l.sender.load libs + (left l.reader).length + l.isOpen.toNat + l.running.toNat

theorem Sending.Turn.load_lt {s s' : Sending Bytes} (h : s.Turn libs s') :
    s'.load libs < s.load libs := by
  cases h with
  | writes hloop hqueue _ hloop' hunsent =>
      simp only [load, hqueue, hunsent, List.map_cons, List.sum_cons, List.length_append]
      rw [hloop, hloop', SendLoop.toNat, SendLoop.toNat]
      omega
  | fails hloop hqueue _ hloop' hunsent =>
      simp only [load, hqueue, hunsent, List.map_cons, List.sum_cons]
      rw [hloop, hloop', SendLoop.toNat, SendLoop.toNat]
      omega
  | hangsUp hloop hqueue hqueue' _ hloop' hunsent =>
      simp only [load, hqueue, hqueue', hunsent]
      rw [hloop, hloop', SendLoop.toNat, SendLoop.toNat]
      omega

theorem Link.isOpen_congr (h : ending l'.reader = ending l.reader) : l'.isOpen = l.isOpen := by
  have h : l'.reader.inner.ending = l.reader.inner.ending := h
  simp [isOpen, h]

/-- Everything that happens by itself is progress. -/
theorem Link.load_lt (hlibs : libs.Lawful) (hsized : Sized libs.prost)
    (h : l.Accounted libs sender sent done under) {a : Act} (ha : a.Own)
    (hstep : l.step libs sender receiver a = some l') : l'.load libs < l.load libs := by
  cases a with
  | sender a =>
      obtain ⟨s, hs, rfl⟩ := Option.map_eq_some_iff.mp hstep
      cases a with
      | turn =>
          have hlt := (Sending.turn hsized hs).1.load_lt
          show s.load libs + (left l.reader).length + l.isOpen.toNat + l.running.toNat < _
          rw [load]
          omega
      | send | drop => exact absurd ha id
  | carry n =>
      simp only [step] at hstep
      split at hstep
      case isFalse => cases hstep
      next hcarry =>
      obtain rfl := Option.some.inj hstep
      have hunsent := congrArg List.length (l.sender.loop.unsent_carry n)
      have hpos := List.length_pos_iff.mpr hcarry.1
      have hsender : ({ l.sender with loop := l.sender.loop.carry n } : Sending Bytes).load libs +
          2 * (l.sender.loop.stream.take n).length = l.sender.load libs := by
        rw [List.length_append] at hunsent
        simp only [Sending.load, SendLoop.toNat_carry]
        omega
      show Sending.load libs { l.sender with loop := l.sender.loop.carry n } +
        (left ({ l.reader with inner := { l.reader.inner with
          chunks := l.reader.inner.chunks ++ [⟨l.sender.loop.stream.take n, hcarry.1⟩] } } :
          BufReader Socket)).length +
        l.isOpen.toNat + l.running.toNat < l.load libs
      rw [left_append, List.length_append, load, ← hsender]
      dsimp only
      omega
  | close =>
      simp only [step] at hstep
      split at hstep
      · split at hstep
        · next hgone =>
            obtain rfl := Option.some.inj hstep
            show l.sender.load libs + (left l.reader).length + 0 + l.running.toNat < _
            rw [load, hgone.1, Bool.toNat_true]
            omega
        · cases hstep
      · cases hstep
  | receive =>
      have hrun := running_of_receive hstep
      rcases h.received hlibs hsized hstep with
        ⟨msg, rest, reader, -, rfl, -, hlt, hend⟩ | ⟨reader, rfl, -, -, hleft, hend⟩
      · have hopen : isOpen { l with reader, events := l.events ++ [.received sender msg] } =
            l.isOpen := isOpen_congr hend
        simp only [load, hopen]
        omega
      · have hopen : isOpen { l with
            reader, running := false, events := l.events ++ [.peer (.disconnect sender)] } =
            l.isOpen := isOpen_congr hend
        simp only [load, hopen, hleft, hrun, Bool.toNat_true, Bool.toNat_false, List.length_nil]
        omega
  | release | lose kind => exact absurd ha id

/-- A link by which nothing is lost. -/
def Link.Kept (_ : Link) : Act → Prop
  | .lose _ => False
  | _ => True

instance (l : Link) (a : Link.Act) : Decidable (l.Kept a) := by
  cases a <;> unfold Link.Kept <;> infer_instance

theorem Link.Act.Own.kept {a : Act} (h : a.Own) (l : Link) : l.Kept a := by
  cases a with
  | lose kind => exact h
  | _ => trivial

/-- The connection is open, or it has been closed, with the last clone. -/
def Link.InOrder (l : Link) : Prop := l.isOpen = true ∨ ending l.reader = none ∧ l.cloned = false

theorem Link.inOrder_step (hlibs : libs.Lawful) (hsized : Sized libs.prost)
    (h : l.Accounted libs sender sent done under) (ho : l.InOrder) {a : Act} (ha : l.Kept a)
    (hstep : l.step libs sender receiver a = some l') : l'.InOrder := by
  have same : ending l'.reader = ending l.reader → l'.cloned = l.cloned → l'.InOrder :=
    fun hend hcloned => ho.imp (fun hopen => (isOpen_congr hend).trans hopen)
      fun ⟨hnone, hgone⟩ => ⟨hend.trans hnone, hcloned.trans hgone⟩
  cases a with
  | sender a =>
      obtain ⟨s, -, rfl⟩ := Option.map_eq_some_iff.mp hstep
      exact same rfl rfl
  | carry n =>
      simp only [step] at hstep
      split at hstep
      · obtain rfl := Option.some.inj hstep
        exact same rfl rfl
      · cases hstep
  | release =>
      obtain rfl := Option.some.inj hstep
      exact ho.imp id fun ⟨hnone, _⟩ => ⟨hnone, rfl⟩
  | close =>
      simp only [step] at hstep
      split at hstep
      · split at hstep
        · next hgone =>
            obtain rfl := Option.some.inj hstep
            exact .inr ⟨rfl, Bool.eq_false_of_not_eq_true hgone.2.2⟩
        · cases hstep
      · cases hstep
  | lose kind => exact absurd ha id
  | receive =>
      rcases h.received hlibs hsized hstep with
        ⟨msg, rest, reader, -, rfl, -, -, hend⟩ | ⟨reader, rfl, -, -, -, hend⟩
      · exact same hend rfl
      · exact same hend rfl

theorem Link.inOrder_run (hlibs : libs.Lawful) (hsized : Sized libs.prost) {as : List Act}
    (h : (system libs sender receiver).Run Kept as l) : l.InOrder := by
  induction h with
  | nil => exact .inl rfl
  | snoc h ha hstep ih =>
      obtain ⟨done, under, hacc⟩ := accounted_run hlibs hsized h
      exact inOrder_step hlibs hsized hacc ih ha hstep

/-- With the remote peer dropped, the sending thread of a link at rest has
ended and its bytes have been carried. -/
theorem Link.ended_of_atRest (h : l.Accounted libs sender sent done under) (ho : l.InOrder)
    (hdropped : l.sender.connected = false)
    (hrest : (system libs sender receiver).AtRest Act.Own l) :
    ∃ e, l.sender.loop = .ended e [] := by
  have hno : ∀ a, a.Own → l.step libs sender receiver a = none := hrest
  obtain ⟨e, inner, hended⟩ : ∃ e inner, l.sender.loop = .ended e inner := by
    cases hloop : l.sender.loop with
    | ended e inner => exact ⟨e, inner, rfl⟩
    | receiving w =>
        have hturn := hno (.sender .turn) trivial
        simp only [step, Sending.step, Option.map_eq_none_iff, remotePeerSendLoop, hloop,
          hdropped] at hturn
        split at hturn
        · split at hturn <;> cases hturn
        · cases hturn
        · next hno => cases hno
  rcases ho with hopen | ⟨hnone, -⟩
  · cases inner with
    | nil => exact ⟨e, hended⟩
    | cons b inner =>
        have hcarry := hno (.carry 1) trivial
        simp [step, hended, hopen, SendLoop.stream] at hcarry
  · exact h.closed hnone

/-- Then the receiving thread has taken every message, and it has returned
if there is no clone that keeps the connection open. -/
theorem Link.delivered_of_atRest (hlibs : libs.Lawful) (hsized : Sized libs.prost)
    (h : l.Accounted libs sender sent done under) (ho : l.InOrder)
    (hdropped : l.sender.connected = false)
    (hrest : (system libs sender receiver).AtRest Act.Own l) :
    l.running = l.cloned ∧ framed libs sent = done := by
  have hno : ∀ a, a.Own → l.step libs sender receiver a = none := hrest
  obtain ⟨e, hended⟩ := ended_of_atRest h ho hdropped hrest
  have hframed := h.ended e [] hended
  have hunsent : l.sender.loop.unsent = [] := by rw [hended]; rfl
  -- a thread that still runs waits for bytes of which there are none
  have hwaits : l.running = true → l.isOpen = true ∧ under = [] := by
    intro hrun
    have hreceive := hno .receive trivial
    rcases receive_cases hlibs hsized sender receiver hrun h.fits_under (h.bytes hrun) with
      ⟨msg, rest, reader, -, hnext, -⟩ | ⟨hnil, ⟨hopen, -⟩ | ⟨-, reader, -, -, hover⟩⟩
    · rw [hnext] at hreceive
      cases hreceive
    · exact ⟨hopen, hnil hunsent⟩
    · rw [hover] at hreceive
      cases hreceive
  cases hcloned : l.cloned with
  | true =>
      have hopen : l.isOpen = true := ho.resolve_right fun ⟨_, hgone⟩ => by
        rw [hcloned] at hgone
        cases hgone
      have hrun : l.running = true := by
        by_contra hover
        have hclosed := (h.finished (by simpa using hover)).1
        rw [hopen] at hclosed
        cases hclosed
      exact ⟨hrun, by rw [hframed, (hwaits hrun).2, List.append_nil]⟩
  | false =>
      have hopen : ¬l.isOpen = true := fun hopen => by
        have hclose := hno .close trivial
        simp [step, hended, hopen, hdropped, hcloned] at hclose
      have hover : l.running = false := by
        by_contra hrun
        exact hopen (hwaits (by simpa using hrun)).1
      obtain ⟨hnone, -⟩ := ho.resolve_left hopen
      exact ⟨hover, by rw [hframed, (h.finished hover).2 hnone, List.append_nil]⟩

theorem Link.settles (hlibs : libs.Lawful) (hsized : Sized libs.prost) :
    (system libs sender receiver).Settles Act.Own
      (fun l => ∃ sent done under, l.Accounted libs sender sent done under) (load libs) where
  keeps := by
    rintro l a l' ⟨sent, done, under, hacc⟩ - hstep
    exact ⟨_, accounted_step hlibs hsized hacc hstep⟩
  lighter := by
    rintro l a l' ⟨sent, done, under, hacc⟩ ha hstep
    exact load_lt hlibs hsized hacc ha hstep

/-- By itself a link sends nothing, stays dropped and loses no clone. -/
theorem Link.own_step {a : Act} (ha : a.Own) (hstep : l.step libs sender receiver a = some l') :
    l.sends a = [] ∧ (l.sender.connected = false → l'.sender.connected = false) ∧
      l'.cloned = l.cloned := by
  cases a with
  | sender a =>
      obtain ⟨s, hs, rfl⟩ := Option.map_eq_some_iff.mp hstep
      cases a with
      | send msg | drop => exact absurd ha id
      | turn =>
          refine ⟨rfl, fun hdropped => ?_, rfl⟩
          simp only [Sending.step, remotePeerSendLoop] at hs
          split at hs
          · split at hs <;> obtain rfl := Option.some.inj hs <;> exact hdropped
          · split at hs
            · cases hs
            · obtain rfl := Option.some.inj hs
              exact hdropped
          · cases hs
  | carry n =>
      simp only [step] at hstep
      split at hstep
      · obtain rfl := Option.some.inj hstep
        exact ⟨rfl, id, rfl⟩
      · cases hstep
  | close =>
      simp only [step] at hstep
      split at hstep
      · split at hstep
        · obtain rfl := Option.some.inj hstep
          exact ⟨rfl, id, rfl⟩
        · cases hstep
      · cases hstep
  | release | lose kind => exact absurd ha id
  | receive =>
      simp only [step] at hstep
      split at hstep
      · split at hstep
        · cases hstep
        · obtain rfl := Option.some.inj hstep
          exact ⟨rfl, id, rfl⟩
      · cases hstep

theorem Link.own_run {G : Link → Act → Prop} {as bs : List Act}
    (h : (system libs sender receiver).Run G as l)
    (hrun : ((system libs sender receiver).startAt l).Run (Only Act.Own) bs l') :
    sentOver libs sender receiver (as ++ bs) = sentOver libs sender receiver as ∧
      (l.sender.connected = false → l'.sender.connected = false) ∧ l'.cloned = l.cloned := by
  induction bs using List.reverseRecOn generalizing l' with
  | nil =>
      obtain rfl : l = l' := (System.Run.nil (G := Only Act.Own)).unique hrun
      exact ⟨by rw [List.append_nil], id, rfl⟩
  | append_singleton bs a ih =>
      obtain ⟨t, ht, ha, hstep⟩ := hrun.unsnoc
      obtain ⟨hsent, hdrop, hcloned⟩ := ih ht
      obtain ⟨hnone, hdrop', hcloned'⟩ := own_step ha hstep
      have hall : (system libs sender receiver).Run Any (as ++ bs) t :=
        System.run_append.mpr ⟨l, h.weaken fun _ _ _ => trivial, ht.weaken fun _ _ _ => trivial⟩
      have hsnoc : sentOver libs sender receiver (as ++ bs ++ [a]) =
          sentOver libs sender receiver (as ++ bs) ++ t.sends a := hall.outputs_snoc a
      exact ⟨by rw [← List.append_assoc, hsnoc, hnone, List.append_nil, hsent],
        fun hdropped => hdrop' (hdrop hdropped), hcloned'.trans hcloned⟩

/-- **Nothing is left behind.** When the remote peer has been dropped and
the connection is not lost, what happens by itself comes to an end, and by
then every message sent that has a frame, up to the first that has none,
has been delivered. As long as the sender's node has another clone of the
stream, the connection stays open and the receiving thread waits for more;
without one a `Disconnect` comes last. -/
theorem link_delivers (libs : Libs) (hlibs : libs.Lawful) (hsized : Sized libs.prost)
    (sender receiver : ID) {as : List Link.Act} {l : Link}
    (h : (Link.system libs sender receiver).Run Link.Kept as l)
    (hdropped : l.sender.connected = false) :
    (∀ bs t, ((Link.system libs sender receiver).startAt l).Run (Only Link.Act.Own) bs t →
      bs.length ≤ l.load libs ∧ ((Link.system libs sender receiver).AtRest Link.Act.Own t →
        t.running = l.cloned ∧
        t.events = (framed libs (Link.sentOver libs sender receiver as)).map (.received sender) ++
          if l.cloned then [] else [.peer (.disconnect sender)])) ∧
    ∃ bs t, ((Link.system libs sender receiver).startAt l).Run (Only Link.Act.Own) bs t ∧
      (Link.system libs sender receiver).AtRest Link.Act.Own t := by
  obtain ⟨done, under, hacc⟩ := Link.accounted_run hlibs hsized h
  have hsettles := @Link.settles libs sender receiver hlibs hsized
  refine ⟨fun bs t hrun => ⟨?_, fun hrest => ?_⟩, hsettles.exists_rest ⟨_, _, _, hacc⟩⟩
  · have hle := hsettles.length_le ⟨_, _, _, hacc⟩ hrun
    omega
  · obtain ⟨hsent, hdrop, hcloned⟩ := Link.own_run h hrun
    have hall : (Link.system libs sender receiver).Run Link.Kept (as ++ bs) t :=
      System.run_append.mpr ⟨l, h, hrun.weaken fun l _ ha => ha.kept l⟩
    obtain ⟨done', under', hacc'⟩ := Link.accounted_run hlibs hsized hall
    obtain ⟨hrunning, hframed⟩ := Link.delivered_of_atRest hlibs hsized hacc'
      (Link.inOrder_run hlibs hsized hall) (hdrop hdropped) hrest
    rw [hcloned] at hrunning
    rw [hsent] at hframed
    exact ⟨hrunning, by rw [hacc'.events, hrunning, hframed]⟩

/-- Two messages sent, and the remote peer dropped. -/
def leaving : List Link.Act :=
  [.sender (.send (.hello ⟨"1"⟩)), .sender (.send .addressBookRequest), .sender .drop]

/-- The messages come, and the other end is not told that this one has gone
before the last clone has. -/
theorem link_delivers_leaving :
    (∃ l bs t, (Link.system .standard "1" "2").Run Link.Kept leaving l ∧
      ((Link.system .standard "1" "2").startAt l).Run (Only Link.Act.Own) bs t ∧
        t.events = [.received "1" (.hello ⟨"1"⟩), .received "1" .addressBookRequest]) ∧
    ∃ l bs t, (Link.system .standard "1" "2").Run Link.Kept (leaving ++ [.release]) l ∧
      ((Link.system .standard "1" "2").startAt l).Run (Only Link.Act.Own) bs t ∧
        t.events = [.received "1" (.hello ⟨"1"⟩), .received "1" .addressBookRequest,
          .peer (.disconnect "1")] := by
  have hsent : framed .standard (Link.sentOver .standard "1" "2" leaving) =
      [.hello ⟨"1"⟩, .addressBookRequest] := by decide +kernel
  have hsent' : framed .standard (Link.sentOver .standard "1" "2" (leaving ++ [.release])) =
      [.hello ⟨"1"⟩, .addressBookRequest] := by decide +kernel
  have hexec : ((Link.system .standard "1" "2").exec Link.Kept Link.init leaving).map
      (fun l => (l.sender.connected, l.cloned)) = some (false, true) := by decide
  have hexec' : ((Link.system .standard "1" "2").exec Link.Kept Link.init
      (leaving ++ [.release])).map (fun l => (l.sender.connected, l.cloned)) =
        some (false, false) := by decide
  obtain ⟨l, hl, hobs⟩ := Option.map_eq_some_iff.mp hexec
  obtain ⟨l', hl', hobs'⟩ := Option.map_eq_some_iff.mp hexec'
  obtain ⟨hdropped, hcloned⟩ := Prod.mk.inj hobs
  obtain ⟨hdropped', hcloned'⟩ := Prod.mk.inj hobs'
  have hrun := System.run_iff.mpr hl
  have hrun' := System.run_iff.mpr hl'
  obtain ⟨hover, bs, t, hbs, hrest⟩ :=
    link_delivers .standard Libs.standard_lawful .proto3 "1" "2" hrun hdropped
  obtain ⟨hover', bs', t', hbs', hrest'⟩ :=
    link_delivers .standard Libs.standard_lawful .proto3 "1" "2" hrun' hdropped'
  refine ⟨⟨l, bs, t, hrun, hbs, ?_⟩, l', bs', t', hrun', hbs', ?_⟩
  · have hevents := ((hover bs t hbs).2 hrest).2
    rwa [hsent, hcloned] at hevents
  · have hevents := ((hover' bs' t' hbs').2 hrest').2
    rwa [hsent', hcloned'] at hevents

end Reactor.Sn
