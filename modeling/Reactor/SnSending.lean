import Mathlib.Tactic.Common
import Reactor.SnFrames
import Reactor.Transition

/-!
# The seed node: sending

`RemotePeer::send` puts a message in the channel of the sending thread,
and the thread writes it to its stream through a `BufWriter`. A buffered
writer stands for the bytes written to it, of which the stream has seen
some and the buffer holds the rest, and nobody in the thread flushes it.

**`reached_iff_silent`**: whenever the thread waits for a message, the
frames of the messages it has received are on the stream or in the buffer,
and all of them on the stream only if there are none. They get there when
the thread ends and the writer is dropped.
-/

namespace Reactor.Sn

open Proto3 (Bytes)
open Reactor.System (Any)

/-! ## Buffered writers -/

/-- The bytes that the stream has not been given yet. -/
structure BufWriter (σ : Type) where
  capacity : Nat
  buf : Bytes
  inner : σ
deriving DecidableEq

namespace BufWriter

variable {σ : Type} [Write σ]

def defaultBufSize : Nat := 8 * 1024

def new (inner : σ) : BufWriter σ := ⟨defaultBufSize, [], inner⟩

/-- Gives the stream what is buffered. -/
def flushBuf : OnStream (BufWriter σ) Unit := fun w =>
  match Write.writeAll w.buf w.inner with
  | (.ok (), inner) => (.ok (), { w with buf := [], inner })
  | (.error e, inner) => (.error e, { w with inner })

/-- Gives the stream bytes behind the buffer's back. -/
def writeInner (bs : Bytes) : OnStream (BufWriter σ) Unit := fun w =>
  match Write.writeAll bs w.inner with
  | (.ok (), inner) => (.ok (), { w with inner })
  | (.error e, inner) => (.error e, { w with inner })

/-- What the buffer could not hold at all is not put there. -/
def place (bs : Bytes) : OnStream (BufWriter σ) Unit := fun w =>
  if w.capacity ≤ bs.length then writeInner bs w
  else (.ok (), { w with buf := w.buf ++ bs })

/-- Makes room first when the bytes do not fit. -/
def writeAll (bs : Bytes) : OnStream (BufWriter σ) Unit := fun w =>
  if w.capacity < w.buf.length + bs.length then (flushBuf >>= fun _ => place bs) w
  else place bs w

/-- The stream of a writer that is dropped: what is buffered is written,
and errors are ignored. -/
def drop (w : BufWriter σ) : σ := (flushBuf w).2.inner

variable {bs : Bytes} {w w' : BufWriter σ}

theorem flushBuf_ok (h : flushBuf w = (.ok (), w')) : w'.capacity = w.capacity ∧ w'.buf = [] ∧
    Write.written w'.inner = Write.written w.inner ++ w.buf := by
  unfold flushBuf at h
  split at h
  · next inner hinner =>
      obtain rfl := (Prod.mk.inj h).2
      exact ⟨rfl, rfl, Write.written_of_ok hinner⟩
  · cases h

theorem writeInner_ok (h : writeInner bs w = (.ok (), w')) : w'.capacity = w.capacity ∧
    w'.buf = w.buf ∧ Write.written w'.inner = Write.written w.inner ++ bs := by
  unfold writeInner at h
  split at h
  · next inner hinner =>
      obtain rfl := (Prod.mk.inj h).2
      exact ⟨rfl, rfl, Write.written_of_ok hinner⟩
  · cases h

/-- With room for the bytes, or nothing in the buffer, they come after what
was written before. -/
theorem place_ok (h : place bs w = (.ok (), w'))
    (hroom : w.buf = [] ∨ w.buf.length + bs.length ≤ w.capacity) :
    w'.capacity = w.capacity ∧
      Write.written w'.inner ++ w'.buf = Write.written w.inner ++ w.buf ++ bs ∧
      (bs.length < w.capacity → w'.buf = w.buf ++ bs) := by
  unfold place at h
  split at h
  · next hlarge =>
      obtain ⟨hcap, hbuf, hinner⟩ := writeInner_ok h
      have hempty : w.buf = [] := by
        rcases hroom with hempty | hroom
        · exact hempty
        · exact List.eq_nil_of_length_eq_zero (by omega)
      exact ⟨hcap, by rw [hbuf, hinner, hempty]; simp, fun hsmall => by omega⟩
  · obtain rfl := (Prod.mk.inj h).2
    exact ⟨rfl, (List.append_assoc ..).symm, fun _ => rfl⟩

/-- **Writing.** Nothing is lost or reordered, and bytes for which the
buffer is large enough end up in it. -/
theorem writeAll_ok (h : writeAll bs w = (.ok (), w')) : w'.capacity = w.capacity ∧
    Write.written w'.inner ++ w'.buf = Write.written w.inner ++ w.buf ++ bs ∧
    (bs.length < w.capacity → ∃ pre, w'.buf = pre ++ bs) := by
  unfold writeAll at h
  split at h
  · obtain ⟨⟨⟩, w₁, hflush, hplace⟩ := OnStream.bind_eq_ok.mp h
    obtain ⟨hcap, hbuf, hinner⟩ := flushBuf_ok hflush
    obtain ⟨hcap', hwritten, hkept⟩ := place_ok hplace (.inl hbuf)
    refine ⟨hcap'.trans hcap, ?_, fun hsmall => ⟨w₁.buf, hkept (hcap ▸ hsmall)⟩⟩
    rw [hwritten, hbuf, hinner, List.append_nil]
  · next hroom =>
      obtain ⟨hcap, hwritten, hkept⟩ := place_ok h (.inr (by omega))
      exact ⟨hcap, hwritten, fun hsmall => ⟨w.buf, hkept hsmall⟩⟩

instance : Write (BufWriter σ) where
  written w := Write.written w.inner ++ w.buf
  writeAll := writeAll
  written_of_ok h := (writeAll_ok h).2.1

/-- On a stream that takes everything a writer does. -/
theorem takesAll (hsink : TakesAll σ) : TakesAll (BufWriter σ) := by
  have hplace : ∀ (bs : Bytes) (w : BufWriter σ), ∃ w', place bs w = (.ok (), w') := by
    intro bs w
    unfold place
    split
    · obtain ⟨inner, hinner⟩ := hsink bs w.inner
      exact ⟨_, by rw [writeInner, hinner]⟩
    · exact ⟨_, rfl⟩
  intro bs w
  show ∃ w', writeAll bs w = _
  unfold writeAll
  split
  · obtain ⟨inner, hinner⟩ := hsink w.buf w.inner
    have hflush : flushBuf w = (.ok (), { w with buf := [], inner }) := by rw [flushBuf, hinner]
    obtain ⟨w', hw'⟩ := hplace bs { w with buf := [], inner }
    exact ⟨w', by rw [OnStream.bind_ok hflush, hw']⟩
  · exact hplace bs w

theorem written_drop (hsink : TakesAll σ) (w : BufWriter σ) :
    Write.written w.drop = Write.written w.inner ++ w.buf := by
  obtain ⟨inner, hinner⟩ := hsink w.buf w.inner
  have hflush : flushBuf w = (.ok (), { w with buf := [], inner }) := by rw [flushBuf, hinner]
  rw [drop, hflush]
  exact (flushBuf_ok hflush).2.2

end BufWriter

/-! ## The thread -/

/-- `SendFailed` is of the stream, with its error, or of the channel. -/
inductive RemotePeerError
  | sendFailed (e : Option Error)
  | disconnected
deriving DecidableEq

/-- In `recv`, or ended, with the stream as it was left. -/
inductive SendLoop (σ : Type)
  | receiving (writer : BufWriter σ)
  | ended (e : RemotePeerError) (stream : σ)
deriving DecidableEq

/-- The sending thread of a remote peer: the messages in its channel,
whether the remote peer still holds the other end, and the events it has
put in the node's channel. -/
structure Sending (σ : Type) where
  loop : SendLoop σ
  queue : List PeerMessage
  connected : Bool
  events : List Event
deriving DecidableEq

section Thread

variable {σ : Type} [Write σ] (libs : Libs) (id : ID)

/-- A new remote peer. -/
def Sending.new (stream : σ) : Sending σ := ⟨.receiving (.new stream), [], true, []⟩

/-- `RemotePeer::send`, which fails once the thread has ended. -/
def Sending.send (s : Sending σ) (msg : PeerMessage) :
    Except RemotePeerError Unit × Sending σ :=
  match s.loop with
  | .receiving _ => (.ok (), { s with queue := s.queue ++ [msg] })
  | .ended _ _ => (.error (.sendFailed none), s)

/-- The thread leaves its loop, and the writer is dropped. -/
def Sending.ends (s : Sending σ) (e : RemotePeerError) (writer : BufWriter σ) : Sending σ :=
  { s with loop := .ended e writer.drop, events := s.events ++ [.peer (.disconnect id)] }

/-- One turn of `remote_peer_send_loop`, unless it has to wait. -/
def remotePeerSendLoop (s : Sending σ) : Option (Sending σ) :=
  match s.loop, s.queue with
  | .receiving writer, msg :: queue =>
      match PeerMessageWriter.writePeerMessage libs msg writer with
      | (.ok (), writer) => some { s with loop := .receiving writer, queue }
      | (.error e, writer) => some ({ s with queue }.ends id (.sendFailed (some e)) writer)
  | .receiving writer, [] => if s.connected then none else some (s.ends id .disconnected writer)
  | .ended _ _, _ => none

/-- The node sends a message or drops the remote peer, or the thread makes
a turn. -/
inductive SendAction
  | send (msg : PeerMessage)
  | drop
  | turn
deriving DecidableEq

def Sending.step (s : Sending σ) : SendAction → Option (Sending σ)
  | .send msg => if s.connected then some (s.send msg).2 else none
  | .drop => some { s with connected := false }
  | .turn => remotePeerSendLoop libs id s

def sending (stream : σ) : System (Sending σ) SendAction := ⟨.new stream, Sending.step libs id⟩

/-- The messages that are sent while the thread runs. -/
def Sending.sends (s : Sending σ) : SendAction → List PeerMessage
  | .send msg =>
      match s.loop with
      | .receiving _ => [msg]
      | .ended _ _ => []
  | _ => []

/-- The message that the thread receives. -/
def Sending.receives (s : Sending σ) : SendAction → List PeerMessage
  | .turn =>
      match s.loop with
      | .receiving _ => s.queue.take 1
      | .ended _ _ => []
  | _ => []

/-- The messages sent in a run, and those the thread has received. -/
def sent (stream : σ) (as : List SendAction) : List PeerMessage :=
  (sending libs id stream).outputs Sending.sends (sending libs id stream).init as

def received (stream : σ) (as : List SendAction) : List PeerMessage :=
  (sending libs id stream).outputs Sending.receives (sending libs id stream).init as

/-- The message has a frame. -/
def Sending.Fits (_ : Sending σ) : SendAction → Prop
  | .send msg => Acceptable (msg.body libs).length
  | _ => True

instance (s : Sending σ) (a : SendAction) : Decidable (s.Fits libs a) := by
  unfold Sending.Fits
  cases a <;> infer_instance

/-- The frames of some messages. -/
def framesOf (msgs : List PeerMessage) : Bytes := msgs.flatMap fun msg => frame (msg.body libs)

/-- What the stream has been given and what is in the buffer are the
frames of the messages received, and nothing has been received as long as
the buffer is empty. -/
structure Sending.Accounted (stream : σ) (sent received : List PeerMessage) (s : Sending σ) :
    Prop where
  fits : ∀ msg ∈ s.queue, Acceptable (msg.body libs).length
  receiving : ∀ w, s.loop = .receiving w →
    received ++ s.queue = sent ∧ maxMessageLen < w.capacity ∧
      Write.written w = Write.written stream ++ framesOf libs received ∧
      (w.buf = [] ↔ received = [])
  ended : ∀ e inner, s.loop = .ended e inner →
    Write.written inner = Write.written stream ++ framesOf libs received

variable {libs id} {stream : σ} {as : List SendAction} {s s' : Sending σ}

/-- A message with a frame is written, and the end of it is left in the
buffer. -/
theorem writePeerMessage_buffered (hsized : Sized libs.prost) (hsink : TakesAll σ)
    {msg : PeerMessage} (hfits : Acceptable (msg.body libs).length) {w : BufWriter σ}
    (hcap : maxMessageLen < w.capacity) :
    ∃ w', PeerMessageWriter.writePeerMessage libs msg w = (.ok (), w') ∧
      w'.capacity = w.capacity ∧
      Write.written w' = Write.written w ++ frame (msg.body libs) ∧ w'.buf ≠ [] := by
  rcases PeerMessageWriter.writePeerMessage_eq hsized (BufWriter.takesAll hsink) msg w with
    ⟨⟨w', hok⟩, -⟩ | ⟨-, hnot⟩
  · obtain ⟨w₁, hdelim, hbody⟩ := PeerMessageWriter.writePeerMessage_parts hok
    obtain ⟨hcap₁, -, -⟩ := BufWriter.writeAll_ok hdelim
    obtain ⟨hcap', -, hkept⟩ := BufWriter.writeAll_ok hbody
    have hsmall : (msg.body libs).length < w₁.capacity := by
      have := hfits.2
      omega
    obtain ⟨pre, hbuf⟩ := hkept hsmall
    refine ⟨w', hok, hcap'.trans hcap₁, PeerMessageWriter.written_ok hok, fun hempty => ?_⟩
    rw [hempty] at hbuf
    have hnil : msg.body libs = [] := (List.append_eq_nil_iff.mp hbuf.symm).2
    have := hfits.1
    rw [hnil] at this
    simp at this
  · exact absurd hfits hnot

theorem framesOf_append (msgs msgs' : List PeerMessage) :
    framesOf libs (msgs ++ msgs') = framesOf libs msgs ++ framesOf libs msgs' :=
  List.flatMap_append

/-- **A turn of the thread.** -/
theorem Sending.Accounted.turn (hsized : Sized libs.prost) (hsink : TakesAll σ)
    {sent received : List PeerMessage} (h : s.Accounted libs stream sent received)
    (hturn : remotePeerSendLoop libs id s = some s') :
    s'.Accounted libs stream sent (received ++ s.receives .turn) := by
  obtain ⟨loop, queue, connected, events⟩ := s
  cases loop with
  | ended e inner => cases hturn
  | receiving w =>
      obtain ⟨hsent, hcap, hwritten, hempty⟩ := h.receiving w rfl
      cases queue with
      | nil =>
          cases connected
          · -- the channel is closed, and dropping the writer flushes it
            obtain rfl := Option.some.inj hturn
            refine ⟨fun _ hmsg => absurd hmsg List.not_mem_nil, fun w' hw' => ?_,
              fun e inner hinner => ?_⟩
            · cases hw'
            · obtain ⟨-, rfl⟩ := SendLoop.ended.inj hinner
              rw [BufWriter.written_drop hsink]
              simp only [Sending.receives, List.take_nil, List.append_nil]
              exact hwritten
          · cases hturn
      | cons msg queue =>
          obtain ⟨hfits, hrest⟩ := List.forall_mem_cons.mp h.fits
          obtain ⟨w', hok, hcap', hwritten', hbuf⟩ :=
            @writePeerMessage_buffered _ _ _ hsized hsink _ hfits w hcap
          simp only [remotePeerSendLoop, hok] at hturn
          obtain rfl := Option.some.inj hturn
          refine ⟨hrest, fun w₁ hw₁ => ?_, fun e inner hinner => ?_⟩
          · obtain rfl := SendLoop.receiving.inj hw₁
            refine ⟨?_, by omega, ?_, ?_⟩
            · simpa [Sending.receives] using hsent
            · rw [hwritten', hwritten, framesOf_append, List.append_assoc]
              simp [Sending.receives, framesOf]
            · simp [Sending.receives, hbuf]
          · cases hinner

theorem Sending.accounted_new (stream : σ) :
    (Sending.new stream).Accounted libs stream [] [] := by
  refine ⟨fun _ hmsg => absurd hmsg List.not_mem_nil, fun w hw => ?_, fun e inner hinner => ?_⟩
  · obtain rfl := SendLoop.receiving.inj hw
    exact ⟨rfl, (by decide : maxMessageLen < BufWriter.defaultBufSize), rfl,
      by simp [BufWriter.new]⟩
  · cases hinner

/-- Sending only adds to the channel. -/
theorem Sending.Accounted.send {sent received : List PeerMessage} {msg : PeerMessage}
    (h : s.Accounted libs stream sent received) (hfits : Acceptable (msg.body libs).length) :
    (s.send msg).2.Accounted libs stream (sent ++ s.sends (.send msg)) received := by
  obtain ⟨loop, queue, connected, events⟩ := s
  cases loop with
  | ended e inner => exact ⟨h.fits, fun w hw => (by cases hw), h.ended⟩
  | receiving w =>
      obtain ⟨hsent, hcap, hwritten, hempty⟩ := h.receiving w rfl
      refine ⟨fun msg' hmsg' => ?_, fun w' hw' => ?_, fun e inner hinner => (by cases hinner)⟩
      · rcases List.mem_append.mp hmsg' with hold | hnew
        · exact h.fits msg' hold
        · rwa [List.mem_singleton.mp hnew]
      · obtain rfl := SendLoop.receiving.inj hw'
        refine ⟨?_, hcap, hwritten, hempty⟩
        rw [← hsent, List.append_assoc]
        rfl

theorem accounted (hsized : Sized libs.prost) (hsink : TakesAll σ)
    (h : (sending libs id stream).Run (Sending.Fits libs) as s) :
    s.Accounted libs stream (sent libs id stream as) (received libs id stream as) := by
  induction h with
  | nil => exact Sending.accounted_new stream
  | @snoc as s s' a hrun hfits hstep ih =>
      have hsent : sent libs id stream (as ++ [a]) = sent libs id stream as ++ s.sends a :=
        hrun.outputs_snoc a
      have hreceived : received libs id stream (as ++ [a]) =
          received libs id stream as ++ s.receives a := hrun.outputs_snoc a
      rw [hsent, hreceived]
      cases a with
      | send msg =>
          simp only [sending, Sending.step] at hstep
          split at hstep
          · obtain rfl := Option.some.inj hstep
            simpa [Sending.receives] using ih.send hfits
          · cases hstep
      | drop =>
          obtain rfl := Option.some.inj hstep
          simp only [Sending.sends, Sending.receives, List.append_nil]
          exact ⟨ih.fits, ih.receiving, ih.ended⟩
      | turn =>
          have hturn := ih.turn hsized hsink hstep
          simpa [Sending.sends] using hturn

/-- **What reaches the stream.** While the thread waits for a message, the
stream has been given the frames of the messages received exactly if none
has been sent; the rest of them is in the buffer, and gets there when the
thread has ended. -/
theorem reached_iff_silent (libs : Libs) (hsized : Sized libs.prost) (hsink : TakesAll σ)
    (id : ID) (stream : σ) {as : List SendAction} {s : Sending σ}
    (h : (sending libs id stream).Run (Sending.Fits libs) as s) :
    (∀ w, s.loop = .receiving w →
      Write.written w.inner ++ w.buf =
        Write.written stream ++ framesOf libs (received libs id stream as) ∧
      (s.queue = [] → (Write.written w.inner =
        Write.written stream ++ framesOf libs (received libs id stream as) ↔
          sent libs id stream as = []))) ∧
    ∀ e inner, s.loop = .ended e inner →
      Write.written inner = Write.written stream ++ framesOf libs (received libs id stream as) := by
  have haccounted := accounted hsized hsink h
  refine ⟨fun w hw => ?_, haccounted.ended⟩
  obtain ⟨hsent, -, hwritten, hempty⟩ := haccounted.receiving w hw
  refine ⟨hwritten, fun hqueue => ?_⟩
  rw [hqueue, List.append_nil] at hsent
  rw [← hsent, ← hempty, ← hwritten]
  show Write.written w.inner = Write.written w.inner ++ w.buf ↔ _
  exact List.self_eq_append_right

end Thread

/-- A hello gets to the stream when the remote peer is dropped. -/
theorem reached_iff_silent_drop : ∃ (s : Sending Bytes) (inner : Bytes),
    (sending .standard "2" []).Run (Sending.Fits .standard)
      [.send (.hello ⟨"1"⟩), .turn, .drop, .turn] s ∧
    s.loop = .ended .disconnected inner ∧ inner = framesOf .standard
      (received .standard "2" ([] : Bytes) [.send (.hello ⟨"1"⟩), .turn, .drop, .turn]) := by
  have h : (sending .standard "2" ([] : Bytes)).exec (Sending.Fits .standard)
      (sending .standard "2" []).init [.send (.hello ⟨"1"⟩), .turn, .drop, .turn] =
        some ⟨.ended .disconnected (frame (PeerMessage.body .standard (.hello ⟨"1"⟩))), [], false,
          [.peer (.disconnect "2")]⟩ := by
    decide
  have hrun := System.run_iff.mpr h
  obtain ⟨-, hended⟩ := reached_iff_silent .standard .proto3 takesAll_bytes "2" [] hrun
  exact ⟨_, _, hrun, rfl, hended _ _ rfl⟩

/-- A hello that is sent and taken stays in the buffer. -/
theorem hello_not_reached : ∃ (s : Sending Bytes) (w : BufWriter Bytes),
    (sending .standard "2" []).Run (Sending.Fits .standard) [.send (.hello ⟨"1"⟩), .turn] s ∧
    s.loop = .receiving w ∧ s.queue = [] ∧ Write.written w.inner ≠
      framesOf .standard (received .standard "2" ([] : Bytes) [.send (.hello ⟨"1"⟩), .turn]) := by
  have h : (sending .standard "2" ([] : Bytes)).exec (Sending.Fits .standard)
      (sending .standard "2" []).init [.send (.hello ⟨"1"⟩), .turn] =
        some ⟨.receiving ⟨8192, frame (PeerMessage.body .standard (.hello ⟨"1"⟩)), []⟩, [], true,
          []⟩ := by
    decide
  exact ⟨_, _, System.run_iff.mpr h, rfl, rfl, by decide⟩

end Reactor.Sn
