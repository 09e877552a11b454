import Reactor.SnEncoding

/-!
# The seed node: frames

What the length delimiter is for. The writer turns away what the reader
would turn away, before the first byte is written, and the reader takes
the bytes of one frame and no others, also when there is no message in
them.

**`write_limits`**: writing a message succeeds exactly when its `Any` has a
length that the reader accepts, and otherwise leaves the sink alone,
whichever of the two encodings fails.

**`frames_isolated`**: the i-th call of the reader takes the i-th frame,
and what it returns depends on that frame's body alone.
-/

namespace Reactor.Sn

open Proto3 (Bytes)
open Protos (Any Codec Prost)

/-! ## What is written -/

/-- The `Any` a message is packed in, however long it is. -/
def PeerMessage.packed (libs : Libs) : PeerMessage → Any
  | .hello msg => ⟨typeurlPeerHello, libs.prost.peerHello.bytes ⟨msg.id⟩⟩
  | .addressBookRequest => ⟨typeurlAddressBookRequest, libs.prost.addressBookRequest.bytes ⟨⟩⟩
  | .addressBook book => ⟨typeurlAddressBook, libs.prost.addressBook.bytes (book.toProto libs)⟩

/-- The body of a message's frame. -/
def PeerMessage.body (libs : Libs) (msg : PeerMessage) : Bytes :=
  libs.prost.any.bytes (msg.packed libs)

/-- A length the reader accepts. -/
def Acceptable (len : Nat) : Prop := 1 ≤ len ∧ len ≤ maxMessageLen

instance (len : Nat) : Decidable (Acceptable len) := inferInstanceAs (Decidable (_ ∧ _))

/-- A frame with such a body. -/
def frame (body : Bytes) : Bytes := encodeLengthDelimiter body.length ++ body

/-- A new buffer has the capacity asked for, if not more, and an `Any` is
no shorter than what it holds. -/
structure Sized (prost : Prost) : Prop where
  capacity : ∀ n, n ≤ prost.withCapacity n
  holds : ∀ any : Any, any.value.length ≤ (prost.any.bytes any).length

theorem Sized.proto3 : Sized .proto3 where
  capacity _ := Nat.le_refl _
  holds any := by
    by_cases hvalue : any.value = []
    · simp [hvalue]
    · simp [Prost.proto3, Codec.ofFields, Proto3.encode, Proto3.bytesField, hvalue,
        Proto3.Field.encode, Proto3.Value.encode]
      omega

section Writing

variable {σ : Type} [Write σ] {libs : Libs}

theorem toProtobufAny_eq {α : Type} {codec : Codec α} {typeUrl : String} {a : α} :
    (toProtobufAny libs codec typeUrl a = .ok ⟨typeUrl, codec.bytes a⟩ ∧
      (codec.bytes a).length ≤ libs.prost.withCapacity maxMessageLen) ∨
    ((∃ e, toProtobufAny libs codec typeUrl a = .error e) ∧
      libs.prost.withCapacity maxMessageLen < (codec.bytes a).length) := by
  unfold toProtobufAny Codec.encode
  by_cases hfit : (codec.bytes a).length ≤ libs.prost.withCapacity maxMessageLen
  · exact .inl ⟨by rw [if_pos hfit], hfit⟩
  · exact .inr ⟨⟨_, by rw [if_neg hfit]⟩, by omega⟩

/-- Packing fails when what is packed does not fit into a new buffer. -/
theorem PeerMessage.toAny_eq (libs : Libs) (msg : PeerMessage) :
    (msg.toAny libs = .ok (msg.packed libs) ∧
      (msg.packed libs).value.length ≤ libs.prost.withCapacity maxMessageLen) ∨
    ((∃ e, msg.toAny libs = .error e) ∧
      libs.prost.withCapacity maxMessageLen < (msg.packed libs).value.length) := by
  cases msg with
  | hello _ | addressBookRequest | addressBook _ => exact toProtobufAny_eq

/-- A sink that takes whatever it is given. -/
def TakesAll (σ : Type) [Write σ] : Prop :=
  ∀ (bs : Bytes) (s : σ), ∃ s', Write.writeAll bs s = (.ok (), s')

theorem takesAll_bytes : TakesAll Bytes := fun bs s => ⟨s ++ bs, rfl⟩

/-- Writing an `Any` goes wrong before the first byte, or not at all. -/
theorem AnyWriter.writeAny_eq (libs : Libs) (hsink : TakesAll σ) (any : Any) (s : σ) :
    ((∃ s', AnyWriter.writeAny libs any s = (.ok (), s')) ∧
      Acceptable (libs.prost.any.bytes any).length) ∨
    ((∃ e, AnyWriter.writeAny libs any s = (.error e, s)) ∧
      (libs.prost.withCapacity maxMessageLen < (libs.prost.any.bytes any).length ∨
        ¬Acceptable (libs.prost.any.bytes any).length)) := by
  unfold AnyWriter.writeAny Codec.encode
  by_cases hfit : (libs.prost.any.bytes any).length ≤ libs.prost.withCapacity maxMessageLen
  · rw [if_pos hfit]
    dsimp only
    by_cases hempty : (libs.prost.any.bytes any).length = 0
    · rw [if_pos hempty]
      exact .inr ⟨⟨_, rfl⟩, .inr fun h => by have := h.1; omega⟩
    by_cases hlarge : maxMessageLen < (libs.prost.any.bytes any).length
    · rw [if_neg hempty, if_pos hlarge]
      exact .inr ⟨⟨_, rfl⟩, .inr fun h => by have := h.2; omega⟩
    · rw [if_neg hempty, if_neg hlarge]
      obtain ⟨s₁, hdelim⟩ :=
        hsink (encodeLengthDelimiter (libs.prost.any.bytes any).length) s
      obtain ⟨s₂, hbuf⟩ := hsink (libs.prost.any.bytes any) s₁
      refine .inl ⟨⟨s₂, ?_⟩, by omega, by omega⟩
      rw [OnStream.bind_ok hdelim, hbuf]
  · rw [if_neg hfit]
    exact .inr ⟨⟨_, rfl⟩, .inl (by omega)⟩

/-- Writing a message succeeds exactly when the body of its frame has a
length that is accepted; when it fails, the sink is as before. -/
theorem PeerMessageWriter.writePeerMessage_eq (hsized : Sized libs.prost) (hsink : TakesAll σ)
    (msg : PeerMessage) (s : σ) :
    ((∃ s', PeerMessageWriter.writePeerMessage libs msg s = (.ok (), s')) ∧
      Acceptable (msg.body libs).length) ∨
    ((∃ e, PeerMessageWriter.writePeerMessage libs msg s = (.error e, s)) ∧
      ¬Acceptable (msg.body libs).length) := by
  have hcap := hsized.capacity maxMessageLen
  have hholds : (msg.packed libs).value.length ≤ (msg.body libs).length :=
    hsized.holds (msg.packed libs)
  unfold PeerMessageWriter.writePeerMessage
  rcases msg.toAny_eq libs with ⟨hany, -⟩ | ⟨⟨e, hany⟩, hlong⟩
  · rw [hany]
    rcases AnyWriter.writeAny_eq libs hsink (msg.packed libs) s with h | ⟨he, hlen⟩
    · exact .inl h
    · refine .inr ⟨he, hlen.elim (fun hlong h => ?_) id⟩
      have hlong : libs.prost.withCapacity maxMessageLen < (msg.body libs).length := hlong
      have hmax : (msg.body libs).length ≤ maxMessageLen := h.2
      omega
  · -- what is packed is too long already, so its `Any` is
    rw [hany]
    refine .inr ⟨⟨_, rfl⟩, fun h => ?_⟩
    have hmax : (msg.body libs).length ≤ maxMessageLen := h.2
    omega

/-- A message is written in two parts. -/
theorem PeerMessageWriter.writePeerMessage_parts {msg : PeerMessage} {s s' : σ}
    (h : PeerMessageWriter.writePeerMessage libs msg s = (.ok (), s')) :
    ∃ s₁, Write.writeAll (encodeLengthDelimiter (msg.body libs).length) s = (.ok (), s₁) ∧
      Write.writeAll (msg.body libs) s₁ = (.ok (), s') := by
  unfold PeerMessageWriter.writePeerMessage at h
  rcases msg.toAny_eq libs with ⟨hany, -⟩ | ⟨⟨e, hany⟩, -⟩
  · rw [hany] at h
    cases hbuf :
        libs.prost.any.encode (msg.packed libs) (libs.prost.withCapacity maxMessageLen) with
    | error e =>
        simp only [AnyWriter.writeAny, hbuf] at h
        cases h
    | ok buf =>
        obtain ⟨-, rfl⟩ := Protos.Codec.encode_eq_ok.mp hbuf
        simp only [AnyWriter.writeAny, hbuf] at h
        split at h
        · cases h
        split at h
        · cases h
        obtain ⟨⟨⟩, s₁, hdelim, hbody⟩ := OnStream.bind_eq_ok.mp h
        exact ⟨s₁, hdelim, hbody⟩
  · rw [hany] at h
    cases h

/-- What is written is the frame. -/
theorem PeerMessageWriter.written_ok {msg : PeerMessage} {s s' : σ}
    (h : PeerMessageWriter.writePeerMessage libs msg s = (.ok (), s')) :
    Write.written s' = Write.written s ++ frame (msg.body libs) := by
  obtain ⟨s₁, hdelim, hbody⟩ := PeerMessageWriter.writePeerMessage_parts h
  rw [Write.written_of_ok hbody, Write.written_of_ok hdelim, List.append_assoc]
  rfl

end Writing

/-! ## What is read -/

section Reading

variable (libs : Libs)

/-- What the reader makes of a frame with this body. -/
def parseBody (body : Bytes) : Except Error PeerMessage := do
  PeerMessage.ofAny libs (← (libs.prost.any.decode body).mapError .decode)

variable {libs}

theorem decode_acceptable {len : Nat} (h : Acceptable len) :
    decodeLengthDelimiter (encodeLengthDelimiter len) = len :=
  decode_encodeLengthDelimiter (by have : len ≤ 1024 := h.2; omega)

/-- The `Any` in a frame, or that there is none; all of the frame has been
read either way. -/
theorem AnyReader.readAny_body (libs : Libs) {body : Bytes} (h : Acceptable body.length)
    (t : Bytes) :
    AnyReader.readAny libs (frame body ++ t) =
      ((libs.prost.any.decode body).mapError .decode, t) := by
  rw [AnyReader.readAny, frame, List.append_assoc,
    OnStream.bind_ok (readExact_append (length_encodeLengthDelimiter _) _)]
  simp only [decode_acceptable h]
  rw [if_neg (Nat.pos_iff_ne_zero.mp h.1), if_neg (Nat.not_lt.mpr h.2),
    OnStream.bind_ok (readExact_append rfl t)]
  cases libs.prost.any.decode body <;> rfl

/-- **One frame.** -/
theorem readPeerMessage_frame (libs : Libs) {body : Bytes} (h : Acceptable body.length)
    (t : Bytes) :
    PeerMessageReader.readPeerMessage libs (frame body ++ t) = (parseBody libs body, t) := by
  have hany := AnyReader.readAny_body libs h t
  unfold PeerMessageReader.readPeerMessage parseBody
  cases hdecode : libs.prost.any.decode body with
  | ok any =>
      rw [hdecode] at hany
      rw [OnStream.bind_ok hany]
      rfl
  | error e =>
      rw [hdecode] at hany
      rw [OnStream.bind_error hany]
      rfl

/-- A delimiter that is not accepted is all that is read. -/
theorem readAny_delimiter {delim : Bytes} (hlen : delim.length = lengthDelimiterLen)
    (h : ¬Acceptable (decodeLengthDelimiter delim)) (t : Bytes) :
    AnyReader.readAny libs (delim ++ t) =
      (.error (.reader (if decodeLengthDelimiter delim = 0 then .emptyMessage
        else .messageTooLarge)), t) := by
  rw [AnyReader.readAny, OnStream.bind_ok (readExact_append hlen t)]
  by_cases hempty : decodeLengthDelimiter delim = 0
  · rw [if_pos hempty, if_pos hempty]
    rfl
  · have hlarge : maxMessageLen < decodeLengthDelimiter delim :=
      Nat.lt_of_not_le fun hle => h ⟨by omega, hle⟩
    rw [if_neg hempty, if_neg hempty, if_pos hlarge]
    rfl

/-! ## Limits -/

/-- **Limits.** A message is written exactly when the body of its frame has
a length that the reader accepts. Then the delimiter and the body are
written, and the reader has nothing against the length; otherwise nothing
is written. -/
theorem write_limits (libs : Libs) {σ : Type} [Write σ] (hsized : Sized libs.prost)
    (hsink : TakesAll σ) (msg : PeerMessage) (s : σ) :
    ((∃ s', PeerMessageWriter.writePeerMessage libs msg s = (.ok (), s')) ↔
      1 ≤ (msg.body libs).length ∧ (msg.body libs).length ≤ maxMessageLen) ∧
    (∀ s', PeerMessageWriter.writePeerMessage libs msg s = (.ok (), s') →
      ∃ delim, delim.length = lengthDelimiterLen ∧
        decodeLengthDelimiter delim = (msg.body libs).length ∧
        Write.written s' = Write.written s ++ (delim ++ msg.body libs) ∧
        ∀ t : Bytes,
          (AnyReader.readAny libs (delim ++ msg.body libs ++ t)).1 ≠
            .error (.reader .emptyMessage) ∧
          (AnyReader.readAny libs (delim ++ msg.body libs ++ t)).1 ≠
            .error (.reader .messageTooLarge)) ∧
    ∀ e s', PeerMessageWriter.writePeerMessage libs msg s = (.error e, s') → s' = s := by
  rcases PeerMessageWriter.writePeerMessage_eq hsized hsink msg s with
    ⟨⟨s₁, hok⟩, hlen⟩ | ⟨⟨e₁, herror⟩, hlen⟩
  · refine ⟨⟨fun _ => hlen, fun _ => ⟨s₁, hok⟩⟩, fun s' hs' => ?_, fun e s' hs' => ?_⟩
    · refine ⟨_, length_encodeLengthDelimiter _, decode_acceptable hlen,
        PeerMessageWriter.written_ok hs', fun t => ?_⟩
      have hread := AnyReader.readAny_body libs hlen t
      rw [frame] at hread
      rw [hread]
      cases libs.prost.any.decode (msg.body libs) <;> simp [Except.mapError]
    · rw [hok] at hs'
      cases hs'
  · refine ⟨⟨fun ⟨s', hs'⟩ => ?_, fun h => absurd h hlen⟩, fun s' hs' => ?_, fun e s' hs' => ?_⟩
    · rw [herror] at hs'
      cases hs'
    · rw [herror] at hs'
      cases hs'
    · rw [herror] at hs'
      exact (Prod.mk.inj hs').2.symm

theorem write_limits_hello : ∃ s' : Bytes,
    PeerMessageWriter.writePeerMessage .standard (.hello ⟨"2"⟩) [9] = (.ok (), s') ∧
      s' = [9] ++ frame (PeerMessage.body .standard (.hello ⟨"2"⟩)) := by
  obtain ⟨hok, -⟩ := write_limits .standard .proto3 takesAll_bytes (.hello ⟨"2"⟩) [9]
  obtain ⟨s', hs'⟩ := hok.mpr (by decide)
  exact ⟨s', hs', PeerMessageWriter.written_ok hs'⟩

/-! ## Consumption -/

/-- The operation takes at most so many bytes, whatever it comes to. -/
def Takes {α : Type} (n : Nat) (x : OnStream Bytes α) : Prop :=
  ∀ bs, ∃ used, bs = used ++ (x bs).2 ∧ used.length ≤ n

theorem takes_lift {α : Type} (n : Nat) (r : Except Error α) : Takes n (OnStream.lift r) :=
  fun _ => ⟨[], rfl, Nat.zero_le n⟩

theorem Takes.bind {α β : Type} {m n : Nat} {x : OnStream Bytes α} {f : α → OnStream Bytes β}
    (hx : Takes m x) (hf : ∀ a, Takes n (f a)) : Takes (m + n) (x >>= f) := by
  intro bs
  obtain ⟨used, hbs, hused⟩ := hx bs
  cases hr : x bs with
  | mk r t =>
      rw [hr] at hbs
      cases r with
      | ok a =>
          obtain ⟨used', ht, hused'⟩ := hf a t
          refine ⟨used ++ used', ?_, ?_⟩
          · rw [OnStream.bind_ok hr, List.append_assoc, ← ht]
            exact hbs
          · rw [List.length_append]
            omega
      | error e =>
          rw [OnStream.bind_error hr]
          exact ⟨used, hbs, by omega⟩

theorem Takes.mono {α : Type} {m n : Nat} {x : OnStream Bytes α} (h : Takes m x) (hmn : m ≤ n) :
    Takes n x := fun bs => (h bs).imp fun _ hused => ⟨hused.1, hused.2.trans hmn⟩

theorem takes_readExact (n : Nat) : Takes n (Read.readExact n : OnStream Bytes Bytes) := by
  intro bs
  show ∃ used, bs = used ++ (if n ≤ bs.length then _ else _ : Except Error Bytes × Bytes).2 ∧ _
  split
  · exact ⟨bs.take n, (List.take_append_drop n bs).symm, List.length_take_le n bs⟩
  · exact ⟨bs, (List.append_nil bs).symm, by omega⟩

/-- No more is ever read than the longest frame has. -/
theorem takes_readPeerMessage : Takes (lengthDelimiterLen + maxMessageLen)
    (PeerMessageReader.readPeerMessage libs : OnStream Bytes PeerMessage) := by
  have hany : Takes (lengthDelimiterLen + maxMessageLen)
      (AnyReader.readAny libs : OnStream Bytes Any) := by
    refine (takes_readExact _).bind fun lenBuf => ?_
    dsimp only
    split
    · exact takes_lift _ _
    split
    · exact takes_lift _ _
    · next hmax =>
        refine Takes.mono ((takes_readExact _).bind (n := 0) fun msgBuf => ?_)
          (Nat.le_of_not_lt hmax)
        cases libs.prost.any.decode msgBuf <;> exact takes_lift _ _
  exact hany.bind (n := 0) fun _ => takes_lift _ _

/-! ## Call after call -/

/-- The stream after so many calls, failed ones included. -/
def afterCalls (libs : Libs) : Nat → Bytes → Bytes
  | 0, bs => bs
  | n + 1, bs => afterCalls libs n (PeerMessageReader.readPeerMessage libs bs).2

theorem afterCalls_frames {frames : List Bytes} (h : ∀ body ∈ frames, Acceptable body.length)
    (t : Bytes) {n : Nat} (hn : n ≤ frames.length) :
    afterCalls libs n (frames.flatMap frame ++ t) = (frames.drop n).flatMap frame ++ t := by
  induction n generalizing frames with
  | zero => rfl
  | succ n ih =>
      cases frames with
      | nil => simp at hn
      | cons body frames =>
          obtain ⟨hbody, hframes⟩ := List.forall_mem_cons.mp h
          rw [afterCalls, List.flatMap_cons, List.append_assoc, readPeerMessage_frame libs hbody,
            ih hframes (by simpa using hn), List.drop_succ_cons]

/-- **Isolation of frames.** Whatever is in the frames, the i-th call takes
the i-th and comes to what reading that frame alone comes to; a delimiter
that is not accepted is all that is read; and no input makes a call take
more than the longest frame has. -/
theorem frames_isolated (libs : Libs) {frames : List Bytes}
    (h : ∀ body ∈ frames, Acceptable body.length) (t : Bytes) :
    (∀ i (hi : i < frames.length), ∃ r,
      PeerMessageReader.readPeerMessage libs (afterCalls libs i (frames.flatMap frame ++ t)) =
        (r, afterCalls libs (i + 1) (frames.flatMap frame ++ t)) ∧
      afterCalls libs i (frames.flatMap frame ++ t) =
        frame frames[i] ++ afterCalls libs (i + 1) (frames.flatMap frame ++ t) ∧
      PeerMessageReader.readPeerMessage libs (frame frames[i]) = (r, [])) ∧
    afterCalls libs frames.length (frames.flatMap frame ++ t) = t ∧
    (∀ delim bs : Bytes, delim.length = lengthDelimiterLen →
      ¬Acceptable (decodeLengthDelimiter delim) →
      ∃ e, PeerMessageReader.readPeerMessage libs (delim ++ bs) = (.error e, bs)) ∧
    ∀ bs : Bytes, ∃ used, bs = used ++ (PeerMessageReader.readPeerMessage libs bs).2 ∧
      used.length ≤ lengthDelimiterLen + maxMessageLen := by
  refine ⟨fun i hi => ?_, ?_, fun delim bs hlen hdelim => ?_, takes_readPeerMessage⟩
  · have hbody := h _ (List.getElem_mem hi)
    have hsplit : afterCalls libs i (frames.flatMap frame ++ t) =
        frame frames[i] ++ afterCalls libs (i + 1) (frames.flatMap frame ++ t) := by
      rw [afterCalls_frames h t hi.le, afterCalls_frames h t hi, List.drop_eq_getElem_cons hi,
        List.flatMap_cons, List.append_assoc]
    refine ⟨parseBody libs frames[i], ?_, hsplit, ?_⟩
    · rw [hsplit, readPeerMessage_frame libs hbody]
    · simpa using readPeerMessage_frame libs hbody []
  · simp [afterCalls_frames h t le_rfl]
  · exact ⟨_, OnStream.bind_error (readAny_delimiter hlen hdelim bs)⟩

end Reading

/-- After a frame with garbage in it, the next one is read. -/
theorem frames_isolated_garbage :
    PeerMessageReader.readPeerMessage .standard (afterCalls .standard 1
      ([[255], PeerMessage.body .standard (.hello ⟨"2"⟩)].flatMap frame ++ [7])) =
        (.ok (.hello ⟨"2"⟩), [7]) := by
  have hframes : ∀ body ∈ [[255], PeerMessage.body .standard (.hello ⟨"2"⟩)],
      Acceptable body.length := by decide
  obtain ⟨hcalls, hend, -⟩ := frames_isolated .standard hframes [7]
  obtain ⟨r, hread, -, halone⟩ := hcalls 1 (by decide)
  obtain rfl : .ok (.hello ⟨"2"⟩) = r := Eq.trans (by decide) (congrArg Prod.fst halone)
  exact hread.trans (congrArg _ hend)

end Reactor.Sn
