import Reactor.IpText
import Reactor.SnProtos
import Reactor.SnTypes

/-!
# The seed node: wire format

Messages between peers, as they are written to and read from streams: a
`PeerMessage` is converted to its protobuf message, that is wrapped in an
`Any` under the URL of its type, and the `Any` goes out behind its length,
two bytes little-endian. Reading takes the three layers off again.

A reader or writer is a type with a state, and what an operation comes
back with is a pair of a result and the state after it, also when it
fails. **`session_roundtrip`**: messages written to a sink one after the
other are read back in order, and nothing after them is touched.
-/

namespace Reactor.Sn

open Proto3 (Bytes)
open Protos (Any Codec DecodeError EncodeError Prost)

/-! ## Errors -/

inductive MessageReaderError
  | parseError (e : DecodeError)
  | messageTooLarge
  | emptyMessage
  | unrecognizedType (url : String)
deriving DecidableEq, Repr

inductive MessageWriterError
  | encodingError (e : EncodeError)
  | emptyMessage
  | messageTooLarge
deriving DecidableEq, Repr

/-- `io::ErrorKind`, as far as it matters. `read_exact` goes on after an
`Interrupted`, which therefore never comes out of it. -/
inductive ErrorKind
  | wouldBlock
  | unexpectedEof
  | connectionReset
  | invalidInput
  | invalidData
  | other
deriving DecidableEq, Repr

/-- An `io::Error`: of the stream, of prost, of the conversion of an
address, or one of the two above wrapped up. -/
inductive Error
  | stream (kind : ErrorKind)
  | unexpectedEof
  | decode (e : DecodeError)
  | encode (e : EncodeError)
  | addrParse
  | reader (e : MessageReaderError)
  | writer (e : MessageWriterError)
deriving DecidableEq, Repr

def Error.kind : Error → ErrorKind
  | .stream kind => kind
  | .unexpectedEof => .unexpectedEof
  | .decode _ => .invalidData
  | .encode _ => .invalidInput
  | .addrParse | .reader _ | .writer _ => .other

/-! ## Readers and writers -/

/-- What an operation on a stream of type `σ` does. -/
def OnStream (σ α : Type) : Type := σ → Except Error α × σ

namespace OnStream

variable {σ α β : Type}

instance : Monad (OnStream σ) where
  pure a := fun s => (.ok a, s)
  bind x f := fun s =>
    match x s with
    | (.ok a, s) => f a s
    | (.error e, s) => (.error e, s)

/-- A result that does not depend on the stream. -/
def lift (r : Except Error α) : OnStream σ α := fun s => (r, s)

def fail (e : Error) : OnStream σ α := lift (.error e)

theorem bind_ok {x : OnStream σ α} {f : α → OnStream σ β} {s s' : σ} {a : α}
    (h : x s = (.ok a, s')) : (x >>= f) s = f a s' := by
  show (match x s with | (.ok a, s) => f a s | (.error e, s) => (.error e, s)) = _
  rw [h]

theorem bind_error {x : OnStream σ α} {f : α → OnStream σ β} {s s' : σ} {e : Error}
    (h : x s = (.error e, s')) : (x >>= f) s = (.error e, s') := by
  show (match x s with | (.ok a, s) => f a s | (.error e, s) => (.error e, s)) = _
  rw [h]

theorem bind_eq_ok {x : OnStream σ α} {f : α → OnStream σ β} {s s' : σ} {b : β} :
    (x >>= f) s = (.ok b, s') ↔ ∃ a s₁, x s = (.ok a, s₁) ∧ f a s₁ = (.ok b, s') := by
  constructor
  · intro h
    change (match x s with | (.ok a, s) => f a s | (.error e, s) => (.error e, s)) = _ at h
    split at h
    · next a s₁ hx => exact ⟨a, s₁, hx, h⟩
    · cases h
  · rintro ⟨a, s₁, hx, h⟩
    rw [bind_ok hx, h]

@[simp] theorem lift_apply (r : Except Error α) (s : σ) : lift r s = (r, s) := rfl

@[simp] theorem pure_apply (a : α) (s : σ) : (pure a : OnStream σ α) s = (.ok a, s) := rfl

@[simp] theorem fail_apply (e : Error) (s : σ) : (fail e : OnStream σ α) s = (.error e, s) := rfl

end OnStream

/-- `std::io::Read`, of which only `read_exact` is used. -/
class Read (ρ : Type) where
  readExact : Nat → OnStream ρ Bytes

/-- A byte sink: what has been written to it, and `write_all`, which adds
the bytes given when it succeeds. -/
class Write (σ : Type) where
  written : σ → Bytes
  writeAll : Bytes → OnStream σ Unit
  written_of_ok : ∀ {bs s s'}, writeAll bs s = (.ok (), s') → written s' = written s ++ bs

/-- Reading a string of bytes. -/
instance : Read Bytes where
  readExact n bs :=
    if n ≤ bs.length then (.ok (bs.take n), bs.drop n) else (.error .unexpectedEof, [])

/-- Writing to a `Vec<u8>`. -/
instance : Write Bytes where
  written := id
  writeAll bs s := (.ok (), s ++ bs)
  written_of_ok h := (Prod.mk.inj h).2.symm

theorem readExact_append {n : Nat} {bs : Bytes} (h : bs.length = n) (t : Bytes) :
    (Read.readExact n : OnStream Bytes Bytes) (bs ++ t) = (.ok bs, t) := by
  subst h
  show (if bs.length ≤ (bs ++ t).length then _ else _) = _
  rw [if_pos (by simp)]
  simp

/-! ## Conversions -/

/-- The code outside the repository: prost, and the text of addresses. -/
structure Libs where
  prost : Prost
  ipToString : IpAddr → String
  ipFromStr : String → Option IpAddr

/-- What is relied on of it. -/
structure Libs.Lawful (libs : Libs) : Prop where
  prost : libs.prost.Lawful
  ip : ∀ ip, libs.ipFromStr (libs.ipToString ip) = some ip

section Conversions

variable (libs : Libs)

def PeerHello.ofProto (hello : Protos.PeerHello) : Except Error PeerHello := .ok ⟨hello.id⟩

/-- The port keeps its low 16 bits. -/
def PeerAddr.ofProto (addr : Protos.PeerAddr) : Except Error PeerAddr :=
  match libs.ipFromStr addr.ip with
  | none => .error .addrParse
  | some ip => .ok ⟨addr.id, ip, addr.port.toUInt16⟩

def AddressBook.ofProto (book : Protos.AddressBook) : Except Error AddressBook :=
  (book.addrs.mapM (PeerAddr.ofProto libs)).map AddressBook.mk

def PeerAddr.toProto (addr : PeerAddr) : Protos.PeerAddr :=
  ⟨addr.id, libs.ipToString addr.ip, addr.port.toUInt32⟩

def AddressBook.toProto (book : AddressBook) : Protos.AddressBook :=
  ⟨book.addrs.map (PeerAddr.toProto libs)⟩

theorem PeerAddr.ofProto_toProto {libs : Libs} (h : libs.Lawful) (addr : PeerAddr) :
    PeerAddr.ofProto libs (addr.toProto libs) = .ok addr := by
  simp [PeerAddr.ofProto, PeerAddr.toProto, h.ip]

theorem AddressBook.ofProto_toProto {libs : Libs} (h : libs.Lawful) (book : AddressBook) :
    AddressBook.ofProto libs (book.toProto libs) = .ok book := by
  have haddrs : ∀ addrs : List PeerAddr,
      (addrs.map (PeerAddr.toProto libs)).mapM (PeerAddr.ofProto libs) = .ok addrs := by
    intro addrs
    induction addrs with
    | nil => rfl
    | cons addr addrs ih =>
        rw [List.map_cons, List.mapM_cons, PeerAddr.ofProto_toProto h, ih]
        rfl
  simp only [AddressBook.ofProto, AddressBook.toProto, haddrs]
  rfl

end Conversions

/-! ## `Any` -/

/-- The limit on the size of messages. -/
def maxMessageLen : Nat := 1024

def lengthDelimiterLen : Nat := 2

def typeurlPeerHello : String := "PeerHello"
def typeurlAddressBook : String := "AddressBook"
def typeurlAddressBookRequest : String := "AddressBookRequest"

/-- `AnyTyped::to_protobuf_any` for a message type and its URL. -/
def toProtobufAny {α : Type} (libs : Libs) (codec : Codec α) (typeUrl : String) (a : α) :
    Except MessageWriterError Any :=
  match codec.encode a (libs.prost.withCapacity maxMessageLen) with
  | .ok value => .ok ⟨typeUrl, value⟩
  | .error e => .error (.encodingError e)

/-- `AnyTyped::from_protobuf_any`. -/
def fromProtobufAny {α : Type} (codec : Codec α) (any : Any) : Except MessageReaderError α :=
  match codec.decode any.value with
  | .ok a => .ok a
  | .error e => .error (.parseError e)

/-- `From<PeerMessage> for Result<Any, MessageWriterError>`. -/
def PeerMessage.toAny (libs : Libs) : PeerMessage → Except MessageWriterError Any
  | .hello msg => toProtobufAny libs libs.prost.peerHello typeurlPeerHello ⟨msg.id⟩
  | .addressBookRequest =>
      toProtobufAny libs libs.prost.addressBookRequest typeurlAddressBookRequest ⟨⟩
  | .addressBook book =>
      toProtobufAny libs libs.prost.addressBook typeurlAddressBook (book.toProto libs)

/-- The message an `Any` stands for, by its URL. -/
def PeerMessage.ofAny (libs : Libs) (any : Any) : Except Error PeerMessage :=
  if any.typeUrl = typeurlAddressBookRequest then
    .ok .addressBookRequest
  else if any.typeUrl = typeurlAddressBook then
    match fromProtobufAny libs.prost.addressBook any with
    | .error e => .error (.reader e)
    | .ok book => (AddressBook.ofProto libs book).map .addressBook
  else if any.typeUrl = typeurlPeerHello then
    match fromProtobufAny libs.prost.peerHello any with
    | .error e => .error (.reader e)
    | .ok msg => (PeerHello.ofProto msg).map .hello
  else
    .error (.reader (.unrecognizedType any.typeUrl))

theorem fromProtobufAny_toProtobufAny {α : Type} {libs : Libs} {codec : Codec α}
    (h : codec.Lawful) {typeUrl : String} {a : α} {any : Any}
    (hany : toProtobufAny libs codec typeUrl a = .ok any) :
    any.typeUrl = typeUrl ∧ fromProtobufAny codec any = .ok a := by
  unfold toProtobufAny at hany
  split at hany
  · next value hvalue =>
      obtain rfl := Except.ok.inj hany
      obtain ⟨-, rfl⟩ := Protos.Codec.encode_eq_ok.mp hvalue
      exact ⟨rfl, by simp [fromProtobufAny, h a]⟩
  · cases hany

/-- The conversions and the tag, for every kind of message. -/
theorem PeerMessage.ofAny_toAny {libs : Libs} (h : libs.Lawful) {msg : PeerMessage} {any : Any}
    (hany : msg.toAny libs = .ok any) : PeerMessage.ofAny libs any = .ok msg := by
  cases msg with
  | hello hello =>
      obtain ⟨hurl, hvalue⟩ := fromProtobufAny_toProtobufAny h.prost.peerHello hany
      rw [ofAny, hurl, if_neg (by decide), if_neg (by decide), if_pos rfl, hvalue]
      rfl
  | addressBookRequest =>
      obtain ⟨hurl, -⟩ := fromProtobufAny_toProtobufAny h.prost.addressBookRequest hany
      rw [ofAny, hurl, if_pos rfl]
  | addressBook book =>
      obtain ⟨hurl, hvalue⟩ := fromProtobufAny_toProtobufAny h.prost.addressBook hany
      rw [ofAny, hurl, if_neg (by decide), if_pos rfl, hvalue]
      show (AddressBook.ofProto libs (book.toProto libs)).map PeerMessage.addressBook = _
      rw [AddressBook.ofProto_toProto h]
      rfl

/-! ## The length delimiter -/

/-- `to_le_bytes`, in so many bytes. -/
def toLeBytes : Nat → Nat → Bytes
  | 0, _ => []
  | k + 1, n => (n % 256).toUInt8 :: toLeBytes k (n / 256)

/-- `from_le_bytes`. -/
def fromLeBytes (bs : Bytes) : Nat := bs.foldr (fun b n => b.toNat + 256 * n) 0

/-- The low bytes of a `usize`. -/
def encodeLengthDelimiter (len : Nat) : Bytes := (toLeBytes 8 len).take lengthDelimiterLen

/-- The buffer filled up with zeros to a `usize`. -/
def decodeLengthDelimiter (buf : Bytes) : Nat :=
  fromLeBytes (buf ++ List.replicate (8 - lengthDelimiterLen) 0)

theorem length_encodeLengthDelimiter (len : Nat) :
    (encodeLengthDelimiter len).length = lengthDelimiterLen := rfl

theorem decode_encodeLengthDelimiter {len : Nat} (h : len < 65536) :
    decodeLengthDelimiter (encodeLengthDelimiter len) = len := by
  have hlow : (len % 256).toUInt8.toNat = len % 256 := Proto3.toNat_toUInt8 (by omega)
  have hhigh : (len / 256 % 256).toUInt8.toNat = len / 256 % 256 :=
    Proto3.toNat_toUInt8 (by omega)
  simp only [decodeLengthDelimiter, encodeLengthDelimiter, lengthDelimiterLen, toLeBytes,
    fromLeBytes, List.take_succ_cons, List.take_zero, List.cons_append, List.nil_append,
    List.foldr_cons, hlow, hhigh]
  simp [List.replicate]
  omega

/-! ## Frames -/

section Frames

variable {ρ σ : Type} [Read ρ] [Write σ] (libs : Libs)

/-- Reads one length-delimited `Any`. -/
def AnyReader.readAny : OnStream ρ Any := do
  let lenBuf ← Read.readExact lengthDelimiterLen
  let msgLen := decodeLengthDelimiter lenBuf
  if msgLen = 0 then
    OnStream.fail (.reader .emptyMessage)
  else if maxMessageLen < msgLen then
    OnStream.fail (.reader .messageTooLarge)
  else do
    let msgBuf ← Read.readExact msgLen
    match libs.prost.any.decode msgBuf with
    | .ok any => pure any
    | .error e => OnStream.fail (.decode e)

def PeerMessageReader.readPeerMessage : OnStream ρ PeerMessage := do
  OnStream.lift (PeerMessage.ofAny libs (← AnyReader.readAny libs))

/-- Writes one `Any` behind its length. -/
def AnyWriter.writeAny (msg : Any) : OnStream σ Unit :=
  match libs.prost.any.encode msg (libs.prost.withCapacity maxMessageLen) with
  | .error e => OnStream.fail (.encode e)
  | .ok buf =>
      if buf.length = 0 then
        OnStream.fail (.writer .emptyMessage)
      else if maxMessageLen < buf.length then
        OnStream.fail (.writer .messageTooLarge)
      else do
        Write.writeAll (encodeLengthDelimiter buf.length)
        Write.writeAll buf

def PeerMessageWriter.writePeerMessage (msg : PeerMessage) : OnStream σ Unit :=
  match msg.toAny libs with
  | .error e => OnStream.fail (.writer e)
  | .ok any => AnyWriter.writeAny libs any

/-- Writes messages one after the other. -/
def writeMessages : List PeerMessage → OnStream σ Unit
  | [] => pure ()
  | msg :: msgs => do
      PeerMessageWriter.writePeerMessage libs msg
      writeMessages msgs

/-- Reads so many messages. -/
def readMessages : Nat → OnStream ρ (List PeerMessage)
  | 0 => pure []
  | n + 1 => do
      let msg ← PeerMessageReader.readPeerMessage libs
      return msg :: (← readMessages n)

end Frames

/-! ## The round trip -/

section RoundTrip

variable {σ : Type} [Write σ] {libs : Libs}

/-- What writing an `Any` adds to a sink. -/
theorem AnyWriter.writeAny_ok {msg : Any} {s s' : σ}
    (h : AnyWriter.writeAny libs msg s = (.ok (), s')) :
    0 < (libs.prost.any.bytes msg).length ∧ (libs.prost.any.bytes msg).length ≤ maxMessageLen ∧
      Write.written s' = Write.written s ++
        encodeLengthDelimiter (libs.prost.any.bytes msg).length ++ libs.prost.any.bytes msg := by
  rw [AnyWriter.writeAny] at h
  cases hbuf : libs.prost.any.encode msg (libs.prost.withCapacity maxMessageLen) with
  | error e =>
      rw [hbuf] at h
      cases h
  | ok buf =>
      obtain ⟨-, rfl⟩ := Protos.Codec.encode_eq_ok.mp hbuf
      simp only [hbuf] at h
      by_cases hempty : (libs.prost.any.bytes msg).length = 0
      · rw [if_pos hempty] at h
        cases h
      by_cases hlarge : maxMessageLen < (libs.prost.any.bytes msg).length
      · rw [if_neg hempty, if_pos hlarge] at h
        cases h
      rw [if_neg hempty, if_neg hlarge] at h
      obtain ⟨⟨⟩, s₁, hdelim, hbytes⟩ := OnStream.bind_eq_ok.mp h
      refine ⟨by omega, by omega, ?_⟩
      rw [Write.written_of_ok hbytes, Write.written_of_ok hdelim]

/-- A frame is read back, and no more than the frame. -/
theorem AnyReader.readAny_frame (h : libs.Lawful) {msg : Any}
    (hpos : 0 < (libs.prost.any.bytes msg).length)
    (hmax : (libs.prost.any.bytes msg).length ≤ maxMessageLen) (t : Bytes) :
    AnyReader.readAny libs (encodeLengthDelimiter (libs.prost.any.bytes msg).length ++
      libs.prost.any.bytes msg ++ t) = (.ok msg, t) := by
  have hmax' : (libs.prost.any.bytes msg).length ≤ 1024 := hmax
  have hlen := @decode_encodeLengthDelimiter (libs.prost.any.bytes msg).length (by omega)
  have hdelim := length_encodeLengthDelimiter (libs.prost.any.bytes msg).length
  rw [AnyReader.readAny, List.append_assoc, OnStream.bind_ok (readExact_append hdelim _)]
  simp only [hlen]
  rw [if_neg (Nat.pos_iff_ne_zero.mp hpos), if_neg (Nat.not_lt.mpr hmax),
    OnStream.bind_ok (readExact_append rfl _), h.prost.any msg]
  rfl

/-- One message. -/
theorem PeerMessageWriter.writePeerMessage_ok (h : libs.Lawful) {msg : PeerMessage} {s s' : σ}
    (hw : PeerMessageWriter.writePeerMessage libs msg s = (.ok (), s')) :
    ∃ frame, Write.written s' = Write.written s ++ frame ∧
      ∀ t : Bytes, PeerMessageReader.readPeerMessage libs (frame ++ t) = (.ok msg, t) := by
  rw [PeerMessageWriter.writePeerMessage] at hw
  cases hany : msg.toAny libs with
  | error e =>
      rw [hany] at hw
      cases hw
  | ok any =>
      rw [hany] at hw
      obtain ⟨hpos, hmax, hwritten⟩ := AnyWriter.writeAny_ok hw
      refine ⟨_, hwritten.trans (List.append_assoc ..), fun t => ?_⟩
      rw [PeerMessageReader.readPeerMessage,
        OnStream.bind_ok (AnyReader.readAny_frame h hpos hmax t), PeerMessage.ofAny_toAny h hany]
      rfl

/-- **The session round trip.** Messages that a sink takes one after the
other are read back in order from what it was given, and what follows is
left unread. -/
theorem session_roundtrip (h : libs.Lawful) {msgs : List PeerMessage} {s s' : σ}
    (hw : writeMessages libs msgs s = (.ok (), s')) :
    ∃ out, Write.written s' = Write.written s ++ out ∧
      ∀ t : Bytes, readMessages libs msgs.length (out ++ t) = (.ok msgs, t) := by
  induction msgs generalizing s with
  | nil =>
      obtain ⟨-, rfl⟩ := Prod.mk.inj hw
      exact ⟨[], by simp, fun t => rfl⟩
  | cons msg msgs ih =>
      obtain ⟨⟨⟩, s₁, hmsg, hrest⟩ := OnStream.bind_eq_ok.mp hw
      obtain ⟨frame, hframe, hread⟩ := PeerMessageWriter.writePeerMessage_ok h hmsg
      obtain ⟨out, hout, hreads⟩ := ih hrest
      refine ⟨frame ++ out, by rw [hout, hframe, List.append_assoc], fun t => ?_⟩
      rw [List.append_assoc, List.length_cons, readMessages, OnStream.bind_ok (hread _),
        OnStream.bind_ok (hreads t)]
      rfl

end RoundTrip

/-- Prost by the proto3 wire format, addresses by their usual text. -/
def Libs.standard : Libs := ⟨.proto3, IpAddr.text, IpAddr.ofText⟩

theorem Libs.standard_lawful : Libs.standard.Lawful :=
  ⟨Protos.Prost.proto3_lawful, IpAddr.ofText_text⟩

/-- A session with one message of each kind. -/
def session : List PeerMessage :=
  [.hello ⟨"abcd"⟩, .addressBookRequest,
    .addressBook ⟨[⟨"abcd", .localhost, 8001⟩, ⟨"efgh", .v4 0xc0a8010a, 65535⟩]⟩]

theorem session_roundtrip_session : ∃ out : Bytes,
    writeMessages Libs.standard session ([] : Bytes) = (.ok (), out) ∧
    ∀ t : Bytes, readMessages Libs.standard 3 (out ++ t) = (.ok session, t) := by
  have hok : (writeMessages Libs.standard session ([] : Bytes)).1 = .ok () := by decide
  have hw : writeMessages Libs.standard session ([] : Bytes) =
      (.ok (), (writeMessages Libs.standard session ([] : Bytes)).2) := Prod.ext hok rfl
  obtain ⟨out, hout, hread⟩ := session_roundtrip Libs.standard_lawful hw
  obtain rfl : (writeMessages Libs.standard session ([] : Bytes)).2 = out := hout
  exact ⟨_, hw, hread⟩

end Reactor.Sn
