import Reactor.Proto3

/-!
# Protobuf messages

The messages of `messages.proto` and `Any`, as the generated code has
them, and what the node's encoding relies on of the code that encodes and
decodes them. That code is not part of the repository, so it is a
parameter (`Prost`): for each message type the bytes of a value and a
partial function back, and the capacity a new buffer has, below which
`encode` succeeds. `Prost.Lawful` is its documented behaviour.

`Prost.proto3` is an instance, by the wire format of `Proto3`.
-/

namespace Reactor.Sn.Protos

open Proto3 (Bytes Field)

structure PeerHello where
  id : String
deriving DecidableEq, Repr

structure PeerAddr where
  id : String
  ip : String
  port : UInt32
deriving DecidableEq, Repr

structure AddressBook where
  addrs : List PeerAddr
deriving DecidableEq, Repr

structure AddressBookRequest where
deriving DecidableEq, Repr

/-- A value of any message type, tagged with the type's URL. -/
structure Any where
  typeUrl : String
  value : Bytes
deriving DecidableEq, Repr

/-! ## The encoder as a parameter -/

structure DecodeError where
  description : String
deriving DecidableEq, Repr

/-- The buffer has no room for the message. -/
structure EncodeError where
  required : Nat
  remaining : Nat
deriving DecidableEq, Repr

/-- How the values of a message type are encoded and decoded. -/
structure Codec (α : Type) where
  bytes : α → Bytes
  decode : Bytes → Except DecodeError α

/-- Decoding undoes encoding. -/
def Codec.Lawful {α : Type} (c : Codec α) : Prop := ∀ a, c.decode (c.bytes a) = .ok a

/-- Encodes into a buffer with some capacity left. -/
def Codec.encode {α : Type} (c : Codec α) (a : α) (remaining : Nat) :
    Except EncodeError Bytes :=
  if (c.bytes a).length ≤ remaining then .ok (c.bytes a)
  else .error ⟨(c.bytes a).length, remaining⟩

theorem Codec.encode_eq_ok {α : Type} {c : Codec α} {a : α} {remaining : Nat} {bs : Bytes} :
    c.encode a remaining = .ok bs ↔ (c.bytes a).length ≤ remaining ∧ c.bytes a = bs := by
  unfold Codec.encode
  split
  · next h => simp [h]
  · next h => simp [h]

structure Prost where
  any : Codec Any
  peerHello : Codec PeerHello
  addressBook : Codec AddressBook
  addressBookRequest : Codec AddressBookRequest
  /-- The capacity of a buffer made `with_capacity(n)`. -/
  withCapacity : Nat → Nat

structure Prost.Lawful (prost : Prost) : Prop where
  any : prost.any.Lawful
  peerHello : prost.peerHello.Lawful
  addressBook : prost.addressBook.Lawful
  addressBookRequest : prost.addressBookRequest.Lawful

/-! ## An instance -/

/-- A message type by the fields of its values. -/
def Codec.ofFields {α : Type} (fields : α → List Field) (read : List Field → Option α) :
    Codec α where
  bytes a := Proto3.encode (fields a)
  decode bs :=
    match (Proto3.parse bs).bind read with
    | some a => .ok a
    | none => .error ⟨"invalid message"⟩

theorem Codec.ofFields_lawful {α : Type} {fields : α → List Field}
    {read : List Field → Option α} (hnumber : ∀ a, ∀ f ∈ fields a, f.number ≠ 0)
    (hread : ∀ a, read (fields a) = some a) : (Codec.ofFields fields read).Lawful := by
  intro a
  simp [ofFields, Proto3.parse_encode (hnumber a), hread]

namespace PeerAddr

def fields (a : PeerAddr) : List Field :=
  Proto3.stringField 1 a.id ++ Proto3.stringField 2 a.ip ++ Proto3.uint32Field 3 a.port

def read (fs : List Field) : Option PeerAddr := do
  let id ← Proto3.getString 1 fs
  let ip ← Proto3.getString 2 fs
  let port ← Proto3.getUint32 3 fs
  pure ⟨id, ip, port⟩

theorem number_of_mem_fields {a : PeerAddr} {f : Field} (h : f ∈ a.fields) : f.number ≠ 0 := by
  simp only [fields, List.mem_append] at h
  rcases h with (h | h) | h
  · simp [Proto3.mem_bytesField h]
  · simp [Proto3.mem_bytesField h]
  · simp [Proto3.mem_uint32Field h]

theorem read_fields (a : PeerAddr) : read a.fields = some a := by
  have hid : Proto3.getString 1 a.fields = some a.id := by
    refine Proto3.getString_of_lastOf ?_
    rw [fields, Proto3.lastOf_append_left, Proto3.lastOf_append_left, Proto3.stringField,
      Proto3.lastOf_bytesField]
    · exact fun g hg => by simp [Proto3.mem_bytesField hg]
    · exact fun g hg => by simp [Proto3.mem_uint32Field hg]
  have hip : Proto3.getString 2 a.fields = some a.ip := by
    refine Proto3.getString_of_lastOf ?_
    rw [fields, Proto3.lastOf_append_left, Proto3.lastOf_append_right, Proto3.stringField,
      Proto3.lastOf_bytesField]
    · exact fun g hg => by simp [Proto3.mem_bytesField hg]
    · exact fun g hg => by simp [Proto3.mem_uint32Field hg]
  have hport : Proto3.getUint32 3 a.fields = some a.port := by
    refine Proto3.getUint32_of_lastOf ?_
    rw [fields, Proto3.lastOf_append_right, Proto3.lastOf_uint32Field]
    intro g hg
    rcases List.mem_append.mp hg with hg | hg <;> simp [Proto3.mem_bytesField hg]
  simp [read, hid, hip, hport]

end PeerAddr

namespace AddressBook

def fields (b : AddressBook) : List Field :=
  b.addrs.map fun a => ⟨1, .len (Proto3.encode a.fields)⟩

def readAddr : Proto3.Value → Option PeerAddr
  | .len bs => (Proto3.parse bs).bind PeerAddr.read
  | .varint _ => none

def read (fs : List Field) : Option AddressBook :=
  ((Proto3.allOf 1 fs).mapM readAddr).map AddressBook.mk

theorem read_fields (b : AddressBook) : read b.fields = some b := by
  have haddrs : ∀ addrs : List PeerAddr, (Proto3.allOf 1 (fields ⟨addrs⟩)).mapM readAddr =
      some addrs := by
    intro addrs
    induction addrs with
    | nil => rfl
    | cons a addrs ih =>
        have ha : readAddr (.len (Proto3.encode a.fields)) = some a := by
          simp [readAddr, Proto3.parse_encode fun _ => PeerAddr.number_of_mem_fields,
            PeerAddr.read_fields]
        have hcons : Proto3.allOf 1 (fields ⟨a :: addrs⟩) =
            .len (Proto3.encode a.fields) :: Proto3.allOf 1 (fields ⟨addrs⟩) := by
          simp [Proto3.allOf, fields]
        rw [hcons, List.mapM_cons, ha, ih]
        rfl
  simp [read, haddrs]

end AddressBook

/-- The proto3 encodings, with buffers of just the capacity asked for. What
no encoder writes is not always read as the generated code does: an
unknown field of the fixed widths is refused where that skips it, varints
may be of any length, and of a string given more than once only the last
is looked at. -/
def Prost.proto3 : Prost where
  any := .ofFields (fun a => Proto3.stringField 1 a.typeUrl ++ Proto3.bytesField 2 a.value)
    fun fs => do pure ⟨← Proto3.getString 1 fs, ← Proto3.getBytes 2 fs⟩
  peerHello := .ofFields (fun h => Proto3.stringField 1 h.id)
    fun fs => (Proto3.getString 1 fs).map PeerHello.mk
  addressBook := .ofFields AddressBook.fields AddressBook.read
  addressBookRequest := .ofFields (fun _ => []) fun _ => some ⟨⟩
  withCapacity n := n

theorem Prost.proto3_lawful : Prost.proto3.Lawful where
  any := by
    refine Codec.ofFields_lawful (fun a f hf => ?_) fun a => ?_
    · rcases List.mem_append.mp hf with hf | hf <;> simp [Proto3.mem_bytesField hf]
    · have hurl : Proto3.getString 1
          (Proto3.stringField 1 a.typeUrl ++ Proto3.bytesField 2 a.value) = some a.typeUrl := by
        refine Proto3.getString_of_lastOf ?_
        rw [Proto3.lastOf_append_left fun g hg => by simp [Proto3.mem_bytesField hg],
          Proto3.stringField, Proto3.lastOf_bytesField]
      have hvalue : Proto3.getBytes 2
          (Proto3.stringField 1 a.typeUrl ++ Proto3.bytesField 2 a.value) = some a.value := by
        refine Proto3.getBytes_of_lastOf ?_
        rw [Proto3.lastOf_append_right fun g hg => by simp [Proto3.mem_bytesField hg],
          Proto3.lastOf_bytesField]
      simp [hurl, hvalue]
  peerHello := by
    refine Codec.ofFields_lawful (fun h f hf => by simp [Proto3.mem_bytesField hf]) fun h => ?_
    have hid : Proto3.getString 1 (Proto3.stringField 1 h.id) = some h.id :=
      Proto3.getString_of_lastOf (Proto3.lastOf_bytesField _)
    rw [hid, Option.map_some]
  addressBook := by
    refine Codec.ofFields_lawful (fun b f hf => ?_) AddressBook.read_fields
    obtain ⟨a, -, rfl⟩ := List.mem_map.mp hf
    simp
  addressBookRequest := Codec.ofFields_lawful (fun _ f hf => by cases hf) fun _ => rfl

end Reactor.Sn.Protos
