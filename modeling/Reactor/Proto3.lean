import Mathlib.Data.Nat.Init
import Mathlib.Tactic.Common

/-!
# The proto3 wire format

A message on the wire is a sequence of fields, each a key (its number and
its wire type) and a value. This file covers the two wire types strings,
integers and nested messages use: base-128 varints and length-delimited
bytes. A field of another wire type is not parsed, not even to be skipped,
and numbers are unbounded.

`parse_encode` is the round trip for sequences of fields. What a message
makes of its fields is read off with `lastOf` (a scalar: the last
occurrence counts, none means the default) and `allOf` (a repeated field).
-/

namespace Reactor.Proto3

abbrev Bytes := List UInt8

/-! ## Varints -/

/-- Base 128, lowest digit first, all bytes but the last with the high bit
set. The fuel bounds the number of further digits. -/
def varintDigits : Nat → Nat → Bytes
  | 0, n => [n.toUInt8]
  | fuel + 1, n =>
      if n < 128 then [n.toUInt8] else (n % 128 + 128).toUInt8 :: varintDigits fuel (n / 128)

def encodeVarint (n : Nat) : Bytes := varintDigits n n

/-- The number at the front, and the bytes after it. -/
def decodeVarint : Bytes → Option (Nat × Bytes)
  | [] => none
  | b :: bs =>
      if b.toNat < 128 then some (b.toNat, bs)
      else (decodeVarint bs).map fun (n, rest) => (b.toNat - 128 + 128 * n, rest)

theorem toNat_toUInt8 {n : Nat} (h : n < 256) : n.toUInt8.toNat = n := by
  simp [Nat.mod_eq_of_lt h]

theorem decodeVarint_digits (fuel : Nat) : ∀ {n : Nat}, n ≤ fuel → ∀ rest : Bytes,
    decodeVarint (varintDigits fuel n ++ rest) = some (n, rest) := by
  induction fuel with
  | zero =>
      intro n hn rest
      obtain rfl : n = 0 := by omega
      rfl
  | succ fuel ih =>
      intro n hn rest
      rw [varintDigits]
      split
      · next hlt =>
          have hb : n.toUInt8.toNat = n := toNat_toUInt8 (by omega)
          simp only [List.singleton_append, decodeVarint, hb, if_pos hlt]
      · next hge =>
          have hb : (n % 128 + 128).toUInt8.toNat = n % 128 + 128 := toNat_toUInt8 (by omega)
          have hnot : ¬n % 128 + 128 < 128 := by omega
          simp only [List.cons_append, decodeVarint, hb, if_neg hnot,
            ih (by omega : n / 128 ≤ fuel), Option.map_some,
            Option.some.injEq, Prod.mk.injEq, and_true]
          omega

@[simp] theorem decodeVarint_encodeVarint (n : Nat) (rest : Bytes) :
    decodeVarint (encodeVarint n ++ rest) = some (n, rest) :=
  decodeVarint_digits n (Nat.le_refl n) rest

theorem encodeVarint_ne_nil (n : Nat) : encodeVarint n ≠ [] := by
  intro h
  have := decodeVarint_encodeVarint n []
  rw [h] at this
  cases this

/-! ## Fields -/

inductive Value
  | varint (n : Nat)
  | len (bs : Bytes)
deriving DecidableEq, Repr

structure Field where
  number : Nat
  value : Value
deriving DecidableEq, Repr

def Value.wireType : Value → Nat
  | varint _ => 0
  | len _ => 2

def Value.encode : Value → Bytes
  | varint n => encodeVarint n
  | len bs => encodeVarint bs.length ++ bs

def Field.encode (f : Field) : Bytes :=
  encodeVarint (f.number * 8 + f.value.wireType) ++ f.value.encode

def encode (fs : List Field) : Bytes := fs.flatMap Field.encode

/-- The value of a wire type at the front. -/
def parseValue (wireType : Nat) (bs : Bytes) : Option (Value × Bytes) :=
  match wireType with
  | 0 => (decodeVarint bs).map fun (n, rest) => (.varint n, rest)
  | 2 => (decodeVarint bs).bind fun (n, rest) =>
      if n ≤ rest.length then some (.len (rest.take n), rest.drop n) else none
  | _ => none

/-- The field at the front. Its number is not 0. -/
def parseField (bs : Bytes) : Option (Field × Bytes) :=
  (decodeVarint bs).bind fun (key, rest) =>
    if key / 8 = 0 then none
    else (parseValue (key % 8) rest).map fun (value, rest) => (⟨key / 8, value⟩, rest)

/-- The fields of a message, given as many turns. -/
def parseFields : Nat → Bytes → Option (List Field)
  | _, [] => some []
  | 0, _ => none
  | fuel + 1, bs =>
      (parseField bs).bind fun (f, rest) => (parseFields fuel rest).map (f :: ·)

/-- The fields of a message. Each takes at least one byte. -/
def parse (bs : Bytes) : Option (List Field) := parseFields bs.length bs

theorem parseValue_encode (v : Value) (rest : Bytes) :
    parseValue v.wireType (v.encode ++ rest) = some (v, rest) := by
  cases v with
  | varint n => simp [parseValue, Value.wireType, Value.encode]
  | len bs => simp [parseValue, Value.wireType, Value.encode]

theorem parseField_encode {f : Field} (hf : f.number ≠ 0) (rest : Bytes) :
    parseField (f.encode ++ rest) = some (f, rest) := by
  have hwire : f.value.wireType < 8 := by cases f.value <;> simp [Value.wireType]
  have hnumber : (f.number * 8 + f.value.wireType) / 8 = f.number := by omega
  have hmod : (f.number * 8 + f.value.wireType) % 8 = f.value.wireType := by omega
  simp only [parseField, Field.encode, List.append_assoc, decodeVarint_encodeVarint,
    Option.bind_some, hnumber, hmod, if_neg hf, parseValue_encode, Option.map_some]

theorem encode_ne_nil (f : Field) : f.encode ≠ [] := by
  intro h
  exact encodeVarint_ne_nil _ (List.append_eq_nil_iff.mp h).1

theorem parseFields_encode : ∀ {fs : List Field} {fuel : Nat}, (∀ f ∈ fs, f.number ≠ 0) →
    fs.length ≤ fuel → parseFields fuel (encode fs) = some fs
  | [], fuel, _, _ => by cases fuel <;> rfl
  | f :: fs, 0, _, hlen => by simp at hlen
  | f :: fs, fuel + 1, hfs, hlen => by
      have hrest : parseFields fuel (encode fs) = some fs :=
        parseFields_encode (fun g hg => hfs g (List.mem_cons_of_mem _ hg)) (by simpa using hlen)
      have hfield := parseField_encode (hfs f (List.mem_cons_self ..)) (encode fs)
      obtain ⟨b, bs, hb⟩ := List.exists_cons_of_ne_nil (encode_ne_nil f)
      have heq : encode (f :: fs) = f.encode ++ encode fs := by simp [encode]
      rw [heq]
      rw [hb] at hfield ⊢
      rw [List.cons_append] at hfield ⊢
      simp only [parseFields, hfield, Option.bind_some, hrest, Option.map_some]

/-- **The round trip** of a sequence of fields. -/
theorem parse_encode {fs : List Field} (hfs : ∀ f ∈ fs, f.number ≠ 0) :
    parse (encode fs) = some fs := by
  refine parseFields_encode hfs ?_
  -- a field takes at least one byte
  clear hfs
  induction fs with
  | nil => simp
  | cons f fs ih =>
      have := List.length_pos_iff.mpr (encode_ne_nil f)
      simp only [encode, List.flatMap_cons, List.length_append, List.length_cons] at ih ⊢
      omega

/-! ## The fields of a message

A scalar field with the default value is left out. Of several occurrences
the last counts, and of a repeated field all do. -/

/-- The last value of a field. -/
def lastOf (number : Nat) (fs : List Field) : Option Value :=
  ((fs.filter (·.number = number)).getLast?).map Field.value

/-- All values of a field, in order. -/
def allOf (number : Nat) (fs : List Field) : List Value :=
  (fs.filter (·.number = number)).map Field.value

def bytesField (number : Nat) (bs : Bytes) : List Field :=
  if bs = [] then [] else [⟨number, .len bs⟩]

def getBytes (number : Nat) (fs : List Field) : Option Bytes :=
  match lastOf number fs with
  | none => some []
  | some (.len bs) => some bs
  | some (.varint _) => none

def utf8 (s : String) : Bytes := s.toUTF8.data.toList

def stringField (number : Nat) (s : String) : List Field := bytesField number (utf8 s)

def getString (number : Nat) (fs : List Field) : Option String :=
  (getBytes number fs).bind fun bs => String.fromUTF8? ⟨bs.toArray⟩

def uint32Field (number : Nat) (n : UInt32) : List Field :=
  if n = 0 then [] else [⟨number, .varint n.toNat⟩]

def getUint32 (number : Nat) (fs : List Field) : Option UInt32 :=
  match lastOf number fs with
  | none => some 0
  | some (.varint n) => some n.toUInt32
  | some (.len _) => none

theorem fromUTF8_utf8 (s : String) : String.fromUTF8? ⟨(utf8 s).toArray⟩ = some s := by
  have h : (⟨(utf8 s).toArray⟩ : ByteArray) = s.toUTF8 := by
    simp [utf8, Array.toArray_toList]
  have hvalid : s.toUTF8.IsValidUTF8 := s.isValidUTF8
  rw [h, String.fromUTF8?, dif_pos hvalid]
  rfl

section

variable {number : Nat} {fs gs : List Field}

/-- Fields with other numbers do not matter. -/
theorem lastOf_append_left (h : ∀ g ∈ gs, g.number ≠ number) :
    lastOf number (fs ++ gs) = lastOf number fs := by
  have : gs.filter (·.number = number) = [] := by simpa using h
  simp [lastOf, this]

theorem lastOf_append_right (h : ∀ f ∈ fs, f.number ≠ number) :
    lastOf number (fs ++ gs) = lastOf number gs := by
  have : fs.filter (·.number = number) = [] := by simpa using h
  simp [lastOf, this]

theorem mem_bytesField {f : Field} {bs : Bytes} (h : f ∈ bytesField number bs) :
    f.number = number := by
  unfold bytesField at h
  split at h
  · cases h
  · exact List.mem_singleton.mp h ▸ rfl

theorem mem_uint32Field {f : Field} {n : UInt32} (h : f ∈ uint32Field number n) :
    f.number = number := by
  unfold uint32Field at h
  split at h
  · cases h
  · exact List.mem_singleton.mp h ▸ rfl

theorem lastOf_bytesField (bs : Bytes) :
    lastOf number (bytesField number bs) = if bs = [] then none else some (.len bs) := by
  unfold bytesField
  split <;> simp [lastOf]

theorem lastOf_uint32Field (n : UInt32) :
    lastOf number (uint32Field number n) = if n = 0 then none else some (.varint n.toNat) := by
  unfold uint32Field
  split <;> simp [lastOf]

theorem getBytes_of_lastOf {bs : Bytes}
    (h : lastOf number fs = if bs = [] then none else some (.len bs)) :
    getBytes number fs = some bs := by
  unfold getBytes
  rw [h]
  by_cases hbs : bs = [] <;> simp [hbs]

theorem getString_of_lastOf {s : String}
    (h : lastOf number fs = if utf8 s = [] then none else some (.len (utf8 s))) :
    getString number fs = some s := by
  rw [getString, getBytes_of_lastOf h, Option.bind_some, fromUTF8_utf8]

theorem getUint32_of_lastOf {n : UInt32}
    (h : lastOf number fs = if n = 0 then none else some (.varint n.toNat)) :
    getUint32 number fs = some n := by
  unfold getUint32
  rw [h]
  by_cases hn : n = 0 <;> simp [hn]

end

end Reactor.Proto3
