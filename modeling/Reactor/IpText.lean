import Mathlib.Data.Nat.Digits.Defs
import Reactor.Rust

/-!
# Network addresses as text

`IpAddr` printed and parsed: an IPv4 address as four decimal numbers
separated by dots, an IPv6 address as eight hexadecimal ones separated by
colons, in full (the printed form does not shorten zeros to `::`).
`ofText_text` is the round trip; texts that `text` does not print are read
by rules of their own.
-/

namespace Reactor

/-! ## Numerals -/

def digitChar (d : Nat) : Char := "0123456789abcdef".toList.getD d '?'

def charDigit (c : Char) : Nat := "0123456789abcdef".toList.idxOf c

theorem charDigit_digitChar : ∀ d < 16, charDigit (digitChar d) = d := by decide

/-- A number in a base up to 16, without leading zeros. -/
def numeral (base n : Nat) : List Char :=
  if n = 0 then ['0'] else ((Nat.digits base n).map digitChar).reverse

/-- The number a numeral stands for. -/
def ofNumeral (base : Nat) (cs : List Char) : Nat :=
  Nat.ofDigits base (cs.reverse.map charDigit)

theorem ofNumeral_numeral {base : Nat} (hbase : 1 < base) (h16 : base ≤ 16) (n : Nat) :
    ofNumeral base (numeral base n) = n := by
  unfold numeral ofNumeral
  split
  · next h => subst h; simp [charDigit]
  · rw [List.reverse_reverse, List.map_map]
    have hmap : (Nat.digits base n).map (charDigit ∘ digitChar) = Nat.digits base n := by
      refine (List.map_congr_left fun d hd => ?_).trans (List.map_id _)
      exact charDigit_digitChar d ((Nat.digits_lt_base hbase hd).trans_le h16)
    rw [hmap, Nat.ofDigits_digits]

/-- Some digits of the base, and nothing else. -/
def IsNumeral (base : Nat) (cs : List Char) : Prop := cs ≠ [] ∧ ∀ c ∈ cs, charDigit c < base

instance (base : Nat) (cs : List Char) : Decidable (IsNumeral base cs) :=
  @instDecidableAnd _ _ _ (List.decidableBAll _ cs)

theorem mem_numeral {base n : Nat} (hbase : 1 < base) {c : Char} (hc : c ∈ numeral base n) :
    ∃ d < base, c = digitChar d := by
  unfold numeral at hc
  split at hc
  · exact ⟨0, by omega, List.mem_singleton.mp hc⟩
  · obtain ⟨d, hd, rfl⟩ := List.mem_map.mp (List.mem_reverse.mp hc)
    exact ⟨d, Nat.digits_lt_base hbase hd, rfl⟩

theorem isNumeral_numeral {base : Nat} (hbase : 1 < base) (h16 : base ≤ 16) (n : Nat) :
    IsNumeral base (numeral base n) := by
  constructor
  · unfold numeral
    split
    · simp
    · next h => simpa [Nat.digits_eq_nil_iff_eq_zero] using h
  · intro c hc
    obtain ⟨d, hd, rfl⟩ := mem_numeral hbase hc
    rwa [charDigit_digitChar d (hd.trans_le h16)]

/-! ## Groups -/

/-- The lowest `k` digits of a number in a large base, highest first. -/
def groups (base : Nat) : Nat → Nat → List Nat
  | 0, _ => []
  | k + 1, n => groups base k (n / base) ++ [n % base]

def ofGroups (base : Nat) (gs : List Nat) : Nat := gs.foldl (fun n g => n * base + g) 0

theorem ofGroups_groups {base : Nat} (hbase : 0 < base) : ∀ {k n : Nat}, n < base ^ k →
    ofGroups base (groups base k n) = n
  | 0, n, h => by
      obtain rfl : n = 0 := by simpa using h
      rfl
  | k + 1, n, h => by
      have hdiv : n / base < base ^ k := Nat.div_lt_of_lt_mul (by rwa [Nat.pow_succ'] at h)
      have ih := ofGroups_groups hbase hdiv
      rw [ofGroups] at ih ⊢
      rw [groups, List.foldl_append, ih, List.foldl_cons, List.foldl_nil]
      exact Nat.div_add_mod' n base

theorem length_groups (base : Nat) : ∀ k n : Nat, (groups base k n).length = k
  | 0, _ => rfl
  | k + 1, n => by simp [groups, length_groups base k]

theorem groups_lt {base : Nat} (hbase : 0 < base) :
    ∀ {k n g : Nat}, g ∈ groups base k n → g < base
  | k + 1, n, g, h => by
      rcases List.mem_append.mp h with h | h
      · exact groups_lt hbase h
      · exact List.mem_singleton.mp h ▸ Nat.mod_lt _ hbase

/-- The numerals of the groups, separated by a character. -/
def groupText (base : Nat) (sep : Char) (gs : List Nat) : List Char :=
  [sep].intercalate (gs.map (numeral base))

/-- `k` numerals of numbers below a bound, separated by a character. -/
def parseGroups (base bound k : Nat) (sep : Char) (cs : List Char) : Option (List Nat) :=
  let parts := cs.splitOn sep
  if parts.length = k ∧ ∀ p ∈ parts, IsNumeral base p ∧ ofNumeral base p < bound then
    some (parts.map (ofNumeral base))
  else none

section

variable {base bound : Nat} {sep : Char} (hbase : 1 < base)

include hbase

theorem parseGroups_groupText (h16 : base ≤ 16) (hsep : ∀ d < base, sep ≠ digitChar d)
    {gs : List Nat} (hne : gs ≠ []) (hlt : ∀ g ∈ gs, g < bound) :
    parseGroups base bound gs.length sep (groupText base sep gs) = some gs := by
  have hparts : (groupText base sep gs).splitOn sep = gs.map (numeral base) := by
    refine List.splitOn_intercalate sep (fun l hl hmem => ?_) (by simpa using hne)
    obtain ⟨g, -, rfl⟩ := List.mem_map.mp hl
    obtain ⟨d, hd, heq⟩ := mem_numeral hbase hmem
    exact hsep d hd heq
  have hmap : (gs.map (numeral base)).map (ofNumeral base) = gs := by
    rw [List.map_map]
    refine (List.map_congr_left fun g _ => ?_).trans (List.map_id _)
    exact ofNumeral_numeral hbase h16 g
  unfold parseGroups
  simp only [hparts, hmap]
  refine if_pos ⟨List.length_map _, fun p hp => ?_⟩
  obtain ⟨g, hg, rfl⟩ := List.mem_map.mp hp
  exact ⟨isNumeral_numeral hbase h16 g, by rw [ofNumeral_numeral hbase h16]; exact hlt g hg⟩

/-- The characters of a text are digits and separators. -/
theorem mem_groupText {c : Char} : ∀ {gs : List Nat}, c ∈ groupText base sep gs →
    c = sep ∨ ∃ d < base, c = digitChar d
  | [], h => by simp [groupText] at h
  | [g], h => .inr (mem_numeral hbase (by simpa [groupText, List.intercalate] using h))
  | g :: g' :: gs, h => by
      have h : c ∈ numeral base g ∨ c = sep ∨ c ∈ groupText base sep (g' :: gs) := by
        simpa [groupText, List.intercalate] using h
      rcases h with h | h | h
      · exact .inr (mem_numeral hbase h)
      · exact .inl h
      · exact mem_groupText h

end

/-! ## Addresses -/

/-- `Display for IpAddr`, IPv6 addresses in full. -/
def IpAddr.text : IpAddr → String
  | .v4 bits => .ofList (groupText 10 '.' (groups 256 4 bits.toNat))
  | .v6 bits => .ofList (groupText 16 ':' (groups 65536 8 bits.toNat))

/-- `FromStr for IpAddr`, on the forms that `text` prints. On others it is
not the standard library's: it knows no `::`, no upper case digits and no
IPv4 ending of an IPv6 address, and it lets leading zeros pass. -/
def IpAddr.ofText (s : String) : Option IpAddr :=
  match parseGroups 10 256 4 '.' s.toList with
  | some gs => some (.v4 (.ofNat 32 (ofGroups 256 gs)))
  | none =>
      (parseGroups 16 65536 8 ':' s.toList).map fun gs => .v6 (.ofNat 128 (ofGroups 65536 gs))

/-- **The round trip** of an address. -/
theorem IpAddr.ofText_text (ip : IpAddr) : ofText ip.text = some ip := by
  cases ip with
  | v4 bits =>
      have hparse : parseGroups 10 256 4 '.' (text (.v4 bits)).toList =
          some (groups 256 4 bits.toNat) := by
        rw [text, String.toList_ofList]
        exact length_groups 256 4 bits.toNat ▸ parseGroups_groupText (by decide) (by decide)
          (by decide) (by simp [groups]) fun g hg => groups_lt (by decide) hg
      have hgroups : ofGroups 256 (groups 256 4 bits.toNat) = bits.toNat :=
        ofGroups_groups (by decide) bits.isLt
      simp only [ofText, hparse]
      rw [hgroups, BitVec.ofNat_toNat, BitVec.setWidth_eq]
  | v6 bits =>
      have hlen := length_groups 65536 8 bits.toNat
      have hparse : parseGroups 16 65536 8 ':' (text (.v6 bits)).toList =
          some (groups 65536 8 bits.toNat) := by
        rw [text, String.toList_ofList]
        exact hlen ▸ parseGroups_groupText (by decide) (by decide) (by decide) (by simp [groups])
          fun g hg => groups_lt (by decide) hg
      -- no dots, so it is not four groups separated by them
      have hnot : parseGroups 10 256 4 '.' (text (.v6 bits)).toList = none := by
        have hdot : '.' ∉ (text (.v6 bits)).toList := by
          rw [text, String.toList_ofList]
          intro hmem
          rcases mem_groupText (by decide) hmem with h | ⟨d, hd, h⟩
          · cases h
          · revert d; decide
        simp [parseGroups, List.splitOn_eq_singleton hdot]
      have hgroups : ofGroups 65536 (groups 65536 8 bits.toNat) = bits.toNat :=
        ofGroups_groups (by decide) bits.isLt
      simp only [ofText, hnot, hparse, Option.map_some]
      rw [hgroups, BitVec.ofNat_toNat, BitVec.setWidth_eq]

end Reactor
