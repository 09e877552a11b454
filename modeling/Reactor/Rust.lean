import Mathlib.Data.Finmap
import Mathlib.Data.List.Sort

/-!
# The parts of Rust's standard library the models stand on

A hash map is a finite map and a hash set a finite set; neither has an
order. A loop over one visits its elements in *some* order, which the
program can neither choose nor predict. `Iter α` is that choice made
explicit: an enumeration of every finite set, with the proof that it
lists each element once. A function that loops over a map takes an
`Iter`, and what is proved for every `Iter` is proved for every order.
-/

namespace Reactor

/-! ## Maps and sets -/

/-- A hash map. -/
abbrev HashMap (K V : Type) := Finmap fun _ : K => V

/-- One way to enumerate finite sets, each element once. -/
structure Iter (α : Type) [DecidableEq α] where
  order : Finset α → List α
  nodup : ∀ s, (order s).Nodup
  toFinset : ∀ s, (order s).toFinset = s

namespace Iter

variable {α : Type} [DecidableEq α]

@[simp] theorem mem_order (it : Iter α) {s : Finset α} {a : α} :
    a ∈ it.order s ↔ a ∈ s := by
  rw [← List.mem_toFinset, it.toFinset]

@[simp] theorem length_order (it : Iter α) {s : Finset α} : (it.order s).length = s.card := by
  rw [← List.toFinset_card_of_nodup (it.nodup s), it.toFinset]

/-- The enumeration in increasing order. -/
def sorted (α : Type) [DecidableEq α] [LinearOrder α] : Iter α where
  order s := Quotient.liftOn s.val (List.insertionSort (· ≤ ·)) fun l l' h =>
    List.Perm.eq_of_pairwise' (List.pairwise_insertionSort (· ≤ ·) l)
      (List.pairwise_insertionSort (· ≤ ·) l')
      ((List.perm_insertionSort (· ≤ ·) l).trans
        (h.trans (List.perm_insertionSort (· ≤ ·) l').symm))
  nodup := by
    rintro ⟨⟨l⟩, hl⟩
    exact (List.perm_insertionSort (· ≤ ·) l).nodup_iff.mpr hl
  toFinset := by
    rintro ⟨⟨l⟩, hl⟩
    refine Finset.ext fun a => ?_
    exact List.mem_toFinset.trans (List.mem_insertionSort (· ≤ ·))

/-- The enumeration with one element put first. -/
def first (a : α) (it : Iter α) : Iter α where
  order s := if a ∈ s then a :: (it.order s).erase a else it.order s
  nodup s := by
    split
    · exact List.nodup_cons.mpr ⟨(it.nodup s).not_mem_erase, (it.nodup s).erase a⟩
    · exact it.nodup s
  toFinset s := by
    ext b
    split
    · next ha =>
        rw [List.mem_toFinset, List.mem_cons, (it.nodup s).mem_erase_iff, mem_order]
        by_cases hb : b = a
        · simp [hb, ha]
        · simp [hb]
    · rw [it.toFinset]

theorem first_order {a : α} (it : Iter α) {s : Finset α} (ha : a ∈ s) :
    (it.first a).order s = a :: (it.order s).erase a := if_pos ha

end Iter

/-! ## Channels -/

/-- How a channel looks to a sender that does not want to wait: with room
(or unbounded), bounded and full, or with no receiver left. -/
inductive Channel
  | vacant
  | full
  | disconnected
deriving DecidableEq, Repr

inductive TrySendError (α : Type)
  | full (a : α)
  | disconnected (a : α)
deriving DecidableEq, Repr

/-- Sends without waiting. -/
def Channel.trySend {α : Type} : Channel → α → Except (TrySendError α) Unit
  | vacant, _ => .ok ()
  | full, a => .error (.full a)
  | disconnected, a => .error (.disconnected a)

/-! ## Network addresses -/

/-- An IPv4 or IPv6 address. -/
inductive IpAddr
  | v4 (bits : BitVec 32)
  | v6 (bits : BitVec 128)
deriving DecidableEq, Repr

/-- An address and a port. -/
structure SocketAddr where
  ip : IpAddr
  port : UInt16
deriving DecidableEq, Repr

/-- 127.0.0.1. -/
def IpAddr.localhost : IpAddr := .v4 0x7f000001

end Reactor
