import Mathlib.Data.Fintype.Card
import Mathlib.Logic.Relation

/-!
# Relations without cycles

Whether a relation that changes over time, such as who waits for whom,
stays free of cycles. Taking pairs away is always safe (`Acyclic.mono`);
one more pair is as long as no path leads back along it (`Acyclic.insert`).
On a cycle nobody is at the end, so only pairs that can be gone on from
count (`Acyclic.of_goOn`). Among finitely many, every path comes to an end
(`Acyclic.exists_end`).
-/

namespace Reactor

open Relation

variable {ι : Type*} {r s : ι → ι → Prop}

/-- No path leads back to where it started. -/
def Acyclic (r : ι → ι → Prop) : Prop := ∀ x, ¬TransGen r x x

theorem acyclic_of_empty (h : ∀ x y, ¬r x y) : Acyclic r := fun x hx => by
  obtain ⟨y, hxy, -⟩ := TransGen.head'_iff.mp hx
  exact h x y hxy

theorem Acyclic.mono (h : Acyclic s) (hrs : ∀ x y, r x y → s x y) : Acyclic r :=
  fun x hx => h x (TransGen.mono hrs x x hx)

/-- A path in a relation with one more pair either does without it, or
comes to its start, and the last time it was used, went on from its end. -/
theorem path_insert {a b x y : ι} (hsr : ∀ x y, s x y → r x y ∨ x = a ∧ y = b)
    (h : TransGen s x y) : TransGen r x y ∨ ReflTransGen r x a ∧ ReflTransGen r b y := by
  induction h with
  | single hxy =>
      rcases hsr _ _ hxy with hxy | ⟨rfl, rfl⟩
      · exact .inl (.single hxy)
      · exact .inr ⟨.refl, .refl⟩
  | tail _ hyz ih =>
      rcases hsr _ _ hyz with hyz | ⟨rfl, rfl⟩
      · exact ih.imp (·.tail hyz) (.imp id (·.tail hyz))
      · rcases ih with ih | ⟨hx, -⟩
        · exact .inr ⟨ih.to_reflTransGen, .refl⟩
        · exact .inr ⟨hx, .refl⟩

/-- **One more pair.** -/
theorem Acyclic.insert {a b : ι} (h : Acyclic r) (hsr : ∀ x y, s x y → r x y ∨ x = a ∧ y = b)
    (hback : ¬ReflTransGen r b a) : Acyclic s := fun x hx => by
  rcases path_insert hsr hx with hx | ⟨hxa, hbx⟩
  · exact h x hx
  · exact hback (hbx.trans hxa)

/-- A path, and one pair more, in the pairs that can be gone on from. -/
theorem path_goOn {x y z : ι} (h : TransGen r x y) (hyz : r y z) :
    TransGen (fun a b => r a b ∧ ∃ c, r b c) x y := by
  induction h generalizing z with
  | single hxy => exact .single ⟨hxy, z, hyz⟩
  | tail _ hbc ih => exact .tail (ih hbc) ⟨hbc, z, hyz⟩

/-- **No end to a cycle.** -/
theorem Acyclic.of_goOn (h : Acyclic s) (hrs : ∀ x y z, r x y → r y z → s x y) : Acyclic r :=
  fun x hx => by
    obtain ⟨y, hxy, -⟩ := TransGen.head'_iff.mp hx
    exact h x (TransGen.mono (fun a b ⟨hab, c, hbc⟩ => hrs a b c hab hbc) x x (path_goOn hx hxy))

theorem Acyclic.wellFounded [Finite ι] (h : Acyclic r) :
    WellFounded fun y x => TransGen r x y := by
  have : IsTrans ι fun y x => TransGen r x y := ⟨fun _ _ _ hba hcb => hcb.trans hba⟩
  have : Std.Irrefl fun y x => TransGen r x y := ⟨h⟩
  exact Finite.wellFounded_of_trans_of_irrefl _

/-- **The end of a path.** -/
theorem Acyclic.exists_end [Finite ι] (h : Acyclic r) (x : ι) :
    ∃ y, ReflTransGen r x y ∧ ∀ z, ¬r y z := by
  induction x using h.wellFounded.induction with
  | h x ih =>
      by_cases hend : ∀ z, ¬r x z
      · exact ⟨x, .refl, hend⟩
      · push Not at hend
        obtain ⟨z, hxz⟩ := hend
        obtain ⟨y, hzy, hy⟩ := ih z (.single hxz)
        exact ⟨y, .head hxz hzy, hy⟩

end Reactor
