import Mathlib.Data.List.Induction

/-!
# Machines

A loop that takes one input after the other and never waits for anything
else: each input takes the state to the next one and makes the loop give
something out. `run` is the loop, `answers` what each input was answered
with, and `run_outputs` says that the two agree.

**`run_iff_lastOn`**: what is switched on by some inputs and off by others
holds after a list of inputs exactly when the last of these switched it
on.
-/

namespace Reactor

/-- What an input does to the state, and what it gives out. -/
abbrev Machine (σ α β : Type*) := σ → α → σ × List β

namespace Machine

variable {σ α β : Type*} (M : Machine σ α β)

/-- The state after the inputs, and everything given out by then. -/
def run (s : σ) (as : List α) : σ × List β :=
  as.foldl (fun r a => ((M r.1 a).1, r.2 ++ (M r.1 a).2)) (s, [])

/-- What is given out, input by input. -/
def answers (s : σ) (as : List α) : List (List β) :=
  as.mapIdx fun i a => (M (M.run s (as.take i)).1 a).2

variable {M} {s : σ}

@[simp] theorem run_nil : M.run s [] = (s, []) := rfl

theorem run_snoc (as : List α) (a : α) :
    M.run s (as ++ [a]) =
      ((M (M.run s as).1 a).1, (M.run s as).2 ++ (M (M.run s as).1 a).2) := by
  simp [run, List.foldl_append]

@[simp] theorem length_answers (as : List α) : (M.answers s as).length = as.length :=
  List.length_mapIdx

theorem answers_snoc (as : List α) (a : α) :
    M.answers s (as ++ [a]) = M.answers s as ++ [(M (M.run s as).1 a).2] := by
  rw [answers, List.mapIdx_append, answers]
  congr 1
  · refine List.mapIdx_eq_mapIdx_iff.mpr fun i hi => ?_
    rw [List.take_append_of_le_length (by omega)]
  · simp

theorem getElem?_answers {as : List α} {i : Nat} {a : α} (ha : as[i]? = some a) :
    (M.answers s as)[i]? = some (M (M.run s (as.take i)).1 a).2 := by
  rw [answers, List.getElem?_mapIdx, ha, Option.map_some]

/-- What is given out comes in the order of the inputs. -/
theorem run_outputs (as : List α) : (M.run s as).2 = (M.answers s as).flatten := by
  induction as using List.reverseRecOn with
  | nil => rfl
  | append_singleton as a ih => simp [run_snoc, answers_snoc, ih]

end Machine

/-! ## The last word -/

section LastOn

variable {α : Type*} {on off : α → Prop} {as : List α} {a : α}

/-- The last of the inputs that switch something on or off switches it on. -/
def LastOn (on off : α → Prop) (as : List α) : Prop :=
  ∃ before a after, as = before ++ a :: after ∧ on a ∧ ∀ b ∈ after, ¬on b ∧ ¬off b

theorem not_lastOn_nil : ¬LastOn on off [] := by
  rintro ⟨before, a, after, h, -⟩
  simp at h

theorem lastOn_snoc : LastOn on off (as ++ [a]) ↔ on a ∨ ¬off a ∧ LastOn on off as := by
  constructor
  · rintro ⟨before, b, after, h, hb, hafter⟩
    rcases List.eq_nil_or_concat after with rfl | ⟨after, c, rfl⟩
    · obtain ⟨rfl, rfl⟩ := List.append_singleton_inj.mp h
      exact .inl hb
    · rw [List.concat_eq_append, ← List.cons_append, ← List.append_assoc] at h
      obtain ⟨rfl, rfl⟩ := List.append_singleton_inj.mp h
      have hlast := hafter a (by simp)
      exact .inr ⟨hlast.2, before, b, after, rfl, hb, fun d hd => hafter d (by simp [hd])⟩
  · intro h
    by_cases ha : on a
    · exact ⟨as, a, [], rfl, ha, fun b hb => absurd hb List.not_mem_nil⟩
    · obtain ⟨hoff, before, b, after, rfl, hb, hafter⟩ := h.resolve_left ha
      refine ⟨before, b, after ++ [a], by simp, hb, fun c hc => ?_⟩
      rcases List.mem_append.mp hc with hc | hc
      · exact hafter c hc
      · obtain rfl := List.mem_singleton.mp hc
        exact ⟨ha, hoff⟩

/-- Switched off, it is off until it is switched on again. -/
theorem not_lastOn_of_off {before after : List α} (hon : ¬on a) (hoff : off a)
    (hafter : ∀ b ∈ after, ¬on b) : ¬LastOn on off (before ++ a :: after) := by
  induction after using List.reverseRecOn with
  | nil => simp [lastOn_snoc, hon, hoff]
  | append_singleton after b ih =>
      rw [← List.cons_append, ← List.append_assoc, lastOn_snoc, not_or, not_and]
      exact ⟨hafter b (by simp), fun _ => ih fun c hc => hafter c (by simp [hc])⟩

/-- **The last word.** What each input switches on, switches off or leaves
alone holds after a list of inputs exactly when the last word is that it
does. -/
theorem Machine.run_iff_lastOn {σ β : Type*} {M : Machine σ α β} {s : σ} {P : σ → Prop}
    (hinit : ¬P s) (hstep : ∀ t a, P (M t a).1 ↔ on a ∨ ¬off a ∧ P t) :
    P (M.run s as).1 ↔ LastOn on off as := by
  induction as using List.reverseRecOn with
  | nil => exact iff_of_false hinit not_lastOn_nil
  | append_singleton as a ih => rw [run_snoc, hstep, ih, lastOn_snoc]

end LastOn

end Reactor
