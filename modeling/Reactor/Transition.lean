import Mathlib.Data.List.Induction
import Mathlib.Logic.Relation

/-!
# Transition systems with labelled nondeterminism

A system whose every choice (who moves next, what the environment does,
in which order a map is iterated) sits in the label, so that a step is a
partial *function* of the state and the label. Two things follow:

- a run is a list of labels, and `exec` replays it, so a concrete run is
  evaluated and not argued about (`run_iff`);
- an invariant needs one step lemma, which `Run.invariant` lifts to runs.

Runs carry a *guard*: `Run S G as s` says that the labels `as` lead from
the initial state to `s` and that each of them, at the state it was taken
from, satisfied `G`. With the trivial guard these are all runs of the
system; with another one they are the runs that respect an assumption on
the environment. `Run.strengthen` puts an invariant already proved into
the guard, and `Run.refines` takes a run over to an abstract relation.
-/

namespace Reactor

/-- A transition system: an initial state, and for each state and label
the state after that step, or `none` when the step is not enabled. -/
structure System (σ α : Type*) where
  init : σ
  step : σ → α → Option σ

namespace System

variable {σ α : Type*} {S : System σ α} {G : σ → α → Prop}

/-- The guard every step satisfies. -/
def Any : σ → α → Prop := fun _ _ => True

instance (s : σ) (a : α) : Decidable (Any s a) := inferInstanceAs (Decidable True)

/-- `Run S G as s`: the labels `as` lead from the initial state to `s`,
and every step satisfied `G` at the state it was taken from. -/
inductive Run (S : System σ α) (G : σ → α → Prop) : List α → σ → Prop
  | nil : Run S G [] S.init
  | snoc {as : List α} {s s' : σ} {a : α} :
      Run S G as s → G s a → S.step s a = some s' → Run S G (as ++ [a]) s'

/-- The last step of a run. -/
theorem Run.unsnoc {as : List α} {a : α} {s' : σ} (h : S.Run G (as ++ [a]) s') :
    ∃ s, S.Run G as s ∧ G s a ∧ S.step s a = some s' := by
  generalize hbs : as ++ [a] = bs at h
  cases h with
  | nil => simp at hbs
  | snoc h hg hs =>
      obtain ⟨rfl, rfl⟩ := List.append_singleton_inj.mp hbs
      exact ⟨_, h, hg, hs⟩

/-- The labels determine where a run ends. -/
theorem Run.unique {H : σ → α → Prop} {as : List α} {s t : σ} (h : S.Run G as s)
    (h' : S.Run H as t) : s = t := by
  induction h generalizing t with
  | nil =>
      generalize hbs : ([] : List α) = bs at h'
      cases h' with
      | nil => rfl
      | snoc => simp at hbs
  | snoc _ _ hs ih =>
      obtain ⟨s₁, h₁, -, hs₁⟩ := h'.unsnoc
      rw [ih h₁, hs₁] at hs
      exact (Option.some.inj hs).symm

theorem Run.weaken {H : σ → α → Prop} (hGH : ∀ s a, G s a → H s a)
    {as : List α} {s : σ} (h : S.Run G as s) : S.Run H as s := by
  induction h with
  | nil => exact .nil
  | snoc _ hg hs ih => exact .snoc ih (hGH _ _ hg) hs

/-- **The invariant rule.** What holds initially and survives every
guarded step holds at the end of every guarded run. -/
theorem Run.invariant {as : List α} {s : σ} (h : S.Run G as s) (P : σ → Prop)
    (hinit : P S.init)
    (hstep : ∀ s a s', P s → G s a → S.step s a = some s' → P s') : P s := by
  induction h with
  | nil => exact hinit
  | snoc _ hg hs ih => exact hstep _ _ _ ih hg hs

/-- Whatever comes first in a guarded run is one. -/
theorem Run.of_prefix {as bs : List α} {s : σ} (h : S.Run G as s) (hpre : bs <+: as) :
    ∃ t, S.Run G bs t := by
  induction h with
  | nil =>
      obtain rfl := List.prefix_nil.mp hpre
      exact ⟨_, .nil⟩
  | snoc h hg hs ih =>
      rcases List.prefix_concat_iff.mp hpre with rfl | hpre
      · exact ⟨_, .snoc h hg hs⟩
      · exact ih hpre

/-- **Exactness of a guard.** When `P` holds at the end of every guarded
run and fails after the first step the guard excludes, a run is guarded if
and only if `P` holds all along it. -/
theorem Run.guarded_iff {P : List α → σ → Prop} (hP : ∀ as s, S.Run G as s → P as s)
    (hbreak : ∀ as s a s', S.Run G as s → ¬G s a → S.step s a = some s' → ¬P (as ++ [a]) s')
    {as : List α} {s : σ} (h : S.Run Any as s) :
    S.Run G as s ↔ ∀ bs t, bs <+: as → S.Run Any bs t → P bs t := by
  constructor
  · intro hG bs t hpre ht
    obtain ⟨t', ht'⟩ := hG.of_prefix hpre
    exact ht.unique ht' ▸ hP bs t' ht'
  · intro hall
    induction h with
    | nil => exact .nil
    | @snoc as s s' a h _ hs ih =>
        have hG := ih fun bs t hpre => hall bs t (hpre.trans (List.prefix_append as [a]))
        refine .snoc hG ?_ hs
        by_contra hg
        exact hbreak as s a s' hG hg hs (hall _ s' (List.prefix_refl _) (.snoc h trivial hs))

/-- What holds in every state a guarded run reaches may be assumed by the
guard. -/
theorem Run.strengthen {P : σ → Prop} (hP : ∀ as s, S.Run G as s → P s)
    {as : List α} {s : σ} (h : S.Run G as s) :
    S.Run (fun s a => G s a ∧ P s) as s := by
  induction h with
  | nil => exact .nil
  | snoc h hg hs ih => exact .snoc ih ⟨hg, hP _ _ h⟩ hs

/-- **Refinement.** When every guarded step is, seen through `view`, a step
of `R` or none at all, a run becomes a path of `R`. What is known of the
path so far may be used for its next step, beside an invariant `P` of the
system itself. -/
theorem Run.refines {τ : Type*} {R : τ → τ → Prop} {as : List α} {s : σ} (h : S.Run G as s)
    (view : σ → τ) (P : σ → Prop) (hinit : P S.init)
    (hstep : ∀ s a s', P s → Relation.ReflTransGen R (view S.init) (view s) → G s a →
      S.step s a = some s' → P s' ∧ (view s' = view s ∨ R (view s) (view s'))) :
    P s ∧ Relation.ReflTransGen R (view S.init) (view s) := by
  induction h with
  | nil => exact ⟨hinit, .refl⟩
  | snoc _ hg hs ih =>
      obtain ⟨hP, hstutter | hR⟩ := hstep _ _ _ ih.1 ih.2 hg hs
      · exact ⟨hP, hstutter ▸ ih.2⟩
      · exact ⟨hP, ih.2.tail hR⟩

/-! ## Runs in parts -/

/-- The system started in another state. -/
def startAt (S : System σ α) (s : σ) : System σ α := ⟨s, S.step⟩

theorem run_append {as bs : List α} {t : σ} :
    S.Run G (as ++ bs) t ↔ ∃ s, S.Run G as s ∧ (S.startAt s).Run G bs t := by
  induction bs using List.reverseRecOn generalizing t with
  | nil =>
      rw [List.append_nil]
      refine ⟨fun h => ⟨t, h, .nil⟩, fun ⟨s, h, hnil⟩ => ?_⟩
      obtain rfl : s = t := (Run.nil (S := S.startAt s) (G := G)).unique hnil
      exact h
  | append_singleton bs b ih =>
      rw [← List.append_assoc]
      constructor
      · intro h
        obtain ⟨s₁, h₁, hg, hs⟩ := h.unsnoc
        obtain ⟨s, has, hbs⟩ := ih.mp h₁
        exact ⟨s, has, .snoc hbs hg hs⟩
      · rintro ⟨s, has, h⟩
        obtain ⟨s₁, h₁, hg, hs⟩ := h.unsnoc
        exact .snoc (ih.mpr ⟨s, has, h₁⟩) hg hs

theorem run_cons {a : α} {as : List α} {t : σ} :
    S.Run G (a :: as) t ↔
      G S.init a ∧ ∃ s, S.step S.init a = some s ∧ (S.startAt s).Run G as t := by
  rw [← List.singleton_append, run_append]
  constructor
  · rintro ⟨s, h, hrest⟩
    obtain ⟨s₀, h₀, hg, hs⟩ := @Run.unsnoc _ _ _ _ [] _ _ h
    obtain rfl := (Run.nil (G := G)).unique h₀
    exact ⟨hg, s, hs, hrest⟩
  · rintro ⟨hg, s, hs, hrest⟩
    exact ⟨s, @Run.snoc _ _ _ _ [] _ _ _ .nil hg hs, hrest⟩

/-! ## What a run gives out -/

section Outputs

variable {β : Type*} (emit : σ → α → List β)

/-- What the steps of a run give out, in order. -/
def outputs (S : System σ α) : σ → List α → List β
  | _, [] => []
  | s, a :: as => emit s a ++ ((S.step s a).map fun s' => outputs S s' as).getD []

variable {emit}

theorem outputs_cons {s s' : σ} {a : α} (hs : S.step s a = some s') (as : List α) :
    S.outputs emit s (a :: as) = emit s a ++ S.outputs emit s' as := by
  rw [outputs, hs]
  rfl

theorem outputs_append {as : List α} {s₀ s : σ} (h : (S.startAt s₀).Run G as s) (bs : List α) :
    S.outputs emit s₀ (as ++ bs) = S.outputs emit s₀ as ++ S.outputs emit s bs := by
  induction as generalizing s₀ with
  | nil =>
      obtain rfl : s₀ = s := (Run.nil (S := S.startAt s₀) (G := G)).unique h
      rfl
  | cons a as ih =>
      obtain ⟨-, s₁, hs, hrest⟩ := run_cons.mp h
      have hs : S.step s₀ a = some s₁ := hs
      rw [List.cons_append, outputs_cons hs, outputs_cons hs, ih hrest, List.append_assoc]

theorem outputs_concat {as : List α} {s₀ s : σ} (h : (S.startAt s₀).Run G as s) (a : α) :
    S.outputs emit s₀ (as ++ [a]) = S.outputs emit s₀ as ++ emit s a := by
  rw [outputs_append h]
  cases hs : S.step s a <;> simp [outputs, hs]

theorem Run.outputs_snoc {as : List α} {s : σ} (h : S.Run G as s) (a : α) :
    S.outputs emit S.init (as ++ [a]) = S.outputs emit S.init as ++ emit s a :=
  outputs_concat h a

end Outputs

/-! ## Replaying a run -/

/-- Replays a list of labels from a state, checking the guard. -/
def exec (S : System σ α) (G : σ → α → Prop) [∀ s a, Decidable (G s a)] :
    σ → List α → Option σ
  | s, [] => some s
  | s, a :: as => if G s a then (S.step s a).bind fun s' => exec S G s' as else none

variable [∀ s a, Decidable (G s a)]

theorem exec_append (s : σ) (as bs : List α) :
    S.exec G s (as ++ bs) = (S.exec G s as).bind fun s' => S.exec G s' bs := by
  induction as generalizing s with
  | nil => rfl
  | cons a as ih =>
      simp only [List.cons_append, exec]
      split
      · rw [Option.bind_assoc]
        exact congrArg _ (funext fun s' => ih s')
      · rfl

theorem exec_singleton {s s' : σ} {a : α} :
    S.exec G s [a] = some s' ↔ G s a ∧ S.step s a = some s' := by
  simp only [exec]
  split <;> simp_all

/-- The guarded runs are what `exec` computes. -/
theorem run_iff {as : List α} {s : σ} :
    S.Run G as s ↔ S.exec G S.init as = some s := by
  constructor
  · intro h
    induction h with
    | nil => rfl
    | snoc _ hg hs ih => simp [exec_append, ih, exec_singleton.mpr ⟨hg, hs⟩]
  · intro h
    induction as using List.reverseRecOn generalizing s with
    | nil =>
        obtain rfl := Option.some.inj h
        exact .nil
    | append_singleton as a ih =>
        rw [exec_append] at h
        obtain ⟨s₁, h₁, h₂⟩ := Option.bind_eq_some_iff.mp h
        obtain ⟨hg, hs⟩ := exec_singleton.mp h₂
        exact .snoc (ih h₁) hg hs

end System

end Reactor
