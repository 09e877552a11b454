import Mathlib.Data.Set.Insert
import Mathlib.Logic.Function.Basic
import Mathlib.Order.Lattice.Nat

/-!
# Programs as trees of calls

Code that talks to the outside world, as data: a `Program` either returns,
stops with a failure, or makes a *call* and goes on with the answer. The
outside world is not modelled here, so one definition of the code serves
every semantics it is given:

- `exec env` runs a program to its end against an environment that
  answers every call, and `calls env` lists the calls it makes;
- a transition system that interleaves several programs makes one call
  of one of them at a time, and keeps what is left of each in its state;
- `Follows` is the rule for reasoning about what is left of a program
  between two of its calls: a contract (which calls are allowed at which
  stage, and what stage an answer leads to) that the program obeys for
  every answer is obeyed by whatever is left of it. `Keeps` is the same
  for programs that do not stop, given answers of a certain kind;
- `Within` bounds the calls a program makes, and `left` is what a measure
  of its progress takes from that (`left_lt`);
- a program that makes no call twice (`Contract.once`) may have its calls
  answered by anyone as they come: what it has come to is what `exec`
  says of some environment (`Remains.answer`).
-/

namespace Reactor

/-- A program over the calls `Op`, answered in `Answer`, that may stop
with an `ε`. -/
inductive Program (Op : Type) (Answer : Op → Type) (ε α : Type) : Type
  | ret (a : α)
  | stop (e : ε)
  | call (o : Op) (k : Answer o → Program Op Answer ε α)

namespace Program

variable {Op : Type} {Answer : Op → Type} {ε α β : Type}

/-- Runs a program and goes on with what it returned. -/
def bind : Program Op Answer ε α → (α → Program Op Answer ε β) → Program Op Answer ε β
  | .ret a, f => f a
  | .stop e, _ => .stop e
  | .call o k, f => .call o fun r => (k r).bind f

instance : Monad (Program Op Answer ε) where
  pure := .ret
  bind := bind

/-- Makes one call. -/
def perform (o : Op) : Program Op Answer ε (Answer o) := .call o .ret

@[simp] theorem pure_eq (a : α) : (pure a : Program Op Answer ε α) = .ret a := rfl

@[simp] theorem ret_bind (a : α) (f : α → Program Op Answer ε β) :
    (Program.ret a : Program Op Answer ε α) >>= f = f a := rfl

@[simp] theorem stop_bind (e : ε) (f : α → Program Op Answer ε β) :
    (Program.stop e : Program Op Answer ε α) >>= f = .stop e := rfl

@[simp] theorem call_bind (o : Op) (k : Answer o → Program Op Answer ε α)
    (f : α → Program Op Answer ε β) :
    Program.call o k >>= f = .call o fun r => k r >>= f := rfl

@[simp] theorem perform_bind (o : Op) (f : Answer o → Program Op Answer ε β) :
    perform o >>= f = .call o f := rfl

/-! ## Running a program -/

/-- What a program comes to when `env` answers its calls. -/
def exec (env : ∀ o, Answer o) : Program Op Answer ε α → Except ε α
  | .ret a => .ok a
  | .stop e => .error e
  | .call o k => (k (env o)).exec env

/-- The calls it makes on the way. -/
def calls (env : ∀ o, Answer o) : Program Op Answer ε α → List Op
  | .ret _ => []
  | .stop _ => []
  | .call o k => o :: (k (env o)).calls env

section

variable (env : ∀ o, Answer o)

@[simp] theorem exec_ret (a : α) :
    (Program.ret a : Program Op Answer ε α).exec env = .ok a := rfl

@[simp] theorem exec_stop (e : ε) :
    (Program.stop e : Program Op Answer ε α).exec env = .error e := rfl

@[simp] theorem exec_call (o : Op) (k : Answer o → Program Op Answer ε α) :
    (Program.call o k).exec env = (k (env o)).exec env := rfl

@[simp] theorem calls_ret (a : α) :
    (Program.ret a : Program Op Answer ε α).calls env = [] := rfl

@[simp] theorem calls_stop (e : ε) :
    (Program.stop e : Program Op Answer ε α).calls env = [] := rfl

@[simp] theorem calls_call (o : Op) (k : Answer o → Program Op Answer ε α) :
    (Program.call o k).calls env = o :: (k (env o)).calls env := rfl

theorem exec_bind (p : Program Op Answer ε α) (f : α → Program Op Answer ε β) :
    (p >>= f).exec env = (p.exec env).bind fun a => (f a).exec env := by
  induction p with
  | ret a => rfl
  | stop e => rfl
  | call o k ih => exact ih (env o)

theorem exec_bind_eq_ok {p : Program Op Answer ε α} {f : α → Program Op Answer ε β} {b : β} :
    (p >>= f).exec env = .ok b ↔ ∃ a, p.exec env = .ok a ∧ (f a).exec env = .ok b := by
  rw [exec_bind]
  cases p.exec env with
  | ok a => simp [Except.bind]
  | error e => simp [Except.bind]

theorem exec_bind_ok {p : Program Op Answer ε α} {a : α} (h : p.exec env = .ok a)
    (f : α → Program Op Answer ε β) : (p >>= f).exec env = (f a).exec env := by
  rw [exec_bind, h]; rfl

theorem exec_bind_error {p : Program Op Answer ε α} {e : ε} (h : p.exec env = .error e)
    (f : α → Program Op Answer ε β) : (p >>= f).exec env = .error e := by
  rw [exec_bind, h]; rfl

theorem calls_bind_ok {p : Program Op Answer ε α} {a : α} (h : p.exec env = .ok a)
    (f : α → Program Op Answer ε β) :
    (p >>= f).calls env = p.calls env ++ (f a).calls env := by
  induction p with
  | ret b => obtain rfl := Except.ok.inj h; rfl
  | stop e => cases h
  | call o k ih => exact congrArg _ (ih (env o) h)

theorem calls_bind_error {p : Program Op Answer ε α} {e : ε} (h : p.exec env = .error e)
    (f : α → Program Op Answer ε β) : (p >>= f).calls env = p.calls env := by
  induction p with
  | ret b => cases h
  | stop e => rfl
  | call o k ih => exact congrArg _ (ih (env o) h)

end

/-! ## Failures with more to them -/

section Bimap

variable {ε' : Type} (g : ε → ε') (f : α → β)

/-- Changes what a program stops with and what it returns. -/
def bimap : Program Op Answer ε α → Program Op Answer ε' β
  | .ret a => .ret (f a)
  | .stop e => .stop (g e)
  | .call o k => .call o fun r => (k r).bimap

@[simp] theorem bimap_ret (a : α) :
    (Program.ret a : Program Op Answer ε α).bimap g f = .ret (f a) := rfl

@[simp] theorem bimap_stop (e : ε) :
    (Program.stop e : Program Op Answer ε α).bimap g f = .stop (g e) := rfl

@[simp] theorem bimap_call (o : Op) (k : Answer o → Program Op Answer ε α) :
    (Program.call o k).bimap g f = .call o fun r => (k r).bimap g f := rfl

theorem bimap_bind {γ : Type} (p : Program Op Answer ε α) (k : α → Program Op Answer ε γ)
    (f : γ → β) : (p >>= k).bimap g f = p.bimap g id >>= fun a => (k a).bimap g f := by
  induction p with
  | ret a => rfl
  | stop e => rfl
  | call o k ih => exact congrArg _ (funext ih)

theorem bind_bimap {γ : Type} (p : Program Op Answer ε α) (k : β → Program Op Answer ε' γ) :
    p.bimap g f >>= k = p.bimap g id >>= fun a => k (f a) := by
  induction p with
  | ret a => rfl
  | stop e => rfl
  | call o k ih => exact congrArg _ (funext ih)

theorem bimap_bimap {ε'' γ : Type} (p : Program Op Answer ε α) (g' : ε' → ε'') (f' : β → γ) :
    (p.bimap g f).bimap g' f' = p.bimap (g' ∘ g) (f' ∘ f) := by
  induction p with
  | ret a => rfl
  | stop e => rfl
  | call o k ih => exact congrArg _ (funext ih)

theorem id_bimap (p : Program Op Answer ε α) : p.bimap id id = p := by
  induction p with
  | ret a => rfl
  | stop e => rfl
  | call o k ih => exact congrArg _ (funext ih)

theorem exec_bimap (env : ∀ o, Answer o) (p : Program Op Answer ε α) :
    (p.bimap g f).exec env = ((p.exec env).mapError g).map f := by
  induction p with
  | ret a => rfl
  | stop e => rfl
  | call o k ih => exact ih (env o)

theorem calls_bimap (env : ∀ o, Answer o) (p : Program Op Answer ε α) :
    (p.bimap g f).calls env = p.calls env := by
  induction p with
  | ret a => rfl
  | stop e => rfl
  | call o k ih => exact congrArg _ (ih (env o))

end Bimap

/-! ## Contracts -/

/-- What is asked of a program at each stage `σ` of its run. -/
structure Contract (Op : Type) (Answer : Op → Type) (α σ : Type) where
  allows : σ → Op → Prop
  next : σ → ∀ o, Answer o → σ
  returns : σ → α → Prop

/-- The program keeps the contract from stage `s` on, whatever the
answers to its calls. -/
def Follows {σ : Type} (C : Contract Op Answer α σ) : Program Op Answer ε α → σ → Prop
  | .ret a, s => C.returns s a
  | .stop _, _ => True
  | .call o k, s => C.allows s o ∧ ∀ r, (k r).Follows C (C.next s o r)

section

variable {σ : Type} {C : Contract Op Answer α σ} {s : σ}

@[simp] theorem follows_ret {a : α} :
    (Program.ret a : Program Op Answer ε α).Follows C s ↔ C.returns s a := Iff.rfl

@[simp] theorem follows_stop {e : ε} :
    (Program.stop e : Program Op Answer ε α).Follows C s ↔ True := Iff.rfl

@[simp] theorem follows_call {o : Op} {k : Answer o → Program Op Answer ε α} :
    (Program.call o k).Follows C s ↔ C.allows s o ∧ ∀ r, (k r).Follows C (C.next s o r) :=
  Iff.rfl

@[simp] theorem follows_ite {c : Prop} [Decidable c] {p q : Program Op Answer ε α} :
    (if c then p else q).Follows C s ↔ if c then p.Follows C s else q.Follows C s := by
  split <;> rfl

/-- Sequencing: the first part keeps the contract up to a stage from which
the second does. -/
theorem Follows.bind {D : Contract Op Answer β σ} {p : Program Op Answer ε β}
    {f : β → Program Op Answer ε α} (h : p.Follows D s)
    (hallows : ∀ s o, D.allows s o → C.allows s o) (hnext : D.next = C.next)
    (hf : ∀ s b, D.returns s b → (f b).Follows C s) : (p >>= f).Follows C s := by
  induction p generalizing s with
  | ret b => exact hf s b h
  | stop e => trivial
  | call o k ih => exact ⟨hallows s o h.1, fun r => hnext ▸ ih r (h.2 r)⟩

/-- What comes back is what the contract lets return. -/
theorem Follows.exec_ok {env : ∀ o, Answer o} {p : Program Op Answer ε α} {a : α}
    (h : p.Follows C s) (hp : p.exec env = .ok a) : ∃ s', C.returns s' a := by
  induction p generalizing s with
  | ret b => obtain rfl := Except.ok.inj hp; exact ⟨s, h⟩
  | stop e => cases hp
  | call o k ih => exact ih (env o) (h.2 (env o)) hp

/-- Every call made is one the contract allows. -/
theorem Follows.calls {env : ∀ o, Answer o} {p : Program Op Answer ε α} {o : Op}
    (h : p.Follows C s) (ho : o ∈ p.calls env) : ∃ s', C.allows s' o := by
  induction p generalizing s with
  | ret b => cases ho
  | stop e => cases ho
  | call o' k ih =>
      rcases List.mem_cons.mp ho with rfl | ho
      · exact ⟨s, h.1⟩
      · exact ih (env o') (h.2 (env o')) ho

/-- The program keeps the contract from stage `s` on and does not stop, as
long as `admits` holds of the answers to its calls. -/
def Keeps {σ : Type} (C : Contract Op Answer α σ) (admits : ∀ o, Answer o → Prop) :
    Program Op Answer ε α → σ → Prop
  | .ret a, s => C.returns s a
  | .stop _, _ => False
  | .call o k, s => C.allows s o ∧ ∀ r, admits o r → (k r).Keeps C admits (C.next s o r)

/-- A contract with a single stage: the calls that may be made at all, and
what may be returned. -/
def Contract.flat (allows : Op → Prop) (returns : α → Prop) : Contract Op Answer α Unit :=
  ⟨fun _ => allows, fun _ _ _ => (), fun _ => returns⟩

end

/-! ## How many calls -/

/-- No more than so many calls are made, whatever the answers. -/
def Within : Program Op Answer ε α → Nat → Prop
  | .ret _, _ => True
  | .stop _, _ => True
  | .call _ k, n => 0 < n ∧ ∀ r, (k r).Within (n - 1)

section

variable {p : Program Op Answer ε α} {m n : Nat} {o : Op}

@[simp] theorem within_ret {a : α} : (Program.ret a : Program Op Answer ε α).Within n := trivial

@[simp] theorem within_stop {e : ε} : (Program.stop e : Program Op Answer ε α).Within n := trivial

@[simp] theorem within_call {k : Answer o → Program Op Answer ε α} :
    (Program.call o k).Within (n + 1) ↔ ∀ r, (k r).Within n := by
  simp [Within]

theorem Within.mono (h : p.Within m) (hmn : m ≤ n) : p.Within n := by
  induction p generalizing m n with
  | ret a => trivial
  | stop e => trivial
  | call o k ih => exact ⟨by have := h.1; omega, fun r => ih r (h.2 r) (by omega)⟩

theorem Within.bind {q : Program Op Answer ε β} {f : β → Program Op Answer ε α}
    (h : q.Within m) (hf : ∀ b, (f b).Within n) : (q >>= f).Within (m + n) := by
  induction q generalizing m with
  | ret b => exact (hf b).mono (by omega)
  | stop e => trivial
  | call o k ih =>
      refine ⟨by have := h.1; omega, fun r => (ih r (h.2 r)).mono ?_⟩
      have := h.1
      omega

/-- How many calls are left at most, of a program with such a number. -/
noncomputable def left (p : Program Op Answer ε α) : Nat := sInf {n | p.Within n}

/-- Each call is one less left. -/
theorem left_lt {k : Answer o → Program Op Answer ε α} (h : ∃ n, (Program.call o k).Within n)
    (r : Answer o) : (k r).left < (Program.call o k).left := by
  have hleft : (Program.call o k).Within (Program.call o k).left := Nat.sInf_mem h
  have hle : (k r).left ≤ (Program.call o k).left - 1 := Nat.sInf_le (hleft.2 r)
  have := hleft.1
  omega

end

/-! ## Answers as they come -/

/-- No call is made twice, but for those with only one answer. The stage is
the calls made so far. -/
def Contract.once (returns : Set Op → α → Prop) : Contract Op Answer α (Set Op) :=
  ⟨fun made o => o ∈ made → Subsingleton (Answer o), fun made o _ => insert o made, returns⟩

/-- Calls come in the order of their rank, but for those with only one
answer. -/
def Contract.rising (rank : Op → Nat) : Contract Op Answer α Nat :=
  ⟨fun n o => n ≤ rank o ∨ Subsingleton (Answer o), fun n o _ => max n (rank o + 1),
    fun _ _ => True⟩

section

variable {rank : Op → Nat} {n : Nat} {o : Op}

@[simp] theorem rising_allows : (Contract.rising rank : Contract Op Answer α Nat).allows n o ↔
    n ≤ rank o ∨ Subsingleton (Answer o) := Iff.rfl

@[simp] theorem rising_next {r : Answer o} :
    (Contract.rising rank : Contract Op Answer α Nat).next n o r = max n (rank o + 1) := rfl

@[simp] theorem rising_returns {a : α} :
    (Contract.rising rank : Contract Op Answer α Nat).returns n a := trivial

end

/-- Calls that rise are made once. -/
theorem Follows.once {rank : Op → Nat} {p : Program Op Answer ε α} {n : Nat} {made : Set Op}
    (h : p.Follows (.rising rank) n) (hmade : ∀ o ∈ made, rank o < n) :
    p.Follows (.once fun _ _ => True) made := by
  induction p generalizing n made with
  | ret a => trivial
  | stop e => trivial
  | call o k ih =>
      refine ⟨fun ho => h.1.resolve_left (Nat.not_le_of_lt (hmade o ho)), fun r => ?_⟩
      refine ih r (h.2 r) ?_
      rw [rising_next]
      rintro o' (rfl | ho')
      · omega
      · have := hmade o' ho'
        omega

/-- `rest` is left of `p` once the calls `made` have been made, in that
order, and answered as by `env`. -/
def Remains (p : Program Op Answer ε α) (made : List Op) (env : ∀ o, Answer o)
    (rest : Program Op Answer ε α) : Prop :=
  ∀ env' : ∀ o, Answer o, (∀ o ∈ made, env' o = env o) →
    p.exec env' = rest.exec env' ∧ p.calls env' = made ++ rest.calls env'

theorem remains_self (p : Program Op Answer ε α) (env : ∀ o, Answer o) : p.Remains [] env p :=
  fun _ _ => ⟨rfl, rfl⟩

/-- A call that has not been made may be answered in any way: there is an
environment that has given all the answers so far. -/
theorem Remains.answer {p : Program Op Answer ε α} {made : List Op} {env : ∀ o, Answer o} {o : Op}
    {k : Answer o → Program Op Answer ε α} (h : p.Remains made env (.call o k))
    (ho : o ∈ made → Subsingleton (Answer o)) (r : Answer o) :
    ∃ env', p.Remains (made ++ [o]) env' (k r) := by
  classical
  refine ⟨Function.update env o r, fun env' hagree => ?_⟩
  have hr : env' o = r := by simpa using hagree o (by simp)
  have hmade : ∀ o' ∈ made, env' o' = env o' := by
    intro o' ho'
    by_cases hsame : o' = o
    · subst hsame
      exact (ho ho').elim _ _
    · simpa [hsame] using hagree o' (List.mem_append_left _ ho')
  obtain ⟨hexec, hcalls⟩ := h env' hmade
  rw [exec_call, hr] at hexec
  rw [calls_call, hr] at hcalls
  exact ⟨hexec, by rw [hcalls, List.append_assoc, List.singleton_append]⟩

end Program

end Reactor
