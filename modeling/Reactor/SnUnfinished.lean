import Reactor.SnFrames
import Reactor.SnStream

/-!
# The seed node: unfinished frames

Where a byte string ends in the middle of a frame, a reader has to wait for
the rest. What it has read before that, and whether it has failed, does not
depend on what comes later (`stable_readPeerMessage`), so that the messages
of a longer string are those of the shorter one, and those of what is
unfinished of it with the rest (`messages_append`).
-/

namespace Reactor.Sn

open Proto3 (Bytes)
open Source (left ending)

/-! ## Bytes that come later -/

variable {α β : Type}

/-- Bytes that come later make no difference to what has been read, nor to
a failure that is not for want of them. -/
structure Stable (x : OnStream Bytes α) : Prop where
  ok : ∀ {bs a rest}, x bs = (.ok a, rest) → ∀ t, x (bs ++ t) = (.ok a, rest ++ t)
  error : ∀ {bs e rest}, x bs = (.error e, rest) → e ≠ .unexpectedEof →
    ∀ t, ∃ rest', x (bs ++ t) = (.error e, rest')

theorem Stable.bind {x : OnStream Bytes α} {f : α → OnStream Bytes β} (hx : Stable x)
    (hf : ∀ a, Stable (f a)) : Stable (x >>= f) where
  ok := by
    intro bs b rest h t
    obtain ⟨a, rest₁, hxa, hfa⟩ := OnStream.bind_eq_ok.mp h
    rw [OnStream.bind_ok (hx.ok hxa t), (hf a).ok hfa t]
  error := by
    intro bs e rest h he t
    cases hr : x bs with
    | mk r rest₁ =>
        cases r with
        | ok a =>
            rw [OnStream.bind_ok hr] at h
            rw [OnStream.bind_ok (hx.ok hr t)]
            exact (hf a).error h he t
        | error e₁ =>
            rw [OnStream.bind_error hr] at h
            obtain ⟨rfl, -⟩ : e₁ = e ∧ rest₁ = rest := by simpa using h
            obtain ⟨rest', hrest'⟩ := hx.error hr he t
            exact ⟨rest', OnStream.bind_error hrest'⟩

theorem stable_lift (r : Except Error α) : Stable (OnStream.lift r) where
  ok := by
    intro bs a rest h t
    obtain ⟨rfl, rfl⟩ := Prod.mk.inj h
    rfl
  error := by
    intro bs e rest h _ t
    obtain ⟨rfl, rfl⟩ := Prod.mk.inj h
    exact ⟨_, rfl⟩

theorem stable_readExact (n : Nat) : Stable (Read.readExact n : OnStream Bytes Bytes) where
  ok := by
    intro bs a rest h t
    change (if n ≤ bs.length then _ else _) = _ at h
    split at h
    · next hn =>
        obtain ⟨ha, rfl⟩ := Prod.mk.inj h
        obtain rfl := Except.ok.inj ha
        have hn' : n ≤ (bs ++ t).length := by
          rw [List.length_append]
          omega
        show (if n ≤ (bs ++ t).length then _ else _) = _
        rw [if_pos hn', List.take_append_of_le_length hn, List.drop_append_of_le_length hn]
    · cases h
  error := by
    intro bs e rest h he t
    change (if n ≤ bs.length then _ else _) = _ at h
    split at h
    · cases h
    · obtain ⟨he', -⟩ := Prod.mk.inj h
      exact absurd (Except.error.inj he').symm he

variable (libs : Libs)

theorem stable_readPeerMessage :
    Stable (PeerMessageReader.readPeerMessage libs : OnStream Bytes PeerMessage) :=
  readPeerMessage_rule (P := fun x (_ : OnStream Bytes _) => Stable x) libs stable_readExact
    (fun r _ => stable_lift r) Stable.bind

/-! ## Where the bytes end -/

/-- What a byte string ends with after the frames in it: the beginning of
one, or nothing, unless a frame before that does not parse. -/
def unfinished (bs : Bytes) : Option Bytes :=
  match _h : PeerMessageReader.readPeerMessage libs bs with
  | (.ok _, rest) => unfinished rest
  | (.error e, _) => if e = .unexpectedEof then some bs else none
termination_by bs.length
decreasing_by exact readPeerMessage_shorter _h

variable {libs} {bs rest : Bytes}

theorem unfinished_ok {msg : PeerMessage}
    (h : PeerMessageReader.readPeerMessage libs bs = (.ok msg, rest)) :
    unfinished libs bs = unfinished libs rest := by
  rw [unfinished]
  split
  · next h' => cases h.symm.trans h'; rfl
  · next h' => cases h.symm.trans h'

theorem unfinished_error {e : Error}
    (h : PeerMessageReader.readPeerMessage libs bs = (.error e, rest)) :
    unfinished libs bs = if e = .unexpectedEof then some bs else none := by
  rw [unfinished]
  split
  · next h' => cases h.symm.trans h'
  · next h' => cases h.symm.trans h'; rfl

/-- Reads the messages of a byte string one after the other. -/
theorem messages_induction (libs : Libs) (P : Bytes → Prop)
    (hok : ∀ bs msg rest, PeerMessageReader.readPeerMessage libs bs = (.ok msg, rest) →
      P rest → P bs)
    (herror : ∀ bs e rest, PeerMessageReader.readPeerMessage libs bs = (.error e, rest) → P bs)
    (bs : Bytes) : P bs := by
  induction hn : bs.length using Nat.strong_induction_on generalizing bs with
  | _ n ih =>
      cases h : PeerMessageReader.readPeerMessage libs bs with
      | mk r rest =>
          cases r with
          | error e => exact herror bs e rest h
          | ok msg =>
              exact hok bs msg rest h (ih _ (hn ▸ readPeerMessage_shorter h) rest rfl)

theorem unfinished_eq_some {q : Bytes} (h : unfinished libs bs = some q) :
    ∃ rest, PeerMessageReader.readPeerMessage libs q = (.error .unexpectedEof, rest) := by
  induction bs using messages_induction libs with
  | hok bs msg rest hread ih => exact ih ((unfinished_ok hread).symm.trans h)
  | herror bs e rest hread =>
      rw [unfinished_error hread] at h
      split at h
      · next he =>
          obtain rfl := Option.some.inj h
          exact ⟨rest, he ▸ hread⟩
      · cases h

/-- **Messages of a longer string.** -/
theorem messages_append (bs t : Bytes) :
    messages libs (bs ++ t) =
      messages libs bs ++ ((unfinished libs bs).map fun q => messages libs (q ++ t)).getD [] := by
  induction bs using messages_induction libs with
  | hok bs msg rest hread ih =>
      rw [messages_ok hread, messages_ok ((stable_readPeerMessage libs).ok hread t), ih,
        unfinished_ok hread]
      rfl
  | herror bs e rest hread =>
      rw [messages_error hread, unfinished_error hread, List.nil_append]
      by_cases he : e = .unexpectedEof
      · rw [if_pos he]
        rfl
      · obtain ⟨rest', hread'⟩ := (stable_readPeerMessage libs).error hread he t
        rw [if_neg he, messages_error hread']
        rfl

theorem unfinished_append (bs t : Bytes) :
    unfinished libs (bs ++ t) = (unfinished libs bs).bind fun q => unfinished libs (q ++ t) := by
  induction bs using messages_induction libs with
  | hok bs msg rest hread ih =>
      rw [unfinished_ok hread, unfinished_ok ((stable_readPeerMessage libs).ok hread t), ih]
  | herror bs e rest hread =>
      rw [unfinished_error hread]
      by_cases he : e = .unexpectedEof
      · rw [if_pos he]
        rfl
      · obtain ⟨rest', hread'⟩ := (stable_readPeerMessage libs).error hread he t
        rw [if_neg he, unfinished_error hread', if_neg he]
        rfl

/-! ## Where a source ends -/

/-- A read after the last byte leaves the source as it is. -/
def Settled (ρ : Type) [Source ρ] : Prop :=
  ∀ (n : Nat) (s : ρ), 0 < n → left s = [] → Source.read n s = (atEnd (ending s), s)

theorem settled_socket : Settled Socket := by
  rintro n ⟨chunks, ending⟩ _ hleft
  cases chunks with
  | nil => rfl
  | cons chunk rest => exact absurd (List.append_eq_nil_iff.mp hleft).1 chunk.property

theorem Settled.bufReader {ρ : Type} [Source ρ] (h : Settled ρ) : Settled (BufReader ρ) := by
  rintro n ⟨buffer, inner⟩ hn hleft
  obtain ⟨rfl, hinner⟩ := List.append_eq_nil_iff.mp hleft
  by_cases hlarge : BufReader.capacity ≤ n
  · simp [Source.read, BufReader.read, hlarge, h n inner hn hinner, ending]
  · have hread := h BufReader.capacity inner (by decide) hinner
    cases hend : Source.ending inner <;>
      simp [Source.read, BufReader.read, hlarge, hread, hend, atEnd]

section

variable {ρ : Type} [Source ρ]

theorem readExact_under (hsettled : Settled ρ) {n : Nat} {s : ρ} (h : (left s).length < n) :
    ∃ s', Source.readExact n s = (.error (Error.under (ending s) .unexpectedEof), s') ∧
      left s' = [] ∧ ending s' = ending s := by
  obtain ⟨m, s', hm, hleft, hend, hexact⟩ := readExact_atEnd h
  exact ⟨s', hexact s' (hsettled m s' hm hleft), hleft, hend⟩

/-- When reading from the bytes left of a source fails, so does reading
from the source, and has read it all if it is for want of bytes. -/
def FailsAlike (x : OnStream Bytes α) (y : OnStream ρ α) : Prop :=
  ∀ s e t, x (left s) = (.error e, t) → ∃ s', y s = (.error (e.under (ending s)), s') ∧
    (e = .unexpectedEof → left s' = [] ∧ ending s' = ending s)

theorem FailsAlike.bind {x : OnStream Bytes α} {y : OnStream ρ α} {f : α → OnStream Bytes β}
    {g : α → OnStream ρ β} (h : FailsAlike x y) (hagrees : Agrees x y)
    (hf : ∀ a, FailsAlike (f a) (g a)) : FailsAlike (x >>= f) (y >>= g) := by
  intro s e t he
  cases hx : x (left s) with
  | mk r t₁ =>
      cases r with
      | ok a =>
          rw [OnStream.bind_ok hx] at he
          obtain ⟨s₁, hy, rfl, hend⟩ := hagrees.ok hx
          obtain ⟨s', hga, hs'⟩ := hf a s₁ e t he
          rw [hend] at hga hs'
          exact ⟨s', by rw [OnStream.bind_ok hy, hga], hs'⟩
      | error e₁ =>
          rw [OnStream.bind_error hx] at he
          obtain ⟨rfl, -⟩ : e₁ = e ∧ t₁ = t := by simpa using he
          obtain ⟨s', hy, hs'⟩ := h s e₁ t₁ hx
          exact ⟨s', OnStream.bind_error hy, hs'⟩

theorem failsAlike_lift {r : Except Error α} (h : r ≠ .error .unexpectedEof) :
    FailsAlike (OnStream.lift r) (OnStream.lift r : OnStream ρ α) := by
  intro s e t he
  obtain ⟨rfl, -⟩ := Prod.mk.inj he
  have hne : e ≠ .unexpectedEof := fun heq => h (by rw [heq])
  refine ⟨s, ?_, fun heq => absurd heq hne⟩
  rw [show e.under (ending s) = e by cases e <;> first | rfl | exact absurd rfl hne]
  rfl

theorem failsAlike_readExact (hsettled : Settled ρ) (n : Nat) :
    FailsAlike (Read.readExact n : OnStream Bytes Bytes) (Read.readExact n : OnStream ρ Bytes) := by
  intro s e t he
  change (if n ≤ (left s).length then _ else _) = _ at he
  split at he
  · cases he
  · next hn =>
      obtain ⟨he, -⟩ := Prod.mk.inj he
      obtain rfl := Except.error.inj he
      obtain ⟨s', hread, hs'⟩ := readExact_under hsettled (Nat.lt_of_not_le hn)
      exact ⟨s', hread, fun _ => hs'⟩

theorem failsAlike_readPeerMessage (hsettled : Settled ρ) :
    FailsAlike (PeerMessageReader.readPeerMessage libs : OnStream Bytes PeerMessage)
      (PeerMessageReader.readPeerMessage libs : OnStream ρ PeerMessage) := by
  -- that one reading fails like the other is kept only where they also agree
  refine (readPeerMessage_rule (P := fun x y => Agrees x y ∧ FailsAlike x y) libs
    (fun n => ⟨agrees_readExact n, failsAlike_readExact hsettled n⟩) ?_ ?_).2
  · intro γ r hr
    refine ⟨agrees_lift fun e he => (hr e he).kind_ne, failsAlike_lift ?_⟩
    rintro rfl
    exact hr _ rfl
  · intro γ δ x y f g hx hf
    exact ⟨hx.1.bind fun a => (hf a).1, hx.2.bind hx.1 fun a => (hf a).2⟩

end

end Reactor.Sn
