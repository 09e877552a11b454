import Mathlib.Data.Set.Insert
import Mathlib.Data.List.Perm.Subperm
import Mathlib.Logic.Function.Basic
import Reactor.SnTypes

/-!
# The exchange of hellos

What seed nodes do with connections, without the loops, channels and
threads that do it. A node that dials says hello, and puts its own end
behind those it has yet to look at; the end of whoever was dialed joins
his. A node looks at its ends in order, and not at the next one until it
has read a hello on the last or lost it. On an end it has read a hello on
it either answers with its own, and then keeps it, or loses it.

The steps leave open why an end is lost and when a node may dial or
answer. What deadlock and agreement depend on is said of them where they
are used; here is what holds always (`Owned`): every end is one node's,
and is looked at once.
-/

namespace Reactor.Sn

open Function (update)

/-! ## States -/

/-- What a node is about to do with a connection. -/
inductive Now
  | free
  /-- Say hello on an end just dialed. -/
  | dialed (e : TcpStream)
  /-- Put it behind the other ends. -/
  | greeted (e : TcpStream)
  /-- Read a hello. -/
  | reading (e : TcpStream)
  /-- Answer a hello, or not. -/
  | met (e : TcpStream)
  /-- Nothing, ever. -/
  | halted
deriving DecidableEq

/-- The end a node has not read a hello on, of those it is busy with. -/
def Now.pending : Now → List TcpStream
  | .dialed e | .greeted e | .reading e => [e]
  | _ => []

@[ext]
structure Exchange (ι : Type) where
  now : ι → Now
  /-- The ends still to be looked at, in that order. -/
  log : ι → List TcpStream
  kept : ι → Set TcpStream
  owner : TcpStream → Option ι
  inbox : TcpStream → List PeerMessage
  nextConn : Nat

namespace Exchange

variable {ι : Type}

def empty : Exchange ι := ⟨fun _ => .free, fun _ => [], fun _ => ∅, fun _ => none, fun _ => [], 0⟩

/-- The ends on which a node has not read a hello. -/
def unread (s : Exchange ι) (x : ι) : List TcpStream := (s.now x).pending ++ s.log x

/-! ## Steps -/

/-- What a node can do. -/
inductive Deed (ι : Type)
  | dial (y : ι)
  | greet
  | enqueue
  | take
  | meet
  | answer
  | lose
  | hear
  | forget
  | halt

variable [DecidableEq ι]

/-- A new connection from `x` to `y`. -/
def connect (s : Exchange ι) (x y : ι) : Exchange ι :=
  { s with
    now := update s.now x (.dialed ⟨s.nextConn, .dialer⟩)
    log := update s.log y (s.log y ++ [⟨s.nextConn, .listener⟩])
    owner := update (update s.owner ⟨s.nextConn, .dialer⟩ (some x))
      ⟨s.nextConn, .listener⟩ (some y)
    nextConn := s.nextConn + 1 }

inductive Step (s : Exchange ι) (x : ι) : Deed ι → Exchange ι → Prop
  | dial (y : ι) (h : s.now x = .free) : s.Step x (.dial y) (s.connect x y)
  | greet {e : TcpStream} (msg : PeerMessage) (h : s.now x = .dialed e) : s.Step x .greet
      { s with
        now := update s.now x (.greeted e)
        inbox := update s.inbox e.other (s.inbox e.other ++ [msg]) }
  | enqueue {e : TcpStream} {before after : List TcpStream} (h : s.now x = .greeted e)
      (hlog : s.log x = before ++ after) : s.Step x .enqueue
      { s with
        now := update s.now x .free
        log := update s.log x (before ++ e :: after) }
  | take {e : TcpStream} {rest : List TcpStream} (h : s.now x = .free)
      (hlog : s.log x = e :: rest) : s.Step x .take
      { s with
        now := update s.now x (.reading e)
        log := update s.log x rest }
  | meet {e : TcpStream} {msg : PeerMessage} {rest : List PeerMessage}
      (h : s.now x = .reading e) (hinbox : s.inbox e = msg :: rest) : s.Step x .meet
      { s with
        now := update s.now x (.met e)
        inbox := update s.inbox e rest }
  | answer {e : TcpStream} (msg : PeerMessage) (h : s.now x = .met e) : s.Step x .answer
      { s with
        now := update s.now x .free
        kept := update s.kept x (insert e (s.kept x))
        inbox := update s.inbox e.other (s.inbox e.other ++ [msg]) }
  | lose {e : TcpStream} {rest : List PeerMessage} (h : s.now x = .reading e ∨ s.now x = .met e)
      (hinbox : rest <:+ s.inbox e) : s.Step x .lose
      { s with
        now := update s.now x .free
        inbox := update s.inbox e rest }
  /-- A message is read on an end that is kept. -/
  | hear {e : TcpStream} {msg : PeerMessage} {rest : List PeerMessage} (h : e ∈ s.kept x)
      (hinbox : s.inbox e = msg :: rest) : s.Step x .hear
      { s with inbox := update s.inbox e rest }
  | forget {kept : Set TcpStream} (h : kept ⊆ s.kept x) : s.Step x .forget
      { s with kept := update s.kept x kept }
  | halt {kept : Set TcpStream} (h : kept ⊆ s.kept x) : s.Step x .halt
      { s with now := update s.now x .halted, kept := update s.kept x kept }

/-- An end is lost, with all there is to read on it. -/
theorem Step.lose_all {s : Exchange ι} {x : ι} {e : TcpStream}
    (h : s.now x = .reading e ∨ s.now x = .met e) :
    s.Step x .lose { s with now := update s.now x .free } := by
  have hstep := Step.lose h (List.suffix_refl _)
  rwa [Function.update_eq_self] at hstep

/-- A node halts, and still keeps what it keeps. -/
theorem Step.halt_keeping (s : Exchange ι) (x : ι) :
    s.Step x .halt { s with now := update s.now x .halted } := by
  have hstep := @Step.halt _ _ s x _ (subset_refl _)
  rwa [Function.update_eq_self] at hstep

/-! ## Ownership -/

structure Owned (s : Exchange ι) : Prop where
  fresh : ∀ e x, s.owner e = some x → e.conn < s.nextConn
  blank : ∀ e, s.nextConn ≤ e.conn → s.inbox e = []
  nodup : ∀ x, (s.unread x).Nodup
  unread : ∀ x, ∀ e ∈ s.unread x, s.owner e = some x
  met : ∀ x e, s.now x = .met e → s.owner e = some x ∧ e ∉ s.unread x
  kept : ∀ x, ∀ e ∈ s.kept x, s.owner e = some x ∧ e ∉ s.unread x

omit [DecidableEq ι] in
theorem owned_empty : (empty : Exchange ι).Owned where
  fresh e x h := by cases h
  blank e h := rfl
  nodup x := List.nodup_nil
  unread x e h := by cases h
  met x e h := by cases h
  kept x e h := h.elim

variable {s s' : Exchange ι} {x : ι} {d : Deed ι}

theorem Step.now_of_ne (h : s.Step x d s') {z : ι} (hz : z ≠ x) : s'.now z = s.now z := by
  cases h <;> simp [connect, hz]

/-- An end is met when there was a hello to read on it. -/
theorem Step.met_new (h : s.Step x d s') {z : ι} {e : TcpStream} (hz : s'.now z = .met e) :
    s.now z = .met e ∨ s.now z = .reading e ∧ ∃ msg, s.inbox e = msg :: s'.inbox e := by
  by_cases hx : z = x
  · subst hx
    cases h with
    | @meet e' msg rest h hinbox =>
        obtain rfl := Now.met.inj (show Now.met e' = Now.met e by simpa using hz)
        exact .inr ⟨h, msg, by simpa using hinbox⟩
    | hear h hinbox => exact .inl hz
    | forget h => exact .inl hz
    | _ => simp [connect] at hz
  · exact .inl (h.now_of_ne hx ▸ hz)

/-- An end is new when it is dialed. -/
theorem Step.dialed_new (h : s.Step x d s') {z : ι} {e : TcpStream} (hz : s'.now z = .dialed e) :
    s.now z = .dialed e ∨ (∃ y, d = .dial y) ∧ e = ⟨s.nextConn, .dialer⟩ := by
  by_cases hx : z = x
  · subst hx
    cases h with
    | dial y h => exact .inr ⟨⟨y, rfl⟩, (Now.dialed.inj (by simpa [connect] using hz)).symm⟩
    | hear h hinbox => exact .inl hz
    | forget h => exact .inl hz
    | _ => simp at hz
  · exact .inl (h.now_of_ne hx ▸ hz)

/-- Hello is said on an end that has been dialed. -/
theorem Step.greeted_new (h : s.Step x d s') {z : ι} {e : TcpStream} (hz : s'.now z = .greeted e) :
    s.now z = .greeted e ∨ s.now z = .dialed e := by
  by_cases hx : z = x
  · subst hx
    cases h with
    | @greet e' msg h =>
        obtain rfl := Now.greeted.inj (show Now.greeted e' = Now.greeted e by simpa using hz)
        exact .inr h
    | hear h hinbox => exact .inl hz
    | forget h => exact .inl hz
    | _ => simp [connect] at hz
  · exact .inl (h.now_of_ne hx ▸ hz)

theorem Step.others (h : s.Step x d s') (hd : ∀ y, d ≠ .dial y) {z : ι} (hz : z ≠ x) :
    s'.now z = s.now z ∧ s'.log z = s.log z ∧ s'.kept z = s.kept z := by
  cases h with
  | dial y => exact absurd rfl (hd y)
  | _ => simp [hz]

theorem Step.owner_eq (h : s.Step x d s') (hd : ∀ y, d ≠ .dial y) :
    s'.owner = s.owner ∧ s'.nextConn = s.nextConn := by
  cases h with
  | dial y => exact absurd rfl (hd y)
  | _ => exact ⟨rfl, rfl⟩

/-- Only making a connection adds to what a node has not read a hello on. -/
theorem Step.subperm (h : s.Step x d s') (hd : ∀ y, d ≠ .dial y) (z : ι) :
    (s'.unread z).Subperm (s.unread z) := by
  by_cases hz : z = x
  · subst hz
    cases h with
    | dial y => exact absurd rfl (hd y)
    | enqueue h hlog =>
        simpa [Exchange.unread, h, hlog, Now.pending] using List.perm_middle.subperm
    | meet h hinbox =>
        simpa [Exchange.unread, h, Now.pending] using (List.sublist_cons_self _ _).subperm
    | lose h hinbox =>
        rcases h with h | h
        · simpa [Exchange.unread, h, Now.pending] using (List.sublist_cons_self _ _).subperm
        · simp [Exchange.unread, h, Now.pending, List.Subperm.refl]
    | halt h =>
        simpa [Exchange.unread, Now.pending] using (List.sublist_append_right _ _).subperm
    | _ => simp_all [Exchange.unread, Now.pending, List.Subperm.refl]
  · obtain ⟨hnow, hlog, -⟩ := h.others hd hz
    simp [Exchange.unread, hnow, hlog, List.Subperm.refl]

/-- An end on which a hello is read, or which is lost unread, is done with. -/
theorem Step.met (hs : s.Owned) (h : s.Step x d s') (hd : ∀ y, d ≠ .dial y) {z : ι}
    {e : TcpStream} (hmet : s'.now z = .met e) : s.owner e = some z ∧ e ∉ s'.unread z := by
  by_cases hz : z = x
  · subst hz
    cases h with
    | dial y => exact absurd rfl (hd y)
    | meet h hinbox =>
        obtain rfl := Now.met.inj (show Now.met _ = Now.met e by simpa using hmet)
        have hnodup := hs.nodup z
        simp only [Exchange.unread, h, Now.pending, List.singleton_append,
          List.nodup_cons] at hnodup
        exact ⟨hs.unread z _ (by simp [Exchange.unread, h, Now.pending]),
          by simpa [Exchange.unread, Now.pending] using hnodup.1⟩
    | hear h hinbox => exact hs.met z e hmet
    | forget h => exact hs.met z e hmet
    | _ => simp at hmet
  · obtain ⟨hnow, hlog, -⟩ := h.others hd hz
    obtain ⟨howner, hunread⟩ := hs.met z e (hnow ▸ hmet)
    exact ⟨howner, by simpa [Exchange.unread, hnow, hlog] using hunread⟩

theorem Step.kept (hs : s.Owned) (h : s.Step x d s') (hd : ∀ y, d ≠ .dial y) {z : ι}
    {e : TcpStream} (he : e ∈ s'.kept z) : s.owner e = some z ∧ e ∉ s.unread z := by
  by_cases hz : z = x
  · subst hz
    cases h with
    | dial y => exact absurd rfl (hd y)
    | answer msg h =>
        rcases (show e = _ ∨ e ∈ s.kept z by simpa using he) with rfl | he
        · exact hs.met z e h
        · exact hs.kept z e he
    | forget h => exact hs.kept z e (h (by simpa using he))
    | halt h => exact hs.kept z e (h (by simpa using he))
    | _ => exact hs.kept z e he
  · exact hs.kept z e ((h.others hd hz).2.2 ▸ he)

omit [DecidableEq ι] in
theorem mem_unread_of_now {e : TcpStream} (h : e ∈ (s.now x).pending) : e ∈ s.unread x :=
  List.mem_append_left _ h

omit [DecidableEq ι] in
theorem Owned.lt (hs : s.Owned) {e : TcpStream} (he : e ∈ s.unread x) : e.conn < s.nextConn :=
  hs.fresh e x (hs.unread x e he)

/-- Messages are written and read on connections that exist. -/
theorem Step.inbox (hs : s.Owned) (h : s.Step x d s') (f : TcpStream) :
    s'.inbox f = s.inbox f ∨ f.conn < s.nextConn := by
  have hwrite : ∀ (e : TcpStream) msgs, e.conn < s.nextConn →
      update s.inbox e msgs f = s.inbox f ∨ f.conn < s.nextConn := by
    intro e msgs he
    by_cases hf : f = e
    · exact .inr (hf ▸ he)
    · exact .inl (by simp [hf])
  have hpending : ∀ {e : TcpStream}, e ∈ (s.now x).pending → e.conn < s.nextConn :=
    fun he => hs.lt (mem_unread_of_now he)
  cases h with
  | @greet e msg h => exact hwrite _ _ (hpending (e := e) (by simp [h, Now.pending]))
  | meet h hinbox => exact hwrite _ _ (hpending (by simp [h, Now.pending]))
  | @answer e msg h => exact hwrite _ _ (hs.fresh e _ (hs.met x e h).1)
  | lose h hinbox =>
      rcases h with h | h
      · exact hwrite _ _ (hpending (by simp [h, Now.pending]))
      · exact hwrite _ _ (hs.fresh _ _ (hs.met x _ h).1)
  | hear h hinbox => exact hwrite _ _ (hs.fresh _ _ (hs.kept x _ h).1)
  | _ => exact .inl rfl

theorem unread_connect (h : s.now x = .free) (y z : ι) :
    (s.connect x y).unread z = (if z = x then [⟨s.nextConn, .dialer⟩] else []) ++ s.unread z ++
      if z = y then [⟨s.nextConn, .listener⟩] else [] := by
  by_cases hx : z = x <;> by_cases hy : z = y <;>
    simp_all [Exchange.unread, connect, Now.pending]

theorem mem_unread_connect (h : s.now x = .free) {y z : ι} {e : TcpStream} :
    e ∈ (s.connect x y).unread z ↔ e ∈ s.unread z ∨ (z = x ∧ e = ⟨s.nextConn, .dialer⟩) ∨
      (z = y ∧ e = ⟨s.nextConn, .listener⟩) := by
  rw [unread_connect h, List.mem_append, List.mem_append]
  split <;> split <;> simp_all <;> tauto

theorem owner_connect (y : ι) {e : TcpStream} (he : e.conn < s.nextConn) :
    (s.connect x y).owner e = s.owner e := by
  have hne : ∀ side, e ≠ ⟨s.nextConn, side⟩ := fun side h => by
    rw [h] at he
    exact Nat.lt_irrefl _ he
  simp [connect, hne]

theorem Owned.connect (hs : s.Owned) (h : s.now x = .free) (y : ι) : (s.connect x y).Owned := by
  have hold : ∀ {z : ι} {e : TcpStream} side, s.owner e = some z → e ≠ ⟨s.nextConn, side⟩ := by
    intro z e side he hnew
    exact Nat.lt_irrefl _ (show s.nextConn < s.nextConn by simpa [hnew] using hs.fresh e z he)
  have hkeep : ∀ {z : ι} {e : TcpStream}, s.owner e = some z → (s.connect x y).owner e = some z :=
    fun he => (owner_connect y (hs.fresh _ _ he)).trans he
  have hnotin : ∀ {z : ι} {e : TcpStream}, s.owner e = some z → e ∉ s.unread z →
      e ∉ (s.connect x y).unread z := by
    intro z e he hnot hmem
    rcases (mem_unread_connect h).mp hmem with hmem | ⟨-, rfl⟩ | ⟨-, rfl⟩
    · exact hnot hmem
    · exact hold _ he rfl
    · exact hold _ he rfl
  refine ⟨fun e z he => ?_, fun e he => hs.blank e (Nat.le_of_succ_le he), fun z => ?_,
    fun z e he => ?_, fun z e hmet => ?_, fun z e he => ?_⟩
  · by_cases hd : e.conn = s.nextConn
    · exact hd ▸ Nat.lt_succ_self _
    · have hne : ∀ side, e ≠ ⟨s.nextConn, side⟩ := fun side hnew => hd (by rw [hnew])
      exact Nat.lt_succ_of_lt (hs.fresh e z (by simpa [Exchange.connect, hne] using he))
  · have hnew : ∀ side, (⟨s.nextConn, side⟩ : TcpStream) ∉ s.unread z :=
      fun side hmem => Nat.lt_irrefl _ (hs.lt hmem)
    have hne : ∀ e ∈ s.unread z, ∀ side, e ≠ ⟨s.nextConn, side⟩ := fun e he side heq =>
      hnew side (heq ▸ he)
    rw [unread_connect h]
    split <;> split <;> simp +contextual [hs.nodup z, hnew, hne, List.nodup_append]
  · rcases (mem_unread_connect h).mp he with hmem | ⟨rfl, rfl⟩ | ⟨rfl, rfl⟩
    · exact hkeep (hs.unread z e hmem)
    · simp [Exchange.connect]
    · simp [Exchange.connect]
  · have hz : z ≠ x := fun hz => by simp [Exchange.connect, hz] at hmet
    obtain ⟨howner, hunread⟩ := hs.met z e (by simpa [Exchange.connect, hz] using hmet)
    exact ⟨hkeep howner, hnotin howner hunread⟩
  · obtain ⟨howner, hunread⟩ := hs.kept z e he
    exact ⟨hkeep howner, hnotin howner hunread⟩

theorem owned_step (hs : s.Owned) (h : s.Step x d s') : s'.Owned := by
  by_cases hd : ∃ y, d = .dial y
  · obtain ⟨y, rfl⟩ := hd
    cases h with
    | dial _ h => exact hs.connect h y
  · have hd : ∀ y, d ≠ .dial y := fun y hy => hd ⟨y, hy⟩
    obtain ⟨howner, hnext⟩ := h.owner_eq hd
    have hsub := h.subperm hd
    refine ⟨fun e z => by rw [howner, hnext]; exact hs.fresh e z, fun e he => ?_,
      fun z => ?_, fun z e he => ?_, fun z e hmet => ?_, fun z e he => ?_⟩
    · rw [hnext] at he
      rcases h.inbox hs e with heq | hlt
      · exact heq.trans (hs.blank e he)
      · exact absurd hlt (Nat.not_lt.mpr he)
    · obtain ⟨l, hperm, hl⟩ := hsub z
      exact hperm.nodup_iff.mp ((hs.nodup z).sublist hl)
    · rw [howner]
      exact hs.unread z e ((hsub z).subset he)
    · rw [howner]
      exact h.met hs hd hmet
    · rw [howner]
      obtain ⟨ho, hu⟩ := h.kept hs hd he
      exact ⟨ho, fun hmem => hu ((hsub z).subset hmem)⟩

omit [DecidableEq ι] in
/-- What its owner has done with is done with. -/
theorem Owned.not_unread (hs : s.Owned) {e : TcpStream} (howner : s.owner e = some x)
    (he : e ∉ s.unread x) (y : ι) : e ∉ s.unread y := fun hy =>
  he (Option.some.inj (howner.symm.trans (hs.unread y e hy)) ▸ hy)

/-- Messages come one at a time, and none is read on an end that is still
to be looked at. -/
theorem Step.inbox_cases (hs : s.Owned) (h : s.Step x d s') (f : TcpStream) :
    s'.inbox f = s.inbox f ∨ (∃ msg, s'.inbox f = s.inbox f ++ [msg]) ∨ ∀ y, f ∉ s'.unread y := by
  have hs' := owned_step hs h
  by_cases hd : ∃ y, d = .dial y
  · obtain ⟨y, rfl⟩ := hd
    cases h with
    | dial _ h => exact .inl rfl
  have hd : ∀ y, d ≠ .dial y := fun y hy => hd ⟨y, hy⟩
  have hwrite : ∀ {e : TcpStream} {msg : PeerMessage},
      s'.inbox = update s.inbox e (s.inbox e ++ [msg]) →
      s'.inbox f = s.inbox f ∨ (∃ msg, s'.inbox f = s.inbox f ++ [msg]) ∨ ∀ y, f ∉ s'.unread y := by
    intro e msg heq
    by_cases hf : f = e
    · subst hf
      exact .inr (.inl ⟨msg, by simp [heq]⟩)
    · exact .inl (by simp [heq, hf])
  have hread : ∀ {e : TcpStream} {rest : List PeerMessage}, s'.inbox = update s.inbox e rest →
      s.owner e = some x → e ∉ s'.unread x →
      s'.inbox f = s.inbox f ∨ (∃ msg, s'.inbox f = s.inbox f ++ [msg]) ∨ ∀ y, f ∉ s'.unread y := by
    intro e rest heq howner he
    by_cases hf : f = e
    · subst hf
      exact .inr (.inr (hs'.not_unread ((h.owner_eq hd).1 ▸ howner) he))
    · exact .inl (by simp [heq, hf])
  have hsub := h.subperm hd x
  cases h with
  | dial y h => exact absurd rfl (hd y)
  | greet msg h => exact hwrite rfl
  | answer msg h => exact hwrite rfl
  | @meet e msg rest h hinbox =>
      have hmet := (Step.meet h hinbox).met hs hd (z := x) (e := e) (by simp)
      exact hread rfl hmet.1 hmet.2
  | @lose e rest h hinbox =>
      rcases h with hnow | hnow
      · have hnodup := hs.nodup x
        simp only [Exchange.unread, hnow, Now.pending, List.singleton_append,
          List.nodup_cons] at hnodup
        refine hread rfl (hs.unread x e (mem_unread_of_now (by simp [hnow, Now.pending]))) ?_
        simpa [Exchange.unread, Now.pending] using hnodup.1
      · obtain ⟨howner, hunread⟩ := hs.met x e hnow
        exact hread rfl howner fun he => hunread (hsub.subset he)
  | hear h hinbox =>
      obtain ⟨howner, hunread⟩ := hs.kept x _ h
      exact hread rfl howner hunread
  | _ => exact .inl rfl

theorem Step.unread_cases (h : s.Step x d s') (hd : ∀ y, d ≠ .dial y) (hhalt : d ≠ .halt)
    {z : ι} {e : TcpStream} (he : e ∈ s.unread z) :
    e ∈ s'.unread z ∨ z = x ∧ s.now x = .reading e ∧
      ((s.inbox e ≠ [] ∧ s'.now x = .met e) ∨ d = .lose) := by
  by_cases hz : z = x
  · subst hz
    cases h with
    | dial y => exact absurd rfl (hd y)
    | @meet e' msg rest h hinbox =>
        simp only [Exchange.unread, h, Now.pending, List.singleton_append, List.mem_cons] at he
        rcases he with rfl | he
        · exact .inr ⟨rfl, h, .inl ⟨by simp [hinbox], by simp⟩⟩
        · exact .inl (List.mem_append_right _ he)
    | lose h hinbox =>
        rcases h with h | h
        · simp only [Exchange.unread, h, Now.pending, List.singleton_append, List.mem_cons] at he
          rcases he with rfl | he
          · exact .inr ⟨rfl, h, .inr rfl⟩
          · exact .inl (List.mem_append_right _ he)
        · simp_all [Exchange.unread, Now.pending]
    | halt h => exact absurd rfl hhalt
    | enqueue h hlog => simp_all [Exchange.unread, Now.pending, or_left_comm]
    | _ => simp_all [Exchange.unread, Now.pending]
  · obtain ⟨hnow, hlog, -⟩ := h.others hd hz
    exact .inl (by simpa [Exchange.unread, hnow, hlog] using he)

/-- An end is kept from its answer on, -/
theorem Step.kept_new (h : s.Step x d s') {z : ι} {e : TcpStream} (he : e ∈ s'.kept z) :
    e ∈ s.kept z ∨ z = x ∧ d = .answer ∧ s.now x = .met e := by
  by_cases hz : z = x
  · subst hz
    cases h with
    | answer msg h =>
        rcases (show e = _ ∨ e ∈ s.kept z by simpa using he) with rfl | he
        · exact .inr ⟨rfl, rfl, h⟩
        · exact .inl he
    | forget h => exact .inl (h (by simpa using he))
    | halt h => exact .inl (h (by simpa using he))
    | _ => exact .inl he
  · left
    cases h with
    | dial y h => exact he
    | _ => simpa [hz] using he

/-- and as long as nothing is given up. -/
theorem Step.kept_iff (h : s.Step x d s') (hforget : d ≠ .forget) (hhalt : d ≠ .halt) {z : ι}
    {e : TcpStream} :
    e ∈ s'.kept z ↔ e ∈ s.kept z ∨ z = x ∧ d = .answer ∧ s.now x = .met e := by
  refine ⟨h.kept_new, ?_⟩
  rintro (he | ⟨rfl, rfl, hnow⟩)
  · cases h with
    | @answer e' msg h =>
        by_cases hz : z = x
        · subst hz
          simpa using .inr he
        · simpa [hz] using he
    | forget h => exact absurd rfl hforget
    | halt h => exact absurd rfl hhalt
    | _ => exact he
  · cases h with
    | answer msg h =>
        obtain rfl := Now.met.inj (h.symm.trans hnow)
        simp

/-- Ends of the connections there were have the owners they had. -/
theorem Step.owner_of_lt (h : s.Step x d s') {e : TcpStream} (he : e.conn < s.nextConn) :
    s'.owner e = s.owner e := by
  by_cases hd : ∃ y, d = .dial y
  · obtain ⟨y, rfl⟩ := hd
    cases h with
    | dial _ h => exact owner_connect y he
  · rw [(h.owner_eq fun y hy => hd ⟨y, hy⟩).1]

/-- The two ends of a new connection. -/
theorem new_of_connect {y z : ι} {e : TcpStream}
    (howner : (s.connect x y).owner e = some z) (hconn : ¬e.conn < s.nextConn) (hs : s.Owned) :
    e = ⟨s.nextConn, .dialer⟩ ∧ z = x ∨ e = ⟨s.nextConn, .listener⟩ ∧ z = y := by
  have hnone : s.owner e = none := by
    cases howner' : s.owner e with
    | none => rfl
    | some w => exact absurd (hs.fresh e w howner') hconn
  by_cases hl : e = ⟨s.nextConn, .listener⟩
  · exact .inr ⟨hl, by simpa [connect, hl, eq_comm] using howner⟩
  · by_cases hdial : e = ⟨s.nextConn, .dialer⟩
    · exact .inl ⟨hdial, by simpa [connect, hdial, eq_comm] using howner⟩
    · simp [connect, hl, hdial, hnone] at howner

/-- Where there is something to read, there was before, or a hello has
just been written on the other end. -/
theorem Step.inbox_new (h : s.Step x d s') {f : TcpStream} (hf : s'.inbox f ≠ []) :
    s.inbox f ≠ [] ∨ s.now x = .dialed f.other ∨ d = .answer ∧ s.now x = .met f.other := by
  have hwrite : ∀ {e : TcpStream} {msgs : List PeerMessage},
      s'.inbox = Function.update s.inbox e msgs → (f = e → msgs ≠ [] → s.inbox f ≠ []) →
      s.inbox f ≠ [] := by
    intro e msgs heq hread
    rw [heq] at hf
    by_cases hfe : f = e
    · exact hread hfe (by simpa [hfe] using hf)
    · simpa [hfe] using hf
  cases h with
  | @greet e msg h =>
      by_cases hfe : f = e.other
      · subst hfe
        exact .inr (.inl (by simpa using h))
      · exact .inl (hwrite rfl fun heq => absurd heq hfe)
  | @answer e msg h =>
      by_cases hfe : f = e.other
      · subst hfe
        exact .inr (.inr ⟨rfl, by simpa using h⟩)
      · exact .inl (hwrite rfl fun heq => absurd heq hfe)
  | meet h hinbox => exact .inl (hwrite rfl fun heq _ => by simp [heq, hinbox])
  | hear h hinbox => exact .inl (hwrite rfl fun heq _ => by simp [heq, hinbox])
  | lose h hinbox =>
      refine .inl (hwrite rfl fun heq hne hnil => hne ?_)
      exact List.suffix_nil.mp (hnil ▸ heq ▸ hinbox)
  | _ => exact .inl hf

end Exchange

end Reactor.Sn
