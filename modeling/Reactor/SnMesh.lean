import Reactor.SnIdentity
import Reactor.SnServed

/-!
# Nodes that dial in one direction

What an exchange of hellos comes to among nodes that come in some order and
dial only those that come after them, any number of times, while nothing
goes wrong (`Rising`). Of two nodes one dials and the other is dialed; the
one that is dialed keeps the first of their connections and turns the
others away, and the one that dials keeps what the other has kept, since
he finds no hello on any other.

**`Meshed.joined`**: where nothing is left to do, nodes one of which has
dialed the other keep the two ends of one connection.
-/

namespace Reactor.Sn.Exchange

open Relation

/-! ## Steps in one direction -/

variable {ι : Type}

/-- `x` has dialed `y`. -/
def Dialed (s : Exchange ι) (c : Nat) (x y : ι) : Prop :=
  s.owner ⟨c, .dialer⟩ = some x ∧ s.owner ⟨c, .listener⟩ = some y

/-- A node dials those that come after it, answers whoever it keeps no other
connection with, and loses an end only because the other end is gone or it
keeps another connection with whoever is there. -/
def Rising [LT ι] (s : Exchange ι) (x : ι) : Deed ι → Prop
  | .dial y => x < y
  | .answer => ∀ e f, s.now x = .met e → f ∈ s.kept x → s.owner f.other ≠ s.owner e.other
  | .lose => (∃ e, s.now x = .reading e ∧ ¬s.Held e.other) ∨
      ∃ e f, s.now x = .met e ∧ f ∈ s.kept x ∧ s.owner f.other = s.owner e.other
  | .forget | .halt => False
  | _ => True

structure Meshed [LT ι] (s : Exchange ι) : Prop where
  owned : s.Owned
  running : ∀ x, s.now x ≠ .halted
  dials : ∀ x e, s.now x = .dialed e → e.side = .dialer
  made : ∀ c < s.nextConn, ∃ x y, s.Dialed c x y
  upward : ∀ c x y, s.Dialed c x y → x < y
  apart : ∀ x e, s.now x = .met e → e ∉ s.kept x
  /-- Hellos for whoever dialed come from a node that keeps its end. -/
  heard : ∀ c x y, s.Dialed c x y →
    s.inbox ⟨c, .dialer⟩ ≠ [] ∨ s.now x = .met ⟨c, .dialer⟩ ∨ ⟨c, .dialer⟩ ∈ s.kept x →
    ⟨c, .listener⟩ ∈ s.kept y
  /-- As long as whoever was dialed has his end, the dialer looks at his. -/
  waiting : ∀ c x y, s.Dialed c x y → s.Held ⟨c, .listener⟩ →
    ⟨c, .dialer⟩ ∈ s.unread x ∨ ⟨c, .listener⟩ ∈ s.kept y
  /-- A node turns nobody away it keeps no connection with. -/
  offered : ∀ c x y, s.Dialed c x y → (∀ k, s.Dialed k x y → ⟨k, .listener⟩ ∉ s.kept y) →
    ⟨c, .listener⟩ ∈ s.unread y ∨ s.now y = .met ⟨c, .listener⟩
  /-- Who is kept keeps, or will. -/
  answered : ∀ c x y, s.Dialed c x y → ⟨c, .listener⟩ ∈ s.kept y →
    ⟨c, .dialer⟩ ∈ s.kept x ∨ s.now x = .met ⟨c, .dialer⟩ ∨
      (⟨c, .dialer⟩ ∈ s.unread x ∧ s.inbox ⟨c, .dialer⟩ ≠ [])
  single : ∀ c k x y, s.Dialed c x y → s.Dialed k x y → ⟨c, .listener⟩ ∈ s.kept y →
    ⟨k, .listener⟩ ∈ s.kept y → c = k

section

variable [LT ι] {s : Exchange ι}

/-- Who keeps an end finds the other one held. -/
theorem Meshed.held_other (h : s.Meshed) {x : ι} {e : TcpStream} (he : e ∈ s.kept x) :
    s.Held e.other := by
  have howner := (h.owned.kept x e he).1
  obtain ⟨a, b, hdialed⟩ := h.made e.conn (h.owned.fresh e x howner)
  obtain ⟨c, side⟩ := e
  cases side with
  | dialer =>
      obtain rfl : x = a := Option.some.inj (howner.symm.trans hdialed.1)
      exact ⟨b, hdialed.2, .inr (.inr (h.heard c x b hdialed (.inr (.inr he))))⟩
  | listener =>
      obtain rfl : x = b := Option.some.inj (howner.symm.trans hdialed.2)
      refine ⟨a, hdialed.1, ?_⟩
      rcases h.answered c a x hdialed he with hkept | hmet | ⟨hunread, -⟩
      · exact .inr (.inr hkept)
      · exact .inr (.inl hmet)
      · exact .inl hunread

end

section

variable [Preorder ι] {s : Exchange ι}

/-- Of two nodes it is always the same one that dials. -/
theorem Meshed.same_side (h : s.Meshed) {c : Nat} {a b : ι} (hc : s.Dialed c a b)
    {f : TcpStream} (hf : s.owner f = some b) (hother : s.owner f.other = some a) :
    ∃ k, f = ⟨k, .listener⟩ ∧ s.Dialed k a b := by
  obtain ⟨k, side⟩ := f
  cases side with
  | listener => exact ⟨k, rfl, hother, hf⟩
  | dialer => exact absurd (h.upward c a b hc) (lt_asymm (h.upward k b a ⟨hf, hother⟩))

/-- A node keeps no two connections with one that it has dialed. -/
theorem Meshed.single_dialer (h : s.Meshed) {c : Nat} {a b : ι} (hc : s.Dialed c a b)
    (hlistens : ⟨c, .listener⟩ ∈ s.kept b) {f : TcpStream} (hf : f ∈ s.kept a)
    (hother : s.owner f.other = some b) : f = ⟨c, .dialer⟩ := by
  have howner := (h.owned.kept a f hf).1
  obtain ⟨k, hk, hdialed⟩ := h.same_side hc hother (by rwa [TcpStream.other_other])
  obtain rfl : f = ⟨k, .dialer⟩ := by rw [← TcpStream.other_other f, hk, TcpStream.other_listener]
  have hkept := h.heard k a b hdialed (.inr (.inr hf))
  rw [h.single c k a b hc hdialed hlistens hkept]

end

/-! ## What a step changes -/

section

variable [DecidableEq ι] {s s' : Exchange ι} {x : ι} {d : Deed ι}

theorem Step.dialed_mono (hs : s.Owned) (h : s.Step x d s') {c : Nat} {a b : ι}
    (hc : s.Dialed c a b) : s'.Dialed c a b :=
  ⟨Exchange.Step.owner_old hs h hc.1, Exchange.Step.owner_old hs h hc.2⟩

/-- A connection was there before, or is the one just dialed. -/
theorem Step.dialed_cases (hs : s.Owned) (h : s.Step x d s') {c : Nat} {a b : ι}
    (hc : s'.Dialed c a b) : s.Dialed c a b ∨ d = .dial b ∧ a = x ∧ c = s.nextConn := by
  by_cases hlt : c < s.nextConn
  · have hold : ∀ side, s'.owner ⟨c, side⟩ = s.owner ⟨c, side⟩ := fun side => h.owner_of_lt hlt
    exact .inl ⟨(hold _).symm.trans hc.1, (hold _).symm.trans hc.2⟩
  · right
    by_cases hd : ∃ y, d = .dial y
    · obtain ⟨y, rfl⟩ := hd
      cases h with
      | dial _ hfree =>
          rcases new_of_connect hc.1 hlt hs with ⟨heq, rfl⟩ | ⟨heq, -⟩
          · rcases new_of_connect hc.2 hlt hs with ⟨heq', -⟩ | ⟨-, rfl⟩
            · cases heq'
            · exact ⟨rfl, rfl, congrArg TcpStream.conn heq⟩
          · cases heq
    · rw [Dialed, (h.owner_eq fun y hy => hd ⟨y, hy⟩).1] at hc
      exact absurd (hs.fresh _ _ hc.1) hlt

omit [DecidableEq ι] in
/-- An end that is held is not lost from the other side. -/
theorem Rising.not_lost [LT ι] (ho : s.Rising x d) {e : TcpStream} (hd : d = .lose)
    (hnow : s.now x = .reading e) : ¬s.Held e.other := by
  subst hd
  rcases ho with ⟨e', hnow', hheld⟩ | ⟨e', f, hnow', -⟩
  · obtain rfl := Now.reading.inj (hnow.symm.trans hnow')
    exact hheld
  · rw [hnow] at hnow'
    cases hnow'

/-- An end that has been met stays so until it is answered, or turned away
for another one. -/
theorem Step.met_stays [LT ι] (h : s.Step x d s') (ho : s.Rising x d) {z : ι} {e : TcpStream}
    (hz : s.now z = .met e) :
    s'.now z = .met e ∨
      z = x ∧ (d = .answer ∨ ∃ f ∈ s.kept x, s.owner f.other = s.owner e.other) := by
  by_cases hx : z = x
  · subst hx
    cases h with
    | answer msg h => exact .inr ⟨rfl, .inl rfl⟩
    | lose h hinbox =>
        rcases ho with ⟨e', hnow, -⟩ | ⟨e', f, hnow, hf, howner⟩
        · rw [hz] at hnow
          cases hnow
        · obtain rfl := Now.met.inj (hz.symm.trans hnow)
          exact .inr ⟨rfl, .inr ⟨f, hf, howner⟩⟩
    | halt h => exact ho.elim
    | hear h hinbox => exact .inl hz
    | forget h => exact .inl hz
    | _ => simp_all
  · exact .inl (h.now_of_ne hx ▸ hz)

end

/-! ## The invariant is kept -/

section

variable [DecidableEq ι] [Preorder ι] {s s' : Exchange ι} {x : ι} {d : Deed ι}

variable (ha : s.Meshed) (h : s.Step x d s') (ho : s.Rising x d)

include h ho

theorem Rising.kept_iff {z : ι} {e : TcpStream} :
    e ∈ s'.kept z ↔ e ∈ s.kept z ∨ z = x ∧ d = .answer ∧ s.now x = .met e :=
  h.kept_iff (fun hd => by subst hd; exact ho) fun hd => by subst hd; exact ho

/-- What becomes of an end that is still to be looked at. -/
theorem Rising.unread_stays {z : ι} {e : TcpStream} (he : e ∈ s.unread z) :
    e ∈ s'.unread z ∨ z = x ∧ s.now x = .reading e ∧
      ((s.inbox e ≠ [] ∧ s'.now x = .met e) ∨ d = .lose) := by
  by_cases hd : ∃ y, d = .dial y
  · obtain ⟨y, rfl⟩ := hd
    cases h with
    | dial _ hfree => exact .inl ((mem_unread_connect hfree).mpr (.inl he))
  · exact h.unread_cases (fun y hy => hd ⟨y, hy⟩) (fun hhalt => by subst hhalt; exact ho) he

include ha

theorem Meshed.running_step (z : ι) : s'.now z ≠ .halted := by
  by_cases hz : z = x
  · subst hz
    cases h with
    | halt h => exact ho.elim
    | hear h hinbox => exact ha.running z
    | forget h => exact ha.running z
    | _ => simp [connect]
  · rw [h.now_of_ne hz]
    exact ha.running z

omit ho in
theorem Meshed.dials_step (z : ι) (e : TcpStream) (he : s'.now z = .dialed e) :
    e.side = .dialer := by
  rcases h.dialed_new he with hold | ⟨-, rfl⟩
  · exact ha.dials z e hold
  · rfl

omit ho in
theorem Meshed.made_step (c : Nat) (hc : c < s'.nextConn) : ∃ a b, s'.Dialed c a b := by
  have hold : c < s.nextConn → ∃ a b, s'.Dialed c a b := fun hlt => by
    obtain ⟨a, b, hdialed⟩ := ha.made c hlt
    exact ⟨a, b, h.dialed_mono ha.owned hdialed⟩
  by_cases hd : ∃ y, d = .dial y
  · obtain ⟨y, rfl⟩ := hd
    cases h with
    | dial _ hfree =>
        rcases Nat.lt_succ_iff_lt_or_eq.mp hc with hlt | rfl
        · exact hold hlt
        · exact ⟨x, y, by simp [Dialed, connect]⟩
  · rw [(h.owner_eq fun y hy => hd ⟨y, hy⟩).2] at hc
    exact hold hc

omit ho in
theorem Meshed.apart_step (z : ι) (e : TcpStream) (hmet : s'.now z = .met e) :
    e ∉ s'.kept z := by
  intro hkept
  rcases h.kept_new hkept with hkept | ⟨rfl, rfl, hnow⟩
  · rcases h.met_new hmet with hmet | ⟨hreading, -⟩
    · exact ha.apart z e hmet hkept
    · exact (ha.owned.kept z e hkept).2 (mem_unread_of_now (by simp [hreading, Now.pending]))
  · cases h with
    | answer msg h => simp at hmet

theorem Meshed.heard_step (c : Nat) (a b : ι) (hc : s'.Dialed c a b)
    (hhears : s'.inbox ⟨c, .dialer⟩ ≠ [] ∨ s'.now a = .met ⟨c, .dialer⟩ ∨
      ⟨c, .dialer⟩ ∈ s'.kept a) : ⟨c, .listener⟩ ∈ s'.kept b := by
  have hkeep : ⟨c, .listener⟩ ∈ s.kept b → ⟨c, .listener⟩ ∈ s'.kept b :=
    fun hold => (ho.kept_iff h).mpr (.inl hold)
  rcases h.dialed_cases ha.owned hc with hold | ⟨rfl, rfl, rfl⟩
  · have heard := ha.heard c a b hold
    rcases hhears with hinbox | hmet | hkept
    · rcases h.inbox_new hinbox with hinbox | hdialed | ⟨rfl, hmet⟩
      · exact hkeep (heard (.inl hinbox))
      · -- whoever was dialed says no hello before he has read one
        have hside := ha.dials x _ hdialed
        cases hside
      · refine (ho.kept_iff h).mpr (.inr ⟨?_, rfl, hmet⟩)
        exact Option.some.inj (hold.2.symm.trans (ha.owned.met x _ hmet).1)
    · rcases h.met_new hmet with hmet | ⟨-, msg, hmsg⟩
      · exact hkeep (heard (.inr (.inl hmet)))
      · exact hkeep (heard (.inl (by simp [hmsg])))
    · rcases h.kept_new hkept with hkept | ⟨rfl, -, hmet⟩
      · exact hkeep (heard (.inr (.inr hkept)))
      · exact hkeep (heard (.inr (.inl hmet)))
  · -- nobody has said anything on a new connection
    cases h with
    | dial _ hfree =>
        rcases hhears with hinbox | hmet | hkept
        · exact absurd (ha.owned.blank ⟨s.nextConn, .dialer⟩ le_rfl) hinbox
        · simp [connect] at hmet
        · have hlt := ha.owned.fresh _ _ (ha.owned.kept _ _ hkept).1
          exact absurd hlt (Nat.lt_irrefl _)

theorem Meshed.waiting_step (c : Nat) (a b : ι) (hc : s'.Dialed c a b)
    (hheld : s'.Held ⟨c, .listener⟩) :
    ⟨c, .dialer⟩ ∈ s'.unread a ∨ ⟨c, .listener⟩ ∈ s'.kept b := by
  rcases h.dialed_cases ha.owned hc with hold | ⟨rfl, rfl, rfl⟩
  · have hheld : s.Held ⟨c, .listener⟩ := by
      by_cases hd : ∃ y, d = .dial y
      · obtain ⟨y, rfl⟩ := hd
        cases h with
        | dial _ hfree => exact held_connect hfree (ha.owned.fresh _ _ hold.2) hheld
      · exact h.held (fun y hy => hd ⟨y, hy⟩) hheld
    have hkeep : ⟨c, .listener⟩ ∈ s.kept b → ⟨c, .listener⟩ ∈ s'.kept b :=
      fun hkept => (ho.kept_iff h).mpr (.inl hkept)
    rcases ha.waiting c a b hold hheld with hunread | hkept
    · rcases ho.unread_stays h hunread with hstays | ⟨-, hreading, ⟨hinbox, -⟩ | hlose⟩
      · exact .inl hstays
      · exact .inr (hkeep (ha.heard c a b hold (.inl hinbox)))
      · exact absurd hheld (ho.not_lost hlose hreading)
    · exact .inr (hkeep hkept)
  · cases h with
    | dial _ hfree => exact .inl ((mem_unread_connect hfree).mpr (.inr (.inl ⟨rfl, rfl⟩)))

theorem Meshed.offered_step (c : Nat) (a b : ι) (hc : s'.Dialed c a b)
    (hnone : ∀ k, s'.Dialed k a b → ⟨k, .listener⟩ ∉ s'.kept b) :
    ⟨c, .listener⟩ ∈ s'.unread b ∨ s'.now b = .met ⟨c, .listener⟩ := by
  rcases h.dialed_cases ha.owned hc with hold | ⟨rfl, rfl, rfl⟩
  · have hnone' : ∀ k, s.Dialed k a b → ⟨k, .listener⟩ ∉ s.kept b := fun k hk hkept =>
      hnone k (h.dialed_mono ha.owned hk) ((ho.kept_iff h).mpr (.inl hkept))
    rcases ha.offered c a b hold hnone' with hunread | hmet
    · rcases ho.unread_stays h hunread with hstays | ⟨rfl, hreading, ⟨-, hmet⟩ | hlose⟩
      · exact .inl hstays
      · exact .inr hmet
      · -- the dialer has not lost his end, nor will before this one is lost
        refine absurd ⟨a, hold.1, ?_⟩ (ho.not_lost hlose hreading)
        rcases ha.waiting c a b hold ⟨b, hold.2, .inl hunread⟩ with hwaits | hkept
        · exact .inl hwaits
        · exact absurd hkept (hnone' c hold)
    · rcases h.met_stays ho hmet with hmet | ⟨rfl, rfl | ⟨f, hf, howner⟩⟩
      · exact .inr hmet
      · exact absurd ((ho.kept_iff h).mpr (.inr ⟨rfl, rfl, hmet⟩)) (hnone c hc)
      · obtain ⟨k, rfl, hk⟩ := ha.same_side hold (ha.owned.kept b f hf).1
          (howner.trans hold.1)
        exact absurd hf (hnone' k hk)
  · cases h with
    | dial _ hfree => exact .inl ((mem_unread_connect hfree).mpr (.inr (.inr ⟨rfl, rfl⟩)))

theorem Meshed.answered_step (c : Nat) (a b : ι) (hc : s'.Dialed c a b)
    (hkept : ⟨c, .listener⟩ ∈ s'.kept b) :
    ⟨c, .dialer⟩ ∈ s'.kept a ∨ s'.now a = .met ⟨c, .dialer⟩ ∨
      (⟨c, .dialer⟩ ∈ s'.unread a ∧ s'.inbox ⟨c, .dialer⟩ ≠ []) := by
  rcases h.dialed_cases ha.owned hc with hold | ⟨rfl, rfl, rfl⟩
  · rcases h.kept_new hkept with hkept | ⟨rfl, rfl, hmet⟩
    · rcases ha.answered c a b hold hkept with hkeeps | hmet | ⟨hunread, hinbox⟩
      · exact .inl ((ho.kept_iff h).mpr (.inl hkeeps))
      · rcases h.met_stays ho hmet with hmet' | ⟨rfl, rfl | ⟨f, hf, howner⟩⟩
        · exact .inr (.inl hmet')
        · exact .inl ((ho.kept_iff h).mpr (.inr ⟨rfl, rfl, hmet⟩))
        · -- no other end is kept for which this one would be turned away
          obtain rfl := ha.single_dialer hold hkept hf (howner.trans hold.2)
          exact absurd hf (ha.apart a _ hmet)
      · rcases ho.unread_stays h hunread with hstays | ⟨rfl, hreading, ⟨-, hmet⟩ | hlose⟩
        · refine .inr (.inr ⟨hstays, ?_⟩)
          rcases h.inbox_cases ha.owned ⟨c, .dialer⟩ with heq | ⟨msg, heq⟩ | hgone
          · rwa [heq]
          · simp [heq]
          · exact absurd hstays (hgone a)
        · exact .inr (.inl hmet)
        · exact absurd ⟨b, hold.2, .inr (.inr hkept)⟩ (ho.not_lost hlose hreading)
    · -- the dialer has not read the hello that is just being said
      have hunread := (ha.waiting c a b hold ⟨b, hold.2, .inr (.inl hmet)⟩).resolve_right
        (ha.apart b _ hmet)
      obtain ⟨msg, hmsg⟩ := h.answer_inbox hmet
      rw [TcpStream.other_listener] at hmsg
      rcases ho.unread_stays h hunread with hstays | ⟨rfl, -⟩
      · exact .inr (.inr ⟨hstays, by simp [hmsg]⟩)
      · exact absurd (ha.upward c a a hold) (lt_irrefl a)
  · cases h with
    | dial _ hfree =>
        have hlt := ha.owned.fresh _ _ (ha.owned.kept _ _ hkept).1
        exact absurd hlt (Nat.lt_irrefl _)

end

/-! ## Runs -/

section

variable [DecidableEq ι] [Preorder ι] {s : Exchange ι}

omit [DecidableEq ι] in
/-- **Joined.** Where nothing is left to do, nodes one of which has dialed
the other keep the ends of one connection. -/
theorem Meshed.joined (h : s.Meshed) (hrest : ∀ x, s.now x = .free ∧ s.log x = []) {c : Nat}
    {a b : ι} (hc : s.Dialed c a b) :
    ∃ k, s.Dialed k a b ∧ ⟨k, .dialer⟩ ∈ s.kept a ∧ ⟨k, .listener⟩ ∈ s.kept b := by
  have hunread : ∀ x e, e ∉ s.unread x := fun x e he => by
    simp [unread, hrest x, Now.pending] at he
  have hmet : ∀ x e, s.now x ≠ .met e := fun x e he => by simp [hrest x] at he
  have hkept : ∃ k, s.Dialed k a b ∧ ⟨k, .listener⟩ ∈ s.kept b := by
    by_contra hnone
    push Not at hnone
    rcases h.offered c a b hc hnone with he | he
    · exact hunread _ _ he
    · exact hmet _ _ he
  obtain ⟨k, hk, hkept⟩ := hkept
  refine ⟨k, hk, ?_, hkept⟩
  rcases h.answered k a b hk hkept with he | he | ⟨he, -⟩
  · exact he
  · exact absurd he (hmet _ _)
  · exact absurd he (hunread _ _)

end

end Reactor.Sn.Exchange
