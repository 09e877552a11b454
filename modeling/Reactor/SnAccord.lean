import Reactor.SnDeadlock

/-!
# Two nodes that dial each other

What an exchange of hellos between two nodes comes to when nothing goes
wrong (`Orderly`): a node dials only while the other is not between
dialing and putting its own end in line, an end is lost only because the
other end is gone or because another connection is kept, and what is kept
stays.

**`Accord.agreement`**: then both keep the two ends of one connection, or neither
keeps anything. What makes it so is an order (`Before`): of two
connections that cross, one comes before the other at the node that dialed
it. If the two ends kept were of different connections, each dialed by the
node that does not keep it, both would come before the other.
-/

namespace Reactor.Sn.Exchange

/-! ## Steps in order -/

/-- Some node has the end. -/
def Held {ι : Type} (s : Exchange ι) (e : TcpStream) : Prop :=
  ∃ x, s.owner e = some x ∧ (e ∈ s.unread x ∨ s.now x = .met e ∨ e ∈ s.kept x)

def Orderly (s : Exchange Bool) (x : Bool) : Deed Bool → Prop
  | .dial y => y = !x ∧ ∀ e, s.now (!x) ≠ .dialed e ∧ s.now (!x) ≠ .greeted e
  | .answer => s.kept x = ∅
  | .lose => (∃ e, s.now x = .reading e ∧ ¬s.Held e.other) ∨
      ((∃ e, s.now x = .met e) ∧ (s.kept x).Nonempty)
  | .forget | .halt => False
  | _ => True

/-- The ends to be looked at, but not one that has yet to be put in line. -/
def line {ι : Type} (s : Exchange ι) (x : ι) : List TcpStream :=
  match s.now x with
  | .reading e => e :: s.log x
  | _ => s.log x

/-- At `x`, who dialed the connection `c`, that one comes before `d`, of
which he is the listener. -/
def Before (s : Exchange Bool) (c d : Nat) (x : Bool) : Prop :=
  ⟨c, .dialer⟩ ∈ s.unread x →
    List.Sublist [⟨c, .dialer⟩, ⟨d, .listener⟩] (s.line x)

structure Accord (s : Exchange Bool) : Prop where
  owned : s.Owned
  greets : s.Greets
  running : ∀ x, s.now x ≠ .halted
  dials : ∀ x e, s.now x = .dialed e ∨ s.now x = .greeted e → e.side = .dialer
  made : ∀ e, e.conn < s.nextConn → ∃ x, s.owner e = some x
  apart : ∀ e x, s.owner e = some x → s.owner e.other = some (!x)
  /-- Hellos for whoever dialed come from a node that keeps its end. -/
  heard : ∀ c x, s.owner ⟨c, .dialer⟩ = some x →
    s.inbox ⟨c, .dialer⟩ ≠ [] ∨ s.now x = .met ⟨c, .dialer⟩ ∨ ⟨c, .dialer⟩ ∈ s.kept x →
    ⟨c, .listener⟩ ∈ s.kept (!x)
  /-- As long as whoever was dialed has his end, the dialer looks at his. -/
  waiting : ∀ c x, s.owner ⟨c, .dialer⟩ = some x → s.Held ⟨c, .listener⟩ →
    ⟨c, .dialer⟩ ∈ s.unread x ∨ ⟨c, .listener⟩ ∈ s.kept (!x)
  /-- A node that keeps nothing has not turned anybody away. -/
  offered : ∀ c y, s.owner ⟨c, .listener⟩ = some y → s.kept y = ∅ →
    ⟨c, .listener⟩ ∈ s.unread y ∨ s.now y = .met ⟨c, .listener⟩
  /-- Who is kept keeps, or will. -/
  answered : ∀ c y, ⟨c, .listener⟩ ∈ s.kept y →
    ⟨c, .dialer⟩ ∈ s.kept (!y) ∨ s.now (!y) = .met ⟨c, .dialer⟩ ∨
      (⟨c, .dialer⟩ ∈ s.unread (!y) ∧ s.inbox ⟨c, .dialer⟩ ≠ [])
  same : ∀ x y, ∀ e ∈ s.kept x, ∀ f ∈ s.kept y, e.conn = f.conn
  order : ∀ c d x, s.owner ⟨c, .dialer⟩ = some x → s.owner ⟨d, .dialer⟩ = some (!x) →
    s.Before c d x ∨ s.Before d c (!x)

variable {s s' : Exchange Bool} {x : Bool} {d : Deed Bool}

/-- Two ends of one connection that one node keeps are the same. -/
theorem Accord.eq_of_conn (h : s.Accord) {e f : TcpStream} (he : s.owner e = some x)
    (hf : s.owner f = some x) (hconn : e.conn = f.conn) : e = f := by
  obtain ⟨c, side⟩ := e
  obtain ⟨c', side'⟩ := f
  obtain rfl : c = c' := hconn
  have hother := h.apart _ x he
  cases side <;> cases side' <;> simp_all

/-- Who keeps an end finds the other one held. -/
theorem Accord.held_other (h : s.Accord) {e : TcpStream} (he : e ∈ s.kept x) : s.Held e.other := by
  have howner := h.apart e x (h.owned.kept x e he).1
  obtain ⟨c, side⟩ := e
  refine ⟨!x, howner, ?_⟩
  cases side with
  | dialer =>
      exact .inr (.inr (h.heard c x (h.owned.kept x _ he).1 (.inr (.inr he))))
  | listener =>
      rcases h.answered c x he with hkept | hmet | ⟨hunread, -⟩
      · exact .inr (.inr hkept)
      · exact .inr (.inl hmet)
      · exact .inl hunread

theorem mem_unread_of_line {ι : Type} {s : Exchange ι} {x : ι} {e : TcpStream}
    (h : e ∈ s.line x) : e ∈ s.unread x := by
  unfold line at h
  split at h
  · next hnow => simpa [unread, hnow, Now.pending] using h
  · exact List.mem_append_right _ h

/-! ## What a step changes -/

theorem Step.kept_cases (h : s.Step x d s') (ho : s.Orderly x d) {z : Bool} {e : TcpStream} :
    e ∈ s'.kept z ↔ e ∈ s.kept z ∨ z = x ∧ d = .answer ∧ s.now x = .met e :=
  h.kept_iff (fun hd => by subst hd; exact ho) fun hd => by subst hd; exact ho

theorem Step.held {ι : Type} [DecidableEq ι] {s s' : Exchange ι} {x : ι} {d : Deed ι}
    (h : s.Step x d s') (hd : ∀ y, d ≠ .dial y) {e : TcpStream} (he : s'.Held e) : s.Held e := by
  obtain ⟨z, howner, hhas⟩ := he
  rw [(h.owner_eq hd).1] at howner
  refine ⟨z, howner, ?_⟩
  rcases hhas with hunread | hmet | hkept
  · exact .inl ((h.subperm hd z).subset hunread)
  · rcases h.met_new hmet with hmet | ⟨hreading, -⟩
    · exact .inr (.inl hmet)
    · exact .inl (mem_unread_of_now (by simp [hreading, Now.pending]))
  · rcases h.kept_new hkept with hkept | ⟨rfl, -, hmet⟩
    · exact .inr (.inr hkept)
    · exact .inr (.inl hmet)

/-- An end is held as before a connection was made. -/
theorem held_connect {ι : Type} [DecidableEq ι] {s : Exchange ι} {x y : ι} {e : TcpStream}
    (hfree : s.now x = .free) (hlt : e.conn < s.nextConn) (h : (s.connect x y).Held e) :
    s.Held e := by
  obtain ⟨z, howner, hhas⟩ := h
  rw [owner_connect y hlt] at howner
  refine ⟨z, howner, ?_⟩
  rcases hhas with hunread | hmet | hkept
  · rcases (mem_unread_connect hfree).mp hunread with hunread | ⟨-, rfl⟩ | ⟨-, rfl⟩
    · exact .inl hunread
    · exact absurd hlt (Nat.lt_irrefl _)
    · exact absurd hlt (Nat.lt_irrefl _)
  · have hz : z ≠ x := fun hz => by simp [connect, hz] at hmet
    exact .inr (.inl (by simpa [connect, hz] using hmet))
  · exact .inr (.inr hkept)

/-- An end that is held is not lost from the other side. -/
theorem Orderly.not_lost (ho : s.Orderly x d) {e : TcpStream} (hd : d = .lose)
    (hnow : s.now x = .reading e) : ¬s.Held e.other := by
  subst hd
  rcases ho with ⟨e', hnow', hheld⟩ | ⟨⟨e', hnow'⟩, -⟩
  · obtain rfl := Now.reading.inj (hnow.symm.trans hnow')
    exact hheld
  · rw [hnow] at hnow'
    cases hnow'

/-- An end that has been met stays so until it is answered or turned away. -/
theorem Step.met_cases (h : s.Step x d s') (ho : s.Orderly x d) {z : Bool} {e : TcpStream}
    (hz : s.now z = .met e) :
    s'.now z = .met e ∨ z = x ∧ (d = .answer ∨ (s.kept x).Nonempty) := by
  by_cases hx : z = x
  · subst hx
    cases h with
    | answer msg h => exact .inr ⟨rfl, .inl rfl⟩
    | lose h hinbox =>
        rcases ho with ⟨e', hnow, -⟩ | ⟨-, hkept⟩
        · rw [hz] at hnow
          cases hnow
        · exact .inr ⟨rfl, .inr hkept⟩
    | halt h => exact ho.elim
    | hear h hinbox => exact .inl hz
    | forget h => exact .inl hz
    | _ => simp_all
  · exact .inl (h.now_of_ne hx ▸ hz)

/-! ## The invariant is kept -/

section

variable (ha : s.Accord) (h : s.Step x d s') (ho : s.Orderly x d)

include ha h ho

theorem Accord.running_step (z : Bool) : s'.now z ≠ .halted := by
  by_cases hz : z = x
  · subst hz
    cases h with
    | halt h => exact ho.elim
    | hear h hinbox => exact ha.running z
    | forget h => exact ha.running z
    | _ => simp [connect]
  · rw [h.now_of_ne hz]
    exact ha.running z

theorem Accord.dials_step (z : Bool) (e : TcpStream)
    (he : s'.now z = .dialed e ∨ s'.now z = .greeted e) : e.side = .dialer := by
  by_cases hz : z = x
  · subst hz
    cases h with
    | dial y h =>
        obtain rfl : ⟨s.nextConn, .dialer⟩ = e := by simpa [connect] using he
        rfl
    | @greet e' msg h =>
        obtain rfl : e' = e := by simpa using he
        exact ha.dials z e' (.inl h)
    | hear h hinbox => exact ha.dials z e he
    | forget h => exact ha.dials z e he
    | _ => simp at he
  · rw [h.now_of_ne hz] at he
    exact ha.dials z e he

theorem Accord.made_step (e : TcpStream) (he : e.conn < s'.nextConn) :
    ∃ z, s'.owner e = some z := by
  by_cases hd : ∃ y, d = .dial y
  · obtain ⟨y, rfl⟩ := hd
    cases h with
    | dial _ h =>
        rcases Nat.lt_succ_iff_lt_or_eq.mp he with hlt | heq
        · rw [owner_connect y hlt]
          exact ha.made e hlt
        · obtain ⟨c, side⟩ := e
          obtain rfl : c = s.nextConn := heq
          cases side <;> simp [connect]
  · obtain ⟨howner, hnext⟩ := h.owner_eq fun y hy => hd ⟨y, hy⟩
    rw [howner]
    exact ha.made e (hnext ▸ he)

theorem Accord.apart_step (e : TcpStream) (z : Bool) (he : s'.owner e = some z) :
    s'.owner e.other = some (!z) := by
  by_cases hd : ∃ y, d = .dial y
  · obtain ⟨y, rfl⟩ := hd
    obtain rfl := ho.1
    cases h with
    | dial _ h =>
        by_cases hconn : e.conn = s.nextConn
        · obtain ⟨c, side⟩ := e
          obtain rfl : c = s.nextConn := hconn
          cases side <;> simp_all [connect]
        · have hne : ∀ f : TcpStream, f.conn = e.conn → ∀ side, f ≠ ⟨s.nextConn, side⟩ :=
            fun f hf side heq => hconn (by rw [← hf, heq])
          simp only [connect, Function.update_of_ne (hne e rfl _)] at he
          simp only [connect, Function.update_of_ne (hne e.other rfl _)]
          exact ha.apart e z he
  · obtain ⟨howner, -⟩ := h.owner_eq fun y hy => hd ⟨y, hy⟩
    rw [howner] at he ⊢
    exact ha.apart e z he

theorem Accord.heard_step (c : Nat) (z : Bool) (howner : s'.owner ⟨c, .dialer⟩ = some z)
    (hc : s'.inbox ⟨c, .dialer⟩ ≠ [] ∨ s'.now z = .met ⟨c, .dialer⟩ ∨ ⟨c, .dialer⟩ ∈ s'.kept z) :
    ⟨c, .listener⟩ ∈ s'.kept (!z) := by
  -- a hello, or what came of one, is on a connection that there was
  have hold : ∀ y, s.owner ⟨c, .dialer⟩ = some y → s.owner ⟨c, .dialer⟩ = some z := by
    intro y hy
    rwa [h.owner_of_lt (e := ⟨c, .dialer⟩) (ha.owned.fresh _ y hy)] at howner
  have hkeep : s.inbox ⟨c, .dialer⟩ ≠ [] ∨ s.now z = .met ⟨c, .dialer⟩ ∨ ⟨c, .dialer⟩ ∈ s.kept z →
      ⟨c, .listener⟩ ∈ s'.kept (!z) := by
    intro hheard
    refine (h.kept_cases ho).mpr (.inl ?_)
    rcases hheard with hinbox | hmet | hkept
    · have hlt : c < s.nextConn := by
        by_contra hge
        exact hinbox (ha.owned.blank _ (Nat.not_lt.mp hge))
      obtain ⟨y, hy⟩ := ha.made ⟨c, .dialer⟩ hlt
      exact ha.heard c z (hold y hy) (.inl hinbox)
    · exact ha.heard c z (hold z (ha.owned.met z _ hmet).1) (.inr (.inl hmet))
    · exact ha.heard c z (hold z (ha.owned.kept z _ hkept).1) (.inr (.inr hkept))
  rcases hc with hinbox | hmet | hkept
  · rcases h.inbox_new hinbox with hinbox | hdialed | ⟨rfl, hmet⟩
    · exact hkeep (.inl hinbox)
    · cases ha.dials x _ (.inl hdialed)
    · -- the hello has just been written by the node that now keeps its end
      have hown : s.owner ⟨c, .listener⟩ = some x := (ha.owned.met x _ hmet).1
      have hz := hold _ (ha.apart _ x hown)
      obtain rfl : (!x) = z := Option.some.inj ((ha.apart _ x hown).symm.trans hz)
      exact (h.kept_cases ho).mpr (.inr ⟨by simp, rfl, hmet⟩)
  · rcases h.met_new hmet with hmet | ⟨-, msg, hinbox⟩
    · exact hkeep (.inr (.inl hmet))
    · exact hkeep (.inl (hinbox ▸ List.cons_ne_nil _ _))
  · rcases (h.kept_cases ho).mp hkept with hkept | ⟨rfl, -, hmet⟩
    · exact hkeep (.inr (.inr hkept))
    · exact hkeep (.inr (.inl hmet))

theorem Accord.waiting_step (c : Nat) (z : Bool) (howner : s'.owner ⟨c, .dialer⟩ = some z)
    (hheld : s'.Held ⟨c, .listener⟩) :
    ⟨c, .dialer⟩ ∈ s'.unread z ∨ ⟨c, .listener⟩ ∈ s'.kept (!z) := by
  by_cases hd : ∃ y, d = .dial y
  · obtain ⟨y, rfl⟩ := hd
    cases h with
    | dial _ hfree =>
        by_cases hlt : c < s.nextConn
        · rw [owner_connect y (e := ⟨c, .dialer⟩) hlt] at howner
          have hheld := held_connect hfree (e := ⟨c, .listener⟩) hlt hheld
          exact (ha.waiting c z howner hheld).imp
            (fun hunread => (mem_unread_connect hfree).mpr (.inl hunread)) id
        · rcases new_of_connect howner hlt ha.owned with ⟨heq, rfl⟩ | ⟨heq, -⟩
          · exact .inl ((mem_unread_connect hfree).mpr (.inr (.inl ⟨rfl, heq⟩)))
          · cases heq
  · have hd : ∀ y, d ≠ .dial y := fun y hy => hd ⟨y, hy⟩
    rw [(h.owner_eq hd).1] at howner
    have hheld := h.held hd hheld
    rcases ha.waiting c z howner hheld with hunread | hkept
    · rcases h.unread_cases hd (fun hhalt => by subst hhalt; exact ho.elim) hunread with
        hunread | ⟨rfl, hnow, ⟨hinbox, -⟩ | hlose⟩
      · exact .inl hunread
      · exact .inr ((h.kept_cases ho).mpr (.inl (ha.heard c z howner (.inl hinbox))))
      · exact absurd hheld (ho.not_lost hlose hnow)
    · exact .inr ((h.kept_cases ho).mpr (.inl hkept))

theorem Accord.offered_step (c : Nat) (y : Bool) (howner : s'.owner ⟨c, .listener⟩ = some y)
    (hkept : s'.kept y = ∅) : ⟨c, .listener⟩ ∈ s'.unread y ∨ s'.now y = .met ⟨c, .listener⟩ := by
  have hnone : s.kept y = ∅ := by
    refine Set.eq_empty_of_forall_notMem fun e he => ?_
    have hmem := (h.kept_cases ho).mpr (.inl he)
    rw [hkept] at hmem
    exact hmem
  by_cases hd : ∃ w, d = .dial w
  · obtain ⟨w, rfl⟩ := hd
    cases h with
    | dial _ hfree =>
        by_cases hlt : c < s.nextConn
        · rw [owner_connect w (e := ⟨c, .listener⟩) hlt] at howner
          rcases ha.offered c y howner hnone with hunread | hmet
          · exact .inl ((mem_unread_connect hfree).mpr (.inl hunread))
          · have hy : y ≠ x := fun hy => by simp [hy, hfree] at hmet
            exact .inr (by simpa [connect, hy] using hmet)
        · rcases new_of_connect howner hlt ha.owned with ⟨heq, -⟩ | ⟨heq, rfl⟩
          · cases heq
          · exact .inl ((mem_unread_connect hfree).mpr (.inr (.inr ⟨rfl, heq⟩)))
  · have hd : ∀ y, d ≠ .dial y := fun y hy => hd ⟨y, hy⟩
    rw [(h.owner_eq hd).1] at howner
    rcases ha.offered c y howner hnone with hunread | hmet
    · rcases h.unread_cases hd (fun hhalt => by subst hhalt; exact ho.elim) hunread with
        hunread' | ⟨rfl, hnow, ⟨-, hmet⟩ | hlose⟩
      · exact .inl hunread'
      · exact .inr hmet
      · -- nobody lets go of a connection that has not been looked at
        have hdialer := ha.apart _ y howner
        have hheld : s.Held ⟨c, .listener⟩ := ⟨y, howner, .inl hunread⟩
        rcases ha.waiting c (!y) hdialer hheld with hwaits | hkeeps
        · exact absurd ⟨!y, hdialer, .inl hwaits⟩ (ho.not_lost hlose hnow)
        · rw [Bool.not_not, hnone] at hkeeps
          exact hkeeps.elim
    · rcases h.met_cases ho hmet with hmet' | ⟨rfl, rfl | ⟨e, he⟩⟩
      · exact .inr hmet'
      · have hmem := (h.kept_cases ho).mpr (.inr ⟨rfl, rfl, hmet⟩)
        rw [hkept] at hmem
        exact hmem.elim
      · rw [hnone] at he
        exact he.elim

theorem Accord.answered_step (c : Nat) (y : Bool) (hkept : ⟨c, .listener⟩ ∈ s'.kept y) :
    ⟨c, .dialer⟩ ∈ s'.kept (!y) ∨ s'.now (!y) = .met ⟨c, .dialer⟩ ∨
      (⟨c, .dialer⟩ ∈ s'.unread (!y) ∧ s'.inbox ⟨c, .dialer⟩ ≠ []) := by
  rcases (h.kept_cases ho).mp hkept with hold | ⟨rfl, rfl, hmet⟩
  · have howner := (ha.owned.kept y _ hold).1
    have hdialer : s.owner ⟨c, .dialer⟩ = some (!y) := ha.apart _ y howner
    rcases ha.answered c y hold with hkeeps | hmet | ⟨hunread, hinbox⟩
    · exact .inl ((h.kept_cases ho).mpr (.inl hkeeps))
    · rcases h.met_cases ho hmet with hmet' | ⟨hx, hanswer | ⟨e, he⟩⟩
      · exact .inr (.inl hmet')
      · exact .inl ((h.kept_cases ho).mpr (.inr ⟨hx, hanswer, hx ▸ hmet⟩))
      · -- what it keeps is this end already
        rw [← hx] at he
        have hconn : e.conn = c := ha.same _ y e he _ hold
        have heq := ha.eq_of_conn (ha.owned.kept _ e he).1 hdialer hconn
        exact .inl ((h.kept_cases ho).mpr (.inl (heq ▸ he)))
    · by_cases hd : ∃ w, d = .dial w
      · obtain ⟨w, rfl⟩ := hd
        cases h with
        | dial _ hfree =>
            exact .inr (.inr ⟨(mem_unread_connect hfree).mpr (.inl hunread), hinbox⟩)
      · have hd : ∀ w, d ≠ .dial w := fun w hw => hd ⟨w, hw⟩
        rcases h.unread_cases hd (fun hhalt => by subst hhalt; exact ho.elim) hunread with
          hunread' | ⟨hx, hnow, ⟨-, hmet⟩ | hlose⟩
        · refine .inr (.inr ⟨hunread', ?_⟩)
          rcases h.inbox_cases ha.owned ⟨c, .dialer⟩ with heq | ⟨msg, heq⟩ | hdone
          · exact heq ▸ hinbox
          · simp [heq]
          · exact absurd hunread' (hdone _)
        · exact .inr (.inl (hx ▸ hmet))
        · exact absurd ⟨y, howner, .inr (.inr hold)⟩ (ho.not_lost hlose hnow)
  · -- the hello has just been written, and whoever dialed still looks at his end
    have howner := (ha.owned.met y _ hmet).1
    have hdialer := ha.apart _ y howner
    have hne : (!y) ≠ y := by simp
    rcases ha.waiting c (!y) hdialer ⟨y, howner, .inr (.inl hmet)⟩ with hunread | hkeeps
    · refine .inr (.inr ⟨?_, ?_⟩)
      · obtain ⟨hnow, hlog, -⟩ := h.others (by simp) hne
        simpa [Exchange.unread, hnow, hlog] using hunread
      · cases h with
        | answer msg hmet' =>
            obtain rfl := Now.met.inj (hmet.symm.trans hmet')
            simp
    · rw [Bool.not_not, show s.kept y = ∅ from ho] at hkeeps
      exact hkeeps.elim

omit h in
/-- What is met and about to be answered is on the connection that the
other node keeps, if it keeps one. -/
theorem Accord.conn_of_answer {e f : TcpStream} (hanswer : d = .answer) (hmet : s.now x = .met e)
    {y : Bool} (hf : f ∈ s.kept y) : e.conn = f.conn := by
  subst hanswer
  have hnone : ∀ e, e ∉ s.kept x := fun e he => by
    rw [show s.kept x = ∅ from ho] at he
    exact he
  obtain rfl : y = !x := by
    by_cases hy : y = x
    · exact absurd (hy ▸ hf) (hnone f)
    · exact Bool.eq_not_of_ne hy
  obtain ⟨howner, hunread⟩ := ha.owned.met x e hmet
  obtain ⟨hfowner, hfunread⟩ := ha.owned.kept _ f hf
  obtain ⟨k, side⟩ := e
  obtain ⟨c, side'⟩ := f
  cases side with
  | dialer => exact ha.same _ _ _ (ha.heard k x howner (.inr (.inl hmet))) _ hf
  | listener =>
      have hdialer : s.owner ⟨k, .dialer⟩ = some (!x) := ha.apart _ x howner
      cases side' with
      | dialer =>
          have hkeeps := ha.heard c (!x) hfowner (.inr (.inr hf))
          rw [Bool.not_not] at hkeeps
          exact absurd hkeeps (hnone _)
      | listener =>
          -- two connections that cross: each would come before the other
          have hfdialer : s.owner ⟨c, .dialer⟩ = some x := by
            simpa using ha.apart _ (!x) hfowner
          have hwaits : ⟨c, .dialer⟩ ∈ s.unread x := by
            rcases ha.answered c (!x) hf with hkeeps | hmet' | ⟨hwaits, -⟩
            · rw [Bool.not_not] at hkeeps
              exact absurd hkeeps (hnone _)
            · rw [Bool.not_not, hmet] at hmet'
              cases hmet'
            · rwa [Bool.not_not] at hwaits
          rcases ha.order c k x hfdialer hdialer with hbefore | hbefore
          · exact absurd (mem_unread_of_line ((hbefore hwaits).subset (by simp))) hunread
          · rcases ha.waiting k (!x) hdialer ⟨x, howner, .inr (.inl hmet)⟩ with hk | hk
            · exact absurd (mem_unread_of_line ((hbefore hk).subset (by simp))) hfunread
            · rw [Bool.not_not] at hk
              exact absurd hk (hnone _)

theorem Accord.same_step (a b : Bool) (e : TcpStream) (he : e ∈ s'.kept a) (f : TcpStream)
    (hf : f ∈ s'.kept b) : e.conn = f.conn := by
  rcases (h.kept_cases ho).mp he with he | ⟨-, hanswer, hmet⟩
  · rcases (h.kept_cases ho).mp hf with hf | ⟨-, hanswer, hmet⟩
    · exact ha.same a b e he f hf
    · exact (ha.conn_of_answer ho hanswer hmet he).symm
  · rcases (h.kept_cases ho).mp hf with hf | ⟨-, -, hmet'⟩
    · exact ha.conn_of_answer ho hanswer hmet hf
    · exact congrArg _ (Now.met.inj (hmet.symm.trans hmet'))

end

/-- What comes before something else does so until it is looked at. -/
theorem Step.before (hs : s.Owned) (h : s.Step x d s') (hd : ∀ y, d ≠ .dial y) (hhalt : d ≠ .halt)
    {c k : Nat} {z : Bool} (hbefore : s.Before c k z) : s'.Before c k z := by
  intro hunread'
  have hunread := (h.subperm hd z).subset hunread'
  have hline := hbefore hunread
  by_cases hz : z = x
  · subst hz
    -- dropping the first of the line, which is not this one
    have hdrop : ∀ e, s.now z = .reading e → e ∉ s'.unread z →
        List.Sublist [⟨c, .dialer⟩, ⟨k, .listener⟩] (s.log z) := by
      intro e hnow he
      rw [line, hnow] at hline
      rcases List.sublist_cons_iff.mp hline with hline | ⟨r, heq, -⟩
      · exact hline
      · obtain ⟨rfl, -⟩ := List.cons.inj heq
        exact absurd hunread' he
    have hhead : ∀ e, s.now z = .reading e → e ∉ s.log z := by
      intro e hnow
      have hnodup := hs.nodup z
      simp only [Exchange.unread, hnow, Now.pending, List.singleton_append,
        List.nodup_cons] at hnodup
      exact hnodup.1
    cases h with
    | dial y => exact absurd rfl (hd y)
    | greet msg h => simpa [line, h] using hline
    | @enqueue e before after h hlog =>
        have hins : (before ++ after).Sublist (before ++ e :: after) :=
          (List.sublist_cons_self e after).append_left before
        simp only [line, h, hlog] at hline
        simpa [line] using hline.trans hins
    | take h hlog => simpa [line, h, hlog] using hline
    | meet h hinbox =>
        have hnot := hhead _ h
        simpa [line] using hdrop _ h (by simpa [Exchange.unread, Now.pending] using hnot)
    | answer msg h => simpa [line, h] using hline
    | lose h hinbox =>
        rcases h with h | h
        · have hnot := hhead _ h
          simpa [line] using hdrop _ h (by simpa [Exchange.unread, Now.pending] using hnot)
        · simpa [line, h] using hline
    | hear h hinbox => exact hline
    | forget h => exact hline
    | halt h => exact absurd rfl hhalt
  · obtain ⟨hnow, hlog, -⟩ := h.others hd hz
    simpa [line, hnow, hlog] using hline

/-- What a node is to look at is in line, but for what it has just dialed. -/
theorem line_connect {y z : Bool} (hfree : s.now x = .free) :
    (s.connect x y).line z = s.line z ++ if z = y then [⟨s.nextConn, .listener⟩] else [] := by
  by_cases hz : z = x
  · subst hz
    by_cases hy : z = y
    · subst hy; simp [line, connect, hfree]
    · simp [line, connect, hfree, hy]
  · by_cases hy : z = y
    · subst hy
      simp only [line, connect, Function.update_of_ne hz, Function.update_self, if_true]
      split <;> simp
    · simp [line, connect, hz, hy]

/-- Whoever dials comes after what the other has dialed. -/
theorem before_connect (hfree : s.now x = .free)
    (ho : s.Orderly x (.dial (!x))) (c : Nat) : (s.connect x (!x)).Before c s.nextConn (!x) := by
  intro hunread
  rw [line_connect hfree, if_pos rfl]
  have hmem : ⟨c, .dialer⟩ ∈ s.line (!x) := by
    rcases (mem_unread_connect hfree).mp hunread with hold | ⟨hx, -⟩ | ⟨-, hnew⟩
    · rw [Exchange.unread, List.mem_append] at hold
      unfold line
      split
      · next e hnow => simpa [hnow, Now.pending] using hold
      · next hnow =>
          refine hold.resolve_left fun hpending => ?_
          unfold Now.pending at hpending
          split at hpending
          · next e he => exact (ho.2 e).1 he
          · next e he => exact (ho.2 e).2 he
          · next e he => exact hnow e he
          · cases hpending
    · simp at hx
    · cases hnew
  exact (List.singleton_sublist.mpr hmem).append (List.Sublist.refl _)

theorem Accord.order_step (ha : s.Accord) (h : s.Step x d s') (ho : s.Orderly x d) (c k : Nat)
    (z : Bool) (hc : s'.owner ⟨c, .dialer⟩ = some z) (hk : s'.owner ⟨k, .dialer⟩ = some (!z)) :
    s'.Before c k z ∨ s'.Before k c (!z) := by
  by_cases hd : ∃ y, d = .dial y
  · obtain ⟨y, rfl⟩ := hd
    obtain rfl := ho.1
    cases h with
    | dial _ hfree =>
        have hold : ∀ {c : Nat} {z : Bool}, ¬c < s.nextConn →
            (s.connect x (!x)).owner ⟨c, .dialer⟩ = some z → c = s.nextConn ∧ z = x := by
          intro c z hlt howner
          rcases new_of_connect howner hlt ha.owned with ⟨heq, hz⟩ | ⟨heq, -⟩
          · exact ⟨congrArg TcpStream.conn heq, hz⟩
          · cases heq
        by_cases hclt : c < s.nextConn
        · by_cases hklt : k < s.nextConn
          · rw [owner_connect _ (e := ⟨c, .dialer⟩) hclt] at hc
            rw [owner_connect _ (e := ⟨k, .dialer⟩) hklt] at hk
            have hkeep : ∀ {c k : Nat} {z : Bool}, c < s.nextConn → s.Before c k z →
                (s.connect x (!x)).Before c k z := by
              intro c k z hlt hbefore hunread
              rw [line_connect hfree]
              rcases (mem_unread_connect hfree).mp hunread with hunread | ⟨-, hnew⟩ | ⟨-, hnew⟩
              · exact (hbefore hunread).trans (List.sublist_append_left _ _)
              · obtain rfl : c = s.nextConn := congrArg TcpStream.conn hnew
                exact absurd hlt (Nat.lt_irrefl _)
              · cases hnew
            exact (ha.order c k z hc hk).imp (hkeep hclt) (hkeep hklt)
          · obtain ⟨rfl, hz⟩ := hold hklt hk
            obtain rfl : z = !x := by simp [← hz]
            exact .inl (before_connect hfree ho c)
        · obtain ⟨rfl, rfl⟩ := hold hclt hc
          exact .inr (before_connect hfree ho k)
  · have hd : ∀ y, d ≠ .dial y := fun y hy => hd ⟨y, hy⟩
    have hhalt : d ≠ .halt := fun hhalt => by subst hhalt; exact ho.elim
    rw [(h.owner_eq hd).1] at hc hk
    exact (ha.order c k z hc hk).imp (h.before ha.owned hd hhalt) (h.before ha.owned hd hhalt)

/-- **One step.** -/
theorem accord_step (ha : s.Accord) (h : s.Step x d s') (ho : s.Orderly x d) : s'.Accord where
  owned := owned_step ha.owned h
  greets := greets_step ha.owned ha.greets h
  running := ha.running_step h ho
  dials := ha.dials_step h ho
  made := ha.made_step h ho
  apart := ha.apart_step h ho
  heard := ha.heard_step h ho
  waiting := ha.waiting_step h ho
  offered := ha.offered_step h ho
  answered := ha.answered_step h ho
  same := ha.same_step h ho
  order := ha.order_step h ho

theorem accord_empty : (empty : Exchange Bool).Accord where
  owned := owned_empty
  greets c x y h := by cases h
  running x := by simp [empty]
  dials x e h := by simp [empty] at h
  made e h := absurd h (Nat.not_lt_zero _)
  apart e x h := by cases h
  heard c x h := by cases h
  waiting c x h := by cases h
  offered c y h := by cases h
  answered c y h := h.elim
  same x y e h := h.elim
  order c d x h := by cases h

/-! ## Rest -/

/-- Nothing is left to do. -/
def AtRest (s : Exchange Bool) : Prop :=
  ∀ x, s.log x = [] ∧ (s.now x = .free ∨ ∃ e, s.now x = .reading e ∧ s.inbox e = [])

/-- **Agreement.** At rest, no connection was ever made and nothing is
kept, or the two ends of one connection are. -/
theorem Accord.agreement (ha : s.Accord) (hrest : s.AtRest) :
    (s.nextConn = 0 ∧ ∀ x, s.kept x = ∅) ∨
      ∃ c x, s.kept x = {⟨c, .dialer⟩} ∧ s.kept (!x) = {⟨c, .listener⟩} := by
  -- a node that still looks at an end has nothing to read on it
  have hidle : ∀ {z : Bool} {e : TcpStream}, e ∈ s.unread z →
      s.now z = .reading e ∧ s.inbox e = [] := by
    intro z e he
    obtain ⟨hlog, hnow | ⟨f, hnow, hinbox⟩⟩ := hrest z
    · simp [Exchange.unread, hlog, hnow, Now.pending] at he
    · obtain rfl : e = f := by simpa [Exchange.unread, hlog, hnow, Now.pending] using he
      exact ⟨hnow, hinbox⟩
  have hmet : ∀ {z : Bool} {e : TcpStream}, s.now z ≠ .met e := by
    intro z e hz
    rcases (hrest z).2 with hnow | ⟨f, hnow, -⟩ <;> rw [hz] at hnow <;> cases hnow
  have honly : ∀ {z : Bool} {e : TcpStream}, e ∈ s.kept z → s.kept z = {e} := by
    intro z e he
    refine Set.eq_singleton_iff_unique_mem.mpr ⟨he, fun f hf => ?_⟩
    exact ha.eq_of_conn (ha.owned.kept z f hf).1 (ha.owned.kept z e he).1 (ha.same z z f hf e he)
  by_cases hkept : ∃ c y, ⟨c, .listener⟩ ∈ s.kept y
  · obtain ⟨c, y, hl⟩ := hkept
    right
    rcases ha.answered c y hl with hd | hd | ⟨hd, hne⟩
    · exact ⟨c, !y, honly hd, by rw [Bool.not_not]; exact honly hl⟩
    · exact absurd hd hmet
    · exact absurd (hidle hd).2 hne
  · have hnone : ∀ x, s.kept x = ∅ := by
      refine fun x => Set.eq_empty_of_forall_notMem fun e he => ?_
      obtain ⟨c, side⟩ := e
      cases side with
      | listener => exact hkept ⟨c, x, he⟩
      | dialer => exact hkept ⟨c, _, ha.heard c x (ha.owned.kept x _ he).1 (.inr (.inr he))⟩
    refine .inl ⟨?_, hnone⟩
    by_contra hconn
    obtain ⟨y, howner⟩ := ha.made ⟨0, .listener⟩ (Nat.pos_of_ne_zero hconn)
    rcases ha.offered 0 y howner (hnone y) with hunread | hnow
    · -- whoever was dialed waits for a hello that the dialer is about to say
      rcases ha.greets 0 (!y) y (ha.apart _ y howner) hunread (hidle hunread).2 with hnow | hnow
      · have hdialed : ⟨0, .dialer⟩ ∈ s.unread (!y) :=
          mem_unread_of_now (by simp [hnow, Now.pending])
        rw [(hidle hdialed).1] at hnow
        cases hnow
      · exact ha.running _ hnow
    · exact hmet hnow

end Reactor.Sn.Exchange
