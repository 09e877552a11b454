import Reactor.SnExchange

/-!
# One hello on each end

Who says hello on which end, and how often. A node says hello on an end
it has dialed, and on an end it answers. Where nobody answers on an end he
has dialed, the one who dials has said his on it and the one who was dialed
says his on the other, once each (`Polite`): a hello is read before its end
is kept, so that nothing is left to read on what is kept.
-/

namespace Reactor.Sn

open Function (update)

namespace Exchange

variable {ι : Type}

/-! ## What is said -/

/-- The end on which a deed says hello. -/
def hellos (s : Exchange ι) (x : ι) : Deed ι → List TcpStream
  | .greet => match s.now x with
    | .dialed e => [e]
    | _ => []
  | .answer => match s.now x with
    | .met e => [e]
    | _ => []
  | _ => []

/-- What there is to read after somebody has said hello on the ends `l`, or
has read something: he does one of the two, and on one end. -/
inductive Said (inbox inbox' : TcpStream → List PeerMessage) : List TcpStream → Prop
  | nothing (h : ∀ f, inbox' f <:+ inbox f) : Said inbox inbox' []
  | hello {e : TcpStream} {msg : PeerMessage}
      (h : inbox' = update inbox e.other (inbox e.other ++ [msg])) : Said inbox inbox' [e]

section Said

variable {inbox inbox' : TcpStream → List PeerMessage} {l l' : List TcpStream}

/-- Nothing but a hello adds to what there is to read. -/
theorem Said.length_le (h : Said inbox inbox' l) (f : TcpStream) :
    (inbox' f).length ≤ (inbox f).length + l.count f.other := by
  cases h with
  | nothing h => exact (h f).length_le
  | @hello e msg h =>
      rw [h]
      by_cases hf : f = e.other
      · subst hf
        simp
      · simp [hf]

theorem Said.lt (h : Said inbox inbox' l) {e : TcpStream} (he : e ∈ l) :
    (inbox e.other).length < (inbox' e.other).length := by
  cases h with
  | nothing h => cases he
  | @hello e' msg h =>
      obtain rfl := List.mem_singleton.mp he
      simp [h]

/-- What there is to read shows on which end a hello has been said. -/
theorem Said.unique (h : Said inbox inbox' l) (h' : Said inbox inbox' l') : l = l' := by
  have hnot : ∀ {l : List TcpStream} {e : TcpStream}, Said inbox inbox' l →
      (inbox e.other).length < (inbox' e.other).length → e ∈ l := by
    intro l e h hlt
    have hle := h.length_le e.other
    rw [TcpStream.other_other] at hle
    exact List.count_pos_iff.mp (by omega)
  cases h with
  | nothing h =>
      cases h' with
      | nothing h' => rfl
      | @hello e msg h' => cases hnot (.nothing h) (Said.lt (.hello h') (List.mem_singleton_self e))
  | @hello e msg h =>
      have he := hnot h' (Said.lt (.hello h) (List.mem_singleton_self e))
      cases h' with
      | nothing h' => cases he
      | hello h' => rw [List.mem_singleton.mp he]

end Said

variable [DecidableEq ι] {s s' : Exchange ι} {x : ι} {d : Deed ι}

theorem Step.said (h : s.Step x d s') : Said s.inbox s'.inbox (s.hellos x d) := by
  have hread : ∀ {e : TcpStream} {rest : List PeerMessage}, rest <:+ s.inbox e → ∀ f,
      update s.inbox e rest f <:+ s.inbox f := by
    intro e rest hrest f
    by_cases hf : f = e
    · subst hf
      simpa using hrest
    · simp [hf]
  cases h with
  | greet msg h => simpa [hellos, h] using Said.hello rfl
  | answer msg h => simpa [hellos, h] using Said.hello rfl
  | meet h hinbox => exact .nothing (hread (by simp [hinbox]))
  | hear h hinbox => exact .nothing (hread (by simp [hinbox]))
  | lose h hinbox => exact .nothing (hread hinbox)
  | _ => exact .nothing fun f => List.suffix_refl _

/-- What an end is on which a deed says hello. -/
theorem Step.hello_cases (h : s.Step x d s') {e : TcpStream} (he : e ∈ s.hellos x d) :
    (d = .greet ∧ s.now x = .dialed e) ∨ (d = .answer ∧ s.now x = .met e) := by
  cases h with
  | greet msg h =>
      obtain rfl : e = _ := by simpa [hellos, h] using he
      exact .inl ⟨rfl, h⟩
  | answer msg h =>
      obtain rfl : e = _ := by simpa [hellos, h] using he
      exact .inr ⟨rfl, h⟩
  | _ => cases he

theorem Owned.owner_of_hello (hs : s.Owned) (h : s.Step x d s') {e : TcpStream}
    (he : e ∈ s.hellos x d) : s.owner e = some x := by
  rcases h.hello_cases he with ⟨-, hnow⟩ | ⟨-, hnow⟩
  · exact hs.unread x e (mem_unread_of_now (by simp [hnow, Now.pending]))
  · exact (hs.met x e hnow).1

/-! ## The invariant -/

/-- After hellos have been said on the ends `said`, on none of them twice. -/
structure Polite (s : Exchange ι) (said : List TcpStream) : Prop where
  once : said.Nodup
  fresh : ∀ e ∈ said, e.conn < s.nextConn
  dials : ∀ x e, s.now x = .dialed e ∨ s.now x = .greeted e → e.side = .dialer
  silent : ∀ x e, s.now x = .dialed e → e ∉ said
  /-- Who dials says hello before he looks at his end. -/
  dialer : ∀ x e, e.side = .dialer → (e ∈ s.unread x ∧ s.now x ≠ .dialed e) ∨ s.now x = .met e →
    e ∈ said
  /-- Who has been dialed does not until he has. -/
  listener : ∀ x e, e.side = .listener → e ∈ s.unread x ∨ s.now x = .met e → e ∉ said
  kept : ∀ x, ∀ e ∈ s.kept x, e ∈ said
  inbox : ∀ f, (s.inbox f).length ≤ said.count f.other
  /-- One hello has been read before an end is met. -/
  heard : ∀ x f, s.now x = .met f ∨ f ∈ s.kept x → (s.inbox f).length < said.count f.other

omit [DecidableEq ι] in
theorem polite_empty : (empty : Exchange ι).Polite [] where
  once := List.nodup_nil
  fresh e he := by cases he
  dials x e he := by simp [empty] at he
  silent x e he := by cases he
  dialer x e _ he := by simp [empty, Exchange.unread, Now.pending] at he
  listener x e _ _ := List.not_mem_nil
  kept x e he := he.elim
  inbox f := Nat.zero_le _
  heard x f hf := by simp [empty] at hf

/-- Nobody answers on an end he has dialed. -/
def Apart (s : Exchange ι) (x : ι) (d : Deed ι) : Prop :=
  ∀ e, d = .answer → s.now x = .met e → e.side = .listener

section

variable {said : List TcpStream} (h : s.Polite said) (hs : s.Owned) (hstep : s.Step x d s')

include h hstep

theorem Polite.dials_step (z : ι) (e : TcpStream)
    (he : s'.now z = .dialed e ∨ s'.now z = .greeted e) : e.side = .dialer := by
  rcases he with hdialed | hgreeted
  · rcases hstep.dialed_new hdialed with hold | ⟨-, rfl⟩
    · exact h.dials z e (.inl hold)
    · rfl
  · exact h.dials z e (hstep.greeted_new hgreeted).symm

theorem Polite.kept_step (z : ι) (e : TcpStream) (he : e ∈ s'.kept z) :
    e ∈ said ++ s.hellos x d := by
  have hold : e ∈ s.kept z → e ∈ said ++ s.hellos x d := fun he =>
    List.mem_append_left _ (h.kept z e he)
  by_cases hz : z = x
  · subst hz
    cases hstep with
    | answer msg hnow =>
        rcases (show e = _ ∨ e ∈ s.kept z by simpa using he) with rfl | he
        · simp [hellos, hnow]
        · exact hold he
    | forget hkept => exact hold (hkept (by simpa using he))
    | halt hkept => exact hold (hkept (by simpa using he))
    | _ => exact hold he
  · have hkept : s'.kept z = s.kept z := by
      cases hstep <;> simp [connect, hz]
    exact hold (hkept ▸ he)

theorem Polite.inbox_step (f : TcpStream) :
    (s'.inbox f).length ≤ (said ++ s.hellos x d).count f.other := by
  have hle := hstep.said.length_le f
  have hinbox := h.inbox f
  rw [List.count_append]
  omega

/-- What is met or kept has been met before, or one hello less is there to
read. -/
theorem Polite.heard_step (z : ι) (f : TcpStream) (hf : s'.now z = .met f ∨ f ∈ s'.kept z) :
    (s'.inbox f).length < (said ++ s.hellos x d).count f.other := by
  have hle := hstep.said.length_le f
  have hold : s.now z = .met f ∨ f ∈ s.kept z →
      (s'.inbox f).length < (said ++ s.hellos x d).count f.other := by
    intro hf
    have hheard := h.heard z f hf
    rw [List.count_append]
    omega
  rcases hf with hmet | hkept
  · rcases hstep.met_new hmet with hmet | ⟨hreading, msg, hinbox⟩
    · exact hold (.inl hmet)
    · have hle := h.inbox f
      rw [hinbox, List.length_cons] at hle
      rw [List.count_append]
      omega
  · by_cases hz : z = x
    · subst hz
      cases hstep with
      | answer msg hnow =>
          rcases (show f = _ ∨ f ∈ s.kept z by simpa using hkept) with rfl | hkept
          · exact hold (.inl hnow)
          · exact hold (.inr hkept)
      | forget hsub => exact hold (.inr (hsub (by simpa using hkept)))
      | halt hsub => exact hold (.inr (hsub (by simpa using hkept)))
      | _ => exact hold (.inr hkept)
    · have heq : s'.kept z = s.kept z := by
        cases hstep <;> simp [connect, hz]
      exact hold (.inr (heq ▸ hkept))

theorem Polite.once_step (hapart : s.Apart x d) : (said ++ s.hellos x d).Nodup := by
  have hnot : ∀ e ∈ s.hellos x d, e ∉ said := by
    intro e he
    rcases hstep.hello_cases he with ⟨-, hnow⟩ | ⟨hd, hnow⟩
    · exact h.silent x e hnow
    · exact h.listener x e (hapart e hd hnow) (.inr hnow)
  refine List.nodup_append.mpr ⟨h.once, ?_, fun a ha b hb hab => hnot b hb (hab ▸ ha)⟩
  cases hstep with
  | greet msg h => simp [hellos, h]
  | answer msg h => simp [hellos, h]
  | _ => exact List.nodup_nil

include hs

theorem Polite.fresh_step (e : TcpStream) (he : e ∈ said ++ s.hellos x d) :
    e.conn < s'.nextConn := by
  have hle : s.nextConn ≤ s'.nextConn := by
    cases hstep <;> simp [connect]
  rcases List.mem_append.mp he with he | he
  · exact (h.fresh e he).trans_le hle
  · exact (hs.fresh e x (hs.owner_of_hello hstep he)).trans_le hle

/-- An end dialed is a new one, or has been dialed before and nothing has
been said on it since. -/
theorem Polite.silent_step (z : ι) (e : TcpStream) (he : s'.now z = .dialed e) :
    e ∉ said ++ s.hellos x d := by
  intro hmem
  rcases hstep.dialed_new he with hold | ⟨⟨y, rfl⟩, rfl⟩
  · rcases List.mem_append.mp hmem with hmem | hmem
    · exact h.silent z e hold hmem
    · have howner : s.owner e = some z :=
        hs.unread z e (mem_unread_of_now (by simp [hold, Now.pending]))
      obtain rfl : z = x := Option.some.inj (howner.symm.trans (hs.owner_of_hello hstep hmem))
      -- who says hello on an end has it dialed no longer
      rcases hstep.hello_cases hmem with ⟨rfl, -⟩ | ⟨rfl, -⟩
      · cases hstep
        simp at he
      · cases hstep
        simp at he
  · exact Nat.lt_irrefl _ (h.fresh _ (by simpa [hellos] using hmem))

/-- An end on which hello has just been said has been looked at before, or
is behind the others now. -/
theorem Polite.dialer_step (z : ι) (e : TcpStream) (he : e.side = .dialer)
    (hcase : (e ∈ s'.unread z ∧ s'.now z ≠ .dialed e) ∨ s'.now z = .met e) :
    e ∈ said ++ s.hellos x d := by
  have hold : (e ∈ s.unread z ∧ s.now z ≠ .dialed e) ∨ s.now z = .met e →
      e ∈ said ++ s.hellos x d := fun hcase => List.mem_append_left _ (h.dialer z e he hcase)
  rcases hcase with ⟨hunread, hnow⟩ | hmet
  · by_cases hd : ∃ y, d = .dial y
    · obtain ⟨y, rfl⟩ := hd
      cases hstep with
      | dial y hfree =>
          rcases (mem_unread_connect hfree).mp hunread with hunread | ⟨rfl, rfl⟩ | ⟨-, rfl⟩
          · refine hold (.inl ⟨hunread, fun hdialed => hnow ?_⟩)
            by_cases hz : z = x
            · subst hz
              rw [hfree] at hdialed
              cases hdialed
            · simpa [connect, hz] using hdialed
          · simp [connect] at hnow
          · cases he
    · have hd : ∀ y, d ≠ .dial y := fun y hy => hd ⟨y, hy⟩
      have hbefore := (hstep.subperm hd z).subset hunread
      by_cases hdialed : s.now z = .dialed e
      · obtain rfl : z = x := by
          by_contra hz
          exact hnow ((hstep.now_of_ne hz).trans hdialed)
        cases hstep with
        | greet msg hnow' =>
            obtain rfl := Now.dialed.inj (hdialed.symm.trans hnow')
            simp [hellos, hdialed]
        | halt hkept =>
            -- nobody has put the end in line
            have hnodup := hs.nodup z
            simp only [Exchange.unread, hdialed, Now.pending, List.singleton_append,
              List.nodup_cons] at hnodup
            exact absurd (by simpa [Exchange.unread, Now.pending] using hunread) hnodup.1
        | lose hnow' => rcases hnow' with hnow' | hnow' <;> simp [hdialed] at hnow'
        | _ => simp_all
      · exact hold (.inl ⟨hbefore, hdialed⟩)
  · rcases hstep.met_new hmet with hmet | ⟨hreading, -⟩
    · exact hold (.inr hmet)
    · refine hold (.inl ⟨mem_unread_of_now (by simp [hreading, Now.pending]), ?_⟩)
      rw [hreading]
      simp

theorem Polite.listener_step (z : ι) (e : TcpStream) (he : e.side = .listener)
    (hcase : e ∈ s'.unread z ∨ s'.now z = .met e) : e ∉ said ++ s.hellos x d := by
  have hnot : e ∉ said := by
    rcases hcase with hunread | hmet
    · by_cases hd : ∃ y, d = .dial y
      · obtain ⟨y, rfl⟩ := hd
        cases hstep with
        | dial y hfree =>
            rcases (mem_unread_connect hfree).mp hunread with hunread | ⟨-, rfl⟩ | ⟨-, rfl⟩
            · exact h.listener z e he (.inl hunread)
            · cases he
            · exact fun hmem => Nat.lt_irrefl _ (h.fresh _ hmem)
      · have hd : ∀ y, d ≠ .dial y := fun y hy => hd ⟨y, hy⟩
        exact h.listener z e he (.inl ((hstep.subperm hd z).subset hunread))
    · rcases hstep.met_new hmet with hmet | ⟨hreading, -⟩
      · exact h.listener z e he (.inr hmet)
      · exact h.listener z e he (.inl (mem_unread_of_now (by simp [hreading, Now.pending])))
  intro hmem
  rcases List.mem_append.mp hmem with hmem | hmem
  · exact hnot hmem
  · rcases hstep.hello_cases hmem with ⟨-, hdialed⟩ | ⟨rfl, hmet⟩
    · simp [h.dials x e (.inl hdialed)] at he
    · obtain ⟨howner, hunread⟩ := hs.met x e hmet
      rcases hcase with hcase | hmet'
      · exact hs.not_unread howner hunread z ((hstep.subperm (by simp) z).subset hcase)
      · by_cases hz : z = x
        · subst hz
          cases hstep
          simp at hmet'
        · have hz' := (hs.met z e (hstep.now_of_ne hz ▸ hmet')).1
          exact hz (Option.some.inj (hz'.symm.trans howner))

theorem polite_step (hapart : s.Apart x d) : s'.Polite (said ++ s.hellos x d) where
  once := h.once_step hstep hapart
  fresh := h.fresh_step hs hstep
  dials := h.dials_step hstep
  silent := h.silent_step hs hstep
  dialer := h.dialer_step hs hstep
  listener := h.listener_step hs hstep
  kept := h.kept_step hstep
  inbox := h.inbox_step hstep
  heard := h.heard_step hstep

end

end Exchange

end Reactor.Sn
