import Mathlib.Data.List.Forall2
import Reactor.SnEncoding

/-!
# The seed node: wire address books

What is left of an address book after it has been taken in from the wire.
The conversion goes entry by entry and fails as a whole; an address that
does not parse makes it fail, a port that does not fit into 16 bits does
not, although `messages.proto` calls it malformed: the port is cut down to
its low bits.

**`books_kept_iff`**: a wire address book is accepted or turned away as it
should be, and comes back as it was, exactly when all of its ports fit or
one of its addresses fails to parse.
-/

namespace Reactor.Sn

/-! ## Lists -/

theorem mapM_ok_iff {α β ε : Type} {f : α → Except ε β} {as : List α} {bs : List β} :
    as.mapM f = .ok bs ↔ List.Forall₂ (fun a b => f a = .ok b) as bs := by
  induction as generalizing bs with
  | nil =>
      rw [List.forall₂_nil_left_iff]
      exact ⟨fun h => (Except.ok.inj h).symm, fun h => h ▸ rfl⟩
  | cons a as ih =>
      rw [List.forall₂_cons_left_iff, List.mapM_cons]
      constructor
      · intro h
        cases ha : f a with
        | error e =>
            rw [ha] at h
            cases h
        | ok b =>
            cases has : as.mapM f with
            | error e =>
                rw [ha, has] at h
                cases h
            | ok bs' =>
                rw [ha, has] at h
                exact ⟨b, bs', rfl, ih.mp has, (Except.ok.inj h).symm⟩
      · rintro ⟨b, bs', ha, has, rfl⟩
        rw [ha, ih.mpr has]
        rfl

/-- Every element has a partner. -/
theorem exists_forall₂_iff {α β : Type} {R : α → β → Prop} {as : List α} :
    (∃ bs, List.Forall₂ R as bs) ↔ ∀ a ∈ as, ∃ b, R a b := by
  induction as with
  | nil => simp
  | cons a as ih =>
      rw [List.forall_mem_cons, ← ih]
      constructor
      · rintro ⟨_, h⟩
        obtain ⟨b, bs, hb, hbs, -⟩ := List.forall₂_cons_left_iff.mp h
        exact ⟨⟨b, hb⟩, bs, hbs⟩
      · rintro ⟨⟨b, hb⟩, bs, hbs⟩
        exact ⟨b :: bs, .cons hb hbs⟩

/-! ## Books -/

section Books

variable {libs : Libs}

theorem PeerAddr.ofProto_ok {addr : Protos.PeerAddr} {a : PeerAddr} :
    PeerAddr.ofProto libs addr = .ok a ↔
      libs.ipFromStr addr.ip = some a.ip ∧ a.id = addr.id ∧ a.port = addr.port.toUInt16 := by
  unfold PeerAddr.ofProto
  cases hip : libs.ipFromStr addr.ip with
  | none => simp
  | some ip =>
      obtain ⟨id, ip', port⟩ := a
      simp only [Except.ok.injEq, PeerAddr.mk.injEq, Option.some.injEq]
      tauto

theorem AddressBook.ofProto_ok {pb : Protos.AddressBook} {t : AddressBook} :
    AddressBook.ofProto libs pb = .ok t ↔
      List.Forall₂ (fun addr a => PeerAddr.ofProto libs addr = .ok a) pb.addrs t.addrs := by
  rw [← mapM_ok_iff]
  unfold AddressBook.ofProto
  cases pb.addrs.mapM (PeerAddr.ofProto libs) with
  | error e => simp [Except.map]
  | ok as =>
      obtain ⟨bs⟩ := t
      simp [Except.map]

/-- Whether a book is accepted is up to its addresses. -/
theorem AddressBook.exists_ofProto_ok {pb : Protos.AddressBook} :
    (∃ t, AddressBook.ofProto libs pb = .ok t) ↔
      ∀ addr ∈ pb.addrs, ∃ ip, libs.ipFromStr addr.ip = some ip := by
  have hentries :=
    @exists_forall₂_iff _ _ (fun addr a => PeerAddr.ofProto libs addr = .ok a) pb.addrs
  constructor
  · rintro ⟨t, ht⟩ addr haddr
    obtain ⟨a, ha⟩ := hentries.mp ⟨_, AddressBook.ofProto_ok.mp ht⟩ addr haddr
    exact ⟨_, (PeerAddr.ofProto_ok.mp ha).1⟩
  · intro h
    obtain ⟨as, has⟩ := hentries.mpr fun addr haddr => by
      obtain ⟨ip, hip⟩ := h addr haddr
      exact ⟨⟨addr.id, ip, addr.port.toUInt16⟩, PeerAddr.ofProto_ok.mpr ⟨hip, rfl, rfl⟩⟩
    exact ⟨⟨as⟩, AddressBook.ofProto_ok.mpr has⟩

/-- The port is a port number. -/
def PortFits (addr : Protos.PeerAddr) : Prop := addr.port.toNat < 65536

instance (addr : Protos.PeerAddr) : Decidable (PortFits addr) :=
  inferInstanceAs (Decidable (_ < _))

theorem toUInt16_toUInt32 {port : UInt32} :
    port.toUInt16.toUInt32 = port ↔ port.toNat < 65536 := by
  rw [← UInt32.toNat_inj]
  simp

/-- An entry and what has become of it. -/
structure SameAddr (libs : Libs) (addr addr' : Protos.PeerAddr) : Prop where
  id : addr'.id = addr.id
  port : addr'.port = addr.port
  ip : ∃ ip, libs.ipFromStr addr.ip = some ip ∧ libs.ipFromStr addr'.ip = some ip

/-- The conversion does to the book what it should: malformed entries make
it fail, nothing else does, and the entries are the same ones afterwards. -/
structure Kept (libs : Libs) (pb : Protos.AddressBook) : Prop where
  accepts : (∃ t, AddressBook.ofProto libs pb = .ok t) ↔
    ∀ addr ∈ pb.addrs, (∃ ip, libs.ipFromStr addr.ip = some ip) ∧ PortFits addr
  entries : ∀ t, AddressBook.ofProto libs pb = .ok t →
    List.Forall₂ (SameAddr libs) pb.addrs (t.toProto libs).addrs

/-- Every port fits, or some address does not parse. -/
def InRange (libs : Libs) (pb : Protos.AddressBook) : Prop :=
  (∀ addr ∈ pb.addrs, PortFits addr) ∨ ∃ addr ∈ pb.addrs, libs.ipFromStr addr.ip = none

theorem PeerAddr.sameAddr (hip : ∀ ip, libs.ipFromStr (libs.ipToString ip) = some ip)
    {addr : Protos.PeerAddr} {a : PeerAddr} (h : PeerAddr.ofProto libs addr = .ok a)
    (hport : PortFits addr) : SameAddr libs addr (a.toProto libs) := by
  obtain ⟨haddr, hid, hlow⟩ := PeerAddr.ofProto_ok.mp h
  refine ⟨hid, ?_, a.ip, haddr, hip a.ip⟩
  show a.port.toUInt32 = addr.port
  rw [hlow, toUInt16_toUInt32]
  exact hport

theorem Kept.of_inRange (hip : ∀ ip, libs.ipFromStr (libs.ipToString ip) = some ip)
    {pb : Protos.AddressBook} (h : InRange libs pb) : Kept libs pb := by
  rcases h with hports | ⟨bad, hbad, hnone⟩
  · constructor
    · rw [AddressBook.exists_ofProto_ok]
      exact ⟨fun h addr haddr => ⟨h addr haddr, hports addr haddr⟩,
        fun h addr haddr => (h addr haddr).1⟩
    · intro t ht
      rw [AddressBook.toProto, List.forall₂_map_right_iff]
      refine ((List.forall₂_and_left _ _).mpr ⟨hports, AddressBook.ofProto_ok.mp ht⟩).imp ?_
      rintro addr a ⟨hport, ha⟩
      exact PeerAddr.sameAddr hip ha hport
  · -- the conversion fails, and should
    have hfails : ¬∃ t, AddressBook.ofProto libs pb = .ok t := by
      rw [AddressBook.exists_ofProto_ok]
      intro h
      obtain ⟨ip, hsome⟩ := h bad hbad
      rw [hnone] at hsome
      cases hsome
    refine ⟨⟨fun h => absurd h hfails, fun h => ?_⟩, fun t ht => absurd ⟨t, ht⟩ hfails⟩
    obtain ⟨⟨ip, hsome⟩, -⟩ := h bad hbad
    rw [hnone] at hsome
    cases hsome

theorem Kept.inRange {pb : Protos.AddressBook} (h : Kept libs pb) : InRange libs pb := by
  by_cases hparse : ∀ addr ∈ pb.addrs, ∃ ip, libs.ipFromStr addr.ip = some ip
  · have hok := h.accepts.mp (AddressBook.exists_ofProto_ok.mpr hparse)
    exact .inl fun addr haddr => (hok addr haddr).2
  · push Not at hparse
    obtain ⟨addr, haddr, hnone⟩ := hparse
    exact .inr ⟨addr, haddr, Option.eq_none_iff_forall_ne_some.mpr hnone⟩

/-- Books that are kept are not mistaken for each other. -/
theorem Kept.unconfused {pb pb' : Protos.AddressBook} (h : Kept libs pb) (h' : Kept libs pb')
    {t : AddressBook} (ht : AddressBook.ofProto libs pb = .ok t)
    (ht' : AddressBook.ofProto libs pb' = .ok t) :
    pb.addrs.map (fun addr => (addr.id, addr.port)) =
      pb'.addrs.map (fun addr => (addr.id, addr.port)) := by
  have hsame : ∀ pb, Kept libs pb → AddressBook.ofProto libs pb = .ok t →
      (t.toProto libs).addrs.map (fun addr => (addr.id, addr.port)) =
        pb.addrs.map (fun addr => (addr.id, addr.port)) := by
    intro pb h ht
    rw [← List.forall₂_eq_eq_eq, List.forall₂_map_left_iff, List.forall₂_map_right_iff]
    refine (h.entries t ht).flip.imp ?_
    intro addr' addr haddr
    exact Prod.ext haddr.id haddr.port
  rw [← hsame pb h ht, hsame pb' h' ht']

/-- **Wire address books.** The conversion does to a book what it should
exactly when all of its ports fit or one of its addresses does not parse,
and books of this kind that differ in an id or a port differ afterwards. -/
theorem books_kept_iff (hip : ∀ ip, libs.ipFromStr (libs.ipToString ip) = some ip) :
    (∀ pb, Kept libs pb ↔ InRange libs pb) ∧
    ∀ pb pb' t, InRange libs pb → InRange libs pb' →
      AddressBook.ofProto libs pb = .ok t → AddressBook.ofProto libs pb' = .ok t →
      pb.addrs.map (fun addr => (addr.id, addr.port)) =
        pb'.addrs.map (fun addr => (addr.id, addr.port)) :=
  ⟨fun _ => ⟨Kept.inRange, Kept.of_inRange hip⟩,
    fun _ _ _ h h' => (Kept.of_inRange hip h).unconfused (Kept.of_inRange hip h')⟩

end Books

/-- The book that is sent in the test of the reader and the writer. -/
def wireBook : Protos.AddressBook :=
  ⟨[⟨"abcd", "127.0.0.1", 8001⟩, ⟨"efgh", "192.168.1.10", 8080⟩]⟩

theorem books_kept_iff_wireBook : Kept .standard wireBook :=
  ((books_kept_iff IpAddr.ofText_text).1 wireBook).mpr (.inl (by decide))

/-- A port that does not fit is taken for another. -/
theorem port_wraps :
    AddressBook.ofProto .standard ⟨[⟨"abcd", "127.0.0.1", 65536⟩]⟩ =
      .ok ⟨[⟨"abcd", .localhost, 0⟩]⟩ ∧
    AddressBook.ofProto .standard ⟨[⟨"abcd", "127.0.0.1", 0⟩]⟩ =
      .ok ⟨[⟨"abcd", .localhost, 0⟩]⟩ ∧
    ¬Kept .standard ⟨[⟨"abcd", "127.0.0.1", 65536⟩]⟩ := by
  have hdecodes : AddressBook.ofProto .standard ⟨[⟨"abcd", "127.0.0.1", 65536⟩]⟩ =
      .ok ⟨[⟨"abcd", .localhost, 0⟩]⟩ := by decide
  refine ⟨hdecodes, by decide, fun h => ?_⟩
  have hfits := (h.accepts.mp ⟨_, hdecodes⟩ ⟨"abcd", "127.0.0.1", 65536⟩ (.head _)).2
  exact absurd hfits (by decide)

end Reactor.Sn
