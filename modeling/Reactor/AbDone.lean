import Reactor.AbBindings

/-!
# When a node of the concurrent address book is done

A node says it is done when its map holds ten entries, which it checks
after each `Pong`. The map grows by one entry at most in a step, and its
keys are among ten ids, so that ten entries are all of them; the sender of
the done channel is taken out when it is used.

**`done_means_complete`**: a node says so at most once, in the step in
which it first knows ten peers; and from then on it knows the seed and all
nine ids.
-/

namespace Reactor.Ab

open Reactor.System (Any)

variable {ι : Type} {ids : ι → PeerId} {seedNode : PeerId} {s s' : Sys ι} {a : Act ι}

/-! ## Ten ids -/

/-- The seed's id and those a node draws from. -/
def tenIds : Finset PeerId := (Finset.range 10).image fun n => ⟨UInt32.ofNat n⟩

theorem card_tenIds : tenIds.card = 10 := by decide

theorem mem_tenIds {id : PeerId} : id ∈ tenIds ↔ id.val < 10 := by
  simp only [tenIds, Finset.mem_image, Finset.mem_range]
  constructor
  · rintro ⟨n, hn, rfl⟩
    rw [UInt32.lt_iff_toNat_lt, UInt32.toNat_ofNat']
    exact (Nat.mod_le _ _).trans_lt hn
  · intro h
    exact ⟨id.val.toNat, UInt32.lt_iff_toNat_lt.mp h, by simp⟩

theorem seed_mem_tenIds : (⟨0⟩ : PeerId) ∈ tenIds := by decide

/-- The ids of the nodes: nine at most, none of them the seed's. -/
def InRange (ids : ι → PeerId) : Prop := ∀ i, 1 ≤ (ids i).val ∧ (ids i).val < 10

theorem InRange.ne_seed (h : InRange ids) (i : ι) : ids i ≠ ⟨0⟩ := by
  intro hi
  have := (h i).1
  rw [hi] at this
  exact absurd this (by decide)

theorem InRange.mem (h : InRange ids) (i : ι) : ids i ∈ tenIds := mem_tenIds.mpr (h i).2

/-! ## How much a node knows -/

/-- `known_peers.len()`. -/
def Sys.size (s : Sys ι) (i : ι) : Nat := (s.known i).keys.card

theorem keys_insert {known : HashMap PeerId (Sender ι)} {id : PeerId} {sender : Sender ι} :
    (known.insert id sender).keys = insert id known.keys := by
  refine Finset.ext fun x => ?_
  simp [Finmap.mem_keys]

theorem keys_subset (hids : InRange ids) (hi : Authentic ids ⟨0⟩ s) (i : ι) :
    (s.known i).keys ⊆ tenIds := by
  intro id hid
  obtain ⟨sender, hsender⟩ := Finmap.mem_iff.mp (Finmap.mem_keys.mp hid)
  rcases hi.known i id sender hsender with ⟨rfl, -⟩ | ⟨j, -, rfl, -⟩
  · exact seed_mem_tenIds
  · exact hids.mem j

theorem size_le (hids : InRange ids) (hi : Authentic ids ⟨0⟩ s) (i : ι) : s.size i ≤ 10 :=
  card_tenIds ▸ Finset.card_le_card (keys_subset hids hi i)

/-- Ten entries are all ten ids. -/
theorem keys_of_size (hids : InRange ids) (hi : Authentic ids ⟨0⟩ s) {i : ι}
    (h : s.size i = 10) : (s.known i).keys = tenIds :=
  Finset.eq_of_subset_of_card_le (keys_subset hids hi i) (by rw [card_tenIds]; exact h.ge)

/-- Nine nodes that have said so are all there are. -/
theorem mem_done_of_nine (hinj : Function.Injective ids) (hids : InRange ids)
    {done : List ι} (hnodup : done.Nodup) (hnine : 9 ≤ done.length) (i : ι) : i ∈ done := by
  have hsub : (done.map ids).toFinset ⊆ tenIds.erase ⟨0⟩ := by
    intro id hid
    obtain ⟨j, -, rfl⟩ := List.mem_map.mp (List.mem_toFinset.mp hid)
    exact Finset.mem_erase.mpr ⟨hids.ne_seed j, hids.mem j⟩
  have hcard : (tenIds.erase ⟨0⟩).card ≤ (done.map ids).toFinset.card := by
    rw [List.toFinset_card_of_nodup (hnodup.map hinj), List.length_map,
      Finset.card_erase_of_mem seed_mem_tenIds, card_tenIds]
    omega
  have hall := Finset.eq_of_subset_of_card_le hsub hcard
  have hi : ids i ∈ (done.map ids).toFinset := by
    rw [hall]
    exact Finset.mem_erase.mpr ⟨hids.ne_seed i, hids.mem i⟩
  obtain ⟨j, hj, hij⟩ := List.mem_map.mp (List.mem_toFinset.mp hi)
  exact hinj hij ▸ hj

/-- Who is known by id is known with the right sender. -/
theorem lookup_of_mem (hi : Authentic ids seedNode s) {i : ι} {id : PeerId}
    {sender : Sender ι} (hbinds : ∀ x, s.Binds ids seedNode id x → x = sender)
    (hid : id ∈ s.known i) : (s.known i).lookup id = some sender := by
  obtain ⟨x, hx⟩ := Finmap.mem_iff.mp hid
  rw [hx, hbinds x (hi.known i id x hx)]

variable [DecidableEq ι]

/-- The length test cannot be jumped over. -/
theorem Step.size (hs : Step ids seedNode s a s') (i : ι) :
    s.size i ≤ s'.size i ∧ s'.size i ≤ s.size i + 1 := by
  unfold Sys.size
  rcases hs.known_cases i with hk | ⟨hnone, hk⟩ | ⟨info, -, hk⟩
  · simp [hk]
  · simp [hk, hnone, Finmap.keys_singleton]
  · rw [hk, keys_insert]
    exact ⟨Finset.card_le_card (Finset.subset_insert _ _), Finset.card_insert_le _ _⟩

theorem size_run {G : Sys ι → Act ι → Prop} {bs : List (Act ι)} {t : Sys ι}
    (h : ((network ids seedNode).startAt s).Run G bs t) (i : ι) : s.size i ≤ t.size i := by
  refine h.invariant (fun t => s.size i ≤ t.size i) le_rfl ?_
  intro t a t' hle _ hs
  exact hle.trans ((step_sound hs).size i).1

/-! ## Who has said so -/

/-- A node still has its sender of the done channel when it knows fewer
than ten peers, and has used it when it knows ten. -/
structure Counted (s : Sys ι) : Prop where
  pending : ∀ i book, s.thread i = .running book → (book.doneSender.isSome ↔ s.size i < 10)
  count : ∀ i, s.done.count i = if s.size i = 10 then 1 else 0

theorem counted_step (hc : Counted s) (hle : ∀ i, s'.size i ≤ 10)
    (hs : Step ids seedNode s a s') : Counted s' := by
  have hsize : ∀ i, s.size i ≤ s'.size i := fun i => (hs.size i).1
  refine ⟨fun i book h => ?_, fun i => ?_⟩
  · rcases hs.thread_cases i with ⟨ht, -⟩ | ⟨-, ht, -⟩ | ⟨old, info, hold, -, ht, -⟩ |
      ⟨_, -, -, ht, -⟩
    · rw [Sys.size, Sys.known, ht]
      exact hc.pending i book (ht ▸ h)
    · rw [ht] at h
      cases h
      simp [Sys.size, Sys.known, ht, Thread.known, AddrBook.start, keys_insert]
    · rw [ht] at h
      cases h
      have hlen : s'.size i = (old.knownPeers.insert info.id info.sender).keys.card := by
        simp [Sys.size, Sys.known, ht, Thread.known, AddrBook.learn]
      have hpending := hc.pending i old hold
      have := hsize i
      have := hle i
      by_cases hfull : s'.size i = 10
      · simp [AddrBook.learn, ← hlen, hfull]
      · have hbefore : s.size i < 10 := by omega
        simp only [AddrBook.learn, ← hlen, if_neg hfull, hpending.mpr hbefore, true_iff]
        omega
    · rw [ht] at h
      cases h
  · have hcount := hc.count i
    rcases hs.thread_cases i with ⟨ht, hsaid⟩ | ⟨hold, ht, hsaid⟩ |
      ⟨old, info, hold, -, ht, hsaid⟩ | ⟨old, hold, -, ht, hsaid⟩
    · rw [hsaid, hcount, Sys.size, Sys.size, Sys.known, Sys.known, ht]
    · have hbefore : s.size i = 0 := by simp [Sys.size, Sys.known, hold, Thread.known]
      have hafter : s'.size i = 1 := by
        simp [Sys.size, Sys.known, ht, Thread.known, AddrBook.start, keys_insert]
      rw [hsaid, hcount, hbefore, hafter]
      decide
    · have hlen : s'.size i = (old.knownPeers.insert info.id info.sender).keys.card := by
        simp [Sys.size, Sys.known, ht, Thread.known, AddrBook.learn]
      have hcompletes : old.completes info = true ↔ s'.size i = 10 ∧ s.size i < 10 := by
        simp [AddrBook.completes, ← hlen, ← hc.pending i old hold]
      have := hsize i
      have := hle i
      rw [hsaid, hcount]
      by_cases hfull : s.size i = 10
      · have hno : old.completes info ≠ true := fun h => absurd (hcompletes.mp h).2 (by omega)
        rw [if_pos hfull, if_neg hno, if_pos (by omega)]
      · by_cases hnow : s'.size i = 10
        · rw [if_neg hfull, if_pos (hcompletes.mpr ⟨hnow, by omega⟩), if_pos hnow]
        · have hno : old.completes info ≠ true := fun h => hnow (hcompletes.mp h).1
          rw [if_neg hfull, if_neg hno, if_neg hnow]
    · rw [hsaid, hcount]
      simp only [Sys.size, Sys.known, hold, ht, Thread.known]

theorem counted_run (hids : InRange ids) {as : List (Act ι)}
    (h : (network ids ⟨0⟩).Run Any as s) : Authentic ids ⟨0⟩ s ∧ Counted s := by
  refine ⟨authentic_run h, ?_⟩
  have hstrong := h.strengthen (P := Authentic ids ⟨0⟩) fun _ _ => authentic_run
  refine hstrong.invariant Counted ⟨?_, fun i => rfl⟩ ?_
  · intro i book h
    cases h
  rintro s a s' hc ⟨-, hi⟩ hs
  exact counted_step hc (size_le hids (authentic_step hi (step_sound hs))) (step_sound hs)

theorem Counted.mem_done (hc : Counted s) {i : ι} : i ∈ s.done ↔ s.size i = 10 := by
  rw [← List.count_pos_iff, hc.count i]
  split <;> simp_all

theorem Counted.nodup (hc : Counted s) : s.done.Nodup := by
  refine List.nodup_iff_count_le_one.mpr fun i => ?_
  rw [hc.count i]
  split <;> omega

/-! ## Done means complete -/

/-- **Done means complete, and is said once.** For a seed with id 0 and
nodes with different ids from 1 to 9, whatever the interleaving, the
random ids and the answers of the seed. -/
theorem done_means_complete (hinj : Function.Injective ids) (hids : InRange ids)
    {as : List (Act ι)} (h : (network ids ⟨0⟩).Run Any as s) :
    (∀ i, s.done.count i ≤ 1) ∧
      (∀ a s', (network ids ⟨0⟩).step s a = some s' → ∀ i,
        s'.size i ≤ s.size i + 1 ∧
          (s'.done.count i = s.done.count i + 1 ↔ s'.size i = 10 ∧
            ∀ bs t, bs <+: as → (network ids ⟨0⟩).Run Any bs t → t.size i < 10)) ∧
      (∀ i ∈ s.done, ∀ id : PeerId, id.val < 10 → id ∈ s.known i) ∧
      (9 ≤ s.done.length → ∀ i, (s.known i).lookup ⟨0⟩ = some .seed ∧
        ∀ j, (s.known i).lookup (ids j) = some (.node j)) := by
  obtain ⟨hi, hc⟩ := counted_run hids h
  have hknows : ∀ i ∈ s.done, ∀ id : PeerId, id.val < 10 → id ∈ s.known i := by
    intro i hdone id hid
    have hkeys := keys_of_size hids hi (hc.mem_done.mp hdone)
    exact Finmap.mem_keys.mp (hkeys ▸ mem_tenIds.mpr hid)
  refine ⟨List.nodup_iff_count_le_one.mp hc.nodup, ?_, hknows, ?_⟩
  · intro a s' hs i
    have hnext := h.snoc trivial hs
    obtain ⟨hi', hc'⟩ := counted_run hids hnext
    have hsize := (step_sound hs).size i
    have := size_le hids hi i
    refine ⟨hsize.2, ?_⟩
    rw [hc.count i, hc'.count i]
    constructor
    · intro hsays
      have hnow : s'.size i = 10 := by
        by_contra hnow
        rw [if_neg hnow] at hsays
        exact absurd hsays.symm (Nat.succ_ne_zero _)
      have hbefore : s.size i ≠ 10 := by
        intro hbefore
        rw [if_pos hnow, if_pos hbefore] at hsays
        omega
      refine ⟨hnow, fun bs t hpre ht => ?_⟩
      obtain ⟨cs, rfl⟩ := hpre
      obtain ⟨t', ht', hrest⟩ := System.run_append.mp h
      obtain rfl := ht.unique ht'
      have := size_run hrest i
      omega
    · rintro ⟨hnow, hbefore⟩
      have := hbefore as s (List.prefix_refl as) h
      rw [if_pos hnow, if_neg (by omega)]
  · intro hnine i
    have hdone := mem_done_of_nine hinj hids hc.nodup hnine i
    refine ⟨lookup_of_mem hi ?_ (hknows i hdone _ (by decide)), fun j =>
      lookup_of_mem hi ?_ (hknows i hdone _ (hids j).2)⟩
    · rintro x (⟨-, rfl⟩ | ⟨j, -, hj, -⟩)
      · rfl
      · exact absurd hj.symm (hids.ne_seed j)
    · rintro x (⟨hj, -⟩ | ⟨k, -, hk, rfl⟩)
      · exact absurd hj (hids.ne_seed j)
      · rw [hinj hk]

/-- The seed tells the first of nine nodes of all of them, itself included. -/
def completing : List (Act (Fin 9)) :=
  let rand : RandomId := ⟨1, by decide⟩
  .start 0 :: List.replicate 8 (.tick 0 (.sorted _)) ++
    (List.finRange 9).map (fun j => .seed (some j)) ++
    (List.finRange 8).map (fun j => .start j.succ) ++ List.replicate 10 (.receive 0 rand) ++
    (List.finRange 8).map (fun j => .receive j.succ rand) ++ List.replicate 9 (.receive 0 rand)

theorem done_means_complete_first :
    ∃ s, (network (testId : Fin 9 → PeerId) ⟨0⟩).Run Any completing s ∧ s.done = [0] ∧
      ∀ id : PeerId, id.val < 10 → id ∈ s.known 0 := by
  have hexec : ((network (testId : Fin 9 → PeerId) ⟨0⟩).exec Any .init completing).map Sys.done =
      some [0] := by decide +kernel
  obtain ⟨s, hs, hdone⟩ := Option.map_eq_some_iff.mp hexec
  have hrun := System.run_iff.mpr hs
  have hcomplete := done_means_complete (fun i j => by revert i j; decide)
    (fun i => by revert i; decide) hrun
  exact ⟨s, hrun, hdone, hcomplete.2.2.1 0 (by simp [hdone])⟩

end Reactor.Ab
