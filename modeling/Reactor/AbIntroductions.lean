import Reactor.AbProgress
import Reactor.Rest

/-!
# Introductions of the concurrent address book

A node is introduced to another when somebody, the seed or a node, sends
it the other's sender in a `Response`. Nobody keeps a record of that: the
node sends a `Ping` and forgets, the other sends a `Pong` and forgets.

**`introductions_complete`**: no introduction is lost. Between two firings
of the tickers so much is read and no more, and when it has been, every
node knows everybody it has ever been introduced to.
-/

namespace Reactor.Ab

open Reactor.System (Any Only AtRest Settles)

variable {ι : Type} [DecidableEq ι] {ids : ι → PeerId} {seedNode : PeerId} {s s' t : Sys ι}

/-- What happens when no ticker fires, and nobody is started or told to
end. -/
def Act.Reads : Act ι → Prop
  | .receive _ _ | .seed _ => True
  | _ => False

omit [DecidableEq ι] in
theorem Act.Reads.noExit {a : Act ι} (h : a.Reads) (s : Sys ι) : NoExit s a := by
  cases a <;> trivial

/-- In some state of the run the sender of `j` waits in the queue of `i`. -/
def Introduced (ids : ι → PeerId) (seedNode : PeerId) (as : List (Act ι)) (i j : ι) : Prop :=
  ∃ bs s, bs <+: as ∧ (network ids seedNode).Run NoExit bs s ∧
    .response (.node j) ∈ s.queue (.node i)

/-! ## Until it is carried through -/

theorem will_run (hinj : Function.Injective ids) (hseed : ∀ i, ids i ≠ seedNode)
    (h : Unended ids seedNode s) {bs : List (Act ι)}
    (hrun : ((network ids seedNode).startAt s).Run NoExit bs t) {i j : ι}
    (hw : s.Will ids i j) : t.Will ids i j := by
  refine (hrun.invariant (fun t => Unended ids seedNode t ∧ t.Will ids i j) ⟨h, hw⟩ ?_).2
  rintro t a t' ⟨h, hw⟩ ha hs
  exact ⟨unended_step hinj hseed h ha (step_sound hs), will_step h (step_sound hs) hw⟩

theorem Introduced.will (hinj : Function.Injective ids) (hseed : ∀ i, ids i ≠ seedNode)
    {as : List (Act ι)} {i j : ι} (hij : Introduced ids seedNode as i j)
    (h : (network ids seedNode).Run NoExit as s) : s.Will ids i j := by
  obtain ⟨bs, t, ⟨cs, rfl⟩, ht, hresponse⟩ := hij
  obtain ⟨t', ht', hrest⟩ := System.run_append.mp h
  obtain rfl := ht.unique ht'
  exact will_run hinj hseed (unended_run hinj hseed ht) hrest (.inr (.inr (.inr hresponse)))

/-! ## At rest -/

/-- The queues of the nodes have been read. -/
theorem queue_nil_of_atRest (hrest : (network ids seedNode).AtRest Act.Reads s)
    (h : Unended ids seedNode s) {i : ι} (hi : s.Started i) : s.queue (.node i) = [] := by
  by_contra hq
  obtain ⟨book, ht⟩ := h.running hi
  obtain ⟨s', hs⟩ : ∃ s', step ids seedNode s (.receive i ⟨1, by decide⟩) = some s' :=
    receive_enabled ht hq
  cases (hrest (.receive i ⟨1, by decide⟩) trivial).symm.trans hs

/-- With nothing left to read, who was to be known is known. -/
theorem lookup_of_atRest (hinj : Function.Injective ids) (hseed : ∀ i, ids i ≠ seedNode)
    (hrest : (network ids seedNode).AtRest Act.Reads s) (h : Unended ids seedNode s) {i j : ι}
    (hi : s.Started i) (hj : s.Started j) (hw : s.Will ids i j) :
    (s.known i).lookup (ids j) = some (.node j) := by
  have hbinds : s.Binds ids seedNode (ids j) (.node j) := .inr ⟨j, hj, rfl, rfl⟩
  rcases hw with hknown | hm | hm | hm
  · exact lookup_of_mem h.authentic (fun x hx => hx.unique hinj hseed hbinds) hknown
  · rw [queue_nil_of_atRest hrest h hi] at hm
    cases hm
  · rw [queue_nil_of_atRest hrest h hj] at hm
    cases hm
  · rw [queue_nil_of_atRest hrest h hi] at hm
    cases hm

section

variable [Fintype ι]

theorem settles (hinj : Function.Injective ids) (hseed : ∀ i, ids i ≠ seedNode) :
    (network ids seedNode).Settles Act.Reads (Unended ids seedNode) Sys.weight where
  keeps s a s' h ha hs := unended_step hinj hseed h (ha.noExit s) (step_sound hs)
  lighter s a s' h ha hs := by
    refine (step_sound hs).lighter ?_ h.noExit
    cases a with
    | receive i rand => exact .inl ⟨i, rand, rfl⟩
    | seed answer => exact .inr ⟨answer, rfl⟩
    | start | tick | exit => exact ha.elim

/-- **No introduction is lost.** In every run in which nobody sends an
`Exit`: from where it has come to, nodes and seed read what there is to
read and then stop, and by then each started node that was ever introduced
to another knows that one's sender. -/
theorem introductions_complete (hinj : Function.Injective ids) (hseed : ∀ i, ids i ≠ seedNode)
    {as : List (Act ι)} (h : (network ids seedNode).Run NoExit as s) :
    (∀ bs t, ((network ids seedNode).startAt s).Run (Only Act.Reads) bs t →
      bs.length ≤ s.weight ∧ ((network ids seedNode).AtRest Act.Reads t →
        ∀ i j, Introduced ids seedNode as i j → s.Started i → s.Started j →
          (t.known i).lookup (ids j) = some (.node j))) ∧
    ∃ bs t, ((network ids seedNode).startAt s).Run (Only Act.Reads) bs t ∧
      (network ids seedNode).AtRest Act.Reads t := by
  have hun := unended_run hinj hseed h
  have hsettles := settles hinj hseed
  refine ⟨fun bs t hrun => ⟨?_, fun hrest i j hij hi hj => ?_⟩, hsettles.exists_rest hun⟩
  · have hle := hsettles.length_le hun hrun
    omega
  · have hnoExit : ((network ids seedNode).startAt s).Run NoExit bs t :=
      hrun.weaken fun s a ha => ha.noExit s
    have hstarted : ∀ k, s.Started k → t.Started k := fun k hk =>
      hrun.invariant (fun t => t.Started k) hk fun t a t' hk _ hs => (step_sound hs).started hk
    exact lookup_of_atRest hinj hseed hrest (hsettles.run hun hrun) (hstarted i hi)
      (hstarted j hj) (will_run hinj hseed hun hnoExit (hij.will hinj hseed h))

end

/-- The seed has told the first node of the second. -/
theorem introductions_complete_pair :
    ∃ s bs t, (network (testId : Fin 9 → PeerId) ⟨0⟩).Run NoExit
        [.start 0, .start 1, .seed (some 1)] s ∧
      ((network testId ⟨0⟩).startAt s).Run (Only Act.Reads) bs t ∧
        (t.known 0).lookup (testId (1 : Fin 9)) = some (.node 1) := by
  have hexec : ((network (testId : Fin 9 → PeerId) ⟨0⟩).exec NoExit .init
      [.start 0, .start 1, .seed (some 1)]).map (fun s => (s.size 0, s.size 1,
        s.queue (.node 0))) = some (1, 1, [.response (.node 1)]) := by decide
  obtain ⟨s, hs, hobs⟩ := Option.map_eq_some_iff.mp hexec
  obtain ⟨hzero, hone, hqueue⟩ : s.size 0 = 1 ∧ s.size 1 = 1 ∧ _ := by simpa using hobs
  have hrun := System.run_iff.mpr hs
  have hstarted : ∀ i, s.size i = 1 → s.Started i := by
    intro i hi habsent
    simp [Sys.size, Sys.known, habsent, Thread.known] at hi
  obtain ⟨hrest, bs, t, hbs, ht⟩ :=
    introductions_complete testId_injective testId_inRange.ne_seed hrun
  exact ⟨s, bs, t, hrun, hbs, (hrest bs t hbs).2 ht 0 1
    ⟨_, s, List.prefix_refl _, hrun, by simp [hqueue]⟩ (hstarted 0 hzero) (hstarted 1 hone)⟩

end Reactor.Ab
