import Mathlib.Algebra.BigOperators.Group.Finset.Basic
import Mathlib.Data.Fintype.Option
import Mathlib.Data.Fintype.Prod
import Reactor.AbDone

/-!
# Progress of the concurrent address book

From any state that can be reached without an `Exit` the nodes can get to
know each other. The continuation first drains the queues: reading a
message sends at most one, of a lighter kind. It then takes the pairs of
nodes in turn: the ticker of the first node makes it ask the seed, the
seed names the second, and the queues are drained again. What the queues
held before does not matter, since an introduction under way is carried
through by every step.

**`no_dead_end`**: there is a finite continuation to a state in which all
nodes know all ten ids and each has said once that it is done.
-/

namespace Reactor.Ab

open Reactor.System (Any)

variable {ι : Type} [DecidableEq ι] {ids : ι → PeerId} {seedNode : PeerId} {s s' : Sys ι}
  {a : Act ι}

/-- Nobody sends `Exit`. -/
def NoExit (_ : Sys ι) : Act ι → Prop
  | .exit _ => False
  | _ => True

/-- A turn of a node, or the seed answering what it reads. -/
def Scheduled (_ : Sys ι) : Act ι → Prop
  | .tick _ _ | .receive _ _ | .seed (some _) => True
  | .start _ | .seed none | .exit _ => False

instance (s : Sys ι) (a : Act ι) : Decidable (NoExit s a) := by
  cases a <;> unfold NoExit <;> infer_instance

omit [DecidableEq ι] in
theorem Scheduled.noExit (h : Scheduled s a) : NoExit s a := by
  cases a <;> trivial

/-! ## States without an `Exit` -/

structure Unended (ids : ι → PeerId) (seedNode : PeerId) (s : Sys ι) : Prop where
  authentic : Authentic ids seedNode s
  /-- A started node knows the seed. -/
  rooted : ∀ i, s.Started i → (s.known i).lookup seedNode = some .seed
  unended : ∀ i book, s.thread i ≠ .ended book
  noExit : ∀ x, .exit ∉ s.queue x

omit [DecidableEq ι] in
theorem Unended.running (h : Unended ids seedNode s) {i : ι} (hi : s.Started i) :
    ∃ book, s.thread i = .running book := by
  cases ht : s.thread i with
  | absent => exact absurd ht hi
  | running book => exact ⟨book, rfl⟩
  | ended book => exact absurd ht (h.unended i book)

omit [DecidableEq ι] in
theorem Unended.closed (h : Unended ids seedNode s) (x : Sender ι) : s.closed x = false := by
  cases x with
  | seed => rfl
  | node i =>
      rw [Sys.closed]
      cases ht : s.thread i with
      | ended book => exact absurd ht (h.unended i book)
      | _ => rfl

theorem unended_step (hinj : Function.Injective ids) (hseed : ∀ i, ids i ≠ seedNode)
    (h : Unended ids seedNode s) (ha : NoExit s a) (hs : Step ids seedNode s a s') :
    Unended ids seedNode s' := by
  refine ⟨authentic_step h.authentic hs, fun i hi => ?_, fun i book hend => ?_, fun x hx => ?_⟩
  · by_cases hold : s.Started i
    · exact hs.keeps hinj hseed h.authentic (h.rooted i hold)
    · have hold : s.thread i = .absent := not_not.mp hold
      rcases hs.thread_cases i with ⟨ht, -⟩ | ⟨-, ht, -⟩ | ⟨_, _, ht, -⟩ | ⟨_, ht, -⟩
      · exact absurd (ht.trans hold) hi
      · simp [Sys.known, ht, Thread.known, AddrBook.start]
      · cases hold.symm.trans ht
      · cases hold.symm.trans ht
  · rcases hs.thread_cases i with ⟨ht, -⟩ | ⟨-, ht, -⟩ | ⟨_, _, -, -, ht, -⟩ | ⟨_, -, hexit, -⟩
    · exact h.unended i book (ht ▸ hend)
    · cases hend.symm.trans ht
    · cases hend.symm.trans ht
    · exact h.noExit _ hexit
  · rcases hs.exit_cases hx with hx | ⟨i, rfl⟩
    · exact h.noExit x hx
    · exact ha

theorem unended_run (hinj : Function.Injective ids) (hseed : ∀ i, ids i ≠ seedNode)
    {as : List (Act ι)} (h : (network ids seedNode).Run NoExit as s) :
    Unended ids seedNode s := by
  refine h.invariant (Unended ids seedNode) ⟨authentic_run .nil, ?_, ?_, ?_⟩ ?_
  · intro i hi
    exact absurd rfl hi
  · intro i book hend
    cases hend
  · intro x hx
    cases hx
  · intro s a s' hi ha hs
    exact unended_step hinj hseed hi ha (step_sound hs)

/-! ## Introductions under way -/

/-- Node `i` knows node `j`, or will when the messages under way have been
read. -/
def Sys.Will (ids : ι → PeerId) (s : Sys ι) (i j : ι) : Prop :=
  ids j ∈ s.known i ∨ .pong ⟨ids j, .node j⟩ ∈ s.queue (.node i) ∨
    .ping (.node i) ∈ s.queue (.node j) ∨ .response (.node j) ∈ s.queue (.node i)

theorem Step.mem_known (hs : Step ids seedNode s a s') {i : ι} {id : PeerId}
    (h : id ∈ s.known i) : id ∈ s'.known i := by
  rcases hs.known_cases i with hk | ⟨hnone, -⟩ | ⟨info, -, hk⟩
  · rwa [hk]
  · rw [hnone] at h
    exact absurd h Finmap.notMem_empty
  · rw [hk]
    exact Finmap.mem_insert.mpr (.inr h)

theorem Step.reads_pong {i : ι} {rand : RandomId} (hs : Step ids seedNode s (.receive i rand) s')
    {info : PeerInfo ι} {rest : List (PeerMsg ι)}
    (hq : s.queue (.node i) = .pong info :: rest) : info.id ∈ s'.known i := by
  cases hs with
  | pong ht hq' =>
      cases hq.symm.trans hq'
      simp [Sys.known, Sys.setThread, Thread.known, AddrBook.learn]
  | request _ hq' | requestUnknown _ hq' | response _ hq' | ping _ hq' | exited _ hq' =>
      cases hq.symm.trans hq'

theorem Step.reads_ping {i : ι} {rand : RandomId} (hs : Step ids seedNode s (.receive i rand) s')
    {sender : Sender ι} {rest : List (PeerMsg ι)}
    (hq : s.queue (.node i) = .ping sender :: rest) :
    ∃ book, s.thread i = .running book ∧
      s' = (s.setQueue (.node i) rest).send sender (.pong ⟨book.peerId, book.sender⟩) := by
  cases hs with
  | ping ht hq' =>
      cases hq.symm.trans hq'
      exact ⟨_, ht, rfl⟩
  | request _ hq' | requestUnknown _ hq' | response _ hq' | pong _ hq' | exited _ hq' =>
      cases hq.symm.trans hq'

theorem Step.reads_response {i : ι} {rand : RandomId}
    (hs : Step ids seedNode s (.receive i rand) s') {sender : Sender ι}
    {rest : List (PeerMsg ι)} (hq : s.queue (.node i) = .response sender :: rest) :
    ∃ book, s.thread i = .running book ∧
      s' = (s.setQueue (.node i) rest).send sender (.ping book.sender) := by
  cases hs with
  | response ht hq' =>
      cases hq.symm.trans hq'
      exact ⟨_, ht, rfl⟩
  | request _ hq' | requestUnknown _ hq' | ping _ hq' | pong _ hq' | exited _ hq' =>
      cases hq.symm.trans hq'

/-- An introduction is carried through by whoever reads the message. -/
theorem will_step (h : Unended ids seedNode s) (hs : Step ids seedNode s a s') {i j : ι}
    (hw : s.Will ids i j) : s'.Will ids i j := by
  rcases hw with hw | hw | hw | hw
  · exact .inl (hs.mem_known hw)
  · rcases hs.queue_cases (h.noExit _) hw with hw | ⟨rand, rest, rfl, hhead⟩
    · exact .inr (.inl hw)
    · exact .inl (hs.reads_pong hhead)
  · rcases hs.queue_cases (h.noExit _) hw with hw | ⟨rand, rest, rfl, hhead⟩
    · exact .inr (.inr (.inl hw))
    · obtain ⟨book, ht, rfl⟩ := hs.reads_ping hhead
      obtain ⟨hid, hsender⟩ := h.authentic.own j book ht
      rw [hid, hsender]
      exact .inr (.inl (Sys.mem_queue_send_self (h.closed (.node i))))
  · rcases hs.queue_cases (h.noExit _) hw with hw | ⟨rand, rest, rfl, hhead⟩
    · exact .inr (.inr (.inr hw))
    · obtain ⟨book, ht, rfl⟩ := hs.reads_response hhead
      rw [(h.authentic.own i book ht).2]
      exact .inr (.inr (.inl (Sys.mem_queue_send_self (h.closed (.node j)))))

/-! ## Draining the queues -/

def PeerMsg.weight : PeerMsg ι → Nat
  | .request _ => 4
  | .response _ => 3
  | .ping _ => 2
  | .pong _ | .exit => 1

instance [Fintype ι] : Fintype (Sender ι) :=
  .ofEquiv (Option ι)
    { toFun := fun o => o.elim .seed .node
      invFun := fun
        | .seed => none
        | .node i => some i
      left_inv := by rintro (_ | i) <;> rfl
      right_inv := by rintro (_ | i) <;> rfl }

/-- The weight of what is in a queue. -/
def load : List (PeerMsg ι) → Nat
  | [] => 0
  | m :: rest => m.weight + load rest

omit [DecidableEq ι] in
theorem load_snoc (q : List (PeerMsg ι)) (m : PeerMsg ι) : load (q ++ [m]) = load q + m.weight := by
  induction q with
  | nil => simp [load]
  | cons m' q ih => simp only [List.cons_append, load, ih, Nat.add_assoc]

variable [Fintype ι]

def Sys.weight (s : Sys ι) : Nat := ∑ x, load (s.queue x)

theorem Sys.weight_setQueue {x : Sender ι} {q : List (PeerMsg ι)} :
    (s.setQueue x q).weight + load (s.queue x) = s.weight + load q := by
  simp only [weight, setQueue]
  rw [← Finset.add_sum_erase _ _ (Finset.mem_univ x),
    ← Finset.add_sum_erase Finset.univ (fun y => load (s.queue y)) (Finset.mem_univ x),
    Function.update_self]
  have hrest : ∀ y ∈ Finset.univ.erase x,
      load (Function.update s.queue x q y) = load (s.queue y) := by
    intro y hy
    rw [Function.update_of_ne (Finset.ne_of_mem_erase hy)]
  rw [Finset.sum_congr rfl hrest]
  omega

theorem Sys.weight_send {x : Sender ι} {m : PeerMsg ι} :
    (s.send x m).weight ≤ s.weight + m.weight := by
  unfold send
  split
  · exact Nat.le_add_right _ _
  · have h := s.weight_setQueue (x := x) (q := s.queue x ++ [m])
    rw [setQueue, load_snoc] at h
    omega

theorem Sys.weight_take {x : Sender ι} {m : PeerMsg ι} {rest : List (PeerMsg ι)}
    (hq : s.queue x = m :: rest) : (s.setQueue x rest).weight + m.weight = s.weight := by
  have h := s.weight_setQueue (x := x) (q := rest)
  rw [hq, load] at h
  omega

/-- Reading a message takes weight away. -/
theorem Step.lighter (hs : Step ids seedNode s a s')
    (ha : (∃ i rand, a = .receive i rand) ∨ ∃ answer, a = .seed answer)
    (hexit : ∀ x, .exit ∉ s.queue x) : s'.weight < s.weight := by
  have lighter : ∀ {x y : Sender ι} {m msg : PeerMsg ι} {rest : List (PeerMsg ι)},
      s.queue x = m :: rest → msg.weight < m.weight →
      ((s.setQueue x rest).send y msg).weight < s.weight := by
    intro x y m msg rest hq hlt
    have htake := Sys.weight_take hq
    have hsend := (s.setQueue x rest).weight_send (x := y) (m := msg)
    omega
  have taken : ∀ {x : Sender ι} {m : PeerMsg ι} {rest : List (PeerMsg ι)},
      s.queue x = m :: rest → (s.setQueue x rest).weight < s.weight := by
    intro x m rest hq
    have htake := Sys.weight_take hq
    have hpos : 0 < m.weight := by cases m <;> simp [PeerMsg.weight]
    omega
  cases hs with
  | start | tick | exit => simp at ha
  | request _ hq | response _ hq | ping _ hq | seedAnswers hq =>
      exact lighter hq (by simp [PeerMsg.weight])
  | requestUnknown _ hq | pong _ hq | seedReads hq => exact taken hq
  | @exited i _ _ _ _ hq => exact absurd (by simp [hq]) (hexit (.node i))

omit [Fintype ι] in
/-- What a continuation keeps. -/
theorem scheduled_run (hinj : Function.Injective ids) (hseed : ∀ i, ids i ≠ seedNode)
    (h : Unended ids seedNode s) (hstarted : ∀ i, s.Started i) {bs : List (Act ι)} {t : Sys ι}
    (hrun : ((network ids seedNode).startAt s).Run Scheduled bs t) :
    Unended ids seedNode t ∧ (∀ i, t.Started i) ∧
      (∀ i j, s.Will ids i j → t.Will ids i j) ∧ ∀ i id, id ∈ s.known i → id ∈ t.known i := by
  refine hrun.invariant (fun t => Unended ids seedNode t ∧ (∀ i, t.Started i) ∧
    (∀ i j, s.Will ids i j → t.Will ids i j) ∧ ∀ i id, id ∈ s.known i → id ∈ t.known i)
    ⟨h, hstarted, fun _ _ => id, fun _ _ => id⟩ ?_
  rintro t a t' ⟨h, hstarted, hwill, hknown⟩ ha hs
  have hs := step_sound hs
  exact ⟨unended_step hinj hseed h ha.noExit hs, fun i => hs.started (hstarted i),
    fun i j hw => will_step h hs (hwill i j hw), fun i id hid => hs.mem_known (hknown i id hid)⟩

/-- The queues can be drained, by reading alone. -/
theorem exists_quiet (hinj : Function.Injective ids) (hseed : ∀ i, ids i ≠ seedNode)
    (h : Unended ids seedNode s) (hstarted : ∀ i, s.Started i) (j : ι) :
    ∃ bs t, ((network ids seedNode).startAt s).Run Scheduled bs t ∧ ∀ x, t.queue x = [] := by
  induction hn : s.weight using Nat.strong_induction_on generalizing s with
  | _ n ih =>
      by_cases hquiet : ∀ x, s.queue x = []
      · exact ⟨[], s, .nil, hquiet⟩
      obtain ⟨x, hx⟩ := not_forall.mp hquiet
      obtain ⟨a, s', ha, hs, hlighter⟩ : ∃ a s', Scheduled s a ∧
          step ids seedNode s a = some s' ∧ s'.weight < s.weight := by
        cases x with
        | seed =>
            obtain ⟨s', hs⟩ : ∃ s', step ids seedNode s (.seed (some j)) = some s' :=
              seed_enabled hx
            have hlighter := (step_sound hs).lighter (.inr ⟨_, rfl⟩) h.noExit
            exact ⟨.seed (some j), s', trivial, hs, hlighter⟩
        | node i =>
            obtain ⟨book, ht⟩ := h.running (hstarted i)
            obtain ⟨s', hs⟩ : ∃ s', step ids seedNode s (.receive i ⟨1, by decide⟩) = some s' :=
              receive_enabled ht hx
            have hlighter := (step_sound hs).lighter (.inl ⟨_, _, rfl⟩) h.noExit
            exact ⟨.receive i ⟨1, by decide⟩, s', trivial, hs, hlighter⟩
      have h' := unended_step hinj hseed h ha.noExit (step_sound hs)
      have hstarted' : ∀ i, s'.Started i := fun i => (step_sound hs).started (hstarted i)
      obtain ⟨bs, t, hrun, ht⟩ := ih s'.weight (hn ▸ hlighter) h' hstarted' rfl
      exact ⟨a :: bs, t, System.run_cons.mpr ⟨ha, s', hs, hrun⟩, ht⟩

/-! ## Introducing the nodes to each other -/

omit [Fintype ι] in
/-- With nothing else under way, the seed can tell a node of another. -/
theorem exists_will (h : Unended ids seedNode s) (hstarted : ∀ i, s.Started i)
    (hquiet : ∀ x, s.queue x = []) (i j : ι) :
    ∃ bs t, ((network ids seedNode).startAt s).Run Scheduled bs t ∧ t.Will ids i j := by
  obtain ⟨book, ht⟩ := h.running (hstarted i)
  let s₁ := s.applyEffects i (book.tick (.sorted _))
  have htick : step ids seedNode s (.tick i (.sorted _)) = some s₁ := tick_enabled ht
  have hasked : .request (.node i) ∈ s₁.queue .seed := by
    have hknown := h.rooted i (hstarted i)
    rw [Sys.known, ht] at hknown
    rw [← (h.authentic.own i book ht).2]
    exact Sys.mem_queue_tick_seed hknown
  have honly : ∀ m ∈ s₁.queue .seed, m = .request (.node i) := by
    intro m hm
    rcases Sys.mem_queue_tick hm with hm | hm
    · simp [hquiet] at hm
    · rw [hm, (h.authentic.own i book ht).2]
  obtain ⟨m, rest, hq⟩ := List.exists_cons_of_ne_nil (List.ne_nil_of_mem hasked)
  obtain rfl := honly m (by simp [hq])
  let s₂ := (s₁.setQueue .seed rest).send (.node i) (.response (.node j))
  have hanswer : step ids seedNode s₁ (.seed (some j)) = some s₂ := by simp only [step, hq, s₂]
  have hopen : (s₁.setQueue .seed rest).closed (.node i) = false := by
    simp [Sys.closed, Sys.setQueue, s₁, ht]
  refine ⟨[.tick i (.sorted _), .seed (some j)], s₂, ?_, ?_⟩
  · exact System.run_cons.mpr ⟨trivial, s₁, htick,
      System.run_cons.mpr ⟨trivial, s₂, hanswer, .nil⟩⟩
  · exact .inr (.inr (.inr (Sys.mem_queue_send_self hopen)))

/-- One node after the other is introduced. -/
theorem exists_known (hinj : Function.Injective ids) (hseed : ∀ i, ids i ≠ seedNode) (i₀ : ι)
    (pairs : List (ι × ι)) : ∀ {s : Sys ι}, Unended ids seedNode s → (∀ i, s.Started i) →
      ∃ bs t, ((network ids seedNode).startAt s).Run Scheduled bs t ∧
        ∀ p ∈ pairs, ids p.2 ∈ t.known p.1 := by
  induction pairs with
  | nil =>
      intro s h hstarted
      exact ⟨[], s, .nil, fun p hp => by cases hp⟩
  | cons p pairs ih =>
      intro s h hstarted
      obtain ⟨i, j⟩ := p
      obtain ⟨bs₁, t₁, hrun₁, hquiet₁⟩ := exists_quiet hinj hseed h hstarted i₀
      obtain ⟨h₁, hstarted₁, -, -⟩ := scheduled_run hinj hseed h hstarted hrun₁
      obtain ⟨bs₂, t₂, hrun₂, hwill⟩ := exists_will h₁ hstarted₁ hquiet₁ i j
      obtain ⟨h₂, hstarted₂, -, -⟩ := scheduled_run hinj hseed h₁ hstarted₁ hrun₂
      obtain ⟨bs₃, t₃, hrun₃, hquiet₃⟩ := exists_quiet hinj hseed h₂ hstarted₂ i₀
      obtain ⟨h₃, hstarted₃, hwill₃, -⟩ := scheduled_run hinj hseed h₂ hstarted₂ hrun₃
      have hknown : ids j ∈ t₃.known i := by
        rcases hwill₃ i j hwill with hk | hm | hm | hm
        · exact hk
        all_goals
          rw [hquiet₃] at hm
          cases hm
      obtain ⟨bs₄, t₄, hrun₄, hpairs⟩ := ih h₃ hstarted₃
      obtain ⟨-, -, -, hkeeps⟩ := scheduled_run hinj hseed h₃ hstarted₃ hrun₄
      refine ⟨bs₁ ++ (bs₂ ++ (bs₃ ++ bs₄)), t₄, ?_, ?_⟩
      · exact System.run_append.mpr ⟨t₁, hrun₁, System.run_append.mpr ⟨t₂, hrun₂,
          System.run_append.mpr ⟨t₃, hrun₃, hrun₄⟩⟩⟩
      · intro p hp
        rcases List.mem_cons.mp hp with rfl | hp
        · exact hkeeps i _ hknown
        · exact hpairs p hp

/-! ## No dead end -/

theorem testId_injective : Function.Injective (testId : Fin 9 → PeerId) := by
  intro i j
  revert i j
  decide

theorem testId_inRange : InRange (testId : Fin 9 → PeerId) := by
  intro i
  revert i
  decide

/-- The ids of the test are the ten ids. -/
theorem tenIds_eq : tenIds = insert ⟨0⟩ (Finset.univ.image (testId : Fin 9 → PeerId)) := by decide

/-- **No reachable state is a dead end.** From every state the seed and the
nine started nodes of the test can get to without an `Exit`, some schedule
of tickers, messages and answers of the seed leads to one in which every
node knows all ten ids and has said once that it is done. -/
theorem no_dead_end {s : Sys (Fin 9)} {as : List (Act (Fin 9))}
    (h : (network testId ⟨0⟩).Run NoExit as s) (hstarted : ∀ i, s.Started i) :
    ∃ bs t, ((network testId ⟨0⟩).startAt s).Run Scheduled bs t ∧
      ∀ i, (∀ id : PeerId, id.val < 10 → id ∈ t.known i) ∧ t.done.count i = 1 := by
  have hinj := testId_injective
  have hseed := testId_inRange.ne_seed
  have hun := unended_run hinj hseed h
  obtain ⟨bs, t, hrun, hpairs⟩ := exists_known hinj hseed 0
    (Finset.univ : Finset (Fin 9 × Fin 9)).toList hun hstarted
  obtain ⟨hun', hstarted', -, -⟩ := scheduled_run hinj hseed hun hstarted hrun
  have hall : (network testId ⟨0⟩).Run Any (as ++ bs) t :=
    System.run_append.mpr ⟨s, h.weaken fun _ _ _ => trivial, hrun.weaken fun _ _ _ => trivial⟩
  obtain ⟨hi, hc⟩ := counted_run testId_inRange hall
  have hknown : ∀ i, ∀ id ∈ tenIds, id ∈ t.known i := by
    intro i id hid
    rw [tenIds_eq] at hid
    rcases Finset.mem_insert.mp hid with rfl | hid
    · exact Finmap.mem_of_lookup_eq_some (hun'.rooted i (hstarted' i))
    · obtain ⟨j, -, rfl⟩ := Finset.mem_image.mp hid
      exact hpairs (i, j) (by simp)
  refine ⟨bs, t, hrun, fun i => ⟨fun id hid => hknown i id (mem_tenIds.mpr hid), ?_⟩⟩
  have hsize : t.size i = 10 := by
    refine le_antisymm (size_le testId_inRange hi i) ?_
    rw [← card_tenIds]
    exact Finset.card_le_card fun id hid => Finmap.mem_keys.mpr (hknown i id hid)
  rw [hc.count i, if_pos hsize]

/-- The first node has asked the seed twice and heard of the fourth. -/
theorem no_dead_end_asked :
    ∃ s, (network (testId : Fin 9 → PeerId) ⟨0⟩).Run NoExit
        ((List.finRange 9).map .start ++
          [.tick 0 (.sorted _), .seed (some 3), .receive 0 ⟨1, by decide⟩]) s ∧
      ∃ bs t, ((network testId ⟨0⟩).startAt s).Run Scheduled bs t ∧
        ∀ i, (∀ id : PeerId, id.val < 10 → id ∈ t.known i) ∧ t.done.count i = 1 := by
  have hexec : ((network (testId : Fin 9 → PeerId) ⟨0⟩).exec NoExit .init
      ((List.finRange 9).map .start ++
        [.tick 0 (.sorted _), .seed (some 3), .receive 0 ⟨1, by decide⟩])).map
        (fun s => (List.finRange 9).map s.size) = some (List.replicate 9 1) := by decide +kernel
  obtain ⟨s, hs, hsize⟩ := Option.map_eq_some_iff.mp hexec
  have hrun := System.run_iff.mpr hs
  refine ⟨s, hrun, no_dead_end hrun fun i => ?_⟩
  intro habsent
  have hone : s.size i = 1 :=
    List.eq_of_mem_replicate (hsize ▸ List.mem_map_of_mem (List.mem_finRange i))
  simp [Sys.size, Sys.known, habsent, Thread.known] at hone

end Reactor.Ab
