import Reactor.AbSystem

/-!
# Bindings of the concurrent address book

`Request`, `Response` and `Ping` carry a sender without saying whose it
is, and are passed on by anybody. An id goes with a sender again in a
`Pong`, which its own node makes, so that no entry of any map depends on
what the seed or another node passed on.

**`bindings_authentic`**: in every reachable state each entry of
`known_peers`, and each `Pong` in flight, pairs the id and the sender of
one party; and no entry is ever removed or changed.
-/

namespace Reactor.Ab

open Reactor.System (Any)

variable {ι : Type} [DecidableEq ι] {ids : ι → PeerId} {seedNode : PeerId} {s s' : Sys ι}
  {a : Act ι}

/-! ## Who is who -/

/-- The id is the seed's or a started node's, and the sender that very
party's. -/
def Sys.Binds (ids : ι → PeerId) (seedNode : PeerId) (s : Sys ι) (id : PeerId)
    (sender : Sender ι) : Prop :=
  (id = seedNode ∧ sender = .seed) ∨ ∃ j, s.Started j ∧ id = ids j ∧ sender = .node j

omit [DecidableEq ι] in
/-- With different ids, an id has one sender. -/
theorem Sys.Binds.unique (hinj : Function.Injective ids) (hseed : ∀ i, ids i ≠ seedNode)
    {id : PeerId} {x y : Sender ι} (hx : s.Binds ids seedNode id x)
    (hy : s.Binds ids seedNode id y) : x = y := by
  rcases hx with ⟨rfl, rfl⟩ | ⟨i, -, rfl, rfl⟩
  · rcases hy with ⟨-, rfl⟩ | ⟨j, -, hj, -⟩
    · rfl
    · exact absurd hj.symm (hseed j)
  · rcases hy with ⟨hi, -⟩ | ⟨j, -, hj, rfl⟩
    · exact absurd hi (hseed i)
    · rw [hinj hj]

theorem Step.started (hs : Step ids seedNode s a s') {j : ι} (h : s.Started j) :
    s'.Started j := by
  unfold Sys.Started
  rcases hs.thread_cases j with ⟨ht, -⟩ | ⟨-, ht, -⟩ | ⟨_, _, -, -, ht, -⟩ | ⟨_, -, -, ht, -⟩
  · rwa [ht]
  all_goals simp [ht]

theorem Step.binds (hs : Step ids seedNode s a s') {id : PeerId} {sender : Sender ι}
    (h : s.Binds ids seedNode id sender) : s'.Binds ids seedNode id sender :=
  h.imp_right fun ⟨j, hj, hid⟩ => ⟨j, hs.started hj, hid⟩

/-! ## The invariant -/

structure Authentic (ids : ι → PeerId) (seedNode : PeerId) (s : Sys ι) : Prop where
  own : ∀ i book, s.thread i = .running book → book.peerId = ids i ∧ book.sender = .node i
  known : ∀ i id sender, (s.known i).lookup id = some sender → s.Binds ids seedNode id sender
  pong : ∀ x info, .pong info ∈ s.queue x → ∃ j, s.Started j ∧ info = ⟨ids j, .node j⟩

theorem authentic_step (hi : Authentic ids seedNode s) (hs : Step ids seedNode s a s') :
    Authentic ids seedNode s' := by
  refine ⟨fun i book h => ?_, fun i id sender h => ?_, fun x info h => ?_⟩
  · rcases hs.thread_cases i with ⟨ht, -⟩ | ⟨-, ht, -⟩ | ⟨old, info, hold, -, ht, -⟩ |
      ⟨_, -, -, ht, -⟩
    · exact hi.own i book (ht ▸ h)
    · rw [ht] at h
      cases h
      exact ⟨rfl, rfl⟩
    · rw [ht] at h
      cases h
      exact hi.own i old hold
    · rw [ht] at h
      cases h
  · rcases hs.known_cases i with hk | ⟨-, hk⟩ | ⟨info, hpong, hk⟩
    · exact hs.binds (hi.known i id sender (hk ▸ h))
    · rw [hk] at h
      obtain rfl : id = seedNode :=
        (Finmap.mem_singleton ..).mp (Finmap.mem_of_lookup_eq_some h)
      rw [Finmap.lookup_singleton_eq] at h
      cases h
      exact .inl ⟨rfl, rfl⟩
    · rw [hk] at h
      obtain ⟨j, hj, rfl⟩ := hi.pong _ info hpong
      by_cases hid : id = ids j
      · subst hid
        rw [Finmap.lookup_insert] at h
        cases h
        exact .inr ⟨j, hs.started hj, rfl, rfl⟩
      · rw [Finmap.lookup_insert_of_ne _ hid] at h
        exact hs.binds (hi.known i id sender h)
  · rcases hs.pong_cases h with h | ⟨i, book, ht, rfl⟩
    · obtain ⟨j, hj, rfl⟩ := hi.pong x info h
      exact ⟨j, hs.started hj, rfl⟩
    · obtain ⟨hid, hsender⟩ := hi.own i book ht
      exact ⟨i, hs.started (by simp [Sys.Started, ht]), by rw [hid, hsender]⟩

theorem authentic_run {as : List (Act ι)} (h : (network ids seedNode).Run Any as s) :
    Authentic ids seedNode s := by
  refine h.invariant (Authentic ids seedNode) ⟨?_, ?_, ?_⟩ fun s a s' hi _ hs =>
    authentic_step hi (step_sound hs)
  · intro i book h
    cases h
  · intro i id sender h
    simp [network, Sys.known, Sys.init, Thread.known] at h
  · intro x info h
    simp [network, Sys.init] at h

/-- What is known stays known. -/
theorem Step.keeps (hinj : Function.Injective ids) (hseed : ∀ i, ids i ≠ seedNode)
    (hi : Authentic ids seedNode s) (hs : Step ids seedNode s a s') {i : ι} {id : PeerId}
    {sender : Sender ι} (h : (s.known i).lookup id = some sender) :
    (s'.known i).lookup id = some sender := by
  have hbinds := hi.known i id sender h
  rcases hs.known_cases i with hk | ⟨hnone, -⟩ | ⟨info, hpong, hk⟩
  · rwa [hk]
  · simp [hnone] at h
  · rw [hk]
    obtain ⟨j, hj, rfl⟩ := hi.pong _ info hpong
    by_cases hid : id = ids j
    · subst hid
      have hsender : sender = .node j := hbinds.unique hinj hseed (.inr ⟨j, hj, rfl, rfl⟩)
      rw [Finmap.lookup_insert, hsender]
    · rwa [Finmap.lookup_insert_of_ne _ hid]

theorem keeps_run (hinj : Function.Injective ids) (hseed : ∀ i, ids i ≠ seedNode)
    (hi : Authentic ids seedNode s) {G : Sys ι → Act ι → Prop} {bs : List (Act ι)} {t : Sys ι}
    (h : ((network ids seedNode).startAt s).Run G bs t) {i : ι} {id : PeerId}
    {sender : Sender ι} (hknown : (s.known i).lookup id = some sender) :
    (t.known i).lookup id = some sender := by
  refine (h.invariant (fun t => Authentic ids seedNode t ∧ (t.known i).lookup id = some sender)
    ⟨hi, hknown⟩ ?_).2
  rintro t a t' ⟨hi, hknown⟩ - hs
  exact ⟨authentic_step hi (step_sound hs), (step_sound hs).keeps hinj hseed hi hknown⟩

/-! ## Authentic bindings -/

/-- **Bindings are authentic.** For nodes whose ids differ from each other
and from the seed's, whatever the interleaving, the random ids and the
answers of the seed: who is known is the seed or a started node, under its
own id with its own sender, and stays known so; and a `Pong` names the
node whose sender it carries. -/
theorem bindings_authentic (hinj : Function.Injective ids) (hseed : ∀ i, ids i ≠ seedNode)
    {as : List (Act ι)} (h : (network ids seedNode).Run Any as s) :
    (∀ i id sender, (s.known i).lookup id = some sender → s.Binds ids seedNode id sender) ∧
      (∀ i id sender, (s.known i).lookup id = some sender →
        ∀ bs t, ((network ids seedNode).startAt s).Run Any bs t →
          (t.known i).lookup id = some sender) ∧
      ∀ x info, .pong info ∈ s.queue x → ∃ j, s.Started j ∧ info = ⟨ids j, .node j⟩ := by
  have hi := authentic_run h
  refine ⟨hi.known, ?_, hi.pong⟩
  intro i id sender hknown bs t ht
  exact keeps_run hinj hseed hi ht hknown

/-- Two nodes: the seed tells the first one of the second. -/
theorem bindings_authentic_pair :
    ∃ s, (network (testId : Fin 2 → PeerId) ⟨0⟩).Run Any
        [.start 0, .start 1, .seed (some 1), .receive 0 ⟨1, by decide⟩,
          .receive 1 ⟨1, by decide⟩, .receive 0 ⟨1, by decide⟩] s ∧
      (s.known 0).lookup ⟨2⟩ = some (.node 1) ∧
      s.Binds testId ⟨0⟩ ⟨2⟩ (.node 1) := by
  have hexec : ((network (testId : Fin 2 → PeerId) ⟨0⟩).exec Any .init
      [.start 0, .start 1, .seed (some 1), .receive 0 ⟨1, by decide⟩,
        .receive 1 ⟨1, by decide⟩, .receive 0 ⟨1, by decide⟩]).map
        (fun s => (s.known 0).lookup ⟨2⟩) = some (some (.node 1)) := by decide
  obtain ⟨s, hs, hknown⟩ := Option.map_eq_some_iff.mp hexec
  have hrun := System.run_iff.mpr hs
  refine ⟨s, hrun, hknown, ?_⟩
  exact (bindings_authentic (fun i j => by revert i j; decide) (by decide) hrun).1 0 _ _ hknown

end Reactor.Ab
