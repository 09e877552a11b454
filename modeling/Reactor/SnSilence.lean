import Reactor.SnReconnect

/-!
# Removed peers

Removing a `RemotePeer` drops the sending end of the channel to its
sending thread, which ends. Its receiving thread holds a clone of the
stream and a clone of the node's channel; the drop releases neither, and
the thread reads on until the remote side closes the connection.

**`silent_iff_dropsEnded`**: removed peers are silent all along a run if
and only if every `RemotePeer` dropped in it had a receiving thread that
was over already.
-/

namespace Reactor.Sn

open Reactor.System (Any)

/-- The receiving thread of a remote peer that has been dropped passes no
message on. -/
def Process.Silent (p : Process) : Prop :=
  ∀ k t, p.threads k = some t → t.dropped → ∀ msg, p.step (.received k msg) = none

/-- A remote peer is only dropped when its receiving thread has ended. -/
def DropsEnded (p : Process) : Act → Prop
  | .loop _ =>
      match p.pending with
      | some (.drop peer) => ∀ t ∈ p.threads peer.senderChannel, t.receiving = false
      | _ => True
  | _ => True

/-- The remote peer a step drops. -/
def Process.dropped? (p : Process) : Act → Option RemotePeer
  | .loop _ =>
      match p.pending with
      | some (.drop peer) => some peer
      | _ => none
  | _ => none

theorem dropsEnded_iff {p : Process} {a : Act} :
    DropsEnded p a ↔
      ∀ peer ∈ p.dropped? a, ∀ t ∈ p.threads peer.senderChannel, t.receiving = false := by
  unfold DropsEnded Process.dropped?
  split
  · split <;> simp
  · simp

instance (p : Process) (a : Act) : Decidable (DropsEnded p a) :=
  decidable_of_iff _ dropsEnded_iff.symm

namespace Process

variable {p p' : Process}

/-- Which remote peers are dropped while their receiving thread runs: none. -/
def Settled (p : Process) : Prop :=
  ∀ k t, p.threads k = some t → t.dropped → t.receiving = false

theorem Settled.silent (h : p.Settled) : p.Silent := by
  intro k t ht hdropped msg
  simp [Process.step, received, ht, h k t ht hdropped]

theorem settled_new (id : ID) : (new id).Settled := fun k t ht => by cases ht

/-- One remote peer's threads change. -/
theorem Settled.setThreads (h : p.Settled) {k : Nat} {u : Threads}
    (hu : u.dropped → u.receiving = false) : (p.setThreads k u).Settled := by
  intro k₁ t₁ ht₁ hdropped
  obtain ⟨-, rfl⟩ | ⟨-, hold⟩ := setThreads_cases ht₁
  · exact hu hdropped
  · exact h k₁ t₁ hold hdropped

theorem settled_advance {io : Io} (h : p.Settled) (hg : DropsEnded p (.loop io))
    (hs : p.advance io = some p') : p'.Settled := by
  obtain ⟨m, s, c, k, hctl, rfl⟩ | ⟨m, s, node, hctl, rfl⟩ | ⟨m, s, node, hctl, rfl⟩ |
    ⟨m, s, e, hctl, rfl⟩ := advance_cases hs
  · cases c with
    | spawn id stream => exact h.setThreads (by simp)
    | drop peer =>
        simp only [perform]
        cases ht : p.threads peer.senderChannel with
        | none => exact h
        | some t =>
            refine h.setThreads fun _ => ?_
            have hended : ∀ t ∈ p.threads peer.senderChannel, t.receiving = false := by
              simpa [DropsEnded, pending, hctl] using hg
            exact hended t ht
    | _ => exact h
  all_goals exact h

theorem settled_step {a : Act} (h : p.Settled) (hg : DropsEnded p a)
    (hs : p.step a = some p') : p'.Settled := by
  cases a with
  | post ev | accept stream =>
      obtain rfl := Option.some.inj hs
      exact h
  | take =>
      obtain ⟨m, rest, -, -, rfl⟩ := take_cases hs
      exact h
  | loop io => exact settled_advance h hg hs
  | sendEnds k =>
      obtain ⟨t, ht, -, -, rfl⟩ := sendEnds_cases hs
      exact h.setThreads (u := { t with sending := false }) (h k t ht)
  | received k msg =>
      obtain ⟨t, -, -, rfl⟩ := received_cases hs
      exact h
  | receiveEnds k =>
      obtain ⟨t, -, -, rfl⟩ := receiveEnds_cases hs
      exact h.setThreads (u := { t with receiving := false }) fun _ => rfl

/-- A remote peer dropped while its receiving thread runs is not silent. -/
theorem not_silent_of_drop {a : Act} (hg : ¬DropsEnded p a) (hs : p.step a = some p') :
    ¬p'.Silent := by
  unfold DropsEnded at hg
  split at hg
  case h_2 => exact absurd trivial hg
  next io =>
  split at hg
  case h_2 => exact absurd trivial hg
  next peer hpending =>
  push Not at hg
  obtain ⟨t, ht, hreceiving⟩ := hg
  obtain ⟨m, s, k, hctl⟩ := handling_of_pending hpending
  have hadvance : p.advance io = some p' := hs
  have ht : p.threads peer.senderChannel = some t := ht
  have hthreads : p'.threads peer.senderChannel = some { t with dropped := true } := by
    simp only [advance, hctl, perform, ht, Option.some.injEq] at hadvance
    subst hadvance
    simp
  intro hsilent
  have hnone := hsilent _ _ hthreads rfl .addressBookRequest
  simp [Process.step, received, hthreads, hreceiving] at hnone

end Process

/-- **Removed peers are silent** in all states of a run if and only if the
run drops remote peers only after their receiving threads have ended. -/
theorem silent_iff_dropsEnded {id : ID} {as : List Act} {p : Process}
    (h : (process id).Run Any as p) :
    (process id).Run DropsEnded as p ↔
      ∀ bs q, bs <+: as → (process id).Run Any bs q → q.Silent := by
  refine h.guarded_iff (P := fun _ => Process.Silent) (fun bs q hrun => ?_)
    fun _ _ _ _ _ hg hs => Process.not_silent_of_drop hg hs
  have hsettled : q.Settled := hrun.invariant Process.Settled (Process.settled_new id)
    fun _ _ _ hi hg hs => Process.settled_step hi hg hs
  exact hsettled.silent

/-- A peer that hangs up and is removed. -/
def hangsUp : List Act := joins "2" 0 ++ [.receiveEnds 0] ++ round .calm 2

theorem silent_iff_dropsEnded_hangsUp :
    ∃ p, (process "1").Run Any hangsUp p ∧
      p.threads 0 = some ⟨⟨"2", ⟨0, .listener⟩, 0⟩, true, false, true⟩ ∧ p.Silent := by
  have h : ((process "1").exec DropsEnded (process "1").init hangsUp).bind (·.threads 0) =
      some ⟨⟨"2", ⟨0, .listener⟩, 0⟩, true, false, true⟩ := by decide
  obtain ⟨p, hp, hthreads⟩ := Option.bind_eq_some_iff.mp h
  have hguarded := System.run_iff.mpr hp
  have hrun := hguarded.weaken (H := Any) fun _ _ _ => trivial
  exact ⟨p, hrun, hthreads,
    (silent_iff_dropsEnded hrun).mp hguarded _ _ (List.prefix_refl _) hrun⟩

/-- A peer that is told to go by someone else. -/
def turnedOut : List Act :=
  joins "2" 0 ++ [.post (.peer (.disconnect "2"))] ++ round .calm 2

/-- The peer has been removed, and its receiving thread passes on the next
frame. -/
theorem removed_still_heard :
    ¬∀ (id : ID) (as : List Act) (p : Process), (process id).Run Any as p → p.Silent := by
  intro h
  have hrun : ((process "1").exec Any (process "1").init turnedOut).bind (·.threads 0) =
      some ⟨⟨"2", ⟨0, .listener⟩, 0⟩, true, true, true⟩ := by decide
  obtain ⟨p, hp, hthreads⟩ := Option.bind_eq_some_iff.mp hrun
  have hnone := h _ _ p (System.run_iff.mpr hp) 0 _ hthreads rfl .addressBookRequest
  simp [Process.step, Process.received, hthreads] at hnone

end Reactor.Sn
