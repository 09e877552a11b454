import Reactor.MtSession

/-!
# Shutting down

Two things end tendermint's loop: `TendermintMsg::Exit` from the ABCI side,
after which it waits for the dispatcher's confirmation and passes it on,
and the disappearance of the dispatcher, which it reports to the ABCI side.
The wait ends in a panic when the dispatcher drops the confirmation sender
unused, that is, when the dispatcher is gone before it handles the `Exit`.

`shutdown_iff_confirming` says which runs are free of that, in the node
whose dispatcher may disappear at any point (`fragile`).
`stopped_iff_stopsFirst` is about the tasks: the confirmation says that the
dispatcher has ended, not that the tasks it spawned have.
-/

namespace Reactor

namespace Mt

open Reactor.System (Any)

/-! ## A dispatcher that may disappear -/

/-- The dispatcher's task panics wherever it is. -/
def Sys.crash (s : Sys) : Option Sys :=
  match s.dispCtl with
  | .running => some (s.endDispatcher .panicked)
  | _ => none

/-- A step of the node, or the end of its dispatcher. -/
def fragileStep (s : Sys) : Option Act → Option Sys
  | some a => step s a
  | none => s.crash

def fragile (seedNode : PeerId) : System Sys (Option Act) := ⟨init seedNode, fragileStep⟩

/-- No step of tendermint panics, and where its loop has ended it has
passed on the confirmation it was asked for, or reported that the
dispatcher is gone, and then it is. -/
structure ShutsDown (s : Sys) : Prop where
  steady : ∀ a s', fragileStep s a = some s' → s'.tmCtl ≠ .panicked
  answered : s.tmCtl = .stopped →
    s.exitConfirmed = true ∧ s.confirmed = true ∨ s.abciExit = true ∧ s.dispCtl ≠ .running

/-- The dispatcher is there when `Exit` is sent to it, and until it has
confirmed it neither disappears nor takes a message for a peer that is not
connected. -/
def KeepsConfirming (s : Sys) : Option Act → Prop
  | some .tmExit => s.dispCtl = .running
  | some .dispatch =>
      match s.dispInbox with
      | ⟨.toPeer p _, _⟩ :: _ =>
          s.tmCtl = .awaitDispatcher → p ∈ s.dispatcher.connectedPeers
      | _ => True
  | none => s.tmCtl ≠ .awaitDispatcher
  | _ => True

instance (s : Sys) (a : Option Act) : Decidable (KeepsConfirming s a) := by
  unfold KeepsConfirming
  split
  · infer_instance
  · split <;> infer_instance
  · infer_instance
  · infer_instance

/-- An `Exit` in the dispatcher's inbox was there, or is sent now. -/
theorem Step.exits {s s' : Sys} {a : Act} (hs : Step s a s')
    (hq : s'.exitQueued = true) : s.exitQueued = true ∨ a = .tmExit := by
  obtain ⟨m, hm, hexit⟩ : ∃ m ∈ s'.dispInbox, m.msg = .exit := by
    simpa [Sys.exitQueued] using hq
  refine (hs.mem_dispInbox hm).imp (fun hold => ?_) fun hsends => ?_
  · exact List.any_eq_true.mpr ⟨m, hold, decide_eq_true hexit⟩
  · cases hsends with
    | exits => rfl
    | _ => cases hexit

/-- How far the shutdown has come. -/
structure Closing (s : Sys) : Prop where
  serving : s.dispCtl = .running → Serving s
  unasked : s.tmCtl = .running → s.confirmed = false ∧ s.exitQueued = false
  dropped : s.dispCtl ≠ .running → s.dispInbox = []
  steady : s.tmCtl ≠ .panicked
  waiting : s.tmCtl = .awaitDispatcher → s.confirmed = true ∨ s.dispCtl = .running
  told : s.tmCtl = .awaitAbci → s.abciExit = true
  gone : s.abciExit = true → s.dispCtl ≠ .running
  stopped : s.tmCtl = .stopped →
    s.exitConfirmed = true ∧ s.confirmed = true ∨ s.abciExit = true

theorem closing_init (seedNode : PeerId) : Closing (init seedNode) where
  serving _ := ⟨rfl, .inl rfl⟩
  unasked _ := ⟨rfl, rfl⟩
  dropped _ := rfl
  steady := by simp [init]
  waiting := by simp [init]
  told := by simp [init]
  gone := by simp [init]
  stopped := by simp [init]

/-- Tendermint waits for a confirmation that has come or is still to come. -/
theorem Closing.awaited {s : Sys} (h : Closing s) (hctl : s.tmCtl = .awaitDispatcher)
    (hconf : s.confirmed = false) : s.exitQueued = true := by
  rcases h.waiting hctl with hc | hrun
  · rw [hconf] at hc; cases hc
  · by_contra hgone
    have hserv := (h.serving hrun).tendermint
    simp [hctl, hgone] at hserv

/-- Steps that concern neither loop's control. -/
theorem Closing.congr {s s' : Sys} (h : Closing s)
    (hserving : s'.dispCtl = .running → Serving s')
    (hqueued : s.tmCtl = .running → s'.exitQueued = false)
    (hdropped : s'.dispCtl ≠ .running → s'.dispInbox = []) (hdisp : s'.dispCtl = s.dispCtl)
    (htm : s'.tmCtl = s.tmCtl) (hconf : s'.confirmed = s.confirmed)
    (hexit : s'.exitConfirmed = s.exitConfirmed) (habci : s'.abciExit = s.abciExit) :
    Closing s' := by
  obtain ⟨-, hunasked, -, hsteady, hwaiting, htold, hgone, hstopped⟩ := h
  refine ⟨hserving, fun hrun => ?_, hdropped, ?_, ?_, ?_, ?_, ?_⟩
  · have hrun : s.tmCtl = .running := htm ▸ hrun
    exact ⟨hconf ▸ (hunasked hrun).1, hqueued hrun⟩
  all_goals simpa only [hdisp, htm, hconf, hexit, habci]

/-- The dispatcher ends while nobody waits for it, or confirms. -/
theorem Closing.endDispatcher {s s' : Sys} (h : Closing s) (hdisp : s'.dispCtl ≠ .running)
    (hin : s'.dispInbox = []) (htm : s'.tmCtl = s.tmCtl)
    (hwait : s.tmCtl ≠ .awaitDispatcher ∧ s'.confirmed = s.confirmed ∨
      s.tmCtl ≠ .running ∧ s'.confirmed = true)
    (hexit : s'.exitConfirmed = s.exitConfirmed) (habci : s'.abciExit = s.abciExit) :
    Closing s' where
  serving hctl := absurd hctl hdisp
  unasked hrun := by
    rcases hwait with ⟨-, hconf⟩ | ⟨hno, -⟩
    · exact ⟨hconf ▸ (h.unasked (htm ▸ hrun)).1, by simp [Sys.exitQueued, hin]⟩
    · exact absurd (htm ▸ hrun) hno
  dropped _ := hin
  steady := htm ▸ h.steady
  waiting hw := by
    rcases hwait with ⟨hno, -⟩ | ⟨-, hconf⟩
    · exact absurd (htm ▸ hw) hno
    · exact .inl hconf
  told hw := habci ▸ h.told (htm ▸ hw)
  gone _ := hdisp
  stopped hs := by
    rw [hexit, habci]
    rcases h.stopped (htm ▸ hs) with ⟨he, hconf⟩ | ha
    · rcases hwait with ⟨-, heq⟩ | ⟨-, hconf'⟩
      · exact .inl ⟨he, heq ▸ hconf⟩
      · exact .inl ⟨he, hconf'⟩
    · exact .inr ha

/-- Once the dispatcher is gone its inbox stays empty. -/
theorem Step.stays_dropped {s s' : Sys} {a : Act} (hs : Step s a s')
    (h : s.dispCtl ≠ .running → s.dispInbox = []) :
    s'.dispCtl ≠ .running → s'.dispInbox = [] := by
  intro hctl'
  cases hs with
  | dispatchPanic | dispatchExit => rfl
  | dispatchHandshake hctl | dispatchSend hctl | dispatchLost hctl
  | dispatchDisconnected hctl | dispatchCompleted hctl => exact absurd hctl hctl'
  | accept | helloRead | tick | tmReceive | tmExit =>
      have hctl : s.dispCtl ≠ .running := hctl'
      have hnil := h hctl
      cases hc : s.dispCtl <;> simp_all [DispCtl.deliver]
  | _ => exact h hctl'

theorem closing_step {s s' : Sys} {a : Act} (h : Closing s) (hg : KeepsConfirming s (some a))
    (hs : Step s a s') : Closing s' := by
  have hserving : s'.dispCtl = .running → Serving s' := fun hctl' =>
    serving_step (h.serving (hs.dispRunning hctl')) (hs.dispRunning hctl') hctl' hs
  have hdropped := hs.stays_dropped h.dropped
  have hqueued : a ≠ .tmExit → s.tmCtl = .running → s'.exitQueued = false := by
    intro ha hrun
    by_contra hq
    rcases hs.exits (Bool.not_eq_false _ ▸ hq) with hq | hexit
    · rw [(h.unasked hrun).2] at hq; cases hq
    · exact ha hexit
  cases hs with
  | @dispatchPanic p m o rest hctl hin hnone =>
      refine h.endDispatcher (by simp) rfl rfl (.inl ⟨fun hw => ?_, rfl⟩) rfl rfl
      have hconn : p ∈ s.dispatcher.connectedPeers := by
        simp only [KeepsConfirming, hin] at hg
        exact hg hw
      exact Finmap.lookup_eq_none.mp hnone hconn
  | dispatchExit _ hin =>
      refine h.endDispatcher (by simp) rfl rfl (.inr ⟨fun hrun => ?_, rfl⟩) rfl rfl
      have hno := (h.unasked hrun).2
      simp [Sys.exitQueued, hin] at hno
  | tmExit hctl =>
      exact ⟨hserving, by simp, hdropped, by simp, fun _ => .inr hg, by simp, h.gone, by simp⟩
  | tmConfirmed hctl hconf =>
      exact ⟨hserving, by simp, hdropped, by simp, by simp, by simp, h.gone,
        fun _ => .inl ⟨rfl, hconf⟩⟩
  | tmUnconfirmed hctl hconf hgone =>
      rw [h.awaited hctl hconf] at hgone
      cases hgone
  | tmDisconnected hctl hin hgone =>
      refine ⟨hserving, by simp, hdropped, by simp, by simp, fun _ => rfl, fun _ hrun => ?_,
        fun _ => .inr rfl⟩
      simp [Sys.tmSendersGone, show s.dispCtl = .running from hrun] at hgone
  | abciReply hctl =>
      exact ⟨hserving, by simp, hdropped, by simp, by simp, by simp, h.gone,
        fun _ => .inr (h.told hctl)⟩
  | _ => exact h.congr hserving (hqueued (by simp)) hdropped rfl rfl rfl rfl rfl

theorem closing_crash {s s' : Sys} (h : Closing s) (hg : KeepsConfirming s none)
    (hs : s.crash = some s') : Closing s' := by
  unfold Sys.crash at hs
  split at hs
  · obtain rfl := Option.some.inj hs
    exact h.endDispatcher (by simp) rfl rfl (.inl ⟨hg, rfl⟩) rfl rfl
  · cases hs

theorem closing_fragileStep {s s' : Sys} {a : Option Act} (h : Closing s)
    (hg : KeepsConfirming s a) (hs : fragileStep s a = some s') : Closing s' := by
  cases a with
  | none => exact closing_crash h hg hs
  | some a => exact closing_step h hg (step_sound hs)

/-- Only the wait for a confirmation that cannot come panics. -/
theorem Closing.shutsDown {s : Sys} (h : Closing s) : ShutsDown s where
  steady a s' hs hpanic := by
    cases a with
    | none =>
        simp only [fragileStep, Sys.crash] at hs
        split at hs
        · obtain rfl := Option.some.inj hs
          exact h.steady hpanic
        · cases hs
    | some a =>
        have hs := step_sound hs
        cases hs with
        | tmUnconfirmed hctl hconf hgone =>
            rw [h.awaited hctl hconf] at hgone
            cases hgone
        | tmExit | tmConfirmed | tmDisconnected | abciReply => cases hpanic
        | _ => exact h.steady hpanic
  answered hs := (h.stopped hs).imp_right fun ha => ⟨ha, h.gone ha⟩

/-- With nothing in the dispatcher's inbox and no confirmation, the next
thing that happens to a waiting tendermint is a panic. -/
theorem not_shutsDown {s : Sys} (hctl : s.tmCtl = .awaitDispatcher)
    (hconf : s.confirmed = false) (hin : s.exitQueued = false) : ¬ShutsDown s := fun h => by
  refine h.steady (some .tmConfirmed) { s with tmCtl := .panicked } ?_ rfl
  simp [fragileStep, step, hctl, hconf, hin]

/-- Each step the guard excludes leaves tendermint waiting in vain. -/
theorem Closing.broken {s s' : Sys} {a : Option Act} (h : Closing s)
    (hg : ¬KeepsConfirming s a) (hs : fragileStep s a = some s') : ¬ShutsDown s' := by
  have hwaiting : s.dispCtl = .running → s.tmCtl = .awaitDispatcher →
      ¬ShutsDown (s.endDispatcher .panicked) := fun hrun hw =>
    not_shutsDown hw (h.serving hrun).unconfirmed rfl
  unfold KeepsConfirming at hg
  split at hg
  · -- `Exit` is sent to a dispatcher that is gone
    have hs := step_sound (show step s .tmExit = some s' from hs)
    cases hs with
    | tmExit hctl =>
        refine not_shutsDown rfl (h.unasked hctl).1 ?_
        have hin := h.dropped hg
        cases hc : s.dispCtl <;> simp_all [DispCtl.deliver, Sys.exitQueued]
  · -- the dispatcher stops at a message for a peer that is not connected
    split at hg
    case h_2 => exact absurd trivial hg
    next p m o rest hin =>
    push Not at hg
    obtain ⟨hw, hconn⟩ := hg
    have hnone := Finmap.lookup_eq_none.mpr hconn
    have hs := step_sound (show step s .dispatch = some s' from hs)
    have hrun := dispatch_running hs
    have hs' : s' = s.endDispatcher .panicked := by
      cases hs with
      | dispatchPanic => rfl
      | dispatchHandshake _ hin' | dispatchDisconnected _ hin' | dispatchCompleted _ hin'
      | dispatchExit _ hin' => rw [hin] at hin'; cases hin'
      | dispatchSend _ hin' hsome | dispatchLost _ hin' hsome =>
          rw [hin] at hin'
          cases hin'
          rw [hnone] at hsome; cases hsome
    exact hs' ▸ hwaiting hrun hw
  · -- the dispatcher disappears
    simp only [fragileStep, Sys.crash] at hs
    split at hs
    · obtain rfl := Option.some.inj hs
      exact hwaiting ‹_› (not_not.mp hg)
    · cases hs
  · exact absurd trivial hg

/-- **Shutting down.** The node shuts down all along a run if and only if
the dispatcher is there when it is asked to exit, and stays until it has
confirmed. -/
theorem shutdown_iff_confirming {seedNode : PeerId} {as : List (Option Act)} {s : Sys}
    (h : (fragile seedNode).Run Any as s) :
    (fragile seedNode).Run KeepsConfirming as s ↔
      ∀ bs t, bs <+: as → (fragile seedNode).Run Any bs t → ShutsDown t := by
  have hclosing : ∀ bs t, (fragile seedNode).Run KeepsConfirming bs t → Closing t :=
    fun bs t hrun => hrun.invariant Closing (closing_init seedNode)
      fun _ _ _ hi hg hs => closing_fragileStep hi hg hs
  exact h.guarded_iff (P := fun _ => ShutsDown) (fun bs t hrun => (hclosing bs t hrun).shutsDown)
    fun bs t _ _ hrun hg hs => (hclosing bs t hrun).broken hg hs

/-- `Exit` while a peer is connected and the reply to its request queued. -/
def exitsQueued : List Act :=
  join 0 ⟨"a"⟩ ++ [.tmReceive, .frame 0 (.msg (.addressBookRequest ⟨"a"⟩)), .tmReceive,
    .tmExit, .dispatch, .dispatch, .tmConfirmed]

theorem shutdown_iff_confirming_queued :
    ∃ s, (fragile ⟨"seed"⟩).Run Any (exitsQueued.map some) s ∧ s.exitConfirmed = true ∧
      ShutsDown s := by
  have h : ((fragile ⟨"seed"⟩).exec KeepsConfirming (init ⟨"seed"⟩)
      (exitsQueued.map some)).map (·.exitConfirmed) = some true := by decide
  obtain ⟨s, hs, hexit⟩ := Option.map_eq_some_iff.mp h
  have hguarded := System.run_iff.mpr hs
  have hrun := hguarded.weaken (H := Any) fun _ _ _ => trivial
  exact ⟨s, hrun, hexit,
    (shutdown_iff_confirming hrun).mp hguarded _ _ (List.prefix_refl _) hrun⟩

/-- The dispatcher disappears just before tendermint is asked to exit. -/
theorem exit_after_crash_panics :
    ¬∀ (seedNode : PeerId) (as : List (Option Act)) (s : Sys),
      (fragile seedNode).Run Any as s → ShutsDown s := by
  intro h
  have hrun : ((fragile ⟨"seed"⟩).exec Any (init ⟨"seed"⟩) [none, some .tmExit]).map
      (fun s => (s.tmCtl, s.confirmed, s.exitQueued)) =
      some (.awaitDispatcher, false, false) := by decide
  obtain ⟨s, hs, hobs⟩ := Option.map_eq_some_iff.mp hrun
  simp only [Prod.mk.injEq] at hobs
  exact not_shutsDown hobs.1 hobs.2.1 hobs.2.2 (h _ _ s (System.run_iff.mpr hs))

/-! ## The tasks -/

/-- Some continuation writes a frame on `c`: a task that owns `c` is live
and able to write. -/
def Sys.MayWrite (s : Sys) (c : Conn) : Prop :=
  ∃ as t, (System.mk s step).Run Any as t ∧ t.wire c ≠ s.wire c

/-- Once the exit is confirmed to the ABCI side, no connection is written
to any more. -/
def NetworkingStopped (s : Sys) : Prop :=
  s.exitConfirmed = true → ∀ c, ¬s.MayWrite c

/-- The task of `c` has its `Hello` to write, or is in a write, or has a
message to write in its command channel. -/
def Sys.writing (s : Sys) (c : Conn) : Bool :=
  match s.task c with
  | .sayHello _ | .peerSend _ _ => true
  | .peer _ => !(s.cmd c).isEmpty
  | _ => false

/-- Tendermint only takes the dispatcher's confirmation when no task has
anything left to write. -/
def StopsFirst (s : Sys) : Act → Prop
  | .tmConfirmed => s.confirmed = true → ∀ c < s.nextConn, s.writing c = false
  | _ => True

instance (s : Sys) (a : Act) : Decidable (StopsFirst s a) := by
  unfold StopsFirst
  split <;> infer_instance

/-- Nobody gives the tasks anything to write, and none has any left. -/
structure Muted (s : Sys) : Prop where
  dispatcher : s.dispCtl ≠ .running
  tasks : ∀ c, s.writing c = false

/-- One task moves to a place where it does not write. -/
theorem Muted.retask {s s' : Sys} (h : Muted s) (hdisp : s'.dispCtl = s.dispCtl) {c : Conn}
    (hothers : ∀ d, d ≠ c → s'.task d = s.task d ∧ s'.cmd d = s.cmd d)
    (hmuted : s'.writing c = false) : Muted s' := by
  refine ⟨hdisp ▸ h.dispatcher, fun d => ?_⟩
  by_cases hd : d = c
  · exact hd ▸ hmuted
  · obtain ⟨htask, hcmd⟩ := hothers d hd
    unfold Sys.writing
    rw [htask, hcmd]
    exact h.tasks d

/-- A connection handed to a dispatcher that is gone is closed. -/
theorem Muted.handOver {s s' : Sys} (h : Muted s) (hdisp : s'.dispCtl = s.dispCtl) {c : Conn}
    {m : DispatcherMsg} (htask : s'.task = (s.handOver c m).task) (hcmd : s'.cmd = s.cmd) :
    Muted s' := by
  refine h.retask (c := c) hdisp (fun d hd => ⟨by simp [htask, hd], by rw [hcmd]⟩) ?_
  have hgone := h.dispatcher
  cases hctl : s.dispCtl <;> simp_all [Sys.writing]

theorem muted_step {s s' : Sys} {a : Act} (h : Muted s) (hs : Step s a s') :
    Muted s' ∧ s'.wire = s.wire := by
  have hwriting := h.tasks
  have hgone := h.dispatcher
  cases hs with
  | dispatchHandshake hctl | dispatchPanic hctl | dispatchSend hctl | dispatchLost hctl
  | dispatchDisconnected hctl | dispatchCompleted hctl | dispatchExit hctl =>
      exact absurd hctl hgone
  | accept =>
      exact ⟨h.handOver (m := .peerHandshake s.nextConn s.tendermint.seedNode) rfl rfl rfl, rfl⟩
  | @helloRead c p =>
      exact ⟨h.handOver (m := .handshakeCompleted c p) rfl rfl rfl, rfl⟩
  | @helloSent c myId htask | @helloUnsent c myId htask | @sent c myId m htask
  | @unsent c myId m htask =>
      have hno := hwriting c
      simp [Sys.writing, htask] at hno
  | @command c p m rest htask hcmd =>
      have hno := hwriting c
      simp [Sys.writing, htask, hcmd] at hno
  | @helloFailed c | @commandClosed c | @remoteGone c =>
      refine ⟨h.retask (c := c) rfl (fun d hd => ⟨by simp [hd], by simp [hd]⟩) ?_, rfl⟩
      simp [Sys.writing]
  | _ => exact ⟨⟨hgone, hwriting⟩, rfl⟩

theorem Muted.not_mayWrite {s : Sys} (h : Muted s) (c : Conn) : ¬s.MayWrite c := by
  rintro ⟨as, t, hrun, hne⟩
  have hinv : Muted t ∧ t.wire = s.wire := by
    refine hrun.invariant (fun t => Muted t ∧ t.wire = s.wire) ⟨h, rfl⟩ ?_
    rintro t a t' ⟨hmuted, hwire⟩ - hs
    obtain ⟨hmuted', hwire'⟩ := muted_step hmuted (step_sound hs)
    exact ⟨hmuted', hwire'.trans hwire⟩
  exact hne (congrFun hinv.2 c)

theorem Sys.MayWrite.of_writing {s : Sys} {c : Conn} (h : s.writing c = true) : s.MayWrite c := by
  have sent : ∀ {t : Sys} {p m}, t.task c = .peerSend p m → t.wire = s.wire →
      ∃ t', step t (.sent c true) = some t' ∧ t'.wire c ≠ s.wire c := by
    intro t p m htask hwire
    refine ⟨_, by simp only [step, htask, if_true]; rfl, ?_⟩
    simp [hwire]
  unfold Sys.writing at h
  split at h
  · next myId htask =>
      obtain ⟨t', hs, hne⟩ : ∃ t', step s (.helloSent c true) = some t' ∧
          t'.wire c ≠ s.wire c :=
        ⟨_, by simp only [step, htask, if_true]; rfl, by simp⟩
      exact ⟨[.helloSent c true], t', System.run_cons.mpr ⟨trivial, t', hs, .nil⟩, hne⟩
  · next p m htask =>
      obtain ⟨t', hs, hne⟩ := sent htask rfl
      exact ⟨[.sent c true], t', System.run_cons.mpr ⟨trivial, t', hs, .nil⟩, hne⟩
  · next p htask =>
      cases hcmd : s.cmd c with
      | nil => simp [hcmd] at h
      | cons m rest =>
          have hs : step s (.command c) = some { s.setTask c (.peerSend p m) with
              cmd := Function.update s.cmd c rest } := by
            simp only [step, htask, hcmd]
          obtain ⟨t', hs', hne⟩ := sent (t := { s.setTask c (.peerSend p m) with
            cmd := Function.update s.cmd c rest }) (p := p) (m := m) (by simp) rfl
          exact ⟨[.command c, .sent c true], t', System.run_cons.mpr ⟨trivial, _, hs,
            System.run_cons.mpr ⟨trivial, t', hs', .nil⟩⟩, hne⟩
  · cases h

/-- A confirmation is the dispatcher's last act, and once it is passed on
nobody writes. -/
structure Hushed (s : Sys) : Prop where
  confirmed : s.confirmed = true → s.dispCtl ≠ .running
  muted : s.exitConfirmed = true → Muted s

theorem hushed_step {s s' : Sys} {a : Act} (h : Hushed s) (ho : Owned s) (hg : StopsFirst s a)
    (hs : Step s a s') : Hushed s' := by
  have hmuted : s.exitConfirmed = true → Muted s' := fun he => (muted_step (h.muted he) hs).1
  cases hs with
  | dispatchPanic | dispatchExit => exact ⟨by simp, hmuted⟩
  | tmConfirmed hctl hconf =>
      refine ⟨h.confirmed, fun _ => ⟨h.confirmed hconf, fun c => ?_⟩⟩
      by_cases hc : c < s.nextConn
      · exact hg hconf c hc
      · simp [Sys.writing, ho.fresh c (Nat.le_of_not_lt hc)]
  | _ => exact ⟨h.confirmed, hmuted⟩

/-- **Networking stops first.** In all states of a run, a confirmed exit
means that nothing more is written, if and only if the run passes on the
dispatcher's confirmation only when no task has anything left to write. -/
theorem stopped_iff_stopsFirst {seedNode : PeerId} {as : List Act} {s : Sys}
    (h : (node seedNode).Run Any as s) :
    (node seedNode).Run StopsFirst as s ↔
      ∀ bs t, bs <+: as → (node seedNode).Run Any bs t → NetworkingStopped t := by
  refine h.guarded_iff (P := fun _ => NetworkingStopped) (fun bs t hrun => ?_)
    fun bs t a t' _ hg hs hstopped => ?_
  · have hhushed : Hushed t := by
      refine (hrun.strengthen fun _ _ h => owned_run h).invariant Hushed
        ⟨by simp [node, init], by simp [node, init]⟩ ?_
      exact fun _ _ _ hi hg hs => hushed_step hi hg.2 hg.1 (step_sound hs)
    exact fun he c => (hhushed.muted he).not_mayWrite c
  · unfold StopsFirst at hg
    split at hg
    case h_2 => exact absurd trivial hg
    push Not at hg
    obtain ⟨hconf, c, -, hwriting⟩ := hg
    have hs := step_sound (show step t .tmConfirmed = some t' from hs)
    cases hs with
    | tmConfirmed hctl =>
        exact hstopped rfl c (.of_writing (Bool.not_eq_false _ ▸ hwriting))
    | tmUnconfirmed hctl hno => rw [hconf] at hno; cases hno

/-- A peer's task ends before the confirmation is passed on. -/
def leavesFirst : List Act :=
  join 0 ⟨"a"⟩ ++ [.tmReceive, .tmExit, .dispatch, .command 0, .tmConfirmed]

theorem stopped_iff_stopsFirst_leaves :
    ∃ s, (node ⟨"seed"⟩).Run Any leavesFirst s ∧ s.exitConfirmed = true ∧
      NetworkingStopped s := by
  have h : ((node ⟨"seed"⟩).exec StopsFirst (init ⟨"seed"⟩) leavesFirst).map
      (·.exitConfirmed) = some true := by decide
  obtain ⟨s, hs, hexit⟩ := Option.map_eq_some_iff.mp h
  have hguarded := System.run_iff.mpr hs
  have hrun := hguarded.weaken (H := Any) fun _ _ _ => trivial
  exact ⟨s, hrun, hexit, (stopped_iff_stopsFirst hrun).mp hguarded _ _ (List.prefix_refl _) hrun⟩

/-- The exit is confirmed while a handshake task has not said hello yet. -/
theorem confirmed_before_hello :
    ¬∀ (seedNode : PeerId) (as : List Act) (s : Sys),
      (node seedNode).Run Any as s → NetworkingStopped s := by
  intro h
  have hrun : ((node ⟨"seed"⟩).exec Any (init ⟨"seed"⟩)
      [.accept, .dispatch, .tmExit, .dispatch, .tmConfirmed]).map
      (fun s => (s.exitConfirmed, s.writing 0)) = some (true, true) := by decide
  obtain ⟨s, hs, hobs⟩ := Option.map_eq_some_iff.mp hrun
  simp only [Prod.mk.injEq] at hobs
  exact h _ _ s (System.run_iff.mpr hs) hobs.1 0 (.of_writing hobs.2)

end Mt

end Reactor
