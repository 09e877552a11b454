import Reactor.MtTrace

/-!
# Peers whose task has ended

A per-peer task ends in one of four places. When its remote end is gone it
tells tendermint, which takes the id out of the address book and tells the
dispatcher; when a write fails it ends without a word, and both registries
keep the id.

**`noZombies_iff_writesSucceed`**: no peer outlives its task all along a
run if and only if no write of a per-peer task fails in it.
-/

namespace Reactor

namespace Mt

open Reactor.System (Any)

/-- Tasks that have ended have said so in `told`, unless their command
channel was closed; and with nothing in flight, no peer is listed whose
last task has ended: of itself, or, while the dispatcher runs, for whatever
reason, if it was the only one. -/
structure NoZombies (told : List (Tagged FromDispatcherMsg)) (s : Sys) : Prop where
  notified : ∀ p c why, (p, c) ∈ s.registry → s.task c = .ended why → why ≠ .commandClosed →
    ⟨.peerDisconnected p, some c⟩ ∈ told
  unlisted : ∀ p c why, s.registry.lookup p = some c → s.task c = .ended why →
    why ≠ .commandClosed ∨ s.dispCtl = .running ∧ (∀ d, (p, d) ∈ s.registry → d = c) →
    s.tmCtl.gone = false → s.tmInbox = [] → s.dispInbox = [] →
    p ∉ s.tendermint.addrBook ∧ p ∉ s.dispatcher.connectedPeers

/-- No write of a per-peer task fails. -/
def WritesSucceed (_ : Sys) : Act → Prop
  | .sent _ ok => ok = true
  | _ => True

instance (s : Sys) (a : Act) : Decidable (WritesSucceed s a) := by
  unfold WritesSucceed
  split <;> infer_instance

/-! ## How tasks end -/

theorem Step.stays_ended {s s' : Sys} {a : Act} (hs : Step s a s') (ho : Owned s) {c : Conn}
    {why : End} (h : s.task c = .ended why) : s'.task c = .ended why := by
  have other : ∀ {d t}, s.task d = t → (∀ why, t ≠ .ended why) → c ≠ d := by
    rintro d t ht hno rfl
    exact hno why (ht.symm.trans h)
  cases hs with
  | accept => simp [other (ho.fresh s.nextConn le_rfl) (by simp), h]
  | @dispatchHandshake d _ _ _ _ hin | @dispatchCompleted d _ _ _ _ hin =>
      have hq := ho.queued d (by simp [hin, DispatcherMsg.encoder?])
      simp [other hq (by simp), h]
  | dispatchPanic | dispatchExit => simp [h]
  | helloSent htask | helloUnsent htask | helloRead htask | helloFailed htask | command htask
  | commandClosed htask | sent htask | unsent htask | remoteGone htask =>
      simp [other htask (by simp), h]
  | _ => exact h

/-- The three ways a registered task ends. -/
theorem Step.ends {s s' : Sys} {a : Act} (hs : Step s a s') (ho : Owned s) {c : Conn}
    {p : PeerId} {why : End} (hrun : s.Running c p) (h : s'.task c = .ended why) :
    (why = .commandClosed ∧ s.dispatcher.connectedPeers.lookup p ≠ some c) ∨
    (why = .remoteGone ∧ s.tells a = [⟨.peerDisconnected p, some c⟩]) ∨
    why = .writeFailed ∧ a = .sent c false := by
  have other : ∀ {d t}, s.task d = t → t.peerId? = none → c ≠ d := by
    rintro d t rfl hnone rfl
    rw [Sys.Running, hnone] at hrun; cases hrun
  have same : s'.task c ≠ s.task c := fun heq => by
    rw [Sys.Running, ← heq, h] at hrun; cases hrun
  cases hs with
  | accept =>
      exact absurd (by simp [other (ho.fresh s.nextConn le_rfl) rfl]) same
  | @dispatchHandshake d _ _ _ _ hin | @dispatchCompleted d _ _ _ _ hin =>
      have hq := ho.queued d (by simp [hin, DispatcherMsg.encoder?])
      exact absurd (by simp [other hq rfl]) same
  | dispatchPanic | dispatchExit =>
      refine absurd ?_ same
      cases htask : s.task c with
      | queued => rw [Sys.Running, htask] at hrun; cases hrun
      | _ => simp [htask]
  | helloSent htask | helloUnsent htask | helloRead htask | helloFailed htask =>
      exact absurd (by simp [other htask rfl]) same
  | @command d q _ _ htask | @sent d q _ htask =>
      by_cases hc : c = d
      · subst hc; simp at h
      · exact absurd (by simp [hc]) same
  | @commandClosed d q htask hcmd hgone =>
      by_cases hc : c = d
      · subst hc
        obtain rfl : q = p := by simpa [Sys.Running, htask] using hrun
        obtain rfl : End.commandClosed = why := by simpa using h
        exact .inl ⟨rfl, hgone⟩
      · exact absurd (by simp [hc]) same
  | @unsent d q m htask =>
      by_cases hc : c = d
      · subst hc
        obtain rfl : End.writeFailed = why := by simpa using h
        exact .inr (.inr ⟨rfl, rfl⟩)
      · exact absurd (by simp [hc]) same
  | @remoteGone d q f htask hf =>
      by_cases hc : c = d
      · subst hc
        obtain rfl : q = p := by simpa [Sys.Running, htask] using hrun
        obtain rfl : End.remoteGone = why := by simpa using h
        refine .inr (.inl ⟨rfl, ?_⟩)
        cases f with
        | msg m => exact absurd rfl (hf m)
        | error | eof => simp [Sys.tells, htask]
      · exact absurd (by simp [hc]) same
  | _ => exact absurd rfl same

/-- The task of a connection registered in a step runs after it, and the
dispatcher holds the connection. -/
theorem Step.starts {s s' : Sys} {a : Act} (hs : Step s a s') {p : PeerId} {c : Conn}
    (h : s.registering a = some (p, c)) :
    s'.task c = .peer p ∧ s'.dispatcher.connectedPeers.lookup p = some c := by
  cases hs with
  | dispatchCompleted _ hin =>
      simp only [Sys.registering, hin, Option.some.injEq, Prod.mk.injEq] at h
      simp [h.1, h.2]
  | dispatchHandshake _ hin | dispatchPanic _ hin | dispatchSend _ hin | dispatchLost _ hin
  | dispatchDisconnected _ hin | dispatchExit _ hin => simp [Sys.registering, hin] at h
  | _ => cases h

/-- A registration that has ended was one before the step that ended it. -/
theorem Step.ended_registered {s s' : Sys} {a : Act} (hs : Step s a s') (ho : Owned s)
    {p : PeerId} {c : Conn} {why : End} (hreg : (p, c) ∈ s'.registry)
    (h : s'.task c = .ended why) :
    (p, c) ∈ s.registry ∧ (s.task c = .ended why ∨ s.Running c p) := by
  have hold : (p, c) ∈ s.registry := by
    rcases hs.registers with ⟨-, hr, -⟩ | ⟨d, q, hnew, hr, -⟩
    · rwa [← hr]
    · rw [hr] at hreg
      rcases List.mem_cons.mp hreg with heq | hreg
      · rw [← heq] at hnew
        rw [(hs.starts hnew).1] at h; cases h
      · exact hreg
  refine ⟨hold, ?_⟩
  rcases ho.settled p c hold with hrun | ⟨why', hwhy⟩
  · exact .inr hrun
  · have hsame := hs.stays_ended ho hwhy
    rw [h] at hsame
    exact .inl (by rw [hwhy, hsame])

theorem mem_of_lookup {l : List (PeerId × Conn)} {p : PeerId} {c : Conn}
    (h : l.lookup p = some c) : (p, c) ∈ l := by
  obtain ⟨l₁, l₂, rfl, -⟩ := List.lookup_eq_some_iff.mp h
  simp

/-- The same of the last registration under an id, and a step that ends it
registers nothing else under that id. -/
theorem Step.ended_last {s s' : Sys} {a : Act} (hs : Step s a s') (ho : Owned s)
    {p : PeerId} {c : Conn} {why : End} (hlast : s'.registry.lookup p = some c)
    (h : s'.task c = .ended why) :
    s.registry.lookup p = some c ∧ (∀ d, s.registering a ≠ some (p, d)) ∧
      (s.task c = .ended why ∨ s.Running c p) := by
  have hmem : (p, c) ∈ s'.registry := mem_of_lookup hlast
  refine and_assoc.mp ⟨?_, (hs.ended_registered ho hmem h).2⟩
  rcases hs.registers with ⟨hnone, hr, -⟩ | ⟨d, q, hnew, hr, -⟩
  · exact ⟨hr ▸ hlast, by simp [hnone]⟩
  · by_cases hq : p = q
    · subst hq
      obtain rfl : d = c := by simpa [hr] using hlast
      rw [(hs.starts hnew).1] at h; cases h
    · refine ⟨?_, fun d' hd' => hq ?_⟩
      · rwa [hr, List.lookup_cons, beq_false_of_ne hq] at hlast
      · rw [hnew] at hd'
        exact (Prod.mk.inj (Option.some.inj hd')).1.symm

theorem serving_run {seedNode : PeerId} {G : Sys → Act → Prop} {as : List Act} {s : Sys}
    (h : (node seedNode).Run G as s) (hctl : s.dispCtl = .running) : Serving s := by
  refine h.invariant (fun s => s.dispCtl = .running → Serving s) (fun _ => ⟨rfl, .inl rfl⟩) ?_ hctl
  intro s a s' ih _ hs hctl'
  have hs := step_sound hs
  exact serving_step (ih (hs.dispRunning hctl')) (hs.dispRunning hctl') hctl' hs

/-! ## The account of a task -/

/-- Registered tasks that have ended: those whose remote end was gone have
said so. -/
theorem ended_run {seedNode : PeerId} {as : List Act} {s : Sys}
    (h : (node seedNode).Run WritesSucceed as s) {p : PeerId} {c : Conn} {why : End}
    (hreg : (p, c) ∈ s.registry) (hended : s.task c = .ended why) :
    why = .commandClosed ∨
      why = .remoteGone ∧ ⟨.peerDisconnected p, some c⟩ ∈ toldIn seedNode as := by
  induction h with
  | nil => cases hreg
  | @snoc as s s' a h hg hstep ih =>
      have hs := step_sound hstep
      have ho := owned_run h
      have htold : toldIn seedNode (as ++ [a]) = toldIn seedNode as ++ s.tells a :=
        h.outputs_snoc a
      rw [htold]
      obtain ⟨hreg, hended' | hrun⟩ := hs.ended_registered ho hreg hended
      · exact (ih hreg hended').imp_right fun ⟨hwhy, hmem⟩ =>
          ⟨hwhy, List.mem_append_left _ hmem⟩
      · rcases hs.ends ho hrun hended with ⟨hwhy, -⟩ | ⟨hwhy, htells⟩ | ⟨-, rfl⟩
        · exact .inl hwhy
        · exact .inr ⟨hwhy, by simp [htells]⟩
        · cases hg

/-! ## Tendermint's side -/

/-- Whether tendermint lists `p` after a message. -/
def listedAfter (p : PeerId) (listed : Bool) (m : Tagged FromDispatcherMsg) : Bool :=
  match m.msg with
  | .peerConnected q => q = p || listed
  | .peerDisconnected q => !(decide (q = p)) && listed
  | .fromPeer _ => listed

/-- Whether tendermint will list `p` once its inbox is empty. -/
def Sys.willList (s : Sys) (p : PeerId) : Bool :=
  s.tmInbox.foldl (listedAfter p) (p ∈ s.tendermint.addrBook)

theorem Tendermint.run_mem_addrBook (t : Tendermint) (m : FromDispatcherMsg) (p : PeerId) :
    p ∈ (t.run m).1.addrBook ↔
      m = .peerConnected p ∨ ¬m = .peerDisconnected p ∧ p ∈ t.addrBook := by
  cases m with
  | fromPeer m => cases m <;> simp [run]
  | peerConnected q => simp [run, Finmap.mem_insert, eq_comm]
  | peerDisconnected q => simp [run, Finmap.mem_erase, eq_comm]

theorem Tendermint.run_listed (t : Tendermint) (m : Tagged FromDispatcherMsg) (p : PeerId) :
    decide (p ∈ (t.run m.msg).1.addrBook) = listedAfter p (p ∈ t.addrBook) m := by
  obtain ⟨m, o⟩ := m
  cases m <;> simp [t.run_mem_addrBook, listedAfter]

theorem Step.tendermint {s s' : Sys} {a : Act} (hs : Step s a s') (ha : a ≠ .tmReceive) :
    s'.tendermint = s.tendermint := by
  cases hs with
  | tmReceive => exact absurd rfl ha
  | _ => rfl

/-- What enters tendermint's inbox decides what it will list. -/
theorem Step.willList {s s' : Sys} {a : Act} (hs : Step s a s') (p : PeerId) :
    s'.willList p = (s.enters a).foldl (listedAfter p) (s.willList p) := by
  rcases hs.tmInbox with ⟨rfl, hnone, -⟩ | ⟨ha, hin⟩
  · cases hs with
    | tmReceive hctl hin =>
        simp only [hnone, Sys.willList, hin, List.foldl_cons, List.foldl_nil,
          Tendermint.run_listed]
  · simp only [Sys.willList, hin, hs.tendermint ha, List.foldl_append]

/-- Tendermint is told that a peer is connected when it is registered. -/
theorem tells_connected {s : Sys} {a : Act} {m : Tagged FromDispatcherMsg} {p : PeerId}
    (hm : m ∈ s.tells a) (hp : m.msg = .peerConnected p) :
    ∃ c, s.registering a = some (p, c) := by
  unfold Sys.tells at hm
  split at hm
  · split at hm
    · next c q o rest hctl hin =>
        obtain rfl := List.mem_singleton.mp hm
        obtain rfl : q = p := by simpa using hp
        exact ⟨c, by simp [Sys.registering, hin]⟩
    · cases hm
  · split at hm
    · obtain rfl := List.mem_singleton.mp hm; cases hp
    · cases hm
    · obtain rfl := List.mem_singleton.mp hm; cases hp
    · cases hm
  · cases hm

theorem foldl_listed_false {p : PeerId} {ms : List (Tagged FromDispatcherMsg)}
    (h : ∀ m ∈ ms, m.msg ≠ .peerConnected p) : ms.foldl (listedAfter p) false = false := by
  induction ms with
  | nil => rfl
  | cons m ms ih =>
      obtain ⟨hm, hms⟩ := List.forall_mem_cons.mp h
      have hfalse : listedAfter p false m = false := by
        obtain ⟨m, o⟩ := m
        cases m with
        | peerConnected q => simpa [listedAfter] using fun heq => hm (by rw [heq])
        | fromPeer _ | peerDisconnected _ => simp [listedAfter]
      rw [List.foldl_cons, hfalse]
      exact ih hms

/-! ## The dispatcher's side -/

/-- A disconnect notice for `p` is on its way. -/
def Sys.Notified (s : Sys) (p : PeerId) : Prop :=
  (∃ m ∈ s.tmInbox, m.msg = .peerDisconnected p) ∨
    ∃ m ∈ s.dispInbox, m.msg = .peerDisconnected p

theorem Step.stays_disconnected {s s' : Sys} {a : Act} (hs : Step s a s')
    (h : s.dispCtl ≠ .running → s.dispatcher.connectedPeers = ∅) :
    s'.dispCtl ≠ .running → s'.dispatcher.connectedPeers = ∅ := by
  intro hctl'
  cases hs with
  | dispatchPanic | dispatchExit => rfl
  | dispatchDisconnected hctl | dispatchCompleted hctl => exact absurd hctl hctl'
  | _ => exact h hctl'

/-- The dispatcher's map gains an id when a connection is registered. -/
theorem Step.connects {s s' : Sys} {a : Act} (hs : Step s a s') {p : PeerId}
    (h : p ∈ s'.dispatcher.connectedPeers) :
    p ∈ s.dispatcher.connectedPeers ∨ ∃ c, s.registering a = some (p, c) := by
  cases hs with
  | dispatchPanic | dispatchExit => exact absurd h Finmap.notMem_empty
  | dispatchDisconnected => exact .inl (Finmap.mem_erase.mp h).2
  | @dispatchCompleted c q o rest hctl hin =>
      rcases Finmap.mem_insert.mp h with rfl | h
      · exact .inr ⟨c, by simp [Sys.registering, hin]⟩
      · exact .inl h
  | _ => exact .inl h

/-- A notice goes from tendermint's inbox to the dispatcher's, and is
gone when the dispatcher has handled it or is gone itself. -/
theorem Step.notified {s s' : Sys} {a : Act} (hs : Step s a s') {p : PeerId}
    (hgone : s.dispCtl ≠ .running → s.dispatcher.connectedPeers = ∅) (h : s.Notified p) :
    p ∉ s'.dispatcher.connectedPeers ∨ s'.Notified p := by
  rcases h with ⟨m, hm, hp⟩ | ⟨m, hm, hp⟩
  · rcases hs.tmInbox with ⟨rfl, -, -⟩ | ⟨-, hin⟩
    · cases hs with
      | @tmReceive m' rest hctl hin =>
          rcases List.mem_cons.mp (hin ▸ hm) with rfl | hm
          · cases hc : s.dispCtl with
            | running =>
                refine .inr (.inr ⟨⟨.peerDisconnected p, m.origin⟩, ?_, rfl⟩)
                simp [DispCtl.deliver, hp, Tendermint.run]
            | exited | panicked =>
                have hempty := hgone (by simp [hc])
                exact .inl fun hconn => Finmap.notMem_empty (hempty ▸ hconn)
          · exact .inr (.inl ⟨m, hm, hp⟩)
    · exact .inr (.inl ⟨m, hin ▸ List.mem_append_left _ hm, hp⟩)
  · have stays : m ∈ s'.dispInbox → p ∉ s'.dispatcher.connectedPeers ∨ s'.Notified p :=
      fun hm => .inr (.inr ⟨m, hm, hp⟩)
    have delivered : ∀ {ms}, m ∈ s.dispCtl.deliver s.dispInbox ms := fun {ms} => by
      cases s.dispCtl <;> simp [DispCtl.deliver, hm]
    have popped : ∀ {m' rest}, s.dispInbox = m' :: rest → m'.msg ≠ .peerDisconnected p →
        m ∈ rest := by
      intro m' rest hin hne
      rcases List.mem_cons.mp (hin ▸ hm) with rfl | hm
      · exact absurd hp hne
      · exact hm
    cases hs with
    | dispatchPanic | dispatchExit => exact .inl Finmap.notMem_empty
    | @dispatchDisconnected q o rest hctl hin =>
        by_cases hq : q = p
        · subst hq
          exact .inl (by simp)
        · exact stays (popped hin (by simpa using hq))
    | dispatchHandshake _ hin | dispatchSend _ hin | dispatchLost _ hin
    | dispatchCompleted _ hin => exact stays (popped hin (by simp))
    | accept | helloRead | tick | tmReceive | tmExit => exact stays delivered
    | _ => exact stays hm

/-! ## Both sides -/

/-- Where the last task under an id has told of its end, neither registry
will keep the id. -/
structure Forgets (s : Sys) : Prop where
  gone : s.dispCtl ≠ .running → s.dispatcher.connectedPeers = ∅
  tendermint : ∀ p c, s.registry.lookup p = some c → s.task c = .ended .remoteGone →
    s.tmCtl.gone = false → s.willList p = false
  dispatcher : ∀ p c, s.registry.lookup p = some c → s.task c = .ended .remoteGone →
    p ∉ s.dispatcher.connectedPeers ∨ s.Notified p

theorem forgets_step {s s' : Sys} {a : Act} (h : Forgets s) (ho : Owned s)
    (hserv : s.dispCtl = .running → Serving s) (hs : Step s a s') : Forgets s' where
  gone := hs.stays_disconnected h.gone
  tendermint p c hlast hended hgone' := by
    obtain ⟨hlast₀, hother, hold | hrun⟩ := hs.ended_last ho hlast hended
    all_goals
      have hgone : s.tmCtl.gone = false := by
        by_contra hgone
        rw [hs.stays_gone (Bool.not_eq_false _ ▸ hgone)] at hgone'; cases hgone'
      rw [hs.willList p, Sys.enters_eq hgone]
    · rw [h.tendermint p c hlast₀ hold hgone]
      refine foldl_listed_false fun m hm hp => ?_
      obtain ⟨d, hd⟩ := tells_connected hm hp
      exact hother d hd
    · rcases hs.ends ho hrun hended with ⟨hwhy, -⟩ | ⟨-, htells⟩ | ⟨hwhy, -⟩
      · cases hwhy
      · simp [htells, listedAfter]
      · cases hwhy
  dispatcher p c hlast hended := by
    obtain ⟨hlast₀, hother, hold | hrun⟩ := hs.ended_last ho hlast hended
    · rcases h.dispatcher p c hlast₀ hold with hno | hnote
      · refine .inl fun hconn => ?_
        rcases hs.connects hconn with hconn | ⟨d, hd⟩
        · exact hno hconn
        · exact hother d hd
      · exact hs.notified h.gone hnote
    · rcases hs.ends ho hrun hended with ⟨hwhy, -⟩ | ⟨-, htells⟩ | ⟨hwhy, -⟩
      · cases hwhy
      · by_cases hctl : s.dispCtl = .running
        · refine .inr (.inl ⟨⟨.peerDisconnected p, some c⟩, ?_, rfl⟩)
          rcases hs.tmInbox with ⟨rfl, -, -⟩ | ⟨-, hin⟩
          · cases htells
          · have hgone : s.tmCtl.gone = false := by
              rcases (hserv hctl).tendermint with htm | ⟨htm, -⟩ <;> simp [htm, TmCtl.gone]
            simp [hin, Sys.enters_eq hgone, htells]
        · refine .inl ?_
          rw [hs.stays_disconnected h.gone fun hctl' => hctl (hs.dispRunning hctl')]
          exact Finmap.notMem_empty
      · cases hwhy

theorem forgets_run {seedNode : PeerId} {G : Sys → Act → Prop} {as : List Act} {s : Sys}
    (h : (node seedNode).Run G as s) : Forgets s := by
  refine (h.strengthen (P := fun s => Owned s ∧ (s.dispCtl = .running → Serving s))
    fun _ _ h => ⟨owned_run h, serving_run h⟩).invariant Forgets ⟨fun _ => rfl, ?_, ?_⟩ ?_
  · intro p c hlast; cases hlast
  · intro p c hlast; cases hlast
  · exact fun _ _ _ hi hg hs => forgets_step hi hg.2.1 hg.2.2 (step_sound hs)

/-! ## The only task under an id -/

/-- While the dispatcher runs, it does not close the command channel of the
only task under an id. -/
structure Sole (s : Sys) : Prop where
  notice : ∀ p, s.Notified p → ∃ d, (p, d) ∈ s.registry ∧ s.task d = .ended .remoteGone
  entry : s.dispCtl = .running → ∀ p c, s.Running c p →
    s.dispatcher.connectedPeers.lookup p = some c ∨ ∃ d, d ≠ c ∧ (p, d) ∈ s.registry
  closed : s.dispCtl = .running → ∀ p c, (p, c) ∈ s.registry →
    s.task c = .ended .commandClosed → ∃ d, d ≠ c ∧ (p, d) ∈ s.registry

theorem Step.registry_subset {s s' : Sys} {a : Act} (hs : Step s a s') :
    s.registry ⊆ s'.registry := by
  rcases hs.registers with ⟨-, hr, -⟩ | ⟨c, p, -, hr, -⟩
  · rw [hr]; exact List.Subset.refl _
  · rw [hr]; exact List.subset_cons_self ..

/-- A notice is sent by a task that ends with it. -/
theorem Step.notifies {s s' : Sys} {a : Act} (hs : Step s a s') (ho : Owned s) {p : PeerId}
    (h : s'.Notified p) :
    s.Notified p ∨ ∃ d, (p, d) ∈ s.registry ∧ s'.task d = .ended .remoteGone := by
  rcases h with ⟨m, hm, hp⟩ | ⟨m, hm, hp⟩
  · have old : m ∈ s.tmInbox → s.Notified p := fun hm => .inl ⟨m, hm, hp⟩
    cases hs with
    | dispatchCompleted | request =>
        rcases mem_tmDeliver hm with hm | hm
        · exact .inl (old hm)
        · obtain rfl := List.mem_singleton.mp hm; cases hp
    | tmReceive hctl hin => exact .inl (old (hin ▸ List.mem_cons_of_mem _ hm))
    | @remoteGone c q f htask =>
        rcases mem_tmDeliver hm with hm | hm
        · exact .inl (old hm)
        · obtain rfl := List.mem_singleton.mp hm
          obtain rfl : q = p := by simpa using hp
          exact .inr ⟨c, ho.running q c (by simp [Sys.Running, htask]), by simp⟩
    | _ => exact .inl (old hm)
  · rcases hs.forwards hm hp with hm | hm
    · exact .inl (.inr ⟨m, hm, hp⟩)
    · exact .inl (.inl ⟨_, hm, rfl⟩)

theorem sole_step {s s' : Sys} {a : Act} (h : Sole s) (ho : Owned s) (hs : Step s a s') :
    Sole s' := by
  have more : ∀ {p c}, (∃ d, d ≠ c ∧ (p, d) ∈ s.registry) → ∃ d, d ≠ c ∧ (p, d) ∈ s'.registry :=
    fun ⟨d, hd, hmem⟩ => ⟨d, hd, hs.registry_subset hmem⟩
  refine ⟨fun p hp => ?_, fun hctl' p c hrun => ?_, fun hctl' p c hreg hended => ?_⟩
  · rcases hs.notifies ho hp with hp | ⟨d, hmem, hended⟩
    · obtain ⟨d, hmem, hended⟩ := h.notice p hp
      exact ⟨d, hs.registry_subset hmem, hs.stays_ended ho hended⟩
    · exact ⟨d, hs.registry_subset hmem, hended⟩
  · have hctl := hs.dispRunning hctl'
    have hold : s.Running c p ∨ s.registering a = some (p, c) := by
      rcases hs.registers with ⟨-, -, hold⟩ | ⟨d, q, hnew, -, hold⟩
      · exact .inl (hold c p hrun)
      · exact (hold c p hrun).imp_right fun ⟨hc, hp⟩ => by rw [hnew, hc, hp]
    rcases hold with hrun₀ | hnew
    · rcases h.entry hctl p c hrun₀ with hentry | hother
      · cases hs with
        | dispatchPanic | dispatchExit => cases hctl'
        | @dispatchCompleted d q o rest _ hin =>
            by_cases hq : p = q
            · subst hq
              by_cases hd : d = c
              · exact .inl (by simp [hd])
              · exact .inr ⟨d, hd, List.mem_cons_self⟩
            · exact .inl (by simpa [Finmap.lookup_insert_of_ne _ hq] using hentry)
        | @dispatchDisconnected q o rest _ hin =>
            by_cases hq : p = q
            · subst hq
              obtain ⟨d, hmem, hended⟩ := h.notice p (.inr ⟨_, hin ▸ List.mem_cons_self, rfl⟩)
              refine .inr ⟨d, ?_, hmem⟩
              rintro rfl
              rw [Sys.Running, hended] at hrun; cases hrun
            · exact .inl (by simpa [Finmap.lookup_erase_ne hq] using hentry)
        | _ => exact .inl hentry
      · exact .inr (more hother)
    · exact .inl (hs.starts hnew).2
  · have hctl := hs.dispRunning hctl'
    obtain ⟨hreg, hended' | hrun⟩ := hs.ended_registered ho hreg hended
    · exact more (h.closed hctl p c hreg hended')
    · rcases hs.ends ho hrun hended with ⟨-, hno⟩ | ⟨hwhy, -⟩ | ⟨hwhy, -⟩
      · rcases h.entry hctl p c hrun with hentry | hother
        · exact absurd hentry hno
        · exact more hother
      · cases hwhy
      · cases hwhy

theorem sole_run {seedNode : PeerId} {G : Sys → Act → Prop} {as : List Act} {s : Sys}
    (h : (node seedNode).Run G as s) : Sole s := by
  refine (h.strengthen fun _ _ h => owned_run h).invariant Sole ⟨?_, ?_, ?_⟩
    fun _ _ _ hi hg hs => sole_step hi hg.2 (step_sound hs)
  · rintro p (⟨m, hm, -⟩ | ⟨m, hm, -⟩) <;> cases hm
  · intro _ p c hrun; cases hrun
  · intro _ p c hreg; cases hreg

/-! ## No zombies -/

/-- **No zombies.** In all states of a run no peer outlives its task
without notice if and only if no write of a per-peer task fails in it. -/
theorem noZombies_iff_writesSucceed {seedNode : PeerId} {as : List Act} {s : Sys}
    (h : (node seedNode).Run Any as s) :
    (node seedNode).Run WritesSucceed as s ↔
      ∀ bs t, bs <+: as → (node seedNode).Run Any bs t → NoZombies (toldIn seedNode bs) t := by
  refine h.guarded_iff (P := fun bs t => NoZombies (toldIn seedNode bs) t)
    (fun bs t hrun => ⟨fun p c why hreg hended hwhy => ?_, ?_⟩) ?_
  · rcases ended_run hrun hreg hended with hclosed | ⟨-, hmem⟩
    · exact absurd hclosed hwhy
    · exact hmem
  · intro p c why hlast hended hcause hgone htm hdisp
    have hreg := mem_of_lookup hlast
    obtain rfl : why = .remoteGone := by
      rcases ended_run hrun hreg hended with rfl | ⟨hwhy, -⟩
      · rcases hcause with hne | ⟨hctl, honly⟩
        · exact absurd rfl hne
        · obtain ⟨d, hd, hmem⟩ := (sole_run hrun).closed hctl p c hreg hended
          exact absurd (honly d hmem) hd
      · exact hwhy
    have hforgets := forgets_run hrun
    constructor
    · have hlist := hforgets.tendermint p c hlast hended hgone
      simpa [Sys.willList, htm] using hlist
    · rcases hforgets.dispatcher p c hlast hended with hno | ⟨m, hm, -⟩ | ⟨m, hm, -⟩
      · exact hno
      · rw [htm] at hm; cases hm
      · rw [hdisp] at hm; cases hm
  · intro bs t a t' hrun hg hs hno
    unfold WritesSucceed at hg
    split at hg
    case h_2 => exact absurd trivial hg
    next c ok =>
    obtain rfl : ok = false := by simpa using hg
    have htold : toldIn seedNode (bs ++ [.sent c false]) = toldIn seedNode bs ++ [] :=
      hrun.outputs_snoc _
    have hs := step_sound (show step t (.sent c false) = some t' from hs)
    cases hs with
    | @unsent _ p m htask =>
        -- the task that ends has told of its peer and of requests, nothing else
        have hmem : ⟨.peerDisconnected p, some c⟩ ∈ toldIn seedNode bs := by
          have hreg := (owned_run hrun).running p c (by simp [Sys.Running, htask])
          have hmem := hno.notified p c .writeFailed hreg (by simp) (by simp)
          rwa [htold, List.append_nil] at hmem
        have haccount := told_run hrun c
        simp only [Sys.phase, htask] at haccount
        obtain ⟨after, -, heq⟩ := haccount
        have hfrom : .peerDisconnected p ∈ fromConn c (toldIn seedNode bs) :=
          List.mem_map.mpr ⟨_, List.mem_filter.mpr ⟨hmem, by simp⟩, rfl⟩
        simp [heq] at hfrom

/-- A peer that hangs up is forgotten. -/
theorem noZombies_iff_writesSucceed_leaves :
    ∃ as s, (node ⟨"seed"⟩).Run Any as s ∧ s.task 0 = .ended .remoteGone ∧
      NoZombies (toldIn ⟨"seed"⟩ as) s := by
  have h : ((node ⟨"seed"⟩).exec WritesSucceed (init ⟨"seed"⟩)
      (join 0 ⟨"a"⟩ ++ [.tmReceive] ++ leave 0)).map (·.task 0) =
      some (.ended .remoteGone) := by decide
  obtain ⟨s, hs, htask⟩ := Option.map_eq_some_iff.mp h
  have hguarded := System.run_iff.mpr hs
  have hrun := hguarded.weaken (H := Any) fun _ _ _ => trivial
  exact ⟨_, s, hrun, htask,
    (noZombies_iff_writesSucceed hrun).mp hguarded _ _ (List.prefix_refl _) hrun⟩

/-- The write of the reply to a request fails. -/
def writeFails : List Act :=
  join 0 ⟨"a"⟩ ++ [.tmReceive, .frame 0 (.msg (.addressBookRequest ⟨"a"⟩)), .tmReceive,
    .dispatch, .command 0, .sent 0 false]

/-- With nothing in flight, both registries keep a peer whose only task
has ended without notice. -/
theorem zombie_after_failed_write :
    ¬∀ (seedNode : PeerId) (as : List Act) (s : Sys),
      (node seedNode).Run Any as s → NoZombies (toldIn seedNode as) s := by
  intro h
  have hrun : ((node ⟨"seed"⟩).exec Any (init ⟨"seed"⟩) writeFails).map
      (fun s => (s.registry, s.task 0, s.tmCtl.gone, s.tmInbox.isEmpty && s.dispInbox.isEmpty,
        s.dispatcher.connectedPeers.lookup ⟨"a"⟩)) =
      some ([(⟨"a"⟩, 0)], .ended .writeFailed, false, true, some 0) := by decide
  obtain ⟨s, hs, hobs⟩ := Option.map_eq_some_iff.mp hrun
  simp only [Prod.mk.injEq, Bool.and_eq_true, List.isEmpty_iff] at hobs
  obtain ⟨hreg, htask, htm, ⟨htmIn, hdispIn⟩, hentry⟩ := hobs
  have hno := h _ _ s (System.run_iff.mpr hs)
  have hunlisted := hno.unlisted ⟨"a"⟩ 0 .writeFailed (by rw [hreg]; rfl) htask
    (.inl (by simp)) htm htmIn hdispIn
  exact hunlisted.2 (Finmap.lookup_isSome.mp (by rw [hentry]; rfl))

end Mt

end Reactor
