import Reactor.MtOwner

/-!
# Disconnect notices and reconnecting peers

A disconnect is told by id alone. The task of a connection tells
tendermint, tendermint takes the id out of its address book and tells the
dispatcher, and the dispatcher drops whatever sender it holds under that
id: a connection registered under the same id in the meantime loses its
sender, and its id is not put back.

`stale_disconnect_removes_newer` is such a run. `stale_disconnect_harmless`
is the other side: as long as an id is only registered again when no task
runs under it and no disconnect notice for it is queued, every notice
that arrives is about the connection registered last.
-/

namespace Reactor

namespace Mt

/-- `c'` was registered under `p` after `c` was. -/
def Sys.Newer (s : Sys) (p : PeerId) (c' c : Conn) : Prop :=
  [(p, c'), (p, c)].Sublist s.registry

/-- Handling the disconnect notice of a connection, wherever it is, leaves
alone what belongs to a newer connection under the same id: its sender in
`connectedPeers`, and while its task runs, the id in the address book. -/
structure StaleSafe (s : Sys) : Prop where
  dispatcher : ∀ p c rest s', s.dispInbox = ⟨.peerDisconnected p, some c⟩ :: rest →
    step s .dispatch = some s' → ∀ c', s.Newer p c' c →
    s.dispatcher.connectedPeers.lookup p = some c' →
    s'.dispatcher.connectedPeers.lookup p = some c'
  tendermint : ∀ p c rest s', s.tmInbox = ⟨.peerDisconnected p, some c⟩ :: rest →
    step s .tmReceive = some s' → ∀ c', s.Newer p c' c → s'.Running c' p →
    p ∈ s'.tendermint.addrBook

/-- Nothing is left of earlier connections under `p` that could still
disconnect: no task registered under `p` runs, no notice for `p` is
queued. -/
def Sys.Retired (s : Sys) (p : PeerId) : Prop :=
  (∀ e ∈ s.registry, e.1 = p → ¬s.Running e.2 p) ∧
    (∀ m ∈ s.tmInbox, m.msg ≠ .peerDisconnected p) ∧
    ∀ m ∈ s.dispInbox, m.msg ≠ .peerDisconnected p

instance (s : Sys) (p : PeerId) : Decidable (s.Retired p) :=
  inferInstanceAs (Decidable (_ ∧ _ ∧ _))

/-- The id and the connection this step registers. -/
def Sys.registering (s : Sys) : Act → Option (PeerId × Conn)
  | .dispatch =>
      match s.dispInbox with
      | ⟨.handshakeCompleted c p, _⟩ :: _ => some (p, c)
      | _ => none
  | _ => none

/-- If this step registers a connection, its id is retired. -/
def RegistersRetired (s : Sys) (a : Act) : Prop :=
  ∀ e ∈ s.registering a, s.Retired e.1

instance (s : Sys) (a : Act) : Decidable (RegistersRetired s a) :=
  inferInstanceAs (Decidable (∀ e ∈ _, _))

/-! ## What a step does to registrations and notices -/

/-- A step registers nothing and starts no per-peer task, or it is the
dispatcher completing a handshake. -/
theorem Step.registers {s s' : Sys} {a : Act} (hs : Step s a s') :
    (s.registering a = none ∧ s'.registry = s.registry ∧
      ∀ c p, s'.Running c p → s.Running c p) ∨
    ∃ c p, s.registering a = some (p, c) ∧ s'.registry = (p, c) :: s.registry ∧
      ∀ d q, s'.Running d q → s.Running d q ∨ d = c ∧ q = p := by
  cases hs with
  | dispatchCompleted hctl hin =>
      refine .inr ⟨_, _, by simp [Sys.registering, hin], rfl, fun d q hd => ?_⟩
      simp only [Sys.Running, Function.update_apply] at hd ⊢
      split at hd
      · exact .inr ⟨‹_›, by simpa using hd.symm⟩
      · exact .inl hd
  | dispatchPanic _ hin | dispatchExit _ hin =>
      refine .inl ⟨by simp [Sys.registering, hin], rfl, fun c p hc => ?_⟩
      simp only [Sys.Running, Sys.endDispatcher] at hc ⊢
      split at hc <;> simp_all
  | accept | helloRead htask =>
      refine .inl ⟨rfl, rfl, fun c p hc => ?_⟩
      simp only [Sys.Running, Sys.handOver, Function.update_apply] at hc ⊢
      split at hc
      · cases hctl : s.dispCtl <;> simp [hctl] at hc
      · exact hc
  | dispatchHandshake _ hin =>
      refine .inl ⟨by simp [Sys.registering, hin], rfl, fun c p hc => ?_⟩
      simp only [Sys.Running, Sys.setTask, Function.update_apply] at hc ⊢
      split at hc <;> simp_all
  | dispatchSend _ hin | dispatchLost _ hin | dispatchDisconnected _ hin =>
      exact .inl ⟨by simp [Sys.registering, hin], rfl, fun _ _ hc => hc⟩
  | helloSent htask | helloUnsent htask | helloFailed htask
  | command htask | commandClosed htask | sent htask | unsent htask
  | remoteGone htask =>
      refine .inl ⟨rfl, rfl, fun c p hc => ?_⟩
      simp only [Sys.Running, Sys.setTask, Sys.endTask, Function.update_apply] at hc ⊢
      split at hc <;> simp_all
  | _ => exact .inl ⟨rfl, rfl, fun _ _ hc => hc⟩

theorem mem_dispDeliver {α : Type} {ctl : DispCtl} {l ms : List α} {m : α}
    (h : m ∈ ctl.deliver l ms) : m ∈ l ∨ m ∈ ms := by
  cases ctl <;> simp [DispCtl.deliver] at h <;> tauto

theorem mem_tmDeliver {α : Type} {ctl : TmCtl} {l ms : List α} {m : α}
    (h : m ∈ ctl.deliver l ms) : m ∈ l ∨ m ∈ ms := by
  cases ctl <;> simp [TmCtl.deliver] at h <;> tauto

/-- A disconnect notice reaches tendermint from the running task of a
connection under that id. -/
theorem Step.reports {s s' : Sys} {a : Act} (hs : Step s a s') {p : PeerId}
    {m : Tagged FromDispatcherMsg} (hm : m ∈ s'.tmInbox)
    (hp : m.msg = .peerDisconnected p) :
    m ∈ s.tmInbox ∨ ∃ c, m.origin = some c ∧ s.Running c p := by
  cases hs with
  | dispatchCompleted hctl hin =>
      rcases mem_tmDeliver hm with hm | hm
      · exact .inl hm
      · simp at hm; subst hm; cases hp
  | tmReceive hctl hin => exact .inl (hin ▸ List.mem_cons_of_mem _ hm)
  | request htask =>
      rcases mem_tmDeliver hm with hm | hm
      · exact .inl hm
      · simp at hm; subst hm; cases hp
  | @remoteGone c _ _ htask =>
      rcases mem_tmDeliver hm with hm | hm
      · exact .inl hm
      · simp at hm; subst hm
        simp only [FromDispatcherMsg.peerDisconnected.injEq] at hp
        exact .inr ⟨c, rfl, by simp [Sys.Running, htask, hp]⟩
  | _ => exact .inl hm

/-- What a step puts into the dispatcher's inbox. The acceptor offers a
connection and a handshake task hands its own over; all else is from
tendermint, which passes on the disconnect notice it takes. -/
inductive Sys.Sends (s : Sys) : Act → Tagged DispatcherMsg → Prop
  | offers : s.Sends .accept
      ⟨.peerHandshake s.nextConn s.tendermint.seedNode, some s.nextConn⟩
  | completes {c p} : s.Sends (.helloRead c (.msg (.hello p))) ⟨.handshakeCompleted c p, some c⟩
  | asks {it p m o} : s.Sends (.tick it) ⟨.toPeer p m, o⟩
  | answers {p m o} : s.Sends .tmReceive ⟨.toPeer p m, o⟩
  | passesOn {p o} (hin : ⟨.peerDisconnected p, o⟩ ∈ s.tmInbox) :
      s.Sends .tmReceive ⟨.peerDisconnected p, o⟩
  | exits : s.Sends .tmExit ⟨.exit, none⟩

/-- A message in the dispatcher's inbox was there before, or is sent in the
step. -/
theorem Step.mem_dispInbox {s s' : Sys} {a : Act} (hs : Step s a s')
    {m : Tagged DispatcherMsg} (hm : m ∈ s'.dispInbox) : m ∈ s.dispInbox ∨ s.Sends a m := by
  cases hs with
  | accept =>
      refine (mem_dispDeliver hm).imp_right fun hm => ?_
      obtain rfl := List.mem_singleton.mp hm
      exact .offers
  | helloRead =>
      refine (mem_dispDeliver hm).imp_right fun hm => ?_
      obtain rfl := List.mem_singleton.mp hm
      exact .completes
  | dispatchHandshake _ hin | dispatchSend _ hin | dispatchLost _ hin
  | dispatchDisconnected _ hin | dispatchCompleted _ hin =>
      exact .inl (hin ▸ List.mem_cons_of_mem _ hm)
  | dispatchPanic | dispatchExit => simp at hm
  | tick =>
      refine (mem_dispDeliver hm).imp_right fun hm => ?_
      simp only [Tendermint.tick, List.map_map, List.mem_map] at hm
      obtain ⟨p, -, rfl⟩ := hm
      exact .asks
  | @tmReceive taken rest _ hin =>
      refine (mem_dispDeliver hm).imp_right fun hm => ?_
      obtain ⟨x, hx, rfl⟩ := List.mem_map.mp hm
      obtain ⟨taken, o⟩ := taken
      cases taken with
      | fromPeer m =>
          cases m with
          | addressBookRequest q | hello q =>
              obtain rfl := List.mem_singleton.mp hx
              exact .answers
          | addressBookResponse _ => simp [Tendermint.run] at hx
      | peerConnected q => simp [Tendermint.run] at hx
      | peerDisconnected q =>
          obtain rfl := List.mem_singleton.mp hx
          exact .passesOn (hin ▸ List.mem_cons_self)
  | tmExit =>
      refine (mem_dispDeliver hm).imp_right fun hm => ?_
      obtain rfl := List.mem_singleton.mp hm
      exact .exits
  | _ => exact .inl hm

/-- A disconnect notice reaches the dispatcher from tendermint. -/
theorem Step.forwards {s s' : Sys} {a : Act} (hs : Step s a s') {p : PeerId}
    {m : Tagged DispatcherMsg} (hm : m ∈ s'.dispInbox)
    (hp : m.msg = .peerDisconnected p) :
    m ∈ s.dispInbox ∨ ⟨.peerDisconnected p, m.origin⟩ ∈ s.tmInbox := by
  refine (hs.mem_dispInbox hm).imp_right fun hsends => ?_
  cases hsends with
  | passesOn hin => exact DispatcherMsg.peerDisconnected.inj hp ▸ hin
  | _ => cases hp

/-! ## The invariant -/

/-- Whoever can still speak for an id, a running task or a queued notice,
is the connection registered last under it. -/
structure Current (s : Sys) : Prop where
  tasks : ∀ c p, s.Running c p → s.registry.lookup p = some c
  toTendermint : ∀ m ∈ s.tmInbox, ∀ p, m.msg = .peerDisconnected p →
    ∃ c, m.origin = some c ∧ s.registry.lookup p = some c
  toDispatcher : ∀ m ∈ s.dispInbox, ∀ p, m.msg = .peerDisconnected p →
    ∃ c, m.origin = some c ∧ s.registry.lookup p = some c

theorem current_step {s s' : Sys} {a : Act} (h : Current s) (ho : Owned s)
    (hg : RegistersRetired s a) (hs : Step s a s') : Current s' := by
  -- registering a connection under `p` moves the last registration of `p` only
  have hlookup : ∀ p c, s.registry.lookup p = some c →
      ((∃ d, s.Running d p) ∨ (∃ m ∈ s.tmInbox, m.msg = .peerDisconnected p) ∨
        ∃ m ∈ s.dispInbox, m.msg = .peerDisconnected p) →
      s'.registry.lookup p = some c := by
    intro p c hc hold
    rcases hs.registers with ⟨-, hr, -⟩ | ⟨d, q, hreg, hr, -⟩
    · rwa [hr]
    · obtain ⟨htasks, htm, hdisp⟩ := hg (q, d) hreg
      have hpq : p ≠ q := by
        rintro rfl
        rcases hold with ⟨e, he⟩ | ⟨m, hm, hmp⟩ | ⟨m, hm, hmp⟩
        · exact htasks (p, e) (ho.running p e he) rfl he
        · exact htm m hm hmp
        · exact hdisp m hm hmp
      rw [hr, List.lookup_cons, beq_false_of_ne hpq]
      exact hc
  have htm : ∀ m ∈ s.tmInbox, ∀ p, m.msg = .peerDisconnected p →
      ∃ c, m.origin = some c ∧ s'.registry.lookup p = some c := by
    intro m hm p hp
    obtain ⟨c, ho, hc⟩ := h.toTendermint m hm p hp
    exact ⟨c, ho, hlookup p c hc (.inr (.inl ⟨m, hm, hp⟩))⟩
  refine ⟨?_, ?_, ?_⟩
  · intro c p hc
    rcases hs.registers with ⟨-, -, hrun⟩ | ⟨d, q, -, hr, hrun⟩
    · exact hlookup p c (h.tasks c p (hrun c p hc)) (.inl ⟨c, hrun c p hc⟩)
    · rcases hrun c p hc with hc | ⟨rfl, rfl⟩
      · exact hlookup p c (h.tasks c p hc) (.inl ⟨c, hc⟩)
      · simp [hr]
  · intro m hm p hp
    rcases hs.reports hm hp with hm | ⟨c, ho, hc⟩
    · exact htm m hm p hp
    · exact ⟨c, ho, hlookup p c (h.tasks c p hc) (.inl ⟨c, hc⟩)⟩
  · intro m hm p hp
    rcases hs.forwards hm hp with hm | hm
    · obtain ⟨c, ho, hc⟩ := h.toDispatcher m hm p hp
      exact ⟨c, ho, hlookup p c hc (.inr (.inr ⟨m, hm, hp⟩))⟩
    · exact htm _ hm p rfl

theorem current_run {seedNode : PeerId} {as : List Act} {s : Sys}
    (h : (node seedNode).Run RegistersRetired as s) : Current s := by
  refine (h.strengthen fun _ _ h => owned_run h).invariant Current ?_
    fun _ _ _ hi hg hs => current_step hi hg.2 hg.1 (step_sound hs)
  constructor <;> simp [node, init, Sys.Running]

/-! ## What is registered stays reachable -/

/-- With every value once in the list, what `lookup` finds under a key has
nothing under that key before it. -/
theorem not_sublist_of_lookup {α β : Type} [DecidableEq α] {p : α} {c c' : β}
    {l : List (α × β)} (hnd : (l.map Prod.snd).Nodup) (h : l.lookup p = some c) :
    ¬[(p, c'), (p, c)].Sublist l := by
  induction l with
  | nil => cases h
  | cons e l ih =>
      obtain ⟨q, d⟩ := e
      rw [List.map_cons, List.nodup_cons] at hnd
      intro hsub
      by_cases hpq : p = q
      · subst hpq
        obtain rfl : d = c := by simpa using h
        refine hnd.1 (List.mem_map.mpr ⟨(p, d), ?_, rfl⟩)
        cases hsub with
        | cons _ hsub => exact hsub.subset (by simp)
        | cons_cons _ hsub => exact hsub.subset (by simp)
      · rw [List.lookup_cons, beq_false_of_ne hpq] at h
        cases hsub with
        | cons _ hsub => exact ih hnd.2 h hsub
        | cons_cons => exact hpq rfl

/-- Nothing is newer than the connection registered last. -/
theorem Owned.not_newer {s : Sys} (h : Owned s) {p : PeerId} {c c' : Conn}
    (hlast : s.registry.lookup p = some c) : ¬s.Newer p c' c :=
  not_sublist_of_lookup h.single hlast

/-- **Retired registrations.** In every run that registers a connection
only under a retired id, no disconnect notice touches a newer connection. -/
theorem stale_disconnect_harmless {seedNode : PeerId} {as : List Act} {s : Sys}
    (h : (node seedNode).Run RegistersRetired as s) : StaleSafe s := by
  have howned := owned_run h
  have hcurrent := current_run h
  constructor
  · intro p c rest s' hin _ c' hnew
    obtain ⟨d, hd, hlast⟩ := hcurrent.toDispatcher _ (hin ▸ List.mem_cons_self) p rfl
    obtain rfl := Option.some.inj hd
    exact absurd hnew (howned.not_newer hlast)
  · intro p c rest s' hin _ c' hnew
    obtain ⟨d, hd, hlast⟩ := hcurrent.toTendermint _ (hin ▸ List.mem_cons_self) p rfl
    obtain rfl := Option.some.inj hd
    exact absurd hnew (howned.not_newer hlast)

/-- Connection `c` completes its handshake as `p` and is registered. -/
def join (c : Conn) (p : PeerId) : List Act :=
  [.accept, .dispatch, .helloSent c true, .helloRead c (.msg (.hello p)), .dispatch]

/-- Connection `c` drops, and both loops handle the notice. -/
def leave (c : Conn) : List Act := [.frame c .eof, .tmReceive, .dispatch]

/-- A peer that leaves, is forgotten by both loops and comes back. -/
theorem stale_disconnect_harmless_rejoin :
    ∃ s, s.registry = [(⟨"a"⟩, 1), (⟨"a"⟩, 0)] ∧ s.Running 1 ⟨"a"⟩ ∧ StaleSafe s := by
  have hrun : ((node ⟨"seed"⟩).exec RegistersRetired (init ⟨"seed"⟩)
      (join 0 ⟨"a"⟩ ++ [.tmReceive] ++ leave 0 ++ join 1 ⟨"a"⟩)).map
        (fun s => (s.registry, decide (s.Running 1 ⟨"a"⟩))) =
      some ([(⟨"a"⟩, 1), (⟨"a"⟩, 0)], true) := by decide
  obtain ⟨s, hs, hobs⟩ := Option.map_eq_some_iff.mp hrun
  simp only [Prod.mk.injEq, decide_eq_true_eq] at hobs
  exact ⟨s, hobs.1, hobs.2, stale_disconnect_harmless (System.run_iff.mpr hs)⟩

/-- Connection 0 registers as "a" and drops; its notice reaches the
dispatcher's inbox behind the registration of connection 1 as "a". -/
def overtaken : List Act :=
  join 0 ⟨"a"⟩ ++ [.tmReceive] ++ (join 1 ⟨"a"⟩).dropLast ++
    [.frame 0 .eof, .tmReceive, .dispatch]

/-- After that the dispatcher holds connection 1 under "a", the notice of
connection 0 is next in its inbox, and handling it removes connection 1. -/
theorem overtaken_state : ((node ⟨"seed"⟩).exec System.Any (init ⟨"seed"⟩) overtaken).map
    (fun s => (s.dispInbox, s.registry, s.dispatcher.connectedPeers.lookup ⟨"a"⟩,
      (step s .dispatch).map (·.dispatcher.connectedPeers.lookup ⟨"a"⟩))) =
    some ([⟨.peerDisconnected ⟨"a"⟩, some 0⟩], [(⟨"a"⟩, 1), (⟨"a"⟩, 0)], some 1,
      some none) := by
  decide

theorem stale_disconnect_removes_newer :
    ¬∀ (seedNode : PeerId) (as : List Act) (s : Sys),
      (node seedNode).Run System.Any as s → StaleSafe s := by
  intro h
  obtain ⟨s, hs, hobs⟩ := Option.map_eq_some_iff.mp overtaken_state
  simp only [Prod.mk.injEq] at hobs
  obtain ⟨hin, hreg, hlookup, hstep⟩ := hobs
  obtain ⟨s', hs', hlookup'⟩ := Option.map_eq_some_iff.mp hstep
  have hsafe := h ⟨"seed"⟩ overtaken s (System.run_iff.mpr hs)
  have hnew : s.Newer ⟨"a"⟩ 1 0 := by rw [Sys.Newer, hreg]
  have hkept := hsafe.dispatcher _ _ _ _ hin hs' 1 hnew hlookup
  rw [hlookup'] at hkept
  cases hkept

end Mt

end Reactor
