import Reactor.MtSystem

/-!
# Every connection has one owner

A framed connection is moved: from the acceptor into a message, from the
message into the handshake task, back into a message, and into the
per-peer task. `Owned` is what that buys: a connection inside a queued
message belongs to no task and sits in the queue once, and a connection
is registered at most once, by the task that then runs under the
registered id until it ends.
-/

namespace Reactor

namespace Mt

/-- The connection a message of the dispatcher's inbox carries. -/
def DispatcherMsg.encoder? : DispatcherMsg → Option Conn
  | .peerHandshake c _ => some c
  | .handshakeCompleted c _ => some c
  | _ => none

/-- The connections queued in a dispatcher inbox. -/
def carried (inbox : List (Tagged DispatcherMsg)) : List Conn :=
  inbox.filterMap fun m => m.msg.encoder?

@[simp] theorem carried_nil : carried [] = [] := rfl

@[simp] theorem carried_cons (m : Tagged DispatcherMsg) (l) :
    carried (m :: l) = m.msg.encoder?.toList ++ carried l := by
  cases hm : m.msg.encoder? <;> simp [carried, hm]

@[simp] theorem carried_append (l l' : List (Tagged DispatcherMsg)) :
    carried (l ++ l') = carried l ++ carried l' :=
  List.filterMap_append

/-- A send that carries no connection leaves the queued ones alone. -/
theorem carried_deliver {ctl : DispCtl} {l ms : List (Tagged DispatcherMsg)}
    (h : ∀ m ∈ ms, m.msg.encoder? = none) :
    carried (ctl.deliver l ms) = carried l := by
  have hms : carried ms = [] := List.filterMap_eq_nil_iff.mpr h
  cases ctl <;> simp [DispCtl.deliver, hms]

theorem Tendermint.tick_encoder? {it : Iter PeerId} {t : Tendermint} {o : Option Conn} :
    ∀ m ∈ (t.tick it).map (Tagged.mk · o), m.msg.encoder? = none := by
  simp only [Tendermint.tick, List.map_map, List.mem_map, Function.comp_apply]
  rintro m ⟨p, -, rfl⟩
  rfl

theorem Tendermint.run_encoder? {m : FromDispatcherMsg} {t : Tendermint} {o : Option Conn} :
    ∀ x ∈ (t.run m).2.map (Tagged.mk · o), x.msg.encoder? = none := by
  intro x hx
  obtain ⟨y, hy, rfl⟩ := List.mem_map.mp hx
  cases m with
  | fromPeer m => cases m <;> simp [Tendermint.run] at hy <;> subst hy <;> rfl
  | peerConnected p => simp [Tendermint.run] at hy
  | peerDisconnected p => simp [Tendermint.run] at hy; subst hy; rfl

/-! ## The ownership invariant -/

structure Owned (s : Sys) : Prop where
  fresh : ∀ c, s.nextConn ≤ c → s.task c = .absent
  queued : ∀ c ∈ carried s.dispInbox, s.task c = .queued
  once : (carried s.dispInbox).Nodup
  settled : ∀ p c, (p, c) ∈ s.registry →
    s.Running c p ∨ ∃ why, s.task c = .ended why
  running : ∀ p c, s.Running c p → (p, c) ∈ s.registry
  single : (s.registry.map Prod.snd).Nodup

theorem owned_init (seedNode : PeerId) : Owned (init seedNode) where
  fresh := by simp [init]
  queued := by simp [init]
  once := by simp [init]
  settled := by simp [init]
  running := by simp [init, Sys.Running]
  single := by simp [init]

/-- Only the tasks, the queued connections and the registry matter. -/
theorem Owned.congr {s s' : Sys} (h : Owned s) (hn : s'.nextConn = s.nextConn)
    (hi : carried s'.dispInbox = carried s.dispInbox)
    (hr : s'.registry = s.registry) (ht : s'.task = s.task) : Owned s' := by
  obtain ⟨hfresh, hqueued, honce, hsettled, hrunning, hsingle⟩ := h
  constructor <;> simpa only [hn, hi, hr, ht, Sys.Running] using ‹_›

/-- A task that owns its connection moves on, under the same id, or ends. -/
theorem Owned.retask {s s' : Sys} (h : Owned s) {c : Conn} {t : Task}
    (hn : s'.nextConn = s.nextConn)
    (hi : carried s'.dispInbox = carried s.dispInbox)
    (hr : s'.registry = s.registry) (ht : s'.task = Function.update s.task c t)
    (habsent : s.task c ≠ .absent) (hqueued : s.task c ≠ .queued)
    (hid : t.peerId? = (s.task c).peerId? ∧ (∀ why, s.task c ≠ .ended why) ∨
      ∃ why, t = .ended why) : Owned s' := by
  have hrun : ∀ d p, s'.Running d p → s.Running d p := by
    intro d p hd
    simp only [Sys.Running, ht, Function.update_apply] at hd ⊢
    split at hd
    · rename_i heq
      subst heq
      rcases hid with ⟨heq, -⟩ | ⟨why, rfl⟩
      · rwa [← heq]
      · simp at hd
    · exact hd
  refine ⟨?_, ?_, hi ▸ h.once, ?_, ?_, hr ▸ h.single⟩
  · intro d hd
    rw [hn] at hd
    have hne : d ≠ c := fun heq => habsent (heq ▸ h.fresh d hd)
    simp [ht, hne, h.fresh d hd]
  · intro d hd
    rw [hi] at hd
    have hne : d ≠ c := fun heq => hqueued (heq ▸ h.queued d hd)
    simp [ht, hne, h.queued d hd]
  · intro p d hd
    rw [hr] at hd
    simp only [Sys.Running, ht, Function.update_apply]
    split
    · rename_i heq
      subst heq
      rcases hid with ⟨heq, hended⟩ | hwhy
      · rcases h.settled p d hd with hdp | ⟨why, hwhy⟩
        · exact .inl (heq ▸ hdp)
        · exact absurd hwhy (hended why)
      · exact .inr hwhy
    · exact h.settled p d hd
  · intro p d hd
    rw [hr]
    exact h.running p d (hrun d p hd)

/-- The dispatcher goes: what is queued is dropped, every task stays. -/
theorem Owned.endDispatcher {s s' : Sys} (h : Owned s)
    (hn : s'.nextConn = s.nextConn) (hi : s'.dispInbox = [])
    (hr : s'.registry = s.registry)
    (ht : s'.task = fun c => match s.task c with
      | .queued => .ended .dropped
      | t => t) : Owned s' := by
  have hpeer : ∀ c, (s'.task c).peerId? = (s.task c).peerId? := by
    intro c
    simp only [ht]
    split <;> simp_all
  refine ⟨?_, by simp [hi], by simp [hi], ?_, ?_, hr ▸ h.single⟩
  · intro c hc
    rw [hn] at hc
    simp [ht, h.fresh c hc]
  · intro p c hc
    rw [hr] at hc
    rcases h.settled p c hc with hrun | ⟨why, hwhy⟩
    · exact .inl ((hpeer c).trans hrun)
    · exact .inr ⟨why, by simp [ht, hwhy]⟩
  · intro p c hc
    rw [hr]
    exact h.running p c ((hpeer c).symm.trans hc)

/-- A fresh connection arrives, or a handshake task gives its connection
back: the connection enters the queue, or is dropped with the message. -/
theorem Owned.handOver {s s' : Sys} (h : Owned s) {c : Conn} {m : DispatcherMsg}
    (hm : m.encoder? = some c) (hn : s.nextConn ≤ s'.nextConn)
    (hfresh : c < s'.nextConn)
    (ht : s'.task = (s.handOver c m).task)
    (hi : s'.dispInbox = (s.handOver c m).dispInbox)
    (hr : s'.registry = s.registry)
    (hqueued : s.task c ≠ .queued) (hend : ∀ why, s.task c ≠ .ended why)
    (hid : (s.task c).peerId? = none) : Owned s' := by
  have hnot : c ∉ carried s.dispInbox := fun hc => hqueued (h.queued c hc)
  have hrun : ∀ d p, s'.Running d p ↔ s.Running d p := by
    intro d p
    simp only [Sys.Running, ht, Sys.handOver, Function.update_apply]
    split
    · rename_i heq
      subst heq
      cases s.dispCtl <;> simp [hid]
    · exact Iff.rfl
  refine ⟨?_, ?_, ?_, ?_, ?_, hr ▸ h.single⟩
  · intro d hd
    have hne : d ≠ c := fun heq => Nat.not_le_of_lt hfresh (heq ▸ hd)
    simp [ht, hne, h.fresh d (hn.trans hd)]
  · intro d hd
    rw [hi] at hd
    simp only [ht, Sys.handOver, Function.update_apply]
    cases hctl : s.dispCtl <;> simp [hctl, DispCtl.deliver, hm] at hd ⊢
    · rcases hd with hd | rfl
      · simp [h.queued d hd]
      · simp
    all_goals
      have hne : d ≠ c := fun heq => hnot (heq ▸ hd)
      simp [hne, h.queued d hd]
  · rw [hi]
    cases hctl : s.dispCtl <;>
      simp [hctl, DispCtl.deliver, hm, List.nodup_append, h.once]
    exact fun a ha hac => hnot (hac ▸ ha)
  · intro p d hd
    rw [hr] at hd
    rcases h.settled p d hd with hdp | ⟨why, hwhy⟩
    · exact .inl ((hrun d p).mpr hdp)
    · have hne : d ≠ c := fun heq => hend why (heq ▸ hwhy)
      exact .inr ⟨why, by simp [ht, hne, hwhy]⟩
  · intro p d hd
    rw [hr]
    exact h.running p d ((hrun d p).mp hd)

/-- The dispatcher takes a connection out of its queue and spawns the task
that owns it from now on. -/
theorem Owned.spawn {s s' : Sys} (h : Owned s) {c : Conn} {t : Task}
    {m : Tagged DispatcherMsg} {rest : List (Tagged DispatcherMsg)}
    (hin : s.dispInbox = m :: rest) (hm : m.msg.encoder? = some c)
    (hn : s'.nextConn = s.nextConn) (hi : s'.dispInbox = rest)
    (ht : s'.task = Function.update s.task c t)
    (hreg : t.peerId? = none ∧ s'.registry = s.registry ∨
      ∃ p, t.peerId? = some p ∧ s'.registry = (p, c) :: s.registry) :
    Owned s' := by
  have hq : s.task c = .queued := h.queued c (by simp [hin, hm])
  have honce : c ∉ carried rest ∧ (carried rest).Nodup := by
    simpa [hin, hm] using h.once
  have hnotreg : ∀ p, (p, c) ∉ s.registry := by
    intro p hp
    rcases h.settled p c hp with hrun | ⟨why, hwhy⟩
    · simp [Sys.Running, hq] at hrun
    · simp [hq] at hwhy
  have hne : ∀ p d, (p, d) ∈ s.registry → d ≠ c :=
    fun p d hd heq => hnotreg p (heq ▸ hd)
  have hold : ∀ p d, (p, d) ∈ s.registry →
      s'.Running d p ∨ ∃ why, s'.task d = .ended why := by
    intro p d hd
    simpa [Sys.Running, ht, hne p d hd] using h.settled p d hd
  refine ⟨?_, ?_, hi ▸ honce.2, ?_, ?_, ?_⟩
  · intro d hd
    rw [hn] at hd
    have hdc : d ≠ c := fun heq => by
      have := h.fresh d hd
      rw [heq, hq] at this
      cases this
    simp [ht, hdc, h.fresh d hd]
  · intro d hd
    rw [hi] at hd
    have hdc : d ≠ c := fun heq => honce.1 (heq ▸ hd)
    simp [ht, hdc, h.queued d (by simp [hin, hd])]
  · intro p d hd
    rcases hreg with ⟨-, hr⟩ | ⟨q, htq, hr⟩
    · exact hold p d (hr ▸ hd)
    · rw [hr, List.mem_cons] at hd
      rcases hd with heq | hd
      · obtain ⟨rfl, rfl⟩ := Prod.mk.injEq .. |>.mp heq
        exact .inl (by simpa [Sys.Running, ht] using htq)
      · exact hold p d hd
  · intro p d hd
    simp only [Sys.Running, ht, Function.update_apply] at hd
    rcases hreg with ⟨htn, hr⟩ | ⟨q, htq, hr⟩ <;> split at hd
    · rw [htn] at hd; cases hd
    · exact hr ▸ h.running p d hd
    · rename_i heq
      rw [htq] at hd
      obtain rfl := Option.some.inj hd
      simp [hr, heq]
    · rw [hr]
      exact List.mem_cons_of_mem _ (h.running p d hd)
  · rcases hreg with ⟨-, hr⟩ | ⟨q, -, hr⟩
    · exact hr ▸ h.single
    · rw [hr, List.map_cons, List.nodup_cons]
      refine ⟨fun hmem => ?_, h.single⟩
      obtain ⟨⟨p, d⟩, hd, heq⟩ := List.mem_map.mp hmem
      exact hne p d hd heq

theorem owned_step {s s' : Sys} {a : Act} (h : Owned s) (hs : Step s a s') :
    Owned s' := by
  cases hs with
  | accept =>
      have hfresh := h.fresh s.nextConn le_rfl
      exact h.handOver rfl (Nat.le_succ _) (Nat.lt_succ_self _) rfl rfl rfl
        (by simp [hfresh]) (by simp [hfresh]) (by simp [hfresh])
  | dispatchHandshake hctl hin =>
      exact h.spawn hin rfl rfl rfl rfl (.inl ⟨rfl, rfl⟩)
  | dispatchCompleted hctl hin =>
      exact h.spawn hin rfl rfl rfl rfl (.inr ⟨_, rfl, rfl⟩)
  | dispatchPanic => exact h.endDispatcher rfl rfl rfl rfl
  | dispatchExit => exact h.endDispatcher rfl rfl rfl rfl
  | dispatchSend hctl hin | dispatchLost hctl hin | dispatchDisconnected hctl hin =>
      exact h.congr rfl (by simp [hin, DispatcherMsg.encoder?]) rfl rfl
  | tick => exact h.congr rfl (carried_deliver Tendermint.tick_encoder?) rfl rfl
  | tmReceive => exact h.congr rfl (carried_deliver Tendermint.run_encoder?) rfl rfl
  | tmExit =>
      exact h.congr rfl (carried_deliver (by simp [DispatcherMsg.encoder?])) rfl rfl
  | tmConfirmed | tmUnconfirmed | tmDisconnected | abciReply | helloSkipped
  | request | frameSkipped => exact h.congr rfl rfl rfl rfl
  | helloRead htask =>
      have hfresh : ∀ c, s.task c ≠ .absent → c < s.nextConn := fun c hc =>
        Nat.lt_of_not_le fun hle => hc (h.fresh c hle)
      exact h.handOver rfl le_rfl (hfresh _ (by simp [htask])) rfl rfl rfl
        (by simp [htask]) (by simp [htask]) (by simp [htask])
  | helloSent htask | command htask | sent htask =>
      exact h.retask rfl rfl rfl rfl (by simp [htask]) (by simp [htask])
        (.inl (by simp [htask]))
  | helloUnsent htask | helloFailed htask | commandClosed htask | unsent htask
  | remoteGone htask =>
      exact h.retask rfl rfl rfl rfl (by simp [htask]) (by simp [htask]) (.inr ⟨_, rfl⟩)

theorem owned_run {seedNode : PeerId} {G : Sys → Act → Prop} {as : List Act} {s : Sys}
    (h : (node seedNode).Run G as s) : Owned s :=
  h.invariant Owned (owned_init seedNode)
    fun _ _ _ hi _ hs => owned_step hi (step_sound hs)

end Mt

end Reactor
