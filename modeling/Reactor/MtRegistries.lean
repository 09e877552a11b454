import Reactor.MtSession

/-!
# The two registries agree

The dispatcher's `connectedPeers` and tendermint's `addrBook` live in
different threads. For an id that is registered at most once and named in
requests only by its own task, they agree up to what is in flight:
`connectedPeers` is never behind, and with nothing in flight the two have
the same keys. All of it is read off `Session.Orderly`; what is left to
show is that such an id is idle when it is registered.
-/

namespace Reactor

namespace Mt

/-- Requests that name `p` are read only by tasks that run under it. -/
def OwnRequests (p : PeerId) (s : Sys) (a : Act) : Prop :=
  ∀ e ∈ a.requesting, e.2 = p → s.Running e.1 p

instance (p : PeerId) (s : Sys) (a : Act) : Decidable (OwnRequests p s a) :=
  inferInstanceAs (Decidable (∀ e ∈ _, _))

/-- How often a handshake for `p` has been completed so far. -/
def Sys.registrations (s : Sys) (p : PeerId) : Nat :=
  s.registry.countP (·.1 = p)

/-- Neither inbox holds a `HandshakeCompleted`, `PeerConnected` or
`PeerDisconnected` for `p`. -/
def Sys.Settled (s : Sys) (p : PeerId) : Prop :=
  (∀ m ∈ s.dispInbox, m.msg ≠ .peerDisconnected p ∧
    ∀ c, m.msg ≠ .handshakeCompleted c p) ∧
    ∀ m ∈ s.tmInbox, m.msg ≠ .peerConnected p ∧ m.msg ≠ .peerDisconnected p

/-! ## An id is idle when it is registered first -/

/-- Only registered connections are in the dispatcher's map. -/
theorem entry_registered {seedNode : PeerId} {G : Sys → Act → Prop} {as : List Act}
    {s : Sys} (h : (node seedNode).Run G as s) {p : PeerId} {c : Conn}
    (hc : s.dispatcher.connectedPeers.lookup p = some c) : (p, c) ∈ s.registry := by
  refine h.invariant (fun s => ∀ p c, s.dispatcher.connectedPeers.lookup p = some c →
    (p, c) ∈ s.registry) ?_ ?_ p c hc
  · intro p c hc
    simp [node, init] at hc
  · intro s a s' ih _ hs p c hc
    have hs := step_sound hs
    cases hs with
    | @dispatchCompleted d q =>
        by_cases hpq : p = q
        · subst hpq
          rw [Finmap.lookup_insert] at hc
          simp [Option.some.inj hc]
        · rw [Finmap.lookup_insert_of_ne _ hpq] at hc
          exact List.mem_cons_of_mem _ (ih p c hc)
    | @dispatchDisconnected q =>
        by_cases hpq : p = q
        · subst hpq
          rw [Finmap.lookup_erase] at hc
          cases hc
        · rw [Finmap.lookup_erase_ne hpq] at hc
          exact ih p c hc
    | dispatchPanic | dispatchExit => simp at hc
    | _ => exact ih p c hc

theorem mem_up {s : Sys} {p : PeerId} {m : Tagged FromDispatcherMsg} {n : UpNote}
    (hm : m ∈ s.tmInbox) (hn : upNote p m = some n) : n ∈ (view p s).up :=
  List.mem_filterMap.mpr ⟨m, hm, hn⟩

theorem mem_down {s : Sys} {p : PeerId} {m : Tagged DispatcherMsg} {n : DownNote}
    (hm : m ∈ s.dispInbox) (hn : downNote p m = some n) : n ∈ (view p s).down :=
  List.mem_filterMap.mpr ⟨m, hm, hn⟩

/-- An orderly id the dispatcher does not hold is idle. -/
theorem Session.Orderly.idle {s : Sys} {p : PeerId} (h : (view p s).Orderly)
    (hnone : s.dispatcher.connectedPeers.lookup p = none) : s.Idle p := by
  have hnot : ¬((view p s).listed ∨ (view p s).up ≠ [] ∨ (view p s).down ≠ [] ∨
      (view p s).live.Nonempty) := by
    intro hleft
    have hsome := h.held hleft
    simp [view, hnone] at hsome
  push Not at hnot
  obtain ⟨-, hup, hdown, hlive⟩ := hnot
  have up : ∀ m ∈ s.tmInbox, ∀ n, upNote p m ≠ some n := fun m hm n hn => by
    simpa [hup] using mem_up hm hn
  have down : ∀ m ∈ s.dispInbox, ∀ n, downNote p m ≠ some n := fun m hm n hn => by
    simpa [hdown] using mem_down hm hn
  refine ⟨⟨?_, ?_, ?_⟩, ?_, ?_⟩
  · exact fun e _ _ hrun => Set.notMem_empty e.2 (hlive ▸ hrun)
  · exact fun m hm heq => up m hm .disconnected (by simp [upNote, heq])
  · exact fun m hm heq => down m hm .disconnected (by simp [downNote, heq])
  · exact fun m hm heq => up m hm (.request m.origin) (by simp [upNote, heq])
  · intro m hm
    by_contra hreply
    obtain ⟨msg, o⟩ := m
    cases msg with
    | toPeer q x =>
        cases x <;> simp [DispatcherMsg.repliesTo] at hreply
        exact down _ hm (.reply o) (by simp [downNote, hreply])
    | _ => simp [DispatcherMsg.repliesTo] at hreply

/-- Registering takes a running dispatcher. -/
theorem Step.registering_running {s s' : Sys} {a : Act} (hs : Step s a s')
    {e : PeerId × Conn} (he : s.registering a = some e) : s.dispCtl = .running := by
  cases hs <;> first | assumption | cases he

/-- A run that registers `p` at most once keeps the order of `p`. -/
theorem keepsOrder_of_once {seedNode p : PeerId} {as : List Act} {s : Sys}
    (h : (node seedNode).Run (OwnRequests p) as s) (hone : s.registrations p ≤ 1) :
    (node seedNode).Run (KeepsOrder p) as s := by
  induction h with
  | nil => exact .nil
  | @snoc as s s' a h hg hs ih =>
      have hstep := step_sound hs
      rcases hstep.registers with ⟨hreg, hr, -⟩ | ⟨c, q, hreg, hr, -⟩
      · rw [Sys.registrations, hr] at hone
        exact .snoc (ih hone) ⟨by simp [hreg], hg⟩ hs
      · have hle : s.registrations p ≤ s'.registrations p := by
          simp only [Sys.registrations, hr, List.countP_cons]; omega
        have h := ih (hle.trans hone)
        refine .snoc h ⟨fun e he hep => ?_, hg⟩ hs
        obtain rfl := Option.some.inj (hreg.symm.trans he)
        obtain rfl : q = p := hep
        -- this is the first registration, so the dispatcher does not hold the id
        have hzero : s.registrations q = 0 := by
          simp only [Sys.registrations, hr, List.countP_cons] at hone
          simp only [Sys.registrations]
          simpa using hone
        refine (orderly_run h (hstep.registering_running hreg)).idle ?_
        refine Option.eq_none_iff_forall_ne_some.mpr fun d hd => ?_
        have hmem := entry_registered h hd
        exact List.countP_eq_zero.mp hzero _ hmem (by simp)

/-! ## Agreement -/

/-- **The registries agree.** For an id registered at most once and named
in requests only by its own task, as long as both loops run: (a) a message
for the peer finds it connected, (b) a listed peer is connected, (c) with
nothing about the id in flight, listed and connected are the same. -/
theorem registries_agree {seedNode p : PeerId} {as : List Act} {s : Sys}
    (h : (node seedNode).Run (OwnRequests p) as s) (hone : s.registrations p ≤ 1)
    (hlive : s.Live) :
    (∀ m o rest, s.dispInbox = ⟨.toPeer p m, o⟩ :: rest →
      p ∈ s.dispatcher.connectedPeers ∧
        ∀ s', step s .dispatch = some s' → s'.dispCtl = .running) ∧
    (p ∈ s.tendermint.addrBook → p ∈ s.dispatcher.connectedPeers) ∧
    (s.Settled p →
      (p ∈ s.tendermint.addrBook ↔ p ∈ s.dispatcher.connectedPeers)) := by
  have hord := orderly_run (keepsOrder_of_once h hone) hlive.1
  have held : (view p s).listed ∨ (view p s).up ≠ [] ∨ (view p s).down ≠ [] ∨
      (view p s).live.Nonempty → p ∈ s.dispatcher.connectedPeers :=
    fun hleft => Finmap.lookup_isSome.mp (hord.held hleft)
  refine ⟨?_, fun hlisted => held (.inl hlisted), ?_⟩
  · intro m o rest hin
    have hconn : p ∈ s.dispatcher.connectedPeers := by
      refine held (.inr (.inr (.inl ?_)))
      cases m <;> simp [view, hin, downNote]
    exact ⟨hconn, fun s' hs => dispatch_toPeer_running hin hconn (step_sound hs)⟩
  · rintro ⟨hdisp, htm⟩
    refine ⟨fun hlisted => held (.inl hlisted), fun hconn => ?_⟩
    rcases hord.seen (Finmap.lookup_isSome.mpr hconn) with hlisted | hup | hdown
    · exact hlisted
    · obtain ⟨⟨msg, o⟩, hm, hn⟩ := List.mem_filterMap.mp hup
      have hnot := htm _ hm
      cases msg with
      | fromPeer x => cases x <;> simp [upNote] at hn
      | _ => simp_all [upNote]
    · obtain ⟨⟨msg, o⟩, hm, hn⟩ := List.mem_filterMap.mp hdown
      have hnot := hdisp _ hm
      cases msg with
      | toPeer q x => cases x <;> simp [downNote] at hn
      | _ => simp_all [downNote]

/-- A peer that registers once, asks for the address book and leaves. -/
theorem registries_agree_visit :
    ∃ s : Sys, s.registrations ⟨"a"⟩ = 1 ∧ s.Live ∧
      (⟨"a"⟩ ∈ s.tendermint.addrBook → ⟨"a"⟩ ∈ s.dispatcher.connectedPeers) := by
  have hrun : ((node ⟨"seed"⟩).exec (OwnRequests ⟨"a"⟩) (init ⟨"seed"⟩)
      (join 0 ⟨"a"⟩ ++ [.tmReceive, .frame 0 (.msg (.addressBookRequest ⟨"a"⟩)),
        .tmReceive, .dispatch] ++ leave 0)).map
        (fun s => (s.registrations ⟨"a"⟩, decide s.Live)) = some (1, true) := by
    decide
  obtain ⟨s, hs, hobs⟩ := Option.map_eq_some_iff.mp hrun
  simp only [Prod.mk.injEq, decide_eq_true_eq] at hobs
  exact ⟨s, hobs.1, hobs.2,
    (registries_agree (System.run_iff.mpr hs) (by omega) hobs.2).2.1⟩

end Mt

end Reactor
