import Reactor.SnProcess

/-!
# Stale disconnects

A `Disconnect` names an id and nothing else. Each `RemotePeer` has two
threads that may put one in the channel, and the sending thread does so
*because* the peer has been removed, so a second `Disconnect` is on its
way whenever a peer is, and if the id is connected again before that is
handled, it removes the new peer.

**`stale_disconnect_spares_newer`**: it does not as long as a remote peer
is only started for an id when nothing is left of the earlier ones under
that id, neither a running thread nor a `Disconnect` of theirs in the
channel (`Process.Gone`). Then whatever can still send a `Disconnect`, or
has one on its way, is the latest remote peer of its id (`Tracked`).
-/

namespace Reactor.Sn

open Program
open Reactor.System (Any)

namespace Process

/-! ## The property -/

/-- No `Disconnect` from a thread of a remote peer drops one that was
started later. -/
def StaleSafe (p : Process) : Prop :=
  ∀ m s peer k rest, p.ctl = .handling m s (.call (.drop peer) rest) →
    m.thread? = some k → peer.senderChannel ≤ k

/-! ## The condition -/

/-- Nothing is left of the threads on channel `k`: neither runs, and no
`Disconnect` of theirs is in the channel. -/
def Quiet (p : Process) (k : Nat) (t : Threads) : Prop :=
  t.sending = false ∧ t.receiving = false ∧
    ∀ m ∈ p.queue, m.thread? = some k → m.ev ≠ .peer (.disconnect t.peer.id)

instance (p : Process) (k : Nat) (t : Threads) : Decidable (p.Quiet k t) :=
  inferInstanceAs (Decidable (_ ∧ _ ∧ _))

/-- Nothing is left of the remote peers started under the id. -/
def Gone (p : Process) (id : ID) : Prop :=
  ∀ k < p.nextChannel, ∀ t ∈ p.threads k, t.peer.id = id → p.Quiet k t

instance (p : Process) (id : ID) : Decidable (p.Gone id) :=
  inferInstanceAs (Decidable (∀ k < p.nextChannel, ∀ t ∈ p.threads k, t.peer.id = id → p.Quiet k t))

end Process

/-- A remote peer is only started under an id that is `Gone`. -/
def StartsGone (p : Process) : Act → Prop
  | .loop _ =>
      match p.pending with
      | some (.spawn id _) => p.Gone id
      | _ => True
  | _ => True

instance (p : Process) (a : Act) : Decidable (StartsGone p a) := by
  unfold StartsGone
  split
  · split <;> infer_instance
  · infer_instance

namespace Process

/-! ## The invariant -/

/-- The threads on channel `k` can still send a `Disconnect`, or one of
theirs is on its way. -/
def Active (p : Process) (k : Nat) (t : Threads) : Prop :=
  t.sending ∨ t.receiving ∨
    ∃ m ∈ p.mails, m.thread? = some k ∧ m.ev = .peer (.disconnect t.peer.id)

structure Tracked (p : Process) : Prop where
  /-- What a thread sends is about its own peer. -/
  mail : ∀ m ∈ p.mails, ∀ k, m.thread? = some k → ∃ t, p.threads k = some t ∧
    (m.ev = .peer (.disconnect t.peer.id) ∨ ∃ msg, m.ev = .peer (.receivedMessage t.peer.id msg))
  /-- Whatever is active is the latest of its id. -/
  latest : ∀ k t, p.threads k = some t → p.Active k t →
    ∀ k' t', p.threads k' = some t' → t'.peer.id = t.peer.id → k' ≤ k

theorem Tracked.staleSafe {p : Process} (h : p.Tracked) (hsound : p.Sound) : p.StaleSafe := by
  intro m s peer k rest hctl hthread
  have hm : m ∈ p.mails := by simp [mails, hctl]
  obtain ⟨t, ht, hev⟩ := h.mail m hm k hthread
  obtain ⟨hallows, -⟩ := hsound.follows m s _ hctl
  rcases hallows with ⟨-, id, hdisc, hpeer⟩ | ⟨-, hterm⟩
  · -- the event is the thread's `Disconnect`, so the id is that of its peer
    obtain ⟨hid', t', ht', rfl⟩ := hsound.peers id peer hpeer
    have hid : id = t.peer.id := by
      rcases hev with hev | ⟨msg, hev⟩
      · rw [hdisc] at hev
        exact PeerEvent.disconnect.inj (Event.peer.inj hev)
      · rw [hdisc] at hev
        cases hev
    exact h.latest k t ht (.inr (.inr ⟨m, hm, hthread, by rw [hdisc, hid]⟩)) _ t' ht'
      (hid'.trans hid)
  · rcases hev with hev | ⟨msg, hev⟩ <;> rw [hterm] at hev <;> cases hev

theorem tracked_new (id : ID) : (new id).Tracked where
  mail m hm := by cases hm
  latest k t h := by cases h

/-! ## Steps -/

/-- Steps that start no remote peer: the threads stay those of the same
peers, none of them becomes active, and an event new in the channel is
about the peer of the thread that sent it. -/
theorem Tracked.mono {p p' : Process} (h : p.Tracked)
    (hback : ∀ k t', p'.threads k = some t' → ∃ t, p.threads k = some t ∧ t'.peer = t.peer ∧
      (p'.Active k t' → p.Active k t))
    (hforth : ∀ k t, p.threads k = some t → ∃ t', p'.threads k = some t' ∧ t'.peer = t.peer)
    (hmail : ∀ m ∈ p'.mails, m ∈ p.mails ∨ ∀ k, m.thread? = some k → ∃ t,
      p.threads k = some t ∧ (m.ev = .peer (.disconnect t.peer.id) ∨
        ∃ msg, m.ev = .peer (.receivedMessage t.peer.id msg))) :
    p'.Tracked where
  mail m hm k hthread := by
    obtain ⟨t, ht, hev⟩ : ∃ t, p.threads k = some t ∧ (m.ev = .peer (.disconnect t.peer.id) ∨
        ∃ msg, m.ev = .peer (.receivedMessage t.peer.id msg)) := by
      rcases hmail m hm with hold | hnew
      · exact h.mail m hold k hthread
      · exact hnew k hthread
    obtain ⟨t', ht', hpeer⟩ := hforth k t ht
    exact ⟨t', ht', hpeer ▸ hev⟩
  latest k t₁ ht₁ hactive k' t₁' ht₁' hid := by
    obtain ⟨t, ht, hpeer, hback₁⟩ := hback k t₁ ht₁
    obtain ⟨t', ht', hpeer', -⟩ := hback k' t₁' ht₁'
    exact h.latest k t ht (hback₁ hactive) k' t' ht' (by rwa [hpeer, hpeer'] at hid)

variable {p p' : Process}

/-- The threads are the same, and no event is new. -/
theorem Tracked.of_mails (h : p.Tracked) (hthreads : p'.threads = p.threads)
    (hmails : ∀ m ∈ p'.mails, m ∈ p.mails) : p'.Tracked := by
  refine h.mono (fun k t ht => ⟨t, hthreads ▸ ht, rfl, ?_⟩) (fun k t ht => ⟨t, hthreads ▸ ht, rfl⟩)
    fun m hm => .inl (hmails m hm)
  rintro (hs | hr | ⟨m, hm, hthread, hev⟩)
  · exact .inl hs
  · exact .inr (.inl hr)
  · exact .inr (.inr ⟨m, hmails m hm, hthread, hev⟩)

/-- An event in the channel that no thread sent. -/
theorem Tracked.post (h : p.Tracked) {ev : Event} {sender : Sender}
    (hsender : (Mail.mk ev sender).thread? = none) : (p.post ev sender).Tracked := by
  refine h.mono (fun k t ht => ⟨t, ht, rfl, ?_⟩) (fun k t ht => ⟨t, ht, rfl⟩) fun m hm => ?_
  · rintro (hs | hr | ⟨m, hm, hthread, hev⟩)
    · exact .inl hs
    · exact .inr (.inl hr)
    · rw [mails_post] at hm
      rcases List.mem_append.mp hm with hm | hm
      · exact .inr (.inr ⟨m, hm, hthread, hev⟩)
      · rw [List.mem_singleton.mp hm, hsender] at hthread
        cases hthread
  · rw [mails_post] at hm
    rcases List.mem_append.mp hm with hm | hm
    · exact .inl hm
    · exact .inr fun k hk => by
        rw [List.mem_singleton.mp hm, hsender] at hk
        cases hk

/-- A thread sends an event about its peer, and may end. -/
theorem Tracked.threadPost (h : p.Tracked) {k : Nat} {t u : Threads} {ev : Event}
    {sender : Sender} (ht : p.threads k = some t) (hpeer : u.peer = t.peer)
    (hsender : (Mail.mk ev sender).thread? = some k)
    (hev : ev = .peer (.disconnect t.peer.id) ∧ (t.sending ∨ t.receiving) ∨
      ∃ msg, ev = .peer (.receivedMessage t.peer.id msg))
    (hsending : u.sending → t.sending) (hreceiving : u.receiving → t.receiving) :
    ((p.setThreads k u).post ev sender).Tracked := by
  have hmails : ((p.setThreads k u).post ev sender).mails = p.mails ++ [⟨ev, sender⟩] :=
    mails_post ev sender
  refine h.mono (fun k₁ t₁ ht₁ => ?_) (setThreads_keeps ht hpeer) fun m hm => ?_
  · obtain ⟨rfl, rfl⟩ | ⟨hk, ht₁⟩ := setThreads_cases ht₁
    · refine ⟨t, ht, hpeer, ?_⟩
      rintro (hs | hr | ⟨m, hm, hthread, hmev⟩)
      · exact .inl (hsending hs)
      · exact .inr (.inl (hreceiving hr))
      · rw [hmails] at hm
        rcases List.mem_append.mp hm with hm | hm
        · exact .inr (.inr ⟨m, hm, hthread, hpeer ▸ hmev⟩)
        · obtain rfl := List.mem_singleton.mp hm
          rcases hev with ⟨-, hs | hr⟩ | ⟨msg, hev⟩
          · exact .inl hs
          · exact .inr (.inl hr)
          · rw [hev] at hmev
            cases hmev
    · refine ⟨t₁, ht₁, rfl, ?_⟩
      rintro (hs | hr | ⟨m, hm, hthread, hmev⟩)
      · exact .inl hs
      · exact .inr (.inl hr)
      · rw [hmails] at hm
        rcases List.mem_append.mp hm with hm | hm
        · exact .inr (.inr ⟨m, hm, hthread, hmev⟩)
        · rw [List.mem_singleton.mp hm, hsender] at hthread
          exact absurd (Option.some.inj hthread).symm hk
  · rw [hmails] at hm
    rcases List.mem_append.mp hm with hm | hm
    · exact .inl hm
    · obtain rfl := List.mem_singleton.mp hm
      refine .inr fun k₁ hk₁ => ?_
      obtain rfl := Option.some.inj (hsender.symm.trans hk₁)
      exact ⟨t, ht, hev.imp And.left id⟩

/-- A remote peer dropped. -/
theorem Tracked.drop (h : p.Tracked) {k : Nat} {t : Threads} (ht : p.threads k = some t) :
    (p.setThreads k { t with dropped := true }).Tracked := by
  refine h.mono (fun k₁ t₁ ht₁ => ?_) (setThreads_keeps ht rfl) fun m hm => .inl hm
  obtain ⟨rfl, rfl⟩ | ⟨-, hold⟩ := setThreads_cases ht₁
  · exact ⟨t, ht, rfl, id⟩
  · exact ⟨t₁, hold, rfl, id⟩

/-- A remote peer started under an id that nothing is left of. -/
theorem Tracked.start (h : p.Tracked) (hsound : p.Sound) {m : Mail} {s : Stage} {id : ID}
    {stream : TcpStream} {k : Nat → Prog Turn}
    (hctl : p.ctl = .handling m s (.call (.spawn id stream) k)) (hgone : p.Gone id) :
    Tracked { p.setThreads p.nextChannel ⟨⟨id, stream, p.nextChannel⟩, true, true, false⟩ with
      nextChannel := p.nextChannel + 1
      ctl := .handling m (.started ⟨id, stream, p.nextChannel⟩) (k p.nextChannel) } := by
  obtain ⟨⟨-, hconn, -⟩, -⟩ := hsound.follows m s _ hctl
  have hold : ∀ k₁ t₁, p.threads k₁ = some t₁ → k₁ < p.nextChannel :=
    fun k₁ t₁ ht₁ => (hsound.channel k₁ t₁ ht₁).1
  have hmails : p.mails = m :: p.queue := by simp [mails, hctl]
  refine ⟨fun m₁ hm₁ k₁ hk₁ => ?_, fun k₁ t₁ ht₁ hactive k₂ t₂ ht₂ hid => ?_⟩
  · obtain ⟨t, ht, hev⟩ := h.mail m₁ (hmails ▸ hm₁) k₁ hk₁
    exact ⟨t, by simpa [(hold k₁ t ht).ne] using ht, hev⟩
  · by_cases hk₂ : k₂ = p.nextChannel
    · -- the new one is the latest; an earlier one of its id is not active
      subst hk₂
      obtain rfl := Option.some.inj (show some _ = some t₂ by simpa using ht₂)
      by_cases hk₁ : k₁ = p.nextChannel
      · exact hk₁.ge
      · have ht₁ : p.threads k₁ = some t₁ := by simpa [hk₁] using ht₁
        obtain ⟨hsend, hrecv, hqueue⟩ := hgone k₁ (hold k₁ t₁ ht₁) t₁ ht₁ hid.symm
        rcases hactive with hs | hr | ⟨m₁, hm₁, hthread, hev⟩
        · rw [hsend] at hs; cases hs
        · rw [hrecv] at hr; cases hr
        · rcases List.mem_cons.mp (show m₁ ∈ m :: p.queue from hm₁) with rfl | hm₁
          · rw [hconn] at hev; cases hev
          · exact absurd hev (hqueue m₁ hm₁ hthread)
    · have ht₂ : p.threads k₂ = some t₂ := by simpa [hk₂] using ht₂
      by_cases hk₁ : k₁ = p.nextChannel
      · exact hk₁ ▸ (hold k₂ t₂ ht₂).le
      · have ht₁ : p.threads k₁ = some t₁ := by simpa [hk₁] using ht₁
        refine h.latest k₁ t₁ ht₁ ?_ k₂ t₂ ht₂ hid
        simp only [Active, hmails]
        exact hactive

/-- The end of a round. -/
theorem Tracked.settle (h : p.Tracked) {node : SeedNode} {ctl : Ctl}
    (hend : ∀ m s rest, ctl ≠ .handling m s rest) : Tracked { p with node, ctl } := by
  refine h.of_mails rfl fun m hm => ?_
  have hqueue : m ∈ p.queue := by
    unfold mails at hm
    split at hm
    · next hc => exact absurd hc (hend _ _ _)
    · exact hm
  unfold mails
  split
  · exact List.mem_cons_of_mem _ hqueue
  · exact hqueue

theorem tracked_advance {io : Io} (h : p.Tracked) (hsound : p.Sound)
    (hgone : StartsGone p (.loop io)) (hs : p.advance io = some p') : p'.Tracked := by
  obtain ⟨m, s, c, k, hctl, rfl⟩ | ⟨m, s, node, hctl, rfl⟩ | ⟨m, s, node, hctl, rfl⟩ |
    ⟨m, s, e, hctl, rfl⟩ := advance_cases hs
  · have hgo : ∀ r, Tracked { p with ctl := .handling m (s.next c r) (k r) } :=
      fun r => h.of_mails rfl (by simp [mails, hctl])
    cases c with
    | spawn id stream =>
        refine h.start hsound hctl ?_
        simpa [StartsGone, pending, hctl] using hgone
    | send ev => exact (hgo ()).post rfl
    | drop peer =>
        simp only [perform]
        cases ht : p.threads peer.senderChannel with
        | none => exact hgo ()
        | some t => exact (hgo ()).drop ht
    | _ => exact hgo _
  all_goals exact h.settle (by simp)

theorem tracked_step {a : Act} (h : p.Tracked) (hsound : p.Sound) (hg : StartsGone p a)
    (hs : p.step a = some p') : p'.Tracked := by
  cases a with
  | post ev =>
      obtain rfl := Option.some.inj hs
      exact h.post rfl
  | accept stream =>
      obtain rfl := Option.some.inj hs
      exact h.post rfl
  | take =>
      obtain ⟨m, rest, hctl, hqueue, rfl⟩ := take_cases hs
      exact h.of_mails rfl (by simp [mails, hctl, hqueue])
  | loop io => exact tracked_advance h hsound hg hs
  | sendEnds k =>
      obtain ⟨t, ht, hsending, -, rfl⟩ := sendEnds_cases hs
      exact h.threadPost ht rfl rfl (.inl ⟨rfl, .inl hsending⟩) (by simp) id
  | received k msg =>
      obtain ⟨t, ht, -, rfl⟩ := received_cases hs
      have hsame : p.setThreads k t = p := by
        simp [setThreads, ← ht]
      rw [← hsame]
      exact h.threadPost ht rfl rfl (.inr ⟨msg, rfl⟩) id id
  | receiveEnds k =>
      obtain ⟨t, ht, hreceiving, rfl⟩ := receiveEnds_cases hs
      exact h.threadPost ht rfl rfl (.inl ⟨rfl, .inr hreceiving⟩) id (by simp)

end Process

/-- **A stale disconnect spares newer peers.** In every run in which remote
peers are only started under ids that nothing is left of, no `Disconnect`
from a thread of a remote peer drops one that was started later. -/
theorem stale_disconnect_spares_newer {id : ID} {as : List Act} {p : Process}
    (h : (process id).Run StartsGone as p) : p.StaleSafe := by
  have hinv : p.Sound ∧ p.Tracked :=
    h.invariant (fun p => p.Sound ∧ p.Tracked) ⟨Process.sound_new id, Process.tracked_new id⟩
      fun _ _ _ ⟨hsound, ht⟩ hg hs =>
        ⟨Process.sound_step hsound hs, Process.tracked_step ht hsound hg hs⟩
  exact hinv.2.staleSafe hinv.1

/-! ## Runs -/

/-- A world in which whoever is listened to introduces himself. -/
def Io.hello (id : ID) : Io
  | .readPeerMessage _ => some (.hello ⟨id⟩)
  | c => Io.calm c

/-- Takes an event, and makes the steps of its round. -/
def round (io : Io) (steps : Nat) : List Act := .take :: List.replicate steps (.loop io)

/-- A peer connects and is registered. -/
def joins (id : ID) (conn : Nat) : List Act :=
  .accept ⟨conn, .listener⟩ :: round (.hello id) 12 ++ round .calm 1

/-- The sender of the `Disconnect` about to drop a remote peer, and the
channel of that peer. -/
def Process.dropping (p : Process) : Option (Sender × Nat) :=
  match p.ctl with
  | .handling m _ (.call (.drop peer) _) => some (m.sender, peer.senderChannel)
  | _ => none

/-- A peer that comes back once both threads of its first connection are
heard of, and leaves again. -/
def rejoin : List Act :=
  joins "2" 0 ++ [.receiveEnds 0] ++ round .calm 2 ++ [.sendEnds 0] ++ round .calm 1 ++
    joins "2" 1 ++ [.receiveEnds 1, .take]

theorem stale_disconnect_spares_newer_rejoin :
    ∃ p, (process "1").Run StartsGone rejoin p ∧ p.dropping = some (.receiveLoop 1, 1) ∧
      p.StaleSafe := by
  have h : ((process "1").exec StartsGone (process "1").init rejoin).bind Process.dropping =
      some (.receiveLoop 1, 1) := by decide
  obtain ⟨p, hp, hdrop⟩ := Option.bind_eq_some_iff.mp h
  have hrun := System.run_iff.mpr hp
  exact ⟨p, hrun, hdrop, stale_disconnect_spares_newer hrun⟩

/-- A peer that comes back while its first connection is being cleaned up:
the `Connected` is in the channel before the sending thread, whose channel
the first `Disconnect` has closed, adds a second one. -/
def overtaken : List Act :=
  joins "2" 0 ++ [.receiveEnds 0] ++ round .calm 2 ++
    [.accept ⟨1, .listener⟩, .sendEnds 0] ++ round (.hello "2") 12 ++ [.take]

/-- The `Disconnect` of the sending thread drops the newer remote peer. -/
theorem stale_disconnect_drops_newer :
    ∃ p, (process "1").Run Any overtaken p ∧ ¬p.StaleSafe := by
  have h : ((process "1").exec Any (process "1").init overtaken).bind Process.dropping =
      some (.sendLoop 0, 1) := by decide
  obtain ⟨p, hp, hdrop⟩ := Option.bind_eq_some_iff.mp h
  refine ⟨p, System.run_iff.mpr hp, fun hsafe => ?_⟩
  unfold Process.dropping at hdrop
  split at hdrop
  · next m s peer rest hctl =>
      obtain ⟨hsender, hchannel⟩ := Prod.mk.inj (Option.some.inj hdrop)
      have hle := hsafe m s peer 0 rest hctl (by rw [Mail.thread?, hsender])
      omega
  · cases hdrop

end Reactor.Sn
