import Mathlib.Data.Set.Insert
import Reactor.MtStale

/-!
# One id, as the two loops see it

Everything the node holds about a single id `p`, with all other ids
forgotten, is a *session*: the dispatcher's entry, whether tendermint
lists `p`, what the two inboxes hold about `p`, and the tasks running
under `p`. `Session.Next` is the protocol one id follows: registered when
nothing is left of earlier connections, then requests, then one
disconnect notice that passes tendermint and the dispatcher in turn, with
ticks and their answers in between.

`Session.Orderly` is the invariant of that protocol, a statement about two
queues of notes, and its proof never mentions the node. `view_step` is the
connection: under the guard `Orderly p` every step of the node is, seen
through `view p`, a step of the protocol or no step at all.
-/

namespace Reactor

namespace Mt

/-! ## The protocol of one id -/

/-- A message about the id in tendermint's inbox. -/
inductive UpNote
  | connected
  | request (origin : Option Conn)
  | greeting
  | disconnected

/-- A message about the id in the dispatcher's inbox: the reply to a
request, any other message for the peer, the disconnect notice. -/
inductive DownNote
  | reply (origin : Option Conn)
  | other
  | disconnected

@[ext] structure Session where
  entry : Option Conn
  listed : Prop
  up : List UpNote
  down : List DownNote
  live : Set Conn

namespace Session

/-- Nothing is left of earlier connections that could disconnect the next
one or be answered in its place. -/
structure Idle (v : Session) : Prop where
  live : v.live = ∅
  up : ∀ n ∈ v.up, n ≠ .disconnected ∧ ∀ o, n ≠ .request o
  down : ∀ n ∈ v.down, n ≠ .disconnected ∧ ∀ o, n ≠ .reply o

inductive Next (v : Session) : Session → Prop
  | register (c : Conn) (hidle : v.Idle) :
      Next v { v with entry := some c, up := v.up ++ [.connected], live := {c} }
  | request {c : Conn} (hc : c ∈ v.live) :
      Next v { v with up := v.up ++ [.request (some c)] }
  | drop {c : Conn} (hc : c ∈ v.live) :
      Next v { v with up := v.up ++ [.disconnected], live := v.live \ {c} }
  | fail {c : Conn} (hc : c ∈ v.live) : Next v { v with live := v.live \ {c} }
  | takeConnected {up} (hup : v.up = .connected :: up) :
      Next v { v with up := up, listed := True }
  | takeRequest {o up} (hup : v.up = .request o :: up) :
      Next v { v with up := up, down := v.down ++ [.reply o] }
  | takeGreeting {up} (hup : v.up = .greeting :: up) :
      Next v { v with up := up, down := v.down ++ [.other] }
  | takeDisconnected {up} (hup : v.up = .disconnected :: up) :
      Next v { v with up := up, listed := False, down := v.down ++ [.disconnected] }
  | tick (hlisted : v.listed) : Next v { v with down := v.down ++ [.other] }
  | deliver {n down} (hdown : v.down = n :: down) (hn : n ≠ .disconnected) :
      Next v { v with down := down }
  | remove {down} (hdown : v.down = .disconnected :: down) :
      Next v { v with entry := none, down := down }

/-- What holds of a session at any time. -/
structure Orderly (v : Session) : Prop where
  /-- Whatever is about the id finds it registered. -/
  held : v.listed ∨ v.up ≠ [] ∨ v.down ≠ [] ∨ v.live.Nonempty → v.entry.isSome
  /-- A registered id is listed, about to be, or about to be removed. -/
  seen : v.entry.isSome →
    v.listed ∨ .connected ∈ v.up ∨ .disconnected ∈ v.down
  /-- The disconnect notice is the last message about the id. -/
  upLast : v.up.Pairwise fun n _ => n ≠ .disconnected
  downLast : v.down.Pairwise fun n _ => n ≠ .disconnected
  /-- Once sent, no task runs under the id; once passed on, nothing at all
  is left of it on tendermint's side. -/
  sent : .disconnected ∈ v.up → v.live = ∅
  passed : .disconnected ∈ v.down → ¬v.listed ∧ v.up = [] ∧ v.live = ∅
  /-- The running task, the requests and the replies are those of the
  connection registered. -/
  live : ∀ c ∈ v.live, v.entry = some c
  requests : ∀ o, .request o ∈ v.up → o = v.entry
  replies : ∀ o, .reply o ∈ v.down → o = v.entry

theorem orderly_empty : Orderly ⟨none, False, [], [], ∅⟩ := by
  constructor <;> simp

theorem Orderly.live_diff {v : Session} (h : v.Orderly) {c : Conn} (hc : c ∈ v.live) :
    v.live \ {c} = ∅ := by
  refine Set.sdiff_eq_empty.mpr fun d hd => ?_
  exact Option.some.inj ((h.live d hd).symm.trans (h.live c hc))

/-- Where something about the id is left on tendermint's side, the notice
has not been passed on. -/
theorem Orderly.not_passed {v : Session} (h : v.Orderly)
    (hleft : v.listed ∨ v.up ≠ [] ∨ v.live.Nonempty) : .disconnected ∉ v.down := by
  intro hd
  obtain ⟨hlisted, hup, hlive⟩ := h.passed hd
  rcases hleft with hl | hu | hl
  · exact hlisted hl
  · exact hu hup
  · exact hl.ne_empty hlive

theorem Orderly.not_sent {v : Session} (h : v.Orderly) {c : Conn} (hc : c ∈ v.live) :
    .disconnected ∉ v.up := fun hd =>
  Set.notMem_empty c (h.sent hd ▸ hc)

theorem pairwise_snoc {α : Type} {x : α} {l : List α} {n : α} (hl : x ∉ l) :
    (l ++ [n]).Pairwise fun a _ => a ≠ x := by
  refine List.pairwise_append.mpr ⟨?_, by simp, fun a ha _ _ heq => hl (heq ▸ ha)⟩
  exact List.pairwise_of_forall_mem_list fun a ha _ _ heq => hl (heq ▸ ha)

/-- The running task sends a note, with the last of which it ends. -/
theorem Orderly.send {v : Session} (h : v.Orderly) {c : Conn} (hc : c ∈ v.live) {n : UpNote}
    {live : Set Conn} (hlive : live ⊆ v.live) (hrequest : ∀ o, n = .request o → o = some c)
    (hlast : n = .disconnected → live = ∅) :
    Orderly { v with up := v.up ++ [n], live := live } where
  held _ := h.held (.inr (.inr (.inr ⟨c, hc⟩)))
  seen he := (h.seen he).imp_right (.imp_left (List.mem_append_left _))
  upLast := pairwise_snoc (h.not_sent hc)
  downLast := h.downLast
  sent hd := by
    rcases List.mem_append.mp hd with hd | hd
    · exact absurd hd (h.not_sent hc)
    · exact hlast (List.mem_singleton.mp hd).symm
  passed hd := absurd hd (h.not_passed (.inr (.inr ⟨c, hc⟩)))
  live d hd := h.live d (hlive hd)
  requests o ho := by
    rcases List.mem_append.mp ho with ho | ho
    · exact h.requests o ho
    · rw [hrequest o (List.mem_singleton.mp ho).symm, h.live c hc]
  replies := h.replies

/-- Tendermint takes a message of the peer's and answers it. -/
theorem Orderly.answer {v : Session} (h : v.Orderly) {n : UpNote} {up : List UpNote}
    (hup : v.up = n :: up) (hn : n ≠ .connected) {reply : DownNote} (hr : reply ≠ .disconnected)
    (hreply : ∀ o, reply = .reply o → n = .request o) :
    Orderly { v with up := up, down := v.down ++ [reply] } := by
  have hne : v.up ≠ [] := by simp [hup]
  have hdown := h.not_passed (.inr (.inl hne))
  exact {
    held := fun _ => h.held (.inr (.inl hne))
    seen := fun he => by simpa [hup, hn.symm, hr.symm] using h.seen he
    upLast := (hup ▸ h.upLast).of_cons
    downLast := pairwise_snoc hdown
    sent := fun hd => h.sent (by simp [hup, hd])
    passed := fun hd => by simp [hdown, hr.symm] at hd
    live := h.live
    requests := fun o ho => h.requests o (by simp [hup, ho])
    replies := fun o ho => by
      rcases List.mem_append.mp ho with ho | ho
      · exact h.replies o ho
      · exact h.requests o (by simp [hup, hreply o (List.mem_singleton.mp ho).symm]) }

/-- **The protocol keeps a session orderly.** -/
theorem Orderly.next {v v' : Session} (h : v.Orderly) (hn : v.Next v') :
    v'.Orderly := by
  cases hn with
  | register c hidle =>
      have hup : .disconnected ∉ v.up := fun hd => (hidle.up _ hd).1 rfl
      have hdown : .disconnected ∉ v.down := fun hd => (hidle.down _ hd).1 rfl
      exact {
        held := fun _ => rfl
        seen := fun _ => by simp
        upLast := pairwise_snoc hup
        downLast := h.downLast
        sent := fun hd => by simp [hup] at hd
        passed := fun hd => absurd hd hdown
        live := fun d hd => by rw [Set.mem_singleton_iff.mp hd]
        requests := fun o ho => by
          rcases List.mem_append.mp ho with ho | ho
          · exact absurd rfl ((hidle.up _ ho).2 o)
          · simp at ho
        replies := fun o ho => absurd rfl ((hidle.down _ ho).2 o) }
  | request hc =>
      exact h.send hc subset_rfl (fun o ho => (UpNote.request.inj ho).symm) (by simp)
  | drop hc => exact h.send hc Set.sdiff_subset (by simp) fun _ => h.live_diff hc
  | @fail c hc =>
      exact {
        held := fun _ => h.held (.inr (.inr (.inr ⟨c, hc⟩)))
        seen := h.seen
        upLast := h.upLast
        downLast := h.downLast
        sent := fun _ => h.live_diff hc
        passed := fun hd => absurd hd (h.not_passed (.inr (.inr ⟨c, hc⟩)))
        live := fun d hd => h.live d hd.1
        requests := h.requests
        replies := h.replies }
  | takeConnected hup =>
      have hne : v.up ≠ [] := by simp [hup]
      exact {
        held := fun _ => h.held (.inr (.inl hne))
        seen := fun _ => .inl trivial
        upLast := (hup ▸ h.upLast).of_cons
        downLast := h.downLast
        sent := fun hd => h.sent (by simp [hup, hd])
        passed := fun hd => absurd hd (h.not_passed (.inr (.inl hne)))
        live := h.live
        requests := fun o ho => h.requests o (by simp [hup, ho])
        replies := h.replies }
  | takeRequest hup =>
      exact h.answer hup (by simp) (by simp) fun o ho => by rw [DownNote.reply.inj ho]
  | takeGreeting hup => exact h.answer hup (by simp) (by simp) (by simp)
  | takeDisconnected hup =>
      have hne : v.up ≠ [] := by simp [hup]
      -- the notice is the last one: nothing follows it in the inbox
      have hnil := List.pairwise_cons.mp (hup ▸ h.upLast)
      obtain rfl := List.eq_nil_iff_forall_not_mem.mpr fun n hn => hnil.1 n hn rfl
      exact {
        held := fun _ => h.held (.inr (.inl hne))
        seen := fun _ => by simp
        upLast := .nil
        downLast := pairwise_snoc (h.not_passed (.inr (.inl hne)))
        sent := fun hd => by simp at hd
        passed := fun _ => ⟨id, rfl, h.sent (by simp [hup])⟩
        live := h.live
        requests := fun o ho => by simp at ho
        replies := fun o ho => h.replies o (by simpa using ho) }
  | tick hlisted =>
      have hdown := h.not_passed (.inl hlisted)
      exact {
        held := fun _ => h.held (.inl hlisted)
        seen := fun _ => .inl hlisted
        upLast := h.upLast
        downLast := pairwise_snoc hdown
        sent := h.sent
        passed := fun hd => by simp [hdown] at hd
        live := h.live
        requests := h.requests
        replies := fun o ho => h.replies o (by simpa using ho) }
  | @deliver n down hdown hn =>
      exact {
        held := fun _ => h.held (.inr (.inr (.inl (by simp [hdown]))))
        seen := fun he => by simpa [hdown, hn.symm] using h.seen he
        upLast := h.upLast
        downLast := (hdown ▸ h.downLast).of_cons
        sent := h.sent
        passed := fun hd => h.passed (by simp [hdown, hd])
        live := h.live
        requests := h.requests
        replies := fun o ho => h.replies o (by simp [hdown, ho]) }
  | @remove down hdown =>
      obtain ⟨hlisted, hup, hlive⟩ := h.passed (by simp [hdown])
      have hnil := List.pairwise_cons.mp (hdown ▸ h.downLast)
      obtain rfl := List.eq_nil_iff_forall_not_mem.mpr fun n hn => hnil.1 n hn rfl
      exact {
        held := by simp [hlisted, hup, hlive]
        seen := by simp
        upLast := h.upLast
        downLast := .nil
        sent := h.sent
        passed := by simp
        live := by simp [hlive]
        requests := by simp [hup]
        replies := by simp }

end Session

/-! ## The node, seen from one id -/

def upNote (p : PeerId) (m : Tagged FromDispatcherMsg) : Option UpNote :=
  match m.msg with
  | .peerConnected q => if q = p then some .connected else none
  | .fromPeer (.addressBookRequest q) => if q = p then some (.request m.origin) else none
  | .fromPeer (.hello q) => if q = p then some .greeting else none
  | .fromPeer (.addressBookResponse _) => none
  | .peerDisconnected q => if q = p then some .disconnected else none

def downNote (p : PeerId) (m : Tagged DispatcherMsg) : Option DownNote :=
  match m.msg with
  | .toPeer q (.addressBookResponse _) => if q = p then some (.reply m.origin) else none
  | .toPeer q _ => if q = p then some .other else none
  | .peerDisconnected q => if q = p then some .disconnected else none
  | .peerHandshake _ _ => none
  | .handshakeCompleted _ _ => none
  | .exit => none

def view (p : PeerId) (s : Sys) : Session where
  entry := s.dispatcher.connectedPeers.lookup p
  listed := p ∈ s.tendermint.addrBook
  up := s.tmInbox.filterMap (upNote p)
  down := s.dispInbox.filterMap (downNote p)
  live := {c | s.Running c p}

def DispatcherMsg.repliesTo (p : PeerId) : DispatcherMsg → Bool
  | .toPeer q (.addressBookResponse _) => q = p
  | _ => false

/-- Nothing is left of earlier connections under `p` that could disconnect
the next one or be answered in its place. -/
def Sys.Idle (s : Sys) (p : PeerId) : Prop :=
  s.Retired p ∧ (∀ m ∈ s.tmInbox, m.msg ≠ .fromPeer (.addressBookRequest p)) ∧
    ∀ m ∈ s.dispInbox, m.msg.repliesTo p = false

instance (s : Sys) (p : PeerId) : Decidable (s.Idle p) :=
  inferInstanceAs (Decidable (_ ∧ _ ∧ _))

/-- The connection on which this step reads an address book request, and
the id the request names. -/
def Act.requesting : Act → Option (Conn × PeerId)
  | .frame c (.msg (.addressBookRequest p)) => some (c, p)
  | _ => none

/-- What the protocol of `p` asks of a step: `p` is registered only when
idle, and requests that name `p` are read only by tasks that run under it. -/
def KeepsOrder (p : PeerId) (s : Sys) (a : Act) : Prop :=
  (∀ e ∈ s.registering a, e.1 = p → s.Idle p) ∧
    ∀ e ∈ a.requesting, e.2 = p → s.Running e.1 p

theorem Sys.Idle.view {s : Sys} {p : PeerId} (h : s.Idle p) (ho : Owned s) :
    (view p s).Idle := by
  obtain ⟨⟨htasks, htm, hdisp⟩, hreq, hreply⟩ := h
  refine ⟨?_, ?_, ?_⟩
  · refine Set.eq_empty_of_forall_notMem fun c hc => ?_
    exact htasks (p, c) (ho.running p c hc) rfl hc
  · intro n hn
    obtain ⟨m, hm, hmn⟩ := List.mem_filterMap.mp hn
    have h1 := htm m hm
    have h2 := hreq m hm
    unfold upNote at hmn
    split at hmn <;> simp at hmn <;> obtain ⟨rfl, rfl⟩ := hmn <;> simp_all
  · intro n hn
    obtain ⟨m, hm, hmn⟩ := List.mem_filterMap.mp hn
    have h1 := hdisp m hm
    have h2 := hreply m hm
    unfold downNote at hmn
    split at hmn <;> simp at hmn <;> obtain ⟨rfl, rfl⟩ := hmn <;>
      simp_all [DispatcherMsg.repliesTo]

/-! ## While the dispatcher serves -/

/-- While the dispatcher runs, so does tendermint, unless it waits for the
confirmation of an `Exit` that is still queued. -/
structure Serving (s : Sys) : Prop where
  unconfirmed : s.confirmed = false
  tendermint : s.tmCtl = .running ∨ s.tmCtl = .awaitDispatcher ∧ s.exitQueued = true

theorem exitQueued_cons {s : Sys} {m : Tagged DispatcherMsg} {rest}
    (hin : s.dispInbox = m :: rest) (hm : m.msg ≠ .exit) (hq : s.exitQueued = true) :
    rest.any (·.msg = .exit) = true := by
  simpa [Sys.exitQueued, hin, hm] using hq

/-- The dispatcher never starts again. -/
theorem Step.dispRunning {s s' : Sys} {a : Act} (hs : Step s a s')
    (h : s'.dispCtl = .running) : s.dispCtl = .running := by
  cases hs <;> assumption

theorem serving_step {s s' : Sys} {a : Act} (h : Serving s)
    (hctl : s.dispCtl = .running) (hctl' : s'.dispCtl = .running)
    (hs : Step s a s') : Serving s' := by
  obtain ⟨hconf, htm⟩ := h
  have hkeep : ∀ {inbox : List (Tagged DispatcherMsg)},
      (s.exitQueued = true → inbox.any (·.msg = .exit) = true) →
      s.tmCtl = .running ∨ s.tmCtl = .awaitDispatcher ∧
        inbox.any (·.msg = .exit) = true :=
    fun hq => htm.imp_right fun ⟨hw, he⟩ => ⟨hw, hq he⟩
  cases hs with
  | dispatchHandshake _ hin | dispatchSend _ hin | dispatchLost _ hin
  | dispatchDisconnected _ hin | dispatchCompleted _ hin =>
      exact ⟨hconf, hkeep (exitQueued_cons hin (by simp))⟩
  | dispatchPanic | dispatchExit => cases hctl'
  | accept | helloRead | tick | tmReceive =>
      exact ⟨hconf, hkeep fun he => by simp_all [DispCtl.deliver, Sys.exitQueued]⟩
  | tmExit =>
      exact ⟨hconf, .inr ⟨rfl, by simp [hctl, DispCtl.deliver, Sys.exitQueued]⟩⟩
  | tmConfirmed _ hc => simp [hconf] at hc
  | tmUnconfirmed hw _ hgone => simp [hw, hgone] at htm
  | tmDisconnected _ _ hgone => simp [Sys.tmSendersGone, hctl] at hgone
  | abciReply hw => simp [hw] at htm
  | _ => exact ⟨hconf, htm⟩

/-! ## The node follows the protocol -/

theorem tick_notes (p : PeerId) (it : Iter PeerId) (t : Tendermint) :
    ((t.tick it).map (Tagged.mk · none)).filterMap (downNote p) =
      if p ∈ t.addrBook then [.other] else [] := by
  have hnodup := it.nodup t.addrBook.keys
  have hmem : p ∈ it.order t.addrBook.keys ↔ p ∈ t.addrBook := by
    rw [it.mem_order, Finmap.mem_keys]
  simp only [← hmem, Tendermint.tick, List.map_map]
  generalize it.order t.addrBook.keys = l at hnodup
  induction l with
  | nil => rfl
  | cons q l ih =>
      obtain ⟨hq, hl⟩ := List.nodup_cons.mp hnodup
      have ih := ih hl
      by_cases hqp : q = p
      · subst hqp
        simp [downNote, ih, hq]
      · simp [downNote, ih, hqp, Ne.symm hqp]

/-- A task that runs under no id before and after leaves every id's tasks
alone. -/
theorem running_update {s : Sys} {c : Conn} {t : Task} {p : PeerId}
    (h : t.peerId? = (s.task c).peerId?) :
    {d | (Function.update s.task c t d).peerId? = some p} = {d | s.Running d p} := by
  ext d
  simp only [Set.mem_ofPred_eq, Sys.Running, Function.update_apply]
  split
  · rename_i heq; rw [heq, h]
  · exact Iff.rfl

/-- A task that ends is one less under its id. -/
theorem running_ended {s : Sys} {c : Conn} {t : Task} {p : PeerId}
    (h : t.peerId? = none) :
    {d | (Function.update s.task c t d).peerId? = some p} = {d | s.Running d p} \ {c} := by
  ext d
  simp only [Set.mem_ofPred_eq, Sys.Running, Function.update_apply, Set.mem_sdiff,
    Set.mem_singleton_iff]
  split
  · rename_i heq; simp [heq, h]
  · rename_i hne; simp [hne]

/-- A step of the protocol, up to the fields it leaves alone. -/
theorem next_of_eq {v w w' : Session} (h : v.Next w') (heq : w = w') : v.Next w ∨ w = v :=
  .inl (heq ▸ h)

/-- What tendermint takes from its inbox, it takes in the protocol. -/
theorem view_tmReceive {s s' : Sys} {p : PeerId} (hctl : s.dispCtl = .running)
    (hs : Step s .tmReceive s') : (view p s).Next (view p s') ∨ view p s' = view p s := by
  have hdisp : ∀ {α : Type} (l ms : List α), s.dispCtl.deliver l ms = l ++ ms := by
    simp [hctl, DispCtl.deliver]
  cases hs with
  | @tmReceive m rest _ hin =>
      obtain ⟨m, o⟩ := m
      cases m with
      | fromPeer m =>
          cases m with
          | hello q =>
              by_cases hqp : q = p
              · refine next_of_eq (@Session.Next.takeGreeting _ (rest.filterMap (upNote p)) ?_)
                  (Session.ext rfl rfl rfl ?_ rfl)
                · simp [view, hin, upNote, hqp]
                · simp [view, Tendermint.run, hdisp, downNote, hqp]
              · refine .inr (Session.ext rfl rfl ?_ ?_ rfl)
                · simp [view, hin, upNote, hqp]
                · simp [view, Tendermint.run, hdisp, downNote, hqp]
          | addressBookRequest q =>
              by_cases hqp : q = p
              · refine next_of_eq (@Session.Next.takeRequest _ o (rest.filterMap (upNote p)) ?_)
                  (Session.ext rfl rfl rfl ?_ rfl)
                · simp [view, hin, upNote, hqp]
                · simp [view, Tendermint.run, hdisp, downNote, hqp]
              · refine .inr (Session.ext rfl rfl ?_ ?_ rfl)
                · simp [view, hin, upNote, hqp]
                · simp [view, Tendermint.run, hdisp, downNote, hqp]
          | addressBookResponse peers =>
              refine .inr (Session.ext rfl rfl ?_ ?_ rfl)
              · simp [view, hin, List.filterMap_cons, upNote]
              · simp [view, Tendermint.run, hdisp]
      | peerConnected q =>
          by_cases hqp : q = p
          · refine next_of_eq (@Session.Next.takeConnected _ (rest.filterMap (upNote p)) ?_)
              (Session.ext rfl ?_ rfl ?_ rfl)
            · simp [view, hin, upNote, hqp]
            · simp [view, Tendermint.run, Finmap.mem_insert, hqp]
            · simp [view, Tendermint.run, hdisp]
          · refine .inr (Session.ext rfl ?_ ?_ ?_ rfl)
            · simp [view, Tendermint.run, Finmap.mem_insert, Ne.symm hqp]
            · simp [view, hin, upNote, hqp]
            · simp [view, Tendermint.run, hdisp]
      | peerDisconnected q =>
          by_cases hqp : q = p
          · refine next_of_eq (@Session.Next.takeDisconnected _ (rest.filterMap (upNote p)) ?_)
              (Session.ext rfl ?_ rfl ?_ rfl)
            · simp [view, hin, upNote, hqp]
            · simp [view, Tendermint.run, hqp]
            · simp [view, Tendermint.run, hdisp, downNote, hqp]
          · refine .inr (Session.ext rfl ?_ ?_ ?_ rfl)
            · simp [view, Tendermint.run, Finmap.mem_erase, Ne.symm hqp]
            · simp [view, hin, upNote, hqp]
            · simp [view, Tendermint.run, hdisp, downNote, hqp]

/-- What the dispatcher takes from its inbox, it takes in the protocol. -/
theorem view_dispatch {s s' : Sys} {p : PeerId} (ho : Owned s) (hserv : Serving s)
    (hctl' : s'.dispCtl = .running) (hg : KeepsOrder p s .dispatch) (hs : Step s .dispatch s') :
    (view p s).Next (view p s') ∨ view p s' = view p s := by
  have htm : ∀ {α : Type} (l ms : List α), s.tmCtl.deliver l ms = l ++ ms := by
    rcases hserv.tendermint with h | ⟨h, -⟩ <;> simp [h, TmCtl.deliver]
  cases hs with
  | @dispatchHandshake c _ _ _ _ hin =>
      have hq := ho.queued c (by simp [hin, DispatcherMsg.encoder?])
      refine .inr (Session.ext rfl rfl rfl ?_ (running_update (by simp [hq])))
      simp [view, hin, List.filterMap_cons, downNote]
  | dispatchPanic => cases hctl'
  | dispatchExit => cases hctl'
  | @dispatchSend q m o rest c _ hin | @dispatchLost q m o rest c _ hin =>
      by_cases hqp : q = p
      · refine .inl ?_
        cases m with
        | addressBookResponse peers =>
            exact Session.Next.deliver (v := view p s) (n := .reply o)
              (by simp [view, hin, downNote, hqp]) (by simp)
        | hello _ | addressBookRequest _ =>
            exact Session.Next.deliver (v := view p s) (n := .other)
              (by simp [view, hin, downNote, hqp]) (by simp)
      · refine .inr (Session.ext rfl rfl rfl ?_ rfl)
        cases m <;> simp [view, hin, downNote, hqp]
  | @dispatchDisconnected q o rest _ hin =>
      by_cases hqp : q = p
      · subst hqp
        refine next_of_eq (@Session.Next.remove _ (rest.filterMap (downNote q)) ?_)
          (Session.ext ?_ rfl rfl rfl rfl)
        · simp [view, hin, downNote]
        · simp [view]
      · refine .inr (Session.ext ?_ rfl rfl ?_ rfl)
        · simp [view, Finmap.lookup_erase_ne (Ne.symm hqp)]
        · simp [view, hin, downNote, hqp]
  | @dispatchCompleted c q o rest _ hin =>
      have hq := ho.queued c (by simp [hin, DispatcherMsg.encoder?])
      have hdown : s.dispInbox.filterMap (downNote p) = rest.filterMap (downNote p) := by
        simp [hin, List.filterMap_cons, downNote]
      by_cases hqp : q = p
      · subst hqp
        have hidle := (hg.1 (q, c) (by simp [Sys.registering, hin]) rfl).view ho
        refine next_of_eq (.register c hidle) (Session.ext ?_ rfl ?_ hdown.symm ?_)
        · simp [view]
        · simp [view, htm, upNote]
        · have hlive := hidle.live
          ext d
          have hd : ¬s.Running d q := fun hd => Set.notMem_empty d (hlive ▸ hd)
          simp only [view, Set.mem_ofPred_eq, Sys.Running, Function.update_apply,
            Set.mem_singleton_iff] at hd ⊢
          split <;> simp_all
      · refine .inr (Session.ext ?_ rfl ?_ hdown.symm ?_)
        · simp [view, Finmap.lookup_insert_of_ne _ (Ne.symm hqp)]
        · simp [view, htm, upNote, hqp]
        · ext d
          simp only [view, Set.mem_ofPred_eq, Sys.Running, Function.update_apply]
          split <;> simp_all

/-- **Simulation.** While the dispatcher serves, a step that keeps the
order of `p` is a step of the protocol of `p`, or none. -/
theorem view_step {s s' : Sys} {a : Act} {p : PeerId} (ho : Owned s) (hserv : Serving s)
    (hctl' : s'.dispCtl = .running) (hg : KeepsOrder p s a) (hs : Step s a s') :
    (view p s).Next (view p s') ∨ view p s' = view p s := by
  have hctl := hs.dispRunning hctl'
  have htm : ∀ {α : Type} (l ms : List α), s.tmCtl.deliver l ms = l ++ ms := by
    rcases hserv.tendermint with h | ⟨h, -⟩ <;> simp [h, TmCtl.deliver]
  have hdisp : ∀ {α : Type} (l ms : List α), s.dispCtl.deliver l ms = l ++ ms := by
    simp [hctl, DispCtl.deliver]
  by_cases ha : a = .dispatch
  · subst ha
    exact view_dispatch ho hserv hctl' hg hs
  cases hs with
  | accept =>
      refine .inr (Session.ext rfl rfl rfl ?_ (running_update ?_))
      · simp [view, hdisp, downNote]
      · simp [hctl, ho.fresh]
  | dispatchHandshake | dispatchPanic | dispatchSend | dispatchLost | dispatchDisconnected
  | dispatchCompleted | dispatchExit => exact absurd rfl ha
  | tick =>
      by_cases hp : p ∈ s.tendermint.addrBook
      · refine next_of_eq (.tick hp) (Session.ext rfl rfl rfl ?_ rfl)
        simp only [view, Sys.toDispatcher, hdisp, List.filterMap_append, tick_notes, if_pos hp]
      · refine .inr (Session.ext rfl rfl rfl ?_ rfl)
        simp only [view, Sys.toDispatcher, hdisp, List.filterMap_append, tick_notes, if_neg hp,
          List.append_nil]
  | tmReceive hrun hin => exact view_tmReceive hctl (.tmReceive hrun hin)
  | tmExit =>
      refine .inr (Session.ext rfl rfl rfl ?_ rfl)
      simp [view, hdisp, downNote]
  | tmConfirmed | tmUnconfirmed | tmDisconnected | abciReply | helloSkipped
  | frameSkipped => exact .inr rfl
  | helloSent htask | helloUnsent htask | helloFailed htask | sent htask
  | command htask =>
      exact .inr (Session.ext rfl rfl rfl rfl (running_update (by simp [htask])))
  | helloRead htask =>
      refine .inr (Session.ext rfl rfl rfl ?_ (running_update (by simp [hctl, htask])))
      simp [view, hdisp, downNote]
  | @commandClosed c q htask | @unsent c q _ htask =>
      by_cases hqp : q = p
      · refine next_of_eq (.fail (c := c) ?_) (Session.ext rfl rfl rfl rfl (running_ended rfl))
        simp [view, Sys.Running, htask, hqp]
      · refine .inr (Session.ext rfl rfl rfl rfl ((running_ended rfl).trans ?_))
        refine Set.sdiff_singleton_eq_self ?_
        simp [Sys.Running, htask, hqp]
  | @request c q id htask =>
      by_cases hid : id = p
      · have hrun := hg.2 (c, id) rfl hid
        refine next_of_eq (.request (c := c) hrun) (Session.ext rfl rfl ?_ rfl rfl)
        simp [view, htm, upNote, hid]
      · refine .inr (Session.ext rfl rfl ?_ rfl rfl)
        simp [view, htm, upNote, hid]
  | @remoteGone c q f htask =>
      by_cases hqp : q = p
      · refine next_of_eq (.drop (c := c) ?_) (Session.ext rfl rfl ?_ rfl (running_ended rfl))
        · simp [view, Sys.Running, htask, hqp]
        · simp [view, htm, upNote, hqp]
      · refine .inr (Session.ext rfl rfl ?_ rfl ((running_ended rfl).trans ?_))
        · simp [view, htm, upNote, hqp]
        · refine Set.sdiff_singleton_eq_self ?_
          simp [Sys.Running, htask, hqp]

/-- **Every id stays orderly** in the runs that keep its order, for as long
as the dispatcher runs. -/
theorem orderly_run {seedNode p : PeerId} {as : List Act} {s : Sys}
    (h : (node seedNode).Run (KeepsOrder p) as s) (hctl : s.dispCtl = .running) :
    (view p s).Orderly := by
  refine ((h.strengthen fun _ _ h => owned_run h).invariant
    (fun s => s.dispCtl = .running → Serving s ∧ (view p s).Orderly) ?_ ?_ hctl).2
  · intro _
    have hview : view p (node seedNode).init = ⟨none, False, [], [], ∅⟩ :=
      Session.ext rfl (eq_false Finmap.notMem_empty) rfl rfl
        (Set.eq_empty_of_forall_notMem fun c hc => by cases hc)
    exact ⟨⟨rfl, .inl rfl⟩, hview ▸ Session.orderly_empty⟩
  · rintro s a s' ih ⟨hg, ho⟩ hs hctl'
    have hs := step_sound hs
    have hctl := hs.dispRunning hctl'
    obtain ⟨hserv, hord⟩ := ih hctl
    refine ⟨serving_step hserv hctl hctl' hs, ?_⟩
    rcases view_step ho hserv hctl' hg hs with hnext | heq
    · exact hord.next hnext
    · exact heq ▸ hord

theorem dispatch_running {s s' : Sys} (hs : Step s .dispatch s') :
    s.dispCtl = .running := by
  cases hs <;> assumption

/-- A message for a connected peer does not stop the dispatcher. -/
theorem dispatch_toPeer_running {s s' : Sys} {p : PeerId} {m : PeerMessage}
    {o : Option Conn} {rest : List (Tagged DispatcherMsg)}
    (hin : s.dispInbox = ⟨.toPeer p m, o⟩ :: rest)
    (hconn : p ∈ s.dispatcher.connectedPeers) (hs : Step s .dispatch s') :
    s'.dispCtl = .running := by
  cases hs with
  | dispatchPanic _ hin' hnone =>
      rw [hin, List.cons.injEq, Tagged.mk.injEq, DispatcherMsg.toPeer.injEq] at hin'
      obtain ⟨⟨⟨rfl, -⟩, -⟩, -⟩ := hin'
      exact absurd hconn (Finmap.lookup_eq_none.mp hnone)
  | dispatchExit _ hin' => rw [hin] at hin'; cases hin'
  | _ => assumption

end Mt

end Reactor
