import Reactor.MtSession

/-!
# What a connection tells tendermint

A connection speaks to tendermint through three tasks in turn: its
handshake task hands it to the dispatcher, the dispatcher announces it, and
its per-peer task passes on requests and, at the end, the disconnect
notice. They share their queues with all other connections.

`Phase` is the protocol of one connection, `Phase.Next` its steps with the
frame read and the messages sent in each, and `Phase.Told` what has been
sent at each phase as a function of the frames read. `phase_step` is the
connection to the node, and **`session_trace`** the result: what enters
tendermint's inbox from one connection is a well formed session.
-/

namespace Reactor

namespace Mt

open Reactor.System (Any)

/-! ## Frames and messages -/

/-- The request in a frame that is passed on to tendermint. -/
def Frame.request? : Frame → Option PeerMessage
  | .msg (.addressBookRequest id) => some (.addressBookRequest id)
  | _ => none

def Frame.isHello : Frame → Bool
  | .msg (.hello _) => true
  | _ => false

/-- The frame a step reads on `c`. -/
def Act.frameOn (c : Conn) : Act → Option Frame
  | .helloRead d f | .frame d f => if d = c then some f else none
  | _ => none

/-- The frames read on `c`, oldest first. -/
def framesOn (c : Conn) (as : List Act) : List Frame := as.filterMap (Act.frameOn c)

/-- What a step sends to tendermint. -/
def Sys.tells (s : Sys) : Act → List (Tagged FromDispatcherMsg)
  | .dispatch =>
      match s.dispCtl, s.dispInbox with
      | .running, ⟨.handshakeCompleted _ p, o⟩ :: _ => [⟨.peerConnected p, o⟩]
      | _, _ => []
  | .frame c f =>
      match s.task c, f with
      | .peer _, .msg (.addressBookRequest id) =>
          [⟨.fromPeer (.addressBookRequest id), some c⟩]
      | .peer _, .msg _ => []
      | .peer p, _ => [⟨.peerDisconnected p, some c⟩]
      | _, _ => []
  | _ => []

/-- What of it enters tendermint's inbox. -/
def Sys.enters (s : Sys) (a : Act) : List (Tagged FromDispatcherMsg) :=
  s.tmCtl.deliver [] (s.tells a)

/-- Everything ever sent to tendermint, and all that ever entered its
inbox, oldest first. -/
def toldIn (seedNode : PeerId) (as : List Act) : List (Tagged FromDispatcherMsg) :=
  (node seedNode).outputs Sys.tells (init seedNode) as

def enteredIn (seedNode : PeerId) (as : List Act) : List (Tagged FromDispatcherMsg) :=
  (node seedNode).outputs Sys.enters (init seedNode) as

/-- The messages that originate from `c`. -/
def fromConn (c : Conn) (ms : List (Tagged FromDispatcherMsg)) : List FromDispatcherMsg :=
  (ms.filter (·.origin = some c)).map (·.msg)

@[simp] theorem fromConn_nil (c : Conn) : fromConn c [] = [] := rfl

@[simp] theorem fromConn_append (c : Conn) (l l' : List (Tagged FromDispatcherMsg)) :
    fromConn c (l ++ l') = fromConn c l ++ fromConn c l' := by
  simp [fromConn]

@[simp] theorem fromConn_self (c : Conn) (m : FromDispatcherMsg) :
    fromConn c [⟨m, some c⟩] = [m] := by
  simp [fromConn]

theorem fromConn_other {c d : Conn} (h : d ≠ c) (m : FromDispatcherMsg) :
    fromConn c [⟨m, some d⟩] = [] := by
  simp [fromConn, h]

theorem TmCtl.deliver_eq (ctl : TmCtl) {α : Type} (l ms : List α) :
    ctl.deliver l ms = l ++ ctl.deliver [] ms := by
  cases ctl <;> simp [TmCtl.deliver]

/-- A step takes the first message out of tendermint's inbox, or appends
what enters. -/
theorem Step.tmInbox {s s' : Sys} {a : Act} (hs : Step s a s') :
    a = .tmReceive ∧ s.enters a = [] ∧ (∃ m, s.tmInbox = m :: s'.tmInbox) ∨
      a ≠ .tmReceive ∧ s'.tmInbox = s.tmInbox ++ s.enters a := by
  have hnil : s.tells a = [] → s.enters a = [] := fun h => by
    cases hc : s.tmCtl <;> simp [Sys.enters, h, hc, TmCtl.deliver]
  have hquiet : s.tells a = [] → s.tmInbox = s.tmInbox ++ s.enters a := fun h => by
    rw [hnil h, List.append_nil]
  cases hs with
  | tmReceive hctl hin => exact .inl ⟨rfl, hnil rfl, _, hin⟩
  | dispatchCompleted hctl hin =>
      refine .inr ⟨by simp, (TmCtl.deliver_eq ..).trans ?_⟩
      simp [Sys.enters, Sys.tells, hctl, hin]
  | request htask =>
      refine .inr ⟨by simp, (TmCtl.deliver_eq ..).trans ?_⟩
      simp [Sys.enters, Sys.tells, htask]
  | @remoteGone c p f htask hf =>
      refine .inr ⟨by simp, (TmCtl.deliver_eq ..).trans ?_⟩
      cases f with
      | msg m => exact absurd rfl (hf m)
      | error | eof => simp [Sys.enters, Sys.tells, htask]
  | dispatchHandshake hctl hin | dispatchPanic hctl hin | dispatchSend hctl hin
  | dispatchLost hctl hin | dispatchDisconnected hctl hin | dispatchExit hctl hin =>
      exact .inr ⟨by simp, hquiet (by simp [Sys.tells, hctl, hin])⟩
  | @frameSkipped c p m htask hne =>
      refine .inr ⟨by simp, hquiet ?_⟩
      cases m with
      | addressBookRequest id => exact absurd rfl (hne id)
      | hello _ | addressBookResponse _ => simp [Sys.tells, htask]
  | _ => exact .inr ⟨by simp, hquiet rfl⟩

/-! ## The protocol of one connection -/

/-- Where a connection is: with the acceptor, on its way to its handshake
task, in that task, on its way back, in its per-peer task, or closed. -/
inductive Phase
  | absent
  | offered
  | greeting
  | awaiting
  | completed (p : PeerId)
  | serving (p : PeerId)
  | closed

namespace Phase

/-- One step: the frame read in it and the messages sent. -/
inductive Next : Phase → Option Frame → List FromDispatcherMsg → Phase → Prop
  | accept : Next .absent none [] .offered
  | spawn : Next .offered none [] .greeting
  | helloSent : Next .greeting none [] .awaiting
  | helloRead (p : PeerId) : Next .awaiting (some (.msg (.hello p))) [] (.completed p)
  | skipped {f : Frame} (hf : f.isHello = false) : Next .awaiting (some f) [] .awaiting
  | register (p : PeerId) : Next (.completed p) none [.peerConnected p] (.serving p)
  | request {p : PeerId} {f : Frame} {m : PeerMessage} (hf : f.request? = some m) :
      Next (.serving p) (some f) [.fromPeer m] (.serving p)
  | ignored {p : PeerId} {f : Frame} (hf : f.request? = none) :
      Next (.serving p) (some f) [] (.serving p)
  | disconnect {p : PeerId} {f : Frame} (hf : f.request? = none) :
      Next (.serving p) (some f) [.peerDisconnected p] .closed
  | giveUp (f : Frame) : Next .awaiting (some f) [] .closed
  | close (ph : Phase) : Next ph none [] .closed
  | stay (ph : Phase) : Next ph none [] ph

/-- The frames `after` the first `Hello`, which names `p`. -/
def Introduced (frames : List Frame) (p : PeerId) (after : List Frame) : Prop :=
  ∃ before, frames = before ++ .msg (.hello p) :: after ∧ ∀ f ∈ before, f.isHello = false

theorem Introduced.snoc {frames after : List Frame} {p : PeerId}
    (h : Introduced frames p after) (f : Frame) :
    Introduced (frames ++ [f]) p (after ++ [f]) := by
  obtain ⟨before, rfl, hbefore⟩ := h
  exact ⟨before, by simp, hbefore⟩

/-- What a connection has sent, as a function of the frames read on it. -/
def Told (frames : List Frame) (sent : List FromDispatcherMsg) : Phase → Prop
  | .absent | .offered | .greeting => frames = [] ∧ sent = []
  | .awaiting => (∀ f ∈ frames, f.isHello = false) ∧ sent = []
  | .completed p => Introduced frames p [] ∧ sent = []
  | .serving p => ∃ after, Introduced frames p after ∧
      sent = .peerConnected p :: (after.filterMap Frame.request?).map .fromPeer
  | .closed => sent = [] ∨ ∃ p after gone, Introduced frames p after ∧
      sent = .peerConnected p :: (after.filterMap Frame.request?).map .fromPeer ++ gone ∧
      (gone = [] ∨ gone = [.peerDisconnected p])

/-- **The protocol keeps the account.** -/
theorem Told.next {frames : List Frame} {sent ms : List FromDispatcherMsg} {ph ph' : Phase}
    {f : Option Frame} (h : ph.Told frames sent) (hn : Next ph f ms ph') :
    ph'.Told (frames ++ f.toList) (sent ++ ms) := by
  cases hn with
  | accept | spawn => simpa [Told] using h
  | helloSent =>
      obtain ⟨rfl, rfl⟩ := h
      exact ⟨by simp, rfl⟩
  | helloRead p =>
      obtain ⟨hno, rfl⟩ := h
      exact ⟨⟨frames, rfl, hno⟩, rfl⟩
  | @skipped f hf =>
      obtain ⟨hno, rfl⟩ := h
      refine ⟨fun g hg => ?_, rfl⟩
      rcases List.mem_append.mp hg with hg | hg
      · exact hno g hg
      · obtain rfl : g = f := by simpa using hg
        exact hf
  | register p =>
      obtain ⟨hintro, rfl⟩ := h
      exact ⟨[], by simpa using hintro, rfl⟩
  | @request p f m hf =>
      obtain ⟨after, hintro, rfl⟩ := h
      exact ⟨after ++ [f], hintro.snoc f, by simp [hf]⟩
  | @ignored p f hf =>
      obtain ⟨after, hintro, rfl⟩ := h
      exact ⟨after ++ [f], hintro.snoc f, by simp [hf]⟩
  | @disconnect p f hf =>
      obtain ⟨after, hintro, rfl⟩ := h
      exact .inr ⟨p, after ++ [f], [.peerDisconnected p], hintro.snoc f, by simp [hf], .inr rfl⟩
  | giveUp f =>
      obtain ⟨-, rfl⟩ := h
      exact .inl rfl
  | close =>
      simp only [Option.toList_none, List.append_nil]
      cases ph with
      | absent | offered | greeting | awaiting | completed p => exact .inl h.2
      | serving p =>
          obtain ⟨after, hintro, rfl⟩ := h
          exact .inr ⟨p, after, [], hintro, by simp, .inl rfl⟩
      | closed => exact h
  | stay => simpa using h

end Phase

/-! ## The node follows it -/

/-- The id under which a message brings `c` back to the dispatcher. -/
def completedAs (c : Conn) (m : Tagged DispatcherMsg) : Option PeerId :=
  match m.msg with
  | .handshakeCompleted d p => if d = c then some p else none
  | _ => none

theorem completedAs_eq_none {c : Conn} {m : Tagged DispatcherMsg}
    (h : m.msg.encoder? ≠ some c) : completedAs c m = none := by
  obtain ⟨m, o⟩ := m
  cases m <;> simp_all [completedAs, DispatcherMsg.encoder?]

/-- A connection that is not queued is in no message. -/
theorem completedAs_eq_none_of_carried {c : Conn} {l : List (Tagged DispatcherMsg)}
    (h : c ∉ carried l) : l.findSome? (completedAs c) = none := by
  refine List.findSome?_eq_none_iff.mpr fun m hm => completedAs_eq_none fun hc => h ?_
  exact List.mem_filterMap.mpr ⟨m, hm, hc⟩

def Sys.phase (s : Sys) (c : Conn) : Phase :=
  match s.task c with
  | .absent => .absent
  | .queued =>
      match s.dispInbox.findSome? (completedAs c) with
      | some p => .completed p
      | none => .offered
  | .sayHello _ => .greeting
  | .awaitHello => .awaiting
  | .peer p | .peerSend p _ => .serving p
  | .ended _ => .closed

/-- The phase is that of the task, and of the message that carries `c`. -/
theorem phase_congr {s s' : Sys} {c : Conn} (htask : s'.task c = s.task c)
    (hin : s'.dispInbox.findSome? (completedAs c) = s.dispInbox.findSome? (completedAs c)) :
    s'.phase c = s.phase c := by
  simp only [Sys.phase, htask, hin]

theorem findSome_deliver {c : Conn} {ctl : DispCtl} {l ms : List (Tagged DispatcherMsg)}
    (h : ∀ m ∈ ms, m.msg.encoder? ≠ some c) :
    (ctl.deliver l ms).findSome? (completedAs c) = l.findSome? (completedAs c) := by
  have hms : ms.findSome? (completedAs c) = none :=
    List.findSome?_eq_none_iff.mpr fun m hm => completedAs_eq_none (h m hm)
  cases ctl <;> simp [DispCtl.deliver, List.findSome?_append, hms]

/-- What a message in the dispatcher's inbox that carries a connection says. -/
structure Marked (seedNode : PeerId) (s : Sys) : Prop where
  own : s.tendermint.seedNode = seedNode
  origin : ∀ m ∈ s.dispInbox, ∀ c, m.msg.encoder? = some c → m.origin = some c
  offered : ∀ m ∈ s.dispInbox, ∀ c id, m.msg = .peerHandshake c id → id = seedNode
  greeting : ∀ c id, s.task c = .sayHello id → id = seedNode

/-- A message that carries a connection was in the dispatcher's inbox, or
is put there by the acceptor or a handshake task. -/
theorem Step.handsOver {s s' : Sys} {a : Act} (hs : Step s a s') {m : Tagged DispatcherMsg}
    (hm : m ∈ s'.dispInbox) {c : Conn} (hc : m.msg.encoder? = some c) :
    m ∈ s.dispInbox ∨ m.origin = some c ∧
      (m.msg = .peerHandshake c s.tendermint.seedNode ∨ ∃ p, m.msg = .handshakeCompleted c p) := by
  refine (hs.mem_dispInbox hm).imp_right fun hsends => ?_
  cases hsends with
  | offers =>
      obtain rfl := Option.some.inj hc
      exact ⟨rfl, .inl rfl⟩
  | completes =>
      obtain rfl := Option.some.inj hc
      exact ⟨rfl, .inr ⟨_, rfl⟩⟩
  | asks | answers | passesOn | exits => cases hc

theorem Tendermint.run_seedNode (t : Tendermint) (m : FromDispatcherMsg) :
    (t.run m).1.seedNode = t.seedNode := by
  cases m with
  | fromPeer m => cases m <;> rfl
  | peerConnected p => rfl
  | peerDisconnected p => rfl

/-- A task that says hello does so with the id its message brought. -/
theorem Step.saysHello {s s' : Sys} {a : Act} (hs : Step s a s') {c : Conn} {id : PeerId}
    (h : s'.task c = .sayHello id) :
    s.task c = .sayHello id ∨ ∃ m ∈ s.dispInbox, m.msg = .peerHandshake c id := by
  cases hs with
  | @dispatchHandshake d myId o rest _ hin =>
      simp only [Sys.setTask, Function.update_apply] at h
      split at h
      · rename_i heq
        obtain rfl := Task.sayHello.inj h
        exact .inr ⟨_, hin ▸ List.mem_cons_self, by rw [heq]⟩
      · exact .inl h
  | accept | helloRead =>
      simp only [Sys.handOver, Function.update_apply] at h
      split at h
      · cases hctl : s.dispCtl <;> simp [hctl] at h
      · exact .inl h
  | dispatchPanic | dispatchExit =>
      simp only [Sys.endDispatcher] at h
      split at h
      · cases h
      · exact .inl h
  | dispatchCompleted | helloSent | helloUnsent | helloFailed | command | commandClosed | sent
  | unsent | remoteGone =>
      simp only [Sys.setTask, Sys.endTask, Function.update_apply] at h
      split at h
      · cases h
      · exact .inl h
  | _ => exact .inl h

theorem marked_step {seedNode : PeerId} {s s' : Sys} {a : Act} (h : Marked seedNode s)
    (hs : Step s a s') : Marked seedNode s' where
  own := by
    cases hs with
    | tmReceive => exact (Tendermint.run_seedNode ..).trans h.own
    | _ => exact h.own
  origin m hm c hc := by
    rcases hs.handsOver hm hc with hm | ⟨horigin, -⟩
    · exact h.origin m hm c hc
    · exact horigin
  offered m hm c id hid := by
    rcases hs.handsOver hm (c := c) (by rw [hid]; rfl) with hm | ⟨-, hnew | ⟨p, hnew⟩⟩
    · exact h.offered m hm c id hid
    · rw [hid] at hnew
      rw [(DispatcherMsg.peerHandshake.inj hnew).2, h.own]
    · rw [hid] at hnew; cases hnew
  greeting c id htask := by
    rcases hs.saysHello htask with htask | ⟨m, hm, hmsg⟩
    · exact h.greeting c id htask
    · exact h.offered m hm c id hmsg

theorem marked_run {seedNode : PeerId} {G : Sys → Act → Prop} {as : List Act} {s : Sys}
    (h : (node seedNode).Run G as s) : Marked seedNode s := by
  refine h.invariant (Marked seedNode) ⟨rfl, ?_, ?_, ?_⟩
    fun _ _ _ hi _ hs => marked_step hi (step_sound hs)
  · intro m hm; cases hm
  · intro m hm; cases hm
  · intro c id htask; cases htask

/-- The connection whose task, or whose message, a step is about. -/
def Sys.concerns (s : Sys) : Act → Option Conn
  | .accept => some s.nextConn
  | .dispatch =>
      match s.dispInbox with
      | m :: _ => m.msg.encoder?
      | [] => none
  | .helloSent c _ | .helloRead c _ | .command c | .sent c _ | .frame c _ => some c
  | _ => none

section

variable {s s' : Sys} {a : Act} {c : Conn}

theorem frameOn_elsewhere (h : s.concerns a ≠ some c) : a.frameOn c = none := by
  cases a <;> simp_all [Sys.concerns, Act.frameOn]

theorem tells_elsewhere {seedNode : PeerId} (hm : Marked seedNode s)
    (h : s.concerns a ≠ some c) : fromConn c (s.tells a) = [] := by
  unfold Sys.tells
  split
  · split
    · next d p o rest hctl hin =>
        have horigin : o = some d := hm.origin _ (hin ▸ List.mem_cons_self) d rfl
        subst horigin
        have hd : d ≠ c := fun hd => h (by simp [Sys.concerns, hin, DispatcherMsg.encoder?, hd])
        exact fromConn_other hd _
    · rfl
  · next d f =>
      have hd : d ≠ c := fun hd => h (congrArg some hd)
      split
      · exact fromConn_other hd _
      · rfl
      · exact fromConn_other hd _
      · rfl
  · rfl

/-- A step that is about another connection, or none, leaves the phase as it
is; only with the dispatcher a connection is closed that it had yet to
take. -/
theorem Step.phase_elsewhere (hs : Step s a s') (h : s.concerns a ≠ some c) :
    s'.phase c = s.phase c ∨ s'.phase c = .closed := by
  cases hs with
  | accept =>
      have hc : c ≠ s.nextConn := fun hc => h (congrArg some hc.symm)
      refine .inl (phase_congr (by simp [hc]) (findSome_deliver fun m hm heq => ?_))
      obtain rfl := List.mem_singleton.mp hm
      exact hc (Option.some.inj heq).symm
  | @dispatchHandshake d myId o rest hctl hin =>
      have hc : c ≠ d := fun hc => h (by simp [Sys.concerns, hin, DispatcherMsg.encoder?, hc])
      refine .inl (phase_congr (by simp [hc]) ?_)
      simp [hin, List.findSome?_cons, completedAs]
  | dispatchPanic | dispatchExit =>
      cases htask : s.task c with
      | queued => exact .inr (by simp [Sys.phase, htask])
      | _ => exact .inl (by simp [Sys.phase, htask])
  | dispatchSend hctl hin | dispatchLost hctl hin | dispatchDisconnected hctl hin =>
      exact .inl (phase_congr rfl (by simp [hin, List.findSome?_cons, completedAs]))
  | @dispatchCompleted d p o rest hctl hin =>
      have hc : d ≠ c := fun hc => h (by simp [Sys.concerns, hin, DispatcherMsg.encoder?, hc])
      refine .inl (phase_congr (by simp [Ne.symm hc]) ?_)
      simp [hin, completedAs, hc]
  | tick =>
      refine .inl (phase_congr rfl (findSome_deliver fun m hm => ?_))
      simp [Tendermint.tick_encoder? m hm]
  | tmReceive =>
      refine .inl (phase_congr rfl (findSome_deliver fun m hm => ?_))
      simp [Tendermint.run_encoder? m hm]
  | tmExit =>
      exact .inl (phase_congr rfl (findSome_deliver (by simp [DispatcherMsg.encoder?])))
  | tmConfirmed | tmUnconfirmed | tmDisconnected | abciReply | helloSkipped | request
  | frameSkipped => exact .inl rfl
  | @helloRead d p =>
      have hc : c ≠ d := fun hc => h (congrArg some hc.symm)
      refine .inl (phase_congr (by simp [hc]) (findSome_deliver fun m hm heq => ?_))
      obtain rfl := List.mem_singleton.mp hm
      exact hc (Option.some.inj heq).symm
  | @helloSent d | @helloUnsent d | @helloFailed d | @command d | @commandClosed d | @sent d
  | @unsent d | @remoteGone d =>
      have hc : c ≠ d := fun hc => h (congrArg some hc.symm)
      exact .inl (phase_congr (by simp [hc]) rfl)

/-- A step that is about the connection is one of its protocol. -/
theorem Step.phase_here {seedNode : PeerId} (ho : Owned s) (hm : Marked seedNode s)
    (hs : Step s a s') (h : s.concerns a = some c) :
    Phase.Next (s.phase c) (a.frameOn c) (fromConn c (s.tells a)) (s'.phase c) := by
  -- a step of the protocol, up to the two phases
  have next : ∀ {ph ph' f ms}, Phase.Next ph f ms ph' → s.phase c = ph → s'.phase c = ph' →
      Phase.Next (s.phase c) f ms (s'.phase c) := fun hn h h' => by rwa [h, h']
  have notCarried : s.task c ≠ .queued → s.dispInbox.findSome? (completedAs c) = none :=
    fun hne => completedAs_eq_none_of_carried fun hc => hne (ho.queued c hc)
  cases hs with
  | accept =>
      obtain rfl := Option.some.inj h
      have hfresh := ho.fresh _ le_rfl
      have hnone := notCarried (by simp [hfresh])
      have habsent : s.phase s.nextConn = .absent := by simp [Sys.phase, hfresh]
      cases hctl : s.dispCtl with
      | running =>
          refine next .accept habsent ?_
          simp [Sys.phase, hctl, DispCtl.deliver, List.findSome?_append, hnone, completedAs]
      | exited | panicked => exact next (.close _) rfl (by simp [Sys.phase, hctl])
  | @dispatchHandshake d myId o rest hctl hin =>
      obtain rfl : d = c := by simpa [Sys.concerns, hin, DispatcherMsg.encoder?] using h
      have hq := ho.queued d (by simp [hin, DispatcherMsg.encoder?])
      have honce : d ∉ carried rest := by
        have hnodup := ho.once
        simp only [hin, carried_cons, DispatcherMsg.encoder?, Option.toList_some,
          List.singleton_append, List.nodup_cons] at hnodup
        exact hnodup.1
      rw [show s.tells .dispatch = [] by simp [Sys.tells, hctl, hin]]
      refine next .spawn ?_ (by simp [Sys.phase])
      simp [Sys.phase, hq, hin, List.findSome?_cons, completedAs,
        completedAs_eq_none_of_carried honce]
  | dispatchPanic hctl hin | dispatchSend hctl hin | dispatchLost hctl hin
  | dispatchDisconnected hctl hin | dispatchExit hctl hin =>
      simp [Sys.concerns, hin, DispatcherMsg.encoder?] at h
  | @dispatchCompleted d p o rest hctl hin =>
      obtain rfl : d = c := by simpa [Sys.concerns, hin, DispatcherMsg.encoder?] using h
      obtain rfl : o = some d := hm.origin _ (hin ▸ List.mem_cons_self) d rfl
      have hq := ho.queued d (by simp [hin, DispatcherMsg.encoder?])
      have htells : s.tells .dispatch = [⟨.peerConnected p, some d⟩] := by
        simp [Sys.tells, hctl, hin]
      rw [htells, fromConn_self]
      refine next (.register p) ?_ (by simp [Sys.phase])
      simp [Sys.phase, hq, hin, completedAs]
  | tick | tmReceive | tmExit | tmConfirmed | tmUnconfirmed | tmDisconnected | abciReply =>
      cases h
  | helloSent htask =>
      obtain rfl := Option.some.inj h
      exact next .helloSent (by simp [Sys.phase, htask]) (by simp [Sys.phase])
  | helloUnsent | commandClosed | unsent =>
      obtain rfl := Option.some.inj h
      exact next (.close _) rfl (by simp [Sys.phase])
  | @helloRead d p htask =>
      obtain rfl := Option.some.inj h
      have hnone := notCarried (by simp [htask])
      have hawait : s.phase d = .awaiting := by simp [Sys.phase, htask]
      simp only [Act.frameOn, if_true]
      cases hctl : s.dispCtl with
      | running =>
          refine next (.helloRead p) hawait ?_
          simp [Sys.phase, hctl, DispCtl.deliver, List.findSome?_append, hnone, completedAs]
      | exited | panicked =>
          exact next (.giveUp _) hawait (by simp [Sys.phase, hctl])
  | @helloSkipped d m htask hne =>
      obtain rfl := Option.some.inj h
      simp only [Act.frameOn, if_true]
      refine next (.skipped ?_) (by simp [Sys.phase, htask]) (by simp [Sys.phase, htask])
      cases m with
      | hello p => exact absurd rfl (hne p)
      | addressBookRequest _ | addressBookResponse _ => rfl
  | @helloFailed d f htask =>
      obtain rfl := Option.some.inj h
      simp only [Act.frameOn, if_true]
      exact next (.giveUp f) (by simp [Sys.phase, htask]) (by simp [Sys.phase])
  | command htask | sent htask =>
      obtain rfl := Option.some.inj h
      exact next (.stay _) rfl (by simp [Sys.phase, htask])
  | @request d p id htask =>
      obtain rfl := Option.some.inj h
      have htells : s.tells (.frame d (.msg (.addressBookRequest id))) =
          [⟨.fromPeer (.addressBookRequest id), some d⟩] := by simp [Sys.tells, htask]
      rw [htells, fromConn_self]
      simp only [Act.frameOn, if_true]
      exact next (.request (p := p) rfl) (by simp [Sys.phase, htask]) (by simp [Sys.phase, htask])
  | @frameSkipped d p m htask hne =>
      obtain rfl := Option.some.inj h
      have hskip : s.tells (.frame d (.msg m)) = [] ∧ (Frame.msg m).request? = none := by
        cases m with
        | addressBookRequest id => exact absurd rfl (hne id)
        | hello _ | addressBookResponse _ => simp [Sys.tells, htask, Frame.request?]
      rw [hskip.1]
      simp only [Act.frameOn, if_true]
      exact next (.ignored (p := p) hskip.2) (by simp [Sys.phase, htask])
        (by simp [Sys.phase, htask])
  | @remoteGone d p f htask hf =>
      obtain rfl := Option.some.inj h
      have hgone : s.tells (.frame d f) = [⟨.peerDisconnected p, some d⟩] ∧
          f.request? = none := by
        cases f with
        | msg m => exact absurd rfl (hf m)
        | error | eof => simp [Sys.tells, htask, Frame.request?]
      rw [hgone.1, fromConn_self]
      simp only [Act.frameOn, if_true]
      exact next (.disconnect hgone.2) (by simp [Sys.phase, htask]) (by simp [Sys.phase])

end

/-- **Simulation.** Seen from one connection, every step of the node is a
step of its protocol. -/
theorem phase_step {seedNode : PeerId} {s s' : Sys} {a : Act} (ho : Owned s)
    (hm : Marked seedNode s) (hs : Step s a s') (c : Conn) :
    Phase.Next (s.phase c) (a.frameOn c) (fromConn c (s.tells a)) (s'.phase c) := by
  by_cases h : s.concerns a = some c
  · exact hs.phase_here ho hm h
  · rw [frameOn_elsewhere h, tells_elsewhere hm h]
    rcases hs.phase_elsewhere h with hsame | hclosed
    · exact hsame ▸ .stay _
    · exact hclosed ▸ .close _

/-- What a connection has sent is the account of the frames read on it. -/
theorem told_run {seedNode : PeerId} {G : Sys → Act → Prop} {as : List Act} {s : Sys}
    (h : (node seedNode).Run G as s) (c : Conn) :
    (s.phase c).Told (framesOn c as) (fromConn c (toldIn seedNode as)) := by
  induction h with
  | nil => exact ⟨rfl, rfl⟩
  | @snoc as s s' a h _ hs ih =>
      have htold : toldIn seedNode (as ++ [a]) = toldIn seedNode as ++ s.tells a :=
        h.outputs_snoc a
      have hframes : framesOn c (as ++ [a]) = framesOn c as ++ (a.frameOn c).toList := by
        cases hf : a.frameOn c <;> simp [framesOn, hf]
      rw [htold, hframes, fromConn_append]
      exact ih.next (phase_step (owned_run h) (marked_run h) (step_sound hs) c)

/-! ## What tendermint gets of it -/

/-- Tendermint's thread is gone. -/
def TmCtl.gone : TmCtl → Bool
  | .stopped | .panicked => true
  | _ => false

/-- Everything sent enters its inbox before that. -/
theorem Sys.enters_eq {s : Sys} (h : s.tmCtl.gone = false) (a : Act) : s.enters a = s.tells a := by
  cases hc : s.tmCtl <;> simp_all [Sys.enters, TmCtl.deliver, TmCtl.gone]

theorem Step.stays_gone {s s' : Sys} {a : Act} (hs : Step s a s')
    (h : s.tmCtl.gone = true) : s'.tmCtl.gone = true := by
  cases hs with
  | tmExit hctl | tmDisconnected hctl => rw [hctl] at h; cases h
  | tmConfirmed | tmUnconfirmed | abciReply => rfl
  | _ => exact h

/-- What entered tendermint's inbox is what was sent until its thread was
gone. -/
theorem entered_within {seedNode : PeerId} {G : Sys → Act → Prop} {as : List Act} {s : Sys}
    (h : (node seedNode).Run G as s) :
    enteredIn seedNode as <+: toldIn seedNode as ∧
      (s.tmCtl.gone = false → enteredIn seedNode as = toldIn seedNode as) := by
  induction h with
  | nil => exact ⟨List.prefix_refl _, fun _ => rfl⟩
  | @snoc as s s' a h _ hs ih =>
      have htold : toldIn seedNode (as ++ [a]) = toldIn seedNode as ++ s.tells a :=
        h.outputs_snoc a
      have hentered : enteredIn seedNode (as ++ [a]) = enteredIn seedNode as ++ s.enters a :=
        h.outputs_snoc a
      rw [htold, hentered]
      obtain ⟨hpre, heq⟩ := ih
      cases hgone : s.tmCtl.gone with
      | true =>
          have hnone : s.enters a = [] := by
            cases hc : s.tmCtl <;> simp_all [Sys.enters, TmCtl.deliver, TmCtl.gone]
          rw [hnone, List.append_nil]
          refine ⟨hpre.trans (List.prefix_append ..), fun hno => ?_⟩
          rw [(step_sound hs).stays_gone hgone] at hno
          cases hno
      | false =>
          rw [Sys.enters_eq hgone, heq hgone]
          exact ⟨List.prefix_refl _, fun _ => rfl⟩

/-! ## The node's own hello -/

/-- A connection that has announced itself, or is about to, was greeted. -/
def Phase.greeted : Phase → Bool
  | .awaiting | .completed _ | .serving _ => true
  | _ => false

/-- The wire only grows. -/
theorem Step.wire_subset {s s' : Sys} {a : Act} (hs : Step s a s') (c : Conn) :
    s.wire c ⊆ s'.wire c := by
  cases hs with
  | @helloSent d myId | @sent d p m =>
      intro m hm
      simp only [Function.update_apply]
      split
      · rename_i heq
        exact List.mem_append_left _ (heq ▸ hm)
      · exact hm
  | _ => exact fun m hm => hm

/-- Greeting ends with the `Hello` on the wire, or with the connection. -/
theorem Step.greets {s s' : Sys} {a : Act} (hs : Step s a s') (ho : Owned s) {c : Conn}
    {id : PeerId} (h : s.task c = .sayHello id) :
    (s'.phase c).greeted = false ∨ ⟨.hello id, some c⟩ ∈ s'.wire c := by
  have hsame : s'.task c = .sayHello id → (s'.phase c).greeted = false := fun h' => by
    simp [Sys.phase, h', Phase.greeted]
  cases hs with
  | @helloSent d myId htask =>
      by_cases hc : c = d
      · subst hc
        obtain rfl := Task.sayHello.inj (h.symm.trans htask)
        exact .inr (by simp)
      · exact .inl (hsame (by simp [hc, h]))
  | @helloUnsent d =>
      by_cases hc : c = d
      · subst hc
        exact .inl (by simp [Sys.phase, Phase.greeted])
      · exact .inl (hsame (by simp [hc, h]))
  | @dispatchCompleted d p o rest _ hin | @dispatchHandshake d myId o rest _ hin =>
      have hq := ho.queued d (by simp [hin, DispatcherMsg.encoder?])
      have hc : c ≠ d := fun heq => by rw [heq, hq] at h; cases h
      exact .inl (hsame (by simp [hc, h]))
  | accept =>
      have hfresh := ho.fresh s.nextConn le_rfl
      have hc : c ≠ s.nextConn := fun heq => by rw [heq, hfresh] at h; cases h
      exact .inl (hsame (by simp [hc, h]))
  | dispatchPanic | dispatchExit => exact .inl (hsame (by simp [h]))
  | @helloRead d p htask | @helloFailed d f htask | @command d _ _ _ htask
  | @commandClosed d _ htask
  | @sent d _ _ htask | @unsent d _ _ htask | @remoteGone d _ _ htask =>
      have hc : c ≠ d := fun heq => by rw [heq, htask] at h; cases h
      exact .inl (hsame (by simp [hc, h]))
  | _ => exact .inl (hsame h)

/-- Only a connection in its handshake task becomes one that was greeted. -/
theorem Phase.Next.greeted {ph ph' : Phase} {f : Option Frame} {ms : List FromDispatcherMsg}
    (hn : Phase.Next ph f ms ph') (h : ph'.greeted = true) :
    ph.greeted = true ∨ ph = .greeting := by
  cases hn <;> simp_all [Phase.greeted]

/-- Only a connection that was greeted speaks. -/
theorem Phase.Next.speaks {ph ph' : Phase} {f : Option Frame} {ms : List FromDispatcherMsg}
    (hn : Phase.Next ph f ms ph') (h : ms ≠ []) : ph.greeted = true := by
  cases hn <;> first | rfl | exact absurd rfl h

theorem greeted_run {seedNode : PeerId} {G : Sys → Act → Prop} {as : List Act} {s : Sys}
    (h : (node seedNode).Run G as s) (c : Conn)
    (hc : (s.phase c).greeted = true ∨ fromConn c (toldIn seedNode as) ≠ []) :
    ⟨.hello seedNode, some c⟩ ∈ s.wire c := by
  induction h with
  | nil =>
      rcases hc with hc | hc
      · cases hc
      · exact absurd rfl hc
  | @snoc as s s' a h _ hstep ih =>
      have hs := step_sound hstep
      have ho := owned_run h
      have hm := marked_run h
      have hnext := phase_step ho hm hs c
      have hwire : (s.phase c).greeted = true ∨ fromConn c (toldIn seedNode as) ≠ [] →
          ⟨.hello seedNode, some c⟩ ∈ s'.wire c := fun hc => hs.wire_subset c (ih hc)
      rcases hc with hc | hc
      · rcases hnext.greeted hc with hold | hgreeting
        · exact hwire (.inl hold)
        · obtain ⟨id, htask⟩ : ∃ id, s.task c = .sayHello id := by
            unfold Sys.phase at hgreeting
            split at hgreeting
            case h_2 => split at hgreeting <;> cases hgreeting
            case h_3 id htask => exact ⟨id, htask⟩
            all_goals cases hgreeting
          rcases hs.greets ho htask with hno | hwire
          · rw [hno] at hc; cases hc
          · exact hm.greeting c id htask ▸ hwire
      · have htold : toldIn seedNode (as ++ [a]) = toldIn seedNode as ++ s.tells a :=
          h.outputs_snoc a
        rw [htold, fromConn_append] at hc
        by_cases hms : fromConn c (s.tells a) = []
        · exact hwire (.inr (by simpa [hms] using hc))
        · exact hwire (.inl (hnext.speaks hms))

/-! ## What a session puts in the inbox -/

/-- A session: nothing, or one announcement, then the requests among the
first frames after the peer's `Hello`, in their order, then at most one
disconnect notice; and by then the node has said hello. -/
def SessionTrace (seedNode : PeerId) (c : Conn) (frames : List Frame)
    (wire : List (Tagged PeerMessage)) (inbox : List FromDispatcherMsg) : Prop :=
  inbox = [] ∨ ∃ before p after reqs gone,
    frames = before ++ .msg (.hello p) :: after ∧ (∀ f ∈ before, f.isHello = false) ∧
    ⟨.hello seedNode, some c⟩ ∈ wire ∧
    inbox = .peerConnected p :: reqs.map .fromPeer ++ gone ∧
    reqs <+: after.filterMap Frame.request? ∧
    (gone = [] ∨ gone = [.peerDisconnected p])

/-- What comes first in a session is one. -/
theorem prefix_session {p : PeerId} {inbox : List FromDispatcherMsg} {all : List PeerMessage}
    {gone : List FromDispatcherMsg} (hgone : gone = [] ∨ gone = [.peerDisconnected p])
    (h : inbox <+: .peerConnected p :: all.map .fromPeer ++ gone) :
    inbox = [] ∨ ∃ reqs gone', inbox = .peerConnected p :: reqs.map .fromPeer ++ gone' ∧
      reqs <+: all ∧ (gone' = [] ∨ gone' = [.peerDisconnected p]) := by
  rw [List.cons_append] at h
  rcases List.prefix_cons_iff.mp h with rfl | ⟨rest, rfl, hrest⟩
  · exact .inl rfl
  · have short : rest <+: all.map .fromPeer → ∃ reqs gone', .peerConnected p :: rest =
          .peerConnected p :: reqs.map .fromPeer ++ gone' ∧
        reqs <+: all ∧ (gone' = [] ∨ gone' = [.peerDisconnected p]) := by
      intro hrest
      obtain ⟨reqs, hreqs, rfl⟩ := List.prefix_map_iff.mp hrest
      exact ⟨reqs, [], by simp, hreqs, .inl rfl⟩
    refine .inr ?_
    rcases hgone with rfl | rfl
    · exact short (by simpa using hrest)
    · rcases List.prefix_concat_iff.mp hrest with rfl | hrest
      · exact ⟨all, [.peerDisconnected p], rfl, List.prefix_refl _, .inr rfl⟩
      · exact short hrest

/-- **Sessions are well formed.** In every run, what enters tendermint's
inbox from a connection is a session of the frames read on it. -/
theorem session_trace {seedNode : PeerId} {as : List Act} {s : Sys}
    (h : (node seedNode).Run Any as s) (c : Conn) :
    SessionTrace seedNode c (framesOn c as) (s.wire c) (fromConn c (enteredIn seedNode as)) := by
  have hpre : fromConn c (enteredIn seedNode as) <+: fromConn c (toldIn seedNode as) :=
    ((entered_within h).1.filter _).map _
  have htold := told_run h c
  have hgreeted := fun hne => greeted_run h c (.inr hne)
  generalize fromConn c (toldIn seedNode as) = told at hpre htold hgreeted
  have spoke : ∀ p after gone, Phase.Introduced (framesOn c as) p after →
      told = .peerConnected p :: (after.filterMap Frame.request?).map .fromPeer ++ gone →
      (gone = [] ∨ gone = [.peerDisconnected p]) →
      SessionTrace seedNode c (framesOn c as) (s.wire c) (fromConn c (enteredIn seedNode as)) := by
    rintro p after gone ⟨before, hframes, hbefore⟩ rfl hgone
    refine (prefix_session hgone hpre).imp_right ?_
    rintro ⟨reqs, gone', hinbox, hreqs, hgone'⟩
    exact ⟨before, p, after, reqs, gone', hframes, hbefore, hgreeted (by simp), hinbox, hreqs,
      hgone'⟩
  have silent : told = [] →
      SessionTrace seedNode c (framesOn c as) (s.wire c) (fromConn c (enteredIn seedNode as)) :=
    fun hnil => .inl (List.prefix_nil.mp (hnil ▸ hpre))
  cases hph : s.phase c with
  | absent | offered | greeting | awaiting | completed p =>
      rw [hph] at htold
      exact silent htold.2
  | serving p =>
      rw [hph] at htold
      obtain ⟨after, hintro, heq⟩ := htold
      exact spoke p after [] hintro (by simp [heq]) (.inl rfl)
  | closed =>
      rw [hph] at htold
      rcases htold with hnil | ⟨p, after, gone, hintro, heq, hgone⟩
      · exact silent hnil
      · exact spoke p after gone hintro heq hgone

/-- Two connections under one id: each one's session is its own, the
second still open. -/
theorem session_trace_shared :
    ∃ as s, (node ⟨"seed"⟩).Run Any as s ∧
      fromConn 0 (enteredIn ⟨"seed"⟩ as) = [.peerConnected ⟨"a"⟩,
        .fromPeer (.addressBookRequest ⟨"b"⟩), .peerDisconnected ⟨"a"⟩] ∧
      SessionTrace ⟨"seed"⟩ 0 (framesOn 0 as) (s.wire 0) (fromConn 0 (enteredIn ⟨"seed"⟩ as)) ∧
      SessionTrace ⟨"seed"⟩ 1 (framesOn 1 as) (s.wire 1) (fromConn 1 (enteredIn ⟨"seed"⟩ as)) := by
  let as := join 0 ⟨"a"⟩ ++ join 1 ⟨"a"⟩ ++ [.tmReceive,
    .frame 0 (.msg (.addressBookRequest ⟨"b"⟩)), .frame 1 (.msg (.hello ⟨"c"⟩)), .frame 0 .eof]
  have hrun : ((node ⟨"seed"⟩).exec Any (init ⟨"seed"⟩) as).isSome = true := by decide
  obtain ⟨s, hs⟩ := Option.isSome_iff_exists.mp hrun
  have h := System.run_iff.mpr hs
  exact ⟨as, s, h, by decide, session_trace h 0, session_trace h 1⟩

end Mt

end Reactor
