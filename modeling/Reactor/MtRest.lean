import Reactor.MtShutdown
import Reactor.MtNotices
import Reactor.Rest

/-!
# The node comes to rest

What the node does by itself (a turn of either loop on a queued message,
an await point of a task that needs no remote end) uses up messages: a
request a task has read is a message to tendermint, then the answer in the
dispatcher's inbox, then a command, then a write. `Sys.work` counts what is
still ahead of each of them, and every own move makes it smaller.

**`comes_to_rest`**: left alone, the node stops within `Sys.work` moves,
and where it stops either both loops run and every task waits for its
remote end, or the dispatcher is gone and tendermint's loop and all
per-peer tasks have ended too.
-/

namespace Reactor

namespace Mt

open Reactor.System (Any Only AtRest Settles)

/-- What the node does by itself; the rest is the remote ends, the ticker
and the ABCI side. -/
def Act.Own : Act → Prop
  | .dispatch | .tmReceive | .tmConfirmed | .tmDisconnected | .helloSent _ _ | .command _
  | .sent _ _ => True
  | _ => False

instance : DecidablePred Act.Own
  | .dispatch | .tmReceive | .tmConfirmed | .tmDisconnected | .helloSent _ _ | .command _
  | .sent _ _ => .isTrue trivial
  | .accept | .tick _ | .tmExit | .abciReply | .helloRead _ _ | .frame _ _ => .isFalse id

/-! ## The work ahead -/

def Task.work : Task → Nat
  | .sayHello _ | .peer _ => 1
  | .peerSend _ _ => 2
  | _ => 0

def DispatcherMsg.work : DispatcherMsg → Nat
  | .toPeer _ _ | .handshakeCompleted _ _ => 3
  | .peerHandshake _ _ => 2
  | .peerDisconnected _ | .exit => 1

def FromDispatcherMsg.work : FromDispatcherMsg → Nat
  | .fromPeer _ => 4
  | .peerDisconnected _ => 2
  | .peerConnected _ => 1

def TmCtl.work : TmCtl → Nat
  | .running | .awaitDispatcher => 1
  | _ => 0

/-- The own moves ahead of what waits in an inbox. -/
def inboxWork {α : Type} (work : α → Nat) : List (Tagged α) → Nat
  | [] => 0
  | m :: l => work m.msg + inboxWork work l

/-- The own moves ahead of the task of `c` and of its command channel. -/
def Sys.workOn (s : Sys) (c : Conn) : Nat := (s.task c).work + 2 * (s.cmd c).length

/-- The own moves ahead of the inboxes and of tendermint's loop. -/
def Sys.workQueued (s : Sys) : Nat :=
  inboxWork DispatcherMsg.work s.dispInbox + inboxWork FromDispatcherMsg.work s.tmInbox +
    s.tmCtl.work

def Sys.work (s : Sys) : Nat := ∑ c ∈ Finset.range s.nextConn, s.workOn c + s.workQueued

@[simp] theorem inboxWork_nil {α : Type} (work : α → Nat) : inboxWork work [] = 0 := rfl

@[simp] theorem inboxWork_cons {α : Type} (work : α → Nat) (m : Tagged α) (l) :
    inboxWork work (m :: l) = work m.msg + inboxWork work l := rfl

theorem inboxWork_append {α : Type} (work : α → Nat) (l l' : List (Tagged α)) :
    inboxWork work (l ++ l') = inboxWork work l + inboxWork work l' := by
  induction l with
  | nil => simp
  | cons m l ih => simp [ih, Nat.add_assoc]

theorem inboxWork_dispDeliver (ctl : DispCtl) (l ms : List (Tagged DispatcherMsg)) :
    inboxWork DispatcherMsg.work (ctl.deliver l ms) ≤
      inboxWork DispatcherMsg.work l + inboxWork DispatcherMsg.work ms := by
  cases ctl <;> simp [DispCtl.deliver, inboxWork_append]

theorem inboxWork_tmDeliver (ctl : TmCtl) (l ms : List (Tagged FromDispatcherMsg)) :
    inboxWork FromDispatcherMsg.work (ctl.deliver l ms) ≤
      inboxWork FromDispatcherMsg.work l + inboxWork FromDispatcherMsg.work ms := by
  cases ctl <;> simp [TmCtl.deliver, inboxWork_append]

/-- Tendermint's answer is less work than the message it answers. -/
theorem Tendermint.run_work (t : Tendermint) (m : FromDispatcherMsg) (o : Option Conn) :
    inboxWork DispatcherMsg.work ((t.run m).2.map (Tagged.mk · o)) < m.work := by
  cases m with
  | fromPeer m => cases m <;> simp [Tendermint.run, DispatcherMsg.work, FromDispatcherMsg.work]
  | peerConnected p => simp [Tendermint.run, FromDispatcherMsg.work]
  | peerDisconnected p => simp [Tendermint.run, DispatcherMsg.work, FromDispatcherMsg.work]

/-- Whatever has a task has a number the acceptor has given out. -/
theorem Owned.lt_nextConn {s : Sys} (h : Owned s) {c : Conn} (hc : s.task c ≠ .absent) :
    c < s.nextConn :=
  Nat.lt_of_not_le fun hle => hc (h.fresh c hle)

/-- Only the work on one connection and on the inboxes changes. -/
theorem Sys.work_lt {s s' : Sys} {c : Conn} (hc : c < s.nextConn) (hn : s'.nextConn = s.nextConn)
    (helse : ∀ d, d ≠ c → s'.workOn d = s.workOn d)
    (h : s'.workOn c + s'.workQueued < s.workOn c + s.workQueued) : s'.work < s.work := by
  have hsum := System.sum_share (Finset.mem_range.mpr hc) helse
  unfold work
  rw [hn]
  omega

/-- Only the work on the inboxes changes. -/
theorem Sys.work_lt_queued {s s' : Sys} (hn : s'.nextConn = s.nextConn)
    (hall : ∀ d, s'.workOn d = s.workOn d) (h : s'.workQueued < s.workQueued) :
    s'.work < s.work := by
  have hsum : ∑ c ∈ Finset.range s.nextConn, s'.workOn c =
      ∑ c ∈ Finset.range s.nextConn, s.workOn c := Finset.sum_congr rfl fun d _ => hall d
  unfold work
  rw [hn]
  omega

/-- Every own move is work done. -/
theorem Step.works {s s' : Sys} {a : Act} (hs : Step s a s') (ho : Owned s) (ha : a.Own) :
    s'.work < s.work := by
  cases hs with
  | accept | tick | tmExit | abciReply | helloRead | helloSkipped | helloFailed | request
  | frameSkipped | remoteGone => exact absurd ha id
  | @dispatchHandshake c myId o rest hctl hin =>
      have hq : s.task c = .queued := ho.queued c (by simp [hin, DispatcherMsg.encoder?])
      refine Sys.work_lt (c := c) (ho.lt_nextConn (by simp [hq])) rfl
        (fun d hd => by simp [Sys.workOn, hd]) ?_
      simp [Sys.workOn, Sys.workQueued, hin, hq, Task.work, DispatcherMsg.work]
      omega
  | @dispatchPanic p m o rest hctl hin hnone =>
      refine Sys.work_lt_queued rfl (fun d => ?_) ?_
      · simp only [Sys.workOn, Sys.endDispatcher]
        split <;> simp_all [Task.work]
      · simp [Sys.workQueued, hin, DispatcherMsg.work]
  | @dispatchSend p m o rest c hctl hin hsome hrun hroom =>
      refine Sys.work_lt (c := c) (ho.lt_nextConn fun hno => by simp [hno] at hrun) rfl
        (fun d hd => by simp [Sys.workOn, hd]) ?_
      simp [Sys.workOn, Sys.workQueued, hin, hroom, DispatcherMsg.work]
      omega
  | @dispatchLost p m o rest c hctl hin =>
      refine Sys.work_lt_queued rfl (fun _ => rfl) ?_
      simp [Sys.workQueued, hin, DispatcherMsg.work]
  | dispatchDisconnected hctl hin =>
      refine Sys.work_lt_queued rfl (fun _ => rfl) ?_
      simp [Sys.workQueued, hin, DispatcherMsg.work]
  | @dispatchCompleted c p o rest hctl hin =>
      have hq : s.task c = .queued := ho.queued c (by simp [hin, DispatcherMsg.encoder?])
      refine Sys.work_lt (c := c) (ho.lt_nextConn (by simp [hq])) rfl
        (fun d hd => by simp [Sys.workOn, hd]) ?_
      have hdeliver := inboxWork_tmDeliver s.tmCtl s.tmInbox [⟨.peerConnected p, o⟩]
      simp [Sys.workOn, Sys.workQueued, hin, hq, Task.work, DispatcherMsg.work,
        FromDispatcherMsg.work] at hdeliver ⊢
      omega
  | dispatchExit hctl hin =>
      refine Sys.work_lt_queued rfl (fun d => ?_) ?_
      · simp only [Sys.workOn, Sys.endDispatcher]
        split <;> simp_all [Task.work]
      · simp [Sys.workQueued, hin, DispatcherMsg.work]
  | @tmReceive m rest hctl hin =>
      refine Sys.work_lt_queued rfl (fun _ => rfl) ?_
      have hanswer := s.tendermint.run_work m.msg m.origin
      have hdeliver := inboxWork_dispDeliver s.dispCtl s.dispInbox
        ((s.tendermint.run m.msg).2.map (⟨·, m.origin⟩))
      simp only [Sys.workQueued, hin, inboxWork_cons]
      omega
  | tmConfirmed hctl | tmUnconfirmed hctl | tmDisconnected hctl =>
      refine Sys.work_lt_queued rfl (fun _ => rfl) ?_
      simp [Sys.workQueued, hctl, TmCtl.work]
  | @helloSent c myId htask | @helloUnsent c myId htask =>
      refine Sys.work_lt (c := c) (ho.lt_nextConn (by simp [htask])) rfl
        (fun d hd => by simp [Sys.workOn, hd]) ?_
      simp [Sys.workOn, Sys.workQueued, htask, Task.work]
  | @command c p m rest htask hcmd =>
      refine Sys.work_lt (c := c) (ho.lt_nextConn (by simp [htask])) rfl
        (fun d hd => by simp [Sys.workOn, hd]) ?_
      simp [Sys.workOn, Sys.workQueued, htask, hcmd, Task.work]
      omega
  | @commandClosed c p htask | @sent c p m htask | @unsent c p m htask =>
      refine Sys.work_lt (c := c) (ho.lt_nextConn (by simp [htask])) rfl
        (fun d hd => by simp [Sys.workOn, hd]) ?_
      simp [Sys.workOn, Sys.workQueued, htask, Task.work]

theorem settles (seedNode : PeerId) : (node seedNode).Settles Act.Own Owned Sys.work where
  keeps _ _ _ ho _ hs := owned_step ho (step_sound hs)
  lighter _ _ _ ho ha hs := (step_sound hs).works ho ha

/-! ## What is kept until there is no work left -/

/-- A queued connection is in the dispatcher's inbox, and a dispatcher that
has ended leaves no message and no sender behind. -/
structure Tidy (s : Sys) : Prop where
  queued : ∀ c, s.task c = .queued → c ∈ carried s.dispInbox
  inbox : s.dispCtl ≠ .running → s.dispInbox = []
  senders : s.dispCtl ≠ .running → s.dispatcher.connectedPeers = ∅

/-- A connection enters the queue with the message that carries it. -/
theorem Step.queues {s s' : Sys} {a : Act} (hs : Step s a s')
    (h : ∀ c, s.task c = .queued → c ∈ carried s.dispInbox) {c : Conn}
    (hc : s'.task c = .queued) : c ∈ carried s'.dispInbox := by
  have more : ∀ {ctl : DispCtl} {ms : List (Tagged DispatcherMsg)},
      c ∈ carried s.dispInbox → c ∈ carried (ctl.deliver s.dispInbox ms) := by
    intro ctl ms hold
    cases ctl <;> simp [DispCtl.deliver, hold]
  cases hs with
  | accept | helloRead =>
      simp only [Sys.handOver, Function.update_apply] at hc ⊢
      split at hc
      · rename_i heq
        cases hctl : s.dispCtl <;> simp [hctl] at hc
        simp [DispCtl.deliver, DispatcherMsg.encoder?, heq]
      · exact more (h c hc)
  | dispatchHandshake _ hin | dispatchCompleted _ hin =>
      simp only [Sys.setTask, Function.update_apply] at hc
      split at hc
      · cases hc
      · rename_i hne
        simpa [hin, DispatcherMsg.encoder?, hne] using h c hc
  | dispatchSend _ hin | dispatchLost _ hin | dispatchDisconnected _ hin =>
      simpa [hin, DispatcherMsg.encoder?] using h c hc
  | dispatchPanic | dispatchExit =>
      simp only [Sys.endDispatcher] at hc
      split at hc
      · cases hc
      · exact absurd hc ‹_›
  | tick | tmReceive | tmExit => exact more (h c hc)
  | helloSent | helloUnsent | helloFailed | command | commandClosed | sent | unsent
  | remoteGone =>
      simp only [Sys.setTask, Sys.endTask, Function.update_apply] at hc
      split at hc
      · cases hc
      · exact h c hc
  | _ => exact h c hc

theorem tidy_step {s s' : Sys} {a : Act} (h : Tidy s) (hs : Step s a s') : Tidy s' := by
  refine ⟨fun c => hs.queues h.queued, hs.stays_dropped h.inbox, fun hctl' => ?_⟩
  cases hs with
  | dispatchPanic | dispatchExit => rfl
  | dispatchHandshake hctl | dispatchSend hctl | dispatchLost hctl
  | dispatchDisconnected hctl | dispatchCompleted hctl => exact absurd hctl hctl'
  | _ => exact h.senders hctl'

theorem tidy_run {seedNode : PeerId} {G : Sys → Act → Prop} {as : List Act} {s : Sys}
    (h : (node seedNode).Run G as s) : Tidy s :=
  h.invariant Tidy ⟨fun c hc => (by cases hc), fun _ => rfl, fun _ => rfl⟩
    fun _ _ _ hi _ hs => tidy_step hi (step_sound hs)

/-! ## At rest -/

/-- Both loops run and have nothing to read, and a task waits for the
remote end of its connection. -/
structure Sys.Waiting (s : Sys) : Prop where
  live : s.Live
  dispInbox : s.dispInbox = []
  tmInbox : s.tmInbox = []
  task : ∀ c, s.task c = .absent ∨ s.task c = .awaitHello ∨ (∃ why, s.task c = .ended why) ∨
    ∃ p, s.task c = .peer p ∧ s.cmd c = [] ∧ s.dispatcher.connectedPeers.lookup p = some c

/-- The dispatcher is gone, tendermint's loop has ended, and of the tasks
only handshakes are left. -/
structure Sys.Over (s : Sys) : Prop where
  dispatcher : s.dispCtl ≠ .running
  tendermint : s.tmCtl = .awaitAbci ∨ s.tmCtl = .stopped ∨ s.tmCtl = .panicked
  task : ∀ c, s.task c = .absent ∨ s.task c = .awaitHello ∨ ∃ why, s.task c = .ended why

theorem Sys.Waiting.atRest {seedNode : PeerId} {s : Sys} (h : s.Waiting) :
    (node seedNode).AtRest Act.Own s := by
  obtain ⟨⟨hctl, htm⟩, hin, htmin, htask⟩ := h
  intro a ha
  show step s a = none
  cases a with
  | dispatch => simp [step, Sys.dispatch, hin]
  | tmReceive => simp [step, Sys.tmReceive, htmin]
  | tmConfirmed => simp [step, htm]
  | tmDisconnected => simp [step, htm, htmin, Sys.tmSendersGone, hctl]
  | helloSent c ok | sent c ok =>
      rcases htask c with h | h | ⟨why, h⟩ | ⟨p, h, -⟩ <;> simp [step, h]
  | command c =>
      rcases htask c with h | h | ⟨why, h⟩ | ⟨p, h, hcmd, hentry⟩
      · simp [step, h]
      · simp [step, h]
      · simp [step, h]
      · simp [step, h, hcmd, hentry]
  | _ => exact absurd ha id

theorem Sys.Over.atRest {seedNode : PeerId} {s : Sys} (h : s.Over) :
    (node seedNode).AtRest Act.Own s := by
  obtain ⟨hctl, htm, htask⟩ := h
  intro a ha
  show step s a = none
  cases a with
  | dispatch => cases hc : s.dispCtl <;> simp_all [step, Sys.dispatch]
  | tmReceive => rcases htm with h | h | h <;> simp [step, Sys.tmReceive, h]
  | tmConfirmed | tmDisconnected => rcases htm with h | h | h <;> simp [step, h]
  | helloSent c ok | sent c ok | command c =>
      rcases htask c with h | h | ⟨why, h⟩ <;> simp [step, h]
  | _ => exact absurd ha id

end Mt

end Reactor
