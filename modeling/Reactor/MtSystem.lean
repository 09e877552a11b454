import Reactor.Transition
import Reactor.MtNode

/-!
# The multithreaded node as a transition system

The two loops of `MtNode`, their inboxes, and the tasks that own the
connections, interleaved in any order. One step is one turn of one loop
or one await point of one task; everything the node does not decide
itself (which component moves, what a remote end sends or whether a write
fails, the order a map is iterated in) is in the label.

Channels are lists, oldest first. A message is stored with its *origin*,
the connection whose frame or failure caused it; no step reads an origin,
they only let a statement say which request a reply answers. The same
holds for `registry`, the handshakes the dispatcher has completed, newest
first.

`step` is the executable definition; `Step` lists what a step can do, one
constructor per branch of the source, and `step_sound` is the only proof
that looks inside `step`.
-/

namespace Reactor

namespace Mt

/-! ## State -/

abbrev Conn := MessageFramed

/-- A queued message and the connection that caused it. -/
structure Tagged (α : Type) where
  msg : α
  origin : Option Conn
deriving DecidableEq

/-- What an `encoder.next()` resolves to: a decoded message, a read error
or an undecodable frame, the end of the stream. -/
inductive Frame
  | msg (m : PeerMessage)
  | error
  | eof
deriving DecidableEq

/-- Why the last owner of a connection let go of it. -/
inductive End
  | dropped
  | handshakeFailed
  | commandClosed
  | remoteGone
  | writeFailed
deriving DecidableEq

/-- Who owns a connection and where that task is suspended. -/
inductive Task
  | absent
  | queued
  | sayHello (myId : PeerId)
  | awaitHello
  | peer (peerId : PeerId)
  | peerSend (peerId : PeerId) (msg : Tagged PeerMessage)
  | ended (why : End)
deriving DecidableEq

/-- The id a per-peer task was spawned with, while it runs. -/
def Task.peerId? : Task → Option PeerId
  | .peer peerId => some peerId
  | .peerSend peerId _ => some peerId
  | _ => none

@[simp] theorem Task.peerId?_absent : Task.absent.peerId? = none := rfl

@[simp] theorem Task.peerId?_queued : Task.queued.peerId? = none := rfl

@[simp] theorem Task.peerId?_sayHello (myId : PeerId) :
    (Task.sayHello myId).peerId? = none := rfl

@[simp] theorem Task.peerId?_awaitHello : Task.awaitHello.peerId? = none := rfl

@[simp] theorem Task.peerId?_peer (p : PeerId) : (Task.peer p).peerId? = some p := rfl

@[simp] theorem Task.peerId?_peerSend (p : PeerId) (m : Tagged PeerMessage) :
    (Task.peerSend p m).peerId? = some p := rfl

@[simp] theorem Task.peerId?_ended (why : End) : (Task.ended why).peerId? = none := rfl

inductive DispCtl
  | running
  | exited
  | panicked
deriving DecidableEq

/-- A send to the dispatcher: in vain once its receiver is gone. -/
def DispCtl.deliver {α : Type} (ctl : DispCtl) (inbox ms : List α) : List α :=
  match ctl with
  | .running => inbox ++ ms
  | _ => inbox

inductive TmCtl
  | running
  | awaitDispatcher
  | awaitAbci
  | stopped
  | panicked
deriving DecidableEq

/-- A send to tendermint: in vain once its thread, and with it the
receiver, is gone. -/
def TmCtl.deliver {α : Type} (ctl : TmCtl) (inbox ms : List α) : List α :=
  match ctl with
  | .stopped => inbox
  | .panicked => inbox
  | _ => inbox ++ ms

structure Sys where
  dispatcher : Dispatcher
  dispCtl : DispCtl
  dispInbox : List (Tagged DispatcherMsg)
  tendermint : Tendermint
  tmCtl : TmCtl
  tmInbox : List (Tagged FromDispatcherMsg)
  /-- The dispatcher has answered the `Exit` it was sent. -/
  confirmed : Bool
  /-- The confirmation has been sent to the ABCI side. -/
  exitConfirmed : Bool
  /-- `ABCIMsg::Exit` has been sent. -/
  abciExit : Bool
  task : Conn → Task
  /-- The one-slot command channel of each per-peer task. -/
  cmd : Conn → List (Tagged PeerMessage)
  /-- The frames this node has written on each connection. -/
  wire : Conn → List (Tagged PeerMessage)
  registry : List (PeerId × Conn)
  nextConn : Conn

namespace Sys

/-- The per-peer task of `c`, spawned under `p`, is running. -/
def Running (s : Sys) (c : Conn) (p : PeerId) : Prop :=
  (s.task c).peerId? = some p

instance (s : Sys) (c : Conn) (p : PeerId) : Decidable (s.Running c p) :=
  inferInstanceAs (Decidable (_ = _))

/-- Both loops are running. -/
def Live (s : Sys) : Prop := s.dispCtl = .running ∧ s.tmCtl = .running

instance (s : Sys) : Decidable s.Live := inferInstanceAs (Decidable (_ ∧ _))

@[simp] def setTask (s : Sys) (c : Conn) (t : Task) : Sys :=
  { s with task := Function.update s.task c t }

/-- The per-peer task of `c` ends: its receiver goes with it. -/
@[simp] def endTask (s : Sys) (c : Conn) (why : End) : Sys :=
  { s with
    task := Function.update s.task c (.ended why)
    cmd := Function.update s.cmd c [] }

@[simp] def toDispatcher (s : Sys) (ms : List (Tagged DispatcherMsg)) : Sys :=
  { s with dispInbox := s.dispCtl.deliver s.dispInbox ms }

@[simp] def toTendermint (s : Sys) (m : Tagged FromDispatcherMsg) : Sys :=
  { s with tmInbox := s.tmCtl.deliver s.tmInbox [m] }

/-- Hands a connection to the dispatcher inside a message; without a
receiver the message is dropped, and the connection with it. -/
@[simp] def handOver (s : Sys) (c : Conn) (m : DispatcherMsg) : Sys :=
  { s with
    task := Function.update s.task c (match s.dispCtl with
      | .running => .queued
      | _ => .ended .dropped)
    dispInbox := s.dispCtl.deliver s.dispInbox [⟨m, some c⟩] }

/-- The dispatcher is dropped: its map of senders, its receiver, and the
connections in the messages nobody will read. -/
@[simp] def endDispatcher (s : Sys) (ctl : DispCtl) : Sys :=
  { s with
    dispatcher := { connectedPeers := ∅ }
    dispCtl := ctl
    dispInbox := []
    task := fun c => match s.task c with
      | .queued => .ended .dropped
      | t => t }

/-! ## Steps -/

/-- A send on a per-peer channel does not suspend: there is room, or the
receiver is gone. -/
def ready (s : Sys) : Effect → Bool
  | .sendToPeer c _ => (s.task c).peerId?.isNone || (s.cmd c).isEmpty
  | _ => true

def applyEffect (origin : Option Conn) (s : Sys) : Effect → Sys
  | .spawnHandshake c myId => s.setTask c (.sayHello myId)
  | .sendToPeer c m =>
      if (s.task c).peerId?.isNone then s
      else { s with cmd := Function.update s.cmd c (s.cmd c ++ [⟨m, origin⟩]) }
  | .toTendermint m => s.toTendermint ⟨m, origin⟩
  | .spawnPeerTask c p =>
      { s with
        task := Function.update s.task c (.peer p)
        cmd := Function.update s.cmd c []
        registry := (p, c) :: s.registry }

/-- One turn of the dispatcher. -/
def dispatch (s : Sys) : Option Sys :=
  match s.dispCtl, s.dispInbox with
  | .running, m :: rest =>
      match s.dispatcher.run m.msg with
      | .panic => some (s.endDispatcher .panicked)
      | .exit => some { s.endDispatcher .exited with confirmed := true }
      | .next d effects =>
          if effects.all s.ready then
            some (effects.foldl (applyEffect m.origin)
              { s with dispatcher := d, dispInbox := rest })
          else none
  | _, _ => none

/-- One turn of tendermint on a message from the dispatcher. -/
def tmReceive (s : Sys) : Option Sys :=
  match s.tmCtl, s.tmInbox with
  | .running, m :: rest =>
      let (t, out) := s.tendermint.run m.msg
      some { s with
        tendermint := t
        tmInbox := rest
        dispInbox := s.dispCtl.deliver s.dispInbox (out.map (⟨·, m.origin⟩)) }
  | _, _ => none

/-- Nobody holds a sender to tendermint any more. -/
def tmSendersGone (s : Sys) : Bool :=
  s.dispCtl ≠ .running &&
    (List.range s.nextConn).all fun c => (s.task c).peerId?.isNone

/-- The confirmation sender is still on its way to the dispatcher. -/
def exitQueued (s : Sys) : Bool := s.dispInbox.any (·.msg = .exit)

end Sys

/-- Who moves, and everything the move leaves to the outside. -/
inductive Act
  /-- The acceptor takes a connection and hands it to the dispatcher. -/
  | accept
  /-- The dispatcher takes the next message. -/
  | dispatch
  /-- Tendermint's ticker fires. -/
  | tick (it : Iter PeerId)
  /-- Tendermint takes the next message from the dispatcher. -/
  | tmReceive
  /-- Tendermint takes `TendermintMsg::Exit`. -/
  | tmExit
  /-- Tendermint's wait for the dispatcher's confirmation ends. -/
  | tmConfirmed
  /-- Tendermint finds all senders of its inbox gone. -/
  | tmDisconnected
  /-- Tendermint's wait for the ABCI side ends. -/
  | abciReply
  /-- The handshake task's own `Hello` is written, or fails to be. -/
  | helloSent (c : Conn) (ok : Bool)
  /-- The handshake task reads. -/
  | helloRead (c : Conn) (f : Frame)
  /-- The per-peer task's select takes the command channel. -/
  | command (c : Conn)
  /-- The per-peer task's write completes, or fails. -/
  | sent (c : Conn) (ok : Bool)
  /-- The per-peer task's select takes the connection. -/
  | frame (c : Conn) (f : Frame)

open Sys in
/-- One step of the node. -/
def step (s : Sys) : Act → Option Sys
  | .accept =>
      some { s.handOver s.nextConn (.peerHandshake s.nextConn s.tendermint.seedNode) with
        nextConn := s.nextConn + 1 }
  | .dispatch => s.dispatch
  | .tick it =>
      match s.tmCtl with
      | .running => some (s.toDispatcher ((s.tendermint.tick it).map (⟨·, none⟩)))
      | _ => none
  | .tmReceive => s.tmReceive
  | .tmExit =>
      match s.tmCtl with
      | .running =>
          some { s.toDispatcher [⟨.exit, none⟩] with tmCtl := .awaitDispatcher }
      | _ => none
  | .tmConfirmed =>
      match s.tmCtl with
      | .awaitDispatcher =>
          if s.confirmed then some { s with tmCtl := .stopped, exitConfirmed := true }
          else if s.exitQueued then none
          else some { s with tmCtl := .panicked } -- "Failed to shutdown dispatcher"
      | _ => none
  | .tmDisconnected =>
      match s.tmCtl, s.tmInbox with
      | .running, [] =>
          if s.tmSendersGone then some { s with tmCtl := .awaitAbci, abciExit := true }
          else none
      | _, _ => none
  | .abciReply =>
      match s.tmCtl with
      | .awaitAbci => some { s with tmCtl := .stopped }
      | _ => none
  | .helloSent c ok =>
      match s.task c with
      | .sayHello myId =>
          if ok then
            some { s.setTask c .awaitHello with
              wire := Function.update s.wire c (s.wire c ++ [⟨.hello myId, some c⟩]) }
          else some (s.setTask c (.ended .handshakeFailed))
      | _ => none
  | .helloRead c f =>
      match s.task c, f with
      | .awaitHello, .msg (.hello peerId) =>
          some (s.handOver c (.handshakeCompleted c peerId))
      | .awaitHello, .msg _ => some s
      | .awaitHello, _ => some (s.setTask c (.ended .handshakeFailed))
      | _, _ => none
  | .command c =>
      match s.task c with
      | .peer peerId =>
          match s.cmd c with
          | m :: rest =>
              some { s.setTask c (.peerSend peerId m) with
                cmd := Function.update s.cmd c rest }
          | [] =>
              -- the only sender is the one in the dispatcher's map
              if s.dispatcher.connectedPeers.lookup peerId = some c then none
              else some (s.endTask c .commandClosed)
      | _ => none
  | .sent c ok =>
      match s.task c with
      | .peerSend peerId m =>
          if ok then
            some { s.setTask c (.peer peerId) with
              wire := Function.update s.wire c (s.wire c ++ [m]) }
          else some (s.endTask c .writeFailed) -- "Failed to send PeerMessage."
      | _ => none
  | .frame c f =>
      match s.task c, f with
      | .peer _, .msg (.addressBookRequest id) =>
          some (s.toTendermint ⟨.fromPeer (.addressBookRequest id), some c⟩)
      | .peer _, .msg _ => some s
      | .peer peerId, _ =>
          some ((s.endTask c .remoteGone).toTendermint
            ⟨.peerDisconnected peerId, some c⟩)
      | _, _ => none

def init (seedNode : PeerId) : Sys where
  dispatcher := { connectedPeers := ∅ }
  dispCtl := .running
  dispInbox := []
  tendermint := { seedNode, addrBook := ∅ }
  tmCtl := .running
  tmInbox := []
  confirmed := false
  exitConfirmed := false
  abciExit := false
  task := fun _ => .absent
  cmd := fun _ => []
  wire := fun _ => []
  registry := []
  nextConn := 0

/-- The node `Tendermint::start` builds, with the acceptor it returns. -/
def node (seedNode : PeerId) : System Sys Act := ⟨init seedNode, step⟩

/-! ## What a step can do -/

/-- The branches of `step`, one constructor each, with the state they lead
to written out. -/
inductive Step (s : Sys) : Act → Sys → Prop
  | accept :
      Step s .accept { s.handOver s.nextConn
        (.peerHandshake s.nextConn s.tendermint.seedNode) with
          nextConn := s.nextConn + 1 }
  | dispatchHandshake {c myId o rest}
      (hctl : s.dispCtl = .running)
      (hin : s.dispInbox = ⟨.peerHandshake c myId, o⟩ :: rest) :
      Step s .dispatch ({ s with dispInbox := rest }.setTask c (.sayHello myId))
  | dispatchPanic {p m o rest}
      (hctl : s.dispCtl = .running)
      (hin : s.dispInbox = ⟨.toPeer p m, o⟩ :: rest)
      (hnone : s.dispatcher.connectedPeers.lookup p = none) :
      Step s .dispatch (s.endDispatcher .panicked)
  | dispatchSend {p m o rest c}
      (hctl : s.dispCtl = .running)
      (hin : s.dispInbox = ⟨.toPeer p m, o⟩ :: rest)
      (hsome : s.dispatcher.connectedPeers.lookup p = some c)
      (hrun : (s.task c).peerId?.isSome) (hroom : s.cmd c = []) :
      Step s .dispatch { s with
        dispInbox := rest, cmd := Function.update s.cmd c [⟨m, o⟩] }
  | dispatchLost {p m o rest c}
      (hctl : s.dispCtl = .running)
      (hin : s.dispInbox = ⟨.toPeer p m, o⟩ :: rest)
      (hsome : s.dispatcher.connectedPeers.lookup p = some c)
      (hgone : (s.task c).peerId? = none) :
      Step s .dispatch { s with dispInbox := rest }
  | dispatchDisconnected {p o rest}
      (hctl : s.dispCtl = .running)
      (hin : s.dispInbox = ⟨.peerDisconnected p, o⟩ :: rest) :
      Step s .dispatch { s with
        dispatcher := { connectedPeers := s.dispatcher.connectedPeers.erase p }
        dispInbox := rest }
  | dispatchCompleted {c p o rest}
      (hctl : s.dispCtl = .running)
      (hin : s.dispInbox = ⟨.handshakeCompleted c p, o⟩ :: rest) :
      Step s .dispatch { s with
        dispatcher := { connectedPeers := s.dispatcher.connectedPeers.insert p c }
        dispInbox := rest
        tmInbox := s.tmCtl.deliver s.tmInbox [⟨.peerConnected p, o⟩]
        task := Function.update s.task c (.peer p)
        cmd := Function.update s.cmd c []
        registry := (p, c) :: s.registry }
  | dispatchExit {o rest}
      (hctl : s.dispCtl = .running) (hin : s.dispInbox = ⟨.exit, o⟩ :: rest) :
      Step s .dispatch { s.endDispatcher .exited with confirmed := true }
  | tick {it} (hctl : s.tmCtl = .running) :
      Step s (.tick it) (s.toDispatcher ((s.tendermint.tick it).map (⟨·, none⟩)))
  | tmReceive {m rest}
      (hctl : s.tmCtl = .running) (hin : s.tmInbox = m :: rest) :
      Step s .tmReceive { s with
        tendermint := (s.tendermint.run m.msg).1
        tmInbox := rest
        dispInbox := s.dispCtl.deliver s.dispInbox
          ((s.tendermint.run m.msg).2.map (⟨·, m.origin⟩)) }
  | tmExit (hctl : s.tmCtl = .running) :
      Step s .tmExit { s.toDispatcher [⟨.exit, none⟩] with tmCtl := .awaitDispatcher }
  | tmConfirmed (hctl : s.tmCtl = .awaitDispatcher) (hconf : s.confirmed = true) :
      Step s .tmConfirmed { s with tmCtl := .stopped, exitConfirmed := true }
  | tmUnconfirmed (hctl : s.tmCtl = .awaitDispatcher) (hconf : s.confirmed = false)
      (hgone : s.exitQueued = false) :
      Step s .tmConfirmed { s with tmCtl := .panicked }
  | tmDisconnected (hctl : s.tmCtl = .running) (hin : s.tmInbox = [])
      (hgone : s.tmSendersGone = true) :
      Step s .tmDisconnected { s with tmCtl := .awaitAbci, abciExit := true }
  | abciReply (hctl : s.tmCtl = .awaitAbci) :
      Step s .abciReply { s with tmCtl := .stopped }
  | helloSent {c myId} (htask : s.task c = .sayHello myId) :
      Step s (.helloSent c true) { s.setTask c .awaitHello with
        wire := Function.update s.wire c (s.wire c ++ [⟨.hello myId, some c⟩]) }
  | helloUnsent {c myId} (htask : s.task c = .sayHello myId) :
      Step s (.helloSent c false) (s.setTask c (.ended .handshakeFailed))
  | helloRead {c p} (htask : s.task c = .awaitHello) :
      Step s (.helloRead c (.msg (.hello p)))
        (s.handOver c (.handshakeCompleted c p))
  | helloSkipped {c m} (htask : s.task c = .awaitHello)
      (hne : ∀ p, m ≠ .hello p) :
      Step s (.helloRead c (.msg m)) s
  | helloFailed {c f} (htask : s.task c = .awaitHello)
      (hf : ∀ m, f ≠ .msg m) :
      Step s (.helloRead c f) (s.setTask c (.ended .handshakeFailed))
  | command {c p m rest} (htask : s.task c = .peer p) (hcmd : s.cmd c = m :: rest) :
      Step s (.command c) { s.setTask c (.peerSend p m) with
        cmd := Function.update s.cmd c rest }
  | commandClosed {c p} (htask : s.task c = .peer p) (hcmd : s.cmd c = [])
      (hgone : s.dispatcher.connectedPeers.lookup p ≠ some c) :
      Step s (.command c) (s.endTask c .commandClosed)
  | sent {c p m} (htask : s.task c = .peerSend p m) :
      Step s (.sent c true) { s.setTask c (.peer p) with
        wire := Function.update s.wire c (s.wire c ++ [m]) }
  | unsent {c p m} (htask : s.task c = .peerSend p m) :
      Step s (.sent c false) (s.endTask c .writeFailed)
  | request {c p id} (htask : s.task c = .peer p) :
      Step s (.frame c (.msg (.addressBookRequest id)))
        (s.toTendermint ⟨.fromPeer (.addressBookRequest id), some c⟩)
  | frameSkipped {c p m} (htask : s.task c = .peer p)
      (hne : ∀ id, m ≠ .addressBookRequest id) :
      Step s (.frame c (.msg m)) s
  | remoteGone {c p f} (htask : s.task c = .peer p) (hf : ∀ m, f ≠ .msg m) :
      Step s (.frame c f) { s.endTask c .remoteGone with
        tmInbox := s.tmCtl.deliver s.tmInbox [⟨.peerDisconnected p, some c⟩] }

theorem dispatch_sound {s s' : Sys} (h : s.dispatch = some s') :
    Step s .dispatch s' := by
  unfold Sys.dispatch at h
  split at h
  case h_2 => cases h
  rename_i m rest hctl hin
  obtain ⟨m, o⟩ := m
  cases m with
  | toPeer p m =>
      simp only [Dispatcher.run] at h
      split at h
      · rename_i hpanic
        split at hpanic
        · obtain rfl := Option.some.inj h
          exact .dispatchPanic hctl hin ‹_›
        · cases hpanic
      · rename_i hexit
        split at hexit <;> cases hexit
      · rename_i hnext
        split at hnext
        · cases hnext
        · rename_i c hsome
          cases hnext
          split at h
          · rename_i hready
            obtain rfl := Option.some.inj h
            cases hrun : (s.task c).peerId? with
            | none =>
                simpa [Sys.applyEffect, hrun] using Step.dispatchLost hctl hin hsome hrun
            | some q =>
                have hroom : s.cmd c = [] := by simpa [Sys.ready, hrun] using hready
                simpa [Sys.applyEffect, hrun, hroom] using
                  Step.dispatchSend hctl hin hsome (by simp [hrun]) hroom
          · cases h
  | peerHandshake c myId =>
      simp [Dispatcher.run, Sys.ready, Sys.applyEffect] at h
      subst h; exact .dispatchHandshake hctl hin
  | handshakeCompleted c p =>
      simp [Dispatcher.run, Dispatcher.handleNewConnectedPeer, Sys.ready,
        Sys.applyEffect, Sys.toTendermint] at h
      subst h; exact .dispatchCompleted hctl hin
  | peerDisconnected p =>
      simp [Dispatcher.run] at h
      subst h; exact .dispatchDisconnected hctl hin
  | exit =>
      simp [Dispatcher.run] at h
      subst h; exact .dispatchExit hctl hin

/-- Every step is one of the branches listed. -/
theorem step_sound {s s' : Sys} {a : Act} (h : step s a = some s') :
    Step s a s' := by
  cases a with
  | accept => obtain rfl := Option.some.inj h; exact .accept
  | dispatch => exact dispatch_sound h
  | tick it =>
      simp only [step] at h
      split at h <;> simp at h
      subst h; exact .tick ‹_›
  | tmReceive =>
      simp only [step, Sys.tmReceive] at h
      split at h <;> simp at h
      subst h; exact .tmReceive ‹_› ‹_›
  | tmExit =>
      simp only [step] at h
      split at h <;> simp at h
      subst h; exact .tmExit ‹_›
  | tmConfirmed =>
      simp only [step] at h
      split at h
      · split at h
        · obtain rfl := Option.some.inj h; exact .tmConfirmed ‹_› ‹_›
        · split at h
          · cases h
          · obtain rfl := Option.some.inj h
            exact .tmUnconfirmed ‹_› (by simpa using ‹¬s.confirmed = true›)
              (by simpa using ‹¬s.exitQueued = true›)
      · cases h
  | tmDisconnected =>
      simp only [step] at h
      split at h
      · split at h
        · obtain rfl := Option.some.inj h; exact .tmDisconnected ‹_› ‹_› ‹_›
        · cases h
      · cases h
  | abciReply =>
      simp only [step] at h
      split at h <;> simp at h
      subst h; exact .abciReply ‹_›
  | helloSent c ok =>
      simp only [step] at h
      split at h
      · cases ok <;> simp at h <;> subst h
        · exact .helloUnsent ‹_›
        · exact .helloSent ‹_›
      · cases h
  | helloRead c f =>
      simp only [step] at h
      split at h
      · obtain rfl := Option.some.inj h; exact .helloRead ‹_›
      · rename_i m hne htask
        obtain rfl := Option.some.inj h
        exact .helloSkipped htask fun p hp => hne p (by rw [hp])
      · rename_i htask hne₁ hne₂
        obtain rfl := Option.some.inj h
        exact .helloFailed htask fun m hm => hne₂ m (by rw [hm])
      · cases h
  | command c =>
      simp only [step] at h
      split at h
      · split at h
        · obtain rfl := Option.some.inj h; exact .command ‹_› ‹_›
        · split at h
          · cases h
          · obtain rfl := Option.some.inj h; exact .commandClosed ‹_› ‹_› ‹_›
      · cases h
  | sent c ok =>
      simp only [step] at h
      split at h
      · cases ok <;> simp at h <;> subst h
        · exact .unsent ‹_›
        · exact .sent ‹_›
      · cases h
  | frame c f =>
      simp only [step] at h
      split at h
      · obtain rfl := Option.some.inj h; exact .request ‹_›
      · rename_i m hne htask
        obtain rfl := Option.some.inj h
        exact .frameSkipped htask fun p hp => hne p (by rw [hp])
      · rename_i htask hne₁ hne₂
        obtain rfl := Option.some.inj h
        exact .remoteGone htask fun m hm => hne₂ m (by rw [hm])
      · cases h

end Mt

end Reactor
