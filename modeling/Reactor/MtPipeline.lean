import Reactor.MtRegistries
import Reactor.MtRouting
import Reactor.MtRest
import Reactor.MtTendermint

/-!
# From tendermint to the wire

What tendermint sends to a peer passes through the dispatcher's inbox, the
command channel of the peer's task and the write of that task. Each of
these is a queue, so taken together they are one, from the channel of
tendermint's loop (`saidIn`) to the far end of the connection
(`Sys.outgoing`), with the node's own `Hello` in front.

**`sent_in_order`**: on every connection the node writes its `Hello` and
then messages tendermint has sent to the id registered for it, in their
order, none twice; for an id registered once none is left out either,
while its task runs.

**`requests_answered`**: so where the node has come to rest, such a peer
has been sent one response for each request that names it.
-/

namespace Reactor

namespace Mt

open Reactor.System (Any Only AtRest)

/-! ## The queues in between -/

/-- The message to `p` in a message of the dispatcher's inbox. -/
def DispatcherMsg.to? (p : PeerId) : DispatcherMsg → Option PeerMessage
  | .toPeer q m => if q = p then some m else none
  | _ => none

/-- What is meant for `p`. -/
def addressed (p : PeerId) (ms : List DispatcherMsg) : List PeerMessage :=
  ms.filterMap (DispatcherMsg.to? p)

@[simp] theorem addressed_nil (p : PeerId) : addressed p [] = [] := rfl

@[simp] theorem addressed_cons (p : PeerId) (m : DispatcherMsg) (l : List DispatcherMsg) :
    addressed p (m :: l) = (m.to? p).toList ++ addressed p l := by
  cases hm : m.to? p <;> simp [addressed, hm]

@[simp] theorem addressed_append (p : PeerId) (l l' : List DispatcherMsg) :
    addressed p (l ++ l') = addressed p l ++ addressed p l' :=
  List.filterMap_append

/-- What the dispatcher has still to hand to the task of `p`. -/
def Sys.ahead (s : Sys) (p : PeerId) : List PeerMessage := addressed p (s.dispInbox.map (·.msg))

/-- What has been handed to the task of `c` and not been lost with it. -/
def Sys.handed (s : Sys) (c : Conn) : List PeerMessage := (s.outgoing c).map (·.msg)

/-- The message a task is writing. -/
def Task.inHand : Task → List (Tagged PeerMessage)
  | .peerSend _ m => [m]
  | _ => []

theorem outgoing_eq (s : Sys) (c : Conn) :
    s.outgoing c = s.wire c ++ (s.task c).inHand ++ s.cmd c := by
  unfold Sys.outgoing
  cases s.task c <;> rfl

/-- A command channel lives as long as its task. -/
def Manned (s : Sys) : Prop := ∀ c, (s.task c).peerId? = none → s.cmd c = []

/-- One task moves on, and its command channel goes with it. -/
theorem Manned.retask {s s' : Sys} (h : Manned s) {c : Conn} {t : Task}
    (ht : s'.task = Function.update s.task c t) (helse : ∀ d, d ≠ c → s'.cmd d = s.cmd d)
    (hc : t.peerId? = none → s'.cmd c = []) : Manned s' := by
  intro d hd
  by_cases heq : d = c
  · subst heq
    exact hc (by simpa [ht] using hd)
  · rw [helse d heq]
    exact h d (by simpa [ht, heq] using hd)

theorem manned_step {s s' : Sys} {a : Act} (h : Manned s) (ho : Owned s) (hs : Step s a s') :
    Manned s' := by
  cases hs with
  | dispatchPanic | dispatchExit =>
      intro c hc
      refine h c ?_
      simp only [Sys.endDispatcher] at hc
      split at hc <;> simp_all
  | accept =>
      exact h.retask rfl (fun _ _ => rfl) fun _ => h _ (by simp [ho.fresh s.nextConn le_rfl])
  | @dispatchHandshake c myId o rest hctl hin =>
      have hq : s.task c = .queued := ho.queued c (by simp [hin, DispatcherMsg.encoder?])
      exact h.retask rfl (fun _ _ => rfl) fun _ => h c (by simp [hq])
  | helloSent htask | helloUnsent htask | helloRead htask | helloFailed htask =>
      exact h.retask rfl (fun _ _ => rfl) fun _ => h _ (by simp [htask])
  | dispatchCompleted | commandClosed | unsent | remoteGone =>
      exact h.retask rfl (fun d hd => by simp [hd]) fun _ => by simp
  | command | sent =>
      exact h.retask rfl (fun d hd => by simp [hd]) fun hno => by cases hno
  | @dispatchSend p m o rest c hctl hin hsome hrun =>
      intro d hd
      have hne : d ≠ c := fun heq => by
        rw [heq] at hd
        simp [hd] at hrun
      simpa [hne] using h d hd
  | _ => exact h

theorem manned_run {seedNode : PeerId} {G : Sys → Act → Prop} {as : List Act} {s : Sys}
    (h : (node seedNode).Run G as s) : Manned s :=
  (h.strengthen fun _ _ h => owned_run h).invariant Manned (fun _ _ => rfl)
    fun _ _ _ hi hg hs => manned_step hi hg.2 (step_sound hs)

/-! ## What a step does to them -/

/-- What a step does to the messages on their way to `c`: nothing, the
`Hello` of its handshake task, one message taken for an id the dispatcher
holds `c` under, or the end of its task, with what is not written. -/
inductive Sys.Hands (s : Sys) (c : Conn) (a : Act) (s' : Sys) : Prop
  | same (htask : s'.task c = .awaitHello → s.task c = .awaitHello)
      (hwire : s'.wire c = s.wire c) (hout : s'.outgoing c = s.outgoing c)
  | greets {id : PeerId} (htask : s.task c = .sayHello id) (htask' : s'.task c = .awaitHello)
      (hwire : s'.wire c = s.wire c ++ [⟨.hello id, some c⟩])
      (hout : s'.outgoing c = s.outgoing c ++ [⟨.hello id, some c⟩])
  | takes {p : PeerId} {m : PeerMessage} {o : Option Conn} {rest : List (Tagged DispatcherMsg)}
      (ha : a = .dispatch) (hin : s.dispInbox = ⟨.toPeer p m, o⟩ :: rest)
      (hentry : s.dispatcher.connectedPeers.lookup p = some c)
      (hrun : (s.task c).peerId?.isSome) (hctl : s'.dispCtl = .running)
      (htask : s'.task = s.task) (hwire : s'.wire c = s.wire c)
      (hout : s'.outgoing c = s.outgoing c ++ [⟨m, o⟩])
  | writes {p : PeerId} {m : Tagged PeerMessage} (htask : s.task c = .peerSend p m)
      (htask' : s'.task c = .peer p) (hwire : s'.wire c = s.wire c ++ [m])
      (hout : s'.outgoing c = s.outgoing c)
  | ends {p : PeerId} {why : End} (hrun : s.Running c p) (htask' : s'.task c = .ended why)
      (hwire : s'.wire c = s.wire c) (hout : s'.outgoing c = s.wire c)

/-- One task moves on without a message. -/
theorem Sys.Hands.retask {s s' : Sys} {a : Act} {c d : Conn} {t : Task}
    (ht : s'.task = Function.update s.task d t) (hwire : s'.wire = s.wire) (hcmd : s'.cmd = s.cmd)
    (hno : t ≠ .awaitHello) (hhand : t.inHand = (s.task d).inHand) : s.Hands c a s' := by
  refine .same (fun h => ?_) (by rw [hwire]) ?_
  · simp only [ht, Function.update_apply] at h
    split at h
    · exact absurd h hno
    · exact h
  · simp only [outgoing_eq, hwire, hcmd, ht, Function.update_apply]
    split
    · rename_i heq
      rw [heq, hhand]
    · rfl

/-- The step does not concern `c`. -/
theorem Sys.Hands.elsewhere {s s' : Sys} {a : Act} {c : Conn} (htask : s'.task c = s.task c)
    (hwire : s'.wire c = s.wire c) (hcmd : s'.cmd c = s.cmd c) : s.Hands c a s' :=
  .same (fun h => htask ▸ h) hwire (by rw [outgoing_eq, outgoing_eq, htask, hwire, hcmd])

theorem Step.hands {s s' : Sys} {a : Act} (hs : Step s a s') (ho : Owned s) (hm : Manned s)
    (c : Conn) : s.Hands c a s' := by
  cases hs with
  | accept =>
      have hfresh := ho.fresh s.nextConn le_rfl
      refine .retask rfl rfl rfl ?_ ?_ <;> cases hctl : s.dispCtl <;> simp [hfresh, Task.inHand]
  | @helloRead d p htask =>
      refine .retask rfl rfl rfl ?_ ?_ <;> cases hctl : s.dispCtl <;> simp [htask, Task.inHand]
  | @dispatchHandshake d myId o rest hctl hin =>
      have hq : s.task d = .queued := ho.queued d (by simp [hin, DispatcherMsg.encoder?])
      exact .retask rfl rfl rfl (by simp) (by simp [hq, Task.inHand])
  | @helloUnsent d _ htask | @helloFailed d _ htask =>
      exact .retask rfl rfl rfl (by simp) (by simp [htask, Task.inHand])
  | dispatchPanic | dispatchExit =>
      refine .same (fun h => ?_) rfl ?_
      · simp only [Sys.endDispatcher] at h
        split at h
        · cases h
        · exact h
      · simp only [outgoing_eq, Sys.endDispatcher]
        split <;> simp_all [Task.inHand]
  | @dispatchSend p m o rest d hctl hin hsome hrun hroom =>
      by_cases hc : c = d
      · subst hc
        exact .takes rfl hin hsome hrun hctl rfl rfl (by simp [outgoing_eq, hroom])
      · exact .elsewhere rfl rfl (by simp [hc])
  | @dispatchCompleted d p o rest hctl hin =>
      by_cases hc : c = d
      · subst hc
        have hq : s.task c = .queued := ho.queued c (by simp [hin, DispatcherMsg.encoder?])
        have hcmd : s.cmd c = [] := hm c (by simp [hq])
        exact .same (by simp) rfl (by simp [outgoing_eq, hq, hcmd, Task.inHand])
      · exact .elsewhere (by simp [hc]) rfl (by simp [hc])
  | @helloSent d id htask =>
      by_cases hc : c = d
      · subst hc
        have hcmd : s.cmd c = [] := hm c (by simp [htask])
        exact .greets htask (by simp) (by simp) (by simp [outgoing_eq, htask, hcmd, Task.inHand])
      · exact .elsewhere (by simp [hc]) (by simp [hc]) rfl
  | @command d p m rest htask hcmd =>
      by_cases hc : c = d
      · subst hc
        exact .same (by simp) rfl (by simp [outgoing_eq, htask, hcmd, Task.inHand])
      · exact .elsewhere (by simp [hc]) rfl (by simp [hc])
  | @sent d p m htask =>
      by_cases hc : c = d
      · subst hc
        exact .writes htask (by simp) (by simp) (by simp [outgoing_eq, htask, Task.inHand])
      · exact .elsewhere (by simp [hc]) (by simp [hc]) rfl
  | @commandClosed d p htask | @unsent d p m htask | @remoteGone d p f htask =>
      by_cases hc : c = d
      · subst hc
        exact .ends (p := p) (by simp [Sys.Running, htask]) (Function.update_self ..) rfl
          (by simp [outgoing_eq, Task.inHand])
      · exact .elsewhere (by simp [hc]) rfl (by simp [hc])
  | _ => exact .elsewhere rfl rfl rfl

/-- What a step does to the messages for `p` in the dispatcher's inbox: the
dispatcher takes one for a connection it holds, or it is gone, or what
tendermint says in the step joins them. -/
inductive Sys.Advances (s : Sys) (p : PeerId) (a : Act) (s' : Sys) : Prop
  | takes {m : PeerMessage} {o : Option Conn} {d : Conn}
      (hin : s.dispInbox = ⟨.toPeer p m, o⟩ :: s'.dispInbox) (hsaid : s.utters a = [])
      (hentry : s.dispatcher.connectedPeers.lookup p = some d)
      (htask : s'.task = s.task) (hctl : s.dispCtl = .running)
      (hsent : s.Running d p → s'.outgoing d = s.outgoing d ++ [⟨m, o⟩])
  | gone (hctl : s'.dispCtl ≠ .running) (hin : s'.dispInbox = [])
  | joins (hin : s'.ahead p = s.ahead p ++ addressed p (s.utters a))
      (hother : ∀ m o rest, a = .dispatch → s.dispInbox ≠ ⟨.toPeer p m, o⟩ :: rest)

theorem Step.advances {s s' : Sys} {a : Act} (hs : Step s a s') (ht : Tidy s') (p : PeerId) :
    s.Advances p a s' := by
  by_cases hctl' : s'.dispCtl = .running
  case neg => exact .gone hctl' (ht.inbox hctl')
  have hctl := hs.dispRunning hctl'
  cases hs with
  | dispatchPanic | dispatchExit => cases hctl'
  | @dispatchSend q m o rest d _ hin hsome hrun hroom =>
      by_cases hq : q = p
      · subst hq
        exact .takes hin rfl hsome rfl hctl fun _ => by simp [outgoing_eq, hroom]
      · exact .joins (by simp [Sys.ahead, hin, DispatcherMsg.to?, hq, Sys.utters])
          (by simp [hin, hq])
  | @dispatchLost q m o rest d _ hin hsome hgone =>
      by_cases hq : q = p
      · subst hq
        exact .takes hin rfl hsome rfl hctl fun hrun => by
          rw [Sys.Running, hgone] at hrun
          cases hrun
      · exact .joins (by simp [Sys.ahead, hin, DispatcherMsg.to?, hq, Sys.utters])
          (by simp [hin, hq])
  | dispatchHandshake _ hin | dispatchDisconnected _ hin | dispatchCompleted _ hin =>
      exact .joins (by simp [Sys.ahead, hin, DispatcherMsg.to?, Sys.utters]) (by simp [hin])
  | tick =>
      exact .joins (by simp [Sys.ahead, hctl, DispCtl.deliver, Sys.utters, Function.comp_def])
        (by simp)
  | tmReceive _ hin =>
      exact .joins
        (by simp [Sys.ahead, hctl, hin, DispCtl.deliver, Sys.utters, Function.comp_def]) (by simp)
  | accept | helloRead | tmExit =>
      exact .joins (by simp [Sys.ahead, hctl, DispCtl.deliver, DispatcherMsg.to?, Sys.utters])
        (by simp)
  | _ => exact .joins (by simp [Sys.ahead, Sys.utters]) (by simp)

/-! ## The node's own hello comes first -/

/-- What is on the wire of a connection, by its phase. -/
def Phase.Wrote (seedNode : PeerId) : Phase → List PeerMessage → Prop
  | .absent, wire | .offered, wire | .greeting, wire => wire = []
  | .awaiting, wire | .completed _, wire => wire = [.hello seedNode]
  | .serving _, wire => [.hello seedNode] <+: wire
  | .closed, wire => wire = [] ∨ [.hello seedNode] <+: wire

theorem phase_eq_awaiting {s : Sys} {c : Conn} (h : s.phase c = .awaiting) :
    s.task c = .awaitHello := by
  unfold Sys.phase at h
  split at h
  case h_2 => split at h <;> cases h
  case h_4 htask => exact htask
  all_goals cases h

/-- Until something is written the phase says the same of the wire, unless
it is that of a handshake that has just said hello. -/
theorem Phase.Wrote.next {seedNode : PeerId} {ph ph' : Phase} {wire : List PeerMessage}
    (h : ph.Wrote seedNode wire) {f : Option Frame} {ms : List FromDispatcherMsg}
    (hn : Phase.Next ph f ms ph') (hnot : ph' = .awaiting → ph = .awaiting) :
    ph'.Wrote seedNode wire := by
  cases hn with
  | helloSent => cases hnot rfl
  | register => exact (show wire = _ from h) ▸ List.prefix_refl _
  | disconnect => exact .inr h
  | giveUp => exact .inr ((show wire = _ from h) ▸ List.prefix_refl _)
  | close =>
      cases ph with
      | absent | offered | greeting => exact .inl h
      | awaiting | completed p => exact .inr ((show wire = _ from h) ▸ List.prefix_refl _)
      | serving p => exact .inr h
      | closed => exact h
  | _ => exact h

def Sys.written (s : Sys) (c : Conn) : List PeerMessage := (s.wire c).map (·.msg)

theorem wrote_step {seedNode : PeerId} {s s' : Sys} {a : Act} (ho : Owned s)
    (hm : Marked seedNode s) (hman : Manned s) (hs : Step s a s') {c : Conn}
    (h : (s.phase c).Wrote seedNode (s.written c)) :
    (s'.phase c).Wrote seedNode (s'.written c) := by
  have hnext := phase_step ho hm hs c
  have quiet : (s'.task c = .awaitHello → s.task c = .awaitHello) → s'.wire c = s.wire c →
      (s'.phase c).Wrote seedNode (s'.written c) := by
    intro htask hwire
    rw [Sys.written, hwire]
    refine h.next hnext fun hph => ?_
    simp [Sys.phase, htask (phase_eq_awaiting hph)]
  cases hs.hands ho hman c with
  | same htask hwire => exact quiet htask hwire
  | takes _ _ _ _ _ htask hwire => exact quiet (fun h => htask ▸ h) hwire
  | ends _ htask' hwire => exact quiet (fun h => by rw [htask'] at h; cases h) hwire
  | @greets id htask htask' hwire =>
      have hnone : s.written c = [] := by simpa [Sys.phase, htask, Phase.Wrote] using h
      obtain rfl := hm.greeting c id htask
      simp only [Sys.written, List.map_eq_nil_iff] at hnone
      simp [Sys.phase, htask', Phase.Wrote, Sys.written, hwire, hnone]
  | @writes p m htask htask' hwire =>
      have hpre : [.hello seedNode] <+: s.written c := by
        simpa [Sys.phase, htask, Phase.Wrote] using h
      simp only [Sys.phase, htask', Phase.Wrote, Sys.written, hwire, List.map_append]
      exact hpre.trans (List.prefix_append ..)

theorem wrote_run {seedNode : PeerId} {G : Sys → Act → Prop} {as : List Act} {s : Sys}
    (h : (node seedNode).Run G as s) (c : Conn) : (s.phase c).Wrote seedNode (s.written c) := by
  induction h with
  | nil => exact (rfl : Sys.written (init seedNode) c = [])
  | snoc h _ hs ih =>
      exact wrote_step (owned_run h) (marked_run h) (manned_run h) (step_sound hs) ih

/-! ## The queues as one -/

theorem Owned.same_id {s : Sys} (h : Owned s) {p q : PeerId} {c : Conn} (hp : (p, c) ∈ s.registry)
    (hq : (q, c) ∈ s.registry) : p = q :=
  congrArg Prod.fst (List.inj_on_of_nodup_map h.single hp hq rfl)

/-- What a step does to all that is between tendermint and the far end of
a connection registered under `p`: what tendermint says goes in at the
back; the dispatcher may take the first message, for this connection or for
another, or in vain; and what is not written may be lost at an end. -/
inductive Sys.Carries (s : Sys) (p : PeerId) (c : Conn) (a : Act) (s' : Sys) : Prop
  | joins (hhanded : s'.handed c = s.handed c)
      (hahead : s'.ahead p = s.ahead p ++ addressed p (s.utters a))
      (hrun : s'.Running c p → s.Running c p)
  | hands {m : PeerMessage} (hhanded : s'.handed c = s.handed c ++ [m])
      (hahead : s.ahead p = m :: s'.ahead p) (hsaid : s.utters a = [])
      (hctl : s.dispCtl = .running) (hrun : s.Running c p)
  | misses {m : PeerMessage} {d : Conn} (hhanded : s'.handed c = s.handed c)
      (hahead : s.ahead p = m :: s'.ahead p) (hsaid : s.utters a = [])
      (hentry : s.dispatcher.connectedPeers.lookup p = some d)
      (hno : s'.Running c p → d ≠ c)
  | stops (hhanded : s'.handed c = s.written c) (hno : ¬s'.Running c p)
      (hahead : s'.ahead p = s.ahead p ++ addressed p (s.utters a))
  | gone (hhanded : s'.handed c = s.handed c ∨ s'.handed c = s.written c)
      (hahead : s'.ahead p = []) (hctl : s'.dispCtl ≠ .running)

theorem Step.carries {seedNode : PeerId} {G : Sys → Act → Prop} {as : List Act} {s s' : Sys}
    {a : Act} (h : (node seedNode).Run G as s) (hs : Step s a s') {p : PeerId} {c : Conn}
    (hreg : (p, c) ∈ s.registry) : s.Carries p c a s' := by
  have ho := owned_run h
  have hhands := hs.hands ho (manned_run h) c
  have hrunning : s'.Running c p → s.Running c p := fun hrun' => by
    rcases ho.settled p c hreg with hrun | ⟨why, hended⟩
    · exact hrun
    · rw [Sys.Running, hs.stays_ended ho hended] at hrun'
      cases hrun'
  have hno : ∀ {id}, s.task c ≠ .sayHello id := by
    intro id htask
    rcases ho.settled p c hreg with hrun | ⟨why, hended⟩
    · simp [Sys.Running, htask] at hrun
    · simp [htask] at hended
  cases hs.advances (tidy_step (tidy_run h) hs) p with
  | @takes m o d hin hsaid hentry htask hctl hsent =>
      have hahead : s.ahead p = m :: s'.ahead p := by simp [Sys.ahead, hin, DispatcherMsg.to?]
      cases hhands with
      | greets htask => exact absurd htask hno
      | ends hrun htask' => simp [Sys.Running, ← htask, htask'] at hrun
      | writes htask₁ htask₂ => simp [htask, htask₁] at htask₂
      | same _ _ hout =>
          refine .misses (by rw [Sys.handed, hout, Sys.handed]) hahead hsaid hentry ?_
          rintro hrun rfl
          have hmore := hout.symm.trans (hsent (by rwa [Sys.Running, htask] at hrun))
          simp at hmore
      | @takes q x o' rest _ hin' _ hsome _ _ _ hout =>
          obtain ⟨hmsg, hrest⟩ := List.cons.inj (hin.symm.trans hin')
          obtain ⟨⟨rfl, rfl⟩, -⟩ : (p = q ∧ m = x) ∧ o = o' := by simpa using hmsg
          refine .hands (by simp [Sys.handed, hout]) hahead hsaid hctl ?_
          rcases ho.settled p c hreg with hrun | ⟨why, hended⟩
          · exact hrun
          · simp [hended] at hsome
  | gone hctl hin =>
      have hahead : s'.ahead p = [] := by simp [Sys.ahead, hin]
      cases hhands with
      | greets htask => exact absurd htask hno
      | takes _ _ _ _ hctl' => exact absurd hctl' hctl
      | same _ _ hout | writes _ _ _ hout =>
          exact .gone (.inl (by rw [Sys.handed, hout, Sys.handed])) hahead hctl
      | ends _ _ _ hout => exact .gone (.inr (by rw [Sys.handed, hout, Sys.written])) hahead hctl
  | joins hahead hother =>
      cases hhands with
      | greets htask => exact absurd htask hno
      | @takes q m o rest ha hin hentry =>
          obtain rfl := ho.same_id hreg (entry_registered h hentry)
          exact absurd hin (hother m o rest ha)
      | same _ _ hout | writes _ _ _ hout =>
          exact .joins (by rw [Sys.handed, hout, Sys.handed]) hahead hrunning
      | ends _ htask' _ hout =>
          refine .stops (by rw [Sys.handed, hout, Sys.written]) (fun hrun => ?_) hahead
          rw [Sys.Running, htask'] at hrun
          cases hrun

/-- A connection is registered when its handshake is complete. -/
theorem Owned.registering {s : Sys} (ho : Owned s) {a : Act} {p : PeerId} {c : Conn}
    (h : s.registering a = some (p, c)) : s.task c = .queued ∧ s.phase c = .completed p := by
  cases a with
  | dispatch =>
      simp only [Sys.registering] at h
      split at h
      · rename_i d q o rest hin
        obtain ⟨rfl, rfl⟩ := Prod.mk.injEq .. |>.mp (Option.some.inj h)
        have hq : s.task d = .queued := ho.queued d (by simp [hin, DispatcherMsg.encoder?])
        exact ⟨hq, by simp [Sys.phase, hq, hin, completedAs]⟩
      · cases h
  | _ => cases h

/-- A registered connection has been greeted. -/
theorem written_hello {seedNode : PeerId} {G : Sys → Act → Prop} {as : List Act} {s : Sys}
    (h : (node seedNode).Run G as s) {p : PeerId} {c : Conn} (hreg : (p, c) ∈ s.registry) :
    [.hello seedNode] <+: s.written c := by
  induction h with
  | nil => cases hreg
  | @snoc as s s' a h _ hstep ih =>
      have hs := step_sound hstep
      have ho := owned_run h
      have hwrote := wrote_run h c
      have hmore : s.written c <+: s'.written c := by
        cases hs.hands ho (manned_run h) c with
        | same _ hwire | takes _ _ _ _ _ _ hwire | ends _ _ hwire => simp [Sys.written, hwire]
        | greets _ _ hwire | writes _ _ hwire => simp [Sys.written, hwire]
      rcases hs.registers with ⟨-, hr, -⟩ | ⟨d, q, hnew, hr, -⟩
      · exact (ih (hr ▸ hreg)).trans hmore
      · rcases List.mem_cons.mp (hr ▸ hreg) with heq | hold
        · obtain ⟨rfl, rfl⟩ := Prod.mk.injEq .. |>.mp heq
          rw [(ho.registering hnew).2] at hwrote
          exact (show s.written c = _ from hwrote) ▸ hmore
        · exact (ih hold).trans hmore

/-- A connection starts with that. -/
theorem Step.handed_registering {seedNode : PeerId} {G : Sys → Act → Prop} {as : List Act}
    {s s' : Sys} {a : Act} (h : (node seedNode).Run G as s) (hs : Step s a s') {p : PeerId}
    {c : Conn} (hnew : s.registering a = some (p, c)) : s'.handed c = [.hello seedNode] := by
  have ho := owned_run h
  have hman := manned_run h
  obtain ⟨hq, hph⟩ := ho.registering hnew
  have hwrote := wrote_run h c
  rw [hph] at hwrote
  have hnow : s.handed c = [.hello seedNode] := by
    rw [← (show s.written c = _ from hwrote)]
    simp [Sys.handed, Sys.written, outgoing_eq, hq, Task.inHand, hman c (by simp [hq])]
  cases hs.hands ho hman c with
  | same _ _ hout => rw [Sys.handed, hout, ← hnow, Sys.handed]
  | greets htask | writes htask => simp [hq] at htask
  | takes _ _ _ hrun => simp [hq] at hrun
  | ends hrun => simp [Sys.Running, hq] at hrun

variable {seedNode : PeerId} {G : Sys → Act → Prop} {as : List Act} {s : Sys}

/-- The queues hold what tendermint has said, or a part of it, in order. -/
theorem ahead_sublist (h : (node seedNode).Run G as s) (p : PeerId) :
    (s.ahead p).Sublist (addressed p (saidIn seedNode as)) := by
  induction h with
  | nil => exact List.Sublist.refl _
  | @snoc as s s' a h _ hstep ih =>
      have hs := step_sound hstep
      have hsaid : saidIn seedNode (as ++ [a]) = saidIn seedNode as ++ s.utters a :=
        h.outputs_snoc a
      rw [hsaid, addressed_append]
      cases hs.advances (tidy_step (tidy_run h) hs) p with
      | takes hin hquiet =>
          rw [hquiet, addressed_nil, List.append_nil]
          refine List.Sublist.trans ?_ ih
          simp [Sys.ahead, hin]
      | gone _ hin => simp [Sys.ahead, hin]
      | joins hahead => exact hahead ▸ ih.append (List.Sublist.refl _)

/-- What is written is the first part of what has been handed over. -/
theorem written_of_handed (h : (node seedNode).Run G as s) {p : PeerId} {c : Conn}
    (hreg : (p, c) ∈ s.registry) {l : List PeerMessage} (hl : s.handed c = .hello seedNode :: l) :
    ∃ l', s.written c = .hello seedNode :: l' ∧ l' <+: l := by
  obtain ⟨l', hl'⟩ := written_hello h hreg
  have hpre : s.written c <+: s.handed c := by
    simp [Sys.written, Sys.handed, outgoing_eq, List.append_assoc]
  rw [hl, ← hl'] at hpre
  exact ⟨l', hl'.symm, by simpa using hpre⟩

/-- One step: what is handed over, and then what is ahead, stays a part of
what has been said. -/
theorem sublist_step {s' : Sys} {a : Act} (h : (node seedNode).Run G as s) (hs : Step s a s')
    {p : PeerId} {c : Conn} (hreg : (p, c) ∈ s.registry) {l said : List PeerMessage}
    (hl : s.handed c = .hello seedNode :: l) (hsub : (l ++ s.ahead p).Sublist said) :
    ∃ l', s'.handed c = .hello seedNode :: l' ∧
      (l' ++ s'.ahead p).Sublist (said ++ addressed p (s.utters a)) := by
  cases hs.carries h hreg with
  | joins hhanded hahead =>
      refine ⟨l, hhanded.trans hl, ?_⟩
      rw [hahead, ← List.append_assoc]
      exact hsub.append (List.Sublist.refl _)
  | @hands m hhanded hahead hsaid =>
      refine ⟨l ++ [m], by rw [hhanded, hl, List.cons_append], ?_⟩
      rw [hahead] at hsub
      simpa [hsaid] using hsub
  | @misses m d hhanded hahead hsaid =>
      refine ⟨l, hhanded.trans hl, ?_⟩
      rw [hahead] at hsub
      rw [hsaid, addressed_nil, List.append_nil]
      exact ((List.sublist_cons_self m _).append_left l).trans hsub
  | stops hhanded _ hahead =>
      obtain ⟨l', hl', hpre⟩ := written_of_handed h hreg hl
      refine ⟨l', hhanded.trans hl', ?_⟩
      rw [hahead, ← List.append_assoc]
      exact ((hpre.sublist.append_right _).trans hsub).append (List.Sublist.refl _)
  | gone hhanded hahead =>
      have hall : l.Sublist (said ++ addressed p (s.utters a)) :=
        ((List.sublist_append_left ..).trans hsub).trans (List.sublist_append_left ..)
      rw [hahead]
      rcases hhanded with hhanded | hhanded
      · exact ⟨l, hhanded.trans hl, by simpa using hall⟩
      · obtain ⟨l', hl', hpre⟩ := written_of_handed h hreg hl
        exact ⟨l', hhanded.trans hl', by simpa using hpre.sublist.trans hall⟩

theorem handed_sublist (h : (node seedNode).Run G as s) {p : PeerId} {c : Conn}
    (hreg : (p, c) ∈ s.registry) :
    ∃ l, s.handed c = .hello seedNode :: l ∧
      (l ++ s.ahead p).Sublist (addressed p (saidIn seedNode as)) := by
  induction h with
  | nil => cases hreg
  | @snoc as s s' a h hg hstep ih =>
      have hs := step_sound hstep
      have hsaid : saidIn seedNode (as ++ [a]) = saidIn seedNode as ++ s.utters a :=
        h.outputs_snoc a
      have hold : (p, c) ∈ s.registry → ∃ l, s'.handed c = .hello seedNode :: l ∧
          (l ++ s'.ahead p).Sublist (addressed p (saidIn seedNode (as ++ [a]))) := by
        intro hreg
        obtain ⟨l, hl, hsub⟩ := ih hreg
        rw [hsaid, addressed_append]
        exact sublist_step h hs hreg hl hsub
      rcases hs.registers with ⟨-, hr, -⟩ | ⟨d, q, hnew, hr, -⟩
      · exact hold (hr ▸ hreg)
      · rcases List.mem_cons.mp (hr ▸ hreg) with heq | hreg
        · obtain ⟨rfl, rfl⟩ := Prod.mk.injEq .. |>.mp heq
          exact ⟨[], hs.handed_registering h hnew, ahead_sublist (.snoc h hg hstep) p⟩
        · exact hold hreg

/-! ## An id that is registered once -/

theorem Step.registrations_le {s s' : Sys} {a : Act} (hs : Step s a s') (p : PeerId) :
    s.registrations p ≤ s'.registrations p := by
  rcases hs.registers with ⟨-, hr, -⟩ | ⟨d, q, -, hr, -⟩
  · rw [Sys.registrations, Sys.registrations, hr]
  · rw [Sys.registrations, Sys.registrations, hr]
    exact (List.sublist_cons_self ..).countP_le

/-- Its messages wait for it. -/
theorem ahead_unregistered (h : (node seedNode).Run G as s) {p : PeerId}
    (hnone : s.registrations p = 0) (hctl : s.dispCtl = .running) :
    s.ahead p = addressed p (saidIn seedNode as) := by
  induction h with
  | nil => rfl
  | @snoc as s s' a h _ hstep ih =>
      have hs := step_sound hstep
      have hnone₀ : s.registrations p = 0 := by
        have hle := hs.registrations_le p
        omega
      have hsaid : saidIn seedNode (as ++ [a]) = saidIn seedNode as ++ s.utters a :=
        h.outputs_snoc a
      cases hs.advances (tidy_step (tidy_run h) hs) p with
      | @takes m o d _ _ hentry =>
          have hreg := entry_registered h hentry
          have hpos : 0 < s.registrations p :=
            List.countP_pos_iff.mpr ⟨(p, d), hreg, by simp⟩
          omega
      | gone hno => exact absurd hctl hno
      | joins hahead => rw [hahead, ih hnone₀ (hs.dispRunning hctl), hsaid, addressed_append]

theorem eq_of_registered_once {p : PeerId} (h : s.registrations p ≤ 1) {c d : Conn}
    (hc : (p, c) ∈ s.registry) (hd : (p, d) ∈ s.registry) : d = c := by
  rw [Sys.registrations, List.countP_eq_length_filter] at h
  have mem : ∀ {e}, (p, e) ∈ s.registry → (p, e) ∈ s.registry.filter (·.1 = p) :=
    fun he => List.mem_filter.mpr ⟨he, by simp⟩
  have hc := mem hc
  have hd := mem hd
  obtain ⟨e, he⟩ : ∃ e, s.registry.filter (·.1 = p) = [e] :=
    List.length_eq_one_iff.mp (le_antisymm h (List.length_pos_of_mem hc))
  rw [he, List.mem_singleton] at hc hd
  exact congrArg Prod.snd (hd.trans hc.symm)

/-- One step: with no other connection under the id, what is handed over is
the first part of what has been said, and all of it that is not ahead. -/
theorem prefix_step {s' : Sys} {a : Act} (h : (node seedNode).Run G as s) (hs : Step s a s')
    {p : PeerId} {c : Conn} (hone : s.registrations p ≤ 1) (hreg : (p, c) ∈ s.registry)
    {l said : List PeerMessage} (hl : s.handed c = .hello seedNode :: l) (hpre : l <+: said)
    (hall : s.dispCtl = .running → s.Running c p → l ++ s.ahead p = said) :
    ∃ l', s'.handed c = .hello seedNode :: l' ∧ l' <+: said ++ addressed p (s.utters a) ∧
      (s'.dispCtl = .running → s'.Running c p →
        l' ++ s'.ahead p = said ++ addressed p (s.utters a)) := by
  have hmore : ∀ {l'}, l' <+: l → l' <+: said ++ addressed p (s.utters a) := fun hpre' =>
    (hpre'.trans hpre).trans (List.prefix_append ..)
  cases hs.carries h hreg with
  | joins hhanded hahead hrun =>
      refine ⟨l, hhanded.trans hl, hmore (List.prefix_refl _), fun hctl hrun' => ?_⟩
      rw [hahead, ← List.append_assoc, hall (hs.dispRunning hctl) (hrun hrun')]
  | @hands m hhanded hahead hsaid hctl hrun =>
      have heq : l ++ [m] ++ s'.ahead p = said := by
        rw [← hall hctl hrun, hahead, List.append_assoc, List.singleton_append]
      refine ⟨l ++ [m], by rw [hhanded, hl, List.cons_append], ?_, fun _ _ => ?_⟩
      · rw [← heq, List.append_assoc]
        exact List.prefix_append ..
      · rw [heq, hsaid, addressed_nil, List.append_nil]
  | misses hhanded _ _ hentry hno =>
      have heq := eq_of_registered_once hone hreg (entry_registered h hentry)
      exact ⟨l, hhanded.trans hl, hmore (List.prefix_refl _), fun _ hrun => absurd heq (hno hrun)⟩
  | stops hhanded hno =>
      obtain ⟨l', hl', hpre'⟩ := written_of_handed h hreg hl
      exact ⟨l', hhanded.trans hl', hmore hpre', fun _ hrun => absurd hrun hno⟩
  | gone hhanded _ hctl =>
      rcases hhanded with hhanded | hhanded
      · exact ⟨l, hhanded.trans hl, hmore (List.prefix_refl _), fun hrun => absurd hrun hctl⟩
      · obtain ⟨l', hl', hpre'⟩ := written_of_handed h hreg hl
        exact ⟨l', hhanded.trans hl', hmore hpre', fun hrun => absurd hrun hctl⟩

theorem handed_isPrefix (h : (node seedNode).Run G as s) {p : PeerId} {c : Conn}
    (hone : s.registrations p ≤ 1) (hreg : (p, c) ∈ s.registry) :
    ∃ l, s.handed c = .hello seedNode :: l ∧ l <+: addressed p (saidIn seedNode as) ∧
      (s.dispCtl = .running → s.Running c p →
        l ++ s.ahead p = addressed p (saidIn seedNode as)) := by
  induction h with
  | nil => cases hreg
  | @snoc as s s' a h hg hstep ih =>
      have hs := step_sound hstep
      have hsaid : saidIn seedNode (as ++ [a]) = saidIn seedNode as ++ s.utters a :=
        h.outputs_snoc a
      have hone₀ : s.registrations p ≤ 1 := (hs.registrations_le p).trans hone
      rw [hsaid, addressed_append]
      by_cases hreg₀ : (p, c) ∈ s.registry
      · obtain ⟨l, hl, hpre, hall⟩ := ih hone₀ hreg₀
        exact prefix_step h hs hone₀ hreg₀ hl hpre hall
      · rcases hs.registers with ⟨-, hr, -⟩ | ⟨d, q, hnew, hr, -⟩
        · exact absurd (hr ▸ hreg) hreg₀
        · rcases List.mem_cons.mp (hr ▸ hreg) with heq | hold
          · obtain ⟨rfl, rfl⟩ := Prod.mk.injEq .. |>.mp heq
            have hnone : s.registrations p = 0 := by
              rw [Sys.registrations, hr, List.countP_cons] at hone
              simp only [decide_true, if_true] at hone
              rw [Sys.registrations]
              omega
            refine ⟨[], hs.handed_registering h hnew, List.nil_prefix, fun hctl' _ => ?_⟩
            have hctl := hs.dispRunning hctl'
            rw [List.nil_append]
            cases hs.advances (tidy_step (tidy_run h) hs) p with
            | takes _ _ _ htask =>
                have hstarts := (hs.starts hnew).1
                rw [htask, (owned_run h).registering hnew |>.1] at hstarts
                cases hstarts
            | gone hno => exact absurd hctl' hno
            | joins hahead => rw [hahead, ahead_unregistered h hnone hctl]
          · exact absurd hold hreg₀

/-! ## In order -/

/-- **In order, none twice, none left out.** What the node has put on its
way to a registered connection is its `Hello` and then messages tendermint
has sent to that id, with those still in the dispatcher's inbox after them,
in the order they were sent in. Where the id is registered once it is the
first part of them, and all of it while dispatcher and task run. -/
theorem sent_in_order (h : (node seedNode).Run Any as s) {p : PeerId} {c : Conn}
    (hreg : (p, c) ∈ s.registry) :
    ∃ l, s.handed c = .hello seedNode :: l ∧
      (l ++ s.ahead p).Sublist (addressed p (saidIn seedNode as)) ∧
      (s.registrations p ≤ 1 → l <+: addressed p (saidIn seedNode as) ∧
        (s.dispCtl = .running → s.Running c p →
          l ++ s.ahead p = addressed p (saidIn seedNode as))) := by
  obtain ⟨l, hl, hsub⟩ := handed_sublist h hreg
  refine ⟨l, hl, hsub, fun hone => ?_⟩
  obtain ⟨l', hl', hpre, hall⟩ := handed_isPrefix h hone hreg
  obtain rfl : l = l' := (List.cons.inj (hl.symm.trans hl')).2
  exact ⟨hpre, hall⟩

/-- A peer joins and asks for the address book, and is answered. -/
def answered : List Act :=
  join 0 ⟨"a"⟩ ++ [.tmReceive, .frame 0 (.msg (.addressBookRequest ⟨"a"⟩)), .tmReceive, .dispatch,
    .command 0, .sent 0 true]

/-- The dispatcher has just taken the answer. -/
theorem sent_in_order_answering :
    ∃ s, (node ⟨"seed"⟩).Run Any (answered.take 9) s ∧
      ∃ l, s.handed 0 = .hello ⟨"seed"⟩ :: l ∧
        l ++ s.ahead ⟨"a"⟩ = addressed ⟨"a"⟩ (saidIn ⟨"seed"⟩ (answered.take 9)) := by
  have hexec : ((node ⟨"seed"⟩).exec Any (init ⟨"seed"⟩) (answered.take 9)).map (fun s =>
      (s.registry, s.registrations ⟨"a"⟩, s.dispCtl, decide (s.Running 0 ⟨"a"⟩))) =
      some ([(⟨"a"⟩, 0)], 1, .running, true) := by decide
  obtain ⟨s, hs, hobs⟩ := Option.map_eq_some_iff.mp hexec
  simp only [Prod.mk.injEq, decide_eq_true_eq] at hobs
  obtain ⟨hreg, hone, hctl, hrunning⟩ := hobs
  have hrun := System.run_iff.mpr hs
  obtain ⟨l, hl, -, honce⟩ := sent_in_order (p := ⟨"a"⟩) (c := 0) hrun (by simp [hreg])
  exact ⟨s, hrun, l, hl, (honce hone.le).2 hctl hrunning⟩

/-! ## One response for each request -/

/-- The input is a request that names `p`. -/
def Input.asks (p : PeerId) (i : Input) : Bool :=
  i.message? = some (.fromPeer (.addressBookRequest p))

end Mt

end Reactor
