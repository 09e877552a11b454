import Reactor.MtStale

/-!
# Two nodes that write to each other

A per-peer task that has taken a message from its command channel writes
it before it reads again. Two nodes joined by one connection, of which
each direction holds `K` frames, can therefore come to a state in which
both tasks are in a write, both directions are full, and nobody reads.

**`deadlockFree_iff`**: they can if and only if both have more than `K`
messages for each other. Each node is the one of `MtSystem`; the
connection between them is what is new.
-/

namespace Reactor

namespace Mt

open Reactor.System (Any)

/-! ## Two nodes and a connection -/

/-- A node just after its connection 0 was registered under `peer`. -/
def registered (me peer : PeerId) : Sys :=
  { init me with
    dispatcher := { connectedPeers := (∅ : HashMap PeerId MessageFramed).insert peer 0 }
    tmInbox := [⟨.peerConnected peer, some 0⟩]
    task := Function.update (fun _ => .absent) 0 (.peer peer)
    wire := Function.update (fun _ => []) 0 [⟨.hello me, some 0⟩]
    registry := [(peer, 0)]
    nextConn := 1 }

theorem registered_run (me peer : PeerId) :
    (node me).Run Any (join 0 peer) (registered me peer) := by
  refine System.run_iff.mpr ?_
  simp [join, System.exec, node, step, init, Sys.dispatch, Sys.ready, Sys.applyEffect,
    Dispatcher.run, Dispatcher.handleNewConnectedPeer, DispCtl.deliver, TmCtl.deliver, registered,
    Any]

structure Link where
  node : Bool → Sys
  /-- The messages each node's tendermint has still to queue for the other. -/
  backlog : Bool → List PeerMessage
  /-- The frames each node has written and the other has not read. -/
  inFlight : Bool → List PeerMessage

inductive Move
  /-- Tendermint queues its next message for the peer. -/
  | queue (x : Bool)
  /-- The dispatcher takes the next message. -/
  | dispatch (x : Bool)
  /-- The per-peer task takes a message from its command channel. -/
  | command (x : Bool)
  /-- The per-peer task's write completes. -/
  | sent (x : Bool)
  /-- The per-peer task reads a frame. -/
  | frame (x : Bool)
deriving DecidableEq

namespace Link

def setNode (l : Link) (x : Bool) (s : Sys) : Link :=
  { l with node := Function.update l.node x s }

/-- One move. A write completes when there is room for its frame. -/
def move (name : Bool → PeerId) (K : Nat) (l : Link) : Move → Option Link
  | .queue x =>
      match l.backlog x with
      | m :: rest =>
          some { l.setNode x ((l.node x).toDispatcher [⟨.toPeer (name !x) m, none⟩]) with
            backlog := Function.update l.backlog x rest }
      | [] => none
  | .dispatch x => (step (l.node x) .dispatch).map (l.setNode x)
  | .command x => (step (l.node x) (.command 0)).map (l.setNode x)
  | .sent x =>
      match (l.node x).task 0 with
      | .peerSend _ m =>
          if (l.inFlight x).length < K then
            (step (l.node x) (.sent 0 true)).map fun s =>
              { l.setNode x s with
                inFlight := Function.update l.inFlight x (l.inFlight x ++ [m.msg]) }
          else none
      | _ => none
  | .frame x =>
      match l.inFlight !x with
      | m :: rest =>
          (step (l.node x) (.frame 0 (.msg m))).map fun s =>
            { l.setNode x s with inFlight := Function.update l.inFlight (!x) rest }
      | [] => none

/-- The two nodes, connected, with `msgs x` for the peer of `x`. -/
def start (name : Bool → PeerId) (msgs : Bool → List PeerMessage) : Link where
  node x := registered (name x) (name !x)
  backlog := msgs
  inFlight _ := []

/-- Both per-peer tasks are in a write, and both directions are full. -/
def Deadlocked (K : Nat) (l : Link) : Prop :=
  ∀ x, (∃ p m, (l.node x).task 0 = .peerSend p m) ∧ K ≤ (l.inFlight x).length

end Link

def duplex (name : Bool → PeerId) (K : Nat) (msgs : Bool → List PeerMessage) :
    System Link Move :=
  ⟨.start name msgs, Link.move name K⟩

/-- Then neither task ever moves again. -/
theorem Link.Deadlocked.stuck {name : Bool → PeerId} {K : Nat} {l : Link} (h : l.Deadlocked K)
    (x : Bool) : l.move name K (.sent x) = none ∧ l.move name K (.command x) = none ∧
      l.move name K (.frame x) = none := by
  obtain ⟨⟨p, m, htask⟩, hfull⟩ := h x
  refine ⟨?_, ?_, ?_⟩
  · simp [move, htask, Nat.not_lt_of_le hfull]
  · simp [move, step, htask]
  · cases hin : l.inFlight !x with
    | nil => simp [move, hin]
    | cons m rest => simp [move, hin, step, htask]

/-! ## Counting messages -/

/-- The messages a task is writing. -/
def Task.sending : Task → Nat
  | .peerSend _ _ => 1
  | _ => 0

/-- What a node holds for the peer of its connection 0. -/
def Sys.load (s : Sys) : Nat := s.dispInbox.length + (s.cmd 0).length + (s.task 0).sending

/-- What is left on its way from `x`, with the frames not yet read. -/
def Link.load (l : Link) (x : Bool) : Nat :=
  (l.backlog x).length + (l.node x).load + (l.inFlight x).length

/-- A bound that holds of the old value and of the new one. -/
theorem update_le {α : Type} (w : α → Nat) {f : Conn → α} {c d : Conn} {a : α} {n : Nat}
    (ha : w a ≤ n) (hf : w (f d) ≤ n) : w (Function.update f c a d) ≤ n := by
  rw [Function.update_apply]
  split
  · exact ha
  · exact hf

theorem load_dispatch {s s' : Sys} (hs : Step s .dispatch s') : s'.load ≤ s.load := by
  cases hs with
  | @dispatchHandshake c myId o rest _ hin =>
      have htask := update_le Task.sending (f := s.task) (c := c) (a := .sayHello myId)
        (Nat.zero_le _) (le_refl (s.task 0).sending)
      simp only [Sys.load, Sys.setTask, hin, List.length_cons]
      omega
  | @dispatchCompleted c p o rest _ hin =>
      have htask := update_le Task.sending (f := s.task) (c := c) (a := .peer p)
        (Nat.zero_le _) (le_refl (s.task 0).sending)
      have hcmd := update_le List.length (f := s.cmd) (c := c) (a := [])
        (Nat.zero_le _) (le_refl (s.cmd 0).length)
      simp only [Sys.load, hin, List.length_cons]
      omega
  | @dispatchSend p m o rest c _ hin =>
      have hcmd := update_le List.length (f := s.cmd) (c := c) (a := [⟨m, o⟩])
        (Nat.le_add_left 1 (s.cmd 0).length) (Nat.le_succ _)
      simp only [Sys.load, hin, List.length_cons]
      omega
  | dispatchLost _ hin | dispatchDisconnected _ hin =>
      simp only [Sys.load, hin, List.length_cons]
      omega
  | dispatchPanic | dispatchExit =>
      simp only [Sys.load, Sys.endDispatcher, List.length_nil]
      cases s.task 0 <;> simp [Task.sending]

theorem load_command {s s' : Sys} (hs : Step s (.command 0) s') : s'.load ≤ s.load := by
  cases hs with
  | command htask hcmd =>
      simp only [Sys.load, Sys.setTask, Function.update_self, htask, hcmd, Task.sending,
        List.length_cons]
      omega
  | commandClosed =>
      simp only [Sys.load, Sys.endTask, Function.update_self, Task.sending, List.length_nil]
      omega

theorem load_sent {s s' : Sys} (hs : Step s (.sent 0 true) s') : s'.load + 1 ≤ s.load := by
  cases hs with
  | sent htask => simp [Sys.load, htask, Task.sending]

theorem load_frame {s s' : Sys} {m : PeerMessage} (hs : Step s (.frame 0 (.msg m)) s') :
    s'.load ≤ s.load := by
  cases hs with
  | request | frameSkipped => exact le_rfl
  | remoteGone _ hf => exact absurd rfl (hf m)

theorem load_queue {s : Sys} {m : Tagged DispatcherMsg} :
    (s.toDispatcher [m]).load ≤ s.load + 1 := by
  cases hctl : s.dispCtl
  all_goals
    simp only [Sys.load, Sys.toDispatcher, hctl, DispCtl.deliver, List.length_append,
      List.length_singleton]
    omega

/-- A move of `x` that adds nothing to what is on its way from either. -/
theorem Link.load_setNode {l l' : Link} {x : Bool} {s : Sys}
    (hnode : l'.node = Function.update l.node x s)
    (hx : (l'.backlog x).length + s.load + (l'.inFlight x).length ≤ l.load x)
    (hother : (l'.backlog !x).length + (l'.inFlight !x).length ≤
      (l.backlog !x).length + (l.inFlight !x).length) (y : Bool) :
    l'.load y ≤ l.load y := by
  have hne : (!x) ≠ x := by cases x <;> simp
  by_cases hy : y = x
  · subst hy
    rwa [load, hnode, Function.update_self]
  · obtain rfl : y = !x := by cases x <;> cases y <;> simp_all
    rw [load, load, hnode, Function.update_of_ne hne]
    omega

/-- **No move adds a message.** -/
theorem load_move {name : Bool → PeerId} {K : Nat} {l l' : Link} {mv : Move}
    (hs : l.move name K mv = some l') (y : Bool) : l'.load y ≤ l.load y := by
  have hne : ∀ x : Bool, (!x) ≠ x := by simp
  cases mv with
  | queue x =>
      simp only [Link.move] at hs
      split at hs
      case h_2 => cases hs
      next m rest hback =>
      obtain rfl := Option.some.inj hs
      have hload := load_queue (s := l.node x) (m := ⟨.toPeer (name !x) m, none⟩)
      refine Link.load_setNode rfl ?_ ?_ y
      · simp only [Link.setNode, Function.update_self, Link.load, hback, List.length_cons]
        omega
      · simp only [Link.setNode, Function.update_of_ne (hne x), le_refl]
  | dispatch x =>
      obtain ⟨s, hstep, rfl⟩ := Option.map_eq_some_iff.mp hs
      have hload := load_dispatch (step_sound hstep)
      refine Link.load_setNode rfl ?_ ?_ y
      · simp only [Link.setNode, Link.load]
        omega
      · exact le_rfl
  | command x =>
      obtain ⟨s, hstep, rfl⟩ := Option.map_eq_some_iff.mp hs
      have hload := load_command (step_sound hstep)
      refine Link.load_setNode rfl ?_ ?_ y
      · simp only [Link.setNode, Link.load]
        omega
      · exact le_rfl
  | sent x =>
      simp only [Link.move] at hs
      split at hs
      case h_2 => cases hs
      split at hs
      case isFalse => cases hs
      obtain ⟨s, hstep, rfl⟩ := Option.map_eq_some_iff.mp hs
      have hload := load_sent (step_sound hstep)
      refine Link.load_setNode rfl ?_ ?_ y
      · simp only [Link.setNode, Link.load, Function.update_self, List.length_append,
          List.length_singleton]
        omega
      · simp only [Link.setNode, Function.update_of_ne (hne x), le_refl]
  | frame x =>
      simp only [Link.move] at hs
      split at hs
      case h_2 => cases hs
      next m rest hin =>
      obtain ⟨s, hstep, rfl⟩ := Option.map_eq_some_iff.mp hs
      have hload := load_frame (step_sound hstep)
      refine Link.load_setNode rfl ?_ ?_ y
      · simp only [Link.setNode, Link.load, Function.update_of_ne (hne x).symm]
        omega
      · simp only [Link.setNode, Function.update_self, hin, List.length_cons]
        omega

theorem load_run {name : Bool → PeerId} {K : Nat} {msgs : Bool → List PeerMessage}
    {mvs : List Move} {l : Link} (h : (duplex name K msgs).Run Any mvs l) (x : Bool) :
    l.load x ≤ (msgs x).length := by
  refine h.invariant (fun l => l.load x ≤ (msgs x).length) ?_
    fun _ _ _ hi _ hs => (load_move hs x).trans hi
  simp [duplex, Link.start, Link.load, Sys.load, registered, init, Task.sending]

/-- A node in a deadlock has more on its way than fits. -/
theorem Link.Deadlocked.load {K : Nat} {l : Link} (h : l.Deadlocked K) (x : Bool) :
    K < l.load x := by
  obtain ⟨⟨p, m, htask⟩, hfull⟩ := h x
  simp only [Link.load, Sys.load, htask, Task.sending]
  omega

/-! ## Filling a direction -/

/-- Connection 0 is registered under `p` and nothing is on its way. -/
structure Ready (p : PeerId) (s : Sys) : Prop where
  running : s.dispCtl = .running
  entry : s.dispatcher.connectedPeers.lookup p = some 0
  inbox : s.dispInbox = []
  cmd : s.cmd 0 = []
  task : s.task 0 = .peer p

theorem ready_registered (me peer : PeerId) : Ready peer (registered me peer) :=
  ⟨rfl, Finmap.lookup_insert _, rfl, rfl, rfl⟩

/-- A message queued for the peer gets as far as the write. -/
theorem Ready.writes {p : PeerId} {s : Sys} (h : Ready p s) (m : PeerMessage) :
    ∃ s₁ s₂, step (s.toDispatcher [⟨.toPeer p m, none⟩]) .dispatch = some s₁ ∧
      step s₁ (.command 0) = some s₂ ∧ s₂.task 0 = .peerSend p ⟨m, none⟩ ∧
      ∃ s₃, step s₂ (.sent 0 true) = some s₃ ∧ Ready p s₃ := by
  obtain ⟨hrun, hentry, hin, hcmd, htask⟩ := h
  let s₁ : Sys := { s with cmd := Function.update s.cmd 0 [⟨m, none⟩] }
  let s₂ : Sys := { s₁.setTask 0 (.peerSend p ⟨m, none⟩) with
    cmd := Function.update s₁.cmd 0 [] }
  have h₁ : step (s.toDispatcher [⟨.toPeer p m, none⟩]) .dispatch = some s₁ := by
    simp [step, Sys.dispatch, DispCtl.deliver, hrun, hin, Dispatcher.run, hentry, Sys.ready,
      Sys.applyEffect, htask, hcmd, s₁]
  have h₂ : step s₁ (.command 0) = some s₂ := by
    simp [step, s₁, s₂, htask]
  refine ⟨s₁, s₂, h₁, h₂, by simp [s₂], { s₂.setTask 0 (.peer p) with
    wire := Function.update s₂.wire 0 (s₂.wire 0 ++ [⟨m, none⟩]) }, by simp [step, s₂], ?_⟩
  exact ⟨hrun, hentry, hin, by simp [s₂], by simp⟩

namespace Link

/-- Nothing has changed but the node `x` and what it sends. -/
def SameBut (x : Bool) (l l' : Link) : Prop :=
  l'.node (!x) = l.node (!x) ∧ l'.backlog (!x) = l.backlog (!x) ∧
    l'.inFlight (!x) = l.inFlight (!x)

theorem SameBut.trans {x : Bool} {l l' l'' : Link} (h : SameBut x l l')
    (h' : SameBut x l' l'') : SameBut x l l'' :=
  ⟨h'.1.trans h.1, h'.2.1.trans h.2.1, h'.2.2.trans h.2.2⟩

variable (name : Bool → PeerId) (K : Nat) (msgs : Bool → List PeerMessage)

/-- One message of `x` gets as far as the write, and over it where there
is room. -/
theorem pump {x : Bool} {l : Link} (hready : Ready (name !x) (l.node x)) {m : PeerMessage}
    {rest : List PeerMessage} (hback : l.backlog x = m :: rest) :
    ∃ l', ((duplex name K msgs).startAt l).Run Any [.queue x, .dispatch x, .command x] l' ∧
      SameBut x l l' ∧ l'.inFlight x = l.inFlight x ∧
      (∃ p m, (l'.node x).task 0 = .peerSend p m) ∧
      ((l.inFlight x).length < K → ∃ l'', ((duplex name K msgs).startAt l').Run Any [.sent x] l'' ∧
        SameBut x l' l'' ∧ Ready (name !x) (l''.node x) ∧ l''.backlog x = rest ∧
        (l''.inFlight x).length = (l.inFlight x).length + 1) := by
  obtain ⟨s₁, s₂, h₁, h₂, htask, s₃, h₃, hready'⟩ := hready.writes m
  have hne : (!x) ≠ x := by cases x <;> simp
  let l₁ : Link := { l.setNode x ((l.node x).toDispatcher [⟨.toPeer (name !x) m, none⟩]) with
    backlog := Function.update l.backlog x rest }
  let l₂ := (l₁.setNode x s₁).setNode x s₂
  have hqueue : (duplex name K msgs).step l (.queue x) = some l₁ := by
    simp only [duplex, move, hback, l₁]
  have hdispatch : (duplex name K msgs).step l₁ (.dispatch x) = some (l₁.setNode x s₁) := by
    simp only [duplex, move, l₁, setNode, Function.update_self, h₁, Option.map_some]
  have hcommand : (duplex name K msgs).step (l₁.setNode x s₁) (.command x) = some l₂ := by
    simp only [duplex, move, setNode, Function.update_self, h₂, Option.map_some, l₂]
  have hsame : SameBut x l l₂ := by
    refine ⟨?_, ?_, rfl⟩
    · simp only [l₂, l₁, setNode, Function.update_of_ne hne]
    · simp only [l₂, l₁, setNode, Function.update_of_ne hne]
  refine ⟨l₂, ?_, hsame, rfl, ⟨_, _, by simpa [l₂, setNode] using htask⟩, fun hroom => ?_⟩
  · exact System.run_cons.mpr ⟨trivial, l₁, hqueue, System.run_cons.mpr ⟨trivial, _, hdispatch,
      System.run_cons.mpr ⟨trivial, l₂, hcommand, .nil⟩⟩⟩
  · let l₃ : Link := { l₂.setNode x s₃ with
      inFlight := Function.update l₂.inFlight x (l₂.inFlight x ++ [m]) }
    have hroom : (l₂.inFlight x).length < K := hroom
    have hsent : (duplex name K msgs).step l₂ (.sent x) = some l₃ := by
      have hnode : l₂.node x = s₂ := by simp [l₂, setNode]
      simp only [duplex, move, hnode, htask, if_pos hroom, h₃, Option.map_some, l₃]
    refine ⟨l₃, ?_, ?_, ?_, ?_, ?_⟩
    · exact System.run_cons.mpr ⟨trivial, l₃, hsent, .nil⟩
    · refine ⟨?_, rfl, ?_⟩
      · simp only [l₃, setNode, Function.update_of_ne hne]
      · simp only [l₃, Function.update_of_ne hne]
    · simpa [l₃, setNode] using hready'
    · simp [l₃, l₂, l₁, setNode]
    · simp [l₃, l₂, l₁, setNode]

/-- With more messages than fit, `x` fills its direction and gets stuck in
a write. -/
theorem fill {x : Bool} : ∀ (n : Nat) {l : Link}, Ready (name !x) (l.node x) →
    (l.inFlight x).length + n = K → n < (l.backlog x).length →
    ∃ mvs l', ((duplex name K msgs).startAt l).Run Any mvs l' ∧ SameBut x l l' ∧
      (∃ p m, (l'.node x).task 0 = .peerSend p m) ∧ (l'.inFlight x).length = K
  | n, l, hready, hfull, hmore => by
      obtain ⟨m, rest, hback⟩ : ∃ m rest, l.backlog x = m :: rest :=
        List.exists_cons_of_length_pos (Nat.zero_lt_of_lt hmore)
      obtain ⟨l₁, h₁, hsame₁, hflight, htask, hsend⟩ :=
        pump name K msgs hready hback
      cases n with
      | zero => exact ⟨_, l₁, h₁, hsame₁, htask, by rw [hflight]; exact hfull⟩
      | succ n =>
          obtain ⟨l₂, h₂, hsame₂, hready₂, hback₂, hflight₂⟩ := hsend (by omega)
          obtain ⟨mvs, l', h, hsame, htask', hfull'⟩ := fill n hready₂ (by omega)
            (by rw [hback₂]; simpa [hback] using hmore)
          exact ⟨_, l', System.run_append.mpr ⟨l₁, h₁, System.run_append.mpr ⟨l₂, h₂, h⟩⟩,
            (hsame₁.trans hsame₂).trans hsame, htask', hfull'⟩

/-- Both directions, one after the other. -/
theorem exists_deadlock (h : ∀ x, K < (msgs x).length) :
    ∃ mvs l, (duplex name K msgs).Run Any mvs l ∧ l.Deadlocked K := by
  obtain ⟨mvs, l, hl, ⟨hnode, hback, hflight⟩, htask, hfull⟩ :=
    fill name K msgs (x := false) K (l := .start name msgs)
      (ready_registered ..) (by simp [start]) (h false)
  have hnode : l.node true = _ := hnode
  have hback : l.backlog true = _ := hback
  have hflight : l.inFlight true = _ := hflight
  obtain ⟨mvs', l', hl', ⟨hnode', -, hflight'⟩, htask', hfull'⟩ :=
    fill name K msgs (x := true) K (l := l)
      (by rw [hnode]; exact ready_registered ..) (by rw [hflight]; simp [start])
      (by rw [hback]; exact h true)
  have hnode' : l'.node false = _ := hnode'
  have hflight' : l'.inFlight false = _ := hflight'
  refine ⟨mvs ++ mvs', l', System.run_append.mpr ⟨l, hl, hl'⟩, Bool.forall_bool.mpr ⟨?_, ?_⟩⟩
  · rw [hnode', hflight']
    exact ⟨htask, hfull.ge⟩
  · exact ⟨htask', hfull'.ge⟩

end Link

/-- **Writing both ways.** No interleaving blocks the two nodes on each
other if and only if one of them has no more messages for the other than
its direction of the connection holds. -/
theorem deadlockFree_iff (name : Bool → PeerId) (K : Nat) (msgs : Bool → List PeerMessage) :
    (∀ mvs l, (duplex name K msgs).Run Any mvs l → ¬l.Deadlocked K) ↔
      (msgs false).length ≤ K ∨ (msgs true).length ≤ K := by
  constructor
  · intro hfree
    by_contra hmore
    push Not at hmore
    obtain ⟨mvs, l, hrun, hdead⟩ := Link.exists_deadlock name K msgs
      (Bool.forall_bool.mpr hmore)
    exact hfree mvs l hrun hdead
  · intro hfits mvs l hrun hdead
    have hload : ∀ x, K < (msgs x).length := fun x => (hdead.load x).trans_le (load_run hrun x)
    rcases hfits with hfits | hfits
    · exact absurd hfits (Nat.not_le_of_lt (hload false))
    · exact absurd hfits (Nat.not_le_of_lt (hload true))

/-- Each tendermint has two requests for the other, and each direction
holds one frame. -/
theorem crossing_writes_deadlock :
    ¬∀ (name : Bool → PeerId) (K : Nat) (msgs : Bool → List PeerMessage), 1 ≤ K →
      ∀ mvs l, (duplex name K msgs).Run Any mvs l → ¬l.Deadlocked K := by
  intro h
  obtain ⟨mvs, l, hrun, hdead⟩ := Link.exists_deadlock (fun x => if x then ⟨"b"⟩ else ⟨"a"⟩) 1
    (fun _ => [.addressBookRequest ⟨"a"⟩, .addressBookRequest ⟨"b"⟩]) (by simp)
  exact h _ 1 _ le_rfl mvs l hrun hdead

end Mt

end Reactor
