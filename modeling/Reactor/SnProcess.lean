import Mathlib.Logic.Function.Basic
import Reactor.SnStages
import Reactor.Transition

/-!
# The seed node: a process

One running node: the event loop, its channel, and the two threads of
every `RemotePeer` it has ever started. The loop takes an event and makes
the calls of its round one at a time (`advance`), and between any two of
them the threads and the outside world may move.

What the threads do is `remote_peer_send_loop` and
`remote_peer_receive_loop`. Nothing in the node calls `RemotePeer::send`,
so the sending thread has nothing to write, and only wakes up when its
channel is closed. An event in the channel carries a mark of who put it
there; the marks decide nothing.

Calls that concern the process alone are carried out here (`perform`); the
answers to the others come from an environment, which is the world in the
system of one process and the network where there are several.
-/

namespace Reactor.Sn

/-! ## State -/

/-- Who put an event in the channel: someone outside, the listener thread,
the loop itself, or the sending or receiving thread of a remote peer. -/
inductive Sender
  | outside
  | listener
  | node
  | sendLoop (channel : Nat)
  | receiveLoop (channel : Nat)
deriving DecidableEq, Repr

structure Mail where
  ev : Event
  sender : Sender
deriving DecidableEq

/-- The remote peer whose thread sent an event. -/
def Mail.thread? (m : Mail) : Option Nat :=
  match m.sender with
  | .sendLoop k | .receiveLoop k => some k
  | _ => none

/-- The threads of a remote peer, and whether it has been dropped, which
closes the channel to its sending thread. -/
structure Threads where
  peer : RemotePeer
  sending : Bool
  receiving : Bool
  dropped : Bool
deriving DecidableEq

/-- What the loop is doing: waiting for an event, or in a round, with the
stage it has come to and what is left of it. -/
inductive Ctl
  | waiting
  | handling (mail : Mail) (stage : Stage) (rest : Prog Turn)
  | returned
  | failed (e : Failure)

/-- `node` is what the last round left. -/
structure Process where
  node : SeedNode
  ctl : Ctl
  queue : List Mail
  threads : Nat → Option Threads
  nextChannel : Nat

namespace Process

def new (id : ID) : Process := ⟨.new id, .waiting, [], fun _ => none, 0⟩

/-- Puts an event in the channel. -/
@[simp] def post (p : Process) (ev : Event) (sender : Sender) : Process :=
  { p with queue := p.queue ++ [⟨ev, sender⟩] }

@[simp] def setThreads (p : Process) (k : Nat) (t : Threads) : Process :=
  { p with threads := Function.update p.threads k (some t) }

/-! ## The loop -/

/-- The events in the channel and the one being handled. -/
def mails (p : Process) : List Mail :=
  match p.ctl with
  | .handling m _ _ => m :: p.queue
  | _ => p.queue

/-- The call the loop is about to make. -/
def pending (p : Process) : Option Call :=
  match p.ctl with
  | .handling _ _ (.call c _) => some c
  | _ => none

/-- Takes the next event from the channel. -/
def take (p : Process) : Option Process :=
  match p.ctl, p.queue with
  | .waiting, m :: rest =>
      some { p with ctl := .handling m .start (p.node.turn m.ev), queue := rest }
  | _, _ => none

/-- Carries out a call, with the answer of the environment where the
process does not know better. -/
def perform (p : Process) (io : Io) : ∀ c : Call, c.Answer × Process
  | .spawn id stream =>
      (p.nextChannel,
        { p.setThreads p.nextChannel ⟨⟨id, stream, p.nextChannel⟩, true, true, false⟩ with
          nextChannel := p.nextChannel + 1 })
  | .send ev => ((), p.post ev .node)
  | .drop peer =>
      ((), match p.threads peer.senderChannel with
        | some t => p.setThreads peer.senderChannel { t with dropped := true }
        | none => p)
  | c => (io c, p)

/-- One call of the round, or its end. -/
def advance (p : Process) (io : Io) : Option Process :=
  match p.ctl with
  | .handling m s (.call c k) =>
      let (r, p) := p.perform io c
      some { p with ctl := .handling m (s.next c r) (k r) }
  | .handling _ _ (.ret (.next node)) => some { p with node, ctl := .waiting }
  | .handling _ _ (.ret (.done node)) => some { p with node, ctl := .returned }
  | .handling _ _ (.stop e) => some { p with ctl := .failed e }
  | _ => none

/-! ## The threads -/

/-- The sending thread finds its channel closed. -/
def sendEnds (p : Process) (k : Nat) : Option Process :=
  match p.threads k with
  | some t =>
      if t.sending ∧ t.dropped then
        some ((p.setThreads k { t with sending := false }).post
          (.peer (.disconnect t.peer.id)) (.sendLoop k))
      else none
  | none => none

/-- The receiving thread passes a message on. -/
def received (p : Process) (k : Nat) (msg : PeerMessage) : Option Process :=
  match p.threads k with
  | some t =>
      if t.receiving then
        some (p.post (.peer (.receivedMessage t.peer.id msg)) (.receiveLoop k))
      else none
  | none => none

/-- The receiving thread fails to read. -/
def receiveEnds (p : Process) (k : Nat) : Option Process :=
  match p.threads k with
  | some t =>
      if t.receiving then
        some ((p.setThreads k { t with receiving := false }).post
          (.peer (.disconnect t.peer.id)) (.receiveLoop k))
      else none
  | none => none

end Process

/-- A step of a process in a world that may do anything. -/
inductive Act
  | post (ev : Event)
  /-- The listener thread passes on a connection. -/
  | accept (stream : TcpStream)
  | take
  | loop (io : Io)
  | sendEnds (k : Nat)
  | received (k : Nat) (msg : PeerMessage)
  | receiveEnds (k : Nat)

def Process.step (p : Process) : Act → Option Process
  | .post ev => some (p.post ev .outside)
  | .accept stream => some (p.post (.peer (.connected stream)) .listener)
  | .take => p.take
  | .loop io => p.advance io
  | .sendEnds k => p.sendEnds k
  | .received k msg => p.received k msg
  | .receiveEnds k => p.receiveEnds k

def process (id : ID) : System Process Act := ⟨.new id, Process.step⟩

/-! ## What a step does -/

namespace Process

variable {p p' : Process} {io : Io}

theorem mails_post (ev : Event) (sender : Sender) :
    (p.post ev sender).mails = p.mails ++ [⟨ev, sender⟩] := by
  unfold mails Process.post
  cases p.ctl <;> rfl

theorem mails_handling {m : Mail} {s : Stage} {rest : Prog Turn}
    (hctl : p.ctl = .handling m s rest) : p.mails = m :: p.queue := by
  simp [mails, hctl]

theorem handling_of_pending {c : Call} (h : p.pending = some c) :
    ∃ m s k, p.ctl = .handling m s (.call c k) := by
  unfold pending at h
  split at h
  · next m s c k hctl =>
      obtain rfl := Option.some.inj h
      exact ⟨m, s, k, hctl⟩
  · cases h

theorem take_cases (h : p.take = some p') :
    ∃ m rest, p.ctl = .waiting ∧ p.queue = m :: rest ∧
      p' = { p with ctl := .handling m .start (p.node.turn m.ev), queue := rest } := by
  unfold take at h
  split at h
  · next m rest hctl hqueue => exact ⟨m, rest, hctl, hqueue, (Option.some.inj h).symm⟩
  · cases h

/-- A call, or one of the three ends of a round. -/
theorem advance_cases (h : p.advance io = some p') :
    (∃ m s c k, p.ctl = .handling m s (.call c k) ∧
      p' = { (p.perform io c).2 with
        ctl := .handling m (s.next c (p.perform io c).1) (k (p.perform io c).1) }) ∨
    (∃ m s node, p.ctl = .handling m s (.ret (.next node)) ∧
      p' = { p with node, ctl := .waiting }) ∨
    (∃ m s node, p.ctl = .handling m s (.ret (.done node)) ∧
      p' = { p with node, ctl := .returned }) ∨
    (∃ m s e, p.ctl = .handling m s (.stop e) ∧ p' = { p with ctl := .failed e }) := by
  unfold advance at h
  split at h
  · next m s c k hctl => exact .inl ⟨m, s, c, k, hctl, (Option.some.inj h).symm⟩
  · next m s node hctl => exact .inr (.inl ⟨m, s, node, hctl, (Option.some.inj h).symm⟩)
  · next m s node hctl => exact .inr (.inr (.inl ⟨m, s, node, hctl, (Option.some.inj h).symm⟩))
  · next m s e hctl => exact .inr (.inr (.inr ⟨m, s, e, hctl, (Option.some.inj h).symm⟩))
  · cases h

theorem sendEnds_cases {k : Nat} (h : p.sendEnds k = some p') :
    ∃ t, p.threads k = some t ∧ t.sending ∧ t.dropped ∧
      p' = (p.setThreads k { t with sending := false }).post
        (.peer (.disconnect t.peer.id)) (.sendLoop k) := by
  unfold sendEnds at h
  split at h
  · next t ht =>
      split at h
      · next hs => exact ⟨t, ht, hs.1, hs.2, (Option.some.inj h).symm⟩
      · cases h
  · cases h

theorem received_cases {k : Nat} {msg : PeerMessage} (h : p.received k msg = some p') :
    ∃ t, p.threads k = some t ∧ t.receiving ∧
      p' = p.post (.peer (.receivedMessage t.peer.id msg)) (.receiveLoop k) := by
  unfold received at h
  split at h
  · next t ht =>
      split at h
      · next hs => exact ⟨t, ht, hs, (Option.some.inj h).symm⟩
      · cases h
  · cases h

theorem receiveEnds_cases {k : Nat} (h : p.receiveEnds k = some p') :
    ∃ t, p.threads k = some t ∧ t.receiving ∧
      p' = (p.setThreads k { t with receiving := false }).post
        (.peer (.disconnect t.peer.id)) (.receiveLoop k) := by
  unfold receiveEnds at h
  split at h
  · next t ht =>
      split at h
      · next hs => exact ⟨t, ht, hs, (Option.some.inj h).symm⟩
      · cases h
  · cases h

/-! ## What stays true -/

/-- What is left of a round keeps the contract of rounds; every remote peer
that is registered, or about to be, has its threads; and one about to be
registered has its stream from the event and has not been dropped. -/
structure Sound (p : Process) : Prop where
  channel : ∀ k t, p.threads k = some t → k < p.nextChannel ∧ t.peer.senderChannel = k
  follows : ∀ m s rest, p.ctl = .handling m s rest → rest.Follows (p.node.handling m.ev) s
  started : ∀ m s rest peer, p.ctl = .handling m s rest → s = .started peer ∨ s = .announced peer →
    m.ev = .peer (.connected peer.stream) ∧
      ∃ t, p.threads peer.senderChannel = some t ∧ t.peer = peer ∧ t.dropped = false
  peers : ∀ id peer, p.node.peers.lookup id = some peer →
    peer.id = id ∧ ∃ t, p.threads peer.senderChannel = some t ∧ t.peer = peer

theorem sound_new (id : ID) : (new id).Sound where
  channel k t h := by cases h
  follows m s rest h := by cases h
  started m s rest peer h := by cases h
  peers id peer h := by simp [new, SeedNode.new] at h

/-- Where the threads belong to the same peers as before, no peer about to
be registered is dropped, and the round keeps its contract. -/
theorem Sound.mono (h : p.Sound) (hnode : p'.node = p.node) (hnext : p'.nextChannel = p.nextChannel)
    (hback : ∀ k t', p'.threads k = some t' → ∃ t, p.threads k = some t ∧ t'.peer = t.peer)
    (hforth : ∀ k t, p.threads k = some t → ∃ t', p'.threads k = some t' ∧ t'.peer = t.peer)
    (hctl : ∀ m s rest, p'.ctl = .handling m s rest → rest.Follows (p.node.handling m.ev) s ∧
      ∀ peer, s = .started peer ∨ s = .announced peer → m.ev = .peer (.connected peer.stream) ∧
        ∃ t, p'.threads peer.senderChannel = some t ∧ t.peer = peer ∧ t.dropped = false) :
    p'.Sound where
  channel k t' ht' := by
    obtain ⟨t, ht, hpeer⟩ := hback k t' ht'
    rw [hnext, hpeer]
    exact h.channel k t ht
  follows m s rest hc := hnode ▸ (hctl m s rest hc).1
  started m s rest peer hc := (hctl m s rest hc).2 peer
  peers id peer hl := by
    obtain ⟨hid, t, ht, rfl⟩ := h.peers id peer (hnode ▸ hl)
    exact ⟨hid, (hforth _ t ht).imp fun _ ht' => ht'⟩

theorem Sound.post (h : p.Sound) (ev : Event) (sender : Sender) : (p.post ev sender).Sound :=
  h.mono rfl rfl (fun _ t ht => ⟨t, ht, rfl⟩) (fun _ t ht => ⟨t, ht, rfl⟩) fun m s rest hctl =>
    ⟨h.follows m s rest hctl, fun peer => h.started m s rest peer hctl⟩

theorem setThreads_cases {k k₁ : Nat} {u t₁ : Threads}
    (h : (p.setThreads k u).threads k₁ = some t₁) :
    k₁ = k ∧ t₁ = u ∨ k₁ ≠ k ∧ p.threads k₁ = some t₁ := by
  by_cases hk : k₁ = k
  · exact .inl ⟨hk, by simpa [hk, eq_comm] using h⟩
  · exact .inr ⟨hk, by simpa [hk] using h⟩

/-- Threads that are changed keep their peer. -/
theorem setThreads_keeps {k : Nat} {t u : Threads} (ht : p.threads k = some t)
    (hpeer : u.peer = t.peer) (k₁ : Nat) (t₁ : Threads) (ht₁ : p.threads k₁ = some t₁) :
    ∃ t', (p.setThreads k u).threads k₁ = some t' ∧ t'.peer = t₁.peer := by
  by_cases hk : k₁ = k
  · subst hk
    obtain rfl : t = t₁ := Option.some.inj (ht.symm.trans ht₁)
    exact ⟨u, by simp, hpeer⟩
  · exact ⟨t₁, by simpa [hk] using ht₁, rfl⟩

/-- A thread ends, or its peer is dropped while none is being registered. -/
theorem Sound.setThreads (h : p.Sound) {k : Nat} {t u : Threads} (ht : p.threads k = some t)
    (hpeer : u.peer = t.peer)
    (hdropped : u.dropped = t.dropped ∨ ∀ m s rest peer, p.ctl = .handling m s rest →
      s ≠ .started peer ∧ s ≠ .announced peer) :
    (p.setThreads k u).Sound := by
  refine h.mono rfl rfl (fun k₁ t₁ ht₁ => ?_) (setThreads_keeps ht hpeer)
    fun m s rest hctl => ⟨h.follows m s rest hctl, fun peer hs => ?_⟩
  · obtain ⟨rfl, rfl⟩ | ⟨-, hold⟩ := setThreads_cases ht₁
    · exact ⟨t, ht, hpeer⟩
    · exact ⟨t₁, hold, rfl⟩
  · obtain ⟨hev, t₁, ht₁, hpeer₁, hdropped₁⟩ := h.started m s rest peer hctl hs
    refine ⟨hev, ?_⟩
    by_cases hk : peer.senderChannel = k
    · subst hk
      obtain rfl : t = t₁ := Option.some.inj (ht.symm.trans ht₁)
      rcases hdropped with hdropped | hno
      · exact ⟨u, by simp, hpeer.trans hpeer₁, hdropped.trans hdropped₁⟩
      · rcases hs with hs | hs
        · exact absurd hs (hno m s rest peer hctl).1
        · exact absurd hs (hno m s rest peer hctl).2
    · exact ⟨t₁, by simpa [hk] using ht₁, hpeer₁, hdropped₁⟩

/-- A call that changes nothing in the process but the round. -/
theorem Sound.goOn (h : p.Sound) {m : Mail} {s : Stage} {c : Call} {k : c.Answer → Prog Turn}
    (hctl : p.ctl = .handling m s (.call c k)) (hc : ∀ id stream, c ≠ .spawn id stream)
    (r : c.Answer) : Sound { p with ctl := .handling m (s.next c r) (k r) } := by
  refine h.mono rfl rfl (fun _ t ht => ⟨t, ht, rfl⟩) (fun _ t ht => ⟨t, ht, rfl⟩)
    fun m' s' rest' hctl' => ?_
  obtain ⟨rfl, rfl, rfl⟩ := Ctl.handling.inj hctl'
  exact ⟨(h.follows m s _ hctl).2 r,
    fun peer hs => h.started m s _ peer hctl (Stage.next_started hc hs)⟩

/-- A remote peer started on a new channel. -/
theorem Sound.start (h : p.Sound) {m : Mail} {s : Stage} {id : ID} {stream : TcpStream}
    {k : Nat → Prog Turn} (hctl : p.ctl = .handling m s (.call (.spawn id stream) k)) :
    Sound { p.setThreads p.nextChannel ⟨⟨id, stream, p.nextChannel⟩, true, true, false⟩ with
      nextChannel := p.nextChannel + 1
      ctl := .handling m (.started ⟨id, stream, p.nextChannel⟩) (k p.nextChannel) } := by
  obtain ⟨⟨-, hconn, -⟩, hrest⟩ := h.follows m s _ hctl
  refine ⟨fun k₁ t₁ ht₁ => ?_, fun m₁ s₁ rest₁ hctl₁ => ?_, fun m₁ s₁ rest₁ peer hctl₁ hs => ?_,
    fun id₁ peer hl => ?_⟩
  · by_cases hk : k₁ = p.nextChannel
    · subst hk
      obtain rfl := Option.some.inj (show some _ = some t₁ by simpa using ht₁)
      exact ⟨Nat.lt_succ_self _, rfl⟩
    · obtain ⟨hlt, heq⟩ := h.channel k₁ t₁ (by simpa [hk] using ht₁)
      exact ⟨Nat.lt_succ_of_lt hlt, heq⟩
  · obtain ⟨rfl, rfl, rfl⟩ := Ctl.handling.inj hctl₁
    exact hrest p.nextChannel
  · obtain ⟨rfl, rfl, rfl⟩ := Ctl.handling.inj hctl₁
    rcases hs with hs | hs
    · obtain rfl := Stage.started.inj hs
      exact ⟨hconn, _, Function.update_self .., rfl, rfl⟩
    · cases hs
  · obtain ⟨hid, t, ht, hpeer⟩ := h.peers id₁ peer hl
    have hk : peer.senderChannel ≠ p.nextChannel := (h.channel _ t ht).1.ne
    exact ⟨hid, t, by simpa [hk] using ht, hpeer⟩

/-- The peers after a round are those before it, one more, or some less. -/
theorem Sound.leaves (h : p.Sound) {m : Mail} {s : Stage} {rest : Prog Turn}
    (hctl : p.ctl = .handling m s rest) {peers : HashMap ID RemotePeer}
    (hleaves : p.node.Leaves m.ev s peers) {id : ID} {peer : RemotePeer}
    (hl : peers.lookup id = some peer) :
    peer.id = id ∧ ∃ t, p.threads peer.senderChannel = some t ∧ t.peer = peer := by
  unfold SeedNode.Leaves at hleaves
  split at hleaves
  · exact h.peers id peer (hleaves.1 ▸ hl)
  · exact h.peers id peer (hleaves ▸ hl)
  · exact h.peers id peer (hleaves ▸ hl)
  · exact h.peers id peer (hleaves.1 ▸ hl)
  · next new =>
      rw [hleaves] at hl
      by_cases hid : id = new.id
      · subst hid
        obtain rfl := Option.some.inj ((Finmap.lookup_insert _).symm.trans hl)
        obtain ⟨-, t, ht, hpeer, -⟩ := h.started m _ _ new hctl (.inr rfl)
        exact ⟨rfl, t, ht, hpeer⟩
      · exact h.peers id peer (by rwa [Finmap.lookup_insert_of_ne _ hid] at hl)
  · obtain ⟨id', -, hpeers⟩ := hleaves
    rw [hpeers] at hl
    by_cases hid : id = id'
    · subst hid; simp at hl
    · exact h.peers id peer (by rwa [Finmap.lookup_erase_ne hid] at hl)
  all_goals cases hleaves

/-- The end of a round. -/
theorem Sound.settle (h : p.Sound) {node : SeedNode} {ctl : Ctl}
    (hend : ∀ m s rest, ctl ≠ .handling m s rest)
    (hpeers : ∀ id peer, node.peers.lookup id = some peer →
      peer.id = id ∧ ∃ t, p.threads peer.senderChannel = some t ∧ t.peer = peer) :
    Sound { p with node, ctl } :=
  ⟨h.channel, fun _ _ _ hc => absurd hc (hend _ _ _),
    fun _ _ _ _ hc => absurd hc (hend _ _ _), hpeers⟩

theorem sound_advance (h : p.Sound) (hs : p.advance io = some p') : p'.Sound := by
  obtain ⟨m, s, c, k, hctl, rfl⟩ | ⟨m, s, node, hctl, rfl⟩ | ⟨m, s, node, hctl, rfl⟩ |
    ⟨m, s, e, hctl, rfl⟩ := advance_cases hs
  · cases c with
    | spawn id stream => exact h.start hctl
    | send ev => exact (h.goOn hctl (by simp) ()).post ev .node
    | drop peer =>
        have hgo := h.goOn hctl (by simp) ()
        simp only [perform]
        cases ht : p.threads peer.senderChannel with
        | none => exact hgo
        | some t =>
            refine hgo.setThreads ht rfl (.inr fun m s rest peer hc => ?_)
            obtain ⟨-, rfl, -⟩ := Ctl.handling.inj hc
            exact ⟨by simp [Stage.next], by simp [Stage.next]⟩
    | _ => exact h.goOn hctl (by simp) _
  · exact h.settle (by simp) fun id peer => h.leaves hctl (h.follows m s _ hctl).2.2
  · exact h.settle (by simp) fun id peer hl => h.peers id peer ((h.follows m s _ hctl).2 id peer hl)
  · exact h.settle (by simp) h.peers

theorem sound_step {a : Act} (h : p.Sound) (hs : p.step a = some p') : p'.Sound := by
  cases a with
  | post ev =>
      obtain rfl := Option.some.inj hs
      exact h.post ev .outside
  | accept stream =>
      obtain rfl := Option.some.inj hs
      exact h.post _ .listener
  | take =>
      obtain ⟨m, rest, hctl, hqueue, rfl⟩ := take_cases hs
      refine h.mono rfl rfl (fun _ t ht => ⟨t, ht, rfl⟩) (fun _ t ht => ⟨t, ht, rfl⟩)
        fun m' s rest' hctl' => ?_
      obtain ⟨rfl, rfl, rfl⟩ := Ctl.handling.inj hctl'
      exact ⟨turn_follows p.node m.ev, fun peer hpeer => by simp at hpeer⟩
  | loop io => exact sound_advance h hs
  | sendEnds k =>
      obtain ⟨t, ht, -, -, rfl⟩ := sendEnds_cases hs
      exact (h.setThreads (u := { t with sending := false }) ht rfl (.inl rfl)).post _ _
  | received k msg =>
      obtain ⟨t, -, -, rfl⟩ := received_cases hs
      exact h.post _ _
  | receiveEnds k =>
      obtain ⟨t, ht, -, rfl⟩ := receiveEnds_cases hs
      exact (h.setThreads (u := { t with receiving := false }) ht rfl (.inl rfl)).post _ _

end Process

end Reactor.Sn
