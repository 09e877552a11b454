import Reactor.SnProcess

/-!
# The seed node: a network

Any number of processes, and the TCP connections between them. A
connection is made when a loop dials an address that some node listens on;
its other end waits with the operating system until the listener thread
passes it on. What is written on one end arrives at the other, in order
and whole. A read finds the end of the stream when nothing is left to read
and nobody holds the other end any more: neither the node, which holds an
end by its events, by the loop, or by the threads of a remote peer, nor a
subscriber that was handed a clone of it.

From outside come requests only: anything but `Terminate`, and but
`Connected`, for which one would need a connection.

Every node of the network moves as a process does (`step_process`), so
that whatever every process keeps, every node keeps.
-/

namespace Reactor.Sn

open Function (update)

/-! ## State -/

/-- The ids of nodes, and who listens on an address. -/
structure Hosts (ι : Type) where
  name : ι → ID
  host : String → Option ι

structure Network (ι : Type) where
  nodes : ι → Process
  /-- Which node has an end of a connection. -/
  owner : TcpStream → Option ι
  /-- What has been written to an end and not yet been read on it. -/
  inbox : TcpStream → List PeerMessage
  nextConn : Nat
  /-- The connections that the listener thread has yet to pass on. -/
  backlog : ι → List Nat
  /-- The clones that subscribers hold. -/
  lent : List TcpStream

/-- A thread that has not ended, or the remote peer itself, holds the
stream. -/
def Threads.Alive (t : Threads) : Prop := t.sending ∨ t.receiving ∨ t.dropped = false

instance (t : Threads) : Decidable t.Alive := inferInstanceAs (Decidable (_ ∨ _ ∨ _))

/-- The end a loop has dialed and not yet put in its channel. -/
def Ctl.dialing? : Ctl → Option TcpStream
  | .handling _ (.dialed e) _ | .handling _ (.greeted e) _ => some e
  | _ => none

def Process.Holds (p : Process) (e : TcpStream) : Prop :=
  (∃ m ∈ p.mails, m.ev = .peer (.connected e)) ∨ p.ctl.dialing? = some e ∨
    ∃ k < p.nextChannel, ∃ t ∈ p.threads k, t.peer.stream = e ∧ t.Alive

instance (p : Process) (e : TcpStream) : Decidable (p.Holds e) :=
  inferInstanceAs (Decidable (_ ∨ _ ∨ _))

namespace Network

variable {ι : Type}

def new (hosts : Hosts ι) : Network ι :=
  ⟨fun x => .new (hosts.name x), fun _ => none, fun _ => [], 0, fun _ => [], []⟩

/-- Somebody holds the end. -/
def Open (s : Network ι) (e : TcpStream) : Prop :=
  e ∈ s.lent ∨ ∃ x ∈ s.owner e, (e.side = .listener ∧ e.conn ∈ s.backlog x) ∨ (s.nodes x).Holds e

instance (s : Network ι) (e : TcpStream) : Decidable (s.Open e) :=
  inferInstanceAs (Decidable (_ ∨ _))

variable [DecidableEq ι]

/-! ## Steps -/

@[simp] def setNode (s : Network ι) (x : ι) (p : Process) : Network ι :=
  { s with nodes := update s.nodes x p }

/-- What is written on one end arrives at the other. -/
@[simp] def write (s : Network ι) (e : TcpStream) (msg : PeerMessage) : Network ι :=
  { s with inbox := update s.inbox e.other (s.inbox e.other ++ [msg]) }

/-- A new connection from `x` to `y`. -/
@[simp] def connect (s : Network ι) (x y : ι) : Network ι :=
  { s with
    owner := update (update s.owner ⟨s.nextConn, .dialer⟩ (some x)) ⟨s.nextConn, .listener⟩ (some y)
    nextConn := s.nextConn + 1
    backlog := update s.backlog y (s.backlog y ++ [s.nextConn]) }

end Network

/-- The answers of the world, but for what comes of a dial. -/
def Io.dialing (io : Io) (r : Option TcpStream) : Io
  | .connect _ => r
  | c => io c

/-- The answers of the world, but for what is read. -/
def Io.reading (io : Io) (r : Option PeerMessage) : Io
  | .readPeerMessage _ => r
  | c => io c

/-- What may be asked of a node from outside. -/
def Event.isRequest : Event → Bool
  | .peer (.connected _) | .terminate => false
  | _ => true

inductive Move
  | post (ev : Event)
  /-- The listener thread passes on a connection. -/
  | accept
  | take
  | loop (io : Io)
  | sendEnds (k : Nat)
  | receive (k : Nat)
  | receiveEnds (k : Nat)
  /-- A subscriber drops a clone. -/
  | release (e : TcpStream)

namespace Network

variable {ι : Type} [DecidableEq ι]

/-- The loop of a node makes a call, whose effect outside of it is `s'`. -/
def advance (s : Network ι) (x : ι) (io : Io) (s' : Network ι) : Option (Network ι) :=
  ((s.nodes x).advance io).map (s'.setNode x)

/-- One call of the loop of a node, or the end of its round. A read blocks
while there is nothing to read and the other end is open. -/
def loop (hosts : Hosts ι) (s : Network ι) (x : ι) (io : Io) : Option (Network ι) :=
  match (s.nodes x).pending with
  | some (.connect addr) =>
      match io (.connect addr), hosts.host addr with
      | some _, some y => s.advance x (io.dialing (some ⟨s.nextConn, .dialer⟩)) (s.connect x y)
      | _, _ => s.advance x (io.dialing none) s
  | some (.readPeerMessage e) =>
      match s.inbox e with
      | msg :: rest =>
          s.advance x (io.reading (some msg)) { s with inbox := update s.inbox e rest }
      | [] => if s.Open e.other then none else s.advance x (io.reading none) s
  | some (.writePeerMessage e msg) =>
      s.advance x io (if io (.writePeerMessage e msg) then s.write e msg else s)
  | some (.trySend id notify (.peer (.connected e))) =>
      let lent := match io (.trySend id notify (.peer (.connected e))) with
        | .vacant => e :: s.lent
        | _ => s.lent
      s.advance x io { s with lent }
  | _ => s.advance x io s

def step (hosts : Hosts ι) (s : Network ι) : ι × Move → Option (Network ι)
  | (x, .post ev) =>
      if ev.isRequest then some (s.setNode x ((s.nodes x).post ev .outside)) else none
  | (x, .accept) =>
      match s.backlog x with
      | c :: rest => some
          { s.setNode x ((s.nodes x).post (.peer (.connected ⟨c, .listener⟩)) .listener) with
            backlog := update s.backlog x rest }
      | [] => none
  | (x, .take) => (s.nodes x).take.map (s.setNode x)
  | (x, .loop io) => s.loop hosts x io
  | (x, .sendEnds k) => ((s.nodes x).sendEnds k).map (s.setNode x)
  | (x, .receive k) =>
      match (s.nodes x).threads k with
      | some t =>
          match s.inbox t.peer.stream with
          | msg :: rest => ((s.nodes x).received k msg).map fun p =>
              { s.setNode x p with inbox := update s.inbox t.peer.stream rest }
          | [] => none
      | none => none
  | (x, .receiveEnds k) =>
      match (s.nodes x).threads k with
      | some t =>
          if s.inbox t.peer.stream = [] ∧ ¬s.Open t.peer.stream.other then
            ((s.nodes x).receiveEnds k).map (s.setNode x)
          else none
      | none => none
  | (_, .release e) => if e ∈ s.lent then some { s with lent := s.lent.erase e } else none

end Network

def network {ι : Type} [DecidableEq ι] (hosts : Hosts ι) : System (Network ι) (ι × Move) :=
  ⟨.new hosts, Network.step hosts⟩

namespace Network

variable {ι : Type} [DecidableEq ι] {hosts : Hosts ι} {s s' : Network ι} {x : ι} {io : Io}

/-! ## What a step does -/

/-- What the process of a node does in a step of the network. -/
def Acts (s : Network ι) (x : ι) : Move → Act → Prop
  | .post ev, .post ev' => ev' = ev ∧ ev.isRequest
  | .loop _, .loop io => ∀ e msg, (s.nodes x).pending = some (.readPeerMessage e) →
      io (.readPeerMessage e) = some msg → msg ∈ s.inbox e
  | .sendEnds k, .sendEnds k' | .receiveEnds k, .receiveEnds k' => k' = k
  | .accept, .accept _ | .take, .take | .receive _, .received _ _ => True
  | _, _ => False

/-- The loop of a node makes a move of its own, and nothing else happens to
the nodes. What is read is what has been written. -/
theorem loop_cases (h : s.loop hosts x io = some s') :
    ∃ io' p, (s.nodes x).advance io' = some p ∧ s'.nodes = update s.nodes x p ∧
      s.Acts x (.loop io) (.loop io') := by
  have hadvance : ∀ {io' : Io} {t : Network ι}, s.advance x io' t = some s' →
      t.nodes = s.nodes → s.Acts x (.loop io) (.loop io') →
      ∃ io' p, (s.nodes x).advance io' = some p ∧ s'.nodes = update s.nodes x p ∧
        s.Acts x (.loop io) (.loop io') := by
    intro io' t ht hnodes hacts
    obtain ⟨p, hp, rfl⟩ := Option.map_eq_some_iff.mp ht
    exact ⟨io', p, hp, by simp [hnodes], hacts⟩
  unfold loop at h
  split at h
  · next hpending =>
      have hno : ∀ io', s.Acts x (.loop io) (.loop io') := fun io' e msg he => by
        simp [hpending] at he
      split at h
      · exact hadvance h rfl (hno _)
      · exact hadvance h rfl (hno _)
  · next e hpending =>
      split at h
      · next msg rest hinbox =>
          refine hadvance h rfl fun e' msg' he hmsg => ?_
          obtain rfl : e = e' := by simpa [hpending] using he
          obtain rfl : msg = msg' := by simpa [Io.reading] using hmsg
          simp [hinbox]
      · split at h
        · cases h
        · refine hadvance h rfl fun e' msg' he hmsg => ?_
          simp [Io.reading] at hmsg
  · next hpending =>
      refine hadvance h ?_ fun e' msg' he => by simp [hpending] at he
      split <;> rfl
  · next hpending => exact hadvance h rfl fun e' msg' he => by simp [hpending] at he
  · next hread _ _ => exact hadvance h rfl fun e' msg' he => absurd he (hread e')

/-- **A node moves as a process.** -/
theorem step_process {mv : Move} (h : s.step hosts (x, mv) = some s') (z : ι) :
    s'.nodes z = s.nodes z ∨
      z = x ∧ ∃ a, (s.nodes z).step a = some (s'.nodes z) ∧ s.Acts x mv a := by
  have hmove : ∀ {a : Act} {p : Process}, (s.nodes x).step a = some p →
      s'.nodes = update s.nodes x p → s.Acts x mv a →
      s'.nodes z = s.nodes z ∨
        z = x ∧ ∃ a, (s.nodes z).step a = some (s'.nodes z) ∧ s.Acts x mv a := by
    intro a p ha hnodes hacts
    by_cases hz : z = x
    · subst hz
      exact .inr ⟨rfl, a, by rw [ha, hnodes]; simp, hacts⟩
    · exact .inl (by simp [hnodes, hz])
  cases mv with
  | post ev =>
      simp only [step] at h
      split at h
      · next hreq =>
          obtain rfl := Option.some.inj h
          exact @hmove (.post ev) _ rfl rfl ⟨rfl, hreq⟩
      · cases h
  | accept =>
      simp only [step] at h
      split at h
      · next c rest hbacklog =>
          obtain rfl := Option.some.inj h
          exact @hmove (.accept ⟨c, .listener⟩) _ rfl rfl trivial
      · cases h
  | take =>
      obtain ⟨p, hp, rfl⟩ := Option.map_eq_some_iff.mp h
      exact @hmove .take _ hp rfl trivial
  | loop io =>
      obtain ⟨io', p, hp, hnodes, hacts⟩ := loop_cases h
      exact @hmove (.loop io') _ hp hnodes hacts
  | sendEnds k =>
      obtain ⟨p, hp, rfl⟩ := Option.map_eq_some_iff.mp h
      exact @hmove (.sendEnds k) _ hp rfl rfl
  | receive k =>
      simp only [step] at h
      split at h
      · split at h
        · next msg rest _ =>
            obtain ⟨p, hp, rfl⟩ := Option.map_eq_some_iff.mp h
            exact @hmove (.received k msg) _ hp rfl trivial
        · cases h
      · cases h
  | receiveEnds k =>
      simp only [step] at h
      split at h
      · split at h
        · obtain ⟨p, hp, rfl⟩ := Option.map_eq_some_iff.mp h
          exact @hmove (.receiveEnds k) _ hp rfl rfl
        · cases h
      · cases h
  | release e =>
      simp only [step] at h
      split at h
      · obtain rfl := Option.some.inj h
        exact .inl rfl
      · cases h

/-- The loop writes a message on an end. -/
def Writes (s : Network ι) (x : ι) (e : TcpStream) (msg : PeerMessage) : Move → Prop
  | .loop io => (s.nodes x).pending = some (.writePeerMessage e msg) ∧ io (.writePeerMessage e msg)
  | _ => False

omit [DecidableEq ι] in
theorem Writes.pending {e : TcpStream} {msg : PeerMessage} {mv : Move}
    (h : s.Writes x e msg mv) : (s.nodes x).pending = some (.writePeerMessage e msg) := by
  cases mv with
  | loop io => exact h.1
  | _ => exact h.elim

omit [DecidableEq ι] in
/-- Something is read on one end. -/
theorem inbox_read {e : TcpStream} {rest : List PeerMessage}
    (h : s'.inbox = update s.inbox e rest) (hrest : rest <:+ s.inbox e) (f : TcpStream) :
    s'.inbox f <:+ s.inbox f := by
  rw [h]
  by_cases hf : f = e
  · subst hf
    simpa using hrest
  · simp [hf]

theorem loop_inbox {io : Io} (h : s.loop hosts x io = some s') :
    ((∀ f, s'.inbox f <:+ s.inbox f) ∧ ∀ e msg, ¬s.Writes x e msg (.loop io)) ∨
      ∃ e msg, s.Writes x e msg (.loop io) ∧
        s'.inbox = update s.inbox e.other (s.inbox e.other ++ [msg]) := by
  have hsame : s'.inbox = s.inbox → ∀ f, s'.inbox f <:+ s.inbox f := fun heq f =>
    heq ▸ List.suffix_refl _
  have hadvance : ∀ {io' : Io} {t : Network ι}, s.advance x io' t = some s' →
      s'.inbox = t.inbox := by
    intro io' t ht
    obtain ⟨p, -, rfl⟩ := Option.map_eq_some_iff.mp ht
    rfl
  unfold loop at h
  split at h
  · next hpending =>
      have hno : ∀ e msg, ¬s.Writes x e msg (.loop io) := by simp [Writes, hpending]
      split at h
      · exact .inl ⟨hsame ((hadvance h).trans rfl), hno⟩
      · exact .inl ⟨hsame (hadvance h), hno⟩
  · next hpending =>
      have hno : ∀ e msg, ¬s.Writes x e msg (.loop io) := by simp [Writes, hpending]
      split at h
      · next hinbox => exact .inl ⟨inbox_read (hadvance h) (by simp [hinbox]), hno⟩
      · split at h
        · cases h
        · exact .inl ⟨hsame (hadvance h), hno⟩
  · next e msg hpending =>
      split at h
      · next hio => exact .inr ⟨e, msg, ⟨hpending, hio⟩, (hadvance h).trans rfl⟩
      · next hio =>
          refine .inl ⟨hsame (hadvance h), fun e' msg' ⟨hpending', hio'⟩ => hio ?_⟩
          rw [hpending] at hpending'
          obtain ⟨rfl, rfl⟩ := Call.writePeerMessage.inj (Option.some.inj hpending')
          exact hio'
  · next hpending =>
      exact .inl ⟨hsame ((hadvance h).trans rfl), by simp [Writes, hpending]⟩
  · next hwrite _ =>
      exact .inl ⟨hsame (hadvance h), fun e msg hw => hwrite e msg hw.1⟩

/-- What is to be read grows only by what a loop writes, on the other end. -/
theorem inbox_cases {mv : Move} (h : s.step hosts (x, mv) = some s') :
    ((∀ f, s'.inbox f <:+ s.inbox f) ∧ ∀ e msg, ¬s.Writes x e msg mv) ∨
      ∃ e msg, s.Writes x e msg mv ∧
        s'.inbox = update s.inbox e.other (s.inbox e.other ++ [msg]) := by
  have hsame : s'.inbox = s.inbox → ∀ f, s'.inbox f <:+ s.inbox f := fun heq f =>
    heq ▸ List.suffix_refl _
  cases mv with
  | post ev =>
      simp only [step] at h
      split at h <;> cases h
      exact .inl ⟨hsame rfl, fun _ _ => id⟩
  | accept =>
      simp only [step] at h
      split at h <;> cases h
      exact .inl ⟨hsame rfl, fun _ _ => id⟩
  | take =>
      obtain ⟨p, -, rfl⟩ := Option.map_eq_some_iff.mp h
      exact .inl ⟨hsame rfl, fun _ _ => id⟩
  | sendEnds k =>
      obtain ⟨p, -, rfl⟩ := Option.map_eq_some_iff.mp h
      exact .inl ⟨hsame rfl, fun _ _ => id⟩
  | loop io => exact loop_inbox h
  | receive k =>
      simp only [step] at h
      split at h
      · split at h
        · next hinbox =>
            obtain ⟨p, -, rfl⟩ := Option.map_eq_some_iff.mp h
            exact .inl ⟨inbox_read rfl (by simp [hinbox]), fun _ _ => id⟩
        · cases h
      · cases h
  | receiveEnds k =>
      simp only [step] at h
      split at h
      · split at h
        · obtain ⟨p, -, rfl⟩ := Option.map_eq_some_iff.mp h
          exact .inl ⟨hsame rfl, fun _ _ => id⟩
        · cases h
      · cases h
  | release e =>
      simp only [step] at h
      split at h <;> cases h
      exact .inl ⟨hsame rfl, fun _ _ => id⟩

/-- What every process keeps, every node keeps. -/
theorem sound_step {mv : Move} (hsound : ∀ x, (s.nodes x).Sound)
    (h : s.step hosts (x, mv) = some s') (z : ι) : (s'.nodes z).Sound := by
  rcases step_process h z with heq | ⟨-, a, ha, -⟩
  · exact heq ▸ hsound z
  · exact Process.sound_step (hsound z) ha

end Network

end Reactor.Sn
