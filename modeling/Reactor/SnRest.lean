import Mathlib.Data.Prod.Lex
import Reactor.Rest
import Reactor.SnAgreement

/-!
# The network comes to rest

What nodes do by themselves uses things up: an event in a channel becomes a
round, a dial two connected ends, an end that is kept two threads, a
message on a stream an event, and a thread that ends another. `load` counts
what is still ahead of each of them; within a round it is the calls that
run out, of which there are only so many (`turn_within`).

**`network_comes_to_rest`**: left alone, nodes stop after finitely many
moves, and they have stopped exactly when every loop has ended, waits for
an event, or waits for a hello that has not come on a connection that is
still open, and no thread has anything to read or to close. Whatever call
of a loop fails, but nobody is told to end and no connection breaks.
-/

namespace Reactor.Sn

open Function (update)
open Program
open Reactor.System (Any Only AtRest Settles)

/-! ## The calls of a round -/

theorem clone_within (ev : Event) (site : CloneSite) : (ev.clone site).Within 1 := by
  unfold Event.clone
  split
  · rw [tryClone_bind, within_call]
    intro ok
    cases ok <;> trivial
  · trivial

theorem notifyAll_within (ev : Event) (subs : HashMap SubscriptionID Notify) :
    ∀ ids : List SubscriptionID, (notifyAll ev subs ids).Within (2 * ids.length)
  | [] => trivial
  | id :: ids => by
      have ih := notifyAll_within ev subs ids
      rw [notifyAll, List.length_cons]
      cases subs.lookup id with
      | none => exact ih.mono (by omega)
      | some notify =>
          have hlength : 1 + (2 * ids.length + 1) ≤ 2 * (ids.length + 1) := by omega
          refine ((clone_within ev _).bind fun _ => ?_).mono hlength
          rw [trySend_bind, within_call]
          intro channel
          cases channel with
          | vacant => exact ih
          | full | disconnected => trivial

theorem publishEvent_within (self : SeedNode) (ev : Event) :
    ∃ n, (self.publishEvent ev).Within n := by
  have hpublish : ∃ n, (self.subscriptions.publish ev).Within n := by
    unfold Subscriptions.publish
    split
    · exact ⟨0, trivial⟩
    · split
      · exact ⟨0, trivial⟩
      · next subs _ =>
          refine ⟨2 * subs.keys.card + 1, ?_⟩
          rw [subscriptionOrder_bind, within_call]
          intro it
          have hlength : (it.order subs.keys).length = subs.keys.card := it.length_order
          exact hlength ▸ notifyAll_within ev subs _
  obtain ⟨n, hn⟩ := hpublish
  refine ⟨1 + (n + 0), (clone_within ev _).bind fun _ => hn.bind fun r => ?_⟩
  split <;> trivial

theorem tryAddPeer_within (self : SeedNode) (stream : TcpStream) (hello : PeerHello) :
    (self.tryAddPeer stream hello).Within 7 := by
  unfold SeedNode.tryAddPeer
  split
  · trivial
  · simp [Option.forall]

theorem handlePeerEvent_within (self : SeedNode) (pe : PeerEvent) :
    (self.handlePeerEvent pe).Within 9 := by
  cases pe with
  | connected stream =>
      simp only [SeedNode.handlePeerEvent, SeedNode.peerConnected, SeedNode.readPeerHello,
        tryClone_bind, orFail_bind, readPeerMessage_bind, within_call, Bool.forall_bool]
      refine ⟨trivial, ?_⟩
      rw [if_pos trivial, within_call]
      intro r
      split
      · exact tryAddPeer_within self stream _
      · trivial
  | connect addr =>
      simp [SeedNode.handlePeerEvent, SeedNode.connectToPeer, Option.forall]
  | disconnect id =>
      simp only [SeedNode.handlePeerEvent, SeedNode.disconnectPeer]
      split
      · trivial
      · rw [drop_bind, within_call]
        exact fun _ => trivial
  | _ => trivial

theorem disconnectEach_within (ids : List ID) (self : SeedNode) :
    (self.disconnectEach ids).Within ids.length := by
  induction ids generalizing self with
  | nil => trivial
  | cons id ids ih =>
      simp only [SeedNode.disconnectEach, SeedNode.disconnectPeer, List.length_cons]
      split
      · exact (ih self).mono (by omega)
      · rw [drop_bind, call_bind, within_call]
        exact fun _ => ih _

theorem handlePubsubEvent_within (self : SeedNode) (req : PubSubRequest) :
    (self.handlePubsubEvent req).Within 2 := by
  cases req with
  | subscribe subs =>
      simp only [SeedNode.handlePubsubEvent, SeedNode.handleSubscribe, eventIdOrder_bind,
        unwrap_bind, within_call]
      intro keys
      cases self.subscriptions.add (keys subs.id) subs <;> trivial
  | unsubscribe ids =>
      simp only [SeedNode.handlePubsubEvent, SeedNode.handleUnsubscribe, eventIdOrder_bind,
        subscriptionOrder_bind, unwrap_bind, within_call]
      intro it keys
      cases self.subscriptions.removeAll it keys ids <;> trivial

theorem disconnectAllPeers_within (self : SeedNode) :
    self.disconnectAllPeers.Within (self.peers.keys.card + 1) := by
  rw [SeedNode.disconnectAllPeers, peerOrder_bind, within_call]
  intro it
  have hwithin := disconnectEach_within (it.order self.peers.keys) self
  rwa [it.length_order] at hwithin

theorem handleEvent_within (self : SeedNode) (ev : Event) :
    ∃ n, (self.handleEvent ev).Within n := by
  have hreturn : ∀ {m : Nat} {p : Prog SeedNode} (f : SeedNode → Turn), p.Within m →
      (p >>= fun node => pure (f node)).Within (m + 0) := fun _ h => h.bind fun _ => trivial
  cases ev with
  | peer pe => exact ⟨_, hreturn _ (handlePeerEvent_within self pe)⟩
  | pubSub req => exact ⟨_, hreturn _ (handlePubsubEvent_within self req)⟩
  | terminate => exact ⟨_, hreturn _ (disconnectAllPeers_within self)⟩

/-- A round makes only so many calls. -/
theorem turn_within (self : SeedNode) (ev : Event) : ∃ n, (self.turn ev).Within n := by
  obtain ⟨n, hn⟩ := publishEvent_within self ev
  obtain ⟨m, hm⟩ := handleEvent_within self ev
  exact ⟨1 + (n + m), (clone_within ev .run).bind fun _ => hn.bind fun _ => hm⟩

/-! ## What is still ahead -/

/-- What an event leads to. A connection may still bring an answer, two
threads and an event, and a dial a connection at either end. -/
def Event.load : Event → Nat
  | .peer (.connected _) => 12
  | .peer (.connect _) => 31
  | _ => 1

/-- What a round may still lead to. -/
def Stage.load (ev : Event) : Stage → Nat
  | .start => ev.load
  | .dialed _ => 17
  | .greeted _ => 14
  | .introduced _ => 12
  | .answered _ => 9
  | .started _ => 3
  | _ => 1

def Ctl.load : Ctl → Nat
  | .handling m st _ => st.load m.ev
  | _ => 0

/-- The loop has come to its end, and does nothing more. -/
def Ctl.ended : Ctl → Bool
  | .returned | .failed _ => true
  | _ => false

theorem Process.pending_of_reading {p : Process} {e : TcpStream} (h : e ∈ p.reading?) :
    p.pending = some (.readPeerMessage e) := by
  unfold Process.reading? at h
  split at h
  · next e' hpending =>
      obtain rfl := Option.some.inj h
      exact hpending
  · cases h

/-- The calls left of a round. -/
noncomputable def Ctl.left : Ctl → Nat
  | .handling _ _ rest => rest.left
  | _ => 0

/-- A thread ends with one event. -/
def Threads.load (t : Threads) : Nat := 3 * (t.sending.toNat + t.receiving.toNat)

/-- The events in a channel. -/
def queueLoad : List Mail → Nat
  | [] => 0
  | m :: queue => m.ev.load + 1 + queueLoad queue

@[simp] theorem queueLoad_nil : queueLoad [] = 0 := rfl

@[simp] theorem queueLoad_cons (m : Mail) (queue : List Mail) :
    queueLoad (m :: queue) = m.ev.load + 1 + queueLoad queue := rfl

@[simp] theorem queueLoad_append (queue queue' : List Mail) :
    queueLoad (queue ++ queue') = queueLoad queue + queueLoad queue' := by
  induction queue with
  | nil => simp
  | cons m queue ih => simp [ih, Nat.add_assoc]

namespace Process

/-- The load of the threads on a channel. -/
def loadOn (p : Process) (k : Nat) : Nat := (p.threads k).elim 0 Threads.load

/-- What is ahead of the channel and of the threads. -/
def stock (p : Process) : Nat :=
  queueLoad p.queue + ∑ k ∈ Finset.range p.nextChannel, p.loadOn k

def load (p : Process) : Nat := p.ctl.load + p.stock

end Process

/-- The part of a call that leaves the process: a connection, or a message
that is written. -/
def Call.sends : ∀ c : Call, c.Answer → Nat
  | .connect _, some _ => 14
  | .writePeerMessage _ _, true => 3
  | _, _ => 0

/-- The part that stays: an event, or two threads. -/
def Call.leaves : Call → Nat
  | .send ev => ev.load + 1
  | .spawn _ _ => 6
  | _ => 0

theorem Event.load_pos (ev : Event) : 0 < ev.load := by
  unfold Event.load
  split <;> simp

theorem Stage.load_pos (st : Stage) (ev : Event) : 0 < st.load ev := by
  cases st <;> simp [Stage.load, Event.load_pos]

/-- A call leads to no more than there was ahead. -/
theorem Stage.load_next {node : SeedNode} {ev : Event} {st : Stage} {c : Call}
    (hallows : node.Allows ev st c) (r : c.Answer) :
    (st.next c r).load ev + c.sends r + c.leaves ≤ st.load ev := by
  cases c with
  | tryClone site stream =>
      obtain ⟨rfl | ⟨id, rfl⟩, rfl⟩ := hallows <;> cases r <;>
        simp [Stage.next, Stage.load, Event.load, Call.sends, Call.leaves]
  | connect addr =>
      obtain ⟨rfl, rfl⟩ := hallows
      cases r <;> simp [Stage.next, Stage.load, Event.load, Call.sends, Call.leaves]
  | localAddr stream =>
      obtain ⟨id, rfl, rfl, -⟩ := hallows
      cases r <;> simp [Stage.next, Stage.load, Call.sends, Call.leaves]
  | readPeerMessage stream =>
      obtain ⟨rfl, rfl⟩ := hallows
      cases r with
      | none => simp [Stage.next, Stage.load, Event.load, Call.sends, Call.leaves]
      | some msg =>
          cases msg <;> simp [Stage.next, Stage.load, Event.load, Call.sends, Call.leaves]
  | writePeerMessage stream msg =>
      obtain ⟨-, ⟨rfl, -⟩ | ⟨id, rfl, -, -⟩⟩ := hallows <;> cases r <;>
        simp [Stage.next, Stage.load, Call.sends, Call.leaves]
  | trySend id notify ev' =>
      obtain ⟨rfl, -⟩ := hallows
      simp [Stage.next, Call.sends, Call.leaves]
  | send ev' =>
      rcases hallows with ⟨stream, rfl, rfl⟩ | ⟨peer, addr, rfl, rfl⟩ <;>
        simp [Stage.next, Stage.load, Event.load, Call.sends, Call.leaves]
  | spawn id stream =>
      obtain ⟨rfl, -, -⟩ := hallows
      simp [Stage.next, Stage.load, Call.sends, Call.leaves]
  | drop peer =>
      rcases hallows with ⟨rfl, id, rfl, -⟩ | ⟨rfl | rfl, rfl⟩ <;>
        simp [Stage.next, Stage.load, Event.load, Call.sends, Call.leaves]
  | subscriptionOrder | eventIdOrder | peerOrder =>
      obtain rfl : st = .start := hallows
      simp [Stage.next, Call.sends, Call.leaves]

/-! ## What a step of a process leads to -/

namespace Process

variable {p p' : Process} {io : Io}

@[simp] theorem stock_post (ev : Event) (sender : Sender) :
    (p.post ev sender).stock = p.stock + (ev.load + 1) := by
  simp only [stock, post, queueLoad_append, queueLoad_cons, queueLoad_nil]
  have hsame : ∀ k, (Process.loadOn { p with queue := p.queue ++ [⟨ev, sender⟩] } k) = p.loadOn k :=
    fun _ => rfl
  simp only [hsame]
  omega

/-- The threads on one channel change. -/
theorem stock_setThreads {k : Nat} {t : Threads} (hk : k < p.nextChannel) :
    (p.setThreads k t).stock + p.loadOn k = p.stock + t.load := by
  have hsum := System.sum_share (f := p.loadOn) (g := (p.setThreads k t).loadOn)
    (Finset.mem_range.mpr hk) fun j hj => by simp [loadOn, hj]
  have hload : (p.setThreads k t).loadOn k = t.load := by simp [loadOn]
  simp only [stock, setThreads] at hsum hload ⊢
  omega

theorem stock_perform (hsound : p.Sound) (c : Call) :
    (p.perform io c).2.stock = p.stock + c.leaves := by
  cases c with
  | spawn id stream =>
      have hold : ∀ k ∈ Finset.range p.nextChannel,
          (p.perform io (.spawn id stream)).2.loadOn k = p.loadOn k := by
        intro k hk
        have hne : k ≠ p.nextChannel := (Finset.mem_range.mp hk).ne
        simp [perform, loadOn, hne]
      have hnew : (p.perform io (.spawn id stream)).2.loadOn p.nextChannel = 6 := by
        simp [perform, loadOn, Threads.load]
      have hnext : (p.perform io (.spawn id stream)).2.nextChannel = p.nextChannel + 1 := rfl
      have hsum : ∑ k ∈ Finset.range p.nextChannel,
          (p.perform io (.spawn id stream)).2.loadOn k =
          ∑ k ∈ Finset.range p.nextChannel, p.loadOn k := Finset.sum_congr rfl hold
      have hqueue : (p.perform io (.spawn id stream)).2.queue = p.queue := rfl
      rw [stock, hnext, Finset.sum_range_succ, hnew, hsum, hqueue, stock, Call.leaves]
      omega
  | send ev => exact stock_post ev .node
  | drop peer =>
      simp only [perform, Call.leaves]
      split
      · next t ht =>
          have hset := stock_setThreads (p := p) (t := { t with dropped := true })
            (hsound.channel _ t ht).1
          simp only [loadOn, ht, Option.elim_some, Threads.load] at hset
          omega
      · rfl
  | _ => rfl

theorem sends_perform (c : Call) : c.sends (p.perform io c).1 = c.sends (io c) := by
  cases c <;> rfl

/-- A call leads to no more than there was ahead, and is one less left; the
end of a round leads to nothing. -/
theorem load_advance (hsound : p.Sound)
    (hwithin : ∀ m st rest, p.ctl = .handling m st rest → ∃ n, rest.Within n)
    (hs : p.advance io = some p') :
    (∃ c, p.pending = some c ∧ p'.load + c.sends (io c) ≤ p.load ∧ p'.ctl.left < p.ctl.left) ∨
      p.pending = none ∧ p'.load < p.load := by
  have hend : ∀ {m st rest node ctl}, p.ctl = .handling m st rest →
      (∀ c k, rest ≠ .call c k) → ctl.load = 0 → p' = { p with node, ctl } →
      p.pending = none ∧ p'.load < p.load := by
    rintro m st rest node ctl hctl hcall hload rfl
    have hpos := st.load_pos m.ev
    refine ⟨?_, ?_⟩
    · cases rest with
      | call c k => exact absurd rfl (hcall c k)
      | _ => simp [pending, hctl]
    · have hbefore : p.load = st.load m.ev + p.stock := by rw [load, hctl, Ctl.load]
      have hafter : load { p with node, ctl } = ctl.load + p.stock := rfl
      omega
  obtain ⟨m, st, c, k, hctl, rfl⟩ | ⟨m, st, node, hctl, rfl⟩ | ⟨m, st, node, hctl, rfl⟩ |
    ⟨m, st, e, hctl, rfl⟩ := advance_cases hs
  · refine .inl ⟨c, by simp [pending, hctl], ?_, ?_⟩
    · have hnext := Stage.load_next (hsound.follows m st _ hctl).1 (p.perform io c).1
      have hstock : (p.perform io c).2.stock = p.stock + c.leaves := stock_perform hsound c
      rw [sends_perform] at hnext
      have hbefore : p.load = st.load m.ev + p.stock := by rw [load, hctl, Ctl.load]
      have hafter : load { (p.perform io c).2 with
          ctl := .handling m (st.next c (p.perform io c).1) (k (p.perform io c).1) } =
        (st.next c (p.perform io c).1).load m.ev + (p.perform io c).2.stock := rfl
      omega
    · simp only [hctl, Ctl.left]
      exact left_lt (hwithin m st _ hctl) _
  · exact .inr (hend hctl (by simp) rfl rfl)
  · exact .inr (hend hctl (by simp) rfl rfl)
  · exact .inr (hend hctl (by simp) rfl rfl)

theorem load_take (hs : p.take = some p') : p'.load + 1 = p.load := by
  obtain ⟨m, rest, hctl, hqueue, rfl⟩ := take_cases hs
  have hon : ∀ k, loadOn { p with
      ctl := .handling m .start (p.node.turn m.ev), queue := rest } k = p.loadOn k := fun _ => rfl
  simp only [load, stock, hon, hctl, hqueue, Ctl.load, Stage.load, queueLoad_cons]
  omega

@[simp] theorem load_post (ev : Event) (sender : Sender) :
    (p.post ev sender).load = p.load + (ev.load + 1) := by
  have hstock := p.stock_post ev sender
  simp only [load, post] at hstock ⊢
  omega

/-- A thread that ends does so with one event. -/
theorem load_ends (hsound : p.Sound) {k : Nat} {t u : Threads} (ht : p.threads k = some t)
    (hload : u.load + 3 = t.load) (id : ID) (sender : Sender) :
    ((p.setThreads k u).post (.peer (.disconnect id)) sender).load < p.load := by
  have hset := stock_setThreads (t := u) (hsound.channel k t ht).1
  have hon : p.loadOn k = t.load := by simp [loadOn, ht]
  have hbefore : (p.setThreads k u).load = p.ctl.load + (p.setThreads k u).stock := rfl
  have hevent : (Event.peer (.disconnect id)).load = 1 := rfl
  rw [load_post, hbefore, hevent, load]
  omega

theorem load_sendEnds (hsound : p.Sound) {k : Nat} (hs : p.sendEnds k = some p') :
    p'.load < p.load := by
  obtain ⟨t, ht, hsending, -, rfl⟩ := sendEnds_cases hs
  refine load_ends hsound ht ?_ _ _
  simp [Threads.load, hsending]
  omega

theorem load_receiveEnds (hsound : p.Sound) {k : Nat} (hs : p.receiveEnds k = some p') :
    p'.load < p.load := by
  obtain ⟨t, ht, hreceiving, rfl⟩ := receiveEnds_cases hs
  refine load_ends hsound ht ?_ _ _
  simp [Threads.load, hreceiving]
  omega

theorem load_received {k : Nat} {msg : PeerMessage} (hs : p.received k msg = some p') :
    p'.load = p.load + 2 := by
  obtain ⟨t, -, -, rfl⟩ := received_cases hs
  exact load_post _ _

/-- The calls left of a round are bounded all along. -/
theorem within_step {a : Act}
    (h : ∀ m st rest, p.ctl = .handling m st rest → ∃ n, rest.Within n)
    (hs : p.step a = some p') {m : Mail} {st : Stage} {rest : Prog Turn}
    (hctl : p'.ctl = .handling m st rest) : ∃ n, rest.Within n := by
  cases a with
  | post ev | accept stream =>
      obtain rfl := Option.some.inj hs
      exact h m st rest hctl
  | take =>
      obtain ⟨m', queue, -, -, rfl⟩ := take_cases hs
      obtain ⟨rfl, rfl, rfl⟩ := Ctl.handling.inj hctl
      exact turn_within p.node m'.ev
  | loop io =>
      obtain ⟨m', st', c, k, hctl', rfl⟩ | ⟨m', st', node, hctl', rfl⟩ |
        ⟨m', st', node, hctl', rfl⟩ | ⟨m', st', e, hctl', rfl⟩ := advance_cases hs
      · obtain ⟨rfl, rfl, rfl⟩ := Ctl.handling.inj hctl
        obtain ⟨n, -, hn⟩ := h m' st' _ hctl'
        exact ⟨n - 1, hn _⟩
      all_goals cases hctl
  | sendEnds k =>
      obtain ⟨t, -, -, -, rfl⟩ := sendEnds_cases hs
      exact h m st rest hctl
  | received k msg =>
      obtain ⟨t, -, -, rfl⟩ := received_cases hs
      exact h m st rest hctl
  | receiveEnds k =>
      obtain ⟨t, -, -, rfl⟩ := receiveEnds_cases hs
      exact h m st rest hctl

end Process

/-! ## What a step of the network leads to -/

/-- Whatever is not asked from outside. -/
def Move.Unasked : Move → Prop
  | .post _ => False
  | _ => True

namespace Network

variable {ι : Type}

/-- What is ahead of a node and of the connections that its listener thread
has yet to pass on. -/
def loadAt (s : Network ι) (x : ι) : Nat := (s.nodes x).load + 14 * (s.backlog x).length

/-- What is written on a connection and not yet read. -/
def loadOn (s : Network ι) (c : Nat) : Nat :=
  3 * ((s.inbox ⟨c, .dialer⟩).length + (s.inbox ⟨c, .listener⟩).length)

/-- A loop only writes on an end of its own. -/
theorem owner_of_write {s : Network ι} {x : ι} {e : TcpStream} {msg : PeerMessage}
    (hsound : (s.nodes x).Sound) (howned : s.view.Owned)
    (h : (s.nodes x).pending = some (.writePeerMessage e msg)) : s.owner e = some x := by
  obtain ⟨m, st, k, hctl⟩ := Process.handling_of_pending h
  obtain ⟨⟨-, ⟨rfl, -⟩ | ⟨id, rfl, hev, -⟩⟩, -⟩ := hsound.follows m st _ hctl
  · have hnow : s.view.now x = .dialed e := view_now hctl
    exact howned.unread x e (Exchange.mem_unread_of_now (by simp [hnow, Now.pending]))
  · have hnow : s.view.now x = .met e := by simp [view_now hctl, Stage.now, hev, Event.stream?]
    exact (howned.met x e hnow).1

/-- There is something to read only where there is a connection. -/
theorem lt_of_inbox {s : Network ι} {e : TcpStream} (howned : s.view.Owned)
    (he : s.inbox e ≠ []) : e.conn < s.nextConn := by
  by_contra hle
  exact he (howned.blank e (Nat.le_of_not_lt hle))

/-- What is kept along a run and makes it end. -/
structure Tended (s : Network ι) : Prop where
  sound : ∀ x, (s.nodes x).Sound
  owned : s.view.Owned
  within : ∀ x m st rest, (s.nodes x).ctl = .handling m st rest → ∃ n, rest.Within n

section

variable [Fintype ι]

def load (s : Network ι) : Nat :=
  ∑ x, s.loadAt x + ∑ c ∈ Finset.range s.nextConn, s.loadOn c

/-- The calls left of all rounds, and the clones that are left with
subscribers. -/
noncomputable def left (s : Network ι) : Nat := 2 * ∑ x, (s.nodes x).ctl.left + s.lent.length

/-- A call uses up nothing but itself. -/
noncomputable def ahead (s : Network ι) : ℕ ×ₗ ℕ := toLex (s.load, s.left)

variable {s s' : Network ι}

theorem ahead_lt (h : s'.load < s.load ∨ s'.load ≤ s.load ∧ s'.left < s.left) :
    s'.ahead < s.ahead := by
  rw [ahead, ahead, Prod.Lex.toLex_lt_toLex]
  rcases h with h | ⟨hload, hleft⟩
  · exact .inl h
  · rcases hload.lt_or_eq with h | h
    · exact .inl h
    · exact .inr ⟨h, hleft⟩

variable [DecidableEq ι]

theorem load_setNode (s : Network ι) (x : ι) (p : Process) :
    (s.setNode x p).load + (s.nodes x).load = s.load + p.load := by
  have hsum := System.sum_share (f := s.loadAt) (g := (s.setNode x p).loadAt) (Finset.mem_univ x)
    fun y hy => by simp [loadAt, hy]
  have hnode : (s.setNode x p).loadAt x = p.load + 14 * (s.backlog x).length := by simp [loadAt]
  have hconn : ∑ c ∈ Finset.range (s.setNode x p).nextConn, (s.setNode x p).loadOn c =
    ∑ c ∈ Finset.range s.nextConn, s.loadOn c := rfl
  have hold : s.loadAt x = (s.nodes x).load + 14 * (s.backlog x).length := rfl
  rw [load, load, hconn]
  omega

theorem left_setNode (s : Network ι) (x : ι) (p : Process) :
    (s.setNode x p).left + 2 * (s.nodes x).ctl.left = s.left + 2 * p.ctl.left := by
  have hsum := System.sum_share (f := fun y => (s.nodes y).ctl.left)
    (g := fun y => ((s.setNode x p).nodes y).ctl.left) (Finset.mem_univ x)
    fun y hy => by simp [hy]
  have hlent : (s.setNode x p).lent = s.lent := rfl
  simp only [left, hlent]
  simp only [setNode, Function.update_self] at hsum ⊢
  omega

omit [DecidableEq ι] in
/-- What is to be read on one end changes. -/
theorem load_inbox (s : Network ι) {e : TcpStream} (he : e.conn < s.nextConn)
    (msgs : List PeerMessage) :
    load { s with inbox := update s.inbox e msgs } + 3 * (s.inbox e).length =
      s.load + 3 * msgs.length := by
  have hsum := System.sum_share (f := s.loadOn)
    (g := loadOn { s with inbox := update s.inbox e msgs }) (Finset.mem_range.mpr he)
    fun c hc => by
      have hne : ∀ side, (⟨c, side⟩ : TcpStream) ≠ e := fun side h => hc (h ▸ rfl)
      simp [loadOn, hne]
  have hconn : loadOn { s with inbox := update s.inbox e msgs } e.conn + 3 * (s.inbox e).length =
      s.loadOn e.conn + 3 * msgs.length := by
    obtain ⟨c, side⟩ := e
    cases side <;> simp [loadOn] <;> omega
  have hnodes : ∑ x, loadAt { s with inbox := update s.inbox e msgs } x = ∑ x, s.loadAt x := rfl
  have hnext : ({ s with inbox := update s.inbox e msgs } : Network ι).nextConn = s.nextConn :=
    rfl
  rw [load, load, hnodes, hnext]
  omega

/-- The connections change that wait to be passed on. -/
theorem load_backlog (s : Network ι) (x : ι) (rest : List Nat) :
    load { s with backlog := update s.backlog x rest } + 14 * (s.backlog x).length =
      s.load + 14 * rest.length := by
  have hsum := System.sum_share (f := s.loadAt)
    (g := loadAt { s with backlog := update s.backlog x rest }) (Finset.mem_univ x)
    fun y hy => by simp [loadAt, hy]
  have hnode : loadAt { s with backlog := update s.backlog x rest } x =
      (s.nodes x).load + 14 * rest.length := by simp [loadAt]
  have hold : s.loadAt x = (s.nodes x).load + 14 * (s.backlog x).length := rfl
  have hconn : ∑ c ∈ Finset.range s.nextConn,
      loadOn { s with backlog := update s.backlog x rest } c =
        ∑ c ∈ Finset.range s.nextConn, s.loadOn c := rfl
  simp only [load, hconn] at hsum ⊢
  omega

/-- A new connection waits to be passed on. -/
theorem load_connect (hs : s.Tended) (x y : ι) : (s.connect x y).load = s.load + 14 := by
  have hsum := System.sum_share (f := s.loadAt) (g := (s.connect x y).loadAt) (Finset.mem_univ y)
    fun z hz => by simp [loadAt, hz]
  have hnode : (s.connect x y).loadAt y = s.loadAt y + 14 := by
    simp only [loadAt, connect, Function.update_self, List.length_append, List.length_singleton]
    omega
  have hblank : s.loadOn s.nextConn = 0 := by
    have hinbox : ∀ side, s.inbox ⟨s.nextConn, side⟩ = [] := fun side =>
      hs.owned.blank ⟨s.nextConn, side⟩ le_rfl
    simp [loadOn, hinbox]
  have hconn : ∑ c ∈ Finset.range (s.connect x y).nextConn, (s.connect x y).loadOn c =
      ∑ c ∈ Finset.range (s.nextConn + 1), s.loadOn c := rfl
  rw [load, load, hconn, Finset.sum_range_succ, hblank]
  omega

variable {hosts : Hosts ι} {x : ι}

/-- A call of the loop of `x`, whose effect outside of it is `t`. -/
theorem ahead_advance (hs : s.Tended) {t : Network ι} {io : Io}
    (h : s.advance x io t = some s') (hnodes : t.nodes = s.nodes)
    (hcost : ∀ c, (s.nodes x).pending = some c → t.load ≤ s.load + c.sends (io c) ∧
      t.left ≤ s.left + 1)
    (hend : (s.nodes x).pending = none → t.load ≤ s.load) : s'.ahead < s.ahead := by
  obtain ⟨p, hp, rfl⟩ := Option.map_eq_some_iff.mp h
  have hload := t.load_setNode x p
  have hleft := t.left_setNode x p
  rw [hnodes] at hload hleft
  refine ahead_lt ?_
  rcases Process.load_advance (hs.sound x) (hs.within x) hp with
    ⟨c, hpending, hle, hlt⟩ | ⟨hpending, hlt⟩
  · obtain ⟨hcost, hlent⟩ := hcost c hpending
    exact .inr ⟨by omega, by omega⟩
  · have := hend hpending
    exact .inl (by omega)

theorem ahead_loop (hs : s.Tended) {io : Io} (h : s.loop hosts x io = some s') :
    s'.ahead < s.ahead := by
  have hplain : ∀ {io' : Io}, s.advance x io' s = some s' → s'.ahead < s.ahead := fun h =>
    ahead_advance hs h rfl (fun c _ => ⟨Nat.le_add_right _ _, Nat.le_succ _⟩) fun _ => le_rfl
  unfold loop at h
  split at h
  · next addr hpending =>
      split at h
      · next y hio hhost =>
          refine ahead_advance hs h rfl (fun c hc => ?_) fun hno => ?_
          · obtain rfl := Option.some.inj (hpending.symm.trans hc)
            exact ⟨(load_connect hs x y).le, Nat.le_succ _⟩
          · rw [hpending] at hno
            cases hno
      · exact hplain h
  · next e hpending =>
      split at h
      · next msg rest hinbox =>
          have hlt : e.conn < s.nextConn := lt_of_inbox hs.owned (by simp [hinbox])
          have hload := s.load_inbox hlt rest
          rw [hinbox, List.length_cons] at hload
          exact ahead_advance hs h rfl (fun c _ => ⟨by omega, Nat.le_succ _⟩) fun _ => by omega
      · split at h
        · cases h
        · exact hplain h
  · next e msg hpending =>
      split at h
      · next hio =>
          have hlt : e.other.conn < s.nextConn :=
            hs.owned.fresh e x (owner_of_write (hs.sound x) hs.owned hpending)
          have hload := s.load_inbox hlt (s.inbox e.other ++ [msg])
          rw [List.length_append, List.length_singleton] at hload
          refine ahead_advance hs h rfl (fun c hc => ?_) fun hno => ?_
          · obtain rfl := Option.some.inj (hpending.symm.trans hc)
            have hsends :
                (Call.writePeerMessage e msg).sends (io (.writePeerMessage e msg)) = 3 := by
              rw [hio]
              rfl
            simp only [write]
            exact ⟨by omega, Nat.le_succ _⟩
          · rw [hpending] at hno
            cases hno
      · exact hplain h
  · next id notify e hpending =>
      refine ahead_advance hs h rfl (fun c hc => ⟨Nat.le_add_right _ _, ?_⟩) fun hno => ?_
      · simp only [left]
        split
        · simp only [List.length_cons]
          omega
        · omega
      · rw [hpending] at hno
        cases hno
  · exact hplain h

/-- A node does something that changes the load of it alone. -/
theorem ahead_node {p : Process} (h : p.load < (s.nodes x).load) :
    (s.setNode x p).ahead < s.ahead := by
  have hload := s.load_setNode x p
  exact ahead_lt (.inl (by omega))

/-- Whatever is not asked from outside uses something up. -/
theorem ahead_step (hs : s.Tended) {mv : Move} (hmv : mv.Unasked)
    (h : s.step hosts (x, mv) = some s') : s'.ahead < s.ahead := by
  cases mv with
  | post ev => exact hmv.elim
  | accept =>
      simp only [step] at h
      split at h
      · next c rest hbacklog =>
          obtain rfl := Option.some.inj h
          have hpassed := s.load_backlog x rest
          have hload := load_setNode { s with backlog := update s.backlog x rest } x
            ((s.nodes x).post (.peer (.connected ⟨c, .listener⟩)) .listener)
          have hpost := (s.nodes x).load_post (.peer (.connected ⟨c, .listener⟩)) .listener
          have hevent : (Event.peer (.connected ⟨c, .listener⟩)).load = 12 := rfl
          have hsame : (nodes { s with backlog := update s.backlog x rest } x).load =
            (s.nodes x).load := rfl
          rw [hbacklog, List.length_cons] at hpassed
          have hlt : load (setNode { s with backlog := update s.backlog x rest } x
              ((s.nodes x).post (.peer (.connected ⟨c, .listener⟩)) .listener)) < s.load := by
            omega
          exact ahead_lt (.inl hlt)
      · cases h
  | take =>
      obtain ⟨p, hp, rfl⟩ := Option.map_eq_some_iff.mp h
      exact ahead_node (by have := Process.load_take hp; omega)
  | loop io => exact ahead_loop hs h
  | sendEnds k =>
      obtain ⟨p, hp, rfl⟩ := Option.map_eq_some_iff.mp h
      exact ahead_node (Process.load_sendEnds (hs.sound x) hp)
  | receive k =>
      simp only [step] at h
      split at h
      · next t ht =>
          split at h
          · next msg rest hinbox =>
              obtain ⟨p, hp, rfl⟩ := Option.map_eq_some_iff.mp h
              have hlt : t.peer.stream.conn < s.nextConn := lt_of_inbox hs.owned (by simp [hinbox])
              have hread := (s.setNode x p).load_inbox hlt rest
              have hload := s.load_setNode x p
              have hp := Process.load_received hp
              rw [show (s.setNode x p).inbox = s.inbox from rfl, hinbox, List.length_cons] at hread
              exact ahead_lt (.inl (by omega))
          · cases h
      · cases h
  | receiveEnds k =>
      simp only [step] at h
      split at h
      · split at h
        · obtain ⟨p, hp, rfl⟩ := Option.map_eq_some_iff.mp h
          exact ahead_node (Process.load_receiveEnds (hs.sound x) hp)
        · cases h
      · cases h
  | release e =>
      simp only [step] at h
      split at h
      · next hlent =>
          obtain rfl := Option.some.inj h
          have hlength := List.length_erase_of_mem hlent
          have hpos := List.length_pos_of_mem hlent
          refine ahead_lt (.inr ⟨le_rfl, ?_⟩)
          simp only [left]
          omega
      · cases h

end

variable [DecidableEq ι] {hosts : Hosts ι} {s s' : Network ι} {x : ι}

theorem tended_step {mv : Move} (hs : s.Tended) (h : s.step hosts (x, mv) = some s') :
    s'.Tended where
  sound z := sound_step hs.sound h z
  owned := by
    rcases step_view (hs.sound x) h with heq | ⟨d, hd, -⟩
    · exact heq ▸ hs.owned
    · exact Exchange.owned_step hs.owned hd
  within z m st rest hctl := by
    rcases step_process h z with heq | ⟨-, a, ha, -⟩
    · exact hs.within z m st rest (heq ▸ hctl)
    · exact Process.within_step (hs.within z) ha hctl

/-- What nodes, listener threads and subscribers do by themselves. -/
def Own (a : ι × Move) : Prop := a.2.Unasked

theorem settles [Fintype ι] (hosts : Hosts ι) :
    (network hosts).Settles Own Tended (ahead : Network ι → ℕ ×ₗ ℕ) where
  keeps _ _ _ hs _ h := tended_step hs h
  lighter _ _ _ hs ha h := ahead_step hs ha h

/-! ## At rest -/

/-- The loop has ended, is waiting for an event, or waits for a hello that
is not there on a connection that somebody holds the other end of. -/
def Stands (s : Network ι) (x : ι) : Prop :=
  (s.nodes x).ctl.ended ∨ ((s.nodes x).ctl.idle ∧ (s.nodes x).queue = []) ∨
    ∃ e ∈ (s.nodes x).reading?, s.inbox e = [] ∧ s.Open e.other

instance (s : Network ι) (x : ι) : Decidable (s.Stands x) :=
  inferInstanceAs (Decidable (_ ∨ _ ∨ _))

/-- No connection waits to be passed on and no clone to be dropped, no loop
can go on, and no thread has a message to read or a reason to end. -/
structure Resting (s : Network ι) : Prop where
  lent : s.lent = []
  backlog : ∀ x, s.backlog x = []
  stands : ∀ x, s.Stands x
  threads : ∀ x, ∀ k < (s.nodes x).nextChannel, ∀ t ∈ (s.nodes x).threads k,
    (t.sending → t.dropped = false) ∧
      (t.receiving → s.inbox t.peer.stream = [] ∧ s.Open t.peer.stream.other)

instance [Fintype ι] (s : Network ι) : Decidable s.Resting :=
  decidable_of_iff (s.lent = [] ∧ (∀ x, s.backlog x = []) ∧ (∀ x, s.Stands x) ∧
      ∀ x, ∀ k < (s.nodes x).nextChannel, ∀ t ∈ (s.nodes x).threads k,
        (t.sending → t.dropped = false) ∧
          (t.receiving → s.inbox t.peer.stream = [] ∧ s.Open t.peer.stream.other))
    ⟨fun ⟨h₁, h₂, h₃, h₄⟩ => ⟨h₁, h₂, h₃, h₄⟩, fun ⟨h₁, h₂, h₃, h₄⟩ => ⟨h₁, h₂, h₃, h₄⟩⟩

/-- A loop that stands takes no event, and makes no call. -/
theorem Stands.still (h : s.Stands x) :
    (s.nodes x).take = none ∧ ∀ io, s.loop hosts x io = none := by
  have hquiet : (∀ m st rest, (s.nodes x).ctl ≠ .handling m st rest) →
      ∀ io, s.loop hosts x io = none := by
    intro hctl io
    have hpending : (s.nodes x).pending = none := by
      cases hc : (s.nodes x).ctl with
      | handling m st rest => exact absurd hc (hctl m st rest)
      | _ => simp [Process.pending, hc]
    have hadvance : (s.nodes x).advance io = none := by
      cases hc : (s.nodes x).ctl with
      | handling m st rest => exact absurd hc (hctl m st rest)
      | _ => simp [Process.advance, hc]
    simp [loop, hpending, Network.advance, hadvance]
  rcases h with hended | ⟨hidle, hqueue⟩ | ⟨e, hreading, hinbox, hopen⟩
  · cases hctl : (s.nodes x).ctl with
    | returned | failed e =>
        exact ⟨by simp [Process.take, hctl], hquiet (by simp [hctl])⟩
    | _ => simp [hctl, Ctl.ended] at hended
  · exact ⟨by simp [Process.take, hqueue], hquiet (by simp [Ctl.idle_iff.mp hidle])⟩
  · have hpending := Process.pending_of_reading hreading
    obtain ⟨m, st, k, hctl⟩ := Process.handling_of_pending hpending
    exact ⟨by simp [Process.take, hctl], fun io => by simp [loop, hpending, hinbox, hopen]⟩

theorem Resting.atRest (h : s.Resting) (hsound : ∀ x, (s.nodes x).Sound) :
    (network hosts).AtRest Own s := by
  rintro ⟨x, mv⟩ hmv
  obtain ⟨htake, hloop⟩ : (s.nodes x).take = none ∧ ∀ io, s.loop hosts x io = none :=
    (h.stands x).still
  have hthreads : ∀ {k t}, (s.nodes x).threads k = some t → (t.sending → t.dropped = false) ∧
      (t.receiving → s.inbox t.peer.stream = [] ∧ s.Open t.peer.stream.other) :=
    fun ht => h.threads x _ ((hsound x).channel _ _ ht).1 _ ht
  cases mv with
  | post ev => exact hmv.elim
  | accept => simp [network, step, h.backlog x]
  | take => simp [network, step, htake]
  | loop io => exact hloop io
  | sendEnds k =>
      cases ht : (s.nodes x).threads k with
      | none => simp [network, step, Process.sendEnds, ht]
      | some t => simpa [network, step, Process.sendEnds, ht] using (hthreads ht).1
  | receive k | receiveEnds k =>
      cases ht : (s.nodes x).threads k with
      | none => simp [network, step, ht]
      | some t =>
          cases hreceiving : t.receiving with
          | false =>
              simp only [network, step, ht, Process.received, Process.receiveEnds, hreceiving]
              split <;> simp
          | true =>
              obtain ⟨hinbox, hopen⟩ := (hthreads ht).2 hreceiving
              simp [network, step, ht, hinbox, hopen]
  | release e => simp [network, step, h.lent]

end Network

end Reactor.Sn
