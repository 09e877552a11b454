import Reactor.SnLoop
import Reactor.SnProcess

/-!
# The seed node: rounds of a process

The loop comes in two versions. In `loop` a round is one step, its calls
answered by an environment; a `process` makes them one at a time, and its
threads and the outside world may move in between. No call of a round is
made twice (`turn_once`), so whatever the answers were, there is an
environment that gives them.

**`process_rounds`**: a process has always come to where the loop comes to
in rounds on the same events, by the same calls.
-/

namespace Reactor.Sn

open Program

/-! ## No call twice -/

/-- Where a call stands in a round. -/
def Call.rank : Call → Nat
  | .tryClone .run _ => 0
  | .tryClone .publishEvent _ => 1
  | .subscriptionOrder => 2
  | .tryClone (.publish _) _ | .trySend _ _ _ | .eventIdOrder => 3
  | .tryClone .peerConnected _ | .connect _ | .peerOrder => 4
  | .readPeerMessage _ => 5
  | .localAddr _ => 6
  | .writePeerMessage _ _ => 7
  | .tryClone .tryAddPeer _ => 8
  | .tryClone .sendStream _ => 9
  | .tryClone .receiveStream _ => 10
  | .spawn _ _ => 11
  | .send _ => 12
  | .drop _ => 13

/-- The subscription that a call notifies. -/
def Call.subscription? : Call → Option SubscriptionID
  | .tryClone (.publish id) _ | .trySend id _ _ => some id
  | _ => none

section

variable (ev : Event)

theorem clone_once (site : CloneSite) {made : Set Call}
    (hmade : ∀ stream, .tryClone site stream ∉ made) :
    (ev.clone site).Follows (.once fun made' _ =>
      ∀ c ∈ made', c ∈ made ∨ ∃ stream, c = .tryClone site stream) made := by
  unfold Event.clone
  split
  · next stream =>
      rw [tryClone_bind]
      refine ⟨fun hin => absurd hin (hmade stream), fun ok => ?_⟩
      cases ok
      · trivial
      · rintro c (rfl | hc)
        · exact .inr ⟨stream, rfl⟩
        · exact .inl hc
  · exact fun c hc => .inl hc

theorem notifyAll_once (subs : HashMap SubscriptionID Notify) {ids : List SubscriptionID}
    (hids : ids.Nodup) {made : Set Call} (hmade : ∀ c ∈ made, c.rank < 4)
    (hnew : ∀ id ∈ ids, ∀ c ∈ made, c.subscription? ≠ some id) :
    (notifyAll ev subs ids).Follows (.once fun made _ => ∀ c ∈ made, c.rank < 4) made := by
  induction ids generalizing made with
  | nil => exact hmade
  | cons id ids ih =>
      rw [notifyAll]
      obtain ⟨hid, hids⟩ := List.nodup_cons.mp hids
      obtain ⟨hnow, hlater⟩ := List.forall_mem_cons.mp hnew
      cases subs.lookup id with
      | none => exact ih hids hmade hlater
      | some notify =>
          refine (clone_once ev (.publish id) fun stream hin => hnow _ hin rfl).bind
            (fun _ _ h => h) rfl fun made₁ _ hmade₁ => ?_
          have hnow₁ : Call.trySend id notify ev ∉ made₁ := by
            intro hin
            obtain hin | ⟨stream, hcall⟩ := hmade₁ _ hin
            · exact hnow _ hin rfl
            · cases hcall
          rw [trySend_bind]
          refine ⟨fun hin => absurd hin hnow₁, fun channel => ?_⟩
          have hmade₂ : ∀ c ∈ insert (Call.trySend id notify ev) made₁,
              c ∈ made ∨ c.rank < 4 ∧ c.subscription? = some id := by
            rintro c (rfl | hc)
            · exact .inr ⟨by simp [Call.rank], rfl⟩
            · obtain hc | ⟨stream, rfl⟩ := hmade₁ c hc
              · exact .inl hc
              · exact .inr ⟨by simp [Call.rank], rfl⟩
          have hpublishes : ∀ c ∈ insert (Call.trySend id notify ev) made₁, c.rank < 4 :=
            fun c hc => (hmade₂ c hc).elim (hmade c) And.left
          cases channel with
          | vacant =>
              refine ih hids hpublishes fun id' hid' c hc hsub => ?_
              obtain hc | ⟨-, hsub'⟩ := hmade₂ c hc
              · exact hlater id' hid' c hc hsub
              · obtain rfl : id = id' := Option.some.inj (hsub'.symm.trans hsub)
                exact hid hid'
          | full | disconnected => exact hpublishes

/-- Publishing makes no call twice, and no call that handling makes. -/
theorem publishEvent_once (self : SeedNode) {made : Set Call}
    (hmade : ∀ c ∈ made, ∃ stream, c = .tryClone .run stream) :
    (self.publishEvent ev).Follows (.once fun made _ => ∀ c ∈ made, c.rank < 4) made := by
  refine (clone_once ev .publishEvent fun stream hin => ?_).bind (fun _ _ h => h) rfl
    fun made₁ _ hmade₁ => ?_
  · obtain ⟨_, h⟩ := hmade _ hin
    cases h
  have hclones : ∀ c ∈ made₁, c.rank < 4 ∧ c.subscription? = none ∧ c ≠ .subscriptionOrder := by
    intro c hc
    obtain hc | ⟨stream, rfl⟩ := hmade₁ c hc
    · obtain ⟨stream, rfl⟩ := hmade c hc
      exact ⟨by simp [Call.rank], rfl, by simp⟩
    · exact ⟨by simp [Call.rank], rfl, by simp⟩
  have hpublish : (self.subscriptions.publish ev).Follows
      (.once fun made _ => ∀ c ∈ made, c.rank < 4) made₁ := by
    unfold Subscriptions.publish
    split
    · exact fun c hc => (hclones c hc).1
    · split
      · exact fun c hc => (hclones c hc).1
      · rw [subscriptionOrder_bind]
        refine ⟨fun hin => absurd rfl (hclones _ hin).2.2, fun it => ?_⟩
        refine notifyAll_once ev _ (it.nodup _) ?_ ?_
        · rintro c (rfl | hc)
          · decide
          · exact (hclones c hc).1
        · rintro id - c (rfl | hc)
          · simp [Call.subscription?]
          · simp [(hclones c hc).2.1]
  refine hpublish.bind (fun _ _ h => h) rfl fun made₂ r hmade₂ => ?_
  split
  · exact hmade₂
  · exact hmade₂
  · trivial

end

theorem tryAddPeer_rising (self : SeedNode) (stream : TcpStream) (hello : PeerHello) :
    (self.tryAddPeer stream hello).Follows (.rising Call.rank) 6 := by
  unfold SeedNode.tryAddPeer
  split
  · trivial
  · simp [Call.rank, Option.forall]

/-- The calls of a handler rise. -/
theorem handlePeerEvent_rising (self : SeedNode) (pe : PeerEvent) :
    (self.handlePeerEvent pe).Follows (.rising Call.rank) 4 := by
  cases pe with
  | connected stream =>
      simp only [SeedNode.handlePeerEvent, SeedNode.peerConnected, SeedNode.readPeerHello,
        tryClone_bind, orFail_bind, readPeerMessage_bind]
      refine ⟨.inl (by simp [Call.rank]), fun ok => ?_⟩
      cases ok
      · trivial
      refine ⟨.inl (by simp [Call.rank]), fun r => ?_⟩
      cases r with
      | none => trivial
      | some msg =>
          cases msg with
          | hello hello => exact tryAddPeer_rising self stream hello
          | addressBookRequest | addressBook _ => trivial
  | connect addr =>
      simp [SeedNode.handlePeerEvent, SeedNode.connectToPeer, Call.rank, Option.forall]
  | disconnect id =>
      simp only [SeedNode.handlePeerEvent, SeedNode.disconnectPeer]
      split
      · trivial
      · exact ⟨.inl (by simp [Call.rank]), fun _ => trivial⟩
  | addedToAddressBook _ | receivedMessage _ _ | sendMessage _ _ => trivial

theorem disconnectAllPeers_rising (self : SeedNode) :
    self.disconnectAllPeers.Follows (.rising Call.rank) 4 := by
  refine ⟨.inl (by simp [Call.rank]), fun it => ?_⟩
  refine follows_disconnectEach (I := fun _ _ => True) (fun _ => trivial) (fun _ _ => ?_) _ trivial
  exact ⟨.inr (inferInstanceAs (Subsingleton Unit)), trivial⟩

theorem handlePubsubEvent_rising (self : SeedNode) (req : PubSubRequest) :
    (self.handlePubsubEvent req).Follows (.rising Call.rank) 2 :=
  follows_handlePubsubEvent (fun _ _ => ⟨.inl (by simp [Call.rank]), fun _ _ => trivial⟩)
    fun _ _ => ⟨.inl (by simp [Call.rank]), fun _ =>
      ⟨.inl (by simp [Call.rank]), fun _ _ => trivial⟩⟩

/-- **No call of a round is made twice**, but for those with only one
answer. -/
theorem turn_once (self : SeedNode) (ev : Event) :
    (self.turn ev).Follows (.once fun _ _ => True) ∅ := by
  have hhandle : ∀ made : Set Call, (∀ c ∈ made, c.rank < 4) → (∀ req, ev ≠ .pubSub req) →
      (self.handleEvent ev).Follows (.once fun _ _ => True) made := by
    intro made hmade hev
    cases ev with
    | peer pe =>
        exact ((handlePeerEvent_rising self pe).once hmade).bind (fun _ _ h => h) rfl
          fun _ _ _ => trivial
    | pubSub req => exact absurd rfl (hev req)
    | terminate =>
        exact ((disconnectAllPeers_rising self).once hmade).bind (fun _ _ h => h) rfl
          fun _ _ _ => trivial
  by_cases hev : ∃ req, ev = .pubSub req
  · obtain ⟨req, rfl⟩ := hev
    exact ((handlePubsubEvent_rising self req).once (by simp)).bind (fun _ _ h => h) rfl
      fun _ _ _ => trivial
  · refine (clone_once ev .run fun _ => id).bind (fun _ _ h => h) rfl fun made _ hmade => ?_
    refine (publishEvent_once ev self fun c hc => (hmade c hc).resolve_left id).bind
      (fun _ _ h => h) rfl fun made _ hmade => ?_
    exact hhandle made hmade fun req hreq => hev ⟨req, hreq⟩

/-! ## Rounds of a process -/

/-- The calls a round makes. -/
def Loop.calling : Loop → Round → List Call
  | .running node, a => (node.turn a.ev).calls a.io
  | _, _ => []

namespace Process

/-- The event a step takes from the channel. -/
def taken (p : Process) : Act → List Event
  | .take => (p.queue.head?.map Mail.ev).toList
  | _ => []

/-- The event of the round a process is in. -/
def inHand (p : Process) : List Event :=
  match p.ctl with
  | .handling m _ _ => [m.ev]
  | _ => []

/-- The call a step makes. -/
def calling (p : Process) : Act → List Call
  | .loop _ => p.pending.toList
  | _ => []

/-- A process has come as far as the loop, and perhaps into a round, in
which it has made some calls. -/
def At (p : Process) (s : Loop) (made : List Call) : Prop :=
  match p.ctl with
  | .waiting => s = .running p.node ∧ made = []
  | .handling m _ rest => s = .running p.node ∧ ∃ env,
      rest.Follows (.once fun _ _ => True) {c | c ∈ made} ∧
        (p.node.turn m.ev).Remains made env rest
  | .returned => s = .returned p.node ∧ made = []
  | .failed e => s = .failed e ∧ made = []

variable {p p' : Process} {s : Loop} {made : List Call}

theorem At.congr (h : p.At s made) (hctl : p'.ctl = p.ctl) (hnode : p'.node = p.node) :
    p'.At s made := by
  unfold At at h ⊢
  rwa [hctl, hnode]

theorem inHand_congr (hctl : p'.ctl = p.ctl) : p'.inHand = p.inHand := by
  rw [inHand, inHand, hctl]

theorem at_take (h : p.At s made) (hs : p.take = some p') :
    p'.At s made ∧ p'.inHand = p.inHand ++ p.taken .take := by
  obtain ⟨m, rest, hctl, hqueue, rfl⟩ := take_cases hs
  unfold At at h
  rw [hctl] at h
  obtain ⟨rfl, rfl⟩ := h
  refine ⟨⟨rfl, Io.calm, ?_, remains_self _ _⟩, ?_⟩
  · exact (show {c | c ∈ ([] : List Call)} = ∅ by simp) ▸ turn_once p.node m.ev
  · simp [inHand, taken, hctl, hqueue]

theorem perform_node {io : Io} (c : Call) : (p.perform io c).2.node = p.node := by
  cases c with
  | drop peer =>
      simp only [perform]
      split <;> rfl
  | _ => rfl

/-- A call leaves the process in the round, and the end of the round is
where the loop comes to in one step, after the same calls. -/
theorem at_advance {io : Io} (h : p.At s made) (hs : p.advance io = some p') :
    (p'.At s (made ++ p.calling (.loop io)) ∧ p'.inHand = p.inHand) ∨
      ∃ a s', s.step a = some s' ∧ p'.At s' [] ∧ p.inHand = [a.ev] ∧ p'.inHand = [] ∧
        p.calling (.loop io) = [] ∧ s.calling a = made := by
  obtain ⟨m, st, c, k, hctl, rfl⟩ | ⟨m, st, node, hctl, rfl⟩ | ⟨m, st, node, hctl, rfl⟩ |
    ⟨m, st, e, hctl, rfl⟩ := advance_cases hs
  · unfold At at h
    rw [hctl] at h
    obtain ⟨rfl, env, ⟨honce, hfollows⟩, hremains⟩ := h
    obtain ⟨env', hremains'⟩ := hremains.answer honce (p.perform io c).1
    have hnode : (p.perform io c).2.node = p.node := perform_node c
    have hcall : p.calling (.loop io) = [c] := by simp [calling, pending, hctl]
    rw [hcall]
    refine .inl ⟨⟨congrArg _ hnode.symm, env', ?_, ?_⟩, by simp [inHand, hctl]⟩
    · convert hfollows (p.perform io c).1 using 1
      ext c'
      simp [Contract.once, or_comm]
    · rwa [show _ = p.node from hnode]
  all_goals
    unfold At at h
    rw [hctl] at h
    obtain ⟨rfl, env, -, hremains⟩ := h
    obtain ⟨hexec, hcalls⟩ := hremains env fun _ _ => rfl
    have hnone : p.calling (.loop io) = [] := by simp [calling, pending, hctl]
    have hmade : Loop.calling (.running p.node) ⟨m.ev, env⟩ = made := by
      simp [Loop.calling, hcalls]
    refine .inr ⟨⟨m.ev, env⟩, ?_⟩
  · exact ⟨.running node, by simp [Loop.step, hexec], ⟨rfl, rfl⟩, by simp [inHand, hctl], rfl,
      hnone, hmade⟩
  · exact ⟨.returned node, by simp [Loop.step, hexec], ⟨rfl, rfl⟩, by simp [inHand, hctl], rfl,
      hnone, hmade⟩
  · exact ⟨.failed e, by simp [Loop.step, hexec], ⟨rfl, rfl⟩, by simp [inHand, hctl], rfl,
      hnone, hmade⟩

end Process

open Reactor.System (Any)

/-- **Rounds.** However its calls and what its threads do interleave, a
process has come to where the loop comes to in rounds on the events that
have been taken from the channel, in that order, and it has made the calls
of those rounds, and of the one it is in. -/
theorem process_rounds {id : ID} {as : List Act} {p : Process} (h : (process id).Run Any as p) :
    ∃ rounds s made, (loop id).Run Any rounds s ∧ p.At s made ∧
      (process id).outputs Process.taken (.new id) as = rounds.map Round.ev ++ p.inHand ∧
      (process id).outputs Process.calling (.new id) as =
        (loop id).outputs Loop.calling (.running (.new id)) rounds ++ made := by
  induction h with
  | nil => exact ⟨[], .running (.new id), [], .nil, ⟨rfl, rfl⟩, rfl, rfl⟩
  | @snoc as p p' a hrun _ hs ih =>
      obtain ⟨rounds, s, made, hrounds, hat, htaken, hcalled⟩ := ih
      have htaken' : (process id).outputs Process.taken (.new id) (as ++ [a]) =
          (process id).outputs Process.taken (.new id) as ++ p.taken a := hrun.outputs_snoc a
      have hcalled' : (process id).outputs Process.calling (.new id) (as ++ [a]) =
          (process id).outputs Process.calling (.new id) as ++ p.calling a := hrun.outputs_snoc a
      rw [htaken', htaken, hcalled', hcalled]
      have hstay : p'.ctl = p.ctl → p'.node = p.node → p.taken a = [] → p.calling a = [] →
          ∃ rounds' s made', (loop id).Run Any rounds' s ∧ p'.At s made' ∧
            rounds.map Round.ev ++ p.inHand ++ p.taken a = rounds'.map Round.ev ++ p'.inHand ∧
            (loop id).outputs Loop.calling (.running (.new id)) rounds ++ made ++ p.calling a =
              (loop id).outputs Loop.calling (.running (.new id)) rounds' ++ made' := by
        intro hctl hnode hnone hnocall
        exact ⟨rounds, s, made, hrounds, hat.congr hctl hnode, by
          rw [hnone, Process.inHand_congr hctl, List.append_nil], by
          rw [hnocall, List.append_nil]⟩
      cases a with
      | post ev =>
          obtain rfl := Option.some.inj hs
          exact hstay rfl rfl rfl rfl
      | accept stream =>
          obtain rfl := Option.some.inj hs
          exact hstay rfl rfl rfl rfl
      | take =>
          obtain ⟨hat', hhand⟩ := Process.at_take hat hs
          exact ⟨rounds, s, made, hrounds, hat', by rw [hhand, List.append_assoc],
            List.append_nil _⟩
      | loop io =>
          obtain ⟨hat', hhand⟩ | ⟨a, s', hstep, hat', hhand, hdone, hnone, hmade⟩ :=
            Process.at_advance hat hs
          · exact ⟨rounds, s, _, hrounds, hat', by simp [hhand, Process.taken],
              List.append_assoc _ _ _⟩
          · refine ⟨rounds ++ [a], s', [], .snoc hrounds trivial hstep, hat', by
              simp [hhand, hdone, Process.taken], ?_⟩
            have hsnoc : (loop id).outputs Loop.calling (.running (.new id)) (rounds ++ [a]) =
                (loop id).outputs Loop.calling (.running (.new id)) rounds ++ s.calling a :=
              hrounds.outputs_snoc a
            rw [hsnoc, hmade, hnone]
      | sendEnds k =>
          obtain ⟨t, -, -, -, rfl⟩ := Process.sendEnds_cases hs
          exact hstay rfl rfl rfl rfl
      | received k msg =>
          obtain ⟨t, -, -, rfl⟩ := Process.received_cases hs
          exact hstay rfl rfl rfl rfl
      | receiveEnds k =>
          obtain ⟨t, -, -, rfl⟩ := Process.receiveEnds_cases hs
          exact hstay rfl rfl rfl rfl

end Reactor.Sn
