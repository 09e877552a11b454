import Reactor.SnBook
import Reactor.SnDelivery
import Reactor.SnIdentity

/-!
# What subscribers are told of

A node announces whoever it adds to its address book: the round that adds
him puts an event in the node's own channel, and the round on that event
sends it to those subscribed to it. Between the two any other event may be
handled, and calls fail. The rounds of a process make the calls of the loop
(`process_rounds`), its channel is first in, first out (`channel_run`), and
nobody else puts such an event in it (`added_run`).

**`told_what_is_booked`**: whatever happens in a network, whenever a node
waits for an event, what a subscriber that was there first has been told
of, and then what he is about to be told of, is the node's address book.
-/

namespace Reactor.Sn

open Program
open Reactor.System (Any)

/-- The address an event announces. -/
def Event.added? : Event → Option PeerAddr
  | .peer (.addedToAddressBook addr) => some addr
  | _ => none

/-- What some sends tell their receivers of. -/
def additions (sends : List (Notify × Event)) : List (Notify × PeerAddr) :=
  sends.filterMap fun (notify, ev) => ev.added?.map (notify, ·)

@[simp] theorem additions_append (sends sends' : List (Notify × Event)) :
    additions (sends ++ sends') = additions sends ++ additions sends' := List.filterMap_append

theorem additions_map (notify : Notify) (evs : List Event) :
    additions (evs.map (notify, ·)) = (evs.filterMap Event.added?).map (notify, ·) := by
  rw [additions, List.filterMap_map, List.map_filterMap]
  rfl

/-- Whoever subscribes to additions gets all of them. -/
theorem added_among {eventIds : Finset EventID} (h : .peerAddedToAddressBook ∈ eventIds)
    (evs : List Event) :
    (evs.filter (Event.among eventIds)).filterMap Event.added? = evs.filterMap Event.added? := by
  rw [List.filterMap_filter]
  congr 1
  funext ev
  cases ev with
  | peer pe => cases pe <;> simp [Event.added?, Event.among, Event.id, PeerEvent.id, h]
  | _ => simp [Event.added?]

/-! ## Rounds of the loop -/

/-- A run of the loop as a course, and what it announces on it. -/
theorem course_of_loop {id : ID} {rounds : List Round} {s : Loop}
    (h : (loop id).Run Any rounds s) :
    ∃ c, (course id).Run Any rounds c ∧ c.forget = s ∧
      announcements id rounds =
        announced ((loop id).outputs Loop.calling (.running (.new id)) rounds) := by
  induction h with
  | nil => exact ⟨.running (.new id), .nil, rfl, rfl⟩
  | @snoc rounds s s' a hrun _ hs ih =>
      obtain ⟨c, hc, rfl, hsame⟩ := ih
      have hstep : (c.step a).map Course.forget = some s' := (c.step_forget a).symm.trans hs
      obtain ⟨c', hc', rfl⟩ := Option.map_eq_some_iff.mp hstep
      refine ⟨c', .snoc hc trivial hc', rfl, ?_⟩
      have hcalls : (loop id).outputs Loop.calling (.running (.new id)) (rounds ++ [a]) =
          (loop id).outputs Loop.calling (.running (.new id)) rounds ++ c.forget.calling a :=
        hrun.outputs_snoc a
      have hnow : c.announces a = announced (c.forget.calling a) := by
        cases c with
        | returned node | failed e node => rfl
        | running node =>
            show announced _ = announced ((node.turn a.ev).calls a.io)
            rw [← Method.forget_turn, Method.forgetTurn, calls_bimap]
      rw [announcements, hc.outputs_snoc, hcalls, announced_append, ← hsame, hnow]
      rfl

/-- A loop that is running has booked what it has announced. -/
theorem announced_loop {id : ID} {rounds : List Round} {node : SeedNode}
    (h : (loop id).Run Any rounds (.running node)) :
    announced ((loop id).outputs Loop.calling (.running (.new id)) rounds) =
      node.addrBook.addrs := by
  obtain ⟨c, hc, hforget, hsame⟩ := course_of_loop h
  cases c with
  | running node' =>
      obtain rfl := Loop.running.inj hforget
      rw [← hsame, (booked hc).addrs]
      rfl
  | returned _ | failed _ _ => cases hforget

/-- What is sent on behalf of a live subscription that nothing ends. -/
theorem sends_loop {own : ID} {id : SubscriptionID} {rounds : List Round} {node : SeedNode}
    {table : Table} {eventIds : Finset EventID} {notify : Notify} {t : Loop}
    (h : Represents node.subscriptions table) (hid : table id = some (eventIds, notify))
    (hrun : ((loop own).startAt (.running node)).Run Any rounds t) (ht : ∀ e, t ≠ .failed e)
    (hkeep : ∀ a ∈ rounds, a.ev.endsSubscription id = false) :
    sendsFor id ((loop own).outputs Loop.calling (.running node) rounds) =
      ((rounds.map Round.ev).filter (Event.among eventIds)).map (notify, ·) := by
  induction rounds generalizing node table with
  | nil => rfl
  | cons a rounds ih =>
      obtain ⟨-, s, (hstep : Loop.step (.running node) a = some s), hrest⟩ :=
        System.run_cons.mp hrun
      obtain ⟨turn, hturn, hs⟩ := step_running hstep (not_failed hrest ht)
      obtain ⟨h', -⟩ := turn_result h hturn
      obtain ⟨hnow, hlater⟩ := List.forall_mem_cons.mp hkeep
      have hid' : table.handle a.ev id = some (eventIds, notify) := by
        rw [Table.handle_of_some hid, hnow]
        rfl
      have hnext : sendsFor id ((loop own).outputs Loop.calling s rounds) =
          ((rounds.map Round.ev).filter (Event.among eventIds)).map (notify, ·) := by
        rcases hs with rfl | rfl
        · exact ih h' hid' hrest hlater
        · obtain rfl := returned_nil hrest
          rfl
      have houtputs : (loop own).outputs Loop.calling (.running node) (a :: rounds) =
          (node.turn a.ev).calls a.io ++ (loop own).outputs Loop.calling s rounds :=
        System.outputs_cons hstep rounds
      rw [houtputs, sendsFor_append, round_sends h hturn, hnext, Table.owed, hid, List.map_cons,
        List.filter_cons]
      cases hin : a.ev.among eventIds <;> simp_all [Event.among]

/-- What the first subscriber is told of are the additions among the events
taken. -/
theorem additions_loop {own : ID} {subs : Subscription} {rounds : List Round} {evs : List Event}
    {node : SeedNode} (h : (loop own).Run Any rounds (.running node))
    (hfirst : rounds.map Round.ev <+: .pubSub (.subscribe subs) :: evs)
    (hkeep : ∀ a ∈ rounds, a.ev.endsSubscription subs.id = false)
    (hbook : .peerAddedToAddressBook ∈ subs.eventIds) :
    additions (sendsFor subs.id ((loop own).outputs Loop.calling (.running (.new own)) rounds)) =
      ((rounds.map Round.ev).filterMap Event.added?).map (subs.notify, ·) := by
  cases rounds with
  | nil => rfl
  | cons a rounds =>
      obtain ⟨hev, -⟩ := List.cons_prefix_cons.mp hfirst
      obtain ⟨-, s, hstep, hrest⟩ := System.run_cons.mp h
      have hstep : Loop.step (.running (.new own)) a = some s := hstep
      have hok : ∀ e, Loop.running node ≠ .failed e := fun e he => nomatch he
      obtain ⟨turn, hturn, hs⟩ := step_running hstep (not_failed hrest hok)
      obtain ⟨h', hresult⟩ := turn_result Represents.new hturn
      have hid : Table.empty.handle a.ev subs.id = some (subs.eventIds, subs.notify) := by
        simp [hev, Table.handle, Table.add, Table.empty]
      rw [if_neg (by rw [hev]; simp)] at hresult
      obtain ⟨node', rfl⟩ := hresult
      have hnone : sendsFor subs.id (((SeedNode.new own).turn a.ev).calls a.io) =
          Table.empty.owed subs.id a.ev := round_sends Represents.new hturn subs.id
      have houtputs : (loop own).outputs Loop.calling (.running (.new own)) (a :: rounds) =
          ((SeedNode.new own).turn a.ev).calls a.io ++ (loop own).outputs Loop.calling s rounds :=
        System.outputs_cons hstep rounds
      rw [houtputs, sendsFor_append, hnone, show Table.empty.owed subs.id a.ev = [] from rfl,
        List.nil_append, List.map_cons,
        List.filterMap_cons_none (by rw [hev]; rfl)]
      rcases hs with rfl | rfl
      · rw [sends_loop h' hid hrest hok fun b hb => hkeep b (List.mem_cons_of_mem _ hb),
          additions_map, added_among hbook]
      · obtain rfl := returned_nil hrest
        rfl

/-! ## The channel of a process -/

namespace Process

variable {p p' : Process} {a : Act}

/-- The events a step puts in the channel. -/
def posting (p : Process) : Act → List Event
  | .post ev => [ev]
  | .accept stream => [.peer (.connected stream)]
  | .take => []
  | .loop io => (p.calling (.loop io)).filterMap fun
      | .send ev => some ev
      | _ => none
  | .sendEnds k | .receiveEnds k =>
      ((p.threads k).map fun t => .peer (.disconnect t.peer.id)).toList
  | .received k msg => ((p.threads k).map fun t => .peer (.receivedMessage t.peer.id msg)).toList

theorem channel_step (hs : p.step a = some p') :
    p.taken a ++ p'.queue.map Mail.ev = p.queue.map Mail.ev ++ p.posting a := by
  cases a with
  | post ev | accept stream =>
      obtain rfl := Option.some.inj hs
      simp [taken, posting]
  | take =>
      obtain ⟨m, rest, -, hqueue, rfl⟩ := take_cases hs
      simp [taken, posting, hqueue]
  | loop io =>
      obtain ⟨m, st, c, k, hctl, rfl⟩ | ⟨m, st, node, hctl, rfl⟩ | ⟨m, st, node, hctl, rfl⟩ |
        ⟨m, st, e, hctl, rfl⟩ := advance_cases hs
      · have hcall : p.calling (.loop io) = [c] := by simp [calling, pending, hctl]
        cases c with
        | drop peer =>
            simp only [perform]
            split <;> simp [taken, posting, hcall]
        | _ => simp [taken, posting, hcall, perform]
      all_goals simp [taken, posting, calling, pending, hctl]
  | sendEnds k =>
      obtain ⟨t, ht, -, -, rfl⟩ := sendEnds_cases hs
      simp [taken, posting, ht]
  | received k msg =>
      obtain ⟨t, ht, -, rfl⟩ := received_cases hs
      simp [taken, posting, ht]
  | receiveEnds k =>
      obtain ⟨t, ht, -, rfl⟩ := receiveEnds_cases hs
      simp [taken, posting, ht]

/-- **First in, first out.** -/
theorem channel_run {own : ID} {as : List Act} (h : (process own).Run Any as p) :
    (process own).outputs taken (process own).init as ++ p.queue.map Mail.ev =
      (process own).outputs posting (process own).init as := by
  induction h with
  | nil => rfl
  | @snoc as p p' a hrun _ hs ih =>
      rw [hrun.outputs_snoc, hrun.outputs_snoc, List.append_assoc, channel_step hs,
        ← List.append_assoc, ih]

/-- Nobody but the node itself says that it has added anybody. -/
theorem added_step (p : Process) (hpost : ∀ ev, a = .post ev → ev.added? = none) :
    (p.posting a).filterMap Event.added? = announced (p.calling a) := by
  cases a with
  | post ev => simp [posting, calling, hpost ev rfl]
  | loop io =>
      simp only [posting, announced, List.filterMap_filterMap]
      congr 1
      funext c
      cases c with
      | send ev => cases ev with
        | peer pe => cases pe <;> rfl
        | _ => rfl
      | _ => rfl
  | sendEnds k | receiveEnds k | received k msg =>
      simp only [posting, calling]
      cases p.threads k <;> rfl
  | _ => rfl

theorem added_run {own : ID} {as : List Act} (h : (process own).Run Any as p)
    (hpost : ∀ ev, .post ev ∈ as → ev.added? = none) :
    ((process own).outputs posting (process own).init as).filterMap Event.added? =
      announced ((process own).outputs calling (process own).init as) := by
  induction h with
  | nil => rfl
  | @snoc as p p' a hrun _ hs ih =>
      rw [hrun.outputs_snoc, hrun.outputs_snoc, List.filterMap_append, announced_append,
        ih fun ev hev => hpost ev (List.mem_append_left _ hev),
        added_step p fun ev hev => hpost ev (by simp [hev])]

/-- Nobody but someone outside ends a subscription. -/
theorem endless_run {own : ID} {id : SubscriptionID} {as : List Act}
    (h : (process own).Run Any as p)
    (hpost : ∀ ev, .post ev ∈ as → ev.endsSubscription id = false) :
    ∀ ev ∈ (process own).outputs posting (process own).init as,
      ev.endsSubscription id = false := by
  induction h with
  | nil => exact fun ev hev => (nomatch hev)
  | @snoc as p p' a hrun _ hs ih =>
      have hsound : p.Sound :=
        hrun.invariant Sound (sound_new own) fun _ _ _ hp _ hs => sound_step hp hs
      intro ev hev
      rw [hrun.outputs_snoc] at hev
      rcases List.mem_append.mp hev with hev | hev
      · exact ih (fun ev hev => hpost ev (List.mem_append_left _ hev)) ev hev
      · cases a with
        | post ev' =>
            obtain rfl := List.mem_singleton.mp hev
            exact hpost ev (by simp)
        | loop io =>
            obtain ⟨c, hc, hsend⟩ := List.mem_filterMap.mp hev
            obtain ⟨m, st, k, hctl⟩ := handling_of_pending (Option.mem_toList.mp hc)
            obtain ⟨hallows, -⟩ := hsound.follows m st _ hctl
            split at hsend
            · obtain rfl := Option.some.inj hsend
              rcases hallows with ⟨e, -, rfl⟩ | ⟨peer, addr, -, rfl⟩ <;> rfl
            · cases hsend
        | accept stream =>
            obtain rfl := List.mem_singleton.mp hev
            rfl
        | take => cases hev
        | sendEnds k | receiveEnds k | received k msg =>
            obtain ⟨t, -, rfl⟩ := Option.map_eq_some_iff.mp (Option.mem_toList.mp hev)
            rfl

/-- In a process, for whoever has been the first to put an event in its
channel. -/
theorem told_run {own : ID} {as : List Act} (h : (process own).Run Any as p)
    {subs : Subscription} {evs : List Event}
    (hfirst : (process own).outputs posting (process own).init as =
      .pubSub (.subscribe subs) :: evs)
    (hpost : ∀ ev, .post ev ∈ as → ev.added? = none ∧ ev.endsSubscription subs.id = false)
    (hbook : .peerAddedToAddressBook ∈ subs.eventIds) (hctl : p.ctl = .waiting) :
    additions (sendsFor subs.id ((process own).outputs calling (process own).init as)) ++
        additions (p.queue.map fun m => (subs.notify, m.ev)) =
      p.node.addrBook.addrs.map (subs.notify, ·) := by
  obtain ⟨rounds, s, made, hrounds, hat, htaken, hcalled⟩ := process_rounds h
  unfold At at hat
  rw [hctl] at hat
  obtain ⟨rfl, rfl⟩ := hat
  have htaken : (process own).outputs taken (process own).init as = rounds.map Round.ev :=
    htaken.trans (by simp [inHand, hctl])
  have hcalled : (process own).outputs calling (process own).init as =
      (loop own).outputs Loop.calling (.running (.new own)) rounds :=
    hcalled.trans (List.append_nil _)
  have hchannel := channel_run h
  have hendless := endless_run h fun ev hev => (hpost ev hev).2
  have hadded := added_run h fun ev hev => (hpost ev hev).1
  rw [htaken] at hchannel
  rw [hcalled, announced_loop hrounds, ← hchannel, List.filterMap_append] at hadded
  have hkeep : ∀ a ∈ rounds, a.ev.endsSubscription subs.id = false := fun a ha =>
    hendless a.ev (hchannel ▸ List.mem_append_left _ (List.mem_map_of_mem ha))
  have hqueue : p.queue.map (fun m => (subs.notify, m.ev)) =
      (p.queue.map Mail.ev).map (subs.notify, ·) := by
    rw [List.map_map]
    rfl
  rw [hcalled, additions_loop hrounds ⟨_, hchannel.trans hfirst⟩ hkeep hbook, hqueue,
    additions_map, ← List.map_append, hadded]

end Process

/-! ## A node in a network -/

namespace Network

variable {ι : Type} [DecidableEq ι] {hosts : Hosts ι} {s s' : Network ι}

/-- The call the loop of a node makes in a step. -/
def calling (x : ι) (s : Network ι) : ι × (Move ⊕ Fault) → List Call
  | (y, .inl (.loop _)) | (y, .inr .read) => if y = x then (s.nodes x).pending.toList else []
  | _ => []

theorem step_elsewhere {x y : ι} {a : Move ⊕ Fault} (hs : s.stepOrFail hosts (y, a) = some s')
    (hx : x ≠ y) : s'.nodes x = s.nodes x := by
  cases a with
  | inl mv =>
      have hmove : s.step hosts (y, mv) = some s' := hs
      exact (step_process hmove x).resolve_right fun h => hx h.1
  | inr fault =>
      cases fault with
      | terminate =>
          obtain rfl := Option.some.inj hs
          exact Function.update_of_ne hx _ _
      | read =>
          simp only [stepOrFail] at hs
          split at hs
          · obtain ⟨p, -, rfl⟩ := Option.map_eq_some_iff.mp hs
            exact Function.update_of_ne hx _ _
          · cases hs
      | receive k =>
          obtain ⟨p, -, rfl⟩ := Option.map_eq_some_iff.mp hs
          exact Function.update_of_ne hx _ _

/-- A node moves as a process, if it moves. -/
theorem step_act {x : ι} {a : Move ⊕ Fault} (hs : s.stepOrFail hosts (x, a) = some s') :
    (s'.nodes x = s.nodes x ∧ s.calling x (x, a) = []) ∨
      ∃ act, (s.nodes x).step act = some (s'.nodes x) ∧
        (s.nodes x).calling act = s.calling x (x, a) ∧
        ∀ ev, act = .post ev → a = .inl (.post ev) ∨ ev = .terminate := by
  cases a with
  | inl mv =>
      have hmove : s.step hosts (x, mv) = some s' := hs
      by_cases hloop : ∃ io, mv = .loop io
      · obtain ⟨io, rfl⟩ := hloop
        obtain ⟨io', p, hp, hnodes, -⟩ := loop_cases hmove
        refine .inr ⟨.loop io', ?_, by simp [Process.calling, calling], by simp⟩
        rw [hnodes, Function.update_self]
        exact hp
      · have hnone : s.calling x (x, .inl mv) = [] := by
          cases mv with
          | loop io => exact absurd ⟨io, rfl⟩ hloop
          | _ => rfl
        rw [hnone]
        rcases step_process hmove x with hsame | ⟨-, act, hact, hacts⟩
        · exact .inl ⟨hsame, rfl⟩
        · refine .inr ⟨act, hact, ?_, ?_⟩
          · cases act with
            | loop io' =>
                cases mv with
                | loop io => exact absurd ⟨io, rfl⟩ hloop
                | _ => exact hacts.elim
            | _ => rfl
          · rintro ev rfl
            cases mv with
            | post ev' =>
                obtain ⟨rfl, -⟩ := hacts
                exact .inl rfl
            | _ => exact hacts.elim
  | inr fault =>
      cases fault with
      | terminate =>
          obtain rfl := Option.some.inj hs
          exact .inr ⟨.post .terminate, by simp [Process.step], rfl, by simp⟩
      | read =>
          simp only [stepOrFail] at hs
          split at hs
          · obtain ⟨p, hp, rfl⟩ := Option.map_eq_some_iff.mp hs
            refine .inr ⟨.loop (Io.calm.reading none), ?_, ?_, by simp⟩
            · simpa [Process.step] using hp
            · simp [Process.calling, calling]
          · cases hs
      | receive k =>
          obtain ⟨p, hp, rfl⟩ := Option.map_eq_some_iff.mp hs
          exact .inr ⟨.receiveEnds k, by simpa [Process.step] using hp, rfl, by simp⟩

/-- What a node does in a run. -/
theorem run_node {s₀ : Network ι} {as : List (ι × (Move ⊕ Fault))} (own : ID) (x : ι)
    (h : ((faulty hosts).startAt s₀).Run Any as s) :
    ∃ acts, ((process own).startAt (s₀.nodes x)).Run Any acts (s.nodes x) ∧
      (process own).outputs Process.calling (s₀.nodes x) acts =
        (faulty hosts).outputs (calling x) s₀ as ∧
      (∀ ev, .post ev ∈ acts → (x, .inl (.post ev)) ∈ as ∨ ev = .terminate) ∧
      ((∀ a ∈ as, a.1 ≠ x) → acts = []) := by
  induction h with
  | nil => exact ⟨[], .nil, rfl, by simp, fun _ => rfl⟩
  | @snoc as s s' a hrun _ hs ih =>
      obtain ⟨acts, hacts, hcalls, hposts, hnone⟩ := ih
      obtain ⟨y, a⟩ := a
      have hs : s.stepOrFail hosts (y, a) = some s' := hs
      have hsnoc : (faulty hosts).outputs (calling x) s₀ (as ++ [(y, a)]) =
          (faulty hosts).outputs (calling x) s₀ as ++ s.calling x (y, a) :=
        System.outputs_concat hrun (y, a)
      have hstay : s'.nodes x = s.nodes x → s.calling x (y, a) = [] →
          ((∀ b ∈ as ++ [(y, a)], b.1 ≠ x) → acts = []) →
          ∃ acts, ((process own).startAt (s₀.nodes x)).Run Any acts (s'.nodes x) ∧
            (process own).outputs Process.calling (s₀.nodes x) acts =
              (faulty hosts).outputs (calling x) s₀ (as ++ [(y, a)]) ∧
            (∀ ev, .post ev ∈ acts → (x, .inl (.post ev)) ∈ as ++ [(y, a)] ∨ ev = .terminate) ∧
            ((∀ b ∈ as ++ [(y, a)], b.1 ≠ x) → acts = []) := fun hsame hnocall hnone =>
        ⟨acts, hsame ▸ hacts, by rw [hsnoc, hnocall, List.append_nil, hcalls],
          fun ev hev => (hposts ev hev).imp_left (List.mem_append_left _), hnone⟩
      by_cases hx : x = y
      · subst hx
        have hmoved : ¬∀ b ∈ as ++ [(x, a)], b.1 ≠ x := fun hb => hb (x, a) (by simp) rfl
        rcases step_act hs with ⟨hsame, hnocall⟩ | ⟨act, hact, hcall, hpost⟩
        · exact hstay hsame hnocall fun hb => absurd hb hmoved
        · refine ⟨acts ++ [act], .snoc hacts trivial hact, ?_, fun ev hev => ?_,
            fun hb => absurd hb hmoved⟩
          · rw [System.outputs_concat hacts, hcalls, hsnoc, hcall]
          · rcases List.mem_append.mp hev with hev | hev
            · exact (hposts ev hev).imp_left (List.mem_append_left _)
            · exact (hpost ev (List.mem_singleton.mp hev).symm).imp_left fun ha => by simp [ha]
      · refine hstay (step_elsewhere hs hx) ?_ fun hb =>
          hnone fun b hmem => hb b (List.mem_append_left _ hmem)
        cases a with
        | inl mv => cases mv <;> simp [calling, Ne.symm hx]
        | inr fault => cases fault <;> simp [calling, Ne.symm hx]

end Network

/-- What the loop of a node sends on behalf of a subscription in a run. -/
def told {ι : Type} [DecidableEq ι] (hosts : Hosts ι) (as : List (ι × (Move ⊕ Fault))) (x : ι)
    (id : SubscriptionID) : List (Notify × Event) :=
  sendsFor id ((faulty hosts).outputs (Network.calling x) (faulty hosts).init as)

/-- **Told what is booked.** In every run of any nodes, whatever fails in
it: where the first that happened to a node was a subscription to additions
to its address book, which nobody ended, and nobody else made such an event
up, then whenever the node waits for an event, what has been sent to the
subscriber and what is yet in the channel for him are the entries of its
address book, in their order. -/
theorem told_what_is_booked {ι : Type} [DecidableEq ι] {hosts : Hosts ι}
    {as pre post : List (ι × (Move ⊕ Fault))} {s : Network ι} {x : ι} {subs : Subscription}
    (h : (faulty hosts).Run Any as s)
    (hsplit : as = pre ++ (x, .inl (.post (.pubSub (.subscribe subs)))) :: post)
    (hfirst : ∀ a ∈ pre, a.1 ≠ x)
    (hpost : ∀ ev, (x, .inl (.post ev)) ∈ post →
      ev.added? = none ∧ ev.endsSubscription subs.id = false)
    (hbook : .peerAddedToAddressBook ∈ subs.eventIds) (hctl : (s.nodes x).ctl = .waiting) :
    additions (told hosts as x subs.id) ++
        additions ((s.nodes x).queue.map fun m => (subs.notify, m.ev)) =
      (s.nodes x).node.addrBook.addrs.map (subs.notify, ·) := by
  subst hsplit
  obtain ⟨s₁, hpre, hrest⟩ := System.run_append.mp h
  obtain ⟨-, s₂, hstep, hrun⟩ := System.run_cons.mp hrest
  have hpre : ((faulty hosts).startAt (faulty hosts).init).Run Any pre s₁ := hpre
  have hstep : (faulty hosts).step s₁ (x, .inl (.post (.pubSub (.subscribe subs)))) = some s₂ :=
    hstep
  -- the node has done nothing before
  obtain ⟨acts₁, hacts₁, hcalls₁, -, hnone⟩ := Network.run_node (hosts.name x) x hpre
  obtain rfl := hnone hfirst
  have hnew : s₁.nodes x = .new (hosts.name x) := (System.Run.nil (G := Any)).unique hacts₁ |>.symm
  have hsub : (process (hosts.name x)).step (.new (hosts.name x))
      (.post (.pubSub (.subscribe subs))) = some (s₂.nodes x) := by
    obtain rfl := Option.some.inj hstep
    simp [process, Process.step, hnew]
  obtain ⟨acts, hacts, hcalls, hposts, -⟩ := Network.run_node (hosts.name x) x hrun
  have hprocess : (process (hosts.name x)).Run Any (.post (.pubSub (.subscribe subs)) :: acts)
      (s.nodes x) := System.run_cons.mpr ⟨trivial, s₂.nodes x, hsub, hacts⟩
  have hacted : (process (hosts.name x)).outputs Process.calling (process (hosts.name x)).init
      (.post (.pubSub (.subscribe subs)) :: acts) =
        (faulty hosts).outputs (Network.calling x) s₂ post :=
    (System.outputs_cons hsub acts).trans hcalls
  have htold : told hosts (pre ++ (x, .inl (.post (.pubSub (.subscribe subs)))) :: post) x subs.id =
      sendsFor subs.id ((process (hosts.name x)).outputs Process.calling
        (process (hosts.name x)).init (.post (.pubSub (.subscribe subs)) :: acts)) := by
    rw [told, System.outputs_append hpre, ← hcalls₁, System.outputs_cons hstep, hacted]
    rfl
  rw [htold]
  refine Process.told_run hprocess (System.outputs_cons hsub acts) (fun ev hev => ?_) hbook hctl
  rcases List.mem_cons.mp hev with heq | hev
  · obtain rfl := Act.post.inj heq
    exact ⟨rfl, rfl⟩
  · rcases hposts ev hev with hmem | rfl
    · exact hpost ev hmem
    · exact ⟨rfl, rfl⟩

/-- A subscriber of a node, which then dials the other. -/
def heralding : List (Bool × (Move ⊕ Fault)) :=
  ([(false, .post (.pubSub (.subscribe ⟨⟨0⟩, {.peerAddedToAddressBook}, 0⟩)))] ++ takes false 2 ++
    [(false, .post (.peer (.connect "127.0.0.1:29002")))] ++ takes false 4 ++ [(true, .accept)] ++
    takes true 12 ++ takes false 12 ++ takes false 3 : List (Bool × Move)).map (Prod.map id .inl)

theorem told_what_is_booked_heralding : ∃ s, (faulty pair).Run Any heralding s ∧
    (s.nodes false).node.addrBook.addrs.map PeerAddr.id = ["2"] ∧
      additions (told pair heralding false ⟨0⟩) ++
          additions ((s.nodes false).queue.map fun m => (0, m.ev)) =
        (s.nodes false).node.addrBook.addrs.map (0, ·) := by
  have h : ((faulty pair).exec Any (faulty pair).init heralding).map
      (fun s => ((s.nodes false).ctl.idle, (s.nodes false).node.addrBook.addrs.map PeerAddr.id)) =
      some (true, ["2"]) := by
    decide
  obtain ⟨s, hs, hobs⟩ := Option.map_eq_some_iff.mp h
  obtain ⟨hidle, hids⟩ := Prod.mk.inj hobs
  have hpost : ∀ ev : Event, (false, Sum.inl (Move.post ev)) ∈ heralding.tail →
      ev.added? = none ∧ ev.endsSubscription ⟨0⟩ = false := by
    intro ev hev
    obtain rfl : ev = .peer (.connect "127.0.0.1:29002") := by
      simpa [heralding, takes] using hev
    exact ⟨rfl, rfl⟩
  have hsplit : heralding = [] ++ (false, .inl (.post (.pubSub (.subscribe
      ⟨⟨0⟩, {.peerAddedToAddressBook}, 0⟩)))) :: heralding.tail := rfl
  have hrun := System.run_iff.mpr hs
  exact ⟨s, hrun, hids, told_what_is_booked hrun hsplit (by simp) hpost (by decide)
    (Ctl.idle_iff.mp hidle)⟩

end Reactor.Sn
