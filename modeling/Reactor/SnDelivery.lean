import Reactor.SnLoop

/-!
# Delivery

What a subscriber is sent, over whole runs. A round publishes its event
before it handles it, so a subscription sees the events after the one
that accepted it, up to and including the one that ends it.

A round sends its event once for every live subscription to it, and makes
no other send (`round_sends`): the index is nested, the loop over it runs
in any order, and `Represents` reduces both to the table. The table in
turn changes with the events of the run (`turn_result`), so what is sent
for an id along a run is read off the list of events (`delivered`).
-/

namespace Reactor.Sn

open Program
open Reactor.System (Any)

/-! ## Sends -/

/-- The sends on behalf of a subscription id among some calls. -/
def sendsFor (id : SubscriptionID) (calls : List Call) : List (Notify × Event) :=
  calls.filterMap fun
    | .trySend id' notify ev => if id' = id then some (notify, ev) else none
    | _ => none

@[simp] theorem sendsFor_nil (id : SubscriptionID) : sendsFor id [] = [] := rfl

@[simp] theorem sendsFor_cons (id id' : SubscriptionID) (notify : Notify) (ev : Event)
    (cs : List Call) :
    sendsFor id (.trySend id' notify ev :: cs) =
      if id' = id then (notify, ev) :: sendsFor id cs else sendsFor id cs := by
  rw [sendsFor, List.filterMap_cons]
  split <;> split at * <;> simp_all [sendsFor]

@[simp] theorem sendsFor_append (id : SubscriptionID) (cs ds : List Call) :
    sendsFor id (cs ++ ds) = sendsFor id cs ++ sendsFor id ds :=
  List.filterMap_append

theorem mem_sendsFor {id : SubscriptionID} {calls : List Call} {notify : Notify} {ev : Event} :
    (notify, ev) ∈ sendsFor id calls ↔ .trySend id notify ev ∈ calls := by
  simp only [sendsFor, List.mem_filterMap]
  constructor
  · rintro ⟨c, hc, h⟩
    split at h
    · split at h
      · next hid =>
          obtain ⟨rfl, rfl⟩ := Prod.mk.inj (Option.some.inj h)
          exact hid ▸ hc
      · cases h
    · cases h
  · exact fun h => ⟨_, h, by simp⟩

theorem sendsFor_silent {calls : List Call} (h : ∀ c ∈ calls, c.Silent) (id : SubscriptionID) :
    sendsFor id calls = [] := by
  refine List.eq_nil_iff_forall_not_mem.mpr fun ⟨notify, ev⟩ hmem => ?_
  exact h _ (mem_sendsFor.mp hmem)

theorem clone_silent (io : Io) (site : CloneSite) (ev : Event) :
    ∀ c ∈ (ev.clone site).calls io, c.Silent := by
  unfold Event.clone
  split
  · simp only [tryClone_bind, calls_call]
    split <;> simp [Call.Silent]
  · simp

/-- The sends of `publish`'s loop: one for each id that comes up, on the
channel found under it. -/
theorem notifyAll_sends {io : Io} {ev : Event} {subs : HashMap SubscriptionID Notify}
    (id : SubscriptionID) : ∀ {ids : List SubscriptionID}, ids.Nodup →
    (notifyAll ev subs ids).exec io = .ok (.ok ()) →
    sendsFor id ((notifyAll ev subs ids).calls io) =
      if id ∈ ids then (subs.lookup id).toList.map (·, ev) else []
  | [], _, _ => rfl
  | id' :: ids, hnd, h => by
      obtain ⟨hid, hnd⟩ := List.nodup_cons.mp hnd
      have ih : (notifyAll ev subs ids).exec io = .ok (.ok ()) → _ := notifyAll_sends id hnd
      rw [notifyAll] at h ⊢
      cases hl : subs.lookup id' with
      | none =>
          simp only [hl] at h ⊢
          rw [ih h]
          by_cases heq : id = id'
          · subst heq; simp [hid, hl]
          · simp [heq]
      | some notify =>
          simp only [hl, trySend_bind] at h ⊢
          obtain ⟨⟨⟩, hclone, h⟩ := (exec_bind_eq_ok io).mp h
          rw [calls_bind_ok io hclone, sendsFor_append, sendsFor_silent (clone_silent io _ ev)]
          cases hs : io (.trySend id' notify ev) <;>
            simp only [hs, exec_call, Channel.trySend] at h
          · simp only [calls_call, hs, Channel.trySend, List.nil_append]
            rw [sendsFor_cons, ih h]
            by_cases heq : id = id'
            · subst heq; simp [hid, hl]
            · simp [heq, Ne.symm heq]
          · cases h
          · cases h

/-- What a table owes an id when an event is published. -/
def Table.owed (table : Table) (id : SubscriptionID) (ev : Event) : List (Notify × Event) :=
  match table id with
  | none => []
  | some (eventIds, notify) => if ev.id.any (· ∈ eventIds) then [(notify, ev)] else []

theorem publish_sends {io : Io} {self : Subscriptions} {table : Table}
    (h : Represents self table) {ev : Event} {r : Except SubscriptionError Unit}
    (hr : (self.publish ev).exec io = .ok r) (hok : r = .ok () ∨ r = .error .noEventIDForEvent)
    (id : SubscriptionID) : sendsFor id ((self.publish ev).calls io) = table.owed id ev := by
  unfold Subscriptions.publish at hr ⊢
  -- what is owed, in terms of the index
  have howed : table.owed id ev =
      ((ev.id.bind fun e => self.byEventId.find e id).toList.map (·, ev)) := by
    unfold Table.owed
    cases hid : ev.id with
    | none => cases table id <;> simp
    | some e =>
        have hindex := h.index e id
        cases hl : table id with
        | none => simp [h.find_eq_none hl]
        | some entry =>
            obtain ⟨E, notify⟩ := entry
            by_cases he : e ∈ E
            · have := (hindex notify).mpr ⟨E, hl, he⟩
              simp [this, he]
            · have : self.byEventId.find e id = none := by
                cases hf : self.byEventId.find e id with
                | none => rfl
                | some ch =>
                    obtain ⟨E', hE', he'⟩ := (hindex ch).mp hf
                    rw [hl] at hE'
                    obtain ⟨rfl, -⟩ := Prod.mk.inj (Option.some.inj hE')
                    exact absurd he' he
              simp [this, he]
  rw [howed]
  cases hid : ev.id with
  | none => simp
  | some e =>
      cases hl : self.byEventId.lookup e with
      | none => simp [Index.find, hl]
      | some subs =>
          simp only [hid, hl, subscriptionOrder_bind, exec_call] at hr
          have hrok : r = .ok () := by
            rcases hok with rfl | rfl
            · rfl
            · obtain ⟨_, he⟩ := notifyAll_error io ev subs _ _ hr
              cases he
          subst hrok
          simp only [hl, subscriptionOrder_bind, calls_call]
          refine (notifyAll_sends id ((io .subscriptionOrder).nodup _) hr).trans ?_
          by_cases hmem : id ∈ subs
          · simp [Index.find, hl, Finmap.mem_keys, hmem]
          · simp [Index.find, hl, Finmap.mem_keys, hmem, Finmap.lookup_eq_none.mpr hmem]

/-! ## A round -/

/-- Programs that notify nobody. -/
def quiet (α : Type) : Contract Call Call.Answer α Unit := .flat Call.Silent fun _ => True

theorem sendsFor_quiet {α : Type} {io : Io} {p : Prog α} (h : p.Follows (quiet α) ())
    (id : SubscriptionID) : sendsFor id (p.calls io) = [] :=
  sendsFor_silent (fun _ hc => let ⟨_, hsilent⟩ := h.calls hc; hsilent) id

theorem handlePubsubEvent_quiet (self : SeedNode) (req : PubSubRequest) :
    (self.handlePubsubEvent req).Follows (quiet _) () :=
  follows_handlePubsubEvent (fun _ _ => ⟨trivial, fun _ _ => trivial⟩)
    fun _ _ => ⟨trivial, fun _ => ⟨trivial, fun _ _ => trivial⟩⟩

theorem disconnectAllPeers_quiet (self : SeedNode) :
    self.disconnectAllPeers.Follows (quiet _) () :=
  ⟨trivial, fun _ => follows_disconnectEach (I := fun _ _ => True) (fun _ => trivial)
    (fun _ _ => ⟨trivial, trivial⟩) _ trivial⟩

theorem handleEvent_quiet (self : SeedNode) (ev : Event) :
    (self.handleEvent ev).Follows (quiet _) () := by
  cases ev with
  | peer pe =>
      refine (handlePeerEvent_untouched self pe).bind (fun _ _ h => h) rfl fun _ _ _ => trivial
  | pubSub req =>
      exact (handlePubsubEvent_quiet self req).bind (fun _ _ h => h) rfl fun _ _ _ => trivial
  | terminate =>
      exact (disconnectAllPeers_quiet self).bind (fun _ _ h => h) rfl fun _ _ _ => trivial

/-- **One round's sends.** The event once to every live subscription to it,
and nothing else. -/
theorem round_sends {io : Io} {self : SeedNode} {table : Table}
    (h : Represents self.subscriptions table) {ev : Event} {t : Turn}
    (ht : (self.turn ev).exec io = .ok t) (id : SubscriptionID) :
    sendsFor id ((self.turn ev).calls io) = table.owed id ev := by
  unfold SeedNode.turn at ht ⊢
  obtain ⟨⟨⟩, hclone, ht⟩ := (exec_bind_eq_ok io).mp ht
  obtain ⟨⟨⟩, hpub, ht⟩ := (exec_bind_eq_ok io).mp ht
  rw [calls_bind_ok io hclone, calls_bind_ok io hpub, sendsFor_append, sendsFor_append,
    sendsFor_silent (clone_silent io _ ev), List.nil_append]
  rw [sendsFor_quiet (handleEvent_quiet self ev), List.append_nil]
  unfold SeedNode.publishEvent at hpub ⊢
  obtain ⟨⟨⟩, hclone', hpub⟩ := (exec_bind_eq_ok io).mp hpub
  obtain ⟨r, hr, hpub⟩ := (exec_bind_eq_ok io).mp hpub
  rw [calls_bind_ok io hclone', calls_bind_ok io hr, sendsFor_append, sendsFor_append,
    sendsFor_silent (clone_silent io _ ev), List.nil_append]
  split at hpub
  · rw [publish_sends h hr (.inl rfl)]; simp
  · rw [publish_sends h hr (.inr rfl)]; simp
  · cases hpub

/-! ## Runs -/

/-- The node accepts the event as a new subscription under the id. -/
def SeedNode.accepts (self : SeedNode) (id : SubscriptionID) : Event → Bool
  | .pubSub (.subscribe subs) => subs.id = id ∧ id ∉ self.subscriptions.subscriptionIds
  | _ => false

/-- The sends on behalf of an id along a run, up to the round that accepts
it again: those on behalf of the subscription that holds it. -/
def sentFor (id : SubscriptionID) : Loop → List Round → List (Notify × Event)
  | .running node, a :: as =>
      if node.accepts id a.ev then []
      else sendsFor id ((node.turn a.ev).calls a.io) ++
        ((Loop.running node).step a).elim [] fun s => sentFor id s as
  | _, _ => []

/-- The event ends the subscription under the id. -/
def Event.endsSubscription (id : SubscriptionID) : Event → Bool
  | .pubSub (.unsubscribe ids) => id ∈ ids
  | _ => false

/-- The events up to and including the first that ends the subscription. -/
def whileSubscribed (id : SubscriptionID) : List Event → List Event
  | [] => []
  | ev :: evs => ev :: if ev.endsSubscription id then [] else whileSubscribed id evs

/-- The event has one of the ids subscribed to. -/
def Event.among (eventIds : Finset EventID) (ev : Event) : Bool := ev.id.any (· ∈ eventIds)

theorem Table.handle_of_some {table : Table} {id : SubscriptionID} {entry : Finset EventID × Notify}
    (h : table id = some entry) (ev : Event) :
    table.handle ev id = if ev.endsSubscription id then none else some entry := by
  unfold Table.handle
  split
  · next subs =>
      by_cases hid : subs.id = id
      · simp [Event.endsSubscription, Table.add, hid, h]
      · unfold Table.add
        split <;> simp [Event.endsSubscription, Ne.symm hid, h]
  · simp [Event.endsSubscription, Table.removeAll, h]
  · cases ev with
    | pubSub req => cases req <;> simp_all
    | peer _ | terminate => simpa [Event.endsSubscription] using h

theorem Table.handle_of_none {table : Table} {id : SubscriptionID} (h : table id = none)
    {ev : Event} (hev : ∀ subs, ev = .pubSub (.subscribe subs) → subs.id ≠ id) :
    table.handle ev id = none := by
  unfold Table.handle
  split
  · next subs =>
      unfold Table.add
      split
      · exact h
      · rw [Function.update_of_ne (hev subs rfl).symm, h]
  · simp [Table.removeAll, h]
  · exact h

theorem accepts_iff {node : SeedNode} {table : Table} (h : Represents node.subscriptions table)
    {id : SubscriptionID} {ev : Event} :
    node.accepts id ev ↔
      table id = none ∧ ∃ subs, ev = .pubSub (.subscribe subs) ∧ subs.id = id := by
  unfold SeedNode.accepts
  split
  · simp [h.ids, and_comm]
  · next hev => simpa using fun _ subs hsubs => absurd hsubs (hev subs)

/-- A round of a run that does not fail, in terms of the node. -/
theorem step_running {node : SeedNode} {a : Round} {s : Loop}
    (hs : Loop.step (.running node) a = some s) (hok : ∀ e, s ≠ .failed e) :
    ∃ t, (node.turn a.ev).exec a.io = .ok t ∧
      (s = .running t.node ∨ s = .returned t.node) := by
  simp only [Loop.step] at hs
  split at hs <;> cases hs
  · next ht => exact ⟨_, ht, .inl rfl⟩
  · next ht => exact ⟨_, ht, .inr rfl⟩
  · exact absurd rfl (hok _)

/-- A run that does not end in a failure did not fail before. -/
theorem not_failed {G : Loop → Round → Prop} {s t : Loop} {as : List Round}
    (h : (System.mk s Loop.step).Run G as t) (ht : ∀ e, t ≠ .failed e) :
    ∀ e, s ≠ .failed e := by
  rintro e rfl
  cases as with
  | nil =>
      obtain rfl := (System.Run.nil (S := ⟨.failed e, Loop.step⟩) (G := G)).unique h
      exact ht e rfl
  | cons a as =>
      obtain ⟨-, s₁, hs, -⟩ := System.run_cons.mp h
      cases hs

/-- Nothing follows a run's return. -/
theorem returned_nil {G : Loop → Round → Prop} {node : SeedNode} {as : List Round} {t : Loop}
    (h : (System.mk (.returned node) Loop.step).Run G as t) : as = [] := by
  cases as with
  | nil => rfl
  | cons a as =>
      obtain ⟨-, _, hs, -⟩ := System.run_cons.mp h
      cases hs

/-- **Delivery along a run.** From any running state, what an id is sent
is what its entry in the table subscribes it to, as long as it has one. -/
theorem delivered {G : Loop → Round → Prop} {id : SubscriptionID} {as : List Round}
    {node : SeedNode} {table : Table} {t : Loop} (h : Represents node.subscriptions table)
    (hrun : (System.mk (.running node) Loop.step).Run G as t) (ht : ∀ e, t ≠ .failed e) :
    sentFor id (.running node) as = (table id).elim [] fun (eventIds, notify) =>
      ((whileSubscribed id (as.map Round.ev)).filter (Event.among eventIds)).map (notify, ·) := by
  induction as generalizing node table with
  | nil => cases table id <;> rfl
  | cons a as ih =>
      obtain ⟨-, s₁, (hstep : Loop.step (.running node) a = some s₁), hrest⟩ :=
        System.run_cons.mp hrun
      obtain ⟨turn, hturn, hs₁⟩ := step_running hstep (not_failed hrest ht)
      obtain ⟨h', -⟩ := turn_result h hturn
      -- the rest of the run, whether or not it is over
      have hnext : sentFor id s₁ as = (table.handle a.ev id).elim [] fun (eventIds, notify) =>
          ((whileSubscribed id (as.map Round.ev)).filter (Event.among eventIds)).map
            (notify, ·) := by
        rcases hs₁ with rfl | rfl
        · exact ih h' hrest
        · obtain rfl := returned_nil hrest
          cases table.handle a.ev id <;> rfl
      rw [sentFor, round_sends h hturn, hstep, Option.elim_some, hnext]
      have haccepts := @accepts_iff _ _ h id a.ev
      cases hid : table id with
      | none =>
          split
          · rfl
          · next hnot =>
              have hev : ∀ subs, a.ev = .pubSub (.subscribe subs) → subs.id ≠ id :=
                fun subs hsubs heq => hnot (haccepts.mpr ⟨hid, subs, hsubs, heq⟩)
              simp [Table.owed, hid, Table.handle_of_none hid hev]
      | some entry =>
          have hnot : ¬node.accepts id a.ev := fun hacc => by
            have := (haccepts.mp hacc).1
            rw [hid] at this
            cases this
          rw [if_neg hnot, Table.handle_of_some hid]
          obtain ⟨eventIds, notify⟩ := entry
          simp only [Table.owed, hid, List.map_cons, whileSubscribed, List.filter_cons,
            Option.elim_some]
          cases hends : a.ev.endsSubscription id <;> cases hin : a.ev.among eventIds <;>
            simp_all [Event.among]

/-- A subscription under a live id changes nothing. -/
theorem duplicate_unchanged {node : SeedNode} {table : Table}
    (h : Represents node.subscriptions table) {subs : Subscription}
    (hlive : subs.id ∈ node.subscriptions.subscriptionIds) {io : Io} {t : Turn}
    (ht : (node.turn (.pubSub (.subscribe subs))).exec io = .ok t) : t = .next node := by
  obtain ⟨-, -, ht⟩ := (exec_bind_eq_ok io).mp ht
  obtain ⟨-, -, ht⟩ := (exec_bind_eq_ok io).mp ht
  obtain ⟨subscriptions, hnode, h'⟩ := handlePubsubEvent_ok io h (.subscribe subs)
  rw [SeedNode.handleEvent, exec_bind_ok io hnode] at ht
  obtain rfl := Except.ok.inj ht
  have htable : table.handle (.pubSub (.subscribe subs)) = table := by
    simp [Table.handle, Table.add, (h.ids subs.id).mp hlive]
  rw [htable] at h'
  rw [h'.unique h]

/-- **Pub/sub over whole runs.** Along a run in which no round fails, every
accepted subscription is sent, on its channel, exactly the events it names
that come after it, up to and including the one that ends it. Pub/sub
events are never sent, `Terminate` is sent to those subscribed to it, and
a refused subscription leaves the node as it was. -/
theorem subscription_delivery {id : ID} {as : List Round} {t : Loop}
    (hrun : (loop id).Run Any as t) (hok : ∀ e, t ≠ .failed e) :
    ∀ pre a post node, as = pre ++ a :: post → (loop id).Run Any pre (.running node) →
      (∀ subs, a.ev = .pubSub (.subscribe subs) →
        subs.id ∉ node.subscriptions.subscriptionIds →
        ∃ node', Loop.step (.running node) a = some (.running node') ∧
          sentFor subs.id (.running node') post =
            ((whileSubscribed subs.id (post.map Round.ev)).filter
              (Event.among subs.eventIds)).map (subs.notify, ·)) ∧
      (∀ x notify ev, .trySend x notify ev ∈ (node.turn a.ev).calls a.io →
        ev = a.ev ∧ ∀ req, ev ≠ .pubSub req) ∧
      (a.ev = .terminate → ∀ x notify, node.Subscribed .terminate x notify →
        .trySend x notify .terminate ∈ (node.turn a.ev).calls a.io) ∧
      (∀ subs, a.ev = .pubSub (.subscribe subs) →
        subs.id ∈ node.subscriptions.subscriptionIds →
        Loop.step (.running node) a = some (.running node)) := by
  rintro pre a post node rfl hpre
  obtain ⟨s, hs, hpost⟩ := System.run_append.mp hrun
  obtain rfl := hpre.unique hs
  obtain ⟨-, s₁, (hstep : Loop.step (.running node) a = some s₁), hrest⟩ :=
    System.run_cons.mp hpost
  obtain ⟨turn, hturn, -⟩ := step_running hstep (not_failed hrest hok)
  obtain ⟨-, table, h⟩ := running_invariant hpre rfl
  obtain ⟨h', hresult⟩ := turn_result h hturn
  have hsends := round_sends h hturn
  refine ⟨fun subs hev hfresh => ?_, fun x notify ev hmem => ?_, fun hev x notify hsub => ?_,
    fun subs hev hlive => ?_⟩
  · rw [if_neg (by rw [hev]; simp)] at hresult
    obtain ⟨node', rfl⟩ := hresult
    have hnext : Loop.step (.running node) a = some (.running node') := by
      simp [Loop.step, hturn]
    refine ⟨node', hnext, ?_⟩
    rw [hnext] at hstep
    obtain rfl := Option.some.inj hstep
    have hentry : table.handle a.ev subs.id = some (subs.eventIds, subs.notify) := by
      rw [h.ids] at hfresh
      simp [hev, Table.handle, Table.add, hfresh]
    have hsent := @delivered _ subs.id _ node' _ _ h' hrest hok
    rw [hsent, hentry, Option.elim_some]
  · have := hsends x ▸ mem_sendsFor.mpr hmem
    unfold Table.owed at this
    split at this
    · cases this
    · split at this
      · next hany =>
          obtain ⟨rfl, rfl⟩ := Prod.mk.inj (List.mem_singleton.mp this)
          refine ⟨rfl, fun req hreq => ?_⟩
          rw [hreq] at hany
          cases hany
      · cases this
  · obtain ⟨e, he, hfind⟩ := hsub
    obtain ⟨E, hE, hmem⟩ := (h.index e x notify).mp hfind
    rw [← mem_sendsFor, hsends, hev]
    simp [Table.owed, hE, he, hmem]
  · rw [hev] at hturn
    obtain rfl := duplicate_unchanged h hlive hturn
    simp [Loop.step, hev, hturn]

/-- The second subscriber of the visit is sent the dial and nothing after
it unsubscribes; the first is sent the end as well. -/
def departure : List Round :=
  [⟨.pubSub (.subscribe ⟨⟨0⟩, {.peerConnect, .terminate}, 0⟩), .calm⟩,
    ⟨.pubSub (.subscribe ⟨⟨1⟩, {.peerConnect}, 1⟩), .calm⟩,
    ⟨.peer (.connect "127.0.0.1:29000"), .calm⟩,
    ⟨.pubSub (.unsubscribe {⟨1⟩}), .calm⟩,
    ⟨.peer (.connect "127.0.0.1:29000"), .calm⟩,
    ⟨.terminate, .calm⟩]

theorem subscription_delivery_departure : ∃ node node' : SeedNode,
    (loop "1").Run Any (departure.take 1) (.running node) ∧
    Loop.step (.running node) ⟨.pubSub (.subscribe ⟨⟨1⟩, {.peerConnect}, 1⟩), .calm⟩ =
      some (.running node') ∧
    sentFor ⟨1⟩ (.running node') (departure.drop 2) =
      [(1, .peer (.connect "127.0.0.1:29000"))] := by
  -- the run up to the second subscription, and the whole of it
  have h₁ : ((loop "1").exec Any (loop "1").init (departure.take 1)).bind (fun s =>
      s.running?.map (·.subscriptions.subscriptionIds)) = some {⟨0⟩} := by
    decide
  have h₂ : ((loop "1").exec Any (loop "1").init departure).bind (fun s =>
      s.returned?.map (·.peers)) = some ∅ := by
    decide
  obtain ⟨s₁, hs₁, hproj⟩ := Option.bind_eq_some_iff.mp h₁
  obtain ⟨s₂, hs₂, hend⟩ := Option.bind_eq_some_iff.mp h₂
  obtain ⟨node₁, hnode, hids⟩ := Option.map_eq_some_iff.mp hproj
  unfold Loop.running? at hnode
  split at hnode
  · next node =>
      obtain rfl := Option.some.inj hnode
      have hpre := System.run_iff.mpr hs₁
      have hok : ∀ e, s₂ ≠ .failed e := fun e he => by subst he; cases hend
      obtain ⟨hsub, -⟩ := subscription_delivery (System.run_iff.mpr hs₂) hok
        (departure.take 1) _ (departure.drop 2) node rfl hpre
      obtain ⟨node', hstep, hsent⟩ := hsub ⟨⟨1⟩, {.peerConnect}, 1⟩ rfl
        (by rw [hids]; decide)
      exact ⟨node, node', hpre, hstep, hsent.trans (by decide)⟩
  · cases hnode

end Reactor.Sn
