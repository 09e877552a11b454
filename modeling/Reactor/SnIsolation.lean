import Mathlib.Data.List.TakeWhile
import Reactor.SnDelivery

/-!
# Isolation of subscribers

`publish` gives up at the first subscriber that does not accept the event,
and its loop runs over a hash map. Who is sent the event is therefore the
part of the iteration order before the first failure (`sendsFor_notifyAll`).

**`publish_isolated_iff`**: every subscriber whose channel can take the
event is sent it once exactly when none of them comes after a failure, and
the order does not matter exactly when all succeed or none does.
-/

namespace Reactor.Sn

open Program

/-! ## The loop of `publish` -/

section Loop

variable (io : Io) (ev : Event) (subs : HashMap SubscriptionID Notify)

/-- The channel of the subscription can take the event. -/
def canAccept (id : SubscriptionID) : Bool :=
  (subs.lookup id).any fun notify => io (.trySend id notify ev) = .vacant

/-- And the event can be cloned for it. -/
def reachable (id : SubscriptionID) : Bool :=
  cloneable io (.publish id) ev && canAccept io ev subs id

variable {io ev subs}

theorem canAccept_iff {id : SubscriptionID} : canAccept io ev subs id ↔
    ∃ notify, subs.lookup id = some notify ∧ io (.trySend id notify ev) = .vacant := by
  unfold canAccept
  cases subs.lookup id <;> simp

theorem reachable_iff {id : SubscriptionID} :
    reachable io ev subs id ↔ cloneable io (.publish id) ev ∧ canAccept io ev subs id := by
  simp [reachable]

/-- The loop comes to the ids before the first that is not reachable. -/
theorem sendsFor_notifyAll {id : SubscriptionID} {notify : Notify}
    (hlook : subs.lookup id = some notify) (hid : canAccept io ev subs id) :
    ∀ {ids : List SubscriptionID}, ids.Nodup → (∀ id ∈ ids, id ∈ subs) →
      sendsFor id ((notifyAll ev subs ids).calls io) =
        if id ∈ ids.takeWhile (reachable io ev subs) then [(notify, ev)] else []
  | [], _, _ => rfl
  | id' :: ids, hnd, hmem => by
      obtain ⟨hnot, hnd⟩ := List.nodup_cons.mp hnd
      obtain ⟨hid', hmem⟩ := List.forall_mem_cons.mp hmem
      obtain ⟨notify', hlook'⟩ := Finmap.mem_iff.mp hid'
      have ih := sendsFor_notifyAll hlook hid hnd hmem
      have hexec := exec_clone io (.publish id') ev
      have hsilent := sendsFor_silent (clone_silent io (.publish id') ev) id
      rw [notifyAll]
      simp only [hlook', trySend_bind]
      cases hclone : cloneable io (.publish id') ev with
      | false =>
          rw [hclone, if_neg (by simp)] at hexec
          rw [calls_bind_error io hexec, hsilent,
            List.takeWhile_cons_of_neg (by simp [reachable, hclone])]
          rfl
      | true =>
          rw [hclone, if_pos rfl] at hexec
          rw [calls_bind_ok io hexec, sendsFor_append, hsilent, List.nil_append, calls_call,
            sendsFor_cons]
          by_cases hvacant : io (.trySend id' notify' ev) = .vacant
          · -- the loop goes on
            have hhead : reachable io ev subs id' :=
              reachable_iff.mpr ⟨hclone, canAccept_iff.mpr ⟨notify', hlook', hvacant⟩⟩
            simp only [hvacant, Channel.trySend]
            rw [List.takeWhile_cons_of_pos hhead, ih]
            by_cases heq : id' = id
            · subst heq
              have htail : id' ∉ ids.takeWhile (reachable io ev subs) :=
                fun h => hnot (List.takeWhile_subset _ h)
              rw [if_pos rfl, if_neg htail, if_pos (List.mem_cons_self ..)]
              obtain rfl := Option.some.inj (hlook.symm.trans hlook')
              rfl
            · simp [heq, Ne.symm heq]
          · -- the loop ends here, and this is not the id we look at
            have hhead : ¬canAccept io ev subs id' := by
              rw [canAccept_iff]
              rintro ⟨notify'', hlook'', hvacant'⟩
              obtain rfl := Option.some.inj (hlook'.symm.trans hlook'')
              exact hvacant hvacant'
            have hne : id' ≠ id := fun heq => hhead (heq ▸ hid)
            rw [if_neg hne, List.takeWhile_cons_of_neg fun h => hhead (reachable_iff.mp h).2]
            cases hanswer : io (.trySend id' notify' ev) with
            | vacant => exact absurd hanswer hvacant
            | full | disconnected => rfl

end Loop

/-- All that satisfy `q` come up before the first that does not satisfy the
stronger `p`. -/
theorem forall_mem_takeWhile_iff {α : Type} {p q : α → Bool} {l : List α} (hnd : l.Nodup) :
    (∀ a ∈ l, q a → a ∈ l.takeWhile p) ↔
      (∀ a ∈ l, q a → p a) ∧ l.Pairwise fun a b => q b → p a := by
  induction l with
  | nil => simp
  | cons a l ih =>
      obtain ⟨ha, hnd⟩ := List.nodup_cons.mp hnd
      rw [List.pairwise_cons]
      by_cases hp : p a
      · rw [List.takeWhile_cons_of_pos hp]
        have htail : (∀ b ∈ l, q b → b ∈ a :: l.takeWhile p) ↔
            ∀ b ∈ l, q b → b ∈ l.takeWhile p := by
          refine forall₂_congr fun b hb => imp_congr_right fun _ => ?_
          exact List.mem_cons.trans (or_iff_right fun heq => ha (heq ▸ hb))
        rw [List.forall_mem_cons, htail, ih hnd]
        simp [hp]
      · rw [List.takeWhile_cons_of_neg hp]
        constructor
        · intro h
          have hnone : ∀ b ∈ a :: l, ¬q b := fun b hb hq => List.not_mem_nil (h b hb hq)
          refine ⟨fun b hb hq => absurd hq (hnone b hb),
            fun b hb hq => absurd hq (hnone b (List.mem_cons_of_mem a hb)), ?_⟩
          exact List.pairwise_of_forall_mem_list fun _ _ b hb hq =>
            absurd hq (hnone b (List.mem_cons_of_mem a hb))
        · rintro ⟨hself, hlater, -⟩ b hb hq
          rcases List.mem_cons.mp hb with rfl | hb
          · exact absurd (hself b (List.mem_cons_self ..) hq) hp
          · exact absurd (hlater b hb hq) hp

/-! ## `publish` -/

section Publish

variable {io : Io} {self : Subscriptions} {table : Table} {ev : Event} {e : EventID}

/-- The senders subscribed to an event id. -/
def Subscriptions.senders (self : Subscriptions) (e : EventID) : HashMap SubscriptionID Notify :=
  (self.byEventId.lookup e).getD ∅

/-- The order in which `publish` comes to them. -/
def Subscriptions.queue (self : Subscriptions) (io : Io) (e : EventID) : List SubscriptionID :=
  (io .subscriptionOrder).order (self.senders e).keys

/-- A live subscription to the event. -/
def Table.Wants (table : Table) (ev : Event) (id : SubscriptionID) (notify : Notify) : Prop :=
  ∃ E, table id = some (E, notify) ∧ ∃ e ∈ E, ev.id = some e

theorem Represents.wants_iff (h : Represents self table) (he : ev.id = some e)
    {id : SubscriptionID} {notify : Notify} :
    table.Wants ev id notify ↔ (self.senders e).lookup id = some notify := by
  have hfind : self.byEventId.find e id = (self.senders e).lookup id := by
    unfold Index.find Subscriptions.senders
    cases self.byEventId.lookup e <;> simp
  rw [← hfind, h.index]
  constructor
  · rintro ⟨E, hE, e', he', hid⟩
    obtain rfl := Option.some.inj (he.symm.trans hid)
    exact ⟨E, hE, he'⟩
  · rintro ⟨E, hE, hmem⟩
    exact ⟨E, hE, e, hmem, he⟩

theorem sendsFor_publish (he : ev.id = some e) (id : SubscriptionID) :
    sendsFor id ((self.publish ev).calls io) =
      sendsFor id ((notifyAll ev (self.senders e) (self.queue io e)).calls io) := by
  unfold Subscriptions.publish Subscriptions.queue Subscriptions.senders
  rw [he]
  cases hl : self.byEventId.lookup e with
  | none =>
      have hempty : (io .subscriptionOrder).order ∅ = [] :=
        List.toFinset_eq_empty_iff _ |>.mp ((io .subscriptionOrder).toFinset ∅)
      simp [hl, hempty, notifyAll]
  | some subs => simp [hl, sendsFor]

theorem mem_queue {id : SubscriptionID} : id ∈ self.queue io e ↔ id ∈ self.senders e := by
  simp [Subscriptions.queue, Finmap.mem_keys]

theorem queue_nodup (self : Subscriptions) (io : Io) (e : EventID) : (self.queue io e).Nodup :=
  (io .subscriptionOrder).nodup _

/-- Who is sent the event, of those whose channels can take it. -/
theorem publish_reaches (he : ev.id = some e) {id : SubscriptionID} {notify : Notify}
    (hlook : (self.senders e).lookup id = some notify)
    (hvacant : io (.trySend id notify ev) = .vacant) :
    sendsFor id ((self.publish ev).calls io) =
      if id ∈ (self.queue io e).takeWhile (reachable io ev (self.senders e)) then [(notify, ev)]
      else [] := by
  rw [sendsFor_publish he]
  exact sendsFor_notifyAll hlook (canAccept_iff.mpr ⟨notify, hlook, hvacant⟩)
    (queue_nodup self io e) fun _ => mem_queue.mp

/-- Every subscription to the event whose channel can take it is sent it
once. -/
def Isolated (io : Io) (self : Subscriptions) (table : Table) (ev : Event) : Prop :=
  ∀ id notify, table.Wants ev id notify → io (.trySend id notify ev) = .vacant →
    sendsFor id ((self.publish ev).calls io) = [(notify, ev)]

/-- The event can be cloned for those whose channels can take it, and none
of them comes after one that it cannot be cloned for or whose channel
cannot take it. -/
def Undisturbed (io : Io) (self : Subscriptions) (ev : Event) (e : EventID) : Prop :=
  (∀ id ∈ self.queue io e, canAccept io ev (self.senders e) id →
    reachable io ev (self.senders e) id) ∧
  (self.queue io e).Pairwise fun id id' =>
    canAccept io ev (self.senders e) id' → reachable io ev (self.senders e) id

instance : Decidable (Undisturbed io self ev e) := inferInstanceAs (Decidable (_ ∧ _))

theorem isolated_iff (h : Represents self table) (he : ev.id = some e) :
    Isolated io self table ev ↔ Undisturbed io self ev e := by
  have hfirst := @forall_mem_takeWhile_iff _ (reachable io ev (self.senders e))
    (canAccept io ev (self.senders e)) _ (queue_nodup self io e)
  rw [Undisturbed, ← hfirst]
  constructor
  · intro hall id _ hid
    obtain ⟨notify, hlook, hvacant⟩ := canAccept_iff.mp hid
    have hsent := hall id notify ((h.wants_iff he).mpr hlook) hvacant
    rw [publish_reaches he hlook hvacant] at hsent
    by_contra hnot
    rw [if_neg hnot] at hsent
    cases hsent
  · intro hall id notify hwants hvacant
    have hlook := (h.wants_iff he).mp hwants
    have hmem : id ∈ self.queue io e := mem_queue.mpr (Finmap.mem_iff.mpr ⟨_, hlook⟩)
    rw [publish_reaches he hlook hvacant,
      if_pos (hall id hmem (canAccept_iff.mpr ⟨notify, hlook, hvacant⟩))]

/-! ## Orders -/

/-- The same outcomes, and this order. -/
def Io.inOrder (io : Io) (it : Iter SubscriptionID) : Io
  | .subscriptionOrder => it
  | c => io c

/-- The event is sent on the channel of the subscription, which takes it. -/
def Reached (io : Io) (self : Subscriptions) (table : Table) (ev : Event)
    (id : SubscriptionID) : Prop :=
  ∃ notify, table.Wants ev id notify ∧ io (.trySend id notify ev) = .vacant ∧
    .trySend id notify ev ∈ (self.publish ev).calls io

theorem reached_iff (h : Represents self table) (he : ev.id = some e) {id : SubscriptionID} :
    Reached io self table ev id ↔
      id ∈ (self.queue io e).takeWhile (reachable io ev (self.senders e)) := by
  constructor
  · rintro ⟨notify, hwants, hvacant, hsent⟩
    rw [← mem_sendsFor, publish_reaches he ((h.wants_iff he).mp hwants) hvacant] at hsent
    by_contra hnot
    rw [if_neg hnot] at hsent
    cases hsent
  · intro hid
    obtain ⟨-, haccept⟩ := reachable_iff.mp (List.mem_takeWhile_imp hid)
    obtain ⟨notify, hlook, hvacant⟩ := canAccept_iff.mp haccept
    refine ⟨notify, (h.wants_iff he).mpr hlook, hvacant, ?_⟩
    rw [← mem_sendsFor, publish_reaches he hlook hvacant, if_pos hid]
    exact List.mem_singleton_self _

/-- Who is reached, in some order. -/
theorem reached_inOrder (h : Represents self table) (he : ev.id = some e)
    {it : Iter SubscriptionID} {id : SubscriptionID} :
    Reached (io.inOrder it) self table ev id ↔
      id ∈ (it.order (self.senders e).keys).takeWhile (reachable io ev (self.senders e)) :=
  reached_iff h he

/-- Orders make a difference unless they cannot. -/
theorem orders_agree_iff (h : Represents self table) (he : ev.id = some e) :
    (∀ it it' id, Reached (io.inOrder it) self table ev id ↔
      Reached (io.inOrder it') self table ev id) ↔
    (∀ id ∈ self.senders e, reachable io ev (self.senders e) id) ∨
      ∀ id ∈ self.senders e, ¬reachable io ev (self.senders e) id := by
  constructor
  · intro hsame
    by_contra hmixed
    push Not at hmixed
    obtain ⟨⟨a, ha, hbad⟩, b, hb, hgood⟩ := hmixed
    have horders := hsame ((io .subscriptionOrder).first a) ((io .subscriptionOrder).first b) b
    rw [reached_inOrder h he, reached_inOrder h he, Iter.first_order _ (Finmap.mem_keys.mpr ha),
      Iter.first_order _ (Finmap.mem_keys.mpr hb), List.takeWhile_cons_of_neg hbad,
      List.takeWhile_cons_of_pos hgood] at horders
    exact List.not_mem_nil (horders.mpr (List.mem_cons_self ..))
  · intro hall it it' id
    rw [reached_inOrder h he, reached_inOrder h he]
    rcases hall with hall | hnone
    · have hwhole : ∀ it : Iter SubscriptionID,
          (it.order (self.senders e).keys).takeWhile (reachable io ev (self.senders e)) =
            it.order (self.senders e).keys := fun it =>
        List.takeWhile_eq_self_iff.mpr fun id hid => hall id (by simpa [Finmap.mem_keys] using hid)
      simp [hwhole]
    · have hempty : ∀ it : Iter SubscriptionID,
          id ∉ (it.order (self.senders e).keys).takeWhile (reachable io ev (self.senders e)) := by
        intro it hid
        have hmem := List.takeWhile_subset _ hid
        exact hnone id (by simpa [Finmap.mem_keys] using hmem) (List.mem_takeWhile_imp hid)
      simp [hempty]

/-- **Isolation of subscribers.** After any operations on the
subscriptions, whatever the outcomes: everyone whose channel can take the
event is sent it exactly when nobody in the order is in the way, and who is
reached is the same in all orders exactly when all are reachable or none
is. -/
theorem publish_isolated_iff (ops : List Operation) (ev : Event) :
    ∃ self, Subscriptions.after ops = some self ∧ ∀ e, ev.id = some e → ∀ io,
      (Isolated io self (Table.after ops) ev ↔ Undisturbed io self ev e) ∧
      ((∀ it it' id, Reached (io.inOrder it) self (Table.after ops) ev id ↔
        Reached (io.inOrder it') self (Table.after ops) ev id) ↔
      (∀ id ∈ self.senders e, reachable io ev (self.senders e) id) ∨
        ∀ id ∈ self.senders e, ¬reachable io ev (self.senders e) id) := by
  obtain ⟨self, hself, h⟩ := Represents.after ops
  exact ⟨self, hself, fun e he io => ⟨isolated_iff h he, orders_agree_iff h he⟩⟩

end Publish

/-- Two subscribers to dials. -/
def twoSubscribers : List Operation :=
  [.add (.sorted _) ⟨⟨0⟩, {.peerConnect}, 0⟩, .add (.sorted _) ⟨⟨1⟩, {.peerConnect}, 1⟩]

/-- The receiver of one channel is gone. -/
def Io.gone (notify : Notify) : Io
  | .trySend _ notify' _ => if notify' = notify then .disconnected else .vacant
  | c => Io.calm c

theorem publish_isolated_iff_calm : ∃ self, Subscriptions.after twoSubscribers = some self ∧
    Isolated .calm self (Table.after twoSubscribers) (.peer (.connect "127.0.0.1:29000")) := by
  obtain ⟨self, hself, hall⟩ :=
    publish_isolated_iff twoSubscribers (.peer (.connect "127.0.0.1:29000"))
  have hundisturbed : (Subscriptions.after twoSubscribers).all fun self =>
      Undisturbed .calm self (.peer (.connect "127.0.0.1:29000")) .peerConnect := by
    decide
  rw [hself] at hundisturbed
  refine ⟨self, hself, (hall _ rfl .calm).1.mpr ?_⟩
  simpa using hundisturbed

/-- The second subscriber goes without because the first is gone. -/
theorem publish_stops : ∃ self, Subscriptions.after twoSubscribers = some self ∧
    ¬Isolated (.gone 0) self (Table.after twoSubscribers)
      (.peer (.connect "127.0.0.1:29000")) := by
  have hsent : (Subscriptions.after twoSubscribers).map (fun self =>
      sendsFor ⟨1⟩ ((self.publish (.peer (.connect "127.0.0.1:29000"))).calls (Io.gone 0))) =
        some [] := by
    decide
  obtain ⟨self, hself, hsent⟩ := Option.map_eq_some_iff.mp hsent
  refine ⟨self, hself, fun h => ?_⟩
  have hwants : (Table.after twoSubscribers).Wants (.peer (.connect "127.0.0.1:29000")) ⟨1⟩ 1 :=
    ⟨{.peerConnect}, by decide, .peerConnect, by decide, rfl⟩
  rw [h ⟨1⟩ 1 hwants rfl] at hsent
  cases hsent

end Reactor.Sn
