import Mathlib.Tactic.Common
import Reactor.SnTypes

/-!
# The table of subscriptions

`Subscriptions` keeps the live subscriptions twice: as an index from event
ids to the senders subscribed to them, and as the set of ids in use. The
model follows its loops, each over a hash map or a hash set in an order
that is a parameter, and its two `unwrap`s, whose failure is a `none`.

What the structure is for is a plain table from the id of a live
subscription to its event ids and its sender. **`subscriptions_refine_table`**:
after any sequence of operations, in whatever orders, the two fields hold
exactly what the table says. They are a canonical form of it
(`Represents.unique`), which is why no order shows in a result.
-/

namespace Reactor.Sn

/-! ## The implementation -/

/-- By event id, the senders of the subscriptions to it. -/
abbrev Index := HashMap EventID (HashMap SubscriptionID Notify)

structure Subscriptions where
  byEventId : Index
  subscriptionIds : Finset SubscriptionID
deriving DecidableEq

inductive SubscriptionError
  | idAlreadyExists
  | noEventIDForEvent
  | channelSendFailed (e : TrySendError Event)
deriving DecidableEq

namespace Subscriptions

def new : Subscriptions := ⟨∅, ∅⟩

/-- One turn of the loop in `add`. -/
def addEvent (subs : Subscription) (index : Index) (eventId : EventID) : Option Index :=
  let index := if eventId ∈ index then index else index.insert eventId ∅
  (index.lookup eventId).map fun subsForEvid =>
    index.insert eventId (subsForEvid.insert subs.id subs.notify)

/-- Adds a subscription whose id is not in use. -/
def add (keys : Iter EventID) (self : Subscriptions) (subs : Subscription) :
    Option (Except SubscriptionError Unit × Subscriptions) :=
  if subs.id ∈ self.subscriptionIds then
    some (.error .idAlreadyExists, self)
  else
    ((keys.order subs.eventIds).foldlM (addEvent subs) self.byEventId).map fun index =>
      (.ok (), ⟨index, insert subs.id self.subscriptionIds⟩)

/-- One turn of the loop in `remove`. -/
def removeEvent (id : SubscriptionID) (index : Index) (eventId : EventID) : Option Index :=
  (index.lookup eventId).map fun subsForEvid =>
    let subsForEvid := subsForEvid.erase id
    if subsForEvid = ∅ then index.erase eventId else index.insert eventId subsForEvid

/-- Removes a subscription. The loop runs over a snapshot of the keys. -/
def remove (keys : Iter EventID) (self : Subscriptions) (id : SubscriptionID) :
    Option Subscriptions :=
  if id ∉ self.subscriptionIds then
    some self
  else
    ((keys.order self.byEventId.keys).foldlM (removeEvent id) self.byEventId).map fun index =>
      ⟨index, self.subscriptionIds.erase id⟩

/-- Removes a set of subscriptions. -/
def removeAll (it : Iter SubscriptionID) (keys : SubscriptionID → Iter EventID)
    (self : Subscriptions) (ids : Finset SubscriptionID) : Option Subscriptions :=
  (it.order ids).foldlM (fun self id => self.remove (keys id) id) self

end Subscriptions

/-! ## The index -/

namespace Index

/-- The sender of a subscription under an event id. -/
def find (index : Index) (e : EventID) (id : SubscriptionID) : Option Notify :=
  (index.lookup e).bind (·.lookup id)

/-- No event id is kept without subscriptions to it. -/
def NoEmpty (index : Index) : Prop := ∀ e, index.lookup e ≠ some ∅

theorem find_insert (index : Index) (e e' : EventID) (m : HashMap SubscriptionID Notify)
    (id : SubscriptionID) :
    find (index.insert e m) e' id = if e' = e then m.lookup id else index.find e' id := by
  unfold find
  split
  · next h => subst h; simp
  · next h => rw [Finmap.lookup_insert_of_ne _ h]

theorem find_erase (index : Index) (e e' : EventID) (id : SubscriptionID) :
    find (index.erase e) e' id = if e' = e then none else index.find e' id := by
  unfold find
  split
  · next h => subst h; simp
  · next h => rw [Finmap.lookup_erase_ne h]

theorem NoEmpty.insert {index : Index} (h : index.NoEmpty) {e : EventID}
    {m : HashMap SubscriptionID Notify} (hm : m ≠ ∅) : NoEmpty (index.insert e m) := by
  intro e'
  by_cases he : e' = e
  · subst he; simpa using hm
  · rw [Finmap.lookup_insert_of_ne _ he]; exact h e'

theorem NoEmpty.erase {index : Index} (h : index.NoEmpty) (e : EventID) :
    NoEmpty (index.erase e) := by
  intro e'
  by_cases he : e' = e
  · subst he; simp
  · rw [Finmap.lookup_erase_ne he]; exact h e'

/-- An index without empty entries is determined by what it finds. -/
theorem NoEmpty.ext {index index' : Index} (h : index.NoEmpty) (h' : index'.NoEmpty)
    (hfind : ∀ e id, index.find e id = index'.find e id) : index = index' := by
  -- an entry missing on one side is empty on the other
  have absent : ∀ {i i' : Index} {e : EventID}, i'.NoEmpty →
      (∀ id, i.find e id = i'.find e id) → i.lookup e = none → i'.lookup e = none := by
    intro i i' e hi' hf hnone
    cases hlook : i'.lookup e with
    | none => rfl
    | some m =>
        refine absurd (Finmap.ext_lookup fun id => ?_) fun hm : m = ∅ => hi' e (hm ▸ hlook)
        have := hf id
        simp only [find, hnone, hlook, Option.bind_none, Option.bind_some] at this
        rw [← this, Finmap.lookup_empty]
  refine Finmap.ext_lookup fun e => ?_
  cases hl : index.lookup e with
  | none => exact (absent h' (hfind e) hl).symm
  | some m =>
      cases hl' : index'.lookup e with
      | none =>
          have := absent h (fun id => (hfind e id).symm) hl'
          rw [hl] at this
          cases this
      | some m' =>
          refine congrArg some (Finmap.ext_lookup fun id => ?_)
          have := hfind e id
          simpa only [find, hl, hl', Option.bind_some] using this

/-- A turn of `add`'s loop puts the sender under the event id. -/
theorem addEvent_spec (subs : Subscription) {index : Index} (h : index.NoEmpty)
    (e : EventID) :
    ∃ index' : Index, Subscriptions.addEvent subs index e = some index' ∧ index'.NoEmpty ∧
      ∀ e' id, index'.find e' id =
        if e' = e ∧ id = subs.id then some subs.notify else index.find e' id := by
  -- the entry that the loop finds, or has just put there
  obtain ⟨m, hm⟩ : ∃ m : HashMap SubscriptionID Notify,
      Subscriptions.addEvent subs index e = some (index.insert e (m.insert subs.id subs.notify))
        ∧ ∀ id, m.lookup id = index.find e id := by
    unfold Subscriptions.addEvent
    cases hl : index.lookup e with
    | none =>
        have he : e ∉ index := Finmap.lookup_eq_none.mp hl
        exact ⟨∅, by simp [he], by simp [find, hl]⟩
    | some m =>
        have he : e ∈ index := Finmap.mem_of_lookup_eq_some hl
        exact ⟨m, by simp [he, hl], by simp [find, hl]⟩
  refine ⟨_, hm.1, h.insert fun hempty => ?_, fun e' id => ?_⟩
  · have : subs.id ∈ m.insert subs.id subs.notify := Finmap.mem_insert.mpr (.inl rfl)
    rw [hempty] at this
    exact Finmap.notMem_empty this
  · rw [find_insert]
    by_cases he : e' = e
    · subst he
      by_cases hid : id = subs.id
      · subst hid; simp
      · simp [hid, Finmap.lookup_insert_of_ne _ hid, hm.2]
    · simp [he]

/-- A turn of `remove`'s loop takes the id from under the event id, and
leaves the other entries to the turns to come. -/
theorem removeEvent_spec (id : SubscriptionID) {index : Index} (h : index.NoEmpty)
    {e : EventID} (he : e ∈ index) :
    ∃ index' : Index, Subscriptions.removeEvent id index e = some index' ∧ index'.NoEmpty ∧
      (∀ e' ≠ e, index'.lookup e' = index.lookup e') ∧
      ∀ e' id', index'.find e' id' =
        if e' = e ∧ id' = id then none else index.find e' id' := by
  obtain ⟨m, hm⟩ := Finmap.mem_iff.mp he
  have hlook : ∀ id', (m.erase id).lookup id' = if id' = id then none else index.find e id' := by
    intro id'
    simp only [find, hm, Option.bind_some]
    split
    · next hid => subst hid; simp
    · next hid => rw [Finmap.lookup_erase_ne hid]
  by_cases hempty : m.erase id = ∅
  · refine ⟨index.erase e, ?_, h.erase e, fun e' he' => Finmap.lookup_erase_ne he',
      fun e' id' => ?_⟩
    · rw [Subscriptions.removeEvent, hm, Option.map_some, if_pos hempty]
    have := hlook id'
    rw [hempty, Finmap.lookup_empty] at this
    rw [find_erase]
    by_cases he' : e' = e
    · subst he'
      simp only [if_true, true_and]
      split
      · rfl
      · next hid => rwa [if_neg hid] at this
    · simp [he']
  · refine ⟨index.insert e (m.erase id), ?_, h.insert hempty,
      fun e' he' => Finmap.lookup_insert_of_ne _ he', fun e' id' => ?_⟩
    · rw [Subscriptions.removeEvent, hm, Option.map_some, if_neg hempty]
    rw [find_insert]
    by_cases he' : e' = e
    · subst he'
      simp [hlook]
    · simp [he']

/-- The loop of `add`. -/
theorem addEvents_spec (subs : Subscription) : ∀ (l : List EventID) {index : Index},
    index.NoEmpty →
    ∃ index' : Index, l.foldlM (Subscriptions.addEvent subs) index = some index' ∧
      index'.NoEmpty ∧ ∀ e id, index'.find e id =
        if e ∈ l ∧ id = subs.id then some subs.notify else index.find e id
  | [], index, h => ⟨index, rfl, h, by simp⟩
  | e :: l, index, h => by
      obtain ⟨index₁, hstep, h₁, hfind₁⟩ := addEvent_spec subs h e
      obtain ⟨index₂, hloop, h₂, hfind₂⟩ := addEvents_spec subs l h₁
      refine ⟨index₂, by rw [List.foldlM_cons, hstep]; exact hloop, h₂, fun e' id => ?_⟩
      simp only [hfind₂, hfind₁, List.mem_cons]
      by_cases he : e' = e <;> by_cases hl : e' ∈ l <;> by_cases hid : id = subs.id <;>
        simp [he, hl, hid]

/-- The loop of `remove`. Each turn finds its entry still there, because
the snapshot of the keys names it once. -/
theorem removeEvents_spec (id : SubscriptionID) : ∀ {l : List EventID} {index : Index},
    index.NoEmpty → l.Nodup → (∀ e ∈ l, e ∈ index) →
    ∃ index' : Index, l.foldlM (Subscriptions.removeEvent id) index = some index' ∧
      index'.NoEmpty ∧ ∀ e id', index'.find e id' =
        if e ∈ l ∧ id' = id then none else index.find e id'
  | [], index, h, _, _ => ⟨index, rfl, h, by simp⟩
  | e :: l, index, h, hnd, hmem => by
      obtain ⟨hel, hnd⟩ := List.nodup_cons.mp hnd
      obtain ⟨index₁, hstep, h₁, hkeep, hfind₁⟩ :=
        removeEvent_spec id h (hmem e (List.mem_cons_self ..))
      have hmem₁ : ∀ e' ∈ l, e' ∈ index₁ := by
        intro e' he'
        have hne : e' ≠ e := fun heq => hel (heq ▸ he')
        rw [← Finmap.lookup_isSome, hkeep e' hne, Finmap.lookup_isSome]
        exact hmem e' (List.mem_cons_of_mem _ he')
      obtain ⟨index₂, hloop, h₂, hfind₂⟩ := removeEvents_spec id h₁ hnd hmem₁
      refine ⟨index₂, by rw [List.foldlM_cons, hstep]; exact hloop, h₂, fun e' id' => ?_⟩
      simp only [hfind₂, hfind₁, List.mem_cons]
      by_cases he : e' = e <;> by_cases hl : e' ∈ l <;> by_cases hid : id' = id <;>
        simp [he, hl, hid]

end Index

/-! ## The table -/

/-- The live subscriptions: by id, their event ids and their sender. -/
abbrev Table := SubscriptionID → Option (Finset EventID × Notify)

namespace Table

def empty : Table := fun _ => none

/-- Adds a subscription, unless its id is live. -/
def add (table : Table) (subs : Subscription) : Table :=
  if (table subs.id).isSome then table
  else Function.update table subs.id (some (subs.eventIds, subs.notify))

def remove (table : Table) (id : SubscriptionID) : Table :=
  Function.update table id none

def removeAll (table : Table) (ids : Finset SubscriptionID) : Table :=
  fun id => if id ∈ ids then none else table id

end Table

/-- The two fields hold what the table says. -/
structure Represents (s : Subscriptions) (table : Table) : Prop where
  ids : ∀ id, id ∈ s.subscriptionIds ↔ (table id).isSome
  index : ∀ e id ch, s.byEventId.find e id = some ch ↔ ∃ E, table id = some (E, ch) ∧ e ∈ E
  noEmpty : s.byEventId.NoEmpty

namespace Represents

variable {s s' : Subscriptions} {table : Table}

/-- At most one pair of fields holds what a table says. -/
theorem unique (h : Represents s table) (h' : Represents s' table) : s = s' := by
  obtain ⟨index, ids⟩ := s
  obtain ⟨index', ids'⟩ := s'
  have hids : ids = ids' := Finset.ext fun id => (h.ids id).trans (h'.ids id).symm
  have hindex : index = index' := by
    refine h.noEmpty.ext h'.noEmpty fun e id => Option.ext fun ch => ?_
    exact (h.index e id ch).trans (h'.index e id ch).symm
  rw [hids, hindex]

theorem new : Represents Subscriptions.new Table.empty where
  ids id := by simp [Subscriptions.new, Table.empty]
  index e id ch := by simp [Subscriptions.new, Table.empty, Index.find]
  noEmpty e := by simp [Subscriptions.new]

/-- An id that is not live has no sender anywhere. -/
theorem find_eq_none (h : Represents s table) {id : SubscriptionID} (hid : table id = none)
    (e : EventID) : s.byEventId.find e id = none := by
  cases hf : s.byEventId.find e id with
  | none => rfl
  | some ch =>
      obtain ⟨E, hE, -⟩ := (h.index e id ch).mp hf
      rw [hid] at hE
      cases hE

theorem add_live (h : Represents s table) (keys : Iter EventID) {subs : Subscription}
    (hlive : (table subs.id).isSome) : s.add keys subs = some (.error .idAlreadyExists, s) := by
  rw [Subscriptions.add, if_pos ((h.ids _).mpr hlive)]

/-- Adding an id that is not live succeeds. -/
theorem add_fresh (h : Represents s table) (keys : Iter EventID) {subs : Subscription}
    (hfresh : table subs.id = none) :
    ∃ s', s.add keys subs = some (.ok (), s') ∧ Represents s' (table.add subs) := by
  have hid : subs.id ∉ s.subscriptionIds := by simp [h.ids, hfresh]
  obtain ⟨index, hloop, hne, hfind⟩ :=
    Index.addEvents_spec subs (keys.order subs.eventIds) h.noEmpty
  have htable : table.add subs =
      Function.update table subs.id (some (subs.eventIds, subs.notify)) := by
    simp [Table.add, hfresh]
  refine ⟨⟨index, insert subs.id s.subscriptionIds⟩, ?_, ?_, fun e id ch => ?_, hne⟩
  · rw [Subscriptions.add, if_neg hid, hloop, Option.map_some]
  · intro id
    rw [htable, Finset.mem_insert, Function.update_apply, h.ids]
    split <;> simp_all
  · simp only [htable, hfind, keys.mem_order, Function.update_apply]
    by_cases hids : id = subs.id
    · subst hids
      have := h.find_eq_none hfresh e
      by_cases he : e ∈ subs.eventIds <;> simp_all
    · simpa [hids] using h.index e id ch

/-- What `add` does to a table. -/
theorem add (h : Represents s table) (keys : Iter EventID) (subs : Subscription) :
    ∃ r s', s.add keys subs = some (r, s') ∧ Represents s' (table.add subs) ∧
      (r = .error .idAlreadyExists ↔ (table subs.id).isSome) ∧
      ((table subs.id).isSome → s' = s) := by
  cases hlive : table subs.id with
  | none =>
      obtain ⟨s', hadd, h'⟩ := h.add_fresh keys hlive
      exact ⟨_, s', hadd, h', by simp, by simp⟩
  | some entry =>
      have hsome : (table subs.id).isSome := by simp [hlive]
      refine ⟨_, s, h.add_live keys hsome, ?_, by simp, fun _ => rfl⟩
      rwa [Table.add, if_pos hsome]

theorem remove (h : Represents s table) (keys : Iter EventID) (id : SubscriptionID) :
    ∃ s', s.remove keys id = some s' ∧ Represents s' (table.remove id) := by
  by_cases hid : id ∈ s.subscriptionIds
  · obtain ⟨index, hloop, hne, hfind⟩ := Index.removeEvents_spec id h.noEmpty
      (keys.nodup s.byEventId.keys) (by simp [Finmap.mem_keys])
    refine ⟨⟨index, s.subscriptionIds.erase id⟩, ?_, fun id' => ?_, fun e id' ch => ?_, hne⟩
    · rw [Subscriptions.remove, if_neg (not_not.mpr hid), hloop, Option.map_some]
    · rw [Table.remove, Finset.mem_erase, Function.update_apply, h.ids]
      split <;> simp_all
    · simp only [hfind, keys.mem_order, Table.remove, Function.update_apply]
      by_cases hids : id' = id
      · -- an event id that is not a key has no sender to remove
        by_cases he : e ∈ s.byEventId.keys
        · simp [he, hids]
        · have hnone : s.byEventId.lookup e = none :=
            Finmap.lookup_eq_none.mpr fun hmem => he (Finmap.mem_keys.mpr hmem)
          simp [hids, Index.find, hnone]
      · simpa [hids] using h.index e id' ch
  · have hnone : table id = none := by simpa [h.ids] using hid
    refine ⟨s, by rw [Subscriptions.remove, if_pos hid], ?_⟩
    rwa [Table.remove, ← hnone, Function.update_eq_self]

theorem removeAll (h : Represents s table) (it : Iter SubscriptionID)
    (keys : SubscriptionID → Iter EventID) (ids : Finset SubscriptionID) :
    ∃ s', s.removeAll it keys ids = some s' ∧ Represents s' (table.removeAll ids) := by
  have loop : ∀ (l : List SubscriptionID) {s : Subscriptions} {table : Table},
      Represents s table →
      ∃ s', l.foldlM (fun self id => self.remove (keys id) id) s = some s' ∧
        Represents s' fun id => if id ∈ l then none else table id := by
    intro l
    induction l with
    | nil => exact fun h => ⟨_, rfl, by simpa using h⟩
    | cons id l ih =>
        intro s table h
        obtain ⟨s₁, hstep, h₁⟩ := h.remove (keys id) id
        obtain ⟨s₂, hloop, h₂⟩ := ih h₁
        refine ⟨s₂, by rw [List.foldlM_cons, hstep]; exact hloop, ?_⟩
        convert h₂ using 1
        funext id'
        by_cases hid : id' = id <;> simp [Table.remove, hid]
  obtain ⟨s', hloop, h'⟩ := loop (it.order ids) h
  refine ⟨s', hloop, ?_⟩
  simp only [Iter.mem_order] at h'
  exact h'

end Represents

/-! ## Sequences of operations -/

/-- An operation on the subscriptions, with the orders its loops take. -/
inductive Operation
  | add (keys : Iter EventID) (subs : Subscription)
  | remove (keys : Iter EventID) (id : SubscriptionID)
  | removeAll (it : Iter SubscriptionID) (keys : SubscriptionID → Iter EventID)
      (ids : Finset SubscriptionID)

def Subscriptions.apply (self : Subscriptions) : Operation → Option Subscriptions
  | .add keys subs => (self.add keys subs).map (·.2)
  | .remove keys id => self.remove keys id
  | .removeAll it keys ids => self.removeAll it keys ids

def Table.apply (table : Table) : Operation → Table
  | .add _ subs => table.add subs
  | .remove _ id => table.remove id
  | .removeAll _ _ ids => table.removeAll ids

/-- The fields after a sequence of operations. -/
def Subscriptions.after (ops : List Operation) : Option Subscriptions :=
  ops.foldlM Subscriptions.apply Subscriptions.new

/-- The table after a sequence of operations. -/
def Table.after (ops : List Operation) : Table :=
  ops.foldl Table.apply Table.empty

theorem Represents.apply {s : Subscriptions} {table : Table} (h : Represents s table)
    (op : Operation) : ∃ s', s.apply op = some s' ∧ Represents s' (table.apply op) := by
  cases op with
  | add keys subs =>
      obtain ⟨r, s', hadd, h', -⟩ := h.add keys subs
      exact ⟨s', by rw [Subscriptions.apply, hadd, Option.map_some], h'⟩
  | remove keys id => exact h.remove keys id
  | removeAll it keys ids => exact h.removeAll it keys ids

theorem Represents.after (ops : List Operation) :
    ∃ s, Subscriptions.after ops = some s ∧ Represents s (Table.after ops) := by
  have run : ∀ (ops : List Operation) {s : Subscriptions} {table : Table},
      Represents s table →
      ∃ s', ops.foldlM Subscriptions.apply s = some s' ∧
        Represents s' (ops.foldl Table.apply table) := by
    intro ops
    induction ops with
    | nil => exact fun h => ⟨_, rfl, h⟩
    | cons op ops ih =>
        intro s table h
        obtain ⟨s₁, hstep, h₁⟩ := h.apply op
        obtain ⟨s₂, hrun, h₂⟩ := ih h₁
        exact ⟨s₂, by rw [List.foldlM_cons, hstep]; exact hrun, h₂⟩
  exact run ops Represents.new

/-- **The table refinement.** After any sequence of operations, none of
which panics, the fields hold what the table says; the next `add` is
refused exactly for a live id and then changes nothing, and the orders in
which the next `removeAll` iterates do not show in its result. -/
theorem subscriptions_refine_table (ops : List Operation) :
    ∃ s, Subscriptions.after ops = some s ∧ Represents s (Table.after ops) ∧
      (∀ keys subs, ∃ r s', s.add keys subs = some (r, s') ∧
        (r = .error .idAlreadyExists ↔ (Table.after ops subs.id).isSome) ∧
        (r = .error .idAlreadyExists → s' = s)) ∧
      (∀ keys id, (s.remove keys id).isSome) ∧
      (∀ ids it it' keys keys', (s.removeAll it keys ids).isSome ∧
        s.removeAll it keys ids = s.removeAll it' keys' ids) := by
  obtain ⟨s, hrun, h⟩ := Represents.after ops
  refine ⟨s, hrun, h, fun keys subs => ?_, fun keys id => ?_, fun ids it it' keys keys' => ?_⟩
  · obtain ⟨r, s', hadd, -, hr, hsame⟩ := h.add keys subs
    exact ⟨r, s', hadd, hr, fun he => hsame (hr.mp he)⟩
  · obtain ⟨s', hremove, -⟩ := h.remove keys id
    rw [hremove]; rfl
  · obtain ⟨s₁, h₁, hr₁⟩ := h.removeAll it keys ids
    obtain ⟨s₂, h₂, hr₂⟩ := h.removeAll it' keys' ids
    rw [h₁, h₂, hr₁.unique hr₂]
    exact ⟨rfl, rfl⟩

end Reactor.Sn
