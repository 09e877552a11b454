import Reactor.AbProgress

/-!
# The test of the concurrent address book

`test_addr_book` with its nine nodes: its own thread starts them one after
the other, then plays the seed and counts the messages of the done channel
until it has taken nine, sends each node an `Exit` and returns. Its turns
and those of the nodes are interleaved.

When it has returned, what is sent to the seed is in vain: nobody reads
that queue any more.

**`test_addr_book`**: the test never panics and tells no node to end before
all nodes know all ten ids, whatever the interleaving and the random ids;
and from every state it can get to it can still end, and all its nodes
with it.
-/

namespace Reactor.Ab

open Reactor.System (Any)

/-! ## What is in front of an `Exit` -/

section

variable {ι : Type} [DecidableEq ι] {ids : ι → PeerId} {seedNode : PeerId} {s s' : Sys ι}
  {a : Act ι} {i : ι}

namespace Sys

/-- The node has ended, or will when it has read its queue. -/
def Told (s : Sys ι) (i : ι) : Prop :=
  (∃ book, s.thread i = .ended book) ∨ .exit ∈ s.queue (.node i)

omit [DecidableEq ι] in
theorem closed_node : s.closed (.node i) = true ↔ ∃ book, s.thread i = .ended book := by
  cases ht : s.thread i <;> simp [closed, ht]

/-- How many messages the node reads before its `Exit`. -/
def ahead (s : Sys ι) (i : ι) : Nat := (s.queue (.node i)).idxOf .exit

theorem queue_send_append (s : Sys ι) (x y : Sender ι) (m : PeerMsg ι) :
    ∃ ms, (s.send x m).queue y = s.queue y ++ ms := by
  unfold send
  split
  · exact ⟨[], by simp⟩
  · by_cases hy : y = x
    · subst hy
      exact ⟨[m], by simp⟩
    · exact ⟨[], by simp [Function.update_of_ne hy]⟩

theorem queue_tick_append (s : Sys ι) (i : ι) (book : AddrBook ι) (it : Iter PeerId)
    (y : Sender ι) : ∃ ms, (s.applyEffects i (book.tick it)).queue y = s.queue y ++ ms := by
  refine applyEffects_requests (P := fun s' => ∃ ms, s'.queue y = s.queue y ++ ms)
    ⟨[], by simp⟩ fun s' x hs' => ?_
  obtain ⟨ms, hms⟩ := hs'
  obtain ⟨ms', hms'⟩ := s'.queue_send_append x y (.request book.sender)
  exact ⟨ms ++ ms', by rw [hms', hms, List.append_assoc]⟩

end Sys

/-- A node reads its queue from the front, and what is sent to it comes
behind. -/
theorem Step.queue_append (hs : Step ids seedNode s a s') (i : ι) :
    (∃ ms, s'.queue (.node i) = s.queue (.node i) ++ ms ∧ ∀ rand, a ≠ .receive i rand) ∨
    (∃ m rest ms, m ≠ .exit ∧ s.queue (.node i) = m :: rest ∧
      s'.queue (.node i) = rest ++ ms) ∨
    ∃ book rest, s.queue (.node i) = .exit :: rest ∧ s'.thread i = .ended book := by
  have taken : ∀ {j rand m rest} {t : Sys ι}, a = .receive j rand → m ≠ .exit →
      s.queue (.node j) = m :: rest →
      (∃ ms, t.queue (.node i) = (s.setQueue (.node j) rest).queue (.node i) ++ ms) →
      (∃ ms, t.queue (.node i) = s.queue (.node i) ++ ms ∧ ∀ rand, a ≠ .receive i rand) ∨
      (∃ m rest ms, m ≠ .exit ∧ s.queue (.node i) = m :: rest ∧
        t.queue (.node i) = rest ++ ms) ∨
      ∃ book rest, s.queue (.node i) = .exit :: rest ∧ t.thread i = .ended book := by
    rintro j rand m rest t rfl hm hq ⟨ms, ht⟩
    by_cases hij : i = j
    · subst hij
      exact .inr (.inl ⟨m, rest, ms, hm, hq, by rw [ht]; simp [Sys.setQueue]⟩)
    · exact .inl ⟨ms, by rw [ht]; simp [Sys.setQueue, hij],
        fun rand h => hij (Act.receive.inj h).1.symm⟩
  cases hs with
  | start =>
      obtain ⟨ms, hms⟩ := Sys.queue_send_append _ _ (.node i) _
      exact .inl ⟨ms, hms, by simp⟩
  | tick =>
      obtain ⟨ms, hms⟩ := s.queue_tick_append _ _ _ (.node i)
      exact .inl ⟨ms, hms, by simp⟩
  | request _ hq | response _ hq | ping _ hq =>
      exact taken rfl (by simp) hq (Sys.queue_send_append ..)
  | requestUnknown _ hq | pong _ hq => exact taken rfl (by simp) hq ⟨[], (List.append_nil _).symm⟩
  | @exited j rand book rest ht hq =>
      by_cases hij : i = j
      · subst hij
        exact .inr (.inr ⟨book, rest, hq, by simp [Sys.setThread]⟩)
      · exact .inl ⟨[], by simp [Sys.setThread, Sys.setQueue, hij],
          fun rand h => hij (Act.receive.inj h).1.symm⟩
  | seedAnswers =>
      obtain ⟨ms, hms⟩ := Sys.queue_send_append _ _ (.node i) _
      exact .inl ⟨ms, hms.trans (by simp [Sys.setQueue]), by simp⟩
  | seedReads => exact .inl ⟨[], by simp [Sys.setQueue], by simp⟩
  | exit =>
      obtain ⟨ms, hms⟩ := Sys.queue_send_append _ _ (.node i) _
      exact .inl ⟨ms, hms, by simp⟩

theorem Step.ended (hs : Step ids seedNode s a s') {book : AddrBook ι}
    (h : s.thread i = .ended book) : s'.thread i = .ended book := by
  rcases hs.thread_cases i with ⟨ht, -⟩ | ⟨hold, -⟩ | ⟨_, _, hold, -⟩ | ⟨_, hold, -⟩
  · rw [ht, h]
  all_goals cases hold.symm.trans h

theorem Step.absent (hs : Step ids seedNode s a s') (h : s.thread i = .absent) :
    s'.thread i = .absent ∨ a = .start i := by
  cases hs with
  | @start j ht =>
      by_cases hij : i = j
      · exact .inr (by rw [hij])
      · exact .inl (by simpa [Sys.setThread, hij] using h)
  | @pong j _ _ _ _ ht | @exited j _ _ _ ht =>
      have hij : i ≠ j := by
        rintro rfl
        cases h.symm.trans ht
      exact .inl (by simpa [Sys.setThread, Sys.setQueue, hij] using h)
  | tick => exact .inl (by rwa [Sys.tick_thread])
  | request | response | ping | seedAnswers | exit => exact .inl (by rwa [Sys.send_thread])
  | requestUnknown | seedReads => exact .inl h

theorem Step.start_started (hs : Step ids seedNode s (.start i) s') : s'.Started i := by
  cases hs
  simp [Sys.Started, Sys.setThread]

theorem Step.done_le (hs : Step ids seedNode s a s') : s.done.length ≤ s'.done.length := by
  cases hs with
  | start | request | response | ping | seedAnswers =>
      rw [Sys.send_done]
      exact le_rfl
  | exit => rw [Sys.send_done]
  | tick => rw [Sys.tick_done]
  | pong => simp
  | requestUnknown | exited | seedReads => exact le_rfl

/-- Who has been told to end ends, and reads nothing twice before. -/
theorem Step.told (hs : Step ids seedNode s a s') (h : s.Told i) :
    s'.Told i ∧ ((∃ rand, a = .receive i rand) → (∃ book, s'.thread i = .ended book) ∨
      s'.ahead i < s.ahead i) := by
  rcases h with ⟨book, h⟩ | hexit
  · exact ⟨.inl ⟨book, hs.ended h⟩, fun _ => .inl ⟨book, hs.ended h⟩⟩
  rcases hs.queue_append i with ⟨ms, hq, hno⟩ | ⟨m, rest, ms, hm, hq, hq'⟩ | ⟨book, rest, -, ht⟩
  · refine ⟨.inr (hq ▸ List.mem_append_left _ hexit), fun ⟨rand, ha⟩ => absurd ha (hno rand)⟩
  · have hrest : .exit ∈ rest := by
      rw [hq] at hexit
      exact (List.mem_cons.mp hexit).resolve_left (Ne.symm hm)
    refine ⟨.inr (hq' ▸ List.mem_append_left _ hrest), fun _ => .inr ?_⟩
    have hne : (m == .exit) = false := beq_false_of_ne hm
    rw [Sys.ahead, Sys.ahead, hq, hq', List.idxOf_append, if_pos hrest, List.idxOf_cons, hne]
    exact Nat.lt_succ_self _
  · exact ⟨.inl ⟨book, ht⟩, fun _ => .inl ⟨book, ht⟩⟩

end

/-! ## The test -/

/-- Where the thread of the test is. -/
inductive Main
  /-- It has yet to start these nodes. -/
  | starting (nodes : List (Fin 9))
  | looping (doneCount : Nat)
  | returned
  | panicked
deriving DecidableEq

/-- The nodes it has yet to start. -/
def Main.unstarted : Main → List (Fin 9)
  | .starting nodes => nodes
  | _ => []

structure TestAddrBook where
  net : Sys (Fin 9)
  peers : HashMap PeerId (Sender (Fin 9))
  main : Main

namespace TestAddrBook

inductive Act
  /-- An iteration of `for i in 1..10`, or its end. -/
  | start
  | seedNodeReceiver (rand : RandomId)
  | doneReceiver (it : Iter PeerId)
  | tick (i : Fin 9) (it : Iter PeerId)
  | receive (i : Fin 9) (rand : RandomId)

def init : TestAddrBook := ⟨.init, ∅, .starting (List.finRange 9)⟩

def seedNode : PeerId := ⟨0⟩

/-- An `Exit` to each of the peers, in the order the map is iterated in. -/
def sendExits (s : TestAddrBook) (it : Iter PeerId) : Sys (Fin 9) :=
  ((it.order s.peers.keys).filterMap s.peers.lookup).foldl (fun net sender =>
    net.send sender .exit) s.net

def step (s : TestAddrBook) : Act → Option TestAddrBook
  | .start =>
      match s.main with
      | .starting (i :: nodes) =>
          (Ab.step testId seedNode s.net (.start i)).map fun net =>
            { net, peers := s.peers.insert (testId i) (.node i), main := .starting nodes }
      | .starting [] => some { s with main := .looping 0 }
      | _ => none
  | .seedNodeReceiver rand =>
      match s.main, s.net.queue .seed with
      | .looping _, .request responseSender :: rest =>
          match s.peers.lookup ⟨rand⟩ with
          | some sender =>
              some { s with
                net := (s.net.setQueue .seed rest).send responseSender (.response sender) }
          | none => some { s with main := .panicked } -- `unwrap`
      | .looping _, _ :: rest => some { s with net := s.net.setQueue .seed rest }
      | _, _ => none
  | .doneReceiver it =>
      match s.main with
      | .looping doneCount =>
          if doneCount < s.net.done.length then
            if doneCount + 1 = 9 then some { s with net := s.sendExits it, main := .returned }
            else some { s with main := .looping (doneCount + 1) }
          else none
      | _ => none
  | .tick i it => (Ab.step testId seedNode s.net (.tick i it)).map fun net => { s with net }
  | .receive i rand =>
      (Ab.step testId seedNode s.net (.receive i rand)).map fun net => { s with net }

end TestAddrBook

def testAddrBook : System TestAddrBook TestAddrBook.Act := ⟨.init, TestAddrBook.step⟩

namespace TestAddrBook

variable {s s' t : TestAddrBook} {a : Act}

/-- The nodes of the test: what it does to them is a step of the network. -/
abbrev nodes : System (Sys (Fin 9)) (Ab.Act (Fin 9)) := network testId seedNode

/-! ## What is always so -/

structure Sound (s : TestAddrBook) : Prop where
  reached : ∃ as, nodes.Run Any as s.net
  /-- Nobody but the test says `Exit`. -/
  unended : s.main ≠ .returned → ∃ as, nodes.Run NoExit as s.net
  peers : ∀ id sender, s.peers.lookup id = some sender → ∃ i, id = testId i ∧ sender = .node i
  nodup : s.main.unstarted.Nodup
  absent : ∀ i ∈ s.main.unstarted, s.net.thread i = .absent
  started : ∀ i, i ∉ s.main.unstarted →
    s.net.Started i ∧ s.peers.lookup (testId i) = some (.node i)
  looping : ∀ doneCount, s.main = .looping doneCount →
    doneCount < 9 ∧ doneCount ≤ s.net.done.length
  returned : s.main = .returned → 9 ≤ s.net.done.length ∧ ∀ i, s.net.Told i
  calm : s.main ≠ .panicked

theorem sound_init : init.Sound where
  reached := ⟨[], .nil⟩
  unended _ := ⟨[], .nil⟩
  peers id sender h := by simp [init] at h
  nodup := List.nodup_finRange 9
  absent _ _ := rfl
  started i h := absurd (List.mem_finRange i) h
  looping k h := by cases h
  returned h := by cases h
  calm h := by cases h

/-- A node makes a turn, or a message of the seed's is read. -/
theorem Sound.turn (h : s.Sound) {a : Ab.Act (Fin 9)} {net : Sys (Fin 9)}
    (hs : Ab.step testId seedNode s.net a = some net) (hstart : ∀ i, a ≠ .start i)
    (hexit : NoExit s.net a) : Sound { s with net } := by
  have hstep := step_sound hs
  refine ⟨?_, fun hmain => ?_, h.peers, h.nodup, fun i hi => ?_,
    fun i hi => ?_, fun k hmain => ?_, fun hmain => ?_, h.calm⟩
  · obtain ⟨as, has⟩ := h.reached
    exact ⟨_, has.snoc trivial hs⟩
  · obtain ⟨as, has⟩ := h.unended hmain
    exact ⟨_, has.snoc hexit hs⟩
  · exact (hstep.absent (h.absent i hi)).resolve_right (hstart i)
  · obtain ⟨hstarted, hpeer⟩ := h.started i hi
    exact ⟨hstep.started hstarted, hpeer⟩
  · obtain ⟨hlt, hle⟩ := h.looping k hmain
    exact ⟨hlt, hle.trans hstep.done_le⟩
  · obtain ⟨hle, htold⟩ := h.returned hmain
    exact ⟨hle.trans hstep.done_le, fun i => (hstep.told (htold i)).1⟩

/-- The test starts a node. -/
theorem Sound.start (h : s.Sound) {i : Fin 9} {nodes : List (Fin 9)}
    (hmain : s.main = .starting (i :: nodes)) {net : Sys (Fin 9)}
    (hs : Ab.step testId seedNode s.net (.start i) = some net) :
    Sound { net, peers := s.peers.insert (testId i) (.node i), main := .starting nodes } := by
  have hstep := step_sound hs
  have hnodup := h.nodup
  have habsent := h.absent
  have hstarted := h.started
  rw [hmain, Main.unstarted] at hnodup habsent hstarted
  obtain ⟨hi, hnodes⟩ := List.nodup_cons.mp hnodup
  exact {
    reached := by
      obtain ⟨as, has⟩ := h.reached
      exact ⟨_, has.snoc (a := Ab.Act.start i) trivial hs⟩
    unended := fun _ => by
      obtain ⟨as, has⟩ := h.unended (by simp [hmain])
      exact ⟨_, has.snoc (a := Ab.Act.start i) trivial hs⟩
    peers := fun id sender hl => by
      by_cases hid : id = testId i
      · subst hid
        exact ⟨i, rfl, (Option.some.inj ((Finmap.lookup_insert _).symm.trans hl)).symm⟩
      · exact h.peers id sender (by rwa [Finmap.lookup_insert_of_ne _ hid] at hl)
    nodup := hnodes
    absent := fun j hj => by
      have hold := habsent j (List.mem_cons_of_mem i hj)
      refine (hstep.absent hold).resolve_right fun heq => hi ?_
      rwa [Act.start.inj heq]
    started := fun j hj => by
      by_cases hji : j = i
      · subst hji
        exact ⟨hstep.start_started, Finmap.lookup_insert _⟩
      · obtain ⟨hold, hpeer⟩ := hstarted j (by simpa [hji, Main.unstarted] using hj)
        have hne : testId j ≠ testId i := fun heq => hji (testId_injective heq)
        exact ⟨hstep.started hold, by rwa [Finmap.lookup_insert_of_ne _ hne]⟩
    looping := fun k hk => by cases hk
    returned := fun hk => by cases hk
    calm := fun hk => by cases hk }

/-! ### The end of the test -/

/-- Sending an `Exit` to some nodes is what somebody may do to the network,
and they are told. -/
theorem exits_run (senders : List (Sender (Fin 9))) :
    ∀ {net : Sys (Fin 9)}, (∀ sender ∈ senders, ∃ i, sender = .node i) →
      let net' := senders.foldl (fun net sender => net.send sender .exit) net
      net'.done = net.done ∧ net'.thread = net.thread ∧
        (∀ as, nodes.Run Any as net → ∃ as, nodes.Run Any as net') ∧
        ∀ i, net.Told i ∨ .node i ∈ senders → net'.Told i := by
  induction senders with
  | nil => exact fun _ => ⟨rfl, rfl, fun as h => ⟨as, h⟩, fun i h => h.resolve_right (by simp)⟩
  | cons sender senders ih =>
      intro net hsenders
      obtain ⟨j, rfl⟩ := hsenders sender List.mem_cons_self
      have hstep : Step testId seedNode net (.exit j) (net.send (.node j) .exit) := .exit
      obtain ⟨hdone, hthread, hrun, htold⟩ := @ih (net.send (.node j) .exit) fun sender hmem =>
        hsenders sender (List.mem_cons_of_mem _ hmem)
      refine ⟨hdone.trans Sys.send_done, hthread.trans Sys.send_thread, fun as h => ?_,
        fun i hi => htold i ?_⟩
      · exact hrun _ (h.snoc (a := Ab.Act.exit j) trivial rfl)
      · rcases hi with hi | hi
        · exact .inl (hstep.told hi).1
        rcases List.mem_cons.mp hi with heq | hi
        · obtain rfl := Sender.node.inj heq
          refine .inl ?_
          cases hclosed : net.closed (.node i) with
          | false => exact .inr (Sys.mem_queue_send_self hclosed)
          | true =>
              obtain ⟨book, ht⟩ := Sys.closed_node.mp hclosed
              exact .inl ⟨book, by rwa [Sys.send_thread]⟩
        · exact .inr hi

/-- The test goes on counting. -/
theorem Sound.count (h : s.Sound) (hunstarted : s.main.unstarted = [])
    (hmain : s.main ≠ .returned) {doneCount : Nat} (hlt : doneCount < 9)
    (hle : doneCount ≤ s.net.done.length) : Sound { s with main := .looping doneCount } where
  reached := h.reached
  unended _ := h.unended hmain
  peers := h.peers
  nodup := List.nodup_nil
  absent i hi := by cases hi
  started i _ := h.started i (by simp [hunstarted])
  looping k hk := by
    obtain rfl := Main.looping.inj hk
    exact ⟨hlt, hle⟩
  returned hk := by cases hk
  calm hk := by cases hk

/-- The ninth message of the done channel. -/
theorem Sound.finish (h : s.Sound) (it : Iter PeerId) (hmain : s.main = .looping 8)
    (hdone : 8 < s.net.done.length) :
    Sound { s with net := s.sendExits it, main := .returned } := by
  have hstarted := h.started
  rw [hmain] at hstarted
  have hnodes : ∀ sender ∈ (it.order s.peers.keys).filterMap s.peers.lookup,
      ∃ i, sender = .node i := by
    intro sender hmem
    obtain ⟨id, -, hid⟩ := List.mem_filterMap.mp hmem
    obtain ⟨i, -, rfl⟩ := h.peers id sender hid
    exact ⟨i, rfl⟩
  obtain ⟨hsame, hthread, hrun, htold⟩ := exits_run _ hnodes
  have hthread : (s.sendExits it).thread = s.net.thread := hthread
  have hall : ∀ i, .node i ∈ (it.order s.peers.keys).filterMap s.peers.lookup := by
    intro i
    have hpeer := (hstarted i (by simp [Main.unstarted])).2
    refine List.mem_filterMap.mpr ⟨testId i, ?_, hpeer⟩
    exact (it.mem_order).mpr (Finmap.mem_keys.mpr (Finmap.mem_of_lookup_eq_some hpeer))
  exact {
    reached := by
      obtain ⟨as, has⟩ := h.reached
      exact hrun as has
    unended := fun hno => absurd rfl hno
    peers := h.peers
    nodup := List.nodup_nil
    absent := fun i hi => by cases hi
    started := fun i _ => by
      obtain ⟨hi, hpeer⟩ := hstarted i (by simp [Main.unstarted])
      exact ⟨by rwa [Sys.Started, hthread], hpeer⟩
    looping := fun k hk => by cases hk
    returned := fun _ => ⟨by rw [show (s.sendExits it).done = _ from hsame]; exact hdone,
      fun i => htold i (.inr (hall i))⟩
    calm := fun hk => by cases hk }

theorem testId_surjective (rand : RandomId) : ∃ i : Fin 9, testId i = ⟨rand.val⟩ := by
  have hmem : (⟨rand.val⟩ : PeerId) ∈ tenIds := mem_tenIds.mpr rand.property.2
  rw [tenIds_eq] at hmem
  rcases Finset.mem_insert.mp hmem with hzero | hmem
  · have hpos := rand.property.1
    rw [PeerId.mk.inj hzero] at hpos
    cases hpos
  · obtain ⟨i, -, hi⟩ := Finset.mem_image.mp hmem
    exact ⟨i, hi⟩

theorem sound_step (h : s.Sound) (hs : s.step a = some s') : s'.Sound := by
  cases a with
  | start =>
      simp only [step] at hs
      split at hs
      · next i rest hmain =>
          obtain ⟨net, hnet, rfl⟩ := Option.map_eq_some_iff.mp hs
          exact h.start hmain hnet
      · next hmain =>
          obtain rfl := Option.some.inj hs
          exact h.count (by rw [hmain, Main.unstarted]) (by simp [hmain]) (by omega) (Nat.zero_le _)
      · cases hs
  | seedNodeReceiver rand =>
      simp only [step] at hs
      split at hs
      · next k r rest hmain hqueue =>
          obtain ⟨i, hi⟩ := testId_surjective rand
          have hpeer : s.peers.lookup ⟨rand.val⟩ = some (.node i) :=
            hi ▸ (h.started i (by simp [hmain, Main.unstarted])).2
          rw [hpeer] at hs
          obtain rfl := Option.some.inj hs
          exact h.turn (a := .seed (some i)) (by simp [Ab.step, hqueue]) (by simp) trivial
      · next k m rest hno hmain hqueue =>
          obtain rfl := Option.some.inj hs
          refine h.turn (a := .seed none) ?_ (by simp) trivial
          cases m <;> simp [Ab.step, hqueue]
      · cases hs
  | doneReceiver it =>
      simp only [step] at hs
      split at hs
      · next k hmain =>
          split at hs
          · next hlt =>
              split at hs
              · next hnine =>
                  obtain rfl := Option.some.inj hs
                  obtain rfl : k = 8 := by omega
                  exact h.finish it hmain hlt
              · next hnine =>
                  obtain rfl := Option.some.inj hs
                  have hk := (h.looping k hmain).1
                  exact h.count (by simp [hmain, Main.unstarted]) (by simp [hmain]) (by omega) hlt
          · cases hs
      · cases hs
  | tick i it =>
      obtain ⟨net, hnet, rfl⟩ := Option.map_eq_some_iff.mp hs
      exact h.turn hnet (by simp) trivial
  | receive i rand =>
      obtain ⟨net, hnet, rfl⟩ := Option.map_eq_some_iff.mp hs
      exact h.turn hnet (by simp) trivial

theorem Sound.run (h : s.Sound) {as : List Act} (hrun : (testAddrBook.startAt s).Run Any as t) :
    t.Sound :=
  hrun.invariant Sound h fun _ _ _ h _ hs => sound_step h hs

theorem sound_run {as : List Act} (h : testAddrBook.Run Any as s) : s.Sound := sound_init.run h

/-! ### It can end -/

theorem run_after {as : List Act} (hs : s.step a = some s')
    (hrun : (testAddrBook.startAt s').Run Any as t) :
    (testAddrBook.startAt s).Run Any (a :: as) t :=
  System.run_cons.mpr ⟨trivial, s', hs, hrun⟩

theorem start_enabled (h : s.Sound) {i : Fin 9} {nodes : List (Fin 9)}
    (hmain : s.main = .starting (i :: nodes)) :
    ∃ net peers, s.step .start = some { net, peers, main := .starting nodes } := by
  have habsent := h.absent i (by simp [hmain, Main.unstarted])
  simp [step, hmain, Ab.step, habsent]

/-- The nodes can all be started. -/
theorem exists_looping (h : s.Sound) : ∀ {nodes}, s.main = .starting nodes →
    ∃ as t, (testAddrBook.startAt s).Run Any as t ∧ t.main = .looping 0 := by
  intro nodes
  induction nodes generalizing s with
  | nil =>
      intro hmain
      have hs : s.step .start = some { s with main := .looping 0 } := by simp [step, hmain]
      exact ⟨_, _, run_after hs .nil, rfl⟩
  | cons i nodes ih =>
      intro hmain
      obtain ⟨net, peers, hs⟩ := start_enabled h hmain
      obtain ⟨as, t, hrun, ht⟩ := ih (sound_step h hs) rfl
      exact ⟨_, t, run_after hs hrun, ht⟩

/-- The id of a node, drawn at random. -/
def drawn (i : Fin 9) : RandomId := ⟨(testId i).val, testId_inRange i⟩

/-- The test can answer for the seed as it is scheduled. -/
theorem seed_scheduled (h : s.Sound) {k : Nat} (hmain : s.main = .looping k) {j : Fin 9}
    {net : Sys (Fin 9)} (hstep : Ab.step testId seedNode s.net (.seed (some j)) = some net) :
    s.step (.seedNodeReceiver (drawn j)) = some { s with net } := by
  have hpeer : s.peers.lookup ⟨(drawn j).val⟩ = some (.node j) :=
    (h.started j (by simp [hmain, Main.unstarted])).2
  simp only [Ab.step] at hstep
  split at hstep
  · next r rest hqueue =>
      obtain rfl := Option.some.inj hstep
      simp [step, hmain, hqueue, hpeer]
  · next m rest hno hqueue =>
      obtain rfl := Option.some.inj hstep
      cases m <;> simp_all [step]
  · cases hstep

/-- What a scheduled network does the test and its nodes can do. -/
theorem exists_scheduled {k : Nat} {bs : List (Ab.Act (Fin 9))} : ∀ {s : TestAddrBook}
    {net : Sys (Fin 9)}, s.Sound → s.main = .looping k →
      (nodes.startAt s.net).Run Scheduled bs net →
        ∃ as, (testAddrBook.startAt s).Run Any as { s with net } := by
  induction bs with
  | nil =>
      intro s net h hmain hrun
      obtain rfl : s.net = net := (System.Run.nil (G := Scheduled)).unique hrun
      exact ⟨[], .nil⟩
  | cons b bs ih =>
      intro s net h hmain hrun
      obtain ⟨hb, net₁, hstep, hrest⟩ := System.run_cons.mp hrun
      have hstep : Ab.step testId seedNode s.net b = some net₁ := hstep
      obtain ⟨a, ha⟩ : ∃ a, s.step a = some { s with net := net₁ } := by
        cases b with
        | tick i it => exact ⟨.tick i it, by simp [step, hstep]⟩
        | receive i rand => exact ⟨.receive i rand, by simp [step, hstep]⟩
        | seed answer =>
            cases answer with
            | none => exact hb.elim
            | some j => exact ⟨_, seed_scheduled h hmain hstep⟩
        | start | exit => exact hb.elim
      obtain ⟨as, has⟩ := ih (sound_step h ha) hmain hrest
      exact ⟨a :: as, run_after ha has⟩

/-- The network can come to where all nodes have said that they are done. -/
theorem exists_nine {net : Sys (Fin 9)} {as : List (Ab.Act (Fin 9))}
    (h : nodes.Run NoExit as net) (hstarted : ∀ i, net.Started i) :
    ∃ bs net', (nodes.startAt net).Run Scheduled bs net' ∧ 9 ≤ net'.done.length := by
  have hun := unended_run testId_injective testId_inRange.ne_seed h
  obtain ⟨bs, net', hrun, hpairs⟩ := exists_known testId_injective testId_inRange.ne_seed 0
    (Finset.univ : Finset (Fin 9 × Fin 9)).toList hun hstarted
  obtain ⟨hun', hstarted', -, -⟩ :=
    scheduled_run testId_injective testId_inRange.ne_seed hun hstarted hrun
  have hall : nodes.Run Any (as ++ bs) net' :=
    System.run_append.mpr ⟨net, h.weaken fun _ _ _ => trivial, hrun.weaken fun _ _ _ => trivial⟩
  obtain ⟨hi, hc⟩ := counted_run testId_inRange hall
  have hknown : ∀ i, tenIds ⊆ (net'.known i).keys := by
    intro i id hid
    rw [tenIds_eq] at hid
    rcases Finset.mem_insert.mp hid with rfl | hid
    · exact Finmap.mem_keys.mpr (Finmap.mem_of_lookup_eq_some (hun'.rooted i (hstarted' i)))
    · obtain ⟨j, -, rfl⟩ := Finset.mem_image.mp hid
      exact Finmap.mem_keys.mpr (hpairs (i, j) (by simp))
  have hdone : ∀ i, i ∈ net'.done := fun i => hc.mem_done.mpr
    (le_antisymm (size_le testId_inRange hi i) (card_tenIds ▸ Finset.card_le_card (hknown i)))
  have hle := ((List.nodup_finRange 9).subperm fun i _ => hdone i).length_le
  exact ⟨bs, net', hrun, by simpa using hle⟩

/-- All messages of the done channel can be taken. -/
theorem exists_returned (h : s.Sound) {k : Nat} (hmain : s.main = .looping k)
    (hnine : 9 ≤ s.net.done.length) :
    ∃ as t, (testAddrBook.startAt s).Run Any as t ∧ t.main = .returned := by
  induction hn : 9 - k generalizing s k with
  | zero =>
      have hlt := (h.looping k hmain).1
      omega
  | succ n ih =>
      obtain ⟨hlt, -⟩ := h.looping k hmain
      by_cases hlast : k + 1 = 9
      · have hs : s.step (.doneReceiver (.sorted _)) =
            some { s with net := s.sendExits (.sorted _), main := .returned } := by
          simp [step, hmain, hlast, show k < s.net.done.length by omega]
        exact ⟨_, _, run_after hs .nil, rfl⟩
      · have hs : s.step (.doneReceiver (.sorted _)) =
            some { s with main := .looping (k + 1) } := by
          simp [step, hmain, hlast, show k < s.net.done.length by omega]
        obtain ⟨as, t, hrun, ht⟩ := ih (sound_step h hs) rfl hnine (by omega)
        exact ⟨_, t, run_after hs hrun, ht⟩

/-- The test can return. -/
theorem exists_end (h : s.Sound) :
    ∃ as t, (testAddrBook.startAt s).Run Any as t ∧ t.main = .returned := by
  have fromLooping : ∀ {s : TestAddrBook} {k : Nat}, s.Sound → s.main = .looping k →
      ∃ as t, (testAddrBook.startAt s).Run Any as t ∧ t.main = .returned := by
    intro s k h hmain
    obtain ⟨as, has⟩ := h.unended (by simp [hmain])
    obtain ⟨bs, net, hrun, hnine⟩ := exists_nine has fun i =>
      (h.started i (by simp [hmain, Main.unstarted])).1
    obtain ⟨as₁, has₁⟩ := exists_scheduled h hmain hrun
    obtain ⟨as₂, t, has₂, ht⟩ := exists_returned (h.run has₁) hmain hnine
    exact ⟨as₁ ++ as₂, t, System.run_append.mpr ⟨_, has₁, has₂⟩, ht⟩
  cases hmain : s.main with
  | starting rest =>
      obtain ⟨as₁, t₁, has₁, ht₁⟩ := exists_looping h hmain
      obtain ⟨as₂, t, has₂, ht⟩ := fromLooping (h.run has₁) ht₁
      exact ⟨as₁ ++ as₂, t, System.run_append.mpr ⟨_, has₁, has₂⟩, ht⟩
  | looping k => exact fromLooping h hmain
  | returned => exact ⟨[], s, .nil, hmain⟩
  | panicked => exact absurd hmain h.calm

/-- A node that has been told to end can. -/
theorem exists_ended (h : s.Sound) (hmain : s.main = .returned) (i : Fin 9) :
    ∃ as t, (testAddrBook.startAt s).Run Any as t ∧ t.main = .returned ∧
      (∃ book, t.net.thread i = .ended book) ∧
      ∀ j book, s.net.thread j = .ended book → t.net.thread j = .ended book := by
  induction hn : s.net.ahead i using Nat.strong_induction_on generalizing s with
  | _ n ih =>
      cases ht : s.net.thread i with
      | absent => exact absurd ht (h.started i (by simp [hmain, Main.unstarted])).1
      | ended book => exact ⟨[], s, .nil, hmain, ⟨book, ht⟩, fun _ _ => id⟩
      | running book =>
          have hexit : .exit ∈ s.net.queue (.node i) := by
            refine ((h.returned hmain).2 i).resolve_left ?_
            rintro ⟨book', hended⟩
            cases ht.symm.trans hended
          obtain ⟨net, hstep⟩ : ∃ net, Ab.step testId seedNode s.net
              (.receive i ⟨1, by decide⟩) = some net :=
            receive_enabled ht (List.ne_nil_of_mem hexit)
          have hs : s.step (.receive i ⟨1, by decide⟩) = some { s with net } := by
            simp [step, hstep]
          have hkeeps : ∀ j book, s.net.thread j = .ended book → net.thread j = .ended book :=
            fun j book hj => (step_sound hstep).ended hj
          rcases ((step_sound hstep).told (.inr hexit)).2 ⟨_, rfl⟩ with hended | hlt
          · exact ⟨_, _, run_after hs .nil, hmain, hended, hkeeps⟩
          · obtain ⟨as, t, hrun, hmain', hended, hkeeps'⟩ :=
              ih _ (hn ▸ hlt) (sound_step h hs) hmain rfl
            exact ⟨_, t, run_after hs hrun, hmain', hended,
              fun j book hj => hkeeps' j book (hkeeps j book hj)⟩

theorem exists_allEnded (is : List (Fin 9)) : ∀ {s : TestAddrBook}, s.Sound →
    s.main = .returned → ∃ as t, (testAddrBook.startAt s).Run Any as t ∧ t.main = .returned ∧
      (∀ i ∈ is, ∃ book, t.net.thread i = .ended book) ∧
      ∀ j book, s.net.thread j = .ended book → t.net.thread j = .ended book := by
  induction is with
  | nil => exact fun {s} _ hmain => ⟨[], s, .nil, hmain, by simp, fun _ _ => id⟩
  | cons i is ih =>
      intro s h hmain
      obtain ⟨as, t, hrun, hmain', ⟨book, hended⟩, hkeeps⟩ := exists_ended h hmain i
      obtain ⟨as', t', hrun', hmain'', hall, hkeeps'⟩ := ih (h.run hrun) hmain'
      refine ⟨as ++ as', t', System.run_append.mpr ⟨t, hrun, hrun'⟩, hmain'', fun j hj => ?_,
        fun j book hj => hkeeps' j book (hkeeps j book hj)⟩
      rcases List.mem_cons.mp hj with rfl | hj
      · exact ⟨book, hkeeps' _ book hended⟩
      · exact hall j hj

end TestAddrBook

open TestAddrBook (Sound)

/-- **The test.** In every run it does not panic; a node is told to end, or
ends, only when the test has returned, and then all nodes know all ten ids
and have said so once; and it can still return, with all its nodes ended.
When the test has returned is a matter of turns: it sends the `Exit`s in
the turn in which it returns. -/
theorem test_addr_book {as : List TestAddrBook.Act} {s : TestAddrBook}
    (h : testAddrBook.Run Any as s) :
    s.main ≠ .panicked ∧ (∀ i, s.net.Told i → s.main = .returned) ∧
      (s.main = .returned →
        ∀ i, (∀ id : PeerId, id.val < 10 → id ∈ s.net.known i) ∧ s.net.done.count i = 1) ∧
      ∃ bs t, (testAddrBook.startAt s).Run Any bs t ∧ t.main = .returned ∧
        ∀ i, ∃ book, t.net.thread i = .ended book ∧ book.knownPeers.keys = tenIds := by
  have hsound := TestAddrBook.sound_run h
  have hcomplete : ∀ {t : TestAddrBook}, t.Sound → t.main = .returned →
      ∀ i, (t.net.known i).keys = tenIds ∧ t.net.done.count i = 1 := by
    intro t ht hmain i
    obtain ⟨bs, hbs⟩ := ht.reached
    obtain ⟨hi, hc⟩ := counted_run testId_inRange hbs
    have hdone := mem_done_of_nine testId_injective testId_inRange hc.nodup (ht.returned hmain).1 i
    have hsize := hc.mem_done.mp hdone
    exact ⟨keys_of_size testId_inRange hi hsize, by rw [hc.count i, if_pos hsize]⟩
  refine ⟨hsound.calm, fun i hi => ?_, fun hmain i => ?_, ?_⟩
  · by_contra hmain
    obtain ⟨bs, hbs⟩ := hsound.unended hmain
    have hun := unended_run testId_injective testId_inRange.ne_seed hbs
    rcases hi with ⟨book, hended⟩ | hexit
    · exact hun.unended i book hended
    · exact hun.noExit _ hexit
  · obtain ⟨hkeys, hcount⟩ := hcomplete hsound hmain i
    exact ⟨fun id hid => Finmap.mem_keys.mp (hkeys ▸ mem_tenIds.mpr hid), hcount⟩
  · obtain ⟨as₁, t₁, has₁, ht₁⟩ := TestAddrBook.exists_end hsound
    obtain ⟨as₂, t, has₂, ht, hended, -⟩ :=
      TestAddrBook.exists_allEnded (List.finRange 9) (hsound.run has₁) ht₁
    have hsound₂ := (hsound.run has₁).run has₂
    refine ⟨as₁ ++ as₂, t, System.run_append.mpr ⟨_, has₁, has₂⟩, ht, fun i => ?_⟩
    obtain ⟨book, hbook⟩ := hended i (List.mem_finRange i)
    have hkeys := (hcomplete hsound₂ ht i).1
    rw [Sys.known, hbook] at hkeys
    exact ⟨book, hbook, hkeys⟩

/-- Two nodes have been started, and the first has been told of the
second. -/
theorem test_addr_book_begun : ∃ s, testAddrBook.Run Any [.start, .start, .tick 0 (.sorted _)] s ∧
    s.main = .starting ((List.finRange 9).drop 2) ∧
      ∃ bs t, (testAddrBook.startAt s).Run Any bs t ∧ t.main = .returned ∧
        ∀ i, ∃ book, t.net.thread i = .ended book ∧ book.knownPeers.keys = tenIds := by
  have hexec : (testAddrBook.exec Any .init [.start, .start, .tick 0 (.sorted _)]).map
      TestAddrBook.main = some (.starting ((List.finRange 9).drop 2)) := by decide
  obtain ⟨s, hs, hmain⟩ := Option.map_eq_some_iff.mp hexec
  have hrun := System.run_iff.mpr hs
  exact ⟨s, hrun, hmain, (test_addr_book hrun).2.2.2⟩

end Reactor.Ab
