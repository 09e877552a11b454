import Reactor.Transition
import Reactor.AbNode

/-!
# The concurrent address book as a transition system

The nodes of `AbNode` with their channels, and a seed. One step is the
start of a node, one turn of a node, one message read by the seed, or an
`Exit` sent to a node by somebody. Who moves, the random ids, the order a
map is iterated in and what the seed answers are in the label.

Channels are unbounded lists, oldest first. A send to a node whose thread
has ended is in vain. `done` is the done channel with the node behind each
of its messages; nothing reads who that is.

`step` is the executable definition; `Step` lists what a step can do, one
constructor per branch of the source. Proofs look at `Step`.
-/

namespace Reactor.Ab

/-! ## State -/

/-- Where the thread of a node is. An ended one is kept with what its node
knew. -/
inductive Thread (ι : Type)
  | absent
  | running (book : AddrBook ι)
  | ended (book : AddrBook ι)

/-- What a node knows: nothing before it is started. -/
def Thread.known {ι : Type} : Thread ι → HashMap PeerId (Sender ι)
  | .absent => ∅
  | .running book => book.knownPeers
  | .ended book => book.knownPeers

structure Sys (ι : Type) where
  thread : ι → Thread ι
  queue : Sender ι → List (PeerMsg ι)
  done : List ι

namespace Sys

variable {ι : Type}

def init : Sys ι := ⟨fun _ => .absent, fun _ => [], []⟩

def known (s : Sys ι) (i : ι) : HashMap PeerId (Sender ι) := (s.thread i).known

def Started (s : Sys ι) (i : ι) : Prop := s.thread i ≠ .absent

/-- The receiver of a channel is gone. -/
def closed (s : Sys ι) : Sender ι → Bool
  | .seed => false
  | .node i =>
      match s.thread i with
      | .ended _ => true
      | _ => false

variable [DecidableEq ι]

def send (s : Sys ι) (sender : Sender ι) (msg : PeerMsg ι) : Sys ι :=
  if s.closed sender then s
  else { s with queue := Function.update s.queue sender (s.queue sender ++ [msg]) }

def setThread (s : Sys ι) (i : ι) (t : Thread ι) : Sys ι :=
  { s with thread := Function.update s.thread i t }

def setQueue (s : Sys ι) (sender : Sender ι) (q : List (PeerMsg ι)) : Sys ι :=
  { s with queue := Function.update s.queue sender q }

def applyEffect (i : ι) (s : Sys ι) : Effect ι → Sys ι
  | .send sender msg => s.send sender msg
  | .done => { s with done := s.done ++ [i] }

def applyEffects (i : ι) (s : Sys ι) (effects : List (Effect ι)) : Sys ι :=
  effects.foldl (applyEffect i) s

end Sys

/-! ## Steps -/

inductive Act (ι : Type)
  | start (i : ι)
  | tick (i : ι) (it : Iter PeerId)
  | receive (i : ι) (rand : RandomId)
  /-- The seed reads a message; a request it may answer with the sender of
  a node. -/
  | seed (answer : Option ι)
  /-- Somebody sends `Exit` to a node. -/
  | exit (i : ι)

variable {ι : Type} [DecidableEq ι]

def step (ids : ι → PeerId) (seedNode : PeerId) (s : Sys ι) : Act ι → Option (Sys ι)
  | .start i =>
      match s.thread i with
      | .absent =>
          let (book, effects) := AddrBook.start (ids i) (.node i) (seedNode, .seed)
          some ((s.setThread i (.running book)).applyEffects i effects)
      | _ => none
  | .tick i it =>
      match s.thread i with
      | .running book => some (s.applyEffects i (book.tick it))
      | _ => none
  | .receive i rand =>
      match s.thread i, s.queue (.node i) with
      | .running book, msg :: rest =>
          match book.receive rand msg with
          | .next book' effects =>
              some (((s.setQueue (.node i) rest).setThread i (.running book')).applyEffects i
                effects)
          | .exit => some ((s.setQueue (.node i) []).setThread i (.ended book))
      | _, _ => none
  | .seed answer =>
      match s.queue .seed with
      | .request responseSender :: rest =>
          match answer with
          | some j => some ((s.setQueue .seed rest).send responseSender (.response (.node j)))
          | none => some (s.setQueue .seed rest)
      | _ :: rest => some (s.setQueue .seed rest)
      | [] => none
  | .exit i => some (s.send (.node i) .exit)

/-- The nodes with these ids and a seed, before any of them is started. -/
def network (ids : ι → PeerId) (seedNode : PeerId) : System (Sys ι) (Act ι) :=
  ⟨.init, step ids seedNode⟩

/-- The ids `test_addr_book` gives to its nodes: from 1 on. -/
def testId {n : Nat} (i : Fin n) : PeerId := ⟨UInt32.ofNat (i + 1)⟩

/-! ## What a send changes -/

namespace Sys

variable {s : Sys ι} {i : ι} {x y : Sender ι} {m msg : PeerMsg ι}

@[simp] theorem send_thread : (s.send x msg).thread = s.thread := by
  unfold send
  split <;> rfl

@[simp] theorem send_done : (s.send x msg).done = s.done := by
  unfold send
  split <;> rfl

theorem queue_send_subset : s.queue y ⊆ (s.send x msg).queue y := by
  intro m hm
  unfold send
  split
  · exact hm
  · by_cases hy : y = x
    · subst hy
      simpa using .inl hm
    · simpa [Function.update_of_ne hy] using hm

theorem mem_queue_send (h : m ∈ (s.send x msg).queue y) :
    m ∈ s.queue y ∨ m = msg ∧ y = x := by
  unfold send at h
  split at h
  · exact .inl h
  · by_cases hy : y = x
    · subst hy
      simpa using h
    · simpa [Function.update_of_ne hy, hy] using h

theorem mem_queue_send_self (h : s.closed x = false) : msg ∈ (s.send x msg).queue x := by
  simp [send, h]

theorem mem_queue_setQueue {q : List (PeerMsg ι)} (hq : q ⊆ s.queue x)
    (h : m ∈ (s.setQueue x q).queue y) : m ∈ s.queue y := by
  by_cases hy : y = x
  · subst hy
    exact hq (by simpa [setQueue] using h)
  · simpa [setQueue, Function.update_of_ne hy] using h

theorem setThread_self {t : Thread ι} (h : s.thread i = t) : s.setThread i t = s := by
  subst h
  simp [setThread]

/-- What survives every request of a node survives all of them. -/
theorem applyEffects_requests {P : Sys ι → Prop} {book : AddrBook ι} {peerIds : List PeerId}
    (hs : P s) (hsend : ∀ s x, P s → P (s.send x (.request book.sender))) :
    P (s.applyEffects i (book.requests peerIds)) := by
  induction peerIds generalizing s with
  | nil => exact hs
  | cons peerId rest ih =>
      unfold AddrBook.requests at ih ⊢
      cases hpeer : book.knownPeers.lookup peerId with
      | none => simpa [List.filterMap_cons, hpeer] using ih hs
      | some x =>
          simpa [List.filterMap_cons, hpeer, applyEffects, applyEffect] using ih (hsend s x hs)

variable {book : AddrBook ι} {peerIds : List PeerId} {it : Iter PeerId}

theorem queue_requests_subset : s.queue y ⊆ (s.applyEffects i (book.requests peerIds)).queue y :=
  applyEffects_requests (P := fun s' => s.queue y ⊆ s'.queue y) (List.Subset.refl _)
    fun _ _ h => List.Subset.trans h queue_send_subset

@[simp] theorem tick_thread : (s.applyEffects i (book.tick it)).thread = s.thread :=
  applyEffects_requests (P := fun s' => s'.thread = s.thread) rfl
    fun _ _ h => send_thread.trans h

@[simp] theorem tick_done : (s.applyEffects i (book.tick it)).done = s.done :=
  applyEffects_requests (P := fun s' => s'.done = s.done) rfl fun _ _ h => send_done.trans h

theorem queue_tick_subset : s.queue y ⊆ (s.applyEffects i (book.tick it)).queue y :=
  queue_requests_subset

theorem mem_queue_tick (h : m ∈ (s.applyEffects i (book.tick it)).queue y) :
    m ∈ s.queue y ∨ m = .request book.sender := by
  refine applyEffects_requests
    (P := fun s' => m ∈ s'.queue y → m ∈ s.queue y ∨ m = .request book.sender)
    .inl (fun s' x ih hm => ?_) h
  rcases mem_queue_send hm with hm | ⟨hm, -⟩
  · exact ih hm
  · exact .inr hm

/-- A node that knows the seed asks it. -/
theorem mem_queue_tick_seed {peerId : PeerId} (hseed : book.knownPeers.lookup peerId = some .seed) :
    .request book.sender ∈ (s.applyEffects i (book.tick it)).queue .seed := by
  have hmem : peerId ∈ it.order book.knownPeers.keys := by
    simpa using Finmap.mem_keys.mpr (Finmap.mem_of_lookup_eq_some hseed)
  unfold AddrBook.tick
  generalize it.order book.knownPeers.keys = order at hmem
  induction order generalizing s with
  | nil => cases hmem
  | cons p rest ih =>
      unfold AddrBook.requests at ih ⊢
      rw [List.filterMap_cons]
      rcases List.mem_cons.mp hmem with rfl | hrest
      · rw [hseed]
        exact queue_requests_subset (mem_queue_send_self rfl)
      · cases hp : book.knownPeers.lookup p with
        | none => exact ih hrest
        | some y => exact ih hrest

theorem applyEffects_done {done : Bool} :
    s.applyEffects i (if done then [.done] else []) =
      { s with done := s.done ++ if done then [i] else [] } := by
  cases done <;> simp [applyEffects, applyEffect]

end Sys

/-! ## What a step can do -/

section

variable (ids : ι → PeerId) (seedNode : PeerId)

inductive Step : Sys ι → Act ι → Sys ι → Prop
  | start {s : Sys ι} {i : ι} (ht : s.thread i = .absent) :
      Step s (.start i) ((s.setThread i
        (.running (AddrBook.start (ids i) (.node i) (seedNode, .seed)).1)).send .seed
          (.request (.node i)))
  | tick {s : Sys ι} {i : ι} {it : Iter PeerId} {book : AddrBook ι}
      (ht : s.thread i = .running book) :
      Step s (.tick i it) (s.applyEffects i (book.tick it))
  | request {s : Sys ι} {i : ι} {rand : RandomId} {book : AddrBook ι} {r sender : Sender ι}
      {rest : List (PeerMsg ι)} (ht : s.thread i = .running book)
      (hq : s.queue (.node i) = .request r :: rest)
      (hknown : book.knownPeers.lookup ⟨rand⟩ = some sender) :
      Step s (.receive i rand) ((s.setQueue (.node i) rest).send r (.response sender))
  | requestUnknown {s : Sys ι} {i : ι} {rand : RandomId} {book : AddrBook ι} {r : Sender ι}
      {rest : List (PeerMsg ι)} (ht : s.thread i = .running book)
      (hq : s.queue (.node i) = .request r :: rest)
      (hknown : book.knownPeers.lookup ⟨rand⟩ = none) :
      Step s (.receive i rand) (s.setQueue (.node i) rest)
  | response {s : Sys ι} {i : ι} {rand : RandomId} {book : AddrBook ι} {sender : Sender ι}
      {rest : List (PeerMsg ι)} (ht : s.thread i = .running book)
      (hq : s.queue (.node i) = .response sender :: rest) :
      Step s (.receive i rand) ((s.setQueue (.node i) rest).send sender (.ping book.sender))
  | ping {s : Sys ι} {i : ι} {rand : RandomId} {book : AddrBook ι} {sender : Sender ι}
      {rest : List (PeerMsg ι)} (ht : s.thread i = .running book)
      (hq : s.queue (.node i) = .ping sender :: rest) :
      Step s (.receive i rand) ((s.setQueue (.node i) rest).send sender
        (.pong ⟨book.peerId, book.sender⟩))
  | pong {s : Sys ι} {i : ι} {rand : RandomId} {book : AddrBook ι} {info : PeerInfo ι}
      {rest : List (PeerMsg ι)} (ht : s.thread i = .running book)
      (hq : s.queue (.node i) = .pong info :: rest) :
      Step s (.receive i rand)
        { (s.setQueue (.node i) rest).setThread i (.running (book.learn info)) with
          done := s.done ++ if book.completes info then [i] else [] }
  | exited {s : Sys ι} {i : ι} {rand : RandomId} {book : AddrBook ι}
      {rest : List (PeerMsg ι)} (ht : s.thread i = .running book)
      (hq : s.queue (.node i) = .exit :: rest) :
      Step s (.receive i rand) ((s.setQueue (.node i) []).setThread i (.ended book))
  | seedAnswers {s : Sys ι} {j : ι} {r : Sender ι} {rest : List (PeerMsg ι)}
      (hq : s.queue .seed = .request r :: rest) :
      Step s (.seed (some j)) ((s.setQueue .seed rest).send r (.response (.node j)))
  | seedReads {s : Sys ι} {answer : Option ι} {m : PeerMsg ι} {rest : List (PeerMsg ι)}
      (hq : s.queue .seed = m :: rest) (hm : (∀ r, m ≠ .request r) ∨ answer = none) :
      Step s (.seed answer) (s.setQueue .seed rest)
  | exit {s : Sys ι} {i : ι} : Step s (.exit i) (s.send (.node i) .exit)

end

variable {ids : ι → PeerId} {seedNode : PeerId} {s s' : Sys ι} {a : Act ι}

theorem step_sound (h : step ids seedNode s a = some s') : Step ids seedNode s a s' := by
  cases a with
  | start i =>
      simp only [step] at h
      split at h
      case h_2 => cases h
      next ht =>
        obtain rfl := Option.some.inj h
        exact .start ht
  | tick i it =>
      simp only [step] at h
      split at h
      case h_2 => cases h
      next ht =>
        obtain rfl := Option.some.inj h
        exact .tick ht
  | receive i rand =>
      simp only [step] at h
      split at h
      case h_2 => cases h
      next book msg rest ht hq =>
        have same : (s.setQueue (.node i) rest).setThread i (.running book) =
            s.setQueue (.node i) rest := Sys.setThread_self ht
        cases msg with
        | request r =>
            cases hknown : book.knownPeers.lookup ⟨rand⟩ with
            | none =>
                simp only [AddrBook.receive, hknown, same, Option.some.injEq] at h
                exact h ▸ .requestUnknown ht hq hknown
            | some sender =>
                simp only [AddrBook.receive, hknown, same, Option.some.injEq] at h
                exact h ▸ .request ht hq hknown
        | response sender =>
            simp only [AddrBook.receive, same, Option.some.injEq] at h
            exact h ▸ .response ht hq
        | ping sender =>
            simp only [AddrBook.receive, same, Option.some.injEq] at h
            exact h ▸ .ping ht hq
        | pong info =>
            simp only [AddrBook.receive_pong, Option.some.injEq] at h
            rw [Sys.applyEffects_done] at h
            exact h ▸ .pong ht hq
        | exit =>
            obtain rfl := Option.some.inj h
            exact .exited ht hq
  | seed answer =>
      simp only [step] at h
      split at h
      next r rest hq =>
        cases answer with
        | none =>
            obtain rfl := Option.some.inj h
            exact .seedReads hq (.inr rfl)
        | some j =>
            obtain rfl := Option.some.inj h
            exact .seedAnswers hq
      next m rest hno hq =>
        obtain rfl := Option.some.inj h
        exact .seedReads hq (.inl fun r hr => hno r hr)
      next => cases h
  | exit i =>
      obtain rfl := Option.some.inj h
      exact .exit

/-- The life of a node's thread, and how often the node says in a step that
it is done. -/
theorem Step.thread_cases (hs : Step ids seedNode s a s') (j : ι) :
    (s'.thread j = s.thread j ∧ s'.done.count j = s.done.count j) ∨
      (s.thread j = .absent ∧
        s'.thread j = .running (AddrBook.start (ids j) (.node j) (seedNode, .seed)).1 ∧
        s'.done.count j = s.done.count j) ∨
      (∃ book info, s.thread j = .running book ∧ .pong info ∈ s.queue (.node j) ∧
        s'.thread j = .running (book.learn info) ∧
        s'.done.count j = s.done.count j + if book.completes info then 1 else 0) ∨
      ∃ book, s.thread j = .running book ∧ .exit ∈ s.queue (.node j) ∧
        s'.thread j = .ended book ∧ s'.done.count j = s.done.count j := by
  cases hs with
  | @start i ht =>
      rw [Sys.send_done, Sys.send_thread]
      by_cases hj : j = i
      · subst hj
        exact .inr (.inl ⟨ht, by simp [Sys.setThread], rfl⟩)
      · exact .inl ⟨by simp [Sys.setThread, Function.update_of_ne hj], rfl⟩
  | @pong i _ book info rest ht hq =>
      by_cases hj : j = i
      · subst hj
        refine .inr (.inr (.inl ⟨book, info, ht, by simp [hq], by simp [Sys.setThread], ?_⟩))
        cases book.completes info <;> simp
      · refine .inl ⟨by simp [Sys.setThread, Sys.setQueue, Function.update_of_ne hj], ?_⟩
        cases book.completes info <;> simp [Ne.symm hj]
  | @exited i _ book rest ht hq =>
      by_cases hj : j = i
      · subst hj
        exact .inr (.inr (.inr ⟨book, ht, by simp [hq], by simp [Sys.setThread], rfl⟩))
      · exact .inl ⟨by simp [Sys.setThread, Sys.setQueue, Function.update_of_ne hj], rfl⟩
  | tick => exact .inl ⟨by rw [Sys.tick_thread], by rw [Sys.tick_done]⟩
  | request | response | ping | seedAnswers | exit =>
      rw [Sys.send_done, Sys.send_thread]
      exact .inl ⟨rfl, rfl⟩
  | requestUnknown | seedReads => exact .inl ⟨rfl, rfl⟩

/-- A node knows the seed from the start, and learns from pongs. -/
theorem Step.known_cases (hs : Step ids seedNode s a s') (i : ι) :
    s'.known i = s.known i ∨
      (s.known i = ∅ ∧ s'.known i = Finmap.singleton seedNode .seed) ∨
      ∃ info, .pong info ∈ s.queue (.node i) ∧
        s'.known i = (s.known i).insert info.id info.sender := by
  unfold Sys.known
  rcases hs.thread_cases i with ⟨ht, -⟩ | ⟨hold, ht, -⟩ | ⟨book, info, hold, hpong, ht, -⟩ |
    ⟨book, hold, -, ht, -⟩
  · exact .inl (congrArg Thread.known ht)
  · exact .inr (.inl ⟨by rw [hold, Thread.known], by rw [ht]; rfl⟩)
  · exact .inr (.inr ⟨info, hpong, by rw [hold, ht]; rfl⟩)
  · exact .inl (by rw [hold, ht]; rfl)

/-- Taking the head of a queue, then sending: what is in a queue was there,
or is what was sent. -/
theorem mem_queue_take {x y z : Sender ι} {m m' msg : PeerMsg ι} {rest : List (PeerMsg ι)}
    (hq : s.queue x = m :: rest) (h : m' ∈ ((s.setQueue x rest).send y msg).queue z) :
    m' ∈ s.queue z ∨ m' = msg ∧ z = y := by
  rcases Sys.mem_queue_send h with h | h
  · exact .inl (Sys.mem_queue_setQueue (by simp [hq]) h)
  · exact .inr h

/-- A pong is made by the node it names. -/
theorem Step.pong_cases (hs : Step ids seedNode s a s') {x : Sender ι} {info : PeerInfo ι}
    (h : .pong info ∈ s'.queue x) :
    .pong info ∈ s.queue x ∨
      ∃ i book, s.thread i = .running book ∧ info = ⟨book.peerId, book.sender⟩ := by
  cases hs with
  | start =>
      rcases Sys.mem_queue_send h with h | ⟨h, -⟩
      · exact .inl h
      · cases h
  | tick =>
      rcases Sys.mem_queue_tick h with h | h
      · exact .inl h
      · cases h
  | request _ hq | response _ hq | seedAnswers hq =>
      rcases mem_queue_take hq h with h | ⟨h, -⟩
      · exact .inl h
      · cases h
  | @ping i _ book _ _ ht hq =>
      rcases mem_queue_take hq h with h | ⟨h, -⟩
      · exact .inl h
      · exact .inr ⟨i, book, ht, PeerMsg.pong.inj h⟩
  | requestUnknown _ hq | pong _ hq | seedReads hq =>
      exact .inl (Sys.mem_queue_setQueue (by simp [hq]) h)
  | exited => exact .inl (Sys.mem_queue_setQueue (by simp) h)
  | exit =>
      rcases Sys.mem_queue_send h with h | ⟨h, -⟩
      · exact .inl h
      · cases h

/-- Nodes do not send `Exit` to each other. -/
theorem Step.exit_cases (hs : Step ids seedNode s a s') {x : Sender ι}
    (h : .exit ∈ s'.queue x) : .exit ∈ s.queue x ∨ ∃ i, a = .exit i := by
  cases hs with
  | start =>
      rcases Sys.mem_queue_send h with h | ⟨h, -⟩
      · exact .inl h
      · cases h
  | tick =>
      rcases Sys.mem_queue_tick h with h | h
      · exact .inl h
      · cases h
  | request _ hq | response _ hq | ping _ hq | seedAnswers hq =>
      rcases mem_queue_take hq h with h | ⟨h, -⟩
      · exact .inl h
      · cases h
  | requestUnknown _ hq | pong _ hq | seedReads hq =>
      exact .inl (Sys.mem_queue_setQueue (by simp [hq]) h)
  | exited => exact .inl (Sys.mem_queue_setQueue (by simp) h)
  | exit => exact .inr ⟨_, rfl⟩

/-- What is in the queue of a node stays there until the node reads it, or
reads an `Exit`. -/
theorem Step.queue_cases (hs : Step ids seedNode s a s') {i : ι} {m : PeerMsg ι}
    (hexit : .exit ∉ s.queue (.node i)) (hm : m ∈ s.queue (.node i)) :
    m ∈ s'.queue (.node i) ∨
      ∃ rand rest, a = .receive i rand ∧ s.queue (.node i) = m :: rest := by
  have take : ∀ {j rand m' rest}, a = .receive j rand → s.queue (.node j) = m' :: rest →
      m ∈ (s.setQueue (.node j) rest).queue (.node i) ∨
        ∃ rand rest, a = .receive i rand ∧ s.queue (.node i) = m :: rest := by
    intro j rand m' rest ha hq
    by_cases hij : i = j
    · subst hij
      rcases List.mem_cons.mp (hq ▸ hm) with rfl | hrest
      · exact .inr ⟨rand, rest, ha, hq⟩
      · exact .inl (by simpa [Sys.setQueue] using hrest)
    · exact .inl (by simpa [Sys.setQueue, hij] using hm)
  cases hs with
  | start | exit => exact .inl (Sys.queue_send_subset hm)
  | tick => exact .inl (Sys.queue_tick_subset hm)
  | request _ hq | response _ hq | ping _ hq =>
      exact (take rfl hq).imp_left fun h => Sys.queue_send_subset h
  | requestUnknown _ hq | pong _ hq => exact take rfl hq
  | @exited j _ _ _ _ hq =>
      by_cases hij : i = j
      · subst hij
        exact absurd (by simp [hq]) hexit
      · exact .inl (by simpa [Sys.setThread, Sys.setQueue, hij] using hm)
  | seedAnswers => exact .inl (Sys.queue_send_subset (by simpa [Sys.setQueue] using hm))
  | seedReads => exact .inl (by simpa [Sys.setQueue] using hm)

/-! ## What can be done -/

theorem receive_enabled {i : ι} {rand : RandomId} {book : AddrBook ι}
    (ht : s.thread i = .running book) (hq : s.queue (.node i) ≠ []) :
    ∃ s', step ids seedNode s (.receive i rand) = some s' := by
  obtain ⟨msg, rest, hq⟩ := List.exists_cons_of_ne_nil hq
  simp only [step, ht, hq]
  split <;> exact ⟨_, rfl⟩

theorem seed_enabled {answer : Option ι} (hq : s.queue .seed ≠ []) :
    ∃ s', step ids seedNode s (.seed answer) = some s' := by
  obtain ⟨msg, rest, hq⟩ := List.exists_cons_of_ne_nil hq
  cases msg <;> cases answer <;> simp [step, hq]

theorem tick_enabled {i : ι} {it : Iter PeerId} {book : AddrBook ι}
    (ht : s.thread i = .running book) :
    step ids seedNode s (.tick i it) = some (s.applyEffects i (book.tick it)) := by
  simp only [step, ht]

end Reactor.Ab
