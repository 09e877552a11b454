import Reactor.Machine
import Reactor.MtNotices

/-!
# Tendermint's loop by itself

As long as nobody asks it to exit, tendermint takes a tick or a message
from the dispatcher, one after the other, and what it sends goes to the
dispatcher. So its address book and the dispatcher's channel are a
function of what it has taken.

**`inbox_fold`**: the address book lists the ids whose last notice was that
they are connected, and every input is answered with that, in order.

`handled_run` puts the loop back into the node: in every run, tendermint is
where its loop has come to with what it has taken in that run, and that is
what has entered its inbox, in order (`entered_run`).
-/

namespace Reactor

namespace Mt

/-! ## The loop -/

/-- What `run` selects: a tick, with the order the address book is iterated
in, or a message from the dispatcher. -/
inductive Input
  | tick (it : Iter PeerId)
  | fromDispatcher (msg : FromDispatcherMsg)

namespace Tendermint

/-- One turn of `run`. -/
def turn : Machine Tendermint Input DispatcherMsg
  | t, .tick it => (t, t.tick it)
  | t, .fromDispatcher msg => t.run msg

/-- The loop on an inbox, from an empty address book: tendermint after it,
and the dispatcher's channel. -/
def loop (seedNode : PeerId) (inbox : List Input) : Tendermint × List DispatcherMsg :=
  Machine.run turn ⟨seedNode, ∅⟩ inbox

end Tendermint

/-! ## What it is for -/

/-- The last notice about an id is that it is connected. -/
def LastConnected (p : PeerId) (inbox : List Input) : Prop :=
  LastOn (· = .fromDispatcher (.peerConnected p)) (· = .fromDispatcher (.peerDisconnected p)) inbox

/-- An id has been disconnected, and has not been connected since. -/
def Gone (p : PeerId) (inbox : List Input) : Prop :=
  ∃ before after, inbox = before ++ .fromDispatcher (.peerDisconnected p) :: after ∧
    .fromDispatcher (.peerConnected p) ∉ after

/-- What an input is answered with while `keys` are listed. -/
def Answers (seedNode : PeerId) (keys : Finset PeerId) : Input → List DispatcherMsg → Prop
  | .tick _, out =>
      (∀ p, out.count (.toPeer p (.addressBookRequest seedNode)) = if p ∈ keys then 1 else 0) ∧
        ∀ m ∈ out, ∃ p, m = .toPeer p (.addressBookRequest seedNode)
  | .fromDispatcher (.fromPeer (.addressBookRequest q)), out =>
      out = [.toPeer q (.addressBookResponse keys)]
  | .fromDispatcher (.fromPeer (.hello q)), out => out = [.toPeer q (.hello seedNode)]
  | .fromDispatcher (.fromPeer (.addressBookResponse _)), out => out = []
  | .fromDispatcher (.peerConnected _), out => out = []
  | .fromDispatcher (.peerDisconnected p), out => out = [.peerDisconnected p]

theorem Gone.not_lastConnected {p : PeerId} {inbox : List Input} (h : Gone p inbox) :
    ¬LastConnected p inbox := by
  obtain ⟨before, after, rfl, hafter⟩ := h
  exact not_lastOn_of_off (by simp) rfl fun b hb heq => hafter (heq ▸ hb)

/-! ## One turn -/

namespace Tendermint

theorem mem_addrBook_turn (t : Tendermint) (a : Input) (p : PeerId) :
    p ∈ (t.turn a).1.addrBook ↔ a = .fromDispatcher (.peerConnected p) ∨
      ¬a = .fromDispatcher (.peerDisconnected p) ∧ p ∈ t.addrBook := by
  cases a with
  | tick it => simp [turn]
  | fromDispatcher msg => simpa [turn] using t.run_mem_addrBook msg p

theorem turn_seedNode (t : Tendermint) (a : Input) : (t.turn a).1.seedNode = t.seedNode := by
  cases a with
  | tick it => rfl
  | fromDispatcher msg => exact run_seedNode t msg

theorem answers_tick (t : Tendermint) (it : Iter PeerId) :
    Answers t.seedNode t.addrBook.keys (.tick it) (t.tick it) := by
  refine ⟨fun p => ?_, fun m hm => ?_⟩
  · have hinj : Function.Injective fun q : PeerId =>
        DispatcherMsg.toPeer q (.addressBookRequest t.seedNode) :=
      fun q q' h => (DispatcherMsg.toPeer.inj h).1
    have hcount := List.count_map_of_injective (it.order t.addrBook.keys) _ hinj p
    rw [tick, hcount, (it.nodup _).count]
    simp only [it.mem_order]
  · obtain ⟨p, -, rfl⟩ := List.mem_map.mp hm
    exact ⟨p, rfl⟩

/-- **One turn.** -/
theorem answers_turn (t : Tendermint) (a : Input) :
    Answers t.seedNode t.addrBook.keys a (t.turn a).2 := by
  cases a with
  | tick it => exact t.answers_tick it
  | fromDispatcher msg =>
      cases msg with
      | fromPeer m => cases m <;> rfl
      | peerConnected q => rfl
      | peerDisconnected q => rfl

end Tendermint

/-- A tick is answered with messages to the listed ids only, and a request
with a list of them. -/
theorem Answers.not_listed {seedNode p : PeerId} {keys : Finset PeerId} {a : Input}
    {out : List DispatcherMsg} (h : Answers seedNode keys a out) (hp : p ∉ keys) :
    (∀ it, a = .tick it → ∀ m, .toPeer p m ∉ out) ∧
      ∀ q peers, .toPeer q (.addressBookResponse peers) ∈ out → p ∉ peers := by
  cases a with
  | tick it =>
      obtain ⟨hcount, hall⟩ := h
      refine ⟨fun _ _ m hm => ?_, fun q peers hm => ?_⟩
      · obtain ⟨q, hq⟩ := hall _ hm
        obtain ⟨rfl, rfl⟩ := DispatcherMsg.toPeer.inj hq
        have hnone := hcount p
        rw [if_neg hp] at hnone
        exact List.count_eq_zero.mp hnone hm
      · obtain ⟨q', hq'⟩ := hall _ hm
        cases (DispatcherMsg.toPeer.inj hq').2
  | fromDispatcher msg =>
      refine ⟨fun it hit => (nomatch hit), fun q peers hm => ?_⟩
      cases msg with
      | fromPeer m =>
          cases m with
          | addressBookRequest q' =>
              obtain rfl : out = _ := h
              simp only [List.mem_singleton, DispatcherMsg.toPeer.injEq,
                PeerMessage.addressBookResponse.injEq] at hm
              exact hm.2 ▸ hp
          | hello _ | addressBookResponse _ =>
              obtain rfl : out = _ := h
              simp at hm
      | peerConnected _ | peerDisconnected _ =>
          obtain rfl : out = _ := h
          simp at hm

/-! ## The inbox -/

theorem loop_seedNode (seedNode : PeerId) (inbox : List Input) :
    (Tendermint.loop seedNode inbox).1.seedNode = seedNode := by
  induction inbox using List.reverseRecOn with
  | nil => rfl
  | append_singleton inbox a ih =>
      rw [Tendermint.loop, Machine.run_snoc]
      exact (Tendermint.turn_seedNode ..).trans ih

theorem mem_addrBook_loop (seedNode : PeerId) (inbox : List Input) (p : PeerId) :
    p ∈ (Tendermint.loop seedNode inbox).1.addrBook ↔ LastConnected p inbox :=
  Machine.run_iff_lastOn (M := Tendermint.turn) (P := fun t => p ∈ t.addrBook)
    Finmap.notMem_empty fun t a => t.mem_addrBook_turn a p

/-- **The loop as a fold.** After any inbox the address book lists the ids
whose last notice was that they are connected; the dispatcher's channel
holds the answers to the inputs in their order, each as the address book
was at that input; and an id that is gone is not addressed by a tick or
listed in a response. -/
theorem inbox_fold (seedNode : PeerId) (inbox : List Input) :
    (∀ p, p ∈ (Tendermint.loop seedNode inbox).1.addrBook ↔ LastConnected p inbox) ∧
    ∃ outs : List (List DispatcherMsg), outs.length = inbox.length ∧
      (Tendermint.loop seedNode inbox).2 = outs.flatten ∧
      ∀ i a out, inbox[i]? = some a → outs[i]? = some out →
        Answers seedNode (Tendermint.loop seedNode (inbox.take i)).1.addrBook.keys a out ∧
        ∀ p, Gone p (inbox.take i) →
          (∀ it, a = .tick it → ∀ m, .toPeer p m ∉ out) ∧
          ∀ q peers, .toPeer q (.addressBookResponse peers) ∈ out → p ∉ peers := by
  refine ⟨mem_addrBook_loop seedNode inbox, Machine.answers Tendermint.turn ⟨seedNode, ∅⟩ inbox,
    Machine.length_answers inbox, Machine.run_outputs inbox, fun i a out ha hout => ?_⟩
  obtain rfl : (Tendermint.turn (Tendermint.loop seedNode (inbox.take i)).1 a).2 = out :=
    Option.some.inj ((Machine.getElem?_answers ha).symm.trans hout)
  have hanswers := Tendermint.answers_turn (Tendermint.loop seedNode (inbox.take i)).1 a
  rw [loop_seedNode] at hanswers
  refine ⟨hanswers, fun p hgone => hanswers.not_listed fun hlisted => ?_⟩
  exact hgone.not_lastConnected ((mem_addrBook_loop ..).mp (Finmap.mem_keys.mp hlisted))

/-- The peer workflow of the tests, between two ticks. -/
example :
    (Tendermint.loop ⟨"Seed node"⟩ [.fromDispatcher (.peerConnected ⟨"Hello, world!"⟩),
      .fromDispatcher (.fromPeer (.addressBookRequest ⟨"Request"⟩)),
      .fromDispatcher (.peerDisconnected ⟨"Hello, world!"⟩),
      .fromDispatcher (.fromPeer (.addressBookRequest ⟨"Request"⟩))]).2 =
    [.toPeer ⟨"Request"⟩ (.addressBookResponse {⟨"Hello, world!"⟩}),
      .peerDisconnected ⟨"Hello, world!"⟩,
      .toPeer ⟨"Request"⟩ (.addressBookResponse ∅)] := by
  decide

/-! ## In the node -/

/-- What tendermint takes in a step. -/
def Sys.handles (s : Sys) : Act → List Input
  | .tick it => [.tick it]
  | .tmReceive =>
      match s.tmInbox with
      | m :: _ => [.fromDispatcher m.msg]
      | [] => []
  | _ => []

/-- What tendermint sends to the dispatcher in a turn. -/
def Sys.utters (s : Sys) : Act → List DispatcherMsg
  | .tick it => s.tendermint.tick it
  | .tmReceive =>
      match s.tmInbox with
      | m :: _ => (s.tendermint.run m.msg).2
      | [] => []
  | _ => []

/-- Everything tendermint has taken, and all it has sent in its turns. -/
def handledIn (seedNode : PeerId) (as : List Act) : List Input :=
  (node seedNode).outputs Sys.handles (init seedNode) as

def saidIn (seedNode : PeerId) (as : List Act) : List DispatcherMsg :=
  (node seedNode).outputs Sys.utters (init seedNode) as

/-- A step of the node is a turn of the loop, or leaves tendermint alone. -/
theorem Step.turn {s s' : Sys} {a : Act} (hs : Step s a s') :
    s.handles a = [] ∧ s.utters a = [] ∧ s'.tendermint = s.tendermint ∨
      ∃ i, s.handles a = [i] ∧ s.tendermint.turn i = (s'.tendermint, s.utters a) := by
  cases hs with
  | tick hctl => exact .inr ⟨_, rfl, rfl⟩
  | @tmReceive m rest hctl hin =>
      exact .inr ⟨.fromDispatcher m.msg, by simp [Sys.handles, hin],
        by simp [Sys.utters, hin, Tendermint.turn]⟩
  | _ => exact .inl ⟨rfl, rfl, rfl⟩

/-- **In every run** tendermint is where its loop has come to with what it
has taken, and has said what its loop says. -/
theorem handled_run {seedNode : PeerId} {G : Sys → Act → Prop} {as : List Act} {s : Sys}
    (h : (node seedNode).Run G as s) :
    Tendermint.loop seedNode (handledIn seedNode as) = (s.tendermint, saidIn seedNode as) := by
  induction h with
  | nil => rfl
  | @snoc as s s' a h _ hs ih =>
      have hhandled : handledIn seedNode (as ++ [a]) = handledIn seedNode as ++ s.handles a :=
        h.outputs_snoc a
      have hsaid : saidIn seedNode (as ++ [a]) = saidIn seedNode as ++ s.utters a :=
        h.outputs_snoc a
      rw [hhandled, hsaid]
      rcases (step_sound hs).turn with ⟨hnone, hquiet, hsame⟩ | ⟨i, hone, hturn⟩
      · rw [hnone, hquiet, hsame, List.append_nil, List.append_nil, ih]
      · rw [Tendermint.loop] at ih ⊢
        rw [hone, Machine.run_snoc, ih, hturn]

/-- So in every run the address book lists the ids whose last notice taken
was that they are connected. -/
theorem mem_addrBook_run {seedNode : PeerId} {G : Sys → Act → Prop} {as : List Act} {s : Sys}
    (h : (node seedNode).Run G as s) (p : PeerId) :
    p ∈ s.tendermint.addrBook ↔ LastConnected p (handledIn seedNode as) := by
  rw [← mem_addrBook_loop seedNode, handled_run h]

/-- The message of an input that is not a tick. -/
def Input.message? : Input → Option FromDispatcherMsg
  | .tick _ => none
  | .fromDispatcher msg => some msg

end Mt

end Reactor
