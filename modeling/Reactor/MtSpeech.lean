import Reactor.MtPipeline

/-!
# What the node says

On a connection the node says hello, asks for the address book in its own
name, and answers with ids. Every id it names has introduced itself: it
got into the address book with a `PeerConnected`, that came with a
`HandshakeCompleted`, and that from a `Hello` read in a handshake.

**`only_introduced`** is that, for everything ever written on any
connection.
-/

namespace Reactor

namespace Mt

open Reactor.System (Any)

/-- `p` has introduced itself: a handshake has read its `Hello`. -/
def Heard (as : List Act) (p : PeerId) : Prop := ∃ c, .helloRead c (.msg (.hello p)) ∈ as

theorem Heard.snoc {as : List Act} {p : PeerId} (h : Heard as p) (a : Act) : Heard (as ++ [a]) p :=
  h.imp fun _ hc => List.mem_append_left _ hc

/-- What tendermint may say to a peer. -/
def Proper (seedNode : PeerId) (as : List Act) (m : PeerMessage) : Prop :=
  m = .addressBookRequest seedNode ∨
    ∃ peers, m = .addressBookResponse peers ∧ ∀ q ∈ peers, Heard as q

/-- Where an id comes from that the two loops speak of. -/
structure Sourced (seedNode : PeerId) (as : List Act) (s : Sys) : Prop where
  completed : ∀ c p o, ⟨.handshakeCompleted c p, o⟩ ∈ s.dispInbox → Heard as p
  connected : ∀ p o, ⟨.peerConnected p, o⟩ ∈ s.tmInbox → Heard as p
  asked : ∀ m o, ⟨.fromPeer m, o⟩ ∈ s.tmInbox → ∃ id, m = .addressBookRequest id
  listed : ∀ p ∈ s.tendermint.addrBook, Heard as p
  said : ∀ p m, .toPeer p m ∈ saidIn seedNode as → Proper seedNode as m

/-- What enters tendermint's inbox. -/
theorem Step.enters_cases {s s' : Sys} {a : Act} (hs : Step s a s')
    {m : Tagged FromDispatcherMsg} (hm : m ∈ s'.tmInbox) :
    m ∈ s.tmInbox ∨ (∃ c p o, m = ⟨.peerConnected p, o⟩ ∧
        ⟨.handshakeCompleted c p, o⟩ ∈ s.dispInbox) ∨
      (∃ id o, m = ⟨.fromPeer (.addressBookRequest id), o⟩) ∨
      ∃ p o, m = ⟨.peerDisconnected p, o⟩ := by
  cases hs with
  | @dispatchCompleted c p o rest hctl hin =>
      refine (mem_tmDeliver hm).imp_right fun hm => .inl ⟨c, p, o, List.mem_singleton.mp hm, ?_⟩
      simp [hin]
  | tmReceive hctl hin => exact .inl (hin ▸ List.mem_cons_of_mem _ hm)
  | request htask =>
      exact (mem_tmDeliver hm).imp_right fun hm => .inr (.inl ⟨_, _, List.mem_singleton.mp hm⟩)
  | remoteGone htask =>
      exact (mem_tmDeliver hm).imp_right fun hm => .inr (.inr ⟨_, _, List.mem_singleton.mp hm⟩)
  | _ => exact .inl hm

theorem sourced_step {seedNode : PeerId} {as : List Act} {s s' : Sys} {a : Act}
    (h : Sourced seedNode as s) (hown : s.tendermint.seedNode = seedNode)
    (hsaid : saidIn seedNode (as ++ [a]) = saidIn seedNode as ++ s.utters a) (hs : Step s a s') :
    Sourced seedNode (as ++ [a]) s' := by
  have listed : ∀ q ∈ s.tendermint.addrBook, Heard (as ++ [a]) q := fun q hq =>
    (h.listed q hq).snoc a
  refine ⟨fun c p o hm => ?_, fun p o hm => ?_, fun m o hm => ?_, fun p hp => ?_,
    fun p m hm => ?_⟩
  · rcases hs.mem_dispInbox hm with hold | hsends
    · exact (h.completed c p o hold).snoc a
    · cases hsends with
      | completes => exact ⟨c, by simp⟩
  · rcases hs.enters_cases hm with hold | ⟨c, q, o', heq, hin⟩ | ⟨id, o', heq⟩ | ⟨q, o', heq⟩
    · exact (h.connected p o hold).snoc a
    · obtain ⟨⟨rfl⟩, -⟩ := Tagged.mk.injEq .. |>.mp heq
      exact (h.completed c _ _ hin).snoc a
    · cases heq
    · cases heq
  · rcases hs.enters_cases hm with hold | ⟨c, q, o', heq, hin⟩ | ⟨id, o', heq⟩ | ⟨q, o', heq⟩
    · exact h.asked m o hold
    · cases heq
    · obtain ⟨⟨rfl⟩, -⟩ := Tagged.mk.injEq .. |>.mp heq
      exact ⟨id, rfl⟩
    · cases heq
  · cases hs with
    | @tmReceive m rest hctl hin =>
        rcases (s.tendermint.run_mem_addrBook m.msg p).mp hp with hnew | ⟨-, hold⟩
        · refine (h.connected p m.origin ?_).snoc _
          simp [hin, ← hnew]
        · exact listed p hold
    | _ => exact listed p hp
  · rw [hsaid] at hm
    rcases List.mem_append.mp hm with hold | hnew
    · rcases h.said p m hold with rfl | ⟨peers, rfl, hpeers⟩
      · exact .inl rfl
      · exact .inr ⟨peers, rfl, fun q hq => (hpeers q hq).snoc a⟩
    · cases hs with
      | tick =>
          obtain ⟨q, -, heq⟩ := List.mem_map.mp hnew
          obtain ⟨rfl, rfl⟩ := DispatcherMsg.toPeer.inj heq
          exact .inl (by rw [hown])
      | @tmReceive taken rest hctl hin =>
          obtain ⟨taken, o⟩ := taken
          simp only [Sys.utters, hin] at hnew
          cases taken with
          | fromPeer x =>
              obtain ⟨id, rfl⟩ := h.asked x o (by simp [hin])
              obtain ⟨rfl, rfl⟩ : p = id ∧ m = _ := by simpa [Tendermint.run] using hnew
              exact .inr ⟨_, rfl, fun q hq => listed q (Finmap.mem_keys.mp hq)⟩
          | peerConnected q | peerDisconnected q => simp [Tendermint.run] at hnew
      | _ => cases hnew

theorem sourced_run {seedNode : PeerId} {G : Sys → Act → Prop} {as : List Act} {s : Sys}
    (h : (node seedNode).Run G as s) : Sourced seedNode as s := by
  induction h with
  | nil =>
      constructor
      all_goals simp [node, init, saidIn, System.outputs, Finmap.notMem_empty]
  | snoc h _ hs ih =>
      exact sourced_step ih (marked_run h).own (h.outputs_snoc _) (step_sound hs)

/-- On a connection that is not registered there is at most the `Hello`. -/
theorem written_unregistered {seedNode : PeerId} {G : Sys → Act → Prop} {as : List Act} {s : Sys}
    (h : (node seedNode).Run G as s) {c : Conn} (hno : ∀ p, (p, c) ∉ s.registry) :
    s.written c <+: [.hello seedNode] := by
  induction h with
  | nil => exact List.nil_prefix
  | @snoc as s s' a h _ hstep ih =>
      have hs := step_sound hstep
      have ho := owned_run h
      have hno₀ : ∀ p, (p, c) ∉ s.registry := fun p hp => hno p (hs.registry_subset hp)
      have hold := ih hno₀
      cases hs.hands ho (manned_run h) c with
      | same _ hwire | takes _ _ _ _ _ _ hwire | ends _ _ hwire =>
          rwa [Sys.written, hwire]
      | @writes p m htask =>
          exact absurd (ho.running p c (by simp [Sys.Running, htask])) (hno₀ p)
      | @greets id htask _ hwire =>
          have hwrote := wrote_run h c
          simp only [Sys.phase, htask, Phase.Wrote, Sys.written, List.map_eq_nil_iff] at hwrote
          obtain rfl := (marked_run h).greeting c id htask
          simp [Sys.written, hwire, hwrote]

/-- **The node names only who has introduced itself.** Whatever it has
written on a connection is its `Hello`, once and first, and then requests in
its own name and responses that list ids it has read a `Hello` of. -/
theorem only_introduced {seedNode : PeerId} {as : List Act} {s : Sys}
    (h : (node seedNode).Run Any as s) (c : Conn) :
    s.written c = [] ∨ ∃ l, s.written c = .hello seedNode :: l ∧ ∀ m ∈ l,
      m = .addressBookRequest seedNode ∨
        ∃ peers, m = .addressBookResponse peers ∧ ∀ q ∈ peers, Heard as q := by
  by_cases hreg : ∃ p, (p, c) ∈ s.registry
  · obtain ⟨p, hreg⟩ := hreg
    obtain ⟨l, hl, hsub⟩ := handed_sublist h hreg
    obtain ⟨l', hl', hpre⟩ := written_of_handed h hreg hl
    refine .inr ⟨l', hl', fun m hm => ?_⟩
    have hsaid : m ∈ addressed p (saidIn seedNode as) :=
      hsub.subset (List.mem_append_left _ (hpre.subset hm))
    obtain ⟨x, hx, hto⟩ := List.mem_filterMap.mp hsaid
    cases x with
    | toPeer q x =>
        simp only [DispatcherMsg.to?, Option.ite_none_right_eq_some, Option.some.injEq] at hto
        obtain ⟨rfl, rfl⟩ := hto
        exact (sourced_run h).said q x hx
    | _ => cases hto
  · have hpre := written_unregistered h (not_exists.mp hreg)
    rcases List.prefix_cons_iff.mp hpre with hnil | ⟨t, ht, hnil⟩
    · exact .inl hnil
    · obtain rfl := List.prefix_nil.mp hnil
      exact .inr ⟨[], ht, fun m hm => by cases hm⟩

/-- A peer has joined, asked, and been answered with its own id. -/
theorem only_introduced_asked :
    ∃ s, (node ⟨"seed"⟩).Run Any answered s ∧
      s.written 0 = [.hello ⟨"seed"⟩, .addressBookResponse {⟨"a"⟩}] ∧
      ∃ l, s.written 0 = .hello ⟨"seed"⟩ :: l ∧ ∀ m ∈ l,
        m = .addressBookRequest ⟨"seed"⟩ ∨
          ∃ peers, m = .addressBookResponse peers ∧ ∀ q ∈ peers, Heard answered q := by
  have hexec : ((node ⟨"seed"⟩).exec Any (init ⟨"seed"⟩) answered).map (·.written 0) =
      some [.hello ⟨"seed"⟩, .addressBookResponse {⟨"a"⟩}] := by decide
  obtain ⟨s, hs, hwire⟩ := Option.map_eq_some_iff.mp hexec
  have hrun := System.run_iff.mpr hs
  refine ⟨s, hrun, hwire, (only_introduced hrun 0).resolve_left fun hnil => ?_⟩
  rw [hwire] at hnil
  cases hnil

end Mt

end Reactor
