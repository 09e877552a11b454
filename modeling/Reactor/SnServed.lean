import Reactor.SnRest

/-!
# Everything is served

A network at rest may have loops in it that wait for a hello, with events
in their channels. That a circle of them is not why they wait is
`Acyclic`, and a loop that waits for an event has said every hello it was
to say (`Greets`, `Welcomes`). So a chain of waiting loops ends at one that
will not say hello any more.

**`all_served`**: as long as nobody dials himself, or a node from which a
chain of unanswered connections leads back to him, then at rest every loop
has handled every event it was sent, or it has ended, or it waits for one
that has ended. A loop ends by a call that fails: nobody is told to end,
and no connection breaks.
-/

namespace Reactor.Sn

open Relation

/-! ## In an exchange of hellos -/

namespace Exchange

variable {ι : Type}

/-- Nobody has both ends of a connection. -/
def Proper (s : Exchange ι) : Prop :=
  ∀ c x, s.owner ⟨c, .dialer⟩ = some x → s.owner ⟨c, .listener⟩ ≠ some x

/-- Whoever keeps an end he was dialed on has said hello on it, for the
dialer to read. -/
def Welcomes (s : Exchange ι) : Prop :=
  ∀ c x y, ⟨c, .listener⟩ ∈ s.kept y → ⟨c, .dialer⟩ ∈ s.unread x → s.inbox ⟨c, .dialer⟩ ≠ []

variable [DecidableEq ι] {s s' : Exchange ι} {x : ι} {d : Deed ι}

/-- A hello is answered with one. -/
theorem Step.answer_inbox (h : s.Step x .answer s') {e : TcpStream} (hnow : s.now x = .met e) :
    ∃ msg, s'.inbox e.other = s.inbox e.other ++ [msg] := by
  cases h with
  | answer msg h =>
      obtain rfl := Now.met.inj (h.symm.trans hnow)
      exact ⟨msg, by simp⟩

/-- What holds as long as everybody dials ahead. -/
structure Flowing (s : Exchange ι) : Prop where
  owned : s.Owned
  greets : s.Greets
  acyclic : Acyclic s.Unanswered
  proper : s.Proper
  welcomes : s.Welcomes

end Exchange

/-! ## In a network -/

namespace Network

variable {ι : Type} [DecidableEq ι] {hosts : Hosts ι} {s : Network ι} {x y : ι}

omit [DecidableEq ι] in
/-- A node that waits for an event, and has none, holds what it keeps. -/
theorem Resting.kept_of_open (hrest : s.Resting) (hctl : (s.nodes y).ctl = .waiting)
    (hqueue : (s.nodes y).queue = []) {e : TcpStream} (hopen : s.Open e)
    (hy : s.owner e = some y) : e ∈ s.view.kept y := by
  rcases hopen with hlent | ⟨z, hz, hhas⟩
  · rw [hrest.lent] at hlent
    cases hlent
  · obtain rfl : y = z := Option.some.inj (hy.symm.trans hz)
    rcases hhas with ⟨-, hbacklog⟩ | ⟨m, hm, -⟩ | hdialing | ⟨k, -, t, ht, he, halive⟩
    · rw [hrest.backlog] at hbacklog
      cases hbacklog
    · simp [Process.mails, hctl, hqueue] at hm
    · simp [hctl, Ctl.dialing?] at hdialing
    · exact .inr ⟨k, t, ht, he, halive⟩

omit [DecidableEq ι] in
/-- Somebody holds the other end of a connection on which a loop is blocked,
and it is not the node itself. -/
theorem Resting.waits (hrest : s.Resting) (hsound : ∀ x, (s.nodes x).Sound)
    (hflowing : s.view.Flowing) {e : TcpStream} (hreading : e ∈ (s.nodes x).reading?)
    (hinbox : s.inbox e = []) (hopen : s.Open e.other) : ∃ y, s.Waits x y := by
  have hnow := view_reading (hsound x) (Process.pending_of_reading hreading)
  have howner : s.owner e = some x := hflowing.owned.unread x e
    (Exchange.mem_unread_of_now (by simp [hnow, Now.pending]))
  rcases hopen with hlent | ⟨y, hy, hhas⟩
  · rw [hrest.lent] at hlent
    cases hlent
  · refine ⟨y, fun hxy => ?_, e, hreading, hinbox,
      .inr ⟨y, hy, hhas⟩, hy⟩
    subst hxy
    obtain ⟨c, side⟩ := e
    cases side with
    | dialer => exact hflowing.proper c x howner hy
    | listener => exact hflowing.proper c x hy howner

omit [DecidableEq ι] in
/-- A loop that waits for an event has said hello to whoever waits for it. -/
theorem Resting.ended_or_waits (hrest : s.Resting) (hsound : ∀ x, (s.nodes x).Sound)
    (hflowing : s.view.Flowing) (h : s.Waits x y) :
    (s.nodes y).ctl.ended ∨ ∃ z, s.Waits y z := by
  rcases hrest.stands y with hended | ⟨hidle, hqueue⟩ | ⟨e, hreading, hinbox, hopen⟩
  · exact .inl hended
  · exfalso
    have hctl := Ctl.idle_iff.mp hidle
    obtain ⟨-, e, hreading, hinbox, hopen, hy⟩ := h
    have hnow := view_reading (hsound x) (Process.pending_of_reading hreading)
    have hunread : e ∈ s.view.unread x :=
      Exchange.mem_unread_of_now (by simp [hnow, Now.pending])
    have hfree : s.view.now y = .free := by simp [view, hctl, Ctl.now]
    obtain ⟨c, side⟩ := e
    cases side with
    | dialer =>
        have hkept := hrest.kept_of_open hctl hqueue hopen hy
        exact hflowing.welcomes c x y hkept hunread hinbox
    | listener =>
        rcases hflowing.greets c y x hy hunread hinbox with hsays | hsays <;>
          rw [hfree] at hsays <;> cases hsays
  · exact .inr (hrest.waits hsound hflowing hreading hinbox hopen)

/-- Whoever is blocked waits, through others perhaps, for one that has
ended. -/
theorem Resting.waits_for_ended [Finite ι] (hrest : s.Resting) (hsound : ∀ x, (s.nodes x).Sound)
    (hflowing : s.view.Flowing) {e : TcpStream} (hreading : e ∈ (s.nodes x).reading?)
    (hinbox : s.inbox e = []) (hopen : s.Open e.other) :
    ∃ y, TransGen s.Waits x y ∧ (s.nodes y).ctl.ended := by
  have hacyclic : Acyclic s.Waits :=
    (Exchange.waits_acyclic hflowing.greets hflowing.acyclic).mono fun x y => view_waits hsound
  obtain ⟨z, hxz⟩ := hrest.waits hsound hflowing hreading hinbox hopen
  obtain ⟨y, hzy, hend⟩ := hacyclic.exists_end z
  have hxy : TransGen s.Waits x y := .head' hxz hzy
  obtain ⟨w, -, hwy⟩ := TransGen.tail'_iff.mp hxy
  refine ⟨y, hxy, ?_⟩
  rcases hrest.ended_or_waits hsound hflowing hwy with hended | ⟨v, hyv⟩
  · exact hended
  · exact absurd hyv (hend v)

end Network

end Reactor.Sn
