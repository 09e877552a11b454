import Reactor.Acyclic
import Reactor.SnView

/-!
# Deadlock

A loop that handles `Connected` reads a hello, and does nothing else until
one arrives. Whoever was dialed says hello only when his own loop gets to
that connection, and if it is busy with one that he has dialed himself, it
may wait for the first in turn.

**`no_deadlock`**: loops wait for each other in a circle only if nodes
dialed each other in a circle, each before he was answered. As long as
nobody dials a node from which a chain of unanswered connections leads
back to him (`DialsForward`), no set of loops is deadlocked.

That is so because a loop never waits long for a node that has dialed it:
that one's hello is on its way unless his loop is just about to say it
(`Greets`). So the loops of a circle all wait on connections they have
dialed.
-/

namespace Reactor.Sn

open Relation

/-! ## In an exchange of hellos -/

namespace Exchange

variable {ι : Type}

/-- `x` reads on a connection to `y`, and there is nothing to read. -/
def Waits (s : Exchange ι) (x y : ι) : Prop :=
  x ≠ y ∧ ∃ e, s.now x = .reading e ∧ s.inbox e = [] ∧ s.owner e.other = some y

/-- `x` has dialed `y`, and has read no hello, nor is there one to read. -/
def Unanswered (s : Exchange ι) (x y : ι) : Prop :=
  x ≠ y ∧ ∃ c, s.owner ⟨c, .listener⟩ = some y ∧ ⟨c, .dialer⟩ ∈ s.unread x ∧
    s.inbox ⟨c, .dialer⟩ = []

/-- Where there is no hello to read for whoever was dialed, the dialer is
just about to say it, or never will. -/
def Greets (s : Exchange ι) : Prop :=
  ∀ c x y, s.owner ⟨c, .dialer⟩ = some x → ⟨c, .listener⟩ ∈ s.unread y →
    s.inbox ⟨c, .listener⟩ = [] → s.now x = .dialed ⟨c, .dialer⟩ ∨ s.now x = .halted

theorem waits_acyclic {s : Exchange ι} (hgreets : s.Greets)
    (hacyclic : Acyclic s.Unanswered) : Acyclic s.Waits := by
  refine hacyclic.of_goOn fun x y z hxy hyz => ?_
  obtain ⟨hne, ⟨c, side⟩, hnow, hinbox, howner⟩ := hxy
  obtain ⟨-, e, hnow', -⟩ := hyz
  have hunread : ⟨c, side⟩ ∈ s.unread x := mem_unread_of_now (by simp [hnow, Now.pending])
  cases side with
  | dialer => exact ⟨hne, c, howner, hunread, hinbox⟩
  | listener =>
      rcases hgreets c y x howner hunread hinbox with hy | hy <;> rw [hnow'] at hy <;> cases hy

variable [DecidableEq ι] {s s' : Exchange ι} {x : ι} {d : Deed ι}

/-- Nothing is read on an end that is still to be looked at. -/
theorem Step.inbox_nil (hs : s.Owned) (h : s.Step x d s') {y : ι} {f : TcpStream}
    (hf : f ∈ s'.unread y) (hnil : s'.inbox f = []) : s.inbox f = [] := by
  rcases h.inbox_cases hs f with heq | ⟨msg, heq⟩ | hdone
  · exact heq.symm.trans hnil
  · simp [heq] at hnil
  · exact absurd hf (hdone y)

/-- A node that is about to say hello, or never will, does so next. -/
theorem Step.now_cases (h : s.Step x d s') {z : ι} {e : TcpStream}
    (hz : s.now z = .dialed e ∨ s.now z = .halted) :
    s'.now z = .dialed e ∨ s'.now z = .halted ∨
      ∃ msg, s'.inbox e.other = s.inbox e.other ++ [msg] := by
  by_cases hx : z = x
  · subst hx
    cases h with
    | greet msg h =>
        obtain rfl : _ = e := by simpa [h] using hz
        exact .inr (.inr ⟨msg, by simp⟩)
    | hear h hinbox => exact hz.imp id .inl
    | forget h => exact hz.imp id .inl
    | halt h => exact .inr (.inl (by simp))
    | lose h => rcases h with h | h <;> simp [h] at hz
    | _ => simp_all
  · rw [h.now_of_ne hx]
    exact hz.imp id .inl

/-- An end whose hello is still to be read, and is not there, was that
before, with the same node at the other end, or has just been dialed. -/
theorem Step.waiting_cases (hs : s.Owned) (h : s.Step x d s') {e : TcpStream} {y z : ι}
    (howner : s'.owner e.other = some y) (hunread : e ∈ s'.unread z) (hinbox : s'.inbox e = []) :
    s.owner e.other = some y ∧ e ∈ s.unread z ∧ s.inbox e = [] ∨
      ∃ w, d = .dial w ∧ s'.now x = .dialed ⟨e.conn, .dialer⟩ ∧
        (e = ⟨s.nextConn, .dialer⟩ ∧ z = x ∧ y = w ∨
          e = ⟨s.nextConn, .listener⟩ ∧ z = w ∧ y = x) := by
  have hnil := h.inbox_nil hs hunread hinbox
  by_cases hd : ∃ w, d = .dial w
  · obtain ⟨w, rfl⟩ := hd
    cases h with
    | dial _ hfree =>
        rcases (mem_unread_connect hfree).mp hunread with hold | ⟨rfl, rfl⟩ | ⟨rfl, rfl⟩
        · rw [owner_connect w (by simpa using hs.lt hold)] at howner
          exact .inl ⟨howner, hold, hnil⟩
        · obtain rfl : w = y := by simpa [connect] using howner
          exact .inr ⟨w, rfl, by simp [connect], .inl ⟨rfl, rfl, rfl⟩⟩
        · obtain rfl : x = y := by simpa [connect] using howner
          exact .inr ⟨z, rfl, by simp [connect], .inr ⟨rfl, rfl, rfl⟩⟩
  · have hd : ∀ w, d ≠ .dial w := fun w hw => hd ⟨w, hw⟩
    rw [(h.owner_eq hd).1] at howner
    exact .inl ⟨howner, (h.subperm hd z).subset hunread, hnil⟩

theorem greets_step (hs : s.Owned) (hgreets : s.Greets) (h : s.Step x d s') : s'.Greets := by
  intro c y z howner hunread hinbox
  rcases h.waiting_cases hs (e := ⟨c, .listener⟩) howner hunread hinbox with
    ⟨howner, hunread, hnil⟩ | ⟨w, -, hnow, ⟨hnew, -⟩ | ⟨-, -, rfl⟩⟩
  · rcases h.now_cases (hgreets c y z howner hunread hnil) with hy | hy | ⟨msg, hmsg⟩
    · exact .inl hy
    · exact .inr hy
    · rw [TcpStream.other_dialer, hinbox] at hmsg
      simp at hmsg
  · cases hnew
  · exact .inl hnow

/-- Only dialing makes another connection that is not answered. -/
theorem Step.unanswered (hs : s.Owned) (h : s.Step x d s') {a b : ι} (hab : s'.Unanswered a b) :
    s.Unanswered a b ∨ a = x ∧ d = .dial b := by
  obtain ⟨hne, c, howner, hunread, hinbox⟩ := hab
  rcases h.waiting_cases hs (e := ⟨c, .dialer⟩) howner hunread hinbox with
    ⟨howner, hunread, hnil⟩ | ⟨w, rfl, -, ⟨-, rfl, rfl⟩ | ⟨hnew, -⟩⟩
  · exact .inl ⟨hne, c, howner, hunread, hnil⟩
  · exact .inr ⟨rfl, rfl⟩
  · cases hnew

/-- A step that dials nobody from whom a chain of unanswered connections
leads back. -/
def Forward (s s' : Exchange ι) : Prop :=
  ∃ x d, s.Step x d s' ∧ ∀ y, d = .dial y → x = y ∨ ¬ReflTransGen s.Unanswered y x

theorem forward_step (hs : s.Owned) (hgreets : s.Greets) (hacyclic : Acyclic s.Unanswered)
    (h : s.Forward s') : s'.Owned ∧ s'.Greets ∧ Acyclic s'.Unanswered := by
  obtain ⟨x, d, hstep, hforward⟩ := h
  refine ⟨owned_step hs hstep, greets_step hs hgreets hstep, ?_⟩
  by_cases hd : ∃ y, d = .dial y ∧ x ≠ y
  · obtain ⟨y, rfl, hxy⟩ := hd
    refine hacyclic.insert (fun a b hab => ?_) ((hforward y rfl).resolve_left hxy)
    exact (hstep.unanswered hs hab).imp id fun ⟨ha, hb⟩ => ⟨ha, (Deed.dial.inj hb).symm⟩
  · refine hacyclic.mono fun a b hab => (hstep.unanswered hs hab).resolve_right ?_
    rintro ⟨rfl, rfl⟩
    exact hd ⟨b, rfl, hab.1⟩

theorem forward_run {s : Exchange ι} (h : ReflTransGen Forward empty s) :
    s.Owned ∧ s.Greets ∧ Acyclic s.Unanswered := by
  induction h with
  | refl =>
      refine ⟨owned_empty, fun c x y h => ?_, acyclic_of_empty fun x y ⟨_, c, h, _⟩ => ?_⟩
      · cases h
      · cases h
  | tail _ hstep ih => exact forward_step ih.1 ih.2.1 ih.2.2 hstep

end Exchange

/-! ## In a network -/

/-- The end is yet to be read: it has been dialed, or its `Connected` event
is in the channel, or has been taken just now. -/
def Process.Awaits (p : Process) (e : TcpStream) : Prop :=
  p.ctl.dialing? = some e ∨ e ∈ p.arrived ∨
    ∃ m rest, p.ctl = .handling m .start rest ∧ m.ev = .peer (.connected e)

/-- The loop is waiting for an event. -/
def Ctl.idle : Ctl → Bool
  | .waiting => true
  | _ => false

theorem Ctl.idle_iff {ctl : Ctl} : ctl.idle ↔ ctl = .waiting := by
  cases ctl <;> simp [Ctl.idle]

/-- The stream on which the loop is about to read a hello. -/
def Process.reading? (p : Process) : Option TcpStream :=
  match p.pending with
  | some (.readPeerMessage e) => some e
  | _ => none

namespace Network

variable {ι : Type} [DecidableEq ι]

/-- The loop of `x` is blocked in a read on a connection to `y`. -/
def Waits (s : Network ι) (x y : ι) : Prop :=
  x ≠ y ∧ ∃ e ∈ (s.nodes x).reading?, s.inbox e = [] ∧ s.Open e.other ∧ s.owner e.other = some y

instance (s : Network ι) (x y : ι) : Decidable (s.Waits x y) :=
  inferInstanceAs (Decidable (_ ∧ _))

/-- `x` has dialed `y`, and has read no hello, nor has one been sent. -/
def Unanswered (s : Network ι) (x y : ι) : Prop :=
  x ≠ y ∧ ∃ c, s.owner ⟨c, .listener⟩ = some y ∧ (s.nodes x).Awaits ⟨c, .dialer⟩ ∧
    s.inbox ⟨c, .dialer⟩ = []

end Network

/-- Nobody dials a node from which a chain of unanswered connections leads
back to him. -/
def DialsForward {ι : Type} (hosts : Hosts ι) (s : Network ι) : ι × Move → Prop
  | (x, .loop _) => ∀ addr y, (s.nodes x).pending = some (.connect addr) →
      hosts.host addr = some y → x = y ∨ ¬ReflTransGen s.Unanswered y x
  | _ => True

namespace Network

variable {ι : Type} {s : Network ι} {x y : ι}

theorem mem_unread_view {c : Nat} :
    ⟨c, .dialer⟩ ∈ s.view.unread x ↔ (s.nodes x).Awaits ⟨c, .dialer⟩ := by
  have hlog : ⟨c, .dialer⟩ ∈ s.view.log x ↔ ⟨c, .dialer⟩ ∈ (s.nodes x).arrived := by
    simp [view]
  rw [Exchange.unread, List.mem_append, hlog]
  exact (or_congr_left Ctl.mem_pending).trans (or_assoc.trans (or_congr_right or_comm))

theorem view_unanswered : s.view.Unanswered x y ↔ s.Unanswered x y :=
  and_congr_right fun _ => exists_congr fun _ =>
    and_congr_right fun _ => and_congr_left fun _ => mem_unread_view

theorem view_waits [DecidableEq ι] (hsound : ∀ x, (s.nodes x).Sound) (h : s.Waits x y) :
    s.view.Waits x y := by
  obtain ⟨hne, e, hreading, hinbox, -, howner⟩ := h
  have hpending : (s.nodes x).pending = some (.readPeerMessage e) := by
    unfold Process.reading? at hreading
    split at hreading
    · next e' hpending =>
        obtain rfl := Option.some.inj hreading
        exact hpending
    · cases hreading
  exact ⟨hne, e, view_reading (hsound x) hpending, hinbox, howner⟩

end Network

/-- **No deadlock.** In every run in which nobody dials a node from which a
chain of unanswered connections leads back to him, no loops wait for each
other in a circle. -/
theorem no_deadlock {ι : Type} [DecidableEq ι] {hosts : Hosts ι} {as : List (ι × Move)}
    {s : Network ι} (h : (network hosts).Run (DialsForward hosts) as s) : Acyclic s.Waits := by
  have hunanswered : ∀ s : Network ι, s.view.Unanswered = s.Unanswered := fun s =>
    funext fun x => funext fun y => propext Network.view_unanswered
  obtain ⟨hsound, hpath⟩ := h.refines (R := Exchange.Forward) Network.view
    (fun s => ∀ x, (s.nodes x).Sound) (fun x => Process.sound_new _)
    fun s ⟨x, mv⟩ s' hsound _ hforward hstep => by
      refine ⟨Network.sound_step hsound hstep, ?_⟩
      refine (Network.step_view (hsound x) hstep).imp id ?_
      rintro ⟨d, hd, hwhy⟩
      refine ⟨x, d, hd, fun y hy => ?_⟩
      subst hy
      obtain ⟨io, addr, rfl, hpending, hhost⟩ := hwhy
      exact hunanswered s ▸ hforward addr y hpending hhost
  have hinit : (network hosts).init.view = .empty := Network.view_new hosts
  obtain ⟨-, hgreets, hacyclic⟩ := Exchange.forward_run (hinit ▸ hpath)
  exact (Exchange.waits_acyclic hgreets hacyclic).mono fun x y => Network.view_waits hsound

/-! ## Runs -/

/-- Two nodes, each with its address. -/
def pair : Hosts Bool where
  name x := if x then "2" else "1"
  host addr :=
    if addr = "127.0.0.1:29001" then some false
    else if addr = "127.0.0.1:29002" then some true
    else none

/-- Makes a node take an event, and the steps of its round. -/
def takes (x : Bool) (steps : Nat) : List (Bool × Move) :=
  (x, .take) :: List.replicate steps (x, .loop .calm)

/-- The node dialed is waiting for an event, and there is none. -/
def DialsIdle {ι : Type} (hosts : Hosts ι) (s : Network ι) : ι × Move → Prop
  | (x, .loop _) =>
      match (s.nodes x).pending with
      | some (.connect addr) =>
          match hosts.host addr with
          | some y => (s.nodes y).ctl.idle ∧ (s.nodes y).queue = []
          | none => True
      | _ => True
  | _ => True

instance {ι : Type} (hosts : Hosts ι) (s : Network ι) (a : ι × Move) :
    Decidable (DialsIdle hosts s a) := by
  unfold DialsIdle
  split
  · split
    · split <;> infer_instance
    · infer_instance
  · infer_instance

/-- Dialing idle nodes is dialing forward. -/
theorem dialsForward_of_idle {ι : Type} {hosts : Hosts ι} {s : Network ι} {a : ι × Move}
    (h : DialsIdle hosts s a) : DialsForward hosts s a := by
  obtain ⟨x, mv⟩ := a
  cases mv with
  | loop io =>
      intro addr y hpending hhost
      simp only [DialsIdle, hpending, hhost] at h
      refine or_iff_not_imp_left.mpr fun hxy hpath => ?_
      rcases ReflTransGen.cases_head hpath with heq | ⟨z, ⟨-, c, -, hawaits, -⟩, -⟩
      · exact hxy heq.symm
      · -- an idle node waits for nothing
        obtain ⟨hidle, hqueue⟩ := h
        rcases hawaits with hdialing | harrived | ⟨m, rest, hctl, -⟩
        · unfold Ctl.idle at hidle
          split at hidle
          · next hctl => simp [hctl, Ctl.dialing?] at hdialing
          · cases hidle
        · simp [Process.arrived, hqueue] at harrived
        · simp [hctl, Ctl.idle] at hidle
  | _ => trivial

/-- One node dials the other, both register, and later the other dials. -/
def inTurn : List (Bool × Move) :=
  [(false, .post (.peer (.connect "127.0.0.1:29002")))] ++ takes false 4 ++
    [(true, .accept)] ++ takes true 12 ++ takes false 12 ++ takes false 1 ++ takes true 1 ++
    [(true, .post (.peer (.connect "127.0.0.1:29001")))] ++ takes true 4

theorem no_deadlock_inTurn : ∃ s, (network pair).Run (DialsForward pair) inTurn s ∧
    s.nextConn = 2 ∧ Acyclic s.Waits := by
  have h : ((network pair).exec (DialsIdle pair) (network pair).init inTurn).bind
      (fun s => some s.nextConn) = some 2 := by
    decide
  obtain ⟨s, hs, hconn⟩ := Option.bind_eq_some_iff.mp h
  have hrun := (System.run_iff.mpr hs).weaken fun _ _ => dialsForward_of_idle
  exact ⟨s, hrun, Option.some.inj hconn, no_deadlock hrun⟩

/-- Both nodes are asked to connect to the other, and each dials before it
looks at the connection of the other. -/
def crossing : List (Bool × Move) :=
  [(false, .post (.peer (.connect "127.0.0.1:29002"))),
    (true, .post (.peer (.connect "127.0.0.1:29001")))] ++
    takes false 4 ++ takes true 4 ++ takes false 3 ++ takes true 3

open Reactor.System (Any)

/-- Each loop waits for the other to say hello. -/
theorem crossing_deadlocks : ∃ s, (network pair).Run Any crossing s ∧ ¬Acyclic s.Waits := by
  have h : ((network pair).exec Any (network pair).init crossing).bind
      (fun s => if s.Waits false true ∧ s.Waits true false then some () else none) = some () := by
    decide
  obtain ⟨s, hs, hwaits⟩ := Option.bind_eq_some_iff.mp h
  split at hwaits
  · next hw =>
      exact ⟨s, System.run_iff.mpr hs, fun hacyclic =>
        hacyclic false (.tail (.single hw.1) hw.2)⟩
  · cases hwaits

end Reactor.Sn
