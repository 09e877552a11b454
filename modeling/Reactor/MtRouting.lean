import Reactor.MtSession

/-!
# Where the reply to an address book request goes

Tendermint answers a request to the id the request *names*. The per-peer
task that read the request passes that id on as it came from the wire, so
the remote side chooses whom the reply is for: an id that is not connected
stops the dispatcher, another peer's id sends the reply to that peer.

`reply_misrouted` is such a run. `replies_routed` is the other side: where
requests name the id of the connection they are read on, and ids are
registered when idle, every reply finds the connection of its request.
-/

namespace Reactor

namespace Mt

def PeerMessage.isReply : PeerMessage → Bool
  | .addressBookResponse _ => true
  | _ => false

/-- The messages between the dispatcher and the far end of `d`, oldest
first: written, being written, in the command channel. -/
def Sys.outgoing (s : Sys) (d : Conn) : List (Tagged PeerMessage) :=
  s.wire d ++ (match s.task d with
    | .peerSend _ m => [m]
    | _ => []) ++ s.cmd d

/-- The replies to the requests read on `c`: the dispatcher handles each
without stopping, and each is on its way to `c` and nowhere else. -/
structure ReplyRouted (s : Sys) (c : Conn) : Prop where
  handled : ∀ q peers rest s',
    s.dispInbox = ⟨.toPeer q (.addressBookResponse peers), some c⟩ :: rest →
    step s .dispatch = some s' → s'.dispCtl = .running
  delivered : ∀ d, ∀ m ∈ s.outgoing d, m.msg.isReply → m.origin = some c → d = c

/-- A step that reads a request reads it on a connection whose handshake
named the same id, and a step that registers an id finds it idle. -/
def RoutesBack (s : Sys) (a : Act) : Prop :=
  (∀ e ∈ s.registering a, s.Idle e.1) ∧ ∀ e ∈ a.requesting, s.Running e.1 e.2

instance (s : Sys) (a : Act) : Decidable (RoutesBack s a) :=
  inferInstanceAs (Decidable ((∀ e ∈ _, _) ∧ ∀ e ∈ _, _))

theorem RoutesBack.keepsOrder {s : Sys} {a : Act} (h : RoutesBack s a) (p : PeerId) :
    KeepsOrder p s a :=
  ⟨fun e he hep => hep ▸ h.1 e he, fun e he hep => hep ▸ h.2 e he⟩

/-! ## Replies under way -/

theorem mem_outgoing {s : Sys} {d : Conn} {m : Tagged PeerMessage} :
    m ∈ s.outgoing d ↔
      m ∈ s.wire d ∨ (∃ p, s.task d = .peerSend p m) ∨ m ∈ s.cmd d := by
  unfold Sys.outgoing
  cases s.task d <;> simp [eq_comm]

/-- A message under way to `d` was so before, or is the node's own `Hello`,
or has just been taken by the dispatcher for an id it holds `d` under. -/
theorem Step.outgoing {s s' : Sys} {a : Act} (hs : Step s a s') {d : Conn}
    {m : Tagged PeerMessage} (hm : m ∈ s'.outgoing d) :
    m ∈ s.outgoing d ∨ m.msg.isReply = false ∨
      s.dispCtl = .running ∧ ∃ p rest, s.dispInbox = ⟨.toPeer p m.msg, m.origin⟩ :: rest ∧
        s.dispatcher.connectedPeers.lookup p = some d := by
  rw [mem_outgoing] at hm ⊢
  cases hs with
  | @dispatchSend p x o rest c hctl hin hsome =>
      rcases hm with hm | hm | hm
      · exact .inl (.inl hm)
      · exact .inl (.inr (.inl hm))
      · simp only [Function.update_apply] at hm
        split at hm
        · obtain rfl := List.mem_singleton.mp hm
          rename_i heq
          exact .inr (.inr ⟨hctl, p, rest, hin, heq ▸ hsome⟩)
        · exact .inl (.inr (.inr hm))
  | @helloSent c myId htask =>
      rcases hm with hm | ⟨p, hm⟩ | hm
      · simp only [Function.update_apply] at hm
        split at hm
        · rename_i heq
          rcases List.mem_append.mp hm with hm | hm
          · exact .inl (.inl (heq ▸ hm))
          · exact .inr (.inl (by rw [List.mem_singleton.mp hm]; rfl))
        · exact .inl (.inl hm)
      · simp only [Sys.setTask, Function.update_apply] at hm
        split at hm
        · cases hm
        · exact .inl (.inr (.inl ⟨p, hm⟩))
      · exact .inl (.inr (.inr hm))
  | accept | dispatchHandshake | dispatchPanic | dispatchCompleted | dispatchExit
  | helloUnsent | helloRead | helloFailed | command htask hcmd | commandClosed
  | sent htask | unsent | remoteGone =>
      simp [Function.update_apply] at hm
      grind
  | _ => exact .inl hm

/-! ## Replies are routed back -/

/-- **Replies are routed back** in every run that reads requests under
their own id and registers idle ids. -/
theorem replies_routed {seedNode : PeerId} {as : List Act} {s : Sys}
    (h : (node seedNode).Run RoutesBack as s) (c : Conn) : ReplyRouted s c := by
  have orderly : ∀ as s, (node seedNode).Run RoutesBack as s →
      s.dispCtl = .running → ∀ p, (view p s).Orderly := fun _ _ h hctl p =>
    orderly_run (h.weaken fun _ _ hg => hg.keepsOrder p) hctl
  refine ⟨?_, ?_⟩
  · intro q peers rest s' hin hs
    have hs := step_sound hs
    have hord := orderly as s h (dispatch_running hs) q
    refine dispatch_toPeer_running hin (Finmap.lookup_isSome.mp (hord.held ?_)) hs
    exact .inr (.inr (.inl (by simp [view, hin, downNote])))
  · refine (h.strengthen orderly).invariant
      (fun s => ∀ d, ∀ m ∈ s.outgoing d, m.msg.isReply → m.origin = some c → d = c) ?_ ?_
    · intro d m hm
      simp [mem_outgoing, node, init] at hm
    · rintro s a s' ih ⟨-, hord⟩ hs d m hm hreply horigin
      rcases (step_sound hs).outgoing hm with hm | hnot | ⟨hctl, p, rest, hin, hentry⟩
      · exact ih d m hm hreply horigin
      · rw [hnot] at hreply; cases hreply
      · have hnote : .reply m.origin ∈ (view p s).down := by
          obtain ⟨x, o⟩ := m
          cases x <;> simp [PeerMessage.isReply] at hreply
          simp [view, hin, downNote]
        have heq := (hord hctl p).replies _ hnote
        rw [horigin] at heq
        exact Option.some.inj (hentry.symm.trans heq.symm)

/-- Two peers; the second asks for the address book and gets it. -/
theorem replies_routed_exchange :
    ∃ s : Sys, s.wire 1 = [⟨.hello ⟨"seed"⟩, some 1⟩,
      ⟨.addressBookResponse {⟨"b"⟩, ⟨"a"⟩}, some 1⟩] ∧ ReplyRouted s 1 := by
  have hrun : ((node ⟨"seed"⟩).exec RoutesBack (init ⟨"seed"⟩)
      (join 0 ⟨"a"⟩ ++ join 1 ⟨"b"⟩ ++ [.tmReceive, .tmReceive,
        .frame 1 (.msg (.addressBookRequest ⟨"b"⟩)), .tmReceive, .dispatch,
        .command 1, .sent 1 true])).map (·.wire 1) =
      some [⟨.hello ⟨"seed"⟩, some 1⟩,
        ⟨.addressBookResponse {⟨"b"⟩, ⟨"a"⟩}, some 1⟩] := by
    decide
  obtain ⟨s, hs, hobs⟩ := Option.map_eq_some_iff.mp hrun
  exact ⟨s, hobs, replies_routed (System.run_iff.mpr hs) 1⟩

/-- Connection 0 is registered as "a"; a request read on it names "b",
who is not connected. -/
theorem misrouted_state : ((node ⟨"seed"⟩).exec System.Any (init ⟨"seed"⟩)
      (join 0 ⟨"a"⟩ ++ [.tmReceive])).bind (fun s =>
    ((node ⟨"seed"⟩).exec System.Any s
      [.frame 0 (.msg (.addressBookRequest ⟨"b"⟩)), .tmReceive]).map fun s' =>
      (decide (s.Running 0 ⟨"a"⟩), s.dispatcher.connectedPeers.lookup ⟨"a"⟩,
        s'.dispInbox, (step s' .dispatch).map (·.dispCtl))) =
    some (true, some 0, [⟨.toPeer ⟨"b"⟩ (.addressBookResponse {⟨"a"⟩}), some 0⟩],
      some .panicked) := by
  decide

/-- A request on a live, registered connection whose reply stops the
dispatcher. -/
theorem reply_misrouted :
    ¬∀ (seedNode : PeerId) (as : List Act) (s : Sys),
      (node seedNode).Run System.Any as s → ∀ c p, s.Running c p →
      s.dispatcher.connectedPeers.lookup p = some c → ∀ q bs s',
      (node seedNode).exec System.Any s
        (.frame c (.msg (.addressBookRequest q)) :: bs) = some s' →
      ReplyRouted s' c := by
  intro h
  obtain ⟨s, hs, hobs⟩ := Option.bind_eq_some_iff.mp misrouted_state
  obtain ⟨s₁, hs₁, hobs⟩ := Option.map_eq_some_iff.mp hobs
  simp only [Prod.mk.injEq, decide_eq_true_eq] at hobs
  obtain ⟨hrun, hentry, hin, hpanic⟩ := hobs
  obtain ⟨s₂, hs₂, hctl⟩ := Option.map_eq_some_iff.mp hpanic
  have hrouted := h _ _ s (System.run_iff.mpr hs) 0 _ hrun hentry _ _ _ hs₁
  rw [hrouted.handled _ _ _ _ hin hs₂] at hctl
  cases hctl

end Mt

end Reactor
