import Reactor.SnMethods
import Reactor.SnStages

/-!
# The seed node: peers and the address book

What a round of the loop does to the peers, to the address book and to the
addresses it announces, whatever comes of its I/O (`Change`): there is one
place where a peer is added, and all that can fail comes before it.

**`book_follows_peers`**: a round adds one peer, one entry for it and one
event with that entry, or removes a peer, or does nothing to any of them;
so every peer has an entry, the book grows at its end, and its entries are
the announced addresses in order.

**`book_unique_iff`** and **`book_remote_iff`**: no two entries are for
one id exactly when no peer is added whose id has an entry already, and
the entries are the addresses of the peers' ends exactly when the local
end of every stream on which a peer is added has the same address.
-/

namespace Reactor.Sn

open Program

/-! ## Effects -/

/-- The addresses announced among some calls. -/
def announced (calls : List Call) : List PeerAddr :=
  calls.filterMap fun
    | .send (.peer (.addedToAddressBook addr)) => some addr
    | _ => none

@[simp] theorem announced_nil : announced [] = [] := rfl

@[simp] theorem announced_append (cs ds : List Call) :
    announced (cs ++ ds) = announced cs ++ announced ds := List.filterMap_append

namespace Method

variable {α : Type}

/-- The node a method leaves behind, also when it fails. -/
def after (io : Io) (m : Method α) (self : SeedNode) : SeedNode :=
  match (m self).exec io with
  | .ok r => r.2
  | .error e => e.2

end Method

/-! ## Adding a peer -/

/-- The node with one more peer. -/
def SeedNode.register (self : SeedNode) (stream : TcpStream) (hello : PeerHello)
    (sock : SocketAddr) (channel : Nat) : SeedNode :=
  { self with
    peers := self.peers.insert hello.id ⟨hello.id, stream, channel⟩
    addrBook := ⟨self.addrBook.addrs ++ [⟨hello.id, sock.ip, sock.port⟩]⟩ }

/-- The I/O outcomes with which `try_add_peer` adds a peer. -/
structure Admits (io : Io) (node : SeedNode) (stream : TcpStream) (hello : PeerHello)
    (sock : SocketAddr) : Prop where
  new : hello.id ∉ node.peers
  addressed : io (.localAddr stream) = some sock
  greeted : io (.writePeerMessage stream (.hello ⟨node.id⟩)) = true
  cloned : io (.tryClone .tryAddPeer stream) = true
  sending : io (.tryClone .sendStream stream) = true
  receiving : io (.tryClone .receiveStream stream) = true

/-- `try_add_peer` adds a peer, or leaves all as it was. -/
theorem tryAddPeer_change (io : Io) (node : SeedNode) (stream : TcpStream) (hello : PeerHello) :
    (∃ sock, Admits io node stream hello sock ∧
      (Method.tryAddPeer stream hello).after io node =
        node.register stream hello sock (io (.spawn hello.id stream)) ∧
      announced ((Method.tryAddPeer stream hello node).calls io) =
        [⟨hello.id, sock.ip, sock.port⟩]) ∨
    ((∀ sock, ¬Admits io node stream hello sock) ∧
      (Method.tryAddPeer stream hello).after io node = node ∧
      announced ((Method.tryAddPeer stream hello node).calls io) = []) := by
  unfold Method.tryAddPeer Method.after
  by_cases hid : hello.id ∈ node.peers
  · exact .inr ⟨fun _ h => h.new hid, by simp [hid]⟩
  simp only [Method.bind_apply, Method.get_apply, ret_bind, Method.ite_apply, if_neg hid,
    Method.call_apply, call_bind, exec_call, calls_call]
  cases haddr : io (.localAddr stream) with
  | none => exact .inr ⟨fun _ h => by simpa [haddr] using h.addressed, rfl, rfl⟩
  | some sock =>
      simp only [Method.sayHelloToPeer, Method.bind_apply, Method.get_apply, ret_bind,
        Method.call_apply, call_bind, exec_call, calls_call]
      cases hgreeted : io (.writePeerMessage stream (.hello ⟨node.id⟩))
      · exact .inr ⟨fun _ h => by simpa [hgreeted] using h.greeted, rfl, rfl⟩
      simp only [Method.orFail_apply, if_true, ret_bind, exec_call, calls_call]
      cases hcloned : io (.tryClone .tryAddPeer stream)
      · exact .inr ⟨fun _ h => by simpa [hcloned] using h.cloned, rfl, rfl⟩
      simp only [if_true, ret_bind, Method.shared, RemotePeer.new, tryClone_bind, bimap_call,
        call_bind, exec_call, calls_call]
      cases hsending : io (.tryClone .sendStream stream)
      · exact .inr ⟨fun _ h => by simpa [hsending] using h.sending, rfl, rfl⟩
      simp only [if_true, bimap_call, call_bind, exec_call, calls_call]
      cases hreceiving : io (.tryClone .receiveStream stream)
      · exact .inr ⟨fun _ h => by simpa [hreceiving] using h.receiving, rfl, rfl⟩
      exact .inl ⟨sock, ⟨hid, haddr, hgreeted, hcloned, hsending, hreceiving⟩, rfl, rfl⟩

/-! ## A round -/

/-- The I/O outcomes with which a round adds a peer: its event is
published, the peer introduces itself, and nothing fails after that. -/
structure Registers (io : Io) (node : SeedNode) (ev : Event) (stream : TcpStream)
    (hello : PeerHello) (sock : SocketAddr) : Prop where
  event : ev = .peer (.connected stream)
  clones : cloneable io .run ev ∧ cloneable io .publishEvent ev
  accepted : ∀ id notify, node.Subscribed ev id notify →
    cloneable io (.publish id) ev ∧ io (.trySend id notify ev) = .vacant
  cloned : io (.tryClone .peerConnected stream) = true
  introduced : io (.readPeerMessage stream) = some (.hello hello)
  admits : Admits io node stream hello sock

/-- What a round does to the node, with the addresses it announces. -/
inductive Change (io : Io) (node : SeedNode) (ev : Event) : SeedNode → List PeerAddr → Prop
  | same (subscriptions : Subscriptions) :
      (∀ stream hello sock, ¬Registers io node ev stream hello sock) →
      Change io node ev { node with subscriptions } []
  | added {stream : TcpStream} {hello : PeerHello} {sock : SocketAddr} :
      Registers io node ev stream hello sock →
      Change io node ev (node.register stream hello sock (io (.spawn hello.id stream)))
        [⟨hello.id, sock.ip, sock.port⟩]
  | removed {id : ID} : ev = .peer (.disconnect id) → id ∈ node.peers →
      Change io node ev { node with peers := node.peers.erase id } []
  | ended : ev = .terminate → Change io node ev { node with peers := ∅ } []

/-- Programs that put nothing in the node's channel. -/
def mute (α : Type) : Contract Call Call.Answer α Unit :=
  .flat (fun c => ∀ ev, c ≠ .send ev) fun _ => True

theorem announced_mute {α : Type} {p : Prog α} (h : p.Follows (mute α) ()) (io : Io) :
    announced (p.calls io) = [] := by
  refine List.filterMap_eq_nil_iff.mpr fun c hc => ?_
  obtain ⟨_, hmute⟩ := h.calls hc
  split
  · exact absurd rfl (hmute _)
  · rfl

theorem clone_mute (site : CloneSite) (ev : Event) : (ev.clone site).Follows (mute Unit) () := by
  unfold Event.clone
  split
  · simp [mute, Contract.flat]
  · trivial

theorem notifyAll_mute (ev : Event) (subs : HashMap SubscriptionID Notify) :
    ∀ ids : List SubscriptionID, (notifyAll ev subs ids).Follows (mute _) ()
  | [] => trivial
  | id :: ids => by
      rw [notifyAll]
      cases subs.lookup id with
      | none => exact notifyAll_mute ev subs ids
      | some notify =>
          refine (clone_mute _ ev).bind (fun _ _ h => h) rfl fun _ _ _ => ?_
          rw [trySend_bind]
          refine ⟨fun _ => by simp, fun channel => ?_⟩
          cases channel with
          | vacant => exact notifyAll_mute ev subs ids
          | full | disconnected => trivial

theorem publishEvent_mute (node : SeedNode) (ev : Event) :
    (node.publishEvent ev).Follows (mute Unit) () := by
  have hpublish : (node.subscriptions.publish ev).Follows (mute _) () := by
    unfold Subscriptions.publish
    split
    · trivial
    · split
      · trivial
      · rw [subscriptionOrder_bind]
        exact ⟨fun _ => by simp, fun it => notifyAll_mute ev _ _⟩
  refine (clone_mute _ ev).bind (fun _ _ h => h) rfl fun _ _ _ => ?_
  refine hpublish.bind (fun _ _ h => h) rfl fun _ r _ => ?_
  split <;> trivial

namespace Method

variable {α : Type} {io : Io} {node : SeedNode}

theorem shared_ok {p : SeedNode → Prog Unit} (m : Method α) (h : (p node).exec io = .ok ())
    (hmute : (p node).Follows (mute Unit) ()) :
    (shared p >>= fun _ => m).after io node = m.after io node ∧
      announced (((shared p >>= fun _ => m) node).calls io) = announced ((m node).calls io) := by
  have hexec : (shared p node).exec io = .ok ((), node) := by
    rw [shared, exec_bimap, h]
    rfl
  constructor
  · rw [after, bind_apply, exec_bind_ok io hexec]
    rfl
  · rw [bind_apply, calls_bind_ok io hexec, announced_append, shared, calls_bimap,
      announced_mute hmute, List.nil_append]

theorem shared_error {p : SeedNode → Prog Unit} (m : Method α) {e : Failure}
    (h : (p node).exec io = .error e) (hmute : (p node).Follows (mute Unit) ()) :
    (shared p >>= fun _ => m).after io node = node ∧
      announced (((shared p >>= fun _ => m) node).calls io) = [] := by
  have hexec : (shared p node).exec io = .error (e, node) := by
    rw [shared, exec_bimap, h]
    rfl
  constructor
  · rw [after, bind_apply, exec_bind_error io hexec]
  · rw [bind_apply, calls_bind_error io hexec, shared, calls_bimap, announced_mute hmute]

theorem then_pure (m : Method Unit) (left : Bool) :
    (m >>= fun _ => pure left).after io node = m.after io node ∧
      announced (((m >>= fun _ => pure left) node).calls io) = announced ((m node).calls io) := by
  unfold after
  rw [bind_apply]
  cases h : (m node).exec io with
  | ok r => exact ⟨by rw [exec_bind_ok io h]; rfl, by rw [calls_bind_ok io h]; simp⟩
  | error e => exact ⟨by rw [exec_bind_error io h], by rw [calls_bind_error io h]⟩

end Method

section Handlers

variable {io : Io} {node : SeedNode}

/-- Other events than `Connected` add nobody. -/
theorem not_registers {ev : Event} (hev : ∀ stream, ev ≠ .peer (.connected stream))
    (stream : TcpStream) (hello : PeerHello) (sock : SocketAddr) :
    ¬Registers io node ev stream hello sock := fun h => hev stream h.event

theorem peerConnected_change {stream : TcpStream}
    (hclones : cloneable io .run (.peer (.connected stream)) ∧
      cloneable io .publishEvent (.peer (.connected stream)))
    (haccepted : ∀ id notify, node.Subscribed (.peer (.connected stream)) id notify →
      cloneable io (.publish id) (.peer (.connected stream)) ∧
        io (.trySend id notify (.peer (.connected stream))) = .vacant) :
    Change io node (.peer (.connected stream)) ((Method.peerConnected stream).after io node)
      (announced ((Method.peerConnected stream node).calls io)) := by
  have hstream : ∀ {stream' hello sock},
      Registers io node (.peer (.connected stream)) stream' hello sock → stream = stream' :=
    fun h => PeerEvent.connected.inj (Event.peer.inj h.event)
  cases hcloned : io (.tryClone .peerConnected stream) with
  | false =>
      have hafter : (Method.peerConnected stream).after io node = node := by
        simp [Method.after, Method.peerConnected, hcloned]
      have hcalls : announced ((Method.peerConnected stream node).calls io) = [] := by
        simp [Method.peerConnected, hcloned, announced]
      rw [hafter, hcalls]
      refine .same node.subscriptions fun stream' hello sock h => ?_
      obtain rfl := hstream h
      simpa [hcloned] using h.cloned
  | true =>
      have hrest : (Method.peerConnected stream).after io node =
          (Method.readPeerHello stream).after io node ∧
          announced ((Method.peerConnected stream node).calls io) =
            announced ((Method.readPeerHello stream node).calls io) := by
        simp [Method.after, Method.peerConnected, hcloned, announced]
      rw [hrest.1, hrest.2]
      by_cases hread : ∃ hello, io (.readPeerMessage stream) = some (.hello hello)
      · obtain ⟨hello, hread⟩ := hread
        have hadd : (Method.readPeerHello stream).after io node =
            (Method.tryAddPeer stream hello).after io node ∧
            announced ((Method.readPeerHello stream node).calls io) =
              announced ((Method.tryAddPeer stream hello node).calls io) := by
          simp [Method.after, Method.readPeerHello, hread, announced]
        rw [hadd.1, hadd.2]
        rcases tryAddPeer_change io node stream hello with
          ⟨sock, hadmits, hafter, hcalls⟩ | ⟨hnot, hafter, hcalls⟩
        · rw [hafter, hcalls]
          exact .added ⟨rfl, hclones, haccepted, hcloned, hread, hadmits⟩
        · rw [hafter, hcalls]
          refine .same node.subscriptions fun stream' hello' sock h => ?_
          obtain rfl := hstream h
          obtain rfl := PeerMessage.hello.inj (Option.some.inj (hread.symm.trans h.introduced))
          exact hnot sock h.admits
      · have hnone : (Method.readPeerHello stream).after io node = node ∧
            announced ((Method.readPeerHello stream node).calls io) = [] := by
          unfold Method.readPeerHello Method.after
          simp only [Method.bind_apply, Method.call_apply, call_bind, ret_bind, exec_call,
            calls_call]
          rcases hmsg : io (.readPeerMessage stream) with _ | hello | _ | _
          · exact ⟨rfl, rfl⟩
          · exact absurd ⟨hello, hmsg⟩ hread
          · exact ⟨rfl, rfl⟩
          · exact ⟨rfl, rfl⟩
        rw [hnone.1, hnone.2]
        refine .same node.subscriptions fun stream' hello sock h => ?_
        obtain rfl := hstream h
        exact hread ⟨hello, h.introduced⟩

theorem connectToPeer_change {addr : String} :
    (Method.connectToPeer addr).after io node = node ∧
      announced ((Method.connectToPeer addr node).calls io) = [] := by
  unfold Method.connectToPeer Method.sayHelloToPeer Method.after
  simp only [Method.bind_apply, Method.call_apply, call_bind, ret_bind, exec_call, calls_call]
  cases io (.connect addr) with
  | none => exact ⟨rfl, rfl⟩
  | some stream =>
      simp only [Method.bind_apply, Method.get_apply, Method.call_apply, call_bind, ret_bind,
        exec_call, calls_call]
      cases io (.writePeerMessage stream (.hello ⟨node.id⟩)) <;> exact ⟨rfl, rfl⟩

theorem disconnectAllPeers_change :
    Method.disconnectAllPeers.after io node = { node with peers := ∅ } ∧
      announced ((Method.disconnectAllPeers node).calls io) = [] := by
  have hquiet : ∀ (ids : List ID) (node : SeedNode),
      announced ((Method.disconnectEach ids node).calls io) = [] := by
    intro ids
    induction ids with
    | nil => exact fun _ => rfl
    | cons id ids ih =>
        intro node
        unfold Method.disconnectEach Method.disconnectPeer
        simp only [Method.bind_apply, Method.get_apply, ret_bind]
        cases node.peers.lookup id with
        | none => exact ih node
        | some peer => exact ih { node with peers := node.peers.erase id }
  refine ⟨?_, hquiet _ node⟩
  have hok := disconnectAllPeers_ok io node
  rw [← Method.forget_disconnectAllPeers, Method.forget, exec_bimap] at hok
  unfold Method.after
  cases hexec : (Method.disconnectAllPeers node).exec io with
  | ok r =>
      rw [hexec] at hok
      exact Except.ok.inj hok
  | error e =>
      rw [hexec] at hok
      cases hok

theorem handlePubsubEvent_change (req : PubSubRequest) :
    ∃ subscriptions, (Method.handlePubsubEvent req).after io node = { node with subscriptions } ∧
      announced ((Method.handlePubsubEvent req node).calls io) = [] := by
  cases req with
  | subscribe subs =>
      unfold Method.handlePubsubEvent Method.handleSubscribe Method.shared Method.after
      simp only [Method.bind_apply, Method.call_apply, call_bind, ret_bind, exec_call, calls_call]
      cases node.subscriptions.add (io .eventIdOrder subs.id) subs with
      | none => exact ⟨node.subscriptions, rfl, rfl⟩
      | some r => exact ⟨r.2, rfl, rfl⟩
  | unsubscribe ids =>
      unfold Method.handlePubsubEvent Method.handleUnsubscribe Method.shared Method.after
      simp only [Method.bind_apply, Method.call_apply, call_bind, ret_bind, exec_call, calls_call]
      cases node.subscriptions.removeAll (io .subscriptionOrder) (io .eventIdOrder) ids with
      | none => exact ⟨node.subscriptions, rfl, rfl⟩
      | some subscriptions => exact ⟨subscriptions, rfl, rfl⟩

end Handlers

/-- What the round does once its event is published. -/
theorem handleEvent_change (io : Io) (node : SeedNode) (ev : Event)
    (hclones : cloneable io .run ev ∧ cloneable io .publishEvent ev)
    (haccepted : ∀ id notify, node.Subscribed ev id notify →
      cloneable io (.publish id) ev ∧ io (.trySend id notify ev) = .vacant) :
    Change io node ev ((Method.handleEvent ev).after io node)
      (announced ((Method.handleEvent ev node).calls io)) := by
  cases ev with
  | peer pe =>
      obtain ⟨hafter, hcalls⟩ := Method.then_pure (Method.handlePeerEvent pe) false
      rw [Method.handleEvent, hafter, hcalls]
      cases pe with
      | connected stream => exact peerConnected_change hclones haccepted
      | connect addr =>
          obtain ⟨hafter, hcalls⟩ := @connectToPeer_change io node addr
          rw [Method.handlePeerEvent, hafter, hcalls]
          exact .same node.subscriptions (not_registers (by simp))
      | disconnect id =>
          rw [Method.handlePeerEvent]
          unfold Method.disconnectPeer Method.after
          simp only [Method.bind_apply, Method.get_apply, ret_bind]
          cases hl : node.peers.lookup id with
          | none => exact .same node.subscriptions (not_registers (by simp))
          | some peer => exact .removed rfl (Finmap.mem_of_lookup_eq_some hl)
      | addedToAddressBook _ | receivedMessage _ _ | sendMessage _ _ =>
          exact .same node.subscriptions (not_registers (by simp))
  | pubSub req =>
      obtain ⟨hafter, hcalls⟩ := Method.then_pure (Method.handlePubsubEvent req) false
      obtain ⟨subscriptions, hafter', hcalls'⟩ := handlePubsubEvent_change req
      rw [Method.handleEvent, hafter, hcalls, hafter', hcalls']
      exact .same subscriptions (not_registers (by simp))
  | terminate =>
      obtain ⟨hafter, hcalls⟩ := Method.then_pure Method.disconnectAllPeers true
      rw [Method.handleEvent, hafter, hcalls, disconnectAllPeers_change.1,
        disconnectAllPeers_change.2]
      exact .ended rfl

/-- **A round.** -/
theorem turn_change (io : Io) (node : SeedNode) (ev : Event) :
    Change io node ev ((Method.turn ev).after io node)
      (announced ((Method.turn ev node).calls io)) := by
  have hclone := exec_clone io .run ev
  have hpublish := exec_publishEvent io node ev
  unfold Method.turn
  by_cases hrun : cloneable io .run ev
  · rw [if_pos hrun] at hclone
    obtain ⟨hafter, hcalls⟩ := Method.shared_ok (p := fun _ => ev.clone .run)
      (Method.shared (·.publishEvent ev) >>= fun _ => Method.handleEvent ev) hclone
      (clone_mute .run ev)
    rw [hafter, hcalls]
    cases hexec : (node.publishEvent ev).exec io with
    | ok u =>
        obtain ⟨hafter, hcalls⟩ := Method.shared_ok (p := (·.publishEvent ev))
          (Method.handleEvent ev) hexec (publishEvent_mute node ev)
        rw [hafter, hcalls]
        obtain ⟨hpub, haccepted⟩ := hpublish.mp hexec
        exact handleEvent_change io node ev ⟨hrun, hpub⟩ haccepted
    | error e =>
        obtain ⟨hafter, hcalls⟩ := Method.shared_error (p := (·.publishEvent ev))
          (Method.handleEvent ev) hexec (publishEvent_mute node ev)
        rw [hafter, hcalls]
        refine .same node.subscriptions fun stream hello sock h => ?_
        rw [hpublish.mpr ⟨h.clones.2, h.accepted⟩] at hexec
        cases hexec
  · rw [if_neg hrun] at hclone
    obtain ⟨hafter, hcalls⟩ := Method.shared_error (p := fun _ => ev.clone .run)
      (Method.shared (·.publishEvent ev) >>= fun _ => Method.handleEvent ev) hclone
      (clone_mute .run ev)
    rw [hafter, hcalls]
    exact .same node.subscriptions fun _ _ _ h => hrun h.clones.1

/-! ## Runs -/

/-- Where `run` is, with the node in every case. -/
inductive Course
  | running (node : SeedNode)
  | returned (node : SeedNode)
  | failed (e : Failure) (node : SeedNode)

namespace Course

def node : Course → SeedNode
  | running node | returned node | failed _ node => node

def step : Course → Round → Option Course
  | running node, a =>
      match (Method.turn a.ev node).exec a.io with
      | .ok (false, node) => some (running node)
      | .ok (true, node) => some (returned node)
      | .error (e, node) => some (failed e node)
  | _, _ => none

/-- Without the node of a failure. -/
def forget : Course → Loop
  | running node => .running node
  | returned node => .returned node
  | failed e _ => .failed e

/-- The addresses a round announces. -/
def announces : Course → Round → List PeerAddr
  | running node, a => announced ((Method.turn a.ev node).calls a.io)
  | _, _ => []

end Course

/-- `SeedNode::run` on a new node, as `loop`, but for the node of a failure. -/
def course (id : ID) : System Course Round := ⟨.running (.new id), Course.step⟩

open Reactor.System (Any)

theorem Course.step_forget (s : Course) (a : Round) :
    Loop.step s.forget a = (s.step a).map Course.forget := by
  cases s with
  | returned _ | failed _ _ => rfl
  | running node =>
      have hturn := Method.forget_turn node a.ev
      simp only [Course.forget, Loop.step, Course.step, ← hturn, Method.forgetTurn, exec_bimap]
      rcases (Method.turn a.ev node).exec a.io with ⟨e, node'⟩ | ⟨left, node'⟩
      · rfl
      · cases left <;> rfl

/-- The loop and the course of a node run alike. -/
theorem course_refines {id : ID} {as : List Round} {s : Course} (h : (course id).Run Any as s) :
    (loop id).Run Any as s.forget := by
  induction h with
  | nil => exact .nil
  | @snoc as s s' a _ _ hstep ih =>
      refine .snoc ih trivial ?_
      show Loop.step s.forget a = _
      rw [Course.step_forget, show s.step a = some s' from hstep]
      rfl

/-- What a step does is a change. -/
theorem Course.step_change {s s' : Course} {a : Round} (h : s.step a = some s') :
    ∃ node, s = .running node ∧ Change a.io node a.ev s'.node (s.announces a) := by
  cases s with
  | returned _ | failed _ _ => cases h
  | running node =>
      refine ⟨node, rfl, ?_⟩
      have hchange := turn_change a.io node a.ev
      have hnode : s'.node = (Method.turn a.ev).after a.io node := by
        simp only [Course.step] at h
        unfold Method.after
        split at h <;> cases h <;> next hexec => rw [hexec]; rfl
      rw [hnode]
      exact hchange

/-! ## Peers and their entries -/

section Change

variable {io : Io} {node node' : SeedNode} {ev : Event} {out : List PeerAddr}

/-- The book grows at its end, by what is announced. -/
theorem Change.addrs (h : Change io node ev node' out) :
    node'.addrBook.addrs = node.addrBook.addrs ++ out := by
  cases h with
  | added _ => rfl
  | same _ _ | removed _ _ | ended _ => exact (List.append_nil _).symm

/-- A peer has been there before, or is announced. -/
theorem Change.mem_peers (h : Change io node ev node' out) {key : ID} (hkey : key ∈ node'.peers) :
    key ∈ node.peers ∨ ∃ addr ∈ out, addr.id = key := by
  cases h with
  | same _ _ => exact .inl hkey
  | @added stream hello sock _ =>
      rcases Finmap.mem_insert.mp hkey with rfl | hkey
      · exact .inr ⟨_, List.mem_singleton_self _, rfl⟩
      · exact .inl hkey
  | removed _ _ => exact .inl (Finmap.mem_erase.mp hkey).2
  | ended _ => exact absurd hkey Finmap.notMem_empty

/-- One peer more, one entry for it at the end, and one event with it. -/
def Adds (node node' : SeedNode) (out : List PeerAddr) : Prop :=
  ∃ addr peer, addr.id ∉ node.peers ∧ node'.peers = node.peers.insert addr.id peer ∧
    node'.addrBook.addrs = node.addrBook.addrs ++ [addr] ∧ out = [addr]

/-- One peer less. -/
def Removes (node node' : SeedNode) (out : List PeerAddr) : Prop :=
  ∃ id ∈ node.peers, node'.peers = node.peers.erase id ∧ node'.addrBook = node.addrBook ∧ out = []

/-- The same peers. -/
def Spares (node node' : SeedNode) (out : List PeerAddr) : Prop :=
  node'.peers = node.peers ∧ node'.addrBook = node.addrBook ∧ out = []

/-- One of three, and not another one. -/
def ExactlyOne (p q r : Prop) : Prop :=
  (p ∧ ¬q ∧ ¬r) ∨ (¬p ∧ q ∧ ¬r) ∨ (¬p ∧ ¬q ∧ r)

theorem not_adds_nil : ¬Adds node node' [] := by
  rintro ⟨_, _, -, -, -, h⟩
  cases h

theorem Spares.not_removes (h : Spares node node' out) : ¬Removes node node' out := by
  rintro ⟨id, hid, hpeers, -, -⟩
  rw [← h.1, hpeers] at hid
  exact (Finmap.mem_erase.mp hid).1 rfl

theorem Change.exactlyOne (h : Change io node ev node' out) (hev : ev ≠ .terminate) :
    ExactlyOne (Adds node node' out) (Removes node node' out) (Spares node node' out) := by
  cases h with
  | same subscriptions _ =>
      have hspares : Spares node { node with subscriptions } [] := ⟨rfl, rfl, rfl⟩
      exact .inr (.inr ⟨not_adds_nil, hspares.not_removes, hspares⟩)
  | @added stream hello sock hreg =>
      refine .inl ⟨⟨_, _, hreg.admits.new, rfl, rfl, rfl⟩, ?_, ?_⟩
      · rintro ⟨_, _, -, -, h⟩
        cases h
      · rintro ⟨-, -, h⟩
        cases h
  | @removed id _ hid =>
      have hremoves : Removes node { node with peers := node.peers.erase id } [] :=
        ⟨id, hid, rfl, rfl, rfl⟩
      exact .inr (.inl ⟨not_adds_nil, hremoves, fun h => h.not_removes hremoves⟩)
  | ended hend => exact absurd hend hev

end Change

/-- What a run announces, in order. -/
def announcements (id : ID) (as : List Round) : List PeerAddr :=
  (course id).outputs Course.announces (course id).init as

/-- Every peer has an entry, and the entries are the announced ones. -/
structure Booked (id : ID) (as : List Round) (s : Course) : Prop where
  entry : ∀ key ∈ s.node.peers, ∃ addr ∈ s.node.addrBook.addrs, addr.id = key
  addrs : announcements id as = s.node.addrBook.addrs

theorem booked {id : ID} {G : Course → Round → Prop} {as : List Round} {s : Course}
    (h : (course id).Run G as s) : Booked id as s := by
  induction h with
  | nil => exact ⟨fun key hkey => absurd hkey Finmap.notMem_empty, rfl⟩
  | @snoc as s s' a hrun _ hstep ih =>
      obtain ⟨node, rfl, hchange⟩ := Course.step_change hstep
      have hnode : (Course.running node).node = node := rfl
      constructor
      · intro key hkey
        rw [hchange.addrs]
        rcases hchange.mem_peers hkey with hold | ⟨addr, haddr, hid⟩
        · obtain ⟨addr, haddr, hid⟩ := ih.entry key hold
          exact ⟨addr, List.mem_append_left _ haddr, hid⟩
        · exact ⟨addr, List.mem_append_right _ haddr, hid⟩
      · rw [announcements, hrun.outputs_snoc, hchange.addrs]
        exact congrArg (· ++ _) ih.addrs

theorem addrs_prefix {id : ID} {as bs : List Round} {s t : Course}
    (h : (course id).Run Any as s) (hpre : bs <+: as) (ht : (course id).Run Any bs t) :
    t.node.addrBook.addrs <+: s.node.addrBook.addrs := by
  induction h with
  | nil =>
      obtain rfl := List.prefix_nil.mp hpre
      rw [ht.unique (System.Run.nil (G := Any))]
  | @snoc as s s' a hrun _ hstep ih =>
      rcases List.prefix_concat_iff.mp hpre with rfl | hpre
      · rw [ht.unique (.snoc hrun trivial hstep)]
      · obtain ⟨node, rfl, hchange⟩ := Course.step_change hstep
        rw [hchange.addrs]
        exact (ih hpre).trans (List.prefix_append _ _)

/-- **Peers and book together.** In every reachable state, and for all
outcomes of the I/O: a round other than the last adds a peer with its entry
and its event, or removes one, or leaves all three as they are. So every
peer has an entry, the book has only ever grown at its end, and it lists
the announced addresses. -/
theorem book_follows_peers {id : ID} {as : List Round} {s : Course}
    (h : (course id).Run Any as s) :
    (∀ node, s = .running node → ∀ a : Round, a.ev ≠ .terminate →
      ∃ s', (course id).step s a = some s' ∧
        ExactlyOne (Adds node s'.node (s.announces a)) (Removes node s'.node (s.announces a))
          (Spares node s'.node (s.announces a))) ∧
    (∀ key ∈ s.node.peers, ∃ addr ∈ s.node.addrBook.addrs, addr.id = key) ∧
    (∀ bs t, bs <+: as → (course id).Run Any bs t →
      t.node.addrBook.addrs <+: s.node.addrBook.addrs) ∧
    announcements id as = s.node.addrBook.addrs := by
  refine ⟨?_, (booked h).entry, fun bs t => addrs_prefix h, (booked h).addrs⟩
  rintro node rfl a hev
  obtain ⟨s', hstep⟩ : ∃ s', (Course.running node).step a = some s' := by
    simp only [Course.step]
    split <;> exact ⟨_, rfl⟩
  obtain ⟨node', hnode', hchange⟩ := Course.step_change hstep
  obtain rfl := Course.running.inj hnode'
  exact ⟨s', hstep, hchange.exactlyOne hev⟩

/-- The peer at the other end introduces itself. -/
def Io.introduced (hello : PeerHello) : Io
  | .readPeerMessage _ => some (.hello hello)
  | .localAddr _ => some ⟨.localhost, 29001⟩
  | c => Io.calm c

/-- A peer connects and leaves. -/
def shortVisit : List Round :=
  [⟨.peer (.connected ⟨0, .listener⟩), .introduced ⟨"2"⟩⟩, ⟨.peer (.disconnect "2"), .calm⟩]

/-- The entry stays. -/
theorem book_follows_peers_shortVisit : ∃ s, (course "1").Run Any shortVisit s ∧
    s.node.peers = ∅ ∧ s.node.addrBook.addrs = [⟨"2", .localhost, 29001⟩] := by
  have h : ((course "1").exec Any (course "1").init shortVisit).map (fun s =>
      (decide (s.node.peers = ∅), announcements "1" shortVisit)) =
        some (true, [⟨"2", .localhost, 29001⟩]) := by
    decide
  obtain ⟨s, hs, hproj⟩ := Option.map_eq_some_iff.mp h
  have hrun := System.run_iff.mpr hs
  obtain ⟨-, -, -, hbook⟩ := book_follows_peers hrun
  rw [hbook] at hproj
  simp only [Prod.mk.injEq, decide_eq_true_eq] at hproj
  exact ⟨s, hrun, hproj⟩

/-! ## One entry for each id -/

section Registers

variable {io : Io} {node node' : SeedNode} {ev : Event} {out : List PeerAddr}
  {stream : TcpStream} {hello : PeerHello} {sock : SocketAddr}

/-- Outcomes that add a peer leave the round no choice. -/
theorem Change.of_registers (h : Change io node ev node' out)
    (hreg : Registers io node ev stream hello sock) :
    node'.addrBook.addrs = node.addrBook.addrs ++ [⟨hello.id, sock.ip, sock.port⟩] ∧
      out = [⟨hello.id, sock.ip, sock.port⟩] := by
  cases h with
  | same _ hnot => exact absurd hreg (hnot stream hello sock)
  | @added stream' hello' sock' hreg' =>
      obtain rfl := PeerEvent.connected.inj (Event.peer.inj (hreg.event.symm.trans hreg'.event))
      obtain rfl := PeerMessage.hello.inj
        (Option.some.inj (hreg.introduced.symm.trans hreg'.introduced))
      obtain rfl := Option.some.inj (hreg.admits.addressed.symm.trans hreg'.admits.addressed)
      exact ⟨rfl, rfl⟩
  | removed hev _ =>
      rw [hreg.event] at hev
      cases hev
  | ended hev =>
      rw [hreg.event] at hev
      cases hev

end Registers

/-- A peer that is added has no entry yet. -/
def Course.Unlisted : Course → Round → Prop
  | .running node, a => ∀ stream hello sock, Registers a.io node a.ev stream hello sock →
      ∀ addr ∈ node.addrBook.addrs, addr.id ≠ hello.id
  | _, _ => True

/-- No id has two entries. -/
def Unique (s : Course) : Prop := (s.node.addrBook.addrs.map PeerAddr.id).Nodup

theorem Change.unique {io : Io} {node node' : SeedNode} {ev : Event} {out : List PeerAddr}
    (h : Change io node ev node' out) (hnodup : (node.addrBook.addrs.map PeerAddr.id).Nodup)
    (hnew : ∀ stream hello sock, Registers io node ev stream hello sock →
      ∀ addr ∈ node.addrBook.addrs, addr.id ≠ hello.id) :
    (node'.addrBook.addrs.map PeerAddr.id).Nodup := by
  cases h with
  | same _ _ | removed _ _ | ended _ => exact hnodup
  | @added stream hello sock hreg =>
      have hid : hello.id ∉ node.addrBook.addrs.map PeerAddr.id := by
        rintro hmem
        obtain ⟨addr, haddr, hsame⟩ := List.mem_map.mp hmem
        exact hnew stream hello sock hreg addr haddr hsame
      rw [SeedNode.register, List.map_append, List.map_singleton]
      exact hnodup.append (List.nodup_singleton _) (by simpa using hid)

/-- **One entry for each id.** In all states of a run no id has two entries
exactly when no peer was added that had an entry already. -/
theorem book_unique_iff {id : ID} {as : List Round} {s : Course} (h : (course id).Run Any as s) :
    (course id).Run Course.Unlisted as s ↔
      ∀ bs t, bs <+: as → (course id).Run Any bs t → Unique t := by
  refine System.Run.guarded_iff (P := fun _ t => Unique t) ?_ ?_ h
  · intro as s hrun
    refine hrun.invariant Unique List.nodup_nil ?_
    intro s a s' hs hguard hstep
    obtain ⟨node, rfl, hchange⟩ := Course.step_change hstep
    exact hchange.unique hs hguard
  · intro as s a s' _ hguard hstep hunique
    obtain ⟨node, rfl, hchange⟩ := Course.step_change hstep
    simp only [Course.Unlisted] at hguard
    push Not at hguard
    obtain ⟨stream, hello, sock, hreg, addr, haddr, hid⟩ := hguard
    rw [Unique, (hchange.of_registers hreg).1, List.map_append, List.nodup_append] at hunique
    exact hunique.2.2 _ (List.mem_map_of_mem haddr) _ (by simp) hid

theorem book_unique_iff_shortVisit : ∃ s, (course "1").Run Course.Unlisted shortVisit s := by
  have h : ((course "1").exec Any (course "1").init shortVisit).map (fun s =>
      s.node.addrBook.addrs) = some [⟨"2", .localhost, 29001⟩] := by
    decide
  obtain ⟨s, hs, hbook⟩ := Option.map_eq_some_iff.mp h
  have hrun := System.run_iff.mpr hs
  refine ⟨s, (book_unique_iff hrun).mpr fun bs t hpre ht => ?_⟩
  have hbegins := addrs_prefix hrun hpre ht
  rw [hbook] at hbegins
  exact (hbegins.sublist.map PeerAddr.id).nodup (List.nodup_singleton _)

/-- A peer that comes back gets another entry. -/
theorem returning_peer_listed_twice : ∃ s, (course "1").Run Any
    (shortVisit ++ [⟨.peer (.connected ⟨1, .listener⟩), .introduced ⟨"2"⟩⟩]) s ∧ ¬Unique s := by
  have h : ((course "1").exec Any (course "1").init
      (shortVisit ++ [⟨.peer (.connected ⟨1, .listener⟩), .introduced ⟨"2"⟩⟩])).map (fun s =>
        s.node.addrBook.addrs.map PeerAddr.id) = some ["2", "2"] := by
    decide
  obtain ⟨s, hs, hproj⟩ := Option.map_eq_some_iff.mp h
  refine ⟨s, System.run_iff.mpr hs, ?_⟩
  rw [Unique, hproj]
  decide

/-! ## Whose address it is -/

/-- The peer a round adds, and the stream on which it introduced itself. -/
def Course.registers (s : Course) (a : Round) : List (PeerHello × TcpStream) :=
  match a.ev with
  | .peer (.connected stream) =>
      match a.io (.readPeerMessage stream) with
      | some (.hello hello) => (s.announces a).map fun _ => (hello, stream)
      | _ => []
  | _ => []

/-- The addresses of the `AddedToAddressBook` events sent to subscribers. -/
def Course.publishes : Course → Round → List PeerAddr
  | .running node, a => ((Method.turn a.ev node).calls a.io).filterMap fun
      | .trySend _ _ (.peer (.addedToAddressBook addr)) => some addr
      | _ => none
  | _, _ => []

/-- The peers a run adds, in order. -/
def registrations (id : ID) (as : List Round) : List (PeerHello × TcpStream) :=
  (course id).outputs Course.registers (course id).init as

def publications (id : ID) (as : List Round) : List PeerAddr :=
  (course id).outputs Course.publishes (course id).init as

/-- An `AddedToAddressBook` in the channel is one that the node has put
there. -/
def Course.Own (s : Course) (a : Round) : Prop :=
  ∀ addr, a.ev = .peer (.addedToAddressBook addr) → addr ∈ s.node.addrBook.addrs

/-- The entry for a peer, with the address of its own end of the stream. -/
def remoteAddr (remote : TcpStream → SocketAddr) (r : PeerHello × TcpStream) : PeerAddr :=
  ⟨r.1.id, (remote r.2).ip, (remote r.2).port⟩

/-- The entries, the events enqueued and those published are for the
peers' own addresses. -/
structure Remote (remote : TcpStream → SocketAddr) (id : ID) (as : List Round) (s : Course) :
    Prop where
  entries : s.node.addrBook.addrs = (registrations id as).map (remoteAddr remote)
  enqueued : announcements id as = (registrations id as).map (remoteAddr remote)
  published : (course id).Run Course.Own as s →
    ∀ addr ∈ publications id as, ∃ r ∈ registrations id as, addr = remoteAddr remote r

/-- The stream on which a peer is added has the same address at both ends. -/
def Course.SameEnds (remote : TcpStream → SocketAddr) : Course → Round → Prop
  | .running node, a => ∀ stream hello sock, Registers a.io node a.ev stream hello sock →
      sock = remote stream
  | _, _ => True

/-- Who is registered is whose address is announced. -/
theorem Course.step_registers {s s' : Course} {a : Round} (h : s.step a = some s') :
    ∃ node, s = .running node ∧
      s'.node.addrBook.addrs = node.addrBook.addrs ++ s.announces a ∧
      ((s.announces a = [] ∧ s.registers a = []) ∨
        ∃ stream hello sock, Registers a.io node a.ev stream hello sock ∧
          s.announces a = [⟨hello.id, sock.ip, sock.port⟩] ∧
          s.registers a = [(hello, stream)]) := by
  obtain ⟨node, rfl, hchange⟩ := Course.step_change h
  refine ⟨node, rfl, hchange.addrs, ?_⟩
  by_cases hreg : ∃ stream hello sock, Registers a.io node a.ev stream hello sock
  · obtain ⟨stream, hello, sock, hreg⟩ := hreg
    obtain ⟨-, hout⟩ := hchange.of_registers hreg
    refine .inr ⟨stream, hello, sock, hreg, hout, ?_⟩
    simp only [Course.registers, hreg.event, hreg.introduced, hout]
    rfl
  · have hout : (Course.running node).announces a = [] := by
      generalize (Course.running node).announces a = out, s'.node = node' at hchange
      cases hchange with
      | added hreg' => exact absurd ⟨_, _, _, hreg'⟩ hreg
      | same _ _ | removed _ _ | ended _ => rfl
    refine .inl ⟨hout, ?_⟩
    unfold Course.registers
    rw [hout]
    split
    · split <;> rfl
    · rfl

/-- What is published is the event that is taken. -/
theorem Course.publishes_taken {s : Course} {a : Round} {addr : PeerAddr}
    (h : addr ∈ s.publishes a) : a.ev = .peer (.addedToAddressBook addr) := by
  cases s with
  | returned _ | failed _ _ => cases h
  | running node =>
      obtain ⟨c, hc, haddr⟩ := List.mem_filterMap.mp h
      have hcalls : c ∈ (node.turn a.ev).calls a.io := by
        rw [← Method.forget_turn, Method.forgetTurn, calls_bimap]
        exact hc
      split at haddr
      · obtain ⟨_, -, hev⟩ := (turn_follows node a.ev).calls hcalls
        rw [← hev, Option.some.inj haddr]
      · cases haddr

section Remote

variable {remote : TcpStream → SocketAddr} {id : ID} {as : List Round} {s s' : Course} {a : Round}

theorem registrations_snoc {G : Course → Round → Prop} (h : (course id).Run G as s) (a : Round) :
    registrations id (as ++ [a]) = registrations id as ++ s.registers a := h.outputs_snoc a

theorem publications_snoc {G : Course → Round → Prop} (h : (course id).Run G as s) (a : Round) :
    publications id (as ++ [a]) = publications id as ++ s.publishes a := h.outputs_snoc a

/-- With the same address at both ends, it does not matter whose is taken. -/
theorem entries_remote (h : (course id).Run (Course.SameEnds remote) as s) :
    s.node.addrBook.addrs = (registrations id as).map (remoteAddr remote) := by
  induction h with
  | nil => rfl
  | @snoc as s s' a hrun hguard hstep ih =>
      obtain ⟨node, rfl, haddrs, hout⟩ := Course.step_registers hstep
      rw [haddrs, registrations_snoc hrun, List.map_append, ← ih]
      rcases hout with ⟨hout, hregs⟩ | ⟨stream, hello, sock, hreg, hout, hregs⟩
      · rw [hout, hregs]
        rfl
      · obtain rfl := hguard stream hello sock hreg
        rw [hout, hregs]
        rfl

theorem remote_of_sameEnds (h : (course id).Run (Course.SameEnds remote) as s) :
    Remote remote id as s := by
  refine ⟨entries_remote h, (booked h).addrs.trans (entries_remote h), fun hown => ?_⟩
  induction h with
  | nil => exact fun addr haddr => absurd haddr List.not_mem_nil
  | @snoc as s s' a hrun hguard hstep ih =>
      obtain ⟨s₁, hown, htaken, -⟩ := hown.unsnoc
      obtain rfl := hrun.unique hown
      intro addr haddr
      rw [publications_snoc hrun] at haddr
      have hold : addr ∈ (registrations id as).map (remoteAddr remote) := by
        rcases List.mem_append.mp haddr with haddr | haddr
        · obtain ⟨r, hr, hsame⟩ := ih hown addr haddr
          exact List.mem_map.mpr ⟨r, hr, hsame.symm⟩
        · rw [← entries_remote hrun]
          exact htaken addr (Course.publishes_taken haddr)
      obtain ⟨r, hr, hsame⟩ := List.mem_map.mp hold
      rw [registrations_snoc hrun]
      exact ⟨r, List.mem_append_left _ hr, hsame.symm⟩

end Remote

/-- **Whose address it is.** In all states of a run the entries of the
book, and the events for them, have the addresses of the peers' ends
exactly when every stream on which a peer was added has the same address
at the node's end. -/
theorem book_remote_iff (remote : TcpStream → SocketAddr) {id : ID} {as : List Round} {s : Course}
    (h : (course id).Run Any as s) :
    (course id).Run (Course.SameEnds remote) as s ↔
      ∀ bs t, bs <+: as → (course id).Run Any bs t → Remote remote id bs t := by
  refine System.Run.guarded_iff (fun _ _ => remote_of_sameEnds) ?_ h
  intro as s a s' hrun hguard (hstep : s.step a = some s') hremote
  obtain ⟨node, rfl, haddrs, -⟩ := Course.step_registers hstep
  simp only [Course.SameEnds] at hguard
  push Not at hguard
  obtain ⟨stream, hello, sock, hreg, hdiffer⟩ := hguard
  obtain ⟨_, hnode, hchange⟩ := Course.step_change hstep
  obtain rfl := Course.running.inj hnode
  obtain ⟨-, hout⟩ := hchange.of_registers hreg
  have hregs : (Course.running node).registers a = [(hello, stream)] := by
    simp only [Course.registers, hreg.event, hreg.introduced, hout]
    rfl
  have hentries := hremote.entries
  rw [haddrs, registrations_snoc hrun, List.map_append, ← entries_remote hrun, hout,
    hregs] at hentries
  have hsame := List.append_cancel_left hentries
  simp only [List.map_singleton, remoteAddr, List.cons.injEq, PeerAddr.mk.injEq, true_and,
    and_true] at hsame
  exact hdiffer (congrArg₂ SocketAddr.mk hsame.1 hsame.2)

/-- A stream from the node's own address to itself. -/
theorem book_remote_iff_loopback : ∃ s, (course "1").Run Any (shortVisit.take 1) s ∧
    Remote (fun _ => ⟨.localhost, 29001⟩) "1" (shortVisit.take 1) s := by
  have h : ((course "1").exec Any (course "1").init (shortVisit.take 1)).isSome := by
    decide
  obtain ⟨s, hs⟩ := Option.isSome_iff_exists.mp h
  have hrun := System.run_iff.mpr hs
  obtain ⟨-, s₁, hstep, hnil⟩ := System.run_cons.mp hrun
  have hguard : Course.SameEnds (fun _ => ⟨.localhost, 29001⟩) (course "1").init
      ⟨.peer (.connected ⟨0, .listener⟩), .introduced ⟨"2"⟩⟩ :=
    fun _ _ _ hreg => (Option.some.inj hreg.admits.addressed).symm
  obtain rfl := (System.Run.nil (S := (course "1").startAt s₁) (G := Any)).unique hnil
  have hsame := System.run_cons.mpr ⟨hguard, s₁, hstep, .nil⟩
  exact ⟨s₁, hrun, (book_remote_iff _ hrun).mp hsame _ s₁ (List.prefix_refl _) hrun⟩

/-- A peer is listed under the node's own address. -/
theorem own_address_listed : ∃ s, (course "1").Run Any (shortVisit.take 1) s ∧
    ¬Remote (fun _ => ⟨.localhost, 54321⟩) "1" (shortVisit.take 1) s := by
  have h : ((course "1").exec Any (course "1").init (shortVisit.take 1)).map (fun s =>
      (s.node.addrBook.addrs, registrations "1" (shortVisit.take 1))) =
        some ([⟨"2", .localhost, 29001⟩], [(⟨"2"⟩, ⟨0, .listener⟩)]) := by
    decide
  obtain ⟨s, hs, hproj⟩ := Option.map_eq_some_iff.mp h
  obtain ⟨hbook, hregs⟩ := Prod.mk.inj hproj
  refine ⟨s, System.run_iff.mpr hs, fun hremote => ?_⟩
  have hentries := hremote.entries
  rw [hbook, hregs] at hentries
  exact absurd hentries (by decide)

end Reactor.Sn
