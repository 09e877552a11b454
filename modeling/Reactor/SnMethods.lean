import Reactor.SnLoop

/-!
# The seed node: methods

The methods of `SeedNode` borrow the node mutably, and what one of them
has done to it before it fails stays done. The programs of `SnNode` return
the node, or fail without one; here they are once more, statement for
statement, with the node kept in either case. `forget_turn`: apart from
that they are the same.
-/

namespace Reactor.Sn

open Program

/-- A method on `&mut self`. It fails with the node as it is by then. -/
abbrev Method (α : Type) : Type :=
  StateT SeedNode (Program Call Call.Answer (Failure × SeedNode)) α

namespace Method

variable {α β : Type}

def call (c : Call) : Method c.Answer := fun self => .call c fun r => .ret (r, self)

def fail (e : Failure) : Method α := fun self => .stop (e, self)

/-- The `?` operator on the result of an I/O call. -/
def orFail : Bool → Method Unit
  | true => pure ()
  | false => fail .io

/-- What a method with `&self` does. -/
def shared (p : SeedNode → Prog α) : Method α :=
  fun self => (p self).bimap (·, self) (·, self)

section Apply

variable (self : SeedNode)

@[simp] theorem pure_apply (a : α) : (pure a : Method α) self = .ret (a, self) := rfl

@[simp] theorem bind_apply (m : Method α) (f : α → Method β) :
    (m >>= f) self = m self >>= fun r => f r.1 r.2 := rfl

@[simp] theorem get_apply : (get : Method SeedNode) self = .ret (self, self) := rfl

@[simp] theorem modify_apply (f : SeedNode → SeedNode) :
    (modify f : Method Unit) self = .ret ((), f self) := rfl

@[simp] theorem call_apply (c : Call) :
    call c self = .call c fun r => .ret (r, self) := rfl

@[simp] theorem fail_apply (e : Failure) : (fail e : Method α) self = .stop (e, self) := rfl

@[simp] theorem orFail_apply (ok : Bool) :
    orFail ok self = if ok then .ret ((), self) else .stop (.io, self) := by
  cases ok <;> rfl

@[simp] theorem ite_apply (c : Prop) [Decidable c] (m m' : Method α) :
    (if c then m else m') self = if c then m self else m' self := by
  split <;> rfl

end Apply

def sayHelloToPeer (stream : TcpStream) : Method Unit := do
  orFail (← call (.writePeerMessage stream (.hello ⟨(← get).id⟩)))

def tryAddPeer (stream : TcpStream) (hello : PeerHello) : Method Unit := do
  if hello.id ∈ (← get).peers then
    pure ()
  else do
    match ← call (.localAddr stream) with
    | none => pure ()
    | some peerSockaddr => do
        let peerAddr : PeerAddr := ⟨hello.id, peerSockaddr.ip, peerSockaddr.port⟩
        sayHelloToPeer stream
        orFail (← call (.tryClone .tryAddPeer stream))
        match ← shared fun _ => RemotePeer.new hello.id stream with
        | none => pure ()
        | some remotePeer => do
            modify fun self => { self with peers := self.peers.insert hello.id remotePeer }
            modify fun self => { self with addrBook := ⟨self.addrBook.addrs ++ [peerAddr]⟩ }
            call (.send (.peer (.addedToAddressBook peerAddr)))

def readPeerHello (stream : TcpStream) : Method Unit := do
  match ← call (.readPeerMessage stream) with
  | some (.hello hello) => tryAddPeer stream hello
  | _ => pure ()

def peerConnected (stream : TcpStream) : Method Unit := do
  orFail (← call (.tryClone .peerConnected stream))
  readPeerHello stream

def connectToPeer (addr : String) : Method Unit := do
  match ← call (.connect addr) with
  | none => fail .io
  | some stream => do
      sayHelloToPeer stream
      call (.send (.peer (.connected stream)))

def disconnectPeer (id : ID) : Method Unit := do
  match (← get).peers.lookup id with
  | none => pure ()
  | some peer => do
      modify fun self => { self with peers := self.peers.erase id }
      call (.drop peer)

def disconnectEach : List ID → Method Unit
  | [] => pure ()
  | id :: ids => do
      disconnectPeer id
      disconnectEach ids

def disconnectAllPeers : Method Unit := do
  let it ← call .peerOrder
  disconnectEach (it.order (← get).peers.keys)

def handlePeerEvent : PeerEvent → Method Unit
  | .connected stream => peerConnected stream
  | .connect addr => connectToPeer addr
  | .disconnect id => disconnectPeer id
  | .addedToAddressBook _ | .receivedMessage _ _ | .sendMessage _ _ => pure ()

def handleSubscribe (subs : Subscription) : Method Unit := do
  let keys ← call .eventIdOrder
  let (_, subscriptions) ← shared fun self => unwrap (self.subscriptions.add (keys subs.id) subs)
  modify fun self => { self with subscriptions }

def handleUnsubscribe (ids : Finset SubscriptionID) : Method Unit := do
  let it ← call .subscriptionOrder
  let keys ← call .eventIdOrder
  let subscriptions ← shared fun self => unwrap (self.subscriptions.removeAll it keys ids)
  modify fun self => { self with subscriptions }

def handlePubsubEvent : PubSubRequest → Method Unit
  | .subscribe subs => handleSubscribe subs
  | .unsubscribe ids => handleUnsubscribe ids

/-- Whether the loop is left. -/
def handleEvent : Event → Method Bool
  | .peer pe => do handlePeerEvent pe; pure false
  | .pubSub req => do handlePubsubEvent req; pure false
  | .terminate => do disconnectAllPeers; pure true

/-- One round of `run`. -/
def turn (ev : Event) : Method Bool := do
  shared fun _ => ev.clone .run
  shared fun self => self.publishEvent ev
  handleEvent ev

/-! ## Forgetting -/

/-- The program without the node of a failure. -/
def forget (m : Method Unit) (self : SeedNode) : Prog SeedNode := (m self).bimap Prod.fst Prod.snd

/-- Two programs that make the same call and go on alike. -/
theorem call_congr {ε : Type} {c : Call} {k k' : c.Answer → Program Call Call.Answer ε α}
    (h : ∀ r, k r = k' r) : Program.call c k = Program.call c k' := congrArg _ (funext h)

theorem forget_tryAddPeer (self : SeedNode) (stream : TcpStream) (hello : PeerHello) :
    forget (tryAddPeer stream hello) self = self.tryAddPeer stream hello := by
  unfold forget tryAddPeer SeedNode.tryAddPeer
  by_cases hid : hello.id ∈ self.peers
  · simp [hid]
  simp only [bind_apply, get_apply, ret_bind, ite_apply, if_neg hid, call_apply, call_bind,
    bimap_call, localAddr_bind]
  refine call_congr fun addr => ?_
  cases addr with
  | none => rfl
  | some addr =>
      refine call_congr fun ok => ?_
      cases ok
      · rfl
      refine call_congr fun ok => ?_
      cases ok
      · rfl
      refine call_congr fun ok => ?_
      cases ok
      · rfl
      refine call_congr fun ok => ?_
      cases ok <;> rfl

theorem forget_handlePeerEvent (self : SeedNode) (pe : PeerEvent) :
    forget (handlePeerEvent pe) self = self.handlePeerEvent pe := by
  cases pe with
  | connected stream =>
      refine call_congr fun ok => ?_
      cases ok
      · rfl
      refine call_congr fun msg => ?_
      rcases msg with _ | hello | _ | _
      · rfl
      · exact forget_tryAddPeer self stream hello
      · rfl
      · rfl
  | connect addr =>
      refine call_congr fun stream => ?_
      cases stream with
      | none => rfl
      | some stream =>
          refine call_congr fun ok => ?_
          cases ok <;> rfl
  | disconnect id =>
      unfold forget handlePeerEvent disconnectPeer SeedNode.handlePeerEvent SeedNode.disconnectPeer
      simp only [bind_apply, get_apply, ret_bind]
      cases self.peers.lookup id <;> rfl
  | addedToAddressBook _ | receivedMessage _ _ | sendMessage _ _ => rfl

theorem forget_handlePubsubEvent (self : SeedNode) (req : PubSubRequest) :
    forget (handlePubsubEvent req) self = self.handlePubsubEvent req := by
  cases req with
  | subscribe subs =>
      refine call_congr fun keys => ?_
      show bimap _ _ (shared _ self >>= _) = unwrap _ >>= _
      unfold shared
      beta_reduce
      cases self.subscriptions.add (keys subs.id) subs <;> rfl
  | unsubscribe ids =>
      refine call_congr fun it => call_congr fun keys => ?_
      show bimap _ _ (shared _ self >>= _) = unwrap _ >>= _
      unfold shared
      beta_reduce
      cases self.subscriptions.removeAll it keys ids <;> rfl

theorem forget_disconnectPeer (self : SeedNode) (id : ID) :
    forget (disconnectPeer id) self = self.disconnectPeer id :=
  forget_handlePeerEvent self (.disconnect id)

theorem forget_bind (m : Method Unit) (m' : Unit → Method Unit) (self : SeedNode) :
    forget (m >>= m') self = forget m self >>= forget (m' ()) := by
  unfold forget
  rw [bind_apply, bimap_bind]
  exact (bind_bimap Prod.fst Prod.snd (m self) (forget (m' ()))).symm

theorem forget_disconnectEach (ids : List ID) (self : SeedNode) :
    forget (disconnectEach ids) self = self.disconnectEach ids := by
  induction ids generalizing self with
  | nil => rfl
  | cons id ids ih =>
      rw [disconnectEach, forget_bind, forget_disconnectPeer, SeedNode.disconnectEach]
      exact congrArg _ (funext ih)

theorem forget_disconnectAllPeers (self : SeedNode) :
    forget disconnectAllPeers self = self.disconnectAllPeers :=
  call_congr fun _ => forget_disconnectEach _ self

/-- The program of a round without the node of a failure. -/
def forgetTurn (m : Method Bool) (self : SeedNode) : Prog Turn :=
  (m self).bimap Prod.fst fun r => if r.1 then .done r.2 else .next r.2

theorem forgetTurn_shared (p : SeedNode → Prog Unit) (m : Method Bool) (self : SeedNode) :
    forgetTurn (shared p >>= fun _ => m) self = p self >>= fun _ => forgetTurn m self := by
  unfold forgetTurn shared
  rw [bind_apply, bimap_bind, bimap_bimap, bind_bimap]
  exact congrArg (· >>= _) (id_bimap (p self))

theorem forgetTurn_pure (m : Method Unit) (left : Bool) (self : SeedNode) :
    forgetTurn (m >>= fun _ => pure left) self =
      forget m self >>= fun node => pure (if left then .done node else .next node) := by
  unfold forgetTurn forget
  rw [bind_apply, bimap_bind]
  exact (bind_bimap Prod.fst Prod.snd (m self) fun node =>
    (pure (if left then .done node else .next node) : Prog Turn)).symm

theorem forget_handleEvent (self : SeedNode) (ev : Event) :
    forgetTurn (handleEvent ev) self = self.handleEvent ev := by
  cases ev with
  | peer pe =>
      rw [handleEvent, forgetTurn_pure, forget_handlePeerEvent]
      rfl
  | pubSub req =>
      rw [handleEvent, forgetTurn_pure, forget_handlePubsubEvent]
      rfl
  | terminate =>
      rw [handleEvent, forgetTurn_pure, forget_disconnectAllPeers]
      rfl

/-- **The programs are the same**, but for what a failure leaves behind. -/
theorem forget_turn (self : SeedNode) (ev : Event) :
    forgetTurn (turn ev) self = self.turn ev := by
  rw [turn, forgetTurn_shared, forgetTurn_shared, forget_handleEvent]
  rfl

end Method

end Reactor.Sn
