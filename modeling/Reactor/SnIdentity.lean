import Reactor.SnHandshake
import Reactor.SnRounds

/-!
# Who is who among the seed nodes

An id is what somebody says of himself in a hello, and nothing checks it. A
seed node says its own, on ends it has dialed or been dialed on, and what
is written on an end is read on the other, so that in a network of seed
nodes an id never goes to anybody else.

**`peers_are_who_they_are`**: whoever a node has registered on a connection
is at its other end; what a receiving thread passes on is a hello of that
node, with the id the thread passes it on under; and every entry of an
address book names a node that has been at the other end of a connection.
-/

namespace Reactor.Sn

open Function (update)
open Program
open Reactor.System (Any)

/-! ## A round and the address book -/

/-- The address book after a round that returns at a stage. -/
def SeedNode.Lists (self : SeedNode) (s : Stage) (book : AddressBook) : Prop :=
  match s with
  | .announced peer => ∃ addr, addr.id = peer.id ∧ book.addrs = self.addrBook.addrs ++ [addr]
  | _ => book = self.addrBook

/-- The contract of a round, as to the id and the address book it leaves. -/
def SeedNode.listing (self : SeedNode) (ev : Event) : Contract Call Call.Answer Turn Stage :=
  ⟨self.Allows ev, Stage.next, fun s => fun
    | .next node => node.id = self.id ∧ self.Lists s node.addrBook
    | .done node => node.id = self.id ∧ node.addrBook = self.addrBook⟩

/-- The same of a handler of peer events. -/
def SeedNode.entering (self : SeedNode) (ev : Event) : Contract Call Call.Answer SeedNode Stage :=
  ⟨self.Allows ev, Stage.next, fun s node => node.id = self.id ∧ self.Lists s node.addrBook⟩

theorem tryAddPeer_entering (self : SeedNode) (stream : TcpStream) (hello : PeerHello) :
    (self.tryAddPeer stream hello).Follows (self.entering (.peer (.connected stream)))
      (.introduced hello.id) := by
  unfold SeedNode.tryAddPeer
  split
  · exact ⟨rfl, rfl⟩
  · next hid =>
      simp [SeedNode.entering, SeedNode.Allows, SeedNode.Lists, Stage.next, Option.forall, hid]

theorem handlePeerEvent_entering (self : SeedNode) (pe : PeerEvent) :
    (self.handlePeerEvent pe).Follows (self.entering (.peer pe)) .start := by
  cases pe with
  | connected stream =>
      simp only [SeedNode.handlePeerEvent, SeedNode.peerConnected, SeedNode.readPeerHello,
        tryClone_bind, orFail_bind, readPeerMessage_bind, follows_call, Bool.forall_bool]
      refine ⟨⟨.inl rfl, rfl⟩, trivial, ⟨rfl, rfl⟩, fun r => ?_⟩
      cases r with
      | none => exact ⟨rfl, rfl⟩
      | some msg =>
          cases msg with
          | hello hello => exact tryAddPeer_entering self stream hello
          | addressBookRequest => exact ⟨rfl, rfl⟩
          | addressBook book => exact ⟨rfl, rfl⟩
  | connect addr =>
      simp [SeedNode.handlePeerEvent, SeedNode.connectToPeer, SeedNode.entering, SeedNode.Allows,
        SeedNode.Lists, Stage.next, Option.forall]
  | disconnect id =>
      simp only [SeedNode.handlePeerEvent, SeedNode.disconnectPeer]
      split
      · exact ⟨rfl, rfl⟩
      · next peer hl =>
          rw [drop_bind]
          exact ⟨.inl ⟨rfl, id, rfl, hl⟩, fun _ => ⟨rfl, rfl⟩⟩
  | addedToAddressBook _ | receivedMessage _ _ | sendMessage _ _ => exact ⟨rfl, rfl⟩

/-- Dropping peers leaves the address book as it was. -/
def SeedNode.parting (self : SeedNode) : Contract Call Call.Answer SeedNode Stage :=
  ⟨self.Allows .terminate, Stage.next,
    fun _ node => node.id = self.id ∧ node.addrBook = self.addrBook⟩

theorem disconnectAllPeers_parting (self : SeedNode) :
    self.disconnectAllPeers.Follows self.parting .start := by
  refine ⟨rfl, fun it => follows_disconnectEach (I := fun s node => (s = .start ∨ s = .dropped) ∧
    node.id = self.id ∧ node.addrBook = self.addrBook) (fun h => h.2) ?_ _ ⟨.inl rfl, rfl, rfl⟩⟩
  rintro s node id peer ⟨hs, h⟩ -
  exact ⟨.inr ⟨hs, rfl⟩, .inr rfl, h⟩

theorem handlePubsubEvent_entering (self : SeedNode) (req : PubSubRequest) :
    (self.handlePubsubEvent req).Follows
      (⟨self.Allows (.pubSub req), Stage.next,
        fun s node => s = .start ∧ node.id = self.id ∧ node.addrBook = self.addrBook⟩ :
        Contract _ _ SeedNode Stage) .start :=
  follows_handlePubsubEvent (fun _ _ => ⟨rfl, fun _ _ => ⟨rfl, rfl, rfl⟩⟩)
    fun _ _ => ⟨rfl, fun _ => ⟨rfl, fun _ _ => ⟨rfl, rfl, rfl⟩⟩⟩

theorem turn_lists (self : SeedNode) (ev : Event) :
    (self.turn ev).Follows (self.listing ev) .start := by
  refine (clone_opening self ev .run).bind (fun _ _ h => h) rfl fun s _ hs => ?_
  subst hs
  refine (publishEvent_opening self ev).bind (fun _ _ h => h) rfl fun s _ hs => ?_
  subst hs
  cases ev with
  | peer pe =>
      exact (handlePeerEvent_entering self pe).bind (fun _ _ h => h) rfl fun s node h => h
  | pubSub req =>
      refine (handlePubsubEvent_entering self req).bind (fun _ _ h => h) rfl fun s node h => ?_
      obtain ⟨rfl, hid, hbook⟩ := h
      exact ⟨hid, hbook⟩
  | terminate =>
      exact (disconnectAllPeers_parting self).bind (fun _ _ h => h) rfl fun _ _ h => h

/-! ## A process -/

/-- The id of whoever has introduced himself. -/
def Stage.id? : Stage → Option ID
  | .introduced id | .answered id => some id
  | .started peer | .announced peer => some peer.id
  | _ => none

theorem Stage.id_read {s : Stage} {stream : TcpStream} {r : Option PeerMessage} {id : ID}
    (h : (s.next (.readPeerMessage stream) r).id? = some id) : r = some (.hello ⟨id⟩) := by
  cases r with
  | none => cases h
  | some msg =>
      cases msg with
      | hello hello =>
          obtain rfl : hello.id = id := Option.some.inj h
          rfl
      | addressBookRequest | addressBook book => cases h

/-- Nobody introduces himself by another call. -/
theorem Stage.id_next {s : Stage} {c : Call} {r : c.Answer} {id : ID}
    (hread : ∀ stream, c ≠ .readPeerMessage stream)
    (hspawn : ∀ id stream, c = .spawn id stream → s = .answered id)
    (h : (s.next c r).id? = some id) : s.id? = some id := by
  unfold Stage.next at h
  split at h <;> try split at h
  all_goals simp_all [Stage.id?]

namespace Process

variable {names names' : TcpStream → ID → Prop} {p p' : Process} {a : Act}

/-- Whom the node takes somebody at the other end of a stream for, that is
who `names` says he is. -/
structure Knows (names : TcpStream → ID → Prop) (p : Process) : Prop where
  lists : ∀ m s rest, p.ctl = .handling m s rest → rest.Follows (p.node.listing m.ev) s
  stage : ∀ m s rest id, p.ctl = .handling m s rest → s.id? = some id →
    ∃ e, m.ev = .peer (.connected e) ∧ names e id
  threads : ∀ k t, p.threads k = some t → names t.peer.stream t.peer.id
  heard : ∀ m ∈ p.mails, ∀ k id msg, m = ⟨.peer (.receivedMessage id msg), .receiveLoop k⟩ →
    msg = .hello ⟨id⟩ ∧ ∃ t, p.threads k = some t ∧ t.peer.id = id
  book : ∀ addr ∈ p.node.addrBook.addrs, ∃ e, names e addr.id

/-- What is read of a stream is a hello of whoever `names` says. -/
def Truthful (names : TcpStream → ID → Prop) (p : Process) : Act → Prop
  | .loop io => ∀ e msg, p.pending = some (.readPeerMessage e) →
      io (.readPeerMessage e) = some msg → ∃ id, msg = .hello ⟨id⟩ ∧ names e id
  | .received k msg => ∀ t, p.threads k = some t →
      ∃ id, msg = .hello ⟨id⟩ ∧ names t.peer.stream id
  | _ => True

/-! What a step does to the threads, to the mails and to the node. -/

/-- Threads keep their remote peer, and are started for whoever has been
answered. -/
theorem step_threads (hsound : p.Sound) (hs : p.step a = some p') :
    (∀ k t, p.threads k = some t → ∃ t', p'.threads k = some t' ∧ t'.peer = t.peer) ∧
      ∀ k t', p'.threads k = some t' → (∃ t, p.threads k = some t ∧ t'.peer = t.peer) ∨
        ∃ m st rest, p.ctl = .handling m st rest ∧ st = .answered t'.peer.id ∧
          m.ev = .peer (.connected t'.peer.stream) := by
  have same : p'.threads = p.threads →
      (∀ k t, p.threads k = some t → ∃ t', p'.threads k = some t' ∧ t'.peer = t.peer) ∧
        ∀ k t', p'.threads k = some t' → (∃ t, p.threads k = some t ∧ t'.peer = t.peer) ∨
          ∃ m st rest, p.ctl = .handling m st rest ∧ st = .answered t'.peer.id ∧
            m.ev = .peer (.connected t'.peer.stream) := by
    intro heq
    rw [heq]
    exact ⟨fun k t ht => ⟨t, ht, rfl⟩, fun k t ht => .inl ⟨t, ht, rfl⟩⟩
  have changed : ∀ {k t u}, p.threads k = some t → u.peer = t.peer →
      p'.threads = (p.setThreads k u).threads →
      (∀ k t, p.threads k = some t → ∃ t', p'.threads k = some t' ∧ t'.peer = t.peer) ∧
        ∀ k t', p'.threads k = some t' → (∃ t, p.threads k = some t ∧ t'.peer = t.peer) ∨
          ∃ m st rest, p.ctl = .handling m st rest ∧ st = .answered t'.peer.id ∧
            m.ev = .peer (.connected t'.peer.stream) := by
    intro k t u ht hpeer heq
    rw [heq]
    refine ⟨setThreads_keeps ht hpeer, fun k' t' ht' => .inl ?_⟩
    obtain ⟨rfl, rfl⟩ | ⟨-, hold⟩ := setThreads_cases ht'
    · exact ⟨t, ht, hpeer⟩
    · exact ⟨t', hold, rfl⟩
  cases a with
  | post ev | accept stream =>
      obtain rfl := Option.some.inj hs
      exact same rfl
  | take =>
      obtain ⟨m, rest, -, -, rfl⟩ := take_cases hs
      exact same rfl
  | loop io =>
      obtain ⟨m, st, c, k, hctl, rfl⟩ | ⟨m, st, node, hctl, rfl⟩ | ⟨m, st, node, hctl, rfl⟩ |
        ⟨m, st, e, hctl, rfl⟩ := advance_cases hs
      · cases c with
        | spawn id stream =>
            obtain ⟨⟨rfl, hev, -⟩, -⟩ := hsound.follows m st _ hctl
            refine ⟨fun k' t ht => ⟨t, ?_, rfl⟩, fun k' t' ht' => ?_⟩
            · have hne : k' ≠ p.nextChannel := (hsound.channel k' t ht).1.ne
              simpa [perform, hne] using ht
            · obtain ⟨-, rfl⟩ | ⟨-, hold⟩ := setThreads_cases ht'
              · exact .inr ⟨m, _, _, hctl, rfl, hev⟩
              · exact .inl ⟨t', hold, rfl⟩
        | drop peer =>
            cases ht : p.threads peer.senderChannel with
            | none => exact same (by simp [perform, ht])
            | some t =>
                exact changed (u := { t with dropped := true }) ht rfl (by simp [perform, ht])
        | _ => exact same rfl
      · exact same rfl
      · exact same rfl
      · exact same rfl
  | sendEnds k =>
      obtain ⟨t, ht, -, -, rfl⟩ := sendEnds_cases hs
      exact changed (u := { t with sending := false }) ht rfl rfl
  | received k msg =>
      obtain ⟨t, -, -, rfl⟩ := received_cases hs
      exact same rfl
  | receiveEnds k =>
      obtain ⟨t, ht, -, rfl⟩ := receiveEnds_cases hs
      exact changed (u := { t with receiving := false }) ht rfl rfl

/-- Only a receiving thread puts a received message in the channel as its
own. -/
theorem step_heard (hs : p.step a = some p') {m : Mail} (hm : m ∈ p'.mails)
    {k : Nat} {id : ID} {msg : PeerMessage}
    (hmail : m = ⟨.peer (.receivedMessage id msg), .receiveLoop k⟩) :
    m ∈ p.mails ∨ a = .received k msg ∧ ∃ t, p.threads k = some t ∧ t.peer.id = id := by
  have posted : ∀ {q : Process} {ev : Event} {sender : Sender}, q.mails ⊆ p.mails →
      (⟨ev, sender⟩ : Mail) ≠ m → m ∈ (q.post ev sender).mails → m ∈ p.mails := by
    intro q ev sender hq hne hm
    rw [mails_post] at hm
    rcases List.mem_append.mp hm with hm | hm
    · exact hq hm
    · exact absurd (List.mem_singleton.mp hm).symm hne
  subst hmail
  cases a with
  | post ev =>
      obtain rfl := Option.some.inj hs
      exact .inl (posted (List.Subset.refl _) (by simp) hm)
  | accept stream =>
      obtain rfl := Option.some.inj hs
      exact .inl (posted (List.Subset.refl _) (by simp) hm)
  | take =>
      obtain ⟨m, rest, hctl, hqueue, rfl⟩ := take_cases hs
      exact .inl (by simpa [mails, hctl, hqueue] using hm)
  | loop io =>
      obtain ⟨m, st, c, k', hctl, rfl⟩ | ⟨m, st, node, hctl, rfl⟩ | ⟨m, st, node, hctl, rfl⟩ |
        ⟨m, st, e, hctl, rfl⟩ := advance_cases hs
      · cases c with
        | send ev =>
            refine .inl (@posted { p with ctl := .handling m (st.next (.send ev) ()) (k' ()) } ev
              .node ?_ (by simp) hm)
            rw [mails_handling hctl]
            exact List.Subset.refl _
        | drop peer =>
            rw [mails_handling hctl]
            simp only [perform] at hm
            split at hm <;> exact .inl hm
        | _ =>
            rw [mails_handling hctl]
            exact .inl hm
      all_goals exact .inl (by rw [mails_handling hctl]; exact List.mem_cons_of_mem _ hm)
  | sendEnds k =>
      obtain ⟨t, -, -, -, rfl⟩ := sendEnds_cases hs
      exact .inl (posted (q := p.setThreads k _) (List.Subset.refl _) (by simp) hm)
  | received k' msg' =>
      obtain ⟨t, ht, -, rfl⟩ := received_cases hs
      rw [mails_post] at hm
      rcases List.mem_append.mp hm with hm | hm
      · exact .inl hm
      · obtain ⟨hev, hk⟩ := Mail.mk.inj (List.mem_singleton.mp hm)
        obtain ⟨rfl, rfl⟩ := PeerEvent.receivedMessage.inj (Event.peer.inj hev)
        obtain rfl := Sender.receiveLoop.inj hk
        exact .inr ⟨rfl, t, ht, rfl⟩
  | receiveEnds k =>
      obtain ⟨t, -, -, rfl⟩ := receiveEnds_cases hs
      exact .inl (posted (q := p.setThreads k _) (List.Subset.refl _) (by simp) hm)

/-- The node changes at the end of a round. -/
theorem step_node (hs : p.step a = some p') :
    p'.node = p.node ∨ ∃ m st rest, p.ctl = .handling m st rest ∧
      (rest = .ret (.next p'.node) ∨ rest = .ret (.done p'.node)) := by
  cases a with
  | post ev | accept stream =>
      obtain rfl := Option.some.inj hs
      exact .inl rfl
  | take =>
      obtain ⟨m, rest, -, -, rfl⟩ := take_cases hs
      exact .inl rfl
  | loop io =>
      obtain ⟨m, st, c, k, hctl, rfl⟩ | ⟨m, st, node, hctl, rfl⟩ | ⟨m, st, node, hctl, rfl⟩ |
        ⟨m, st, e, hctl, rfl⟩ := advance_cases hs
      · exact .inl (perform_node c)
      · exact .inr ⟨m, st, _, hctl, .inl rfl⟩
      · exact .inr ⟨m, st, _, hctl, .inr rfl⟩
      · exact .inl rfl
  | sendEnds k =>
      obtain ⟨t, -, -, -, rfl⟩ := sendEnds_cases hs
      exact .inl rfl
  | received k msg =>
      obtain ⟨t, -, -, rfl⟩ := received_cases hs
      exact .inl rfl
  | receiveEnds k =>
      obtain ⟨t, -, -, rfl⟩ := receiveEnds_cases hs
      exact .inl rfl

/-! Whom a node knows. -/

theorem knows_new (names : TcpStream → ID → Prop) (id : ID) : (new id).Knows names where
  lists m s rest h := by cases h
  stage m s rest id h := by cases h
  threads k t h := by cases h
  heard m h := by cases h
  book addr h := by cases h

theorem Knows.mono (h : p.Knows names) (hnames : ∀ e id, names e id → names' e id) :
    p.Knows names' where
  lists := h.lists
  stage m s rest id hctl hid :=
    (h.stage m s rest id hctl hid).imp fun e => And.imp_right (hnames e id)
  threads k t ht := hnames _ _ (h.threads k t ht)
  heard := h.heard
  book addr haddr := (h.book addr haddr).imp fun e => hnames e addr.id

/-- What is left of a round, and whom it has met. -/
theorem Knows.round_step (h : p.Knows names) (hsound : p.Sound) (htrue : p.Truthful names a)
    (hs : p.step a = some p') {m : Mail} {st : Stage} {rest : Prog Turn}
    (hctl : p'.ctl = .handling m st rest) :
    rest.Follows (p'.node.listing m.ev) st ∧
      ∀ id, st.id? = some id → ∃ e, m.ev = .peer (.connected e) ∧ names e id := by
  have same : p'.ctl = p.ctl → p'.node = p.node → rest.Follows (p'.node.listing m.ev) st ∧
      ∀ id, st.id? = some id → ∃ e, m.ev = .peer (.connected e) ∧ names e id := by
    intro heq hnode
    rw [hnode]
    rw [heq] at hctl
    exact ⟨h.lists m st rest hctl, fun id => h.stage m st rest id hctl⟩
  cases a with
  | post ev | accept stream =>
      obtain rfl := Option.some.inj hs
      exact same rfl rfl
  | take =>
      obtain ⟨m', queue, -, -, rfl⟩ := take_cases hs
      obtain ⟨rfl, rfl, rfl⟩ := Ctl.handling.inj hctl
      exact ⟨turn_lists p.node m'.ev, fun id hid => by cases hid⟩
  | loop io =>
      obtain ⟨m', st', c, k, hctl', rfl⟩ | ⟨m', st', node, hctl', rfl⟩ |
        ⟨m', st', node, hctl', rfl⟩ | ⟨m', st', e, hctl', rfl⟩ := advance_cases hs
      · obtain ⟨rfl, rfl, rfl⟩ := Ctl.handling.inj hctl
        refine ⟨?_, fun id hid => ?_⟩
        · rw [show Process.node _ = p.node from perform_node c]
          exact (h.lists m' st' _ hctl').2 _
        · obtain ⟨hallows, -⟩ := hsound.follows m' st' _ hctl'
          by_cases hread : ∃ stream, c = .readPeerMessage stream
          · obtain ⟨stream, rfl⟩ := hread
            have hmsg := Stage.id_read hid
            obtain ⟨id', hid', hname⟩ := htrue stream _ (by simp [pending, hctl']) hmsg
            obtain rfl := PeerHello.mk.inj (PeerMessage.hello.inj hid')
            exact ⟨stream, hallows.2, hname⟩
          · refine h.stage m' st' _ id hctl' (Stage.id_next (not_exists.mp hread) ?_ hid)
            rintro id' stream rfl
            exact hallows.1
      all_goals cases hctl
  | sendEnds k =>
      obtain ⟨t, -, -, -, rfl⟩ := sendEnds_cases hs
      exact same rfl rfl
  | received k msg =>
      obtain ⟨t, -, -, rfl⟩ := received_cases hs
      exact same rfl rfl
  | receiveEnds k =>
      obtain ⟨t, -, -, rfl⟩ := receiveEnds_cases hs
      exact same rfl rfl

/-- The entries of the address book after a step. -/
theorem Knows.book_step (h : p.Knows names) (hs : p.step a = some p') :
    ∀ addr ∈ p'.node.addrBook.addrs, ∃ e, names e addr.id := by
  rcases step_node hs with heq | ⟨m, st, rest, hctl, hrest⟩
  · exact heq ▸ h.book
  have hlists := h.lists m st rest hctl
  rcases hrest with rfl | rfl
  · obtain ⟨-, hlists⟩ := hlists
    unfold SeedNode.Lists at hlists
    split at hlists
    · next peer =>
        obtain ⟨addr, haddr, hbook⟩ := hlists
        obtain ⟨e, -, hname⟩ := h.stage m _ _ peer.id hctl rfl
        rw [hbook]
        intro addr' hmem
        rcases List.mem_append.mp hmem with hmem | hmem
        · exact h.book addr' hmem
        · obtain rfl := List.mem_singleton.mp hmem
          exact ⟨e, haddr ▸ hname⟩
    · exact hlists ▸ h.book
  · exact hlists.2 ▸ h.book

theorem knows_step (hnames : ∀ e id id', names e id → names e id' → id = id')
    (h : p.Knows names) (hsound : p.Sound) (htrue : p.Truthful names a)
    (hs : p.step a = some p') : p'.Knows names := by
  obtain ⟨hforth, hback⟩ := step_threads hsound hs
  refine ⟨fun m st rest hctl => (h.round_step hsound htrue hs hctl).1,
    fun m st rest id hctl => (h.round_step hsound htrue hs hctl).2 id, fun k t' ht' => ?_,
    fun m hm k id msg hmail => ?_, h.book_step hs⟩
  · rcases hback k t' ht' with ⟨t, ht, hpeer⟩ | ⟨m, st, rest, hctl, rfl, hev⟩
    · exact hpeer ▸ h.threads k t ht
    · obtain ⟨e, hev', hname⟩ := h.stage m _ rest _ hctl rfl
      obtain rfl := PeerEvent.connected.inj (Event.peer.inj (hev.symm.trans hev'))
      exact hname
  · have keep : (∃ t, p.threads k = some t ∧ t.peer.id = id) →
        ∃ t, p'.threads k = some t ∧ t.peer.id = id := by
      rintro ⟨t, ht, rfl⟩
      obtain ⟨t', ht', hpeer⟩ := hforth k t ht
      exact ⟨t', ht', congrArg RemotePeer.id hpeer⟩
    rcases step_heard hs hm hmail with hm | ⟨rfl, t, ht, hid⟩
    · exact (h.heard m hm k id msg hmail).imp_right keep
    · obtain ⟨id', rfl, hname⟩ := htrue t ht
      obtain rfl : t.peer.id = id' := hnames _ _ _ (h.threads k t ht) hname
      exact ⟨by rw [hid], keep ⟨t, ht, hid⟩⟩

/-- A node keeps its id. -/
theorem Knows.id_step (h : p.Knows names) (hs : p.step a = some p') : p'.node.id = p.node.id := by
  rcases step_node hs with heq | ⟨m, st, rest, hctl, rfl | rfl⟩
  · rw [heq]
  · exact (h.lists m st _ hctl).1
  · exact (h.lists m st _ hctl).1

end Process

/-! ## The network -/

/-- Ends of the connections there were have the owners they had. -/
theorem Exchange.Step.owner_old {ι : Type} [DecidableEq ι] {s s' : Exchange ι} {x y : ι}
    {d : Exchange.Deed ι} (hs : s.Owned) (h : s.Step x d s') {e : TcpStream}
    (he : s.owner e = some y) : s'.owner e = some y := by
  by_cases hd : ∃ y, d = .dial y
  · obtain ⟨z, rfl⟩ := hd
    cases h with
    | dial _ h => exact (owner_connect z (hs.fresh e y he)).trans he
  · rwa [(h.owner_eq fun y hy => hd ⟨y, hy⟩).1]

namespace Network

variable {ι : Type} [DecidableEq ι] {hosts : Hosts ι} {s s' : Network ι} {x : ι}
  {a : Move ⊕ Fault}

/-- The node at the other end of a stream has the id. -/
def Names (hosts : Hosts ι) (s : Network ι) (e : TcpStream) (id : ID) : Prop :=
  ∃ y, s.owner e.other = some y ∧ id = hosts.name y

omit [DecidableEq ι] in
theorem Names.unique {e : TcpStream} {id id' : ID} (h : s.Names hosts e id)
    (h' : s.Names hosts e id') : id = id' := by
  obtain ⟨y, hy, rfl⟩ := h
  obtain ⟨y', hy', rfl⟩ := h'
  rw [Option.some.inj (hy.symm.trans hy')]

structure Introduced (hosts : Hosts ι) (s : Network ι) : Prop where
  sound : ∀ x, (s.nodes x).Sound
  owned : s.view.Owned
  own : ∀ x, (s.nodes x).node.id = hosts.name x
  inbox : ∀ e, ∀ msg ∈ s.inbox e, ∃ id, msg = .hello ⟨id⟩ ∧ s.Names hosts e id
  knows : ∀ x, (s.nodes x).Knows (s.Names hosts)

omit [DecidableEq ι] in
theorem introduced_new (hosts : Hosts ι) : (new hosts).Introduced hosts where
  sound x := Process.sound_new _
  owned := view_new hosts ▸ Exchange.owned_empty
  own x := rfl
  inbox e msg h := by cases h
  knows x := Process.knows_new _ _

theorem Introduced.names_step (h : s.Introduced hosts) (hs : s.stepOrFail hosts (x, a) = some s')
    {e : TcpStream} {id : ID} (hname : s.Names hosts e id) : s'.Names hosts e id := by
  obtain ⟨y, hy, rfl⟩ := hname
  refine ⟨y, ?_, rfl⟩
  rcases stepOrFail_view (h.sound x) hs with ⟨heq, -⟩ | ⟨d, hd, -⟩
  · rw [show s'.owner = s.owner from congrArg Exchange.owner heq, hy]
  · exact Exchange.Step.owner_old h.owned hd hy

/-- What a node reads is what somebody has said of himself. -/
theorem Introduced.truthful (h : s.Introduced hosts) (hs : s.stepOrFail hosts (x, a) = some s')
    (z : ι) : s'.nodes z = s.nodes z ∨ ∃ act, (s.nodes z).step act = some (s'.nodes z) ∧
      (s.nodes z).Truthful (s.Names hosts) act := by
  cases a with
  | inl mv =>
      by_cases hreceive : ∃ k, mv = .receive k
      · obtain ⟨k, rfl⟩ := hreceive
        simp only [stepOrFail, step] at hs
        split at hs
        · next t ht =>
            split at hs
            · next msg rest hinbox =>
                obtain ⟨p, hp, rfl⟩ := Option.map_eq_some_iff.mp hs
                by_cases hz : z = x
                · subst hz
                  refine .inr ⟨.received k msg, by simpa [Process.step] using hp, fun t' ht' => ?_⟩
                  obtain rfl : t = t' := Option.some.inj (ht.symm.trans ht')
                  exact h.inbox _ msg (by simp [hinbox])
                · exact .inl (by simp [hz])
            · cases hs
        · cases hs
      · rcases step_process hs z with heq | ⟨rfl, act, hact, hacts⟩
        · exact .inl heq
        · refine .inr ⟨act, hact, ?_⟩
          cases act with
          | loop io =>
              cases mv with
              | loop io' =>
                  exact fun e msg hpending hmsg => h.inbox e msg (hacts e msg hpending hmsg)
              | _ => exact hacts.elim
          | received k msg =>
              cases mv with
              | receive k => exact absurd ⟨k, rfl⟩ hreceive
              | _ => exact hacts.elim
          | _ => trivial
  | inr fault =>
      have hmove : ∀ {act : Act} {p : Process}, (s.nodes x).step act = some p →
          s'.nodes = update s.nodes x p → (s.nodes x).Truthful (s.Names hosts) act →
          s'.nodes z = s.nodes z ∨ ∃ act, (s.nodes z).step act = some (s'.nodes z) ∧
            (s.nodes z).Truthful (s.Names hosts) act := by
        intro act p hp hnodes htrue
        by_cases hz : z = x
        · subst hz
          exact .inr ⟨act, by rw [hp, hnodes]; simp, htrue⟩
        · exact .inl (by simp [hnodes, hz])
      cases fault with
      | terminate =>
          obtain rfl := Option.some.inj hs
          exact @hmove (.post .terminate) _ rfl rfl trivial
      | read =>
          simp only [stepOrFail] at hs
          split at hs
          · obtain ⟨p, hp, rfl⟩ := Option.map_eq_some_iff.mp hs
            exact @hmove (.loop (Io.calm.reading none)) _ hp rfl
              (fun e msg _ hmsg => by simp [Io.reading] at hmsg)
          · cases hs
      | receive k =>
          obtain ⟨p, hp, rfl⟩ := Option.map_eq_some_iff.mp hs
          exact @hmove (.receiveEnds k) _ hp rfl trivial

/-- Nothing is written on an end but a hello of its owner. -/
theorem Introduced.inbox_step (h : s.Introduced hosts)
    (hs : s.stepOrFail hosts (x, a) = some s') :
    ∀ e, ∀ msg ∈ s'.inbox e, ∃ id, msg = .hello ⟨id⟩ ∧ s.Names hosts e id := by
  have hsub : (∀ f, s'.inbox f ⊆ s.inbox f) →
      ∀ e, ∀ msg ∈ s'.inbox e, ∃ id, msg = .hello ⟨id⟩ ∧ s.Names hosts e id :=
    fun hsub e msg hmsg => h.inbox e msg (hsub e hmsg)
  cases a with
  | inl mv =>
      have hmove : s.step hosts (x, mv) = some s' := hs
      rcases inbox_cases hmove with ⟨hsuffix, -⟩ | ⟨e, msg, hwrites, hinbox⟩
      · exact hsub fun f => (hsuffix f).subset
      intro f m hm
      rw [hinbox] at hm
      by_cases hf : f = e.other
      · subst hf
        rcases (show m ∈ s.inbox e.other ∨ m = msg by simpa using hm) with hm | rfl
        · exact h.inbox _ m hm
        obtain ⟨mail, st, k, hctl⟩ := Process.handling_of_pending hwrites.pending
        obtain ⟨⟨rfl, -⟩, -⟩ := (h.sound x).follows mail st _ hctl
        refine ⟨_, rfl, x, ?_, h.own x⟩
        rw [TcpStream.other_other]
        have hsaid := said_step (h.sound x) hmove
        have hhello := hsaid.unique (.hello hinbox)
        rcases stepOrFail_view (h.sound x) hs with ⟨-, hnil⟩ | ⟨d, hd, hhellos⟩
        · rw [hnil] at hhello
          cases hhello
        · exact h.owned.owner_of_hello hd (by rw [hhellos, hhello]; exact List.mem_singleton_self e)
      · exact h.inbox f m (by simpa [hf] using hm)
  | inr fault =>
      refine hsub fun f => ?_
      cases fault with
      | terminate =>
          obtain rfl := Option.some.inj hs
          exact List.Subset.refl _
      | read =>
          simp only [stepOrFail] at hs
          split at hs
          · obtain ⟨p, -, rfl⟩ := Option.map_eq_some_iff.mp hs
            exact List.Subset.refl _
          · cases hs
      | receive k =>
          obtain ⟨p, -, rfl⟩ := Option.map_eq_some_iff.mp hs
          exact List.Subset.refl _

theorem introduced_step (h : s.Introduced hosts) (hs : s.stepOrFail hosts (x, a) = some s') :
    s'.Introduced hosts := by
  have hnames : ∀ e id, s.Names hosts e id → s'.Names hosts e id := fun e id => h.names_step hs
  refine ⟨fun z => ?_, ?_, fun z => ?_, fun e msg hmsg => ?_, fun z => ?_⟩
  · rcases h.truthful hs z with heq | ⟨act, hact, -⟩
    · exact heq ▸ h.sound z
    · exact Process.sound_step (h.sound z) hact
  · rcases stepOrFail_view (h.sound x) hs with ⟨heq, -⟩ | ⟨d, hd, -⟩
    · exact heq ▸ h.owned
    · exact Exchange.owned_step h.owned hd
  · rcases h.truthful hs z with heq | ⟨act, hact, -⟩
    · rw [heq, h.own z]
    · rw [(h.knows z).id_step hact, h.own z]
  · exact (h.inbox_step hs e msg hmsg).imp fun id => And.imp_right (hnames e id)
  · rcases h.truthful hs z with heq | ⟨act, hact, htrue⟩
    · exact heq ▸ (h.knows z).mono hnames
    · have hunique : ∀ e id id', s.Names hosts e id → s.Names hosts e id' → id = id' :=
        fun _ _ _ h h' => h.unique h'
      exact (Process.knows_step hunique (h.knows z) (h.sound z) htrue hact).mono hnames

theorem introduced_run {as : List (ι × (Move ⊕ Fault))} (h : (faulty hosts).Run Any as s) :
    s.Introduced hosts :=
  h.invariant (Introduced hosts) (introduced_new hosts) fun _ _ _ h _ hs => introduced_step h hs

end Network

/-- **Who is who.** In every run of any nodes, whatever fails in it:
whoever is registered at a node is at the other end of his stream, under
his own id; every message a receiving thread passes on is a hello of
whoever is at the other end of its stream, who is the one it is passed on
as; and an address book lists ids of nodes only that have been at the other
end of a stream. -/
theorem peers_are_who_they_are {ι : Type} [DecidableEq ι] {hosts : Hosts ι}
    {as : List (ι × (Move ⊕ Fault))} {s : Network ι} (h : (faulty hosts).Run Any as s) (x : ι) :
    (∀ id peer, (s.nodes x).node.peers.lookup id = some peer →
      ∃ y, s.owner peer.stream.other = some y ∧ id = hosts.name y) ∧
    (∀ k id msg, ⟨.peer (.receivedMessage id msg), .receiveLoop k⟩ ∈ (s.nodes x).mails →
      ∃ t y, (s.nodes x).threads k = some t ∧ s.owner t.peer.stream.other = some y ∧
        id = hosts.name y ∧ msg = .hello ⟨hosts.name y⟩) ∧
    ∀ addr ∈ (s.nodes x).node.addrBook.addrs,
      ∃ e y, s.owner e = some y ∧ addr.id = hosts.name y := by
  have hs := Network.introduced_run h
  refine ⟨fun id peer hl => ?_, fun k id msg hm => ?_, fun addr haddr => ?_⟩
  · obtain ⟨rfl, t, ht, rfl⟩ := (hs.sound x).peers id peer hl
    exact (hs.knows x).threads _ t ht
  · obtain ⟨rfl, t, ht, rfl⟩ := (hs.knows x).heard _ hm k id msg rfl
    obtain ⟨y, hy, hid⟩ := (hs.knows x).threads k t ht
    exact ⟨t, y, ht, hy, hid, by rw [hid]⟩
  · obtain ⟨e, y, hy, hid⟩ := (hs.knows x).book addr haddr
    exact ⟨e.other, y, hy, hid⟩

/-- A node has dialed the other and is registered there; its second hello
has been passed on. -/
theorem peers_are_who_they_are_answering : ∃ s, (faulty pair).Run Any answering s ∧
    (∃ y, s.owner ⟨0, .listener⟩ = some y ∧ "2" = pair.name y) ∧
      ∃ t y, (s.nodes true).threads 0 = some t ∧ s.owner t.peer.stream.other = some y ∧
        "1" = pair.name y ∧ PeerMessage.hello ⟨"1"⟩ = .hello ⟨pair.name y⟩ := by
  have hexec : ((faulty pair).exec Any (faulty pair).init answering).map
      (fun s => ((s.nodes false).node.peers.lookup "2", decide
        (⟨.peer (.receivedMessage "1" (.hello ⟨"1"⟩)), .receiveLoop 0⟩ ∈ (s.nodes true).mails))) =
      some (some ⟨"2", ⟨0, .dialer⟩, 0⟩, true) := by decide
  obtain ⟨s, hs, hobs⟩ := Option.map_eq_some_iff.mp hexec
  obtain ⟨hpeer, hmail⟩ := Prod.mk.inj hobs
  have hrun := System.run_iff.mpr hs
  obtain ⟨hpeers, -, -⟩ := peers_are_who_they_are hrun false
  obtain ⟨-, hheard, -⟩ := peers_are_who_they_are hrun true
  exact ⟨s, hrun, hpeers _ _ hpeer, hheard _ _ _ (of_decide_eq_true hmail)⟩

end Reactor.Sn
