import Reactor.SnEncoding

/-!
# The seed node: streams

On a connection bytes come in pieces that have nothing to do with frames.
A `Source` is a reader by what a read is documented to do: while bytes are
left it gives some of them, and then it reports the end or an error. A
socket is one, and so is a `BufReader` on top of one, which reads ahead.

**`agrees_readPeerMessage`**: reading a message from any source comes to
the same as reading it from the string of the bytes left of it, and leaves
the same bytes behind. So what one reader leaves the next one finds, and
`messages` says what readers of a byte string get to see.
-/

namespace Reactor.Sn

open Proto3 (Bytes)

/-! ## Sources -/

/-- A read after the last byte: `Ok(0)` at the end of a stream that has
been closed. -/
def atEnd : Option ErrorKind → Except Error Bytes
  | none => .ok []
  | some kind => .error (.stream kind)

/-- A reader: the bytes left, the error it ends with if it does not end by
being closed, and `read`, for up to so many bytes. -/
class Source (ρ : Type) where
  left : ρ → Bytes
  ending : ρ → Option ErrorKind
  read : Nat → OnStream ρ Bytes
  read_left : ∀ {n s}, 0 < n → left s ≠ [] → ∃ bs s', read n s = (.ok bs, s') ∧ bs ≠ [] ∧
    bs.length ≤ n ∧ left s = bs ++ left s' ∧ ending s' = ending s
  read_end : ∀ {n s}, 0 < n → left s = [] → ∃ s', read n s = (atEnd (ending s), s')

open Source (left ending read)

section

variable {ρ : Type} [Source ρ]

/-- Reads until it has so many bytes. -/
def Source.readExact (n : Nat) : OnStream ρ Bytes :=
  if n = 0 then
    pure []
  else do
    let bs ← read n
    if bs = [] then
      OnStream.fail .unexpectedEof
    else
      return bs ++ (← Source.readExact (n - bs.length))
termination_by n
decreasing_by
  have := List.length_pos_iff.mpr ‹¬bs = []›
  omega

instance : Read ρ := ⟨Source.readExact⟩

theorem readExact_left {n : Nat} {s : ρ} (h : n ≤ (left s).length) :
    ∃ s', Source.readExact n s = (.ok ((left s).take n), s') ∧ left s' = (left s).drop n ∧
      ending s' = ending s := by
  induction n using Nat.strong_induction_on generalizing s with
  | _ n ih =>
      rw [Source.readExact]
      by_cases hn : n = 0
      · subst hn
        exact ⟨s, rfl, rfl, rfl⟩
      · rw [if_neg hn]
        have hleft : left s ≠ [] := by
          intro hnil
          rw [hnil] at h
          exact hn (Nat.le_zero.mp h)
        obtain ⟨bs, s₁, hread, hbs, hlen, hs, hend⟩ :=
          Source.read_left (Nat.pos_of_ne_zero hn) hleft
        have hpos := List.length_pos_iff.mpr hbs
        rw [hs, List.length_append] at h
        obtain ⟨s', hmore, hleft', hend'⟩ := ih (n - bs.length) (by omega) (s := s₁) (by omega)
        refine ⟨s', ?_, ?_, hend'.trans hend⟩
        · rw [OnStream.bind_ok hread, if_neg hbs, OnStream.bind_ok hmore, hs, List.take_append,
            List.take_of_length_le hlen]
          rfl
        · rw [hleft', hs, List.drop_append, List.drop_eq_nil_of_le hlen, List.nil_append]

/-- A reader's error, given what the stream ends with: it is reported where
bytes are missing. -/
def Error.under (ending : Option ErrorKind) : Error → Error
  | .unexpectedEof => ending.elim .unexpectedEof .stream
  | e => e

/-- Reading more than is left comes down to a read after the last byte. -/
theorem readExact_atEnd {n : Nat} {s : ρ} (h : (left s).length < n) :
    ∃ m s₁, 0 < m ∧ left s₁ = [] ∧ ending s₁ = ending s ∧
      ∀ s', read m s₁ = (atEnd (ending s₁), s') →
        Source.readExact n s = (.error (Error.under (ending s) .unexpectedEof), s') := by
  induction n using Nat.strong_induction_on generalizing s with
  | _ n ih =>
      rw [Source.readExact, if_neg (by omega)]
      by_cases hleft : left s = []
      · refine ⟨n, s, by omega, hleft, rfl, fun s' hread => ?_⟩
        cases hend : ending s with
        | none =>
            rw [hend] at hread
            rw [OnStream.bind_ok (show read n s = (.ok [], s') from hread), if_pos rfl]
            rfl
        | some kind =>
            rw [hend] at hread
            exact OnStream.bind_error hread
      · obtain ⟨bs, s₁, hread, hbs, hlen, hs, hend⟩ := Source.read_left (n := n) (by omega) hleft
        have hpos := List.length_pos_iff.mpr hbs
        rw [hs, List.length_append] at h
        obtain ⟨m, s₂, hm, hleft₂, hend₂, hmore⟩ :=
          ih (n - bs.length) (by omega) (s := s₁) (by omega)
        refine ⟨m, s₂, hm, hleft₂, hend₂.trans hend, fun s' hlast => ?_⟩
        rw [OnStream.bind_ok hread, if_neg hbs, ← hend]
        exact OnStream.bind_error (hmore s' hlast)

/-- An error of a stream that does not block is no `WouldBlock`. -/
theorem readExact_short {n : Nat} {s : ρ} (h : (left s).length < n) :
    ∃ e s', Source.readExact n s = (.error e, s') ∧
      (e.kind = .wouldBlock → ending s = some .wouldBlock) := by
  obtain ⟨m, s₁, hm, hleft, -, hexact⟩ := readExact_atEnd h
  obtain ⟨s', hread⟩ := Source.read_end hm hleft
  refine ⟨_, s', hexact s' hread, fun hkind => ?_⟩
  cases hend : ending s with
  | none => simp [hend, Error.under, Error.kind] at hkind
  | some kind => simpa [hend, Error.under, Error.kind] using hkind

/-! ## Reading a message -/

variable {α β : Type}

/-- Reading from a source comes to the same as reading from the bytes left
of it. When it fails, so does the other, though not with the same error. -/
structure Agrees (x : OnStream Bytes α) (y : OnStream ρ α) : Prop where
  ok : ∀ {s a t}, x (left s) = (.ok a, t) →
    ∃ s', y s = (.ok a, s') ∧ left s' = t ∧ ending s' = ending s
  error : ∀ {s e t}, x (left s) = (.error e, t) → ∃ e' s', y s = (.error e', s') ∧
    (e'.kind = .wouldBlock → ending s = some .wouldBlock)

theorem Agrees.bind {x : OnStream Bytes α} {y : OnStream ρ α} {f : α → OnStream Bytes β}
    {g : α → OnStream ρ β} (h : Agrees x y) (hf : ∀ a, Agrees (f a) (g a)) :
    Agrees (x >>= f) (y >>= g) where
  ok := by
    intro s b t hb
    obtain ⟨a, t₁, hx, hfa⟩ := OnStream.bind_eq_ok.mp hb
    obtain ⟨s₁, hy, rfl, hend⟩ := h.ok hx
    obtain ⟨s', hga, hleft, hend'⟩ := (hf a).ok hfa
    exact ⟨s', by rw [OnStream.bind_ok hy, hga], hleft, hend'.trans hend⟩
  error := by
    intro s e t he
    cases hx : x (left s) with
    | mk r t₁ =>
        cases r with
        | ok a =>
            rw [OnStream.bind_ok hx] at he
            obtain ⟨s₁, hy, rfl, hend⟩ := h.ok hx
            obtain ⟨e', s', hga, hkind⟩ := (hf a).error he
            exact ⟨e', s', by rw [OnStream.bind_ok hy, hga], fun hk => hend ▸ hkind hk⟩
        | error e₁ =>
            obtain ⟨e', s', hy, hkind⟩ := h.error hx
            exact ⟨e', s', OnStream.bind_error hy, hkind⟩

theorem agrees_lift {r : Except Error α} (h : ∀ e, r = .error e → e.kind ≠ .wouldBlock) :
    Agrees (OnStream.lift r) (OnStream.lift r : OnStream ρ α) where
  ok := by
    intro s a t ha
    obtain ⟨hr, rfl⟩ := Prod.mk.inj ha
    exact ⟨s, by rw [hr]; rfl, rfl, rfl⟩
  error := by
    intro s e t he
    obtain ⟨hr, -⟩ := Prod.mk.inj he
    exact ⟨e, s, by rw [hr]; rfl, fun hk => absurd hk (h e hr)⟩

theorem agrees_readExact (n : Nat) :
    Agrees (Read.readExact n : OnStream Bytes Bytes) (Read.readExact n : OnStream ρ Bytes) where
  ok := by
    intro s bs t h
    change (if n ≤ (left s).length then _ else _) = _ at h
    split at h
    · next hn =>
        obtain ⟨hbs, rfl⟩ := Prod.mk.inj h
        obtain rfl := Except.ok.inj hbs
        exact readExact_left hn
    · cases h
  error := by
    intro s e t h
    change (if n ≤ (left s).length then _ else _) = _ at h
    split at h
    · cases h
    · next hn => exact readExact_short (by omega)

variable (libs : Libs)

/-- Of an address book only an address can be wrong. -/
theorem mapM_ofProto_error {addrs : List Protos.PeerAddr} {e : Error}
    (h : addrs.mapM (PeerAddr.ofProto libs) = .error e) : e = .addrParse := by
  induction addrs with
  | nil => cases h
  | cons addr addrs ih =>
      rw [List.mapM_cons] at h
      cases haddr : PeerAddr.ofProto libs addr with
      | error e' =>
          rw [haddr] at h
          cases h
          unfold PeerAddr.ofProto at haddr
          split at haddr <;> cases haddr
          rfl
      | ok a =>
          rw [haddr] at h
          cases hrest : addrs.mapM (PeerAddr.ofProto libs) with
          | error e' =>
              rw [hrest] at h
              cases h
              exact ih hrest
          | ok as =>
              rw [hrest] at h
              cases h

theorem AddressBook.ofProto_error {book : Protos.AddressBook} {e : Error}
    (h : AddressBook.ofProto libs book = .error e) : e = .addrParse := by
  unfold AddressBook.ofProto at h
  cases hbook : book.addrs.mapM (PeerAddr.ofProto libs) with
  | error e' =>
      rw [hbook] at h
      cases h
      exact mapM_ofProto_error libs hbook
  | ok as =>
      rw [hbook] at h
      cases h

/-- What can be wrong with an `Any`. -/
theorem ofAny_error {any : Protos.Any} {e : Error} (h : PeerMessage.ofAny libs any = .error e) :
    e = .addrParse ∨ ∃ re, e = .reader re := by
  unfold PeerMessage.ofAny at h
  split at h
  · cases h
  split at h
  · split at h
    · cases h
      exact .inr ⟨_, rfl⟩
    · next book _ =>
        cases hbook : AddressBook.ofProto libs book with
        | error e' =>
            rw [hbook] at h
            cases h
            exact .inl (AddressBook.ofProto_error libs hbook)
        | ok as =>
            rw [hbook] at h
            cases h
  split at h
  · split at h
    · cases h
      exact .inr ⟨_, rfl⟩
    · cases h
  · cases h
    exact .inr ⟨_, rfl⟩

/-- An error that does not come from the stream. -/
def Error.Inherent : Error → Prop
  | .stream _ | .unexpectedEof => False
  | _ => True

theorem Error.Inherent.kind_ne {e : Error} (h : e.Inherent) : e.kind ≠ .wouldBlock := by
  cases e <;> first | exact h.elim | simp [Error.kind]

/-- What two ways to read bytes have in common, two ways to read a message
have, if the errors of parsing and the order of reading do not change it. -/
theorem readPeerMessage_rule {σ σ' : Type} [Read σ] [Read σ']
    {P : ∀ {γ : Type}, OnStream σ γ → OnStream σ' γ → Prop}
    (hexact : ∀ n, P (Read.readExact n) (Read.readExact n))
    (hlift : ∀ {γ : Type} (r : Except Error γ), (∀ e, r = .error e → e.Inherent) →
      P (OnStream.lift r) (OnStream.lift r))
    (hbind : ∀ {γ δ : Type} {x : OnStream σ γ} {y : OnStream σ' γ} {f : γ → OnStream σ δ}
      {g : γ → OnStream σ' δ}, P x y → (∀ a, P (f a) (g a)) → P (x >>= f) (y >>= g)) :
    P (PeerMessageReader.readPeerMessage libs) (PeerMessageReader.readPeerMessage libs) := by
  have hfail : ∀ {γ : Type} {e : Error}, e.Inherent →
      P (OnStream.lift (.error e : Except Error γ)) (OnStream.lift (.error e)) :=
    fun he => hlift _ fun _ heq => Except.error.inj heq ▸ he
  have hany : P (AnyReader.readAny libs) (AnyReader.readAny libs) := by
    refine hbind (hexact _) fun lenBuf => ?_
    dsimp only
    split
    · exact hfail trivial
    split
    · exact hfail trivial
    refine hbind (hexact _) fun msgBuf => ?_
    cases libs.prost.any.decode msgBuf with
    | ok any => exact hlift (.ok any) fun _ heq => nomatch heq
    | error e => exact hfail trivial
  refine hbind hany fun any => hlift _ fun e he => ?_
  rcases ofAny_error libs he with rfl | ⟨re, rfl⟩ <;> trivial

/-- **One message.** -/
theorem agrees_readPeerMessage :
    Agrees (PeerMessageReader.readPeerMessage libs : OnStream Bytes PeerMessage)
      (PeerMessageReader.readPeerMessage libs : OnStream ρ PeerMessage) :=
  readPeerMessage_rule libs agrees_readExact
    (fun _ hr => agrees_lift fun e he => (hr e he).kind_ne) Agrees.bind

end

/-! ## What can be read of a byte string -/

theorem readPeerMessage_shorter {libs : Libs} {bs t : Bytes} {msg : PeerMessage}
    (h : PeerMessageReader.readPeerMessage libs bs = (.ok msg, t)) : t.length < bs.length := by
  have hexact : ∀ {n : Nat} {bs t out : Bytes},
      (Read.readExact n : OnStream Bytes Bytes) bs = (.ok out, t) →
        t.length + n = bs.length := by
    intro n bs t out h
    change (if n ≤ bs.length then _ else _) = _ at h
    split at h
    · obtain ⟨-, rfl⟩ := Prod.mk.inj h
      rw [List.length_drop]
      omega
    · cases h
  obtain ⟨any, t₁, hany, hmsg⟩ := OnStream.bind_eq_ok.mp h
  obtain rfl : t₁ = t := (Prod.mk.inj hmsg).2
  obtain ⟨lenBuf, t₂, hlen, hrest⟩ := OnStream.bind_eq_ok.mp hany
  have hdelim := hexact hlen
  simp only [lengthDelimiterLen] at hdelim
  split at hrest
  · cases hrest
  split at hrest
  · cases hrest
  obtain ⟨msgBuf, t₃, hmsgBuf, hend⟩ := OnStream.bind_eq_ok.mp hrest
  have hbody := hexact hmsgBuf
  cases hdecode : libs.prost.any.decode msgBuf with
  | ok any' =>
      rw [hdecode] at hend
      obtain rfl : t₃ = t₁ := (Prod.mk.inj hend).2
      omega
  | error e =>
      rw [hdecode] at hend
      cases hend

/-- The messages of the frames of a byte string, up to the first one that
does not parse. -/
def messages (libs : Libs) (bs : Bytes) : List PeerMessage :=
  match _h : PeerMessageReader.readPeerMessage libs bs with
  | (.ok msg, t) => msg :: messages libs t
  | (.error _, _) => []
termination_by bs.length
decreasing_by exact readPeerMessage_shorter _h

theorem messages_ok {libs : Libs} {bs t : Bytes} {msg : PeerMessage}
    (h : PeerMessageReader.readPeerMessage libs bs = (.ok msg, t)) :
    messages libs bs = msg :: messages libs t := by
  rw [messages]
  split
  · next h' => cases h.symm.trans h'; rfl
  · next h' => cases h.symm.trans h'

theorem messages_error {libs : Libs} {bs t : Bytes} {e : Error}
    (h : PeerMessageReader.readPeerMessage libs bs = (.error e, t)) : messages libs bs = [] := by
  rw [messages]
  split
  · next h' => cases h.symm.trans h'
  · rfl

/-! ## Sockets -/

/-- What is still to come on a connection: the bytes in the pieces that
reads find, and the error after them, if it does not end by being closed. -/
structure Socket where
  chunks : List { bs : Bytes // bs ≠ [] }
  ending : Option ErrorKind

namespace Socket

def left (s : Socket) : Bytes := (s.chunks.map Subtype.val).flatten

/-- A read comes back with what of the next piece it has room for. -/
def read (n : Nat) : OnStream Socket Bytes := fun s =>
  match s.chunks with
  | [] => (atEnd s.ending, s)
  | chunk :: rest =>
      if h : n < chunk.val.length then
        (.ok (chunk.val.take n),
          { s with chunks := ⟨chunk.val.drop n, by simpa using h⟩ :: rest })
      else
        (.ok chunk.val, { s with chunks := rest })

instance : Source Socket where
  left := left
  ending := Socket.ending
  read := read
  read_left := by
    rintro n ⟨chunks, ending⟩ hn hleft
    cases chunks with
    | nil => exact absurd rfl hleft
    | cons chunk rest =>
        by_cases hlen : n < chunk.val.length
        · refine ⟨_, _, dif_pos hlen, ?_, List.length_take_le _ _, ?_, rfl⟩
          · intro htake
            rcases List.take_eq_nil_iff.mp htake with h | h
            · omega
            · exact chunk.property h
          · simp [left, ← List.append_assoc]
        · exact ⟨_, _, dif_neg hlen, chunk.property, Nat.le_of_not_lt hlen, rfl, rfl⟩
  read_end := by
    rintro n ⟨chunks, ending⟩ hn hleft
    cases chunks with
    | nil => exact ⟨_, rfl⟩
    | cons chunk rest => exact absurd (List.append_eq_nil_iff.mp hleft).1 chunk.property

end Socket

/-! ## Buffered readers -/

/-- A reader that reads ahead. -/
structure BufReader (ρ : Type) where
  buffer : Bytes
  inner : ρ

namespace BufReader

variable {ρ : Type} [Source ρ]

def new (inner : ρ) : BufReader ρ := ⟨[], inner⟩

def capacity : Nat := 8192

/-- Serves a read from the buffer, which it fills when it is empty. A read
that is no smaller than the buffer goes past it then. -/
def read (n : Nat) : OnStream (BufReader ρ) Bytes := fun r =>
  if r.buffer = [] then
    if capacity ≤ n then
      let (res, inner) := Source.read n r.inner
      (res, ⟨[], inner⟩)
    else
      match Source.read capacity r.inner with
      | (.ok bs, inner) => (.ok (bs.take n), ⟨bs.drop n, inner⟩)
      | (.error e, inner) => (.error e, ⟨[], inner⟩)
  else
    (.ok (r.buffer.take n), ⟨r.buffer.drop n, r.inner⟩)

instance : Source (BufReader ρ) where
  left r := r.buffer ++ Source.left r.inner
  ending r := Source.ending r.inner
  read := read
  read_left := by
    rintro n ⟨buffer, inner⟩ hn hleft
    by_cases hbuf : buffer = []
    · subst hbuf
      by_cases hlarge : capacity ≤ n
      · obtain ⟨bs, inner', hread, hbs⟩ := Source.read_left hn hleft
        refine ⟨bs, ⟨[], inner'⟩, ?_, hbs⟩
        simp [read, hlarge, hread]
      · obtain ⟨bs, inner', hread, hbs, -, hall, hend⟩ :=
          Source.read_left (n := capacity) (by decide) hleft
        refine ⟨bs.take n, ⟨bs.drop n, inner'⟩, ?_, ?_, List.length_take_le _ _, ?_, hend⟩
        · simp [read, hlarge, hread]
        · intro htake
          rcases List.take_eq_nil_iff.mp htake with h | h
          · omega
          · exact hbs h
        · simpa [← List.append_assoc] using hall
    · refine ⟨buffer.take n, ⟨buffer.drop n, inner⟩, ?_, ?_, List.length_take_le _ _, ?_, rfl⟩
      · simp [read, hbuf]
      · intro htake
        rcases List.take_eq_nil_iff.mp htake with h | h
        · omega
        · exact hbuf h
      · simp [← List.append_assoc]
  read_end := by
    rintro n ⟨buffer, inner⟩ hn hleft
    obtain ⟨rfl, hinner⟩ := List.append_eq_nil_iff.mp hleft
    by_cases hlarge : capacity ≤ n
    · obtain ⟨inner', hread⟩ := Source.read_end hn hinner
      exact ⟨⟨[], inner'⟩, by simp [read, hlarge, hread]⟩
    · obtain ⟨inner', hread⟩ := Source.read_end (n := capacity) (by decide) hinner
      refine ⟨⟨[], inner'⟩, ?_⟩
      cases hend : Source.ending inner <;> simp [read, hlarge, hread, hend, atEnd]

end BufReader

end Reactor.Sn
