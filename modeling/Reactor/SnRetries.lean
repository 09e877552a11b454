import Reactor.SnAdmission
import Reactor.SnUnfinished

/-!
# The seed node: retries

A receiving thread on a stream that is not always ready. When a read
reports `WouldBlock` the loop pauses and reads again, from the beginning of
a frame: what it had read of one is gone with the buffers it was read into.

**`wouldBlock_transparent_iff`**: that goes unnoticed, whatever is found
next, as long as no `WouldBlock` comes in the middle of a frame; and no
longer.
-/

namespace Reactor.Sn

open Proto3 (Bytes)
open Source (left ending)

/-! ## The loop -/

/-- What a read finds: some bytes, or `WouldBlock`. -/
abbrev Found := Option { bs : Bytes // bs ≠ [] }

/-- The socket up to the first `WouldBlock`, and what is found after that. -/
def ready (ending : Option ErrorKind) : List Found → Socket × Option (List Found)
  | [] => (⟨[], ending⟩, none)
  | none :: found => (⟨[], some .wouldBlock⟩, some found)
  | some chunk :: found =>
      let (socket, later) := ready ending found
      (⟨chunk :: socket.chunks, socket.ending⟩, later)

theorem ready_later {ending : Option ErrorKind} {found later : List Found}
    (h : (ready ending found).2 = some later) : later.length < found.length := by
  induction found with
  | nil => cases h
  | cons f found ih =>
      cases f with
      | none =>
          obtain rfl := Option.some.inj h
          exact Nat.lt_succ_self _
      | some chunk => exact Nat.lt_succ_of_lt (ih h)

section Iteration

variable {libs : Libs} (id : ID) {reader : BufReader Socket}

theorem settled_reader : Settled (BufReader Socket) := settled_socket.bufReader

/-- Reading a byte string does not block. -/
theorem readPeerMessage_kind {bs rest : Bytes} {e : Error}
    (h : PeerMessageReader.readPeerMessage libs bs = (.error e, rest)) : e.kind ≠ .wouldBlock := by
  intro hkind
  have hleft : left (⟨bs, ⟨[], none⟩⟩ : BufReader Socket) = bs := List.append_nil bs
  rw [← hleft] at h
  obtain ⟨e', s', hread, hblock⟩ :=
    (@agrees_readPeerMessage (BufReader Socket) _ libs).error h
  obtain ⟨s'', hread', -⟩ := failsAlike_readPeerMessage settled_reader _ _ _ h
  have hsame : e.under none = e := by cases e <;> rfl
  obtain ⟨rfl, -⟩ : e = e' ∧ s'' = s' := by
    simpa [ending, hsame] using hread'.symm.trans hread
  cases hblock hkind

theorem remotePeerReceiveLoop_ok {msg : PeerMessage} {rest : Bytes}
    (h : PeerMessageReader.readPeerMessage libs (left reader) = (.ok msg, rest)) :
    ∃ reader', remotePeerReceiveLoop libs id true reader =
        ([.peer (.receivedMessage id msg)], reader', true) ∧
      left reader' = rest ∧ ending reader' = ending reader := by
  obtain ⟨reader', hread, hreader'⟩ := (agrees_readPeerMessage libs).ok h
  exact ⟨reader', by simp [remotePeerReceiveLoop, hread], hreader'⟩

/-- Where bytes are missing and the stream is not ready, the loop pauses. -/
theorem remotePeerReceiveLoop_block {rest : Bytes}
    (h : PeerMessageReader.readPeerMessage libs (left reader) = (.error .unexpectedEof, rest))
    (hending : ending reader = some .wouldBlock) :
    ∃ reader', remotePeerReceiveLoop libs id true reader = ([], reader', true) ∧
      left reader' = [] := by
  obtain ⟨reader', hread, hreader'⟩ := failsAlike_readPeerMessage settled_reader _ _ _ h
  refine ⟨reader', ?_, (hreader' rfl).1⟩
  simp [remotePeerReceiveLoop, hread, hending, Error.under, Error.kind]

theorem remotePeerReceiveLoop_over {e : Error} {rest : Bytes}
    (h : PeerMessageReader.readPeerMessage libs (left reader) = (.error e, rest))
    (hover : e ≠ .unexpectedEof ∨ ending reader ≠ some .wouldBlock) :
    ∃ reader', remotePeerReceiveLoop libs id true reader =
      ([.peer (.disconnect id)], reader', false) := by
  obtain ⟨reader', hread, -⟩ := failsAlike_readPeerMessage settled_reader _ _ _ h
  have hkind : (e.under (ending reader)).kind ≠ .wouldBlock := by
    by_cases he : e = .unexpectedEof
    · subst he
      have hending := hover.resolve_left (by simp)
      cases hend : ending reader with
      | none => simp [Error.under, Error.kind]
      | some kind => simpa [Error.under, Error.kind, hend] using hending
    · have hsame : e.under (ending reader) = e := by
        cases e <;> first | rfl | exact absurd rfl he
      rw [hsame]
      exact readPeerMessage_kind h
  exact ⟨reader', by simp [remotePeerReceiveLoop, hread, hkind]⟩

variable {id} in
theorem remotePeerReceiveLoop_shorter {ev : Event} {evs : List Event} {reader' : BufReader Socket}
    (h : remotePeerReceiveLoop libs id true reader = (ev :: evs, reader', true)) :
    (left reader').length < (left reader).length := by
  cases hread : PeerMessageReader.readPeerMessage libs (left reader) with
  | mk r rest =>
      cases r with
      | ok msg =>
          obtain ⟨reader₁, hloop, hleft, -⟩ := remotePeerReceiveLoop_ok id hread
          obtain ⟨-, rfl⟩ : _ ∧ reader₁ = reader' := by simpa using hloop.symm.trans h
          exact hleft ▸ readPeerMessage_shorter hread
      | error e =>
          by_cases hover : e ≠ .unexpectedEof ∨ ending reader ≠ some .wouldBlock
          · obtain ⟨reader₁, hloop⟩ := remotePeerReceiveLoop_over id hread hover
            simp [hloop] at h
          · obtain ⟨rfl, hending⟩ : e = .unexpectedEof ∧ ending reader = some .wouldBlock := by
              simpa [not_or] using hover
            obtain ⟨reader₁, hloop, -⟩ := remotePeerReceiveLoop_block id hread hending
            simp [hloop] at h

end Iteration

/-- The events of `remote_peer_receive_loop`, iteration after iteration.
After a `WouldBlock` and a pause, what is found later is there. -/
def receives (libs : Libs) (id : ID) (ending : Option ErrorKind) (reader : BufReader Socket)
    (later : Option (List Found)) : List Event :=
  match _h : remotePeerReceiveLoop libs id true reader with
  | (evs, _, false) => evs
  | (ev :: evs, reader, true) => ev :: evs ++ receives libs id ending reader later
  | ([], reader, true) =>
      match later with
      | none => [] -- pausing for ever
      | some found =>
          receives libs id ending ⟨reader.buffer, (ready ending found).1⟩ (ready ending found).2
termination_by (later.elim 0 fun found => found.length + 1, (left reader).length)
decreasing_by
  · exact Prod.Lex.right _ (remotePeerReceiveLoop_shorter _h)
  · refine Prod.Lex.left _ _ ?_
    cases hlater : (ready ending found).2 with
    | none => exact Nat.succ_pos _
    | some later => exact Nat.succ_lt_succ (ready_later hlater)

/-- The events of a receiving thread, by what its reads find and how the
stream ends. -/
def receivedEvents (libs : Libs) (id : ID) (ending : Option ErrorKind) (found : List Found) :
    List Event :=
  receives libs id ending (.new (ready ending found).1) (ready ending found).2

/-! ## The loop by the bytes it holds -/

section

variable (libs : Libs) (id : ID) (ending : Option ErrorKind)

/-- The messages of a byte string, as events. -/
def passedOn (bs : Bytes) : List Event :=
  (messages libs bs).map fun msg => .peer (.receivedMessage id msg)

/-- What follows when no more of a frame can be read: what comes of a
retry, or the end. -/
def onward (held : Option Bytes) (retry : Option (List Event)) : List Event :=
  match held, retry with
  | none, _ => [.peer (.disconnect id)]
  | some _, some evs => evs
  | some _, none => if ending = some .wouldBlock then [] else [.peer (.disconnect id)]

/-- What the loop makes of what it finds, when it holds the beginning of a
frame; a `WouldBlock` makes it lose that. -/
def enqueued : Bytes → List Found → List Event
  | held, [] => passedOn libs id held ++ onward id ending (unfinished libs held) none
  | held, some chunk :: found => enqueued (held ++ chunk.val) found
  | held, none :: found =>
      passedOn libs id held ++ onward id ending (unfinished libs held) (some (enqueued [] found))

/-- The bytes of a frame the loop holds after what it has found, unless it
has returned. -/
def heldAfter : Bytes → List Found → Option Bytes
  | held, [] => unfinished libs held
  | held, some chunk :: found => heldAfter (held ++ chunk.val) found
  | held, none :: found => (unfinished libs held).bind fun _ => heldAfter [] found

end

/-- A `WouldBlock` after this comes in the middle of a frame. -/
def Torn (libs : Libs) (before : List Found) : Prop := (heldAfter libs [] before).getD [] ≠ []

/-- What is found, without the `WouldBlock`s. -/
def prompt (found : List Found) : List Found := found.filter (·.isSome)

section

variable {libs : Libs} {id : ID} {end? : Option ErrorKind}

/-- The loop up to the next `WouldBlock`. -/
theorem receives_eq (reader : BufReader Socket) (later : Option (List Found))
    (hending : ending reader = if later.isSome then some .wouldBlock else end?) :
    receives libs id end? reader later = passedOn libs id (left reader) ++
      onward id end? (unfinished libs (left reader))
        (later.map fun found => receivedEvents libs id end? found) := by
  induction hbs : left reader using messages_induction libs generalizing reader with
  | hok bs msg rest hread ih =>
      obtain ⟨reader', hloop, hleft, hend⟩ := remotePeerReceiveLoop_ok id (hbs ▸ hread)
      rw [receives, hloop, passedOn, messages_ok hread, unfinished_ok hread]
      simp only [ih reader' (hend.trans hending) hleft, passedOn, List.map_cons, List.cons_append,
        List.nil_append]
  | herror bs e rest hread =>
      rw [passedOn, messages_error hread, unfinished_error hread, List.map_nil, List.nil_append]
      by_cases hover : e ≠ .unexpectedEof ∨ ending reader ≠ some .wouldBlock
      · obtain ⟨reader', hloop⟩ := remotePeerReceiveLoop_over id (hbs ▸ hread) hover
        rw [receives, hloop]
        by_cases he : e = .unexpectedEof
        · have hend := hover.resolve_left (not_not_intro he)
          cases later with
          | none => simp_all [onward]
          | some found => simp_all
        · rw [if_neg he]
          rfl
      · obtain ⟨rfl, hend⟩ : e = .unexpectedEof ∧ ending reader = some .wouldBlock := by
          simpa [not_or] using hover
        obtain ⟨reader', hloop, hleft⟩ :=
          remotePeerReceiveLoop_block id (hbs ▸ hread) hend
        have hbuffer : reader'.buffer = [] := (List.append_eq_nil_iff.mp hleft).1
        rw [receives, hloop, if_pos rfl]
        cases later with
        | none => simp_all [onward]
        | some found => simp [onward, receivedEvents, BufReader.new, hbuffer]

theorem ready_ending (found : List Found) :
    (ready end? found).1.ending =
      if (ready end? found).2.isSome then some .wouldBlock else end? := by
  induction found with
  | nil => rfl
  | cons f found ih =>
      cases f with
      | none => rfl
      | some chunk => exact ih

theorem enqueued_ready (held : Bytes) (found : List Found) :
    enqueued libs id end? held found =
      passedOn libs id (held ++ (ready end? found).1.left) ++
        onward id end? (unfinished libs (held ++ (ready end? found).1.left))
          ((ready end? found).2.map fun later => enqueued libs id end? [] later) := by
  induction found generalizing held with
  | nil => simp [enqueued, ready, Socket.left]
  | cons f found ih =>
      cases f with
      | none => simp [enqueued, ready, Socket.left]
      | some chunk =>
          have hleft : (ready end? (some chunk :: found)).1.left =
              chunk.val ++ (ready end? found).1.left := rfl
          rw [enqueued, ih, hleft, List.append_assoc]
          rfl

/-- **The loop enqueues what it is said to**, however the bytes are read
ahead. -/
theorem receivedEvents_eq (found : List Found) :
    receivedEvents libs id end? found = enqueued libs id end? [] found := by
  induction hn : found.length using Nat.strong_induction_on generalizing found with
  | _ n ih =>
      have hleft : left (BufReader.new (ready end? found).1) = [] ++ (ready end? found).1.left :=
        rfl
      rw [receivedEvents, receives_eq _ _ (ready_ending found), enqueued_ready, hleft]
      cases hlater : (ready end? found).2 with
      | none => rfl
      | some later =>
          rw [Option.map_some, Option.map_some, ih _ (hn ▸ ready_later hlater) later rfl]

/-! ## What it holds -/

theorem unfinished_self {bs q : Bytes} (h : unfinished libs bs = some q) :
    messages libs q = [] ∧ unfinished libs q = some q := by
  obtain ⟨rest, hread⟩ := unfinished_eq_some h
  exact ⟨messages_error hread, by rw [unfinished_error hread, if_pos rfl]⟩

/-- It makes no difference whether the frames are taken before the end. -/
theorem onward_held (held : Bytes) (retry : Option (List Event)) :
    onward id end? (unfinished libs held) retry =
      ((unfinished libs held).map fun q =>
        passedOn libs id q ++ onward id end? (unfinished libs q) retry).getD
          [.peer (.disconnect id)] := by
  cases hq : unfinished libs held with
  | none => rfl
  | some q =>
      obtain ⟨hmsgs, hself⟩ := unfinished_self hq
      simp [hself, passedOn, hmsgs]

/-- What the loop enqueues of the bytes it has, and then as if it had none
but those it holds. -/
theorem enqueued_held (held : Bytes) (found : List Found) :
    enqueued libs id end? held found = passedOn libs id held ++
      ((unfinished libs held).map fun q => enqueued libs id end? q found).getD
        [.peer (.disconnect id)] := by
  induction found generalizing held with
  | nil => exact congrArg _ (onward_held held none)
  | cons f found ih =>
      cases f with
      | none => exact congrArg _ (onward_held held (some (enqueued libs id end? [] found)))
      | some chunk =>
          rw [enqueued, ih, passedOn, messages_append, unfinished_append]
          cases hq : unfinished libs held with
          | none => simp [passedOn]
          | some q =>
              simp only [enqueued, Option.map_some, Option.getD_some, Option.bind_some,
                List.map_append, List.append_assoc]
              rw [ih (q ++ chunk.val)]
              rfl

/-- What comes later makes no difference to what has been enqueued before,
and goes on with what the loop holds. -/
theorem enqueued_append (held : Bytes) (before : List Found) : ∃ evs, ∀ after,
    enqueued libs id end? held (before ++ after) = evs ++
      ((heldAfter libs held before).map fun q => enqueued libs id end? q after).getD
        [.peer (.disconnect id)] := by
  induction before generalizing held with
  | nil => exact ⟨_, fun after => enqueued_held held after⟩
  | cons f before ih =>
      cases f with
      | some chunk => exact ih (held ++ chunk.val)
      | none =>
          obtain ⟨evs, hevs⟩ := ih []
          cases hq : unfinished libs held with
          | none => exact ⟨passedOn libs id held, fun after => by
              simp [enqueued, heldAfter, hq, onward]⟩
          | some q => exact ⟨passedOn libs id held ++ evs, fun after => by
              simp [enqueued, heldAfter, hq, onward, hevs]⟩

/-- **Transparency.** A `WouldBlock` that comes when the loop holds nothing
makes no difference. -/
theorem enqueued_prompt (held : Bytes) {found : List Found}
    (h : ∀ before, before ++ [none] <+: found → (heldAfter libs held before).getD [] = []) :
    enqueued libs id end? held found = enqueued libs id end? held (prompt found) := by
  induction found generalizing held with
  | nil => rfl
  | cons f found ih =>
      cases f with
      | some chunk =>
          refine ih (held ++ chunk.val) fun before hbefore => ?_
          exact h (some chunk :: before) (List.cons_prefix_cons.mpr ⟨rfl, hbefore⟩)
      | none =>
          have hnow : (unfinished libs held).getD [] = [] := h [] (by simp)
          have hprompt : prompt (none :: found) = prompt found := rfl
          rw [hprompt, enqueued_held held (prompt found), enqueued]
          cases hq : unfinished libs held with
          | none => rfl
          | some q =>
              obtain rfl : q = [] := by simpa [hq] using hnow
              have hrest := ih [] fun before hbefore => by
                have hheld := h (none :: before) (List.cons_prefix_cons.mpr ⟨rfl, hbefore⟩)
                simpa [heldAfter, hq] using hheld
              rw [hrest]
              rfl

end

/-! ## What is lost -/

/-- Prost writes an `Any` and a hello as proto3 has it. -/
structure WritesProto3 (prost : Protos.Prost) : Prop where
  any : ∀ any, prost.any.bytes any = Protos.Prost.proto3.any.bytes any
  peerHello : ∀ hello, prost.peerHello.bytes hello = Protos.Prost.proto3.peerHello.bytes hello

/-- The frame of a hello. -/
def helloFrame (id : ID) : Bytes := frame (PeerMessage.body .standard (.hello ⟨id⟩))

section

variable {libs : Libs}

theorem body_hello (h : WritesProto3 libs.prost) (hello : PeerHello) :
    PeerMessage.body libs (.hello hello) = PeerMessage.body .standard (.hello hello) := by
  simp [PeerMessage.body, PeerMessage.packed, Libs.standard, h.any, h.peerHello]

theorem parseBody_hello (h : libs.prost.Lawful) (hello : PeerHello) :
    parseBody libs (PeerMessage.body libs (.hello hello)) = .ok (.hello hello) := by
  have hany := h.any (PeerMessage.packed libs (.hello hello))
  unfold parseBody PeerMessage.body
  rw [hany]
  show PeerMessage.ofAny libs (PeerMessage.packed libs (.hello hello)) = _
  have hrequest : typeurlPeerHello ≠ typeurlAddressBookRequest := by decide
  have hbook : typeurlPeerHello ≠ typeurlAddressBook := by decide
  rw [PeerMessage.packed, PeerMessage.ofAny, if_neg hrequest, if_neg hbook, if_pos rfl,
    fromProtobufAny]
  simp only [h.peerHello ⟨hello.id⟩]
  rfl

theorem readPeerMessage_hello (h : libs.prost.Lawful) (hbytes : WritesProto3 libs.prost) (id : ID)
    (hlen : Acceptable (PeerMessage.body .standard (.hello ⟨id⟩)).length) (t : Bytes) :
    PeerMessageReader.readPeerMessage libs (helloFrame id ++ t) = (.ok (.hello ⟨id⟩), t) := by
  rw [helloFrame, readPeerMessage_frame libs hlen, ← body_hello hbytes, parseBody_hello h]

theorem encode_decodeLengthDelimiter {delim : Bytes} (h : delim.length = lengthDelimiterLen) :
    encodeLengthDelimiter (decodeLengthDelimiter delim) = delim := by
  obtain ⟨a, b, rfl⟩ := List.length_eq_two.mp h
  have hdecode : decodeLengthDelimiter [a, b] = a.toNat + 256 * b.toNat := by
    simp [decodeLengthDelimiter, fromLeBytes, lengthDelimiterLen, List.replicate]
  have ha := a.toNat_lt
  have hb := b.toNat_lt
  rw [hdecode]
  have hlow : (a.toNat + 256 * b.toNat) % 256 = a.toNat := by omega
  have hhigh : (a.toNat + 256 * b.toNat) / 256 % 256 = b.toNat := by omega
  simp [encodeLengthDelimiter, lengthDelimiterLen, toLeBytes, hlow, hhigh]

/-- A body is never too short to be parsed. -/
theorem parseBody_error {body : Bytes} : parseBody libs body ≠ .error .unexpectedEof := by
  unfold parseBody
  cases libs.prost.any.decode body with
  | error e =>
      intro h
      cases h
  | ok any =>
      intro h
      have h : PeerMessage.ofAny libs any = .error .unexpectedEof := h
      rcases ofAny_error libs h with he | ⟨re, he⟩ <;> cases he

theorem readPeerMessage_short (libs : Libs) {delim body : Bytes}
    (hdelim : delim.length = lengthDelimiterLen) (hacc : Acceptable (decodeLengthDelimiter delim))
    (hshort : body.length < decodeLengthDelimiter delim) :
    ∃ rest, PeerMessageReader.readPeerMessage libs (delim ++ body) =
      (.error .unexpectedEof, rest) := by
  have hexact : (Read.readExact (decodeLengthDelimiter delim) : OnStream Bytes Bytes) body =
      (.error .unexpectedEof, []) := if_neg (by omega)
  have hany : AnyReader.readAny libs (delim ++ body) = (.error .unexpectedEof, []) := by
    rw [AnyReader.readAny, OnStream.bind_ok (readExact_append hdelim body),
      if_neg (Nat.pos_iff_ne_zero.mp hacc.1), if_neg (Nat.not_lt.mpr hacc.2)]
    exact OnStream.bind_error hexact
  exact ⟨_, OnStream.bind_error hany⟩

/-- A delimiter and as many bytes as it says are a frame. -/
theorem delimiter_append {delim body : Bytes} (hdelim : delim.length = lengthDelimiterLen)
    (hlen : decodeLengthDelimiter delim ≤ body.length) :
    delim ++ body = frame (body.take (decodeLengthDelimiter delim)) ++
      body.drop (decodeLengthDelimiter delim) := by
  rw [frame, List.length_take, Nat.min_eq_left hlen, encode_decodeLengthDelimiter hdelim,
    List.append_assoc, List.take_append_drop]

theorem readPeerMessage_delimiter (libs : Libs) {delim : Bytes}
    (hdelim : delim.length = lengthDelimiterLen)
    (hacc : ¬Acceptable (decodeLengthDelimiter delim)) (t : Bytes) :
    ∃ e, PeerMessageReader.readPeerMessage libs (delim ++ t) = (.error (.reader e), t) :=
  ⟨_, OnStream.bind_error (readAny_delimiter hdelim hacc t)⟩

/-- The beginning of a frame. -/
theorem unfinished_cases {q rest : Bytes}
    (h : PeerMessageReader.readPeerMessage libs q = (.error .unexpectedEof, rest)) :
    q.length < lengthDelimiterLen ∨ ∃ delim body : Bytes, q = delim ++ body ∧
      delim.length = lengthDelimiterLen ∧ Acceptable (decodeLengthDelimiter delim) ∧
      body.length < decodeLengthDelimiter delim := by
  by_cases hlen : q.length < lengthDelimiterLen
  · exact .inl hlen
  obtain ⟨delim, body, rfl, hdelim⟩ : ∃ delim body : Bytes, q = delim ++ body ∧
      delim.length = lengthDelimiterLen :=
    ⟨_, _, (List.take_append_drop lengthDelimiterLen q).symm, by rw [List.length_take]; omega⟩
  have hacc : Acceptable (decodeLengthDelimiter delim) := by
    by_contra hacc
    obtain ⟨e, hread⟩ := readPeerMessage_delimiter libs hdelim hacc body
    cases h.symm.trans hread
  refine .inr ⟨delim, body, rfl, hdelim, hacc, ?_⟩
  by_contra hlong
  have hlong : decodeLengthDelimiter delim ≤ body.length := by omega
  have hbody : Acceptable (body.take (decodeLengthDelimiter delim)).length := by
    rwa [List.length_take, Nat.min_eq_left hlong]
  have hread := readPeerMessage_frame libs hbody (body.drop (decodeLengthDelimiter delim))
  rw [← delimiter_append hdelim hlong, h] at hread
  exact parseBody_error (Prod.mk.inj hread).1.symm

/-- The frames of "aa" and "ab" differ in their last byte only, and that of
"a" is shorter. -/
theorem helloFrames : ∃ bs : Bytes, bs.length = 17 ∧ helloFrame "aa" = 17 :: bs ++ [97] ∧
    helloFrame "ab" = 17 :: bs ++ [98] ∧ (helloFrame "a").length = 18 :=
  ⟨((helloFrame "aa").drop 1).take 17, by decide⟩

section

variable (h : libs.prost.Lawful) (hbytes : WritesProto3 libs.prost)

include h hbytes

theorem messages_helloFrame {id : ID}
    (hlen : Acceptable (PeerMessage.body .standard (.hello ⟨id⟩)).length) :
    messages libs (helloFrame id) = [.hello ⟨id⟩] := by
  have hread := readPeerMessage_hello h hbytes id hlen []
  rw [List.append_nil] at hread
  rw [messages_ok hread, messages_error (e := .unexpectedEof) (t := [])]
  rfl

/-- Half a delimiter becomes that of a message too large. -/
theorem half_noticed (a : UInt8) :
    messages libs ([a] ++ helloFrame "aa") ≠ messages libs (helloFrame "aa") := by
  obtain ⟨shared, -, haa, -, -⟩ := helloFrames
  have hlarge : ¬Acceptable (decodeLengthDelimiter [a, 17]) := by
    rintro ⟨-, hmax⟩
    have hdecode : decodeLengthDelimiter [a, 17] = a.toNat + 256 * 17 := by
      simp [decodeLengthDelimiter, fromLeBytes, lengthDelimiterLen, List.replicate]
    have hmax : decodeLengthDelimiter [a, 17] ≤ 1024 := hmax
    omega
  obtain ⟨e, hread⟩ := readPeerMessage_delimiter libs rfl hlarge (shared ++ [97])
  have hsplit : [a] ++ helloFrame "aa" = [a, 17] ++ (shared ++ [97]) := by
    rw [haa]
    rfl
  rw [hsplit, messages_error hread, messages_helloFrame h hbytes (by decide)]
  exact (List.cons_ne_nil _ _).symm

variable {delim body : Bytes} (hdelim : delim.length = lengthDelimiterLen)
  (hacc : Acceptable (decodeLengthDelimiter delim))

include hdelim hacc

/-- Where two frames both have the bytes that were missing, the message is
not that of both. -/
theorem short_noticed (hk : decodeLengthDelimiter delim ≤ body.length + 18) :
    ∃ id, messages libs (delim ++ body ++ helloFrame id) ≠ messages libs (helloFrame id) := by
  obtain ⟨shared, hshared, haa, hab, -⟩ := helloFrames
  have hlong : decodeLengthDelimiter delim ≤ (body ++ 17 :: shared).length := by
    rw [List.length_append, List.length_cons, hshared]
    exact hk
  have hbody : Acceptable ((body ++ 17 :: shared).take (decodeLengthDelimiter delim)).length := by
    rwa [List.length_take, Nat.min_eq_left hlong]
  -- what is made of the first frame does not depend on the last byte
  have hframe : ∀ c : UInt8, ∃ t, PeerMessageReader.readPeerMessage libs
      (delim ++ body ++ (17 :: shared ++ [c])) =
        (parseBody libs ((body ++ 17 :: shared).take (decodeLengthDelimiter delim)), t) := by
    intro c
    have hsplit : delim ++ body ++ (17 :: shared ++ [c]) =
        frame ((body ++ 17 :: shared).take (decodeLengthDelimiter delim)) ++
          ((body ++ 17 :: shared).drop (decodeLengthDelimiter delim) ++ [c]) := by
      rw [← List.append_assoc (frame _), ← delimiter_append hdelim hlong]
      simp
    rw [hsplit, readPeerMessage_frame libs hbody]
    exact ⟨_, rfl⟩
  have hfirst : ∀ (c : UInt8) (id : ID),
      messages libs (delim ++ body ++ (17 :: shared ++ [c])) = [.hello ⟨id⟩] →
        parseBody libs ((body ++ 17 :: shared).take (decodeLengthDelimiter delim)) =
          .ok (.hello ⟨id⟩) := by
    intro c id hmsg
    obtain ⟨t, ht⟩ := hframe c
    cases hparse : parseBody libs ((body ++ 17 :: shared).take (decodeLengthDelimiter delim)) with
    | error e =>
        rw [hparse] at ht
        rw [messages_error ht] at hmsg
        cases hmsg
    | ok msg =>
        rw [hparse] at ht
        rw [messages_ok ht] at hmsg
        rw [(List.cons.inj hmsg).1]
  by_contra hsame
  have hsame : ∀ id, messages libs (delim ++ body ++ helloFrame id) =
      messages libs (helloFrame id) := by simpa using hsame
  have hone := hfirst 97 "aa" (haa ▸ (hsame "aa").trans (messages_helloFrame h hbytes (by decide)))
  have htwo := hfirst 98 "ab" (hab ▸ (hsame "ab").trans (messages_helloFrame h hbytes (by decide)))
  simp [hone] at htwo

/-- Where one frame does not have all the bytes that were missing, there is
no message. -/
theorem long_noticed (hk : body.length + 18 < decodeLengthDelimiter delim) :
    messages libs (delim ++ body ++ helloFrame "a") ≠ messages libs (helloFrame "a") := by
  obtain ⟨-, -, -, -, ha⟩ := helloFrames
  have hshort : (body ++ helloFrame "a").length < decodeLengthDelimiter delim := by
    rw [List.length_append, ha]
    omega
  obtain ⟨rest, hread⟩ := readPeerMessage_short libs hdelim hacc hshort
  rw [List.append_assoc, messages_error hread, messages_helloFrame h hbytes (by decide)]
  exact (List.cons_ne_nil _ _).symm

end

/-- **A lost beginning is noticed**, with one of three hellos next. -/
theorem lost_noticed (h : libs.prost.Lawful) (hbytes : WritesProto3 libs.prost) {q rest : Bytes}
    (hq : q ≠ [])
    (hread : PeerMessageReader.readPeerMessage libs q = (.error .unexpectedEof, rest)) :
    ∃ id, messages libs (q ++ helloFrame id) ≠ messages libs (helloFrame id) := by
  rcases unfinished_cases hread with hlen | ⟨delim, body, rfl, hdelim, hacc, -⟩
  · obtain ⟨a, rfl⟩ : ∃ a, q = [a] := by
      have hpos := List.length_pos_iff.mpr hq
      have hone : q.length < 2 := hlen
      exact List.length_eq_one_iff.mp (by omega)
    exact ⟨"aa", half_noticed h hbytes a⟩
  · by_cases hk : decodeLengthDelimiter delim ≤ body.length + 18
    · exact short_noticed h hbytes hdelim hacc hk
    · exact ⟨"a", long_noticed h hbytes hdelim hacc (by omega)⟩

end

/-! ## When it goes unnoticed -/

section

variable {libs : Libs} {id : ID} {end? : Option ErrorKind}

theorem heldAfter_eq_some {held q : Bytes} {before : List Found}
    (h : heldAfter libs held before = some q) :
    ∃ rest, PeerMessageReader.readPeerMessage libs q = (.error .unexpectedEof, rest) := by
  induction before generalizing held with
  | nil => exact unfinished_eq_some h
  | cons f before ih =>
      cases f with
      | some chunk => exact ih h
      | none =>
          obtain ⟨-, -, h⟩ := Option.bind_eq_some_iff.mp h
          exact ih h

/-- The `WouldBlock`s among what is found come before more bytes. -/
theorem prefix_of_append_map {b before : List Found} {more : List { bs : Bytes // bs ≠ [] }}
    (h : b ++ [none] <+: before ++ more.map some) : b ++ [none] <+: before := by
  rcases Nat.lt_or_ge before.length (b ++ [none]).length with hlt | hge
  · rcases List.prefix_concat_iff.mp
      (List.prefix_of_prefix_length_le (List.prefix_append ..) h hlt.le) with rfl | ⟨c, rfl⟩
    · exact List.prefix_refl _
    · have hmore : c ++ [none] <+: more.map some := by
        simpa [List.append_assoc, List.prefix_append_right_inj] using h
      have hmem := hmore.subset (List.mem_append_right c (List.mem_singleton_self none))
      simp at hmem
  · exact List.prefix_of_prefix_length_le h (List.prefix_append ..) hge

/-- The message of an event. -/
def Event.message? : Event → Option PeerMessage
  | .peer (.receivedMessage _ msg) => some msg
  | _ => none

theorem messages_of_enqueued (held : Bytes) (chunk : { bs : Bytes // bs ≠ [] }) :
    (enqueued libs id end? held [some chunk]).filterMap Event.message? =
      messages libs (held ++ chunk.val) := by
  have honward : ∀ u, (onward id end? u none).filterMap Event.message? = [] := by
    intro u
    unfold onward
    split <;> try split
    all_goals simp_all [Event.message?]
  have hpassed : ∀ msgs : List PeerMessage, (msgs.map fun msg => Event.peer
      (.receivedMessage id msg)).filterMap Event.message? = msgs := by
    intro msgs
    simp [List.filterMap_map, Function.comp_def, Event.message?]
  rw [enqueued, enqueued, List.filterMap_append, honward, List.append_nil, passedOn, hpassed]

theorem helloFrame_ne_nil (id : ID) : helloFrame id ≠ [] := by
  intro hnil
  have hdelim := congrArg List.length (List.append_eq_nil_iff.mp hnil).1
  cases hdelim

/-- A `WouldBlock` where the loop holds something is noticed, if not by
what is found next then by something else. -/
theorem torn_noticed (h : libs.prost.Lawful) (hbytes : WritesProto3 libs.prost)
    {before : List Found} (htorn : Torn libs before) : ∃ chunk : { bs : Bytes // bs ≠ [] },
    enqueued libs id end? [] (before ++ [none, some chunk]) ≠
      enqueued libs id end? [] (before ++ [some chunk]) := by
  obtain ⟨q, hq, hne⟩ : ∃ q, heldAfter libs [] before = some q ∧ q ≠ [] := by
    cases hheld : heldAfter libs [] before with
    | none => simp [Torn, hheld] at htorn
    | some q => exact ⟨q, rfl, by simpa [Torn, hheld] using htorn⟩
  obtain ⟨rest, hread⟩ := heldAfter_eq_some hq
  obtain ⟨other, hother⟩ := lost_noticed h hbytes hne hread
  refine ⟨⟨helloFrame other, helloFrame_ne_nil other⟩, fun hsame => hother ?_⟩
  obtain ⟨evs, hevs⟩ := @enqueued_append libs id end? [] before
  rw [hevs, hevs, hq] at hsame
  have hafter := congrArg (List.filterMap Event.message?) (List.append_cancel_left hsame)
  have hlost : enqueued libs id end? q [none, some ⟨helloFrame other, helloFrame_ne_nil other⟩] =
      enqueued libs id end? [] [some ⟨helloFrame other, helloFrame_ne_nil other⟩] := by
    have hself : unfinished libs q = some q := by rw [unfinished_error hread, if_pos rfl]
    simp [enqueued, onward, passedOn, messages_error hread, hself]
  simp only [Option.map_some, Option.getD_some, hlost, messages_of_enqueued] at hafter
  exact hafter.symm

end

/-- **Retries.** However its bytes come, what a receiving thread enqueues
is the same without the `WouldBlock`s, whatever is found after any of them,
if and only if none comes in the middle of a frame. -/
theorem wouldBlock_transparent_iff {libs : Libs} (h : libs.prost.Lawful)
    (hbytes : WritesProto3 libs.prost) (id : ID) (ending : Option ErrorKind)
    (found : List Found) :
    (∀ before, before <+: found → ∀ more : List { bs : Bytes // bs ≠ [] },
      receivedEvents libs id ending (before ++ more.map some) =
        receivedEvents libs id ending (prompt (before ++ more.map some))) ↔
    ∀ before, before ++ [none] <+: found → ¬Torn libs before := by
  have hprompt : ∀ before, (∀ b, b ++ [none] <+: before → ¬Torn libs b) →
      ∀ more : List { bs : Bytes // bs ≠ [] },
        enqueued libs id ending [] (before ++ more.map some) =
          enqueued libs id ending [] (prompt (before ++ more.map some)) := by
    intro before hclean more
    refine enqueued_prompt [] fun b hb => ?_
    exact not_not.mp (hclean b (prefix_of_append_map hb))
  simp only [receivedEvents_eq]
  constructor
  · intro hsame before
    induction hn : before.length using Nat.strong_induction_on generalizing before with
    | _ n ih =>
        intro hbefore htorn
        obtain ⟨chunk, hchunk⟩ := @torn_noticed libs id ending h hbytes before htorn
        -- no `WouldBlock` before this one is noticed
        have hclean : ∀ b, b ++ [none] <+: before → ¬Torn libs b := by
          intro b hb
          have hlt : b.length < before.length := by
            have hle := hb.length_le
            rw [List.length_append, List.length_singleton] at hle
            omega
          exact ih b.length (hn ▸ hlt) b rfl
            (hb.trans ((List.prefix_append before [none]).trans hbefore))
        refine hchunk ?_
        have hblock := hsame (before ++ [none]) hbefore [chunk]
        have hnone := hprompt before hclean [chunk]
        have heq : prompt (before ++ [none] ++ [chunk].map some) =
            prompt (before ++ [chunk].map some) := by
          simp [prompt]
        rw [heq, ← hnone] at hblock
        simpa using hblock
  · intro hclean before hbefore more
    exact hprompt before (fun b hb => hclean b (hb.trans hbefore)) more

theorem writesProto3_standard : WritesProto3 Libs.standard.prost := ⟨fun _ => rfl, fun _ => rfl⟩

/-- The stream is not ready between two frames. -/
def betweenFrames : List Found :=
  [some ⟨helloFrame "aa", helloFrame_ne_nil "aa"⟩, none,
    some ⟨helloFrame "ab", helloFrame_ne_nil "ab"⟩]

theorem wouldBlock_transparent_betweenFrames :
    receivedEvents .standard "2" none betweenFrames =
      receivedEvents .standard "2" none (prompt betweenFrames) := by
  have hread := readPeerMessage_hello Protos.Prost.proto3_lawful writesProto3_standard "aa"
    (by decide) []
  rw [List.append_nil] at hread
  have hheld : heldAfter .standard [] [some ⟨helloFrame "aa", helloFrame_ne_nil "aa"⟩] = some [] :=
    (unfinished_ok hread).trans (unfinished_error (e := .unexpectedEof) rfl)
  have hclean : ∀ before, before ++ [none] <+: betweenFrames → ¬Torn .standard before := by
    intro before hbefore
    rcases before with _ | ⟨f, _ | ⟨g, before⟩⟩
    · simp [betweenFrames] at hbefore
    · obtain rfl : f = _ := by simpa [betweenFrames] using hbefore
      simp [Torn, hheld]
    · rcases before with _ | ⟨f', before⟩ <;> simp [betweenFrames] at hbefore
  have hsame := (wouldBlock_transparent_iff Protos.Prost.proto3_lawful writesProto3_standard "2"
    none betweenFrames).mpr hclean betweenFrames (List.prefix_refl _) []
  simpa using hsame

/-- The stream is not ready between the bytes of a delimiter. -/
def inDelimiter : List Found :=
  [some ⟨[17], by decide⟩, none, some ⟨(helloFrame "aa").tail, by decide⟩]

/-- A hello is lost, and the peer with it. -/
theorem hello_lost_inDelimiter :
    receivedEvents .standard "2" none inDelimiter = [.peer (.disconnect "2")] ∧
    receivedEvents .standard "2" none (prompt inDelimiter) =
      [.peer (.receivedMessage "2" (.hello ⟨"aa"⟩)), .peer (.disconnect "2")] ∧
    receivedEvents .standard "2" none inDelimiter ≠
      receivedEvents .standard "2" none (prompt inDelimiter) := by
  have hhalf : PeerMessageReader.readPeerMessage .standard ([17] : Bytes) =
      (.error .unexpectedEof, []) := rfl
  have hrest : PeerMessageReader.readPeerMessage .standard ((helloFrame "aa").tail) =
      (.error (.reader .messageTooLarge), (helloFrame "aa").drop 3) := by decide
  have hwhole := readPeerMessage_hello Protos.Prost.proto3_lawful writesProto3_standard "aa"
    (by decide) []
  rw [List.append_nil] at hwhole
  have hend : PeerMessageReader.readPeerMessage .standard ([] : Bytes) =
      (.error .unexpectedEof, []) := rfl
  have hlost : receivedEvents .standard "2" none inDelimiter = [.peer (.disconnect "2")] := by
    simp [receivedEvents_eq, enqueued, inDelimiter, passedOn, onward, messages_error hhalf,
      unfinished_error hhalf, messages_error hrest, unfinished_error hrest]
  have hfound : receivedEvents .standard "2" none (prompt inDelimiter) =
      [.peer (.receivedMessage "2" (.hello ⟨"aa"⟩)), .peer (.disconnect "2")] := by
    have hframe : [17] ++ (helloFrame "aa").tail = helloFrame "aa" := by decide
    have hprompt : receivedEvents .standard "2" none (prompt inDelimiter) =
        enqueued .standard "2" none ([17] ++ (helloFrame "aa").tail) [] := by
      rw [receivedEvents_eq]
      rfl
    rw [hprompt, hframe]
    simp [enqueued, passedOn, onward, messages_ok hwhole, unfinished_ok hwhole,
      messages_error hend, unfinished_error hend]
  exact ⟨hlost, hfound, by rw [hlost, hfound]; simp⟩

end Reactor.Sn
