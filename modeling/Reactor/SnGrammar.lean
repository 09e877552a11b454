import Reactor.SnFrames
import Reactor.SnStream

/-!
# The seed node: the grammar of messages

What the body of a frame may be: an `Any` under one of three URLs, with a
value of the type that the URL names, which converts. `Parses` says so
without the reader, decoder by decoder.

**`reads_grammar_iff`**: the reader returns the message a body stands for,
and an error for a body that stands for none, unless the body is an
address book request by its URL whose value is none. Under that URL the
value is never looked at.
-/

namespace Reactor.Sn

open Proto3 (Bytes)
open Protos (Any Codec Prost)

/-! ## The grammar -/

/-- The message an `Any` stands for: its value decoded as what its URL
names, and converted. A request has nothing to convert. -/
inductive Denotes (libs : Libs) (any : Any) : PeerMessage → Prop
  | hello {value : Protos.PeerHello} {hello : PeerHello}
      (hurl : any.typeUrl = typeurlPeerHello)
      (hvalue : libs.prost.peerHello.decode any.value = .ok value)
      (hhello : PeerHello.ofProto value = .ok hello) : Denotes libs any (.hello hello)
  | addressBook {value : Protos.AddressBook} {book : AddressBook}
      (hurl : any.typeUrl = typeurlAddressBook)
      (hvalue : libs.prost.addressBook.decode any.value = .ok value)
      (hbook : AddressBook.ofProto libs value = .ok book) : Denotes libs any (.addressBook book)
  | addressBookRequest {value : Protos.AddressBookRequest}
      (hurl : any.typeUrl = typeurlAddressBookRequest)
      (hvalue : libs.prost.addressBookRequest.decode any.value = .ok value) :
      Denotes libs any .addressBookRequest

/-- The message the body of a frame stands for. -/
def Parses (libs : Libs) (body : Bytes) (msg : PeerMessage) : Prop :=
  ∃ any, libs.prost.any.decode body = .ok any ∧ Denotes libs any msg

/-- A request by its URL, and by that alone. -/
def BadRequest (libs : Libs) (any : Any) : Prop :=
  any.typeUrl = typeurlAddressBookRequest ∧
    ∃ e, libs.prost.addressBookRequest.decode any.value = .error e

section

variable {libs : Libs} {any : Any} {msg : PeerMessage}

theorem BadRequest.not_denotes (h : BadRequest libs any) : ¬Denotes libs any msg := by
  obtain ⟨hrequest, e, herror⟩ := h
  rintro (⟨hurl, -, -⟩ | ⟨hurl, -, -⟩ | ⟨-, hvalue⟩)
  · exact absurd (hrequest.symm.trans hurl) (by decide)
  · exact absurd (hrequest.symm.trans hurl) (by decide)
  · cases herror.symm.trans hvalue

/-! ## The reader, URL by URL -/

theorem ofAny_addressBookRequest (hurl : any.typeUrl = typeurlAddressBookRequest) :
    PeerMessage.ofAny libs any = .ok .addressBookRequest := by
  rw [PeerMessage.ofAny, if_pos hurl]

theorem ofAny_addressBook (hurl : any.typeUrl = typeurlAddressBook) :
    PeerMessage.ofAny libs any = .ok msg ↔ ∃ value book,
      libs.prost.addressBook.decode any.value = .ok value ∧
        AddressBook.ofProto libs value = .ok book ∧ msg = .addressBook book := by
  rw [PeerMessage.ofAny, if_neg (by rw [hurl]; decide), if_pos hurl]
  cases hvalue : libs.prost.addressBook.decode any.value with
  | error e => simp [fromProtobufAny, hvalue]
  | ok value =>
      simp only [fromProtobufAny, hvalue]
      cases hbook : AddressBook.ofProto libs value with
      | error e => simp [Except.map, hbook]
      | ok book => simp [Except.map, hbook, eq_comm]

theorem ofAny_hello (hurl : any.typeUrl = typeurlPeerHello) :
    PeerMessage.ofAny libs any = .ok msg ↔ ∃ value hello,
      libs.prost.peerHello.decode any.value = .ok value ∧
        PeerHello.ofProto value = .ok hello ∧ msg = .hello hello := by
  rw [PeerMessage.ofAny, if_neg (by rw [hurl]; decide), if_neg (by rw [hurl]; decide), if_pos hurl]
  cases hvalue : libs.prost.peerHello.decode any.value with
  | error e => simp [fromProtobufAny, hvalue]
  | ok value => simp [fromProtobufAny, hvalue, Except.map, PeerHello.ofProto, eq_comm]

/-- **Any by any.** What the reader takes an `Any` for is what it stands
for, or the `Any` is a bad request. -/
theorem ofAny_iff : PeerMessage.ofAny libs any = .ok msg ↔
    Denotes libs any msg ∨ BadRequest libs any ∧ msg = .addressBookRequest := by
  constructor
  · intro h
    by_cases hrequest : any.typeUrl = typeurlAddressBookRequest
    · obtain rfl := Except.ok.inj (h.symm.trans (ofAny_addressBookRequest hrequest))
      cases hvalue : libs.prost.addressBookRequest.decode any.value with
      | ok value => exact .inl (.addressBookRequest hrequest hvalue)
      | error e => exact .inr ⟨⟨hrequest, e, hvalue⟩, rfl⟩
    by_cases hbook : any.typeUrl = typeurlAddressBook
    · obtain ⟨value, book, hvalue, hconv, rfl⟩ := (ofAny_addressBook hbook).mp h
      exact .inl (.addressBook hbook hvalue hconv)
    by_cases hhello : any.typeUrl = typeurlPeerHello
    · obtain ⟨value, hello, hvalue, hconv, rfl⟩ := (ofAny_hello hhello).mp h
      exact .inl (.hello hhello hvalue hconv)
    · rw [PeerMessage.ofAny, if_neg hrequest, if_neg hbook, if_neg hhello] at h
      cases h
  · rintro (hdenotes | ⟨hbad, rfl⟩)
    · cases hdenotes with
      | hello hurl hvalue hhello => exact (ofAny_hello hurl).mpr ⟨_, _, hvalue, hhello, rfl⟩
      | addressBook hurl hvalue hbook =>
          exact (ofAny_addressBook hurl).mpr ⟨_, _, hvalue, hbook, rfl⟩
      | addressBookRequest hurl hvalue => exact ofAny_addressBookRequest hurl
    · exact ofAny_addressBookRequest hbad.1

theorem parseBody_eq_ok {body : Bytes} : parseBody libs body = .ok msg ↔
    ∃ any, libs.prost.any.decode body = .ok any ∧ PeerMessage.ofAny libs any = .ok msg := by
  unfold parseBody
  cases libs.prost.any.decode body with
  | ok any =>
      refine ⟨fun h => ⟨any, rfl, h⟩, ?_⟩
      rintro ⟨any', hany, h⟩
      obtain rfl := Except.ok.inj hany
      exact h
  | error e =>
      refine ⟨fun h => (nomatch h), ?_⟩
      rintro ⟨any, hany, -⟩
      cases hany

/-! ## Reading -/

/-- However the bytes come, a frame is read as its body is parsed. -/
theorem readPeerMessage_body {ρ : Type} [Source ρ] {s : ρ} {body t : Bytes}
    (h : Acceptable body.length) (hs : Source.left s = frame body ++ t) :
    (PeerMessageReader.readPeerMessage libs s).1 = .ok msg ↔ parseBody libs body = .ok msg := by
  have hread := readPeerMessage_frame libs h t
  rw [← hs] at hread
  cases hparse : parseBody libs body with
  | ok msg' =>
      rw [hparse] at hread
      obtain ⟨s', hs', -⟩ := (agrees_readPeerMessage libs).ok hread
      rw [hs']
  | error e =>
      rw [hparse] at hread
      obtain ⟨e', s', hs', -⟩ := (agrees_readPeerMessage libs).error hread
      rw [hs']
      exact iff_of_false (fun h => by cases h) fun h => by cases h

end

/-- **The grammar.** A frame whose body has a length that is accepted is
read as the message that its body stands for, and as an error when there
is none, exactly if the body is not that of a bad request. -/
theorem reads_grammar_iff (libs : Libs) {ρ : Type} [Source ρ] {s : ρ} {body t : Bytes}
    (h : Acceptable body.length) (hs : Source.left s = frame body ++ t) :
    (∀ msg, (PeerMessageReader.readPeerMessage libs s).1 = .ok msg ↔ Parses libs body msg) ↔
      ¬∃ any, libs.prost.any.decode body = .ok any ∧ BadRequest libs any := by
  simp only [readPeerMessage_body h hs, parseBody_eq_ok, ofAny_iff]
  constructor
  · rintro hexact ⟨any, hany, hbad⟩
    obtain ⟨any', hany', hdenotes⟩ :=
      (hexact .addressBookRequest).mp ⟨any, hany, .inr ⟨hbad, rfl⟩⟩
    obtain rfl := Except.ok.inj (hany.symm.trans hany')
    exact hbad.not_denotes hdenotes
  · intro hgood msg
    constructor
    · rintro ⟨any, hany, hdenotes | ⟨hbad, -⟩⟩
      · exact ⟨any, hany, hdenotes⟩
      · exact absurd ⟨any, hany, hbad⟩ hgood
    · rintro ⟨any, hany, hdenotes⟩
      exact ⟨any, hany, .inl hdenotes⟩

/-- The frame of a `Hello`, and a byte of the next one. -/
def helloAndMore : Socket :=
  ⟨[⟨frame (PeerMessage.body .standard (.hello ⟨"2"⟩)), by decide⟩, ⟨[0], by decide⟩], none⟩

theorem reads_grammar_iff_hello :
    (∀ msg, (PeerMessageReader.readPeerMessage .standard helloAndMore).1 = .ok msg ↔
      Parses .standard (PeerMessage.body .standard (.hello ⟨"2"⟩)) msg) ∧
    (PeerMessageReader.readPeerMessage .standard helloAndMore).1 = .ok (.hello ⟨"2"⟩) := by
  have hany : Libs.standard.prost.any.decode (PeerMessage.body .standard (.hello ⟨"2"⟩)) =
      .ok (PeerMessage.packed .standard (.hello ⟨"2"⟩)) := Prost.proto3_lawful.any _
  have hgrammar : ∀ msg, (PeerMessageReader.readPeerMessage .standard helloAndMore).1 = .ok msg ↔
      Parses .standard (PeerMessage.body .standard (.hello ⟨"2"⟩)) msg := by
    refine (reads_grammar_iff .standard (t := [0]) (by decide) rfl).mpr ?_
    rintro ⟨any, hany', hurl, -⟩
    obtain rfl := Except.ok.inj (hany.symm.trans hany')
    exact absurd hurl (by decide)
  exact ⟨hgrammar, (hgrammar _).mpr
    ⟨_, hany, .hello rfl (Prost.proto3_lawful.peerHello ⟨"2"⟩) rfl⟩⟩

/-- An address book request by its URL, with a value that ends in the
middle of a varint. -/
def badRequest : Bytes := Prost.proto3.any.bytes ⟨typeurlAddressBookRequest, [255]⟩

/-- It stands for no message, and is read as a request. -/
theorem bad_request_accepted :
    Acceptable badRequest.length ∧
      (PeerMessageReader.readPeerMessage .standard
        (Socket.mk [⟨frame badRequest, by decide⟩] none)).1 = .ok .addressBookRequest ∧
      ∀ msg, ¬Parses .standard badRequest msg := by
  have hlen : Acceptable badRequest.length := by decide
  have hany : Libs.standard.prost.any.decode badRequest =
      .ok ⟨typeurlAddressBookRequest, [255]⟩ := Prost.proto3_lawful.any _
  have hbad : BadRequest .standard ⟨typeurlAddressBookRequest, [255]⟩ :=
    ⟨rfl, ⟨"invalid message"⟩, by decide⟩
  refine ⟨hlen, ?_, ?_⟩
  · have hparse : parseBody .standard badRequest = .ok .addressBookRequest :=
      parseBody_eq_ok.mpr ⟨_, hany, ofAny_addressBookRequest rfl⟩
    exact (readPeerMessage_body (t := []) hlen rfl).mpr hparse
  · rintro msg ⟨any, hany', hdenotes⟩
    obtain rfl := Except.ok.inj (hany.symm.trans hany')
    exact hbad.not_denotes hdenotes

end Reactor.Sn
