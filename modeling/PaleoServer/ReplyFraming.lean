/-
  Replies on the wire. The buffers of a reply, one after another, are a message
  of `MessageReader`; a strict reader gets back the status line, the headers and the content
  of every reply the handler makes (`reply_framed`).

  The Content-Type of an image is the client's `format`. It cannot break its line, because a
  stored value is over the alphabet of the grammar (`find_wmsQuery_segment`), which has no CR.
-/
import PaleoServer.Lib.MessageReader
import PaleoServer.QueryString
import PaleoServer.RequestHandler

namespace PaleoServer

open MessageReader

variable {M : Mapnik}

/-- A header as the reader returns it. -/
def Header.field (h : Header) : Field := (h.name, h.value)

/-- A strict reader finds exactly this reply in its buffers, with nothing left over. -/
def Decodes (rep : Reply) : Prop :=
  read rep.toBuffers.flatten =
    some (statusLine rep.status, rep.headers.map Header.field, rep.content, [])

/-- Headers that keep to their lines, and a length that is the length of the content. -/
structure Framed (rep : Reply) : Prop where
  safe : ∀ h ∈ rep.headers, Safe h.field
  length : bodyLength (rep.headers.map Header.field) = some rep.content.length

/-! ## Framed replies decode -/

theorem statusLine_cr (status : StatusType) : (13 : UInt8) ∉ statusLine status := by
  cases status <;> decide

theorem toBuffers_flatten (rep : Reply) :
    rep.toBuffers.flatten =
      write (statusLine rep.status) (rep.headers.map Header.field) rep.content := by
  have hsep : nameValueSeparator = colonSpace := rfl
  have hcrlf : miscCrlf = MessageReader.crlf := rfl
  have hfields : ∀ hs : List Header,
      (hs.flatMap fun h => [h.name, nameValueSeparator, h.value, miscCrlf]).flatten =
        (hs.map Header.field).flatMap writeField := by
    intro hs
    induction hs with
    | nil => rfl
    | cons h hs ih =>
      rw [List.flatMap_cons, List.flatten_append, ih, List.map_cons, List.flatMap_cons, hsep,
        hcrlf]
      simp [writeField, Header.field]
  unfold Reply.toBuffers write
  rw [List.flatten_append, List.flatten_append, hfields, hcrlf]
  simp only [statusToBuffer, List.flatten_cons, List.flatten_nil, List.append_nil,
    List.append_assoc]
  rfl

theorem Framed.decodes {rep : Reply} (h : Framed rep) : Decodes rep := by
  have hsafe : ∀ f ∈ rep.headers.map Header.field, Safe f := by
    intro f hf
    obtain ⟨hd, hmem, rfl⟩ := List.mem_map.mp hf
    exact h.safe hd hmem
  have := read_write (statusLine_cr rep.status) hsafe h.length []
  rwa [List.append_nil, ← toBuffers_flatten] at this

/-! ## Header values -/

theorem isDecimal_ne_cr : ∀ b : UInt8, isDecimal b = true → b ≠ 13 := by
  rintro _ h rfl
  exact absurd h (by decide)

theorem toLower_value_ne_cr : ∀ b : UInt8, isValueChar b = true → toLower b ≠ 13 := by
  decide +kernel

theorem decimal_cr (n : Nat) : (13 : UInt8) ∉ decimal n := fun h =>
  isDecimal_ne_cr 13 (isDecimal_decimal n 13 h) rfl

/-- The length header is read back. -/
theorem readDecimal_decimal (n : Nat) : readDecimal (decimal n) = some n := by
  have hdigits : ∀ d ∈ decimal n, 48 ≤ d ∧ d ≤ 57 := by
    intro d hd
    have := isDecimal_decimal n d hd
    simp only [isDecimal, Bool.and_eq_true, decide_eq_true_eq] at this
    exact this
  unfold readDecimal
  rw [if_pos ⟨decimal_ne_nil n, hdigits⟩]
  exact congrArg some (ofDecimal_decimal n)

/-- What a query holds has no CR. -/
theorem find_wmsQuery_cr {q key value : Bytes} (h : (wmsQuery q).find key = some value) :
    (13 : UInt8) ∉ value := by
  obtain ⟨_, _, k, v, r, _, _, hv, _, rfl⟩ := find_wmsQuery_segment h
  intro hm
  obtain ⟨b, hb, e⟩ := List.mem_map.mp hm
  exact toLower_value_ne_cr b (hv b hb) e

theorem safe_field {name value : Bytes} (hname : (13 : UInt8) ∉ name ∧ (58 : UInt8) ∉ name)
    (hvalue : (13 : UInt8) ∉ value) : Safe (Header.field ⟨name, value⟩) :=
  ⟨hname.1, hname.2, hvalue⟩

/-! ## The replies of the handler -/

theorem framed_html (status : StatusType) (content : Bytes) :
    Framed ⟨status, htmlHeaders content, content⟩ := by
  refine ⟨?_, ?_⟩
  · intro h hh
    simp only [htmlHeaders, List.mem_cons, List.not_mem_nil, or_false] at hh
    rcases hh with rfl | rfl
    · exact safe_field (by decide) (decimal_cr _)
    · exact safe_field (by decide) (by decide)
  · have hfilter : ((htmlHeaders content).map Header.field).filter (fun f => f.1 = lengthName) =
        [(lengthName, decimal content.length)] := rfl
    simp only [bodyLength, hfilter, readDecimal_decimal]

theorem framed_image {req : Request} {g : GetMap M} (h : Accepts M req g) (im : M.Image) :
    Framed (imageReply g im) := by
  obtain ⟨path, _, _, hq⟩ := h.path
  have hmime : (13 : UInt8) ∉ g.mime := by
    unfold GetMap.mime getMime
    rw [hq]
    rcases hf : (wmsQuery (queryOf path)).find (bytes "format") with _ | v
    · decide
    · exact find_wmsQuery_cr hf
  refine ⟨?_, ?_⟩
  · intro hd hh
    simp only [imageReply, List.mem_cons, List.not_mem_nil, or_false] at hh
    rcases hh with rfl | rfl | rfl
    · exact safe_field (by decide) hmime
    · exact safe_field (by decide) (by decide)
    · exact safe_field (by decide) (decimal_cr _)
  · have hfilter : ((imageReply g im).headers.map Header.field).filter
        (fun f => f.1 = lengthName) =
        [(lengthName, decimal (imageReply g im).content.length)] := rfl
    simp only [bodyLength, hfilter, readDecimal_decimal]

theorem framed_returnIf (refused : Bool) {rep : Reply} (h : Framed rep) (e : Reply)
    (he : returnIf refused rep = .error e) : Framed e := by
  cases refused <;> cases he
  exact h

theorem framed_orReturn (got : Option Bytes) {rep : Reply} (h : Framed rep) (e : Reply)
    (he : orReturn got rep = .error e) : Framed e := by
  cases got <;> cases he
  exact h

theorem framed_readSize (query : Params) (e : Reply) (he : readSize query = .error e) :
    Framed e := by
  unfold readSize at he
  split at he
  · cases he
    exact framed_html _ _
  · split at he <;> cases he
    exact framed_html _ _

/-- Every early return has a framed reply. -/
theorem framed_readGetMap (req : Request) (e : Reply) (he : readGetMap M req = .error e) :
    Framed e := by
  revert e
  unfold readGetMap
  have hpage : ∀ html, Framed (replyHtml html) := framed_html _
  refine Feed.bind_error (framed_returnIf _ (framed_html _ _)) fun _ => ?_
  refine Feed.bind_error (framed_returnIf _ (hpage _)) fun _ => ?_
  refine Feed.bind_error (framed_orReturn _ (hpage _)) fun _ => ?_
  refine Feed.bind_error (framed_returnIf _ (hpage _)) fun _ => ?_
  refine Feed.bind_error (framed_readSize _) fun _ => ?_
  refine Feed.bind_error (framed_returnIf _ (hpage _)) fun _ => ?_
  refine Feed.bind_error (framed_orReturn _ (hpage _)) fun _ => ?_
  refine Feed.bind_error (framed_orReturn _ (hpage _)) fun _ => ?_
  intro e he
  cases he

/-- **Replies are framed**: whatever the request, the map and the encoded image, the bytes
    sent decode to the reply, and so do those of the reply to a malformed request. -/
theorem reply_framed (M : Mapnik) (req : Request) (m : M.Map) :
    Decodes ((handleRequest M req).run m).1 ∧ Decodes (stockReply .badRequest) := by
  refine ⟨?_, (framed_html _ _).decodes⟩
  rw [run_handleRequest]
  rcases h : readGetMap M req with rep | g
  · exact (framed_readGetMap req rep h).decodes
  · exact (framed_image ((readGetMap_ok_iff req g).mp h) _).decodes

end PaleoServer
