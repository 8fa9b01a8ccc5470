/-
  Which requests there are, and their canonical text.

  `Request.Sendable` says of a request what the grammar requires of its parts, and that its
  version numbers can be computed in the range of `int`. `Request.text` writes one: no folded
  lines, one space after a colon, version numbers without leading zeros. Proved:
  `request_round_trip`. In runs without an overflow (`NoOverflow`), the only ones in which the
  program has a defined meaning, the parser makes exactly the sendable requests, and reads
  each back from its text.
-/
import PaleoServer.VersionNumbers

namespace PaleoServer

/-! ## Sendable requests -/

/-- A name is one or more token bytes and a value has no control byte. -/
structure Header.Sendable (h : Header) : Prop where
  name_ne : h.name ≠ []
  name_token : ∀ b ∈ h.name, IsToken b
  value_byte : ∀ b ∈ h.value, ¬ IsControl b

/-- A version field that is set, to a number the parser can compute without an overflow. -/
def VersionSendable (field : Option Int32) : Prop :=
  ∃ v, field = some v ∧ 0 ≤ v.toInt ∧ v.toInt ≤ 2 ^ 31 - 49

structure Request.Sendable (req : Request) : Prop where
  method : IsMethod req.method
  uri : IsUri req.uri
  major : VersionSendable req.httpVersionMajor
  minor : VersionSendable req.httpVersionMinor
  header : ∀ h ∈ req.headers, h.Sendable

/-! ## Their text -/

/-- The digits of a version number. -/
def versionDigits (v : Int32) : Bytes := decimal v.toInt.toNat

def Header.line (h : Header) : Line := .header h.name h.value

/-- The text of a request; a version that is not set is written as 0. -/
def Request.text (req : Request) : Bytes :=
  req.method ++ bytes " " ++ req.uri ++ bytes " HTTP/" ++
    versionDigits (req.httpVersionMajor.getD 0) ++ bytes "." ++
    versionDigits (req.httpVersionMinor.getD 0) ++ crlf ++
    renderLines (req.headers.map Header.line) ++ crlf

theorem isDigit_of_isDecimal : ∀ b : UInt8, isDecimal b = true → IsDigit b := by
  decide +kernel

theorem isVersion_versionDigits (v : Int32) : IsVersion (versionDigits v) :=
  ⟨decimal_ne_nil _, fun b hb => isDigit_of_isDecimal b (isDecimal_decimal _ b hb)⟩

theorem ofDecimal_versionDigits {v : Int32} (h : 0 ≤ v.toInt) :
    (ofDecimal (versionDigits v) : Int) = v.toInt := by
  rw [versionDigits, ofDecimal_decimal]
  exact Int.toNat_of_nonneg h

/-- The digits of a version number are read as it. -/
theorem versionOf_versionDigits {v : Int32} (h : 0 ≤ v.toInt) (hle : v.toInt ≤ 2 ^ 31 - 49) :
    versionOf (versionDigits v) = v := by
  have hvalue := ofDecimal_versionDigits h
  have hlt : ofDecimal (versionDigits v) < 2 ^ 31 := by omega
  apply Int32.toInt_inj.mp
  rw [versionOf_toInt _ (isVersion_versionDigits v).2 hlt, hvalue]

/-- Lines without continuation lines are one header each. -/
theorem headersOf_lines (hs : List Header) : headersOf (hs.map Header.line) = hs := by
  induction hs with
  | nil => rfl
  | cons h hs ih =>
    have hfold : (hs.map Header.line).takeWhile Line.isContinuation = [] := by
      cases hs <;> rfl
    rw [List.map_cons, Header.line, headersOf, hfold, ih, List.flatMap_nil, List.append_nil]

theorem linesOk_lines {hs : List Header} (h : ∀ hd ∈ hs, hd.Sendable) :
    LinesOk (hs.map Header.line) := by
  refine ⟨fun l hl => ?_, fun l hl => ?_⟩
  · obtain ⟨hd, hmem, rfl⟩ := List.mem_map.mp hl
    exact ⟨(h hd hmem).name_ne, (h hd hmem).name_token, (h hd hmem).value_byte⟩
  · cases hs with
    | nil => cases hl
    | cons hd hs =>
      cases hl
      rfl

/-- A sendable request is the one its text stands for, and its version numbers are small. -/
theorem Request.Sendable.exists_text {req : Request} (h : req.Sendable) :
    ∃ t : RequestText, t.render = req.text ∧ t.request = req ∧
      ofDecimal t.start.major ≤ 2 ^ 31 - 49 ∧ ofDecimal t.start.minor ≤ 2 ^ 31 - 49 := by
  obtain ⟨method, uri, _, _, headers⟩ := req
  obtain ⟨hmethod, huri, ⟨major, rfl, hmajor, hmajor'⟩, ⟨minor, rfl, hminor, hminor'⟩, hheader⟩ := h
  have hma := isVersion_versionDigits major
  have hmi := isVersion_versionDigits minor
  have hmaValue := ofDecimal_versionDigits hmajor
  have hmiValue := ofDecimal_versionDigits hminor
  refine ⟨⟨⟨method, uri, versionDigits major, versionDigits minor, hmethod.1, hmethod.2, huri,
    hma.1, hma.2, hmi.1, hmi.2⟩, headers.map Header.line, linesOk_lines hheader⟩, rfl, ?_, ?_, ?_⟩
  · show Request.mk method uri (some (versionOf (versionDigits major)))
      (some (versionOf (versionDigits minor))) (headersOf (headers.map Header.line)) = _
    rw [versionOf_versionDigits hmajor hmajor', versionOf_versionDigits hminor hminor',
      headersOf_lines]
  · show ofDecimal (versionDigits major) ≤ _
    omega
  · show ofDecimal (versionDigits minor) ≤ _
    omega

/-! ## What the parser makes -/

/-- The headers of well-formed lines. -/
theorem sendable_of_mem_headersOf {ls : List Line} (hok : ∀ l ∈ ls, l.WellFormed) :
    ∀ h ∈ headersOf ls, h.Sendable := by
  induction ls with
  | nil => intro h hh; cases hh
  | cons l ls ih =>
    obtain ⟨hl, hls⟩ := List.forall_mem_cons.mp hok
    cases l with
    | continuation blanks text => exact ih hls
    | header name text =>
      refine List.forall_mem_cons.mpr ⟨⟨hl.1, hl.2.1, ?_⟩, ih hls⟩
      refine List.forall_mem_append.mpr ⟨hl.2.2, fun b hb => ?_⟩
      obtain ⟨l, hmem, hb⟩ := List.mem_flatMap.mp hb
      have hwf := hls l (List.takeWhile_subset _ hmem)
      cases l with
      | header n t => exact hwf.2.2 b hb
      | continuation bl t => exact hwf.2.2.1 b hb

theorem versionSendable_versionOf {ds : Bytes} (hds : ∀ b ∈ ds, IsDigit b)
    (hle : ofDecimal ds ≤ 2 ^ 31 - 49) : VersionSendable (some (versionOf ds)) := by
  have hvalue := versionOf_toInt ds hds (by omega)
  exact ⟨_, rfl, by omega, by omega⟩

/-- A request text whose version numbers are small stands for a sendable request. -/
theorem RequestText.sendable (t : RequestText) (hmajor : ofDecimal t.start.major ≤ 2 ^ 31 - 49)
    (hminor : ofDecimal t.start.minor ≤ 2 ^ 31 - 49) : t.request.Sendable where
  method := ⟨t.start.method_ne, t.start.method_token⟩
  uri := t.start.uri_byte
  major := versionSendable_versionOf t.start.major_digit hmajor
  minor := versionSendable_versionOf t.start.minor_digit hminor
  header := sendable_of_mem_headersOf t.lines_ok.line

/-- **Requests and their texts**: a request is one that the parser makes of some bytes without an
    overflow iff it is sendable, iff the parser reads it back from its text, to the last byte and
    without an overflow. -/
theorem request_round_trip (req : Request) :
    ((∃ bs r st, NoOverflow bs ∧
          parse (.methodStart, .empty) bs = .ok (some true, r, st, req)) ↔ req.Sendable) ∧
      ((NoOverflow req.text ∧
          parse (.methodStart, .empty) req.text = .ok (some true, [], .expectingNewline3, req)) ↔
        req.Sendable) := by
  have hsound : ∀ bs r st, NoOverflow bs →
      parse (.methodStart, .empty) bs = .ok (some true, r, st, req) → req.Sendable := by
    intro bs r st hrange h
    obtain ⟨t, rfl, rfl⟩ := parse_sound h
    obtain ⟨hmajor, hminor⟩ := (versionsAtMost_render_iff t r _).mp (atMost_of_noOverflow hrange)
    exact t.sendable hmajor hminor
  have hcomplete : req.Sendable → NoOverflow req.text ∧
      parse (.methodStart, .empty) req.text = .ok (some true, [], .expectingNewline3, req) := by
    intro h
    obtain ⟨t, htext, hreq, hmajor, hminor⟩ := h.exists_text
    have hrange := noOverflow_of_atMost ((versionsAtMost_render_iff t [] _).mpr ⟨hmajor, hminor⟩)
    have hparse := parse_complete t []
    rw [List.append_nil, htext] at hrange hparse
    exact ⟨hrange, hreq ▸ hparse⟩
  exact ⟨⟨fun ⟨bs, r, st, hrange, h⟩ => hsound bs r st hrange h,
      fun h => ⟨_, _, _, hcomplete h⟩⟩,
    ⟨fun ⟨hrange, h⟩ => hsound _ _ _ hrange h, hcomplete⟩⟩

end PaleoServer
