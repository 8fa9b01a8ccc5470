/-
  The language of HTTP requests the server understands. `RequestText` is a complete request
  as a client may write it: a start line (`StartLine`) and a list of lines, each a header line
  or, after a first header line, a continuation line. `RequestText.render` is its bytes and
  `RequestText.request` the request it stands for; neither mentions the parser. That the
  parser accepts exactly this language is `RequestAcceptance`.

  Proved here: how the headers of a list of lines change when a line, or a byte of text in the
  last line, is added (`headersOf_snoc_header`, `headersOf_snoc_continuation`,
  `headersOf_pushText`), and the value of a version number (`versionOf_toInt`).
-/
import PaleoServer.ParserStep

namespace PaleoServer

/-- The end of a line. -/
def crlf : Bytes := bytes "\r\n"

/-! ## The grammar -/

/-- A line after the start line: `name: text`, or a continuation line, blanks and a text. -/
inductive Line where
  | header (name text : Bytes)
  | continuation (blanks text : Bytes)
  deriving DecidableEq, Repr

/-- The bytes of a line before its CRLF. -/
def Line.body : Line → Bytes
  | .header name text => name ++ bytes ": " ++ text
  | .continuation blanks text => blanks ++ text

/-- The part of a line that belongs to the header's value. -/
def Line.text : Line → Bytes
  | .header _ text => text
  | .continuation _ text => text

def Line.isContinuation : Line → Bool
  | .header _ _ => false
  | .continuation _ _ => true

/-- A name is one or more token bytes and a text has no control byte. A continuation line
    starts with one or more blanks, and the text after them does not start with one. -/
def Line.WellFormed : Line → Prop
  | .header name text => name ≠ [] ∧ (∀ b ∈ name, IsToken b) ∧ ∀ b ∈ text, ¬ IsControl b
  | .continuation blanks text => blanks ≠ [] ∧ (∀ b ∈ blanks, IsBlank b) ∧
      (∀ b ∈ text, ¬ IsControl b) ∧ text.head? ≠ some (ch ' ')

/-- The bytes of a list of lines. -/
def renderLines (ls : List Line) : Bytes := ls.flatMap fun l => l.body ++ crlf

/-- Well-formed lines, the first of which is not a continuation line. -/
structure LinesOk (ls : List Line) : Prop where
  line : ∀ l ∈ ls, l.WellFormed
  first : ∀ l ∈ ls.head?, l.isContinuation = false

/-- The headers a list of lines stands for: one for each header line, in order, whose value is
    the text of that line followed by the texts of the continuation lines right after it. -/
def headersOf : List Line → List Header
  | [] => []
  | .header name text :: ls =>
    ⟨name, text ++ (ls.takeWhile Line.isContinuation).flatMap Line.text⟩ :: headersOf ls
  | .continuation _ _ :: ls => headersOf ls

/-- `method SP uri SP "HTTP/" major "." minor CRLF`. -/
structure StartLine where
  method : Bytes
  uri : Bytes
  major : Bytes
  minor : Bytes
  method_ne : method ≠ []
  method_token : ∀ b ∈ method, IsToken b
  uri_byte : ∀ b ∈ uri, b ≠ ch ' ' ∧ ¬ IsControl b
  major_ne : major ≠ []
  major_digit : ∀ b ∈ major, IsDigit b
  minor_ne : minor ≠ []
  minor_digit : ∀ b ∈ minor, IsDigit b

def StartLine.render (s : StartLine) : Bytes :=
  s.method ++ bytes " " ++ s.uri ++ bytes " HTTP/" ++ s.major ++ bytes "." ++ s.minor ++ crlf

/-- A complete request. -/
structure RequestText where
  start : StartLine
  lines : List Line
  lines_ok : LinesOk lines

def RequestText.render (t : RequestText) : Bytes :=
  t.start.render ++ renderLines t.lines ++ crlf

/-- What the version states make of a digit string. -/
def versionOf (ds : Bytes) : Int32 := ds.foldl accumulate 0

/-- The request of a start line, with the headers `hs`. -/
def StartLine.request (s : StartLine) (hs : List Header) : Request :=
  ⟨s.method, s.uri, some (versionOf s.major), some (versionOf s.minor), hs⟩

/-- The request a request text stands for. -/
def RequestText.request (t : RequestText) : Request := t.start.request (headersOf t.lines)

/-! ## Version numbers -/

theorem versionOf_snoc (ds : Bytes) (b : UInt8) :
    versionOf (ds ++ [b]) = accumulate (versionOf ds) b := by
  unfold versionOf
  rw [List.foldl_append]
  rfl

theorem charToInt_digit : ∀ b : UInt8, IsDigit b →
    charToInt b - charToInt (ch '0') = Int32.ofNat (decimalValue b) := by
  decide +kernel

theorem versionOf_eq_ofNat (ds : Bytes) (h : ∀ b ∈ ds, IsDigit b) :
    versionOf ds = Int32.ofNat (ofDecimal ds) := by
  induction ds using List.reverseRecOn with
  | nil => rfl
  | append_singleton ds b ih =>
    have hd := charToInt_digit b (h b (by simp))
    have hi := ih fun c hc => h c (by simp [hc])
    rw [versionOf_snoc, ofDecimal_snoc, hi, accumulate, Int32.sub_eq_add_neg, Int32.add_assoc,
      ← Int32.sub_eq_add_neg, hd, Int32.ofNat_add, Int32.ofNat_mul]
    rfl

/-- A version number below 2^31 is stored with its value. -/
theorem versionOf_toInt (ds : Bytes) (h : ∀ b ∈ ds, IsDigit b) (hlt : ofDecimal ds < 2 ^ 31) :
    (versionOf ds).toInt = ofDecimal ds := by
  rw [versionOf_eq_ofNat ds h]
  exact Int32.toInt_ofNat_of_lt hlt

/-! ## Headers and their lines -/

theorem headersOf_snoc_header (ls : List Line) (name text : Bytes) :
    headersOf (ls ++ [.header name text]) = headersOf ls ++ [⟨name, text⟩] := by
  induction ls with
  | nil => simp [headersOf]
  | cons l ls ih =>
    cases l with
    | header n t =>
      have : (ls ++ [Line.header name text]).takeWhile Line.isContinuation =
          ls.takeWhile Line.isContinuation := by
        rw [List.takeWhile_append]
        split
        · rename_i hlen
          rw [(List.takeWhile_sublist _).eq_of_length hlen]
          exact List.append_nil ls
        · rfl
      simp only [List.cons_append, headersOf, this, ih]
    | continuation b t =>
      simp only [List.cons_append, headersOf]
      exact ih

theorem headersOf_eq_nil_iff (ls : List Line) :
    headersOf ls = [] ↔ ∀ l ∈ ls, l.isContinuation = true := by
  induction ls with
  | nil => simp [headersOf]
  | cons l ls ih =>
    cases l <;> simp [headersOf, Line.isContinuation, ih]

/-- A continuation line extends the value of the last header. -/
theorem headersOf_snoc_continuation {ls : List Line} {hs : List Header} {h : Header}
    (e : headersOf ls = hs ++ [h]) (blanks text : Bytes) :
    headersOf (ls ++ [.continuation blanks text]) = hs ++ [⟨h.name, h.value ++ text⟩] := by
  induction ls generalizing hs with
  | nil => simp [headersOf] at e
  | cons l ls ih =>
    cases l with
    | continuation b t => exact ih e
    | header n t =>
      simp only [List.cons_append, headersOf] at e ⊢
      rcases List.eq_nil_or_concat (headersOf ls) with hnil | ⟨hs', h', hc⟩
      · -- only continuation lines follow: the new one joins them
        have hall := (headersOf_eq_nil_iff ls).mp hnil
        have hall' : ∀ l ∈ ls ++ [Line.continuation blanks text], l.isContinuation = true := by
          intro l hl
          rcases List.mem_append.mp hl with hl | hl
          · exact hall l hl
          · rw [List.mem_singleton.mp hl]; rfl
        rw [(headersOf_eq_nil_iff _).mpr hall', List.takeWhile_eq_self_iff.mpr hall']
        rw [hnil, List.takeWhile_eq_self_iff.mpr hall] at e
        obtain ⟨rfl, hh⟩ := List.append_inj' (show [] ++ [_] = hs ++ [h] from e) rfl
        cases hh
        simp [Line.text]
      · -- a later header takes it
        rw [List.concat_eq_append] at hc
        rw [hc] at e
        have hex : ¬ ∀ l ∈ ls, l.isContinuation = true := by
          rw [← headersOf_eq_nil_iff, hc]
          simp
        have htake : (ls ++ [Line.continuation blanks text]).takeWhile Line.isContinuation =
            ls.takeWhile Line.isContinuation := by
          rw [List.takeWhile_append, if_neg]
          intro hlen
          have := List.takeWhile_eq_self_iff.mp ((List.takeWhile_sublist _).eq_of_length hlen)
          exact hex this
        rw [← List.cons_append] at e
        obtain ⟨rfl, hh⟩ := List.append_inj' e rfl
        cases hh
        rw [ih hc, htake]
        rfl

theorem headersOf_ne_nil {ls : List Line} (ok : LinesOk ls) (hne : ls ≠ []) :
    headersOf ls ≠ [] := by
  cases ls with
  | nil => exact absurd rfl hne
  | cons l ls =>
    cases l with
    | header n t => exact List.cons_ne_nil _ _
    | continuation b t => exact absurd (ok.first _ rfl) (by simp [Line.isContinuation])

/-- A line with one more byte of text. -/
def Line.pushText (b : UInt8) : Line → Line
  | .header name text => .header name (text ++ [b])
  | .continuation blanks text => .continuation blanks (text ++ [b])

theorem Line.body_pushText (b : UInt8) (l : Line) : (l.pushText b).body = l.body ++ [b] := by
  cases l <;> simp [Line.pushText, Line.body]

/-- One more byte of text in the last line is one more byte in the last header's value. -/
theorem headersOf_pushText {ls : List Line} {l : Line} {hs : List Header} {h : Header}
    (e : headersOf (ls ++ [l]) = hs ++ [h]) (b : UInt8) :
    headersOf (ls ++ [l.pushText b]) = hs ++ [h.pushValue b] := by
  cases l with
  | header n t =>
    rw [headersOf_snoc_header] at e
    obtain ⟨rfl, hh⟩ := List.append_inj' e rfl
    cases hh
    exact headersOf_snoc_header ls n (t ++ [b])
  | continuation bl t =>
    rcases List.eq_nil_or_concat (headersOf ls) with hnil | ⟨hs', h', hc⟩
    · have hall := (headersOf_eq_nil_iff ls).mp hnil
      have : headersOf (ls ++ [.continuation bl t]) = [] := by
        rw [headersOf_eq_nil_iff]
        intro l hl
        rcases List.mem_append.mp hl with hl | hl
        · exact hall l hl
        · rw [List.mem_singleton.mp hl]; rfl
      rw [this] at e
      exact absurd e (by simp)
    · rw [List.concat_eq_append] at hc
      rw [headersOf_snoc_continuation hc] at e
      obtain ⟨rfl, hh⟩ := List.append_inj' e rfl
      cases hh
      rw [Line.pushText, headersOf_snoc_continuation hc]
      simp [Header.pushValue]

theorem renderLines_snoc (ls : List Line) (l : Line) :
    renderLines (ls ++ [l]) = renderLines ls ++ l.body ++ crlf := by
  simp [renderLines, List.flatMap_append]

theorem LinesOk.nil : LinesOk [] := ⟨by simp, by simp⟩

theorem LinesOk.snoc {ls : List Line} {l : Line} (ok : LinesOk ls) (hl : l.WellFormed)
    (hc : l.isContinuation = true → ls ≠ []) : LinesOk (ls ++ [l]) := by
  refine ⟨fun k hk => ?_, fun k hk => ?_⟩
  · rcases List.mem_append.mp hk with hk | hk
    · exact ok.line k hk
    · rw [List.mem_singleton.mp hk]; exact hl
  · cases ls with
    | nil =>
      have : l = k := by simpa using hk
      subst this
      cases he : l.isContinuation with
      | false => rfl
      | true => exact absurd rfl (hc he)
    | cons k' ls =>
      have : k' = k := by simpa using hk
      subst this
      exact ok.first k' rfl

end PaleoServer
