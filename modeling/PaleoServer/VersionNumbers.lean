/-
  The version numbers of the request line and the range of `int`.

  The parser computes `http_version_major * 10 + input - '0'` on `int`, for as many digits as the
  client sends. `versionValues` lists what is computed on the way, without a bound. In range the
  last value is what `consume` stores (`Step.stores_version`); where a value is beyond `int`
  the program has no defined meaning (the model of `consume` wraps).

  A number can be read when it is at most 2^31 - 49: the digit is added as a character, 48 more
  than its value, before `'0'` is taken away. `version_numbers_iff` says so for every byte
  stream and every step of its run.
-/
import PaleoServer.RequestAcceptance

namespace PaleoServer

open Feed

/-! ## What is computed -/

/-- The values of `v * 10`, `v * 10 + input` and `v * 10 + input - '0'`. -/
def accumulateValues (v : Int32) (input : UInt8) : List Int :=
  [v.toInt * 10, v.toInt * 10 + (charToInt input).toInt,
    v.toInt * 10 + (charToInt input).toInt - (charToInt (ch '0')).toInt]

/-- The values `consume` computes for a version number in this state, if it does. -/
def versionValues (st : State) (req : Request) (input : UInt8) : List Int :=
  let values (v : Option Int32) : List Int :=
    if isDigit (charToInt input) then v.toList.flatMap (accumulateValues · input) else []
  match st with
  | .httpVersionMajorStart => values req.httpVersionMajor
  | .httpVersionMajor => values req.httpVersionMajor
  | .httpVersionMinorStart => values req.httpVersionMinor
  | .httpVersionMinor => values req.httpVersionMinor
  | _ => []

/-- A value from 0 to the largest `int`. -/
def InIntRange (v : Int) : Prop := 0 ≤ v ∧ v ≤ 2 ^ 31 - 1

/-- In the run of a new parser on the bytes, every value computed for a version number is in
    range. -/
def NoOverflow (bs : Bytes) : Prop :=
  ∀ pre b post st req, bs = pre ++ b :: post →
    parse (.methodStart, .empty) pre = .ok (none, [], st, req) →
    ∀ v ∈ versionValues st req b, InIntRange v

/-- When the bytes are accepted, the version fields are the numbers of the request line. -/
def VersionsStored (bs : Bytes) : Prop :=
  ∀ r st req, parse (.methodStart, .empty) bs = .ok (some true, r, st, req) →
    ∃ t : RequestText, bs = t.render ++ r ∧ ∃ major minor,
      req.httpVersionMajor = some major ∧ major.toInt = ofDecimal t.start.major ∧
      req.httpVersionMinor = some minor ∧ minor.toInt = ofDecimal t.start.minor

/-- No version number of a request line that begins these bytes is above `n`. -/
def VersionsAtMost (n : Nat) (bs : Bytes) : Prop :=
  (∀ m u ma rest, IsMethod m → IsUri u → IsVersion ma →
    bs = headOf m u ++ bytes "HTTP/" ++ ma ++ rest → ofDecimal ma ≤ n) ∧
  ∀ m u ma mi rest, IsMethod m → IsUri u → IsVersion ma → IsVersion mi →
    bs = headOf m u ++ bytes "HTTP/" ++ ma ++ bytes "." ++ mi ++ rest → ofDecimal mi ≤ n

/-! ## What is stored -/

theorem versionValues_digit {st : State} {req : Request} {b : UInt8} {v : Int}
    (h : v ∈ versionValues st req b) : IsDigit b := by
  unfold versionValues at h
  rw [isDigit_charToInt] at h
  by_contra hb
  cases st <;> simp [hb] at h

/-- A digit of the major number. -/
theorem versionValues_major {st : State} {req : Request} {b : UInt8} {v : Int32}
    (hst : st = .httpVersionMajorStart ∨ st = .httpVersionMajor) (hb : IsDigit b)
    (hv : req.httpVersionMajor = some v) : versionValues st req b = accumulateValues v b := by
  rcases hst with rfl | rfl <;> simp [versionValues, isDigit_charToInt, hb, hv]

/-- A digit of the minor number. -/
theorem versionValues_minor {st : State} {req : Request} {b : UInt8} {v : Int32}
    (hst : st = .httpVersionMinorStart ∨ st = .httpVersionMinor) (hb : IsDigit b)
    (hv : req.httpVersionMinor = some v) : versionValues st req b = accumulateValues v b := by
  rcases hst with rfl | rfl <;> simp [versionValues, isDigit_charToInt, hb, hv]

/-- In range the last value computed is the number stored. -/
theorem toInt_accumulate {v : Int32} {b : UInt8} {x : Int}
    (hx : (accumulateValues v b).getLast? = some x)
    (hrange : ∀ y ∈ accumulateValues v b, InIntRange y) : (accumulate v b).toInt = x := by
  simp only [accumulateValues, List.forall_mem_cons, List.not_mem_nil, false_imp_iff,
    implies_true, and_true, InIntRange] at hrange
  obtain ⟨hmul, hadd, hsub⟩ := hrange
  have hten : (10 : Int32).toInt = 10 := by decide
  have h1 : (v * 10).toInt = v.toInt * 10 := by
    rw [Int32.toInt_mul, hten]
    apply Int.bmod_eq_of_le <;> omega
  have h2 : (v * 10 + charToInt b).toInt = v.toInt * 10 + (charToInt b).toInt := by
    rw [Int32.toInt_add, h1]
    apply Int.bmod_eq_of_le <;> omega
  have h3 : (accumulate v b).toInt =
      v.toInt * 10 + (charToInt b).toInt - (charToInt (ch '0')).toInt := by
    rw [accumulate, Int32.toInt_sub, h2]
    apply Int.bmod_eq_of_le <;> omega
  rw [h3]
  simpa [accumulateValues] using hx

/-- A step that computes a version number in range stores the last value it computed. -/
theorem Step.stores_version {st st' : State} {req req' : Request} {b : UInt8}
    (h : Step st req b st' req') {x : Int} (hx : (versionValues st req b).getLast? = some x)
    (hrange : ∀ v ∈ versionValues st req b, InIntRange v) :
    req'.httpVersionMajor.map Int32.toInt = some x ∨
      req'.httpVersionMinor.map Int32.toInt = some x := by
  have hb : IsDigit b := versionValues_digit (List.mem_of_getLast? hx)
  cases h with
  | httpVersionMajorStart _ hv =>
    rw [versionValues_major (.inl rfl) hb hv] at hx hrange
    exact .inl (congrArg some (toInt_accumulate hx hrange))
  | httpVersionMajor _ hv =>
    rw [versionValues_major (.inr rfl) hb hv] at hx hrange
    exact .inl (congrArg some (toInt_accumulate hx hrange))
  | httpVersionMinorStart _ hv =>
    rw [versionValues_minor (.inl rfl) hb hv] at hx hrange
    exact .inr (congrArg some (toInt_accumulate hx hrange))
  | httpVersionMinor _ hv =>
    rw [versionValues_minor (.inr rfl) hb hv] at hx hrange
    exact .inr (congrArg some (toInt_accumulate hx hrange))
  | httpVersionMajorEnd => exact absurd rfl (isDigit_ne_dot _ hb)
  | httpVersionMinorEnd => exact absurd rfl (isDigit_ne_cr _ hb)
  | _ => simp [versionValues] at hx

/-! ## One number -/

theorem toInt_charToInt_digit : ∀ b : UInt8, IsDigit b →
    (charToInt b).toInt = 48 + decimalValue b := by
  decide +kernel

/-- What is computed for one more digit, when the number before it was stored. -/
theorem accumulateValues_digit {ds : Bytes} {b : UInt8} (hds : ∀ c ∈ ds, IsDigit c)
    (hb : IsDigit b) (hlt : ofDecimal ds < 2 ^ 31) :
    accumulateValues (versionOf ds) b =
      [(ofDecimal ds * 10 : Int), ofDecimal ds * 10 + (48 + decimalValue b),
        ofDecimal ds * 10 + (48 + decimalValue b) - 48] := by
  rw [accumulateValues, versionOf_toInt ds hds hlt, toInt_charToInt_digit b hb,
    show (charToInt (ch '0')).toInt = 48 from by decide]

/-- One more digit is computed in range exactly when the number is small enough after it. -/
theorem accumulateValues_inRange_iff {ds : Bytes} {b : UInt8} (hds : ∀ c ∈ ds, IsDigit c)
    (hb : IsDigit b) (hlt : ofDecimal ds < 2 ^ 31) :
    (∀ v ∈ accumulateValues (versionOf ds) b, InIntRange v) ↔
      ofDecimal (ds ++ [b]) ≤ 2 ^ 31 - 49 := by
  rw [accumulateValues_digit hds hb hlt, ofDecimal_snoc]
  simp only [List.forall_mem_cons, List.not_mem_nil, false_imp_iff, implies_true, and_true,
    InIntRange]
  omega

theorem ofDecimal_le_snoc (ds : Bytes) (b : UInt8) : ofDecimal ds ≤ ofDecimal (ds ++ [b]) := by
  rw [ofDecimal_snoc]
  omega

/-- A number that was read in range digit by digit is small enough. -/
theorem ofDecimal_le_of_inRange {ds : Bytes} (hds : ∀ c ∈ ds, IsDigit c)
    (h : ∀ pre b rest, ds = pre ++ b :: rest →
      ∀ v ∈ accumulateValues (versionOf pre) b, InIntRange v) :
    ofDecimal ds ≤ 2 ^ 31 - 49 := by
  induction ds using List.reverseRecOn with
  | nil => decide
  | append_singleton ds b ih =>
    have hdigits : ∀ c ∈ ds, IsDigit c := fun c hc => hds c (List.mem_append_left _ hc)
    have hbefore := ih hdigits fun pre c rest e => h pre c (rest ++ [b]) (by rw [e]; simp)
    exact (accumulateValues_inRange_iff hdigits (hds b (by simp)) (by omega)).mp (h ds b [] rfl)

/-! ## The run -/

/-- At a step of the run the parser has the digits before this one in the field. -/
theorem versionValues_of_reads {st : State} {req : Request} {w : Bytes} {b : UInt8} {v : Int}
    (hr : Reads st req w) (h : v ∈ versionValues st req b) :
    ∃ m u, IsMethod m ∧ IsUri u ∧
      ((∃ ds, (∀ c ∈ ds, IsDigit c) ∧ v ∈ accumulateValues (versionOf ds) b ∧
          w = headOf m u ++ bytes "HTTP/" ++ ds) ∨
        ∃ ma ds, IsVersion ma ∧ (∀ c ∈ ds, IsDigit c) ∧ v ∈ accumulateValues (versionOf ds) b ∧
          w = headOf m u ++ bytes "HTTP/" ++ ma ++ bytes "." ++ ds) := by
  have hb := versionValues_digit h
  cases hr with
  | @httpVersionMajorStart m u hm hu =>
    rw [versionValues_major (.inl rfl) hb rfl] at h
    exact ⟨m, u, hm, hu, .inl ⟨[], by simp, h, by simp⟩⟩
  | @httpVersionMajor m u ma hm hu hma =>
    rw [versionValues_major (.inr rfl) hb rfl] at h
    exact ⟨m, u, hm, hu, .inl ⟨ma, hma.2, h, rfl⟩⟩
  | @httpVersionMinorStart m u ma hm hu hma =>
    rw [versionValues_minor (.inl rfl) hb rfl] at h
    exact ⟨m, u, hm, hu, .inr ⟨ma, [], hma, by simp, h, by simp⟩⟩
  | @httpVersionMinor m u ma mi hm hu hma hmi =>
    rw [versionValues_minor (.inr rfl) hb rfl] at h
    exact ⟨m, u, hm, hu, .inr ⟨ma, mi, hma, hmi.2, h, rfl⟩⟩
  | _ => simp [versionValues] at h

/-- Small numbers are computed in range. -/
theorem noOverflow_of_atMost {bs : Bytes} (h : VersionsAtMost (2 ^ 31 - 49) bs) :
    NoOverflow bs := by
  rintro pre b post st req rfl hpre v hv
  have hb := versionValues_digit hv
  obtain ⟨m, u, hm, hu, hread⟩ := versionValues_of_reads (reads_of_parse hpre) hv
  obtain ⟨ds, hds, hmem, hle⟩ : ∃ ds, (∀ c ∈ ds, IsDigit c) ∧
      v ∈ accumulateValues (versionOf ds) b ∧ ofDecimal (ds ++ [b]) ≤ 2 ^ 31 - 49 := by
    rcases hread with ⟨ds, hds, hmem, rfl⟩ | ⟨ma, ds, hma, hds, hmem, rfl⟩
    · exact ⟨ds, hds, hmem, h.1 m u (ds ++ [b]) post hm hu (.snoc hds hb) (by simp)⟩
    · exact ⟨ds, hds, hmem, h.2 m u ma (ds ++ [b]) post hm hu hma (.snoc hds hb) (by simp)⟩
  have hlt := ofDecimal_le_snoc ds b
  exact (accumulateValues_inRange_iff hds hb (by omega)).mpr hle v hmem

/-- A new parser that has read `w` adds the next digit to the number `ds`. -/
def AddsTo (w ds : Bytes) : Prop :=
  ∃ st req, Runs (.methodStart, .empty) w (st, req) ∧
    ∀ b, IsDigit b → versionValues st req b = accumulateValues (versionOf ds) b

theorem addsTo_major {m u ds : Bytes} (hm : IsMethod m) (hu : IsUri u)
    (hds : ∀ c ∈ ds, IsDigit c) : AddsTo (headOf m u ++ bytes "HTTP/" ++ ds) ds := by
  by_cases hne : ds = []
  · subst hne
    exact ⟨_, _, (runs_head hm hu).trans (.refl _),
      fun b hb => versionValues_major (.inl rfl) hb rfl⟩
  · exact ⟨_, _, (runs_head hm hu).trans (runs_major ⟨hne, hds⟩),
      fun b hb => versionValues_major (.inr rfl) hb rfl⟩

theorem addsTo_minor {m u ma ds : Bytes} (hm : IsMethod m) (hu : IsUri u) (hma : IsVersion ma)
    (hds : ∀ c ∈ ds, IsDigit c) :
    AddsTo (headOf m u ++ bytes "HTTP/" ++ ma ++ bytes "." ++ ds) ds := by
  have hdot := ((runs_head hm hu).trans (runs_major hma)).trans Step.httpVersionMajorEnd.runs
  by_cases hne : ds = []
  · subst hne
    exact ⟨_, _, hdot.trans (.refl _), fun b hb => versionValues_minor (.inl rfl) hb rfl⟩
  · exact ⟨_, _, hdot.trans (runs_minor ⟨hne, hds⟩),
      fun b hb => versionValues_minor (.inr rfl) hb rfl⟩

/-- A number that is computed in range is small. -/
theorem ofDecimal_le_of_noOverflow {w ds rest : Bytes} (h : NoOverflow (w ++ ds ++ rest))
    (hds : ∀ c ∈ ds, IsDigit c) (hadds : ∀ pre, (∀ c ∈ pre, IsDigit c) → AddsTo (w ++ pre) pre) :
    ofDecimal ds ≤ 2 ^ 31 - 49 := by
  refine ofDecimal_le_of_inRange hds fun pre b tail hsplit v hv => ?_
  have hpre : ∀ c ∈ pre, IsDigit c := fun c hc => hds c (by rw [hsplit]; simp [hc])
  have hb : IsDigit b := hds b (by rw [hsplit]; simp)
  obtain ⟨st, req, hrun, hvalues⟩ := hadds pre hpre
  refine h (w ++ pre) b (tail ++ rest) st req (by rw [hsplit]; simp) hrun v ?_
  rw [hvalues b hb]
  exact hv

/-- Numbers that are computed in range are small. -/
theorem atMost_of_noOverflow {bs : Bytes} (h : NoOverflow bs) :
    VersionsAtMost (2 ^ 31 - 49) bs := by
  constructor
  · rintro m u ma rest hm hu hma rfl
    exact ofDecimal_le_of_noOverflow h hma.2 fun pre => addsTo_major hm hu
  · rintro m u ma mi rest hm hu hma hmi rfl
    exact ofDecimal_le_of_noOverflow h hmi.2 fun pre => addsTo_minor hm hu hma

/-! ## One request line -/

/-- Bytes of one kind at the front are among those before a byte that is not of the kind. -/
theorem prefix_of_append_eq {p : UInt8 → Prop} {as ds x rest : Bytes} {c : UInt8}
    (h : as ++ c :: x = ds ++ rest) (hds : ∀ b ∈ ds, p b) (hc : ¬ p c) : ds <+: as := by
  rcases List.append_eq_append_iff.mp h with ⟨tail, rfl, htail⟩ | ⟨tail, rfl, _⟩
  · rcases tail with _ | ⟨d, tail⟩
    · rw [List.append_nil]
    · cases htail
      exact absurd (hds c (by simp)) hc
  · exact List.prefix_append ds tail

theorem headOf_inj {m u m' u' x y : Bytes} (hm : IsMethod m) (hu : IsUri u) (hm' : IsMethod m')
    (hu' : IsUri u') (h : headOf m u ++ x = headOf m' u' ++ y) : m = m' ∧ u = u' ∧ x = y := by
  have hcons : ∀ m u x : Bytes, headOf m u ++ x = m ++ ch ' ' :: (u ++ ch ' ' :: x) := by
    intro m u x
    simp [headOf, bytes]
  rw [hcons, hcons] at h
  obtain ⟨hmethod, htail⟩ := split_inj (fun hc => isToken_ne_space _ (hm.2 _ hc) rfl)
    (fun hc => isToken_ne_space _ (hm'.2 _ hc) rfl) h
  obtain ⟨huri, hrest⟩ := split_inj (fun hc => (hu _ hc).1 rfl) (fun hc => (hu' _ hc).1 rfl) htail
  exact ⟨hmethod, huri, hrest⟩

theorem ofDecimal_mono {ds as : Bytes} (h : ds <+: as) : ofDecimal ds ≤ ofDecimal as := by
  obtain ⟨rest, rfl⟩ := h
  induction rest using List.reverseRecOn with
  | nil => rw [List.append_nil]
  | append_singleton rest b ih =>
    rw [← List.append_assoc]
    exact ih.trans (ofDecimal_le_snoc _ b)

theorem RequestText.render_head (t : RequestText) (r : Bytes) :
    t.render ++ r = headOf t.start.method t.start.uri ++ bytes "HTTP/" ++ t.start.major ++
      bytes "." ++ t.start.minor ++ (crlf ++ renderLines t.lines ++ crlf ++ r) := by
  simp [RequestText.render, StartLine.render, headOf, bytes]

/-- A complete request has one request line: its own. -/
theorem versionsAtMost_render_iff (t : RequestText) (r : Bytes) (n : Nat) :
    VersionsAtMost n (t.render ++ r) ↔
      ofDecimal t.start.major ≤ n ∧ ofDecimal t.start.minor ≤ n := by
  have hm : IsMethod t.start.method := ⟨t.start.method_ne, t.start.method_token⟩
  have hma : IsVersion t.start.major := ⟨t.start.major_ne, t.start.major_digit⟩
  have hmi : IsVersion t.start.minor := ⟨t.start.minor_ne, t.start.minor_digit⟩
  have hdot : ∀ x y z : Bytes, x ++ bytes "." ++ y ++ z = x ++ ch '.' :: (y ++ z) := by
    intro x y z
    simp [bytes]
  constructor
  · intro h
    exact ⟨h.1 _ _ _ _ hm t.start.uri_byte hma (by rw [t.render_head, hdot]),
      h.2 _ _ _ _ _ hm t.start.uri_byte hma hmi (t.render_head r)⟩
  · rintro ⟨hmajor, hminor⟩
    constructor
    · intro m u ma rest hm' hu' hma' h
      rw [t.render_head] at h
      simp only [List.append_assoc] at h
      obtain ⟨-, -, hversion⟩ := headOf_inj hm t.start.uri_byte hm' hu' h
      have htail := List.append_cancel_left hversion
      exact (ofDecimal_mono (prefix_of_append_eq htail hma'.2
        fun hd => isDigit_ne_dot _ hd rfl)).trans hmajor
    · intro m u ma mi rest hm' hu' hma' hmi' h
      rw [t.render_head] at h
      simp only [List.append_assoc] at h
      obtain ⟨-, -, hversion⟩ := headOf_inj hm t.start.uri_byte hm' hu' h
      obtain ⟨-, htail⟩ := split_inj (fun hc => isDigit_ne_dot _ (hma.2 _ hc) rfl)
        (fun hc => isDigit_ne_dot _ (hma'.2 _ hc) rfl) (List.append_cancel_left hversion)
      have hcr : t.start.minor ++ ch '\r' :: (ch '\n' :: (renderLines t.lines ++ (crlf ++ r))) =
          mi ++ rest := htail
      exact (ofDecimal_mono (prefix_of_append_eq hcr hmi'.2
        fun hd => isDigit_ne_cr _ hd rfl)).trans hminor

/-- Small numbers are stored as they are written. -/
theorem versionsStored_of_atMost {bs : Bytes} (h : VersionsAtMost (2 ^ 31 - 49) bs) :
    VersionsStored bs := by
  intro r st req hparse
  obtain ⟨t, rfl, rfl⟩ := parse_sound hparse
  obtain ⟨hmajor, hminor⟩ := (versionsAtMost_render_iff t r _).mp h
  exact ⟨t, rfl, _, _, rfl, versionOf_toInt _ t.start.major_digit (by omega), rfl,
    versionOf_toInt _ t.start.minor_digit (by omega)⟩

/-- **When the version numbers can be read.** On a byte stream every value the parser computes
    for a version number is in the range of `int`, and on success both fields are the
    numbers of the request line, iff no version number in a request line of these bytes is above
    2^31 - 49. -/
theorem version_numbers_iff (bs : Bytes) :
    (NoOverflow bs ∧ VersionsStored bs) ↔ VersionsAtMost (2 ^ 31 - 49) bs :=
  ⟨fun h => atMost_of_noOverflow h.1, fun h => ⟨noOverflow_of_atMost h, versionsStored_of_atMost h⟩⟩

/-- The tenth digit of this version number is computed beyond `int`. -/
theorem tenth_digit_overflows : ¬ ∀ bs, NoOverflow bs ∧ VersionsStored bs := by
  intro h
  have hpre : parse (.methodStart, .empty) (bytes "GET / HTTP/999999999") =
      .ok (none, [], .httpVersionMajor,
        ⟨bytes "GET", bytes "/", some 999999999, some 0, []⟩) := by
    decide +kernel
  have hrange := (h (bytes "GET / HTTP/9999999999.0\r\n\r\n")).1 (bytes "GET / HTTP/999999999")
    (ch '9') (bytes ".0\r\n\r\n") _ _ (by decide +kernel) hpre 9999999990 (by decide +kernel)
  exact absurd hrange.2 (by decide)

end PaleoServer
