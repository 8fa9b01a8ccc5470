/-
  The parser accepts exactly its grammar and stores exactly its content.

  `Reads` relates every state of the parser to the bytes read so far and the request built
  from them, in terms of the grammar. Each transition keeps it (`Reads.step`), so an
  accepting run has read the bytes of a request text and holds its request (`parse_sound`).
  Conversely the parser runs through the bytes of every request text and accepts at the
  last one (`parse_complete`).
-/
import PaleoServer.RequestGrammar

namespace PaleoServer

open Feed

/-- The bytes of a start line up to and including `major`. -/
def headOf (m u : Bytes) : Bytes := m ++ bytes " " ++ u ++ bytes " "

/-- A method read so far. -/
def IsMethod (m : Bytes) : Prop := m ≠ [] ∧ ∀ b ∈ m, IsToken b

/-- A uri read so far. -/
def IsUri (u : Bytes) : Prop := ∀ b ∈ u, b ≠ ch ' ' ∧ ¬ IsControl b

/-- A version number read so far. -/
def IsVersion (ds : Bytes) : Prop := ds ≠ [] ∧ ∀ b ∈ ds, IsDigit b

/-- A line whose text is being read: a continuation line has at least one byte of it. -/
def Line.Open (l : Line) : Prop := l.WellFormed ∧ (l.isContinuation = true → l.text ≠ [])

/-- State, request and history of an undecided parser. -/
inductive Reads : State → Request → Bytes → Prop where
  | methodStart : Reads .methodStart .empty []
  | method {m} : IsMethod m → Reads .method ⟨m, [], none, none, []⟩ m
  | uri {m u} : IsMethod m → IsUri u →
      Reads .uri ⟨m, u, none, none, []⟩ (m ++ bytes " " ++ u)
  | httpVersionH {m u} : IsMethod m → IsUri u →
      Reads .httpVersionH ⟨m, u, none, none, []⟩ (headOf m u)
  | httpVersionT1 {m u} : IsMethod m → IsUri u →
      Reads .httpVersionT1 ⟨m, u, none, none, []⟩ (headOf m u ++ bytes "H")
  | httpVersionT2 {m u} : IsMethod m → IsUri u →
      Reads .httpVersionT2 ⟨m, u, none, none, []⟩ (headOf m u ++ bytes "HT")
  | httpVersionP {m u} : IsMethod m → IsUri u →
      Reads .httpVersionP ⟨m, u, none, none, []⟩ (headOf m u ++ bytes "HTT")
  | httpVersionSlash {m u} : IsMethod m → IsUri u →
      Reads .httpVersionSlash ⟨m, u, none, none, []⟩ (headOf m u ++ bytes "HTTP")
  | httpVersionMajorStart {m u} : IsMethod m → IsUri u →
      Reads .httpVersionMajorStart ⟨m, u, some 0, some 0, []⟩ (headOf m u ++ bytes "HTTP/")
  | httpVersionMajor {m u ma} : IsMethod m → IsUri u → IsVersion ma →
      Reads .httpVersionMajor ⟨m, u, some (versionOf ma), some 0, []⟩
        (headOf m u ++ bytes "HTTP/" ++ ma)
  | httpVersionMinorStart {m u ma} : IsMethod m → IsUri u → IsVersion ma →
      Reads .httpVersionMinorStart ⟨m, u, some (versionOf ma), some 0, []⟩
        (headOf m u ++ bytes "HTTP/" ++ ma ++ bytes ".")
  | httpVersionMinor {m u ma mi} : IsMethod m → IsUri u → IsVersion ma → IsVersion mi →
      Reads .httpVersionMinor ⟨m, u, some (versionOf ma), some (versionOf mi), []⟩
        (headOf m u ++ bytes "HTTP/" ++ ma ++ bytes "." ++ mi)
  | expectingNewline1 {m u ma mi} : IsMethod m → IsUri u → IsVersion ma → IsVersion mi →
      Reads .expectingNewline1 ⟨m, u, some (versionOf ma), some (versionOf mi), []⟩
        (headOf m u ++ bytes "HTTP/" ++ ma ++ bytes "." ++ mi ++ bytes "\r")
  | headerLineStart (s : StartLine) {ls} : LinesOk ls →
      Reads .headerLineStart (s.request (headersOf ls)) (s.render ++ renderLines ls)
  | headerLws (s : StartLine) {ls bl} : LinesOk ls → ls ≠ [] → bl ≠ [] → (∀ b ∈ bl, IsBlank b) →
      Reads .headerLws (s.request (headersOf ls)) (s.render ++ renderLines ls ++ bl)
  | headerName (s : StartLine) {ls n} : LinesOk ls → n ≠ [] → (∀ b ∈ n, IsToken b) →
      Reads .headerName (s.request (headersOf ls ++ [⟨n, []⟩])) (s.render ++ renderLines ls ++ n)
  | spaceBeforeHeaderValue (s : StartLine) {ls n} : LinesOk ls → n ≠ [] → (∀ b ∈ n, IsToken b) →
      Reads .spaceBeforeHeaderValue (s.request (headersOf ls ++ [⟨n, []⟩]))
        (s.render ++ renderLines ls ++ n ++ bytes ":")
  | headerValue (s : StartLine) {ls l} : LinesOk ls → l.Open →
      (l.isContinuation = true → ls ≠ []) →
      Reads .headerValue (s.request (headersOf (ls ++ [l]))) (s.render ++ renderLines ls ++ l.body)
  | expectingNewline2 (s : StartLine) {ls l} : LinesOk ls → l.WellFormed →
      (l.isContinuation = true → ls ≠ []) →
      Reads .expectingNewline2 (s.request (headersOf (ls ++ [l])))
        (s.render ++ renderLines ls ++ l.body ++ bytes "\r")
  | expectingNewline3 (s : StartLine) {ls} : LinesOk ls →
      Reads .expectingNewline3 (s.request (headersOf ls))
        (s.render ++ renderLines ls ++ bytes "\r")

/-! ## Soundness -/

theorem forall_mem_snoc {p : UInt8 → Prop} {bs : Bytes} {b : UInt8} (h : ∀ c ∈ bs, p c)
    (hb : p b) : ∀ c ∈ bs ++ [b], p c := by
  intro c hc
  rcases List.mem_append.mp hc with hc | hc
  · exact h c hc
  · rw [List.mem_singleton.mp hc]; exact hb

theorem Reads.of_eq {st : State} {req req' : Request} {w w' : Bytes} (h : Reads st req w)
    (hr : req = req') (hw : w = w') : Reads st req' w' := hr ▸ hw ▸ h

theorem append_snoc {w x y : Bytes} {b : UInt8} (e : x ++ [b] = y) : w ++ y = w ++ x ++ [b] := by
  rw [← e, List.append_assoc]

theorem IsVersion.snoc {ds : Bytes} {b : UInt8} (h : ∀ c ∈ ds, IsDigit c) (hb : IsDigit b) :
    IsVersion (ds ++ [b]) :=
  ⟨by simp, forall_mem_snoc h hb⟩

/-- The line whose text is being read, after one more byte. -/
theorem Line.Open.push {l : Line} (h : l.Open) {b : UInt8} (hb : ¬ IsControl b) :
    (l.pushText b).Open := by
  cases l with
  | header n t =>
    obtain ⟨⟨hn, ht, hx⟩, _⟩ := h
    exact ⟨⟨hn, ht, forall_mem_snoc hx hb⟩, fun e => by cases e⟩
  | continuation bl t =>
    obtain ⟨⟨hbl, hB, hx, hh⟩, hne⟩ := h
    have hne : t ≠ [] := hne rfl
    refine ⟨⟨hbl, hB, forall_mem_snoc hx hb, ?_⟩, fun _ => by simp [pushText, text]⟩
    rwa [List.head?_append_of_ne_nil _ hne]

theorem Line.isContinuation_pushText (b : UInt8) (l : Line) :
    (l.pushText b).isContinuation = l.isContinuation := by
  cases l <;> rfl

/-- Every transition keeps `Reads`. -/
theorem Reads.step {st st' : State} {req req' : Request} {w : Bytes} {b : UInt8}
    (hr : Reads st req w) (h : Step st req b st' req') : Reads st' req' (w ++ [b]) := by
  cases h with
  | methodStart ht =>
    cases hr
    exact .method ⟨List.cons_ne_nil _ _, List.forall_mem_singleton.mpr ht⟩
  | methodEnd =>
    cases hr with
    | method hm =>
      exact (Reads.uri (u := []) hm (by simp [IsUri])).of_eq rfl (List.append_nil _)
  | method ht =>
    cases hr with
    | method hm => exact .method ⟨by simp, forall_mem_snoc hm.2 ht⟩
  | uriStart hc => cases hr
  | uriEnd =>
    cases hr with
    | uri hm hu => exact .httpVersionH hm hu
  | uri hs hc =>
    cases hr with
    | uri hm hu =>
      exact (Reads.uri hm (forall_mem_snoc hu ⟨hs, hc⟩)).of_eq rfl (List.append_assoc _ _ _).symm
  | httpVersionH =>
    cases hr with
    | httpVersionH hm hu => exact .httpVersionT1 hm hu
  | httpVersionT1 =>
    cases hr with
    | httpVersionT1 hm hu =>
      exact (Reads.httpVersionT2 hm hu).of_eq rfl (append_snoc rfl)
  | httpVersionT2 =>
    cases hr with
    | httpVersionT2 hm hu =>
      exact (Reads.httpVersionP hm hu).of_eq rfl (append_snoc rfl)
  | httpVersionP =>
    cases hr with
    | httpVersionP hm hu =>
      exact (Reads.httpVersionSlash hm hu).of_eq rfl (append_snoc rfl)
  | httpVersionSlash =>
    cases hr with
    | httpVersionSlash hm hu =>
      exact (Reads.httpVersionMajorStart hm hu).of_eq rfl (append_snoc rfl)
  | httpVersionMajorStart hd hv =>
    cases hr with
    | httpVersionMajorStart hm hu =>
      cases hv
      exact .httpVersionMajor hm hu ⟨List.cons_ne_nil _ _, List.forall_mem_singleton.mpr hd⟩
  | httpVersionMajorEnd =>
    cases hr with
    | httpVersionMajor hm hu hma => exact .httpVersionMinorStart hm hu hma
  | httpVersionMajor hd hv =>
    cases hr with
    | httpVersionMajor hm hu hma =>
      cases hv
      rw [← versionOf_snoc]
      exact (Reads.httpVersionMajor hm hu (.snoc hma.2 hd)).of_eq rfl
        (List.append_assoc _ _ _).symm
  | httpVersionMinorStart hd hv =>
    cases hr with
    | httpVersionMinorStart hm hu hma =>
      cases hv
      exact .httpVersionMinor hm hu hma ⟨List.cons_ne_nil _ _, List.forall_mem_singleton.mpr hd⟩
  | httpVersionMinorEnd =>
    cases hr with
    | httpVersionMinor hm hu hma hmi => exact .expectingNewline1 hm hu hma hmi
  | httpVersionMinor hd hv =>
    cases hr with
    | httpVersionMinor hm hu hma hmi =>
      cases hv
      rw [← versionOf_snoc]
      exact (Reads.httpVersionMinor hm hu hma (.snoc hmi.2 hd)).of_eq rfl
        (List.append_assoc _ _ _).symm
  | expectingNewline1 =>
    cases hr with
    | @expectingNewline1 m u ma mi hm hu hma hmi =>
      let s : StartLine := ⟨m, u, ma, mi, hm.1, hm.2, hu, hma.1, hma.2, hmi.1, hmi.2⟩
      refine (Reads.headerLineStart s LinesOk.nil).of_eq rfl ?_
      simp [s, StartLine.render, renderLines, headOf, bytes, crlf]
  | headersEnd =>
    cases hr with
    | headerLineStart s hok => exact .expectingNewline3 s hok
  | foldStart hne hb =>
    cases hr with
    | @headerLineStart s ls hok =>
      have hls : ls ≠ [] := fun e => hne (by rw [e]; rfl)
      exact .headerLws s hok hls (List.cons_ne_nil _ _) (List.forall_mem_singleton.mpr hb)
  | headerLineStart ht =>
    cases hr with
    | headerLineStart s hok =>
      exact .headerName s hok (List.cons_ne_nil _ _) (List.forall_mem_singleton.mpr ht)
  | headerLwsEnd =>
    cases hr with
    | @headerLws s ls bl hok hls hbl hB =>
      obtain ⟨hs, g, hg⟩ := (List.eq_nil_or_concat _).resolve_left (headersOf_ne_nil hok hls)
      rw [List.concat_eq_append] at hg
      refine (Reads.expectingNewline2 s (l := .continuation bl []) hok
        ⟨hbl, hB, by simp, by simp⟩ fun _ => hls).of_eq ?_ ?_
      · rw [headersOf_snoc_continuation hg, List.append_nil, hg]
      · simp [Line.body, bytes]
  | headerLws hb =>
    cases hr with
    | headerLws s hok hls hbl hB =>
      exact (Reads.headerLws s hok hls (by simp) (forall_mem_snoc hB hb)).of_eq rfl
        (List.append_assoc _ _ _).symm
  | foldValue hb hc hreq =>
    cases hr with
    | @headerLws s ls bl hok hls hbl hB =>
      refine (Reads.headerValue s (l := .continuation bl [b]) hok
        ⟨⟨hbl, hB, List.forall_mem_singleton.mpr hc, by simpa using hb⟩,
          fun _ => List.cons_ne_nil _ _⟩ fun _ => hls).of_eq ?_ ?_
      · rw [headersOf_snoc_continuation hreq]
        rfl
      · simp [Line.body]
  | headerNameEnd =>
    cases hr with
    | headerName s hok hn ht => exact .spaceBeforeHeaderValue s hok hn ht
  | headerName ht hreq =>
    cases hr with
    | headerName s hok hn hn' =>
      obtain ⟨rfl, hh⟩ := List.append_inj' (Eq.symm hreq) rfl
      cases hh
      exact (Reads.headerName s hok (by simp) (forall_mem_snoc hn' ht)).of_eq rfl
        (List.append_assoc _ _ _).symm
  | spaceBeforeHeaderValue =>
    cases hr with
    | @spaceBeforeHeaderValue s ls n hok hn ht =>
      refine (Reads.headerValue s (l := .header n []) hok
        ⟨⟨hn, ht, by simp⟩, fun e => by cases e⟩
        fun e => by cases e).of_eq ?_ ?_
      · rw [headersOf_snoc_header]
      · simp [Line.body, bytes]
  | headerValueEnd =>
    cases hr with
    | headerValue s hok hl hc => exact .expectingNewline2 s hok hl.1 hc
  | headerValue hcb hreq =>
    cases hr with
    | headerValue s hok hl hc =>
      refine (Reads.headerValue s hok (hl.push hcb)
        (by rwa [Line.isContinuation_pushText])).of_eq ?_ ?_
      · rw [headersOf_pushText hreq]
        rfl
      · rw [Line.body_pushText]
        exact append_snoc rfl
  | expectingNewline2 =>
    cases hr with
    | expectingNewline2 s hok hl hc =>
      refine (Reads.headerLineStart s (hok.snoc hl hc)).of_eq rfl ?_
      simp [renderLines_snoc, crlf, bytes]

/-- After an undecided run from a new parser the history is read. -/
theorem reads_of_parse {w r : Bytes} {st : State} {req : Request}
    (h : parse (.methodStart, .empty) w = .ok (none, r, st, req)) : Reads st req w := by
  have := feed_history (H := fun p w => Reads p.1 p.2 w)
    (fun p w b p' hr hs => hr.step ((consume_none_iff _ _ _ _ _).mp hs)) (w := []) .methodStart h
  exact this

/-- An accepting run of a new parser has read the bytes of a request text, and holds the
    request it stands for. -/
theorem parse_sound {bs r : Bytes} {st : State} {req : Request}
    (h : parse (.methodStart, .empty) bs = .ok (some true, r, st, req)) :
    ∃ t : RequestText, bs = t.render ++ r ∧ req = t.request := by
  obtain ⟨pre, b, ⟨st', req'⟩, rfl, hpre, hb⟩ := feed_some_split h
  obtain ⟨hst, rfl, rfl, rfl⟩ := (consume_true_iff _ _ _ _ _).mp hb
  have hr := reads_of_parse hpre
  simp only at hst
  subst hst
  cases hr with
  | @expectingNewline3 s ls hok =>
    refine ⟨⟨s, ls, hok⟩, ?_, rfl⟩
    simp [RequestText.render, crlf, bytes]

/-! ## Completeness -/

/-- The bytes `bs` take the parser from `p` to `q` without a verdict. -/
abbrev Runs (p : State × Request) (bs : Bytes) (q : State × Request) : Prop :=
  Undecided consumeStep p bs q

theorem Step.runs {st st' : State} {req req' : Request} {b : UInt8}
    (h : Step st req b st' req') : Runs (st, req) [b] (st', req') :=
  .single h.consume_eq

/-- A loop of the parser in one state: `f pre` is the request after the bytes `pre`. -/
theorem runs_loop {st : State} (f : Bytes → Request) {p : UInt8 → Prop}
    (h : ∀ pre a, p a → Step st (f pre) a st (f (pre ++ [a]))) (pre : Bytes) {bs : Bytes}
    (hbs : ∀ b ∈ bs, p b) : Runs (st, f pre) bs (st, f (pre ++ bs)) :=
  Undecided.loop (f := fun pre => (st, f pre)) (fun pre a ha => (h pre a ha).consume_eq) pre hbs

theorem runs_method {m : Bytes} (h : IsMethod m) :
    Runs (.methodStart, .empty) m (.method, ⟨m, [], none, none, []⟩) := by
  cases m with
  | nil => exact absurd rfl h.1
  | cons b m =>
    have hb := (Step.methodStart (r := .empty) (h.2 b List.mem_cons_self)).runs
    have hm := runs_loop (fun pre => ⟨pre, [], none, none, []⟩) (fun _ _ ha => .method ha) [b]
      fun c hc => h.2 c (List.mem_cons_of_mem b hc)
    exact hb.trans hm

theorem runs_uri {m u : Bytes} (h : IsUri u) :
    Runs (.uri, ⟨m, [], none, none, []⟩) u (.uri, ⟨m, u, none, none, []⟩) :=
  runs_loop (fun pre => ⟨m, pre, none, none, []⟩) (fun _ _ ha => .uri ha.1 ha.2) [] h

theorem runs_major {m u ds : Bytes} (h : IsVersion ds) :
    Runs (.httpVersionMajorStart, ⟨m, u, some 0, some 0, []⟩) ds
      (.httpVersionMajor, ⟨m, u, some (versionOf ds), some 0, []⟩) := by
  cases ds with
  | nil => exact absurd rfl h.1
  | cons b ds =>
    have hb := (Step.httpVersionMajorStart (r := ⟨m, u, some 0, some 0, []⟩)
      (h.2 b List.mem_cons_self) rfl).runs
    have hds := runs_loop (p := IsDigit) (fun pre => ⟨m, u, some (versionOf pre), some 0, []⟩)
      (fun pre a ha => by rw [versionOf_snoc]; exact .httpVersionMajor ha rfl) [b]
      fun c hc => h.2 c (List.mem_cons_of_mem b hc)
    exact hb.trans hds

theorem runs_minor {m u ds : Bytes} {v : Int32} (h : IsVersion ds) :
    Runs (.httpVersionMinorStart, ⟨m, u, some v, some 0, []⟩) ds
      (.httpVersionMinor, ⟨m, u, some v, some (versionOf ds), []⟩) := by
  cases ds with
  | nil => exact absurd rfl h.1
  | cons b ds =>
    have hb := (Step.httpVersionMinorStart (r := ⟨m, u, some v, some 0, []⟩)
      (h.2 b List.mem_cons_self) rfl).runs
    have hds := runs_loop (p := IsDigit) (fun pre => ⟨m, u, some v, some (versionOf pre), []⟩)
      (fun pre a ha => by rw [versionOf_snoc]; exact .httpVersionMinor ha rfl) [b]
      fun c hc => h.2 c (List.mem_cons_of_mem b hc)
    exact hb.trans hds

/-- A new parser comes to the version number. -/
theorem runs_head {m u : Bytes} (hm : IsMethod m) (hu : IsUri u) :
    Runs (.methodStart, .empty) (headOf m u ++ bytes "HTTP/")
      (.httpVersionMajorStart, ⟨m, u, some 0, some 0, []⟩) := by
  have h1 := (runs_method hm).trans (Step.methodEnd (r := ⟨m, [], none, none, []⟩)).runs
  have h2 := h1.trans (runs_uri hu)
  have h3 := h2.trans (Step.uriEnd (r := ⟨m, u, none, none, []⟩)).runs
  have h4 := h3.trans Step.httpVersionH.runs
  have h5 := h4.trans Step.httpVersionT1.runs
  have h6 := h5.trans Step.httpVersionT2.runs
  have h7 := h6.trans Step.httpVersionP.runs
  have h8 := h7.trans Step.httpVersionSlash.runs
  have e : headOf m u ++ bytes "HTTP/" = m ++ [ch ' '] ++ u ++ [ch ' '] ++ [ch 'H'] ++ [ch 'T'] ++
      [ch 'T'] ++ [ch 'P'] ++ [ch '/'] := by
    simp [headOf, bytes]
  rw [e]
  exact h8

/-- A start line takes a new parser to the first line after it. -/
theorem runs_startLine (s : StartLine) :
    Runs (.methodStart, .empty) s.render (.headerLineStart, s.request []) := by
  have h1 := runs_head ⟨s.method_ne, s.method_token⟩ s.uri_byte
  have h2 := h1.trans (runs_major ⟨s.major_ne, s.major_digit⟩)
  have h3 := h2.trans Step.httpVersionMajorEnd.runs
  have h4 := h3.trans (runs_minor ⟨s.minor_ne, s.minor_digit⟩)
  have h5 := h4.trans Step.httpVersionMinorEnd.runs
  have h6 := h5.trans Step.expectingNewline1.runs
  have e : s.render = headOf s.method s.uri ++ bytes "HTTP/" ++ s.major ++ [ch '.'] ++ s.minor ++
      [ch '\r'] ++ [ch '\n'] := by
    simp [StartLine.render, headOf, bytes, crlf]
  rw [e]
  exact h6

theorem runs_value (s : StartLine) (hs : List Header) (n v : Bytes) {t : Bytes}
    (h : ∀ b ∈ t, ¬ IsControl b) :
    Runs (.headerValue, s.request (hs ++ [⟨n, v⟩])) t
      (.headerValue, s.request (hs ++ [⟨n, v ++ t⟩])) :=
  runs_loop (fun pre => s.request (hs ++ [⟨n, pre⟩]))
    (fun pre _ ha => .headerValue (r := s.request (hs ++ [⟨n, pre⟩])) ha rfl) v h

theorem runs_lineEnd (req : Request) : Runs (.headerValue, req) crlf (.headerLineStart, req) :=
  Step.headerValueEnd.runs.trans Step.expectingNewline2.runs

/-- A well-formed line takes the parser back to the start of a line, with the line's headers. -/
theorem runs_line (s : StartLine) {ls : List Line} {l : Line} (hok : LinesOk ls)
    (hl : l.WellFormed) (hc : l.isContinuation = true → ls ≠ []) :
    Runs (.headerLineStart, s.request (headersOf ls)) (l.body ++ crlf)
      (.headerLineStart, s.request (headersOf (ls ++ [l]))) := by
  cases l with
  | header n t =>
    obtain ⟨hn, hT, ht⟩ := hl
    rw [headersOf_snoc_header]
    cases n with
    | nil => exact absurd rfl hn
    | cons b n =>
      have h1 := (Step.headerLineStart (r := s.request (headersOf ls))
        (hT b List.mem_cons_self)).runs
      have h2 := h1.trans (runs_loop (fun pre => s.request (headersOf ls ++ [⟨pre, []⟩]))
        (fun pre _ ha => .headerName (r := s.request (headersOf ls ++ [⟨pre, []⟩])) ha rfl) [b]
        fun c hc => hT c (List.mem_cons_of_mem b hc))
      have h3 := h2.trans Step.headerNameEnd.runs
      have h4 := h3.trans Step.spaceBeforeHeaderValue.runs
      have h5 := h4.trans (runs_value s (headersOf ls) (b :: n) [] ht)
      have h6 := h5.trans (runs_lineEnd _)
      have e : (Line.header (b :: n) t).body ++ crlf =
          [b] ++ n ++ [ch ':'] ++ [ch ' '] ++ t ++ crlf := by
        simp [Line.body, bytes]
      rw [e]
      exact h6
  | continuation bl t =>
    obtain ⟨hbl, hB, ht, hh⟩ := hl
    have hne := headersOf_ne_nil hok (hc rfl)
    obtain ⟨hs, g, hg⟩ := (List.eq_nil_or_concat _).resolve_left hne
    rw [List.concat_eq_append] at hg
    rw [headersOf_snoc_continuation hg]
    cases bl with
    | nil => exact absurd rfl hbl
    | cons b bl =>
      have h1 := (Step.foldStart (r := s.request (headersOf ls)) hne
        (hB b List.mem_cons_self)).runs
      have h2 := h1.trans (runs_loop (fun _ => s.request (headersOf ls))
        (fun _ _ ha => .headerLws ha) [b] fun c hc => hB c (List.mem_cons_of_mem b hc))
      cases t with
      | nil =>
        have h3 := h2.trans Step.headerLwsEnd.runs
        have h4 := h3.trans Step.expectingNewline2.runs
        rw [List.append_nil, ← hg]
        simpa [Line.body, crlf, bytes] using h4
      | cons c t =>
        have hcs : c ≠ ch ' ' := fun e => hh (by rw [e]; rfl)
        have h3 := h2.trans (Step.foldValue hcs (ht c List.mem_cons_self) hg).runs
        have h4 := h3.trans (runs_value s hs g.name (g.value ++ [c])
          fun d hd => ht d (List.mem_cons_of_mem c hd))
        have h5 := h4.trans (runs_lineEnd _)
        simpa [Line.body, crlf, bytes] using h5

/-- The lines of a request take the parser through their headers. -/
theorem runs_lines (s : StartLine) {ls : List Line} (hok : LinesOk ls) :
    Runs (.headerLineStart, s.request []) (renderLines ls)
      (.headerLineStart, s.request (headersOf ls)) := by
  induction ls using List.reverseRecOn with
  | nil => exact .refl _
  | append_singleton ls l ih =>
    have hls : LinesOk ls := by
      refine ⟨fun k hk => hok.line k (by simp [hk]), fun k hk => hok.first k ?_⟩
      rw [List.head?_append]
      simp [Option.mem_def.mp hk]
    have hc : l.isContinuation = true → ls ≠ [] := by
      rintro he rfl
      have := hok.first l rfl
      rw [he] at this
      cases this
    have := (ih hls).trans (runs_line s hls (hok.line l (by simp)) hc)
    rwa [← List.append_assoc, ← renderLines_snoc] at this

/-- A new parser accepts the bytes of a request text at their last byte, whatever follows,
    and holds the request they stand for. -/
theorem parse_complete (t : RequestText) (r : Bytes) :
    parse (.methodStart, .empty) (t.render ++ r) =
      .ok (some true, r, .expectingNewline3, t.request) := by
  have h1 := (runs_startLine t.start).trans (runs_lines t.start t.lines_ok)
  have h2 := h1.trans Step.headersEnd.runs
  have e : t.render ++ r = (t.start.render ++ renderLines t.lines ++ [ch '\r']) ++ ch '\n' :: r := by
    simp [RequestText.render, crlf, bytes]
  rw [e, parse, feed_append_none h2, feed_cons_some]
  rfl

/-! ## The language of the parser -/

/-- **The parser accepts exactly its grammar and stores exactly its content.** A new parser on
    an empty request returns `true` having consumed `k` bytes of `bs` iff the first `k` bytes
    are those of a request text `t`. It then holds the method, the uri and the headers of
    `t`, and the values of its version numbers where they are at most 2^30. -/
theorem parse_accepts_iff (bs : Bytes) (k : Nat) :
    ((∃ r p, parse (.methodStart, .empty) bs = .ok (some true, r, p) ∧
        k + r.length = bs.length) ↔
      ∃ t : RequestText, k ≤ bs.length ∧ bs.take k = t.render) ∧
    ∀ t : RequestText, k ≤ bs.length → bs.take k = t.render →
      ∃ st req, parse (.methodStart, .empty) bs = .ok (some true, bs.drop k, st, req) ∧
        req.method = t.start.method ∧ req.uri = t.start.uri ∧
        (ofDecimal t.start.major ≤ 2 ^ 30 →
          ∃ v, req.httpVersionMajor = some v ∧ v.toInt = ofDecimal t.start.major) ∧
        (ofDecimal t.start.minor ≤ 2 ^ 30 →
          ∃ v, req.httpVersionMinor = some v ∧ v.toInt = ofDecimal t.start.minor) ∧
        req.headers = headersOf t.lines := by
  have complete : ∀ t : RequestText, bs.take k = t.render →
      parse (.methodStart, .empty) bs =
        .ok (some true, bs.drop k, .expectingNewline3, t.request) := by
    intro t ht
    have := parse_complete t (bs.drop k)
    rwa [← ht, List.take_append_drop] at this
  refine ⟨⟨?_, ?_⟩, ?_⟩
  · rintro ⟨r, ⟨st, req⟩, h, hk⟩
    obtain ⟨t, rfl, _⟩ := parse_sound h
    have hlen : k = t.render.length := by
      rw [List.length_append] at hk
      omega
    refine ⟨t, by rw [List.length_append]; omega, ?_⟩
    rw [hlen, List.take_left]
  · rintro ⟨t, hk, ht⟩
    refine ⟨bs.drop k, _, complete t ht, ?_⟩
    rw [List.length_drop]
    omega
  · intro t _ ht
    refine ⟨_, _, complete t ht, rfl, rfl, fun hma => ?_, fun hmi => ?_, rfl⟩
    · exact ⟨_, rfl, versionOf_toInt _ t.start.major_digit (by omega)⟩
    · exact ⟨_, rfl, versionOf_toInt _ t.start.minor_digit (by omega)⟩

end PaleoServer
