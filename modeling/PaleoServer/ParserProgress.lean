/-
  The parser never gets stuck. From every state it comes to without a verdict there are bytes
  that it accepts (`WellFormed.live`), so what it has read so far is the beginning of a
  complete request. It refuses at the first byte after which no complete request begins with
  the bytes read.

  A continuation line is read only after a header line, so the way on from a state depends on
  the request as well. That is why `live` is about well-formed pairs.

  Proved: `rejects_at_first_hopeless_byte`.
-/
import PaleoServer.ParserStep

namespace PaleoServer

open Feed

/-! ## A way to accept -/

/-- Some bytes are accepted from here, at the last of them. -/
def Live (st : State) (req : Request) : Prop :=
  ∃ rest p, rest ≠ [] ∧ parse (st, req) rest = .ok (some true, [], p)

/-- One byte further is as good. -/
theorem Step.live {st st' : State} {req req' : Request} {b : UInt8}
    (h : Step st req b st' req') (hl : Live st' req') : Live st req := by
  obtain ⟨rest, p, _, hp⟩ := hl
  refine ⟨b :: rest, p, List.cons_ne_nil _ _, ?_⟩
  unfold parse at hp ⊢
  rw [feed_cons_none h.consume_eq]
  exact hp

theorem live_expectingNewline3 (req : Request) : Live .expectingNewline3 req :=
  ⟨bytes "\n", (.expectingNewline3, req), by decide, rfl⟩

/-- No more headers. -/
theorem live_headerLineStart (req : Request) : Live .headerLineStart req :=
  Step.headersEnd.live (live_expectingNewline3 req)

theorem live_expectingNewline2 (req : Request) : Live .expectingNewline2 req :=
  Step.expectingNewline2.live (live_headerLineStart req)

/-- An empty value. -/
theorem live_headerValue (req : Request) : Live .headerValue req :=
  Step.headerValueEnd.live (live_expectingNewline2 req)

theorem live_spaceBeforeHeaderValue (req : Request) : Live .spaceBeforeHeaderValue req :=
  Step.spaceBeforeHeaderValue.live (live_headerValue req)

theorem live_expectingNewline1 (req : Request) : Live .expectingNewline1 req :=
  Step.expectingNewline1.live (live_headerLineStart req)

theorem live_httpVersionMinor (req : Request) : Live .httpVersionMinor req :=
  Step.httpVersionMinorEnd.live (live_expectingNewline1 req)

/-- One digit. -/
theorem live_httpVersionMinorStart {req : Request} {v : Int32}
    (h : req.httpVersionMinor = some v) : Live .httpVersionMinorStart req :=
  (Step.httpVersionMinorStart (b := ch '0') (by decide) h).live (live_httpVersionMinor _)

theorem live_httpVersionMajor {req : Request} {v : Int32} (h : req.httpVersionMinor = some v) :
    Live .httpVersionMajor req :=
  Step.httpVersionMajorEnd.live (live_httpVersionMinorStart h)

theorem live_httpVersionMajorStart {req : Request} {v w : Int32}
    (hmajor : req.httpVersionMajor = some v) (hminor : req.httpVersionMinor = some w) :
    Live .httpVersionMajorStart req :=
  (Step.httpVersionMajorStart (b := ch '0') (by decide) hmajor).live
    (live_httpVersionMajor hminor)

theorem live_httpVersionSlash (req : Request) : Live .httpVersionSlash req :=
  Step.httpVersionSlash.live (live_httpVersionMajorStart rfl rfl)

theorem live_httpVersionH (req : Request) : Live .httpVersionH req :=
  Step.httpVersionH.live (Step.httpVersionT1.live (Step.httpVersionT2.live
    (Step.httpVersionP.live (live_httpVersionSlash req))))

theorem live_uri (req : Request) : Live .uri req := Step.uriEnd.live (live_httpVersionH req)

theorem live_method (req : Request) : Live .method req := Step.methodEnd.live (live_uri req)

/-- **There is a way on from every well-formed pair.** -/
theorem WellFormed.live {st : State} {req : Request} (wf : WellFormed st req) : Live st req := by
  have versions : st.NeedsVersion →
      ∃ v w, req.httpVersionMajor = some v ∧ req.httpVersionMinor = some w := by
    intro hn
    obtain ⟨hmajor, hminor⟩ := wf.version hn
    obtain ⟨v, hv⟩ := Option.isSome_iff_exists.mp hmajor
    obtain ⟨w, hw⟩ := Option.isSome_iff_exists.mp hminor
    exact ⟨v, w, hv, hw⟩
  cases st with
  | methodStart => exact (Step.methodStart (b := ch 'G') (by decide)).live (live_method _)
  | method => exact live_method req
  | uriStart => exact (Step.uriStart (b := ch '/') (by decide)).live (live_uri _)
  | uri => exact live_uri req
  | httpVersionH => exact live_httpVersionH req
  | httpVersionT1 =>
    exact Step.httpVersionT1.live (Step.httpVersionT2.live
      (Step.httpVersionP.live (live_httpVersionSlash req)))
  | httpVersionT2 =>
    exact Step.httpVersionT2.live (Step.httpVersionP.live (live_httpVersionSlash req))
  | httpVersionP => exact Step.httpVersionP.live (live_httpVersionSlash req)
  | httpVersionSlash => exact live_httpVersionSlash req
  | httpVersionMajorStart =>
    obtain ⟨v, w, hv, hw⟩ := versions (by decide)
    exact live_httpVersionMajorStart hv hw
  | httpVersionMajor =>
    obtain ⟨_, w, _, hw⟩ := versions (by decide)
    exact live_httpVersionMajor hw
  | httpVersionMinorStart =>
    obtain ⟨_, w, _, hw⟩ := versions (by decide)
    exact live_httpVersionMinorStart hw
  | httpVersionMinor => exact live_httpVersionMinor req
  | expectingNewline1 => exact live_expectingNewline1 req
  | headerLineStart => exact live_headerLineStart req
  | headerLws => exact Step.headerLwsEnd.live (live_expectingNewline2 req)
  | headerName => exact Step.headerNameEnd.live (live_spaceBeforeHeaderValue req)
  | spaceBeforeHeaderValue => exact live_spaceBeforeHeaderValue req
  | headerValue => exact live_headerValue req
  | expectingNewline2 => exact live_expectingNewline2 req
  | expectingNewline3 => exact live_expectingNewline3 req

/-- An accepting continuation of a parser with its invariant. -/
theorem Parsing.live (p : Parsing) : ∃ rest q, rest ≠ [] ∧ p.parse rest = (some true, [], q) := by
  obtain ⟨rest, q, hne, hp⟩ := p.wf.live
  refine ⟨rest, (p.parse rest).2.2, hne, ?_⟩
  rw [p.parse_eq rest] at hp
  obtain ⟨hv, hr, _⟩ := by simpa using Except.ok.inj hp
  rw [← hv, ← hr]

/-! ## Complete requests and their beginnings -/

/-- A new parser accepts the bytes, at the last of them. -/
def IsComplete (s : Bytes) : Prop := ∃ p, Parsing.fresh.parse s = (some true, [], p)

/-- A proper prefix of a complete request. -/
def BeginsComplete (s : Bytes) : Prop := ∃ rest, rest ≠ [] ∧ IsComplete (s ++ rest)

/-- A verdict is given at one byte. -/
theorem Parsing.parse_some_split {p q : Parsing} {bs r : Bytes} {v : Bool}
    (h : p.parse bs = (some v, r, q)) : ∃ pre b m, bs = pre ++ b :: r ∧
      p.parse pre = (none, [], m) ∧ m.parse [b] = (some v, [], q) := by
  obtain ⟨pre, b, t, rfl, hpre, hb⟩ := feed_some_split ((Parsing.parse_eq_iff ..).mp h)
  rcases hm : p.parse pre with ⟨u, r', m⟩
  have heq := (Parsing.parse_eq_iff ..).mp hm
  rw [show PaleoServer.parse (p.state, p.request) pre = .ok (none, [], t) from hpre] at heq
  cases heq
  exact ⟨pre, b, m, rfl, hm, (Parsing.parse_eq_iff ..).mpr (feed_cons_some hb [])⟩

/-- A verdict on one byte leaves nothing unread. -/
theorem Parsing.parse_single_rest {p q : Parsing} {b : UInt8} {r : Bytes} {v : Bool}
    (h : p.parse [b] = (some v, r, q)) : r = [] := by
  obtain ⟨pre, c, _, hsplit, _, _⟩ := Parsing.parse_some_split h
  have hlen := congrArg List.length hsplit
  simp only [List.length_append, List.length_cons, List.length_nil] at hlen
  exact List.length_eq_zero_iff.mp (by omega)

theorem beginsComplete_of_undecided {s r : Bytes} {p : Parsing}
    (h : Parsing.fresh.parse s = (none, r, p)) : BeginsComplete s := by
  obtain ⟨rest, q, hne, hp⟩ := p.live
  exact ⟨rest, hne, q, by rw [Parsing.parse_append_none h, hp]⟩

/-- After a verdict nothing more is read. -/
theorem not_beginsComplete_of_decided {s r : Bytes} {p : Parsing} {v : Bool}
    (h : Parsing.fresh.parse s = (some v, r, p)) : ¬ BeginsComplete s := by
  rintro ⟨rest, hne, q, hq⟩
  rw [Parsing.parse_append_some h] at hq
  obtain ⟨_, hr⟩ := List.append_eq_nil_iff.mp (congrArg (fun e => e.2.1) hq)
  exact hne hr

theorem undecided_iff (s : Bytes) :
    (∃ r p, Parsing.fresh.parse s = (none, r, p)) ↔ BeginsComplete s := by
  constructor
  · rintro ⟨r, p, h⟩
    exact beginsComplete_of_undecided h
  · intro hb
    rcases h : Parsing.fresh.parse s with ⟨_ | v, r, p⟩
    · exact ⟨r, p, rfl⟩
    · exact absurd hb (not_beginsComplete_of_decided h)

/-- The byte at which the parser refuses is the first hopeless one. -/
theorem hopeless_of_refused {s r : Bytes} {p : Parsing}
    (h : Parsing.fresh.parse s = (some false, r, p)) {k : Nat} (hk : k + r.length = s.length) :
    BeginsComplete (s.take (k - 1)) ∧ ¬ IsComplete (s.take k) ∧ ¬ BeginsComplete (s.take k) := by
  obtain ⟨pre, b, m, rfl, hpre, hb⟩ := Parsing.parse_some_split h
  have hlen : k = pre.length + 1 := by
    rw [List.length_append, List.length_cons] at hk
    omega
  have hbefore : (pre ++ b :: r).take (k - 1) = pre := by
    rw [hlen, Nat.add_sub_cancel, List.take_left]
  have hupto : (pre ++ b :: r).take k = pre ++ [b] := by
    rw [hlen, List.take_length_add_append]
    rfl
  have hfalse : Parsing.fresh.parse (pre ++ [b]) = (some false, [], p) := by
    rw [Parsing.parse_append_none hpre, hb]
  rw [hbefore, hupto]
  refine ⟨beginsComplete_of_undecided hpre, ?_, not_beginsComplete_of_decided hfalse⟩
  rintro ⟨q, hq⟩
  rw [hfalse] at hq
  cases hq

/-- At the first hopeless byte the parser refuses. -/
theorem refused_of_hopeless {s : Bytes} {k : Nat} (hk : k ≤ s.length)
    (hbefore : BeginsComplete (s.take (k - 1))) (hcomplete : ¬ IsComplete (s.take k))
    (hbegins : ¬ BeginsComplete (s.take k)) :
    ∃ r p, Parsing.fresh.parse s = (some false, r, p) ∧ k + r.length = s.length := by
  obtain ⟨r₁, m, hm⟩ := (undecided_iff _).mpr hbefore
  cases k with
  | zero => exact absurd hbefore hbegins
  | succ k =>
    have hsplit : s.take (k + 1) = s.take k ++ [s[k]] := List.take_succ_eq_append_getElem hk
    have hbyte : Parsing.fresh.parse (s.take (k + 1)) = m.parse [s[k]] := by
      rw [hsplit]
      exact Parsing.parse_append_none hm [s[k]]
    rcases h : m.parse [s[k]] with ⟨_ | _ | _, r, p⟩
    · exact absurd (beginsComplete_of_undecided (hbyte.trans h)) hbegins
    · have hr := Parsing.parse_single_rest h
      refine ⟨s.drop (k + 1), p, ?_, by rw [List.length_drop]; omega⟩
      have happ := Parsing.parse_append_some (hbyte.trans h) (s.drop (k + 1))
      rwa [List.take_append_drop, hr] at happ
    · have hr := Parsing.parse_single_rest h
      exact absurd ⟨p, by rw [hbyte, h, hr]⟩ hcomplete

/-- **The parser rejects at the first hopeless byte and never gets stuck.** It refuses the
    bytes at the `k`-th exactly when those before it begin a complete request and those up to it
    neither are nor begin one. It has not decided exactly when the bytes begin a complete
    request, and then some continuation is accepted. No complete request begins another. -/
theorem rejects_at_first_hopeless_byte (s : Bytes) :
    (∀ k, (∃ r p, Parsing.fresh.parse s = (some false, r, p) ∧ k + r.length = s.length) ↔
      k ≤ s.length ∧ BeginsComplete (s.take (k - 1)) ∧ ¬ IsComplete (s.take k) ∧
        ¬ BeginsComplete (s.take k)) ∧
    ((∃ r p, Parsing.fresh.parse s = (none, r, p)) ↔ BeginsComplete s) ∧
    (∀ r p, Parsing.fresh.parse s = (none, r, p) →
      ∃ rest q, rest ≠ [] ∧ p.parse rest = (some true, [], q)) ∧
    (IsComplete s → ¬ BeginsComplete s) := by
  refine ⟨fun k => ⟨?_, ?_⟩, undecided_iff s, fun _ p _ => p.live, ?_⟩
  · rintro ⟨r, p, h, hk⟩
    have hlen : k ≤ s.length := by omega
    exact ⟨hlen, hopeless_of_refused h hk⟩
  · rintro ⟨hk, hbefore, hcomplete, hbegins⟩
    exact refused_of_hopeless hk hbefore hcomplete hbegins
  · rintro ⟨p, hp⟩
    exact not_beginsComplete_of_decided hp

end PaleoServer
