/-
  Empty parts of a request that is reported complete.

  The parser has a start state for each part that may not be empty: `method_start`, `uri_start` and
  `header_line_start` read its first byte. But the space behind the method leads to `uri`,
  not to `uri_start`, which no transition enters (`uriStart_unreached`). So a method and the
  name of a header have at least one byte, and a uri may have none: a second space ends it at
  once (`mandatory_parts_iff`).
-/
import PaleoServer.RequestAcceptance

namespace PaleoServer

open Feed

/-! ## The start states -/

/-- No transition leads to `uri_start`. -/
theorem Step.ne_uriStart {st st' : State} {req req' : Request} {b : UInt8}
    (h : Step st req b st' req') : st' ≠ .uriStart := by
  cases h <;> exact State.noConfusion

/-- A new parser never comes to `uri_start`. -/
theorem uriStart_unreached {req req' : Request} {w r : Bytes} {st : State}
    (h : parse (.methodStart, req) w = .ok (none, r, st, req')) : st ≠ .uriStart := by
  have hstart : (State.methodStart, req).1 ≠ .uriStart := State.noConfusion
  have := feed_history (H := fun p _ => p.1 ≠ .uriStart)
    (fun p w b p' _ hs => ((consume_none_iff _ _ _ _ _).mp hs).ne_uriStart) (w := []) hstart h
  exact this

/-- Well-formed lines have headers with names. -/
theorem name_ne_nil_of_mem_headersOf {ls : List Line} (hok : ∀ l ∈ ls, l.WellFormed) :
    ∀ h ∈ headersOf ls, h.name ≠ [] := by
  induction ls with
  | nil => intro h hh; cases hh
  | cons l ls ih =>
    obtain ⟨hl, hls⟩ := List.forall_mem_cons.mp hok
    cases l with
    | header name text => exact List.forall_mem_cons.mpr ⟨hl.1, ih hls⟩
    | continuation blanks text => exact ih hls

/-! ## The first space -/

/-- The first space of the bytes has another one right behind it. -/
def DoubleSpace (bs : Bytes) : Prop :=
  ∃ m rest, (∀ b ∈ m, b ≠ ch ' ') ∧ bs = m ++ ch ' ' :: ch ' ' :: rest

theorem RequestText.render_eq (t : RequestText) (r : Bytes) :
    t.render ++ r = t.start.method ++ ch ' ' :: (t.start.uri ++ ch ' ' :: (bytes "HTTP/" ++
      t.start.major ++ bytes "." ++ t.start.minor ++ crlf ++ renderLines t.lines ++ crlf ++ r)) := by
  simp [RequestText.render, StartLine.render, bytes]

/-- The uri is empty exactly when a second space follows the first. -/
theorem uri_eq_nil_iff (t : RequestText) (r : Bytes) :
    t.start.uri = [] ↔ DoubleSpace (t.render ++ r) := by
  have hmethod : ∀ b ∈ t.start.method, b ≠ ch ' ' := fun b hb =>
    isToken_ne_space b (t.start.method_token b hb)
  rw [t.render_eq r]
  constructor
  · intro hnil
    rw [hnil]
    exact ⟨_, _, hmethod, rfl⟩
  · rintro ⟨m, rest, hm, hsplit⟩
    -- what stands behind the first space, on both sides
    obtain ⟨-, hbehind⟩ := split_inj (fun hc => hmethod _ hc rfl) (fun hc => hm _ hc rfl) hsplit
    cases huri : t.start.uri with
    | nil => rfl
    | cons b u =>
      rw [huri] at hbehind
      obtain ⟨rfl, _⟩ := List.cons.inj hbehind
      exact absurd rfl (t.start.uri_byte (ch ' ') (by rw [huri]; exact List.mem_cons_self)).1

/-- **Which complete requests have an empty part.** When a new parser returns `true`, the
    method, the uri and the names of all headers are non-empty iff the first space of the
    bytes has no second one right behind it. -/
theorem mandatory_parts_iff (bs r : Bytes) (st : State) (req : Request)
    (h : parse (.methodStart, .empty) bs = .ok (some true, r, st, req)) :
    (req.method ≠ [] ∧ req.uri ≠ [] ∧ ∀ hd ∈ req.headers, hd.name ≠ []) ↔ ¬ DoubleSpace bs := by
  obtain ⟨t, rfl, rfl⟩ := parse_sound h
  rw [← uri_eq_nil_iff]
  have hnames := name_ne_nil_of_mem_headersOf t.lines_ok.line
  constructor
  · rintro ⟨_, huri, _⟩
    exact huri
  · intro huri
    exact ⟨t.start.method_ne, huri, hnames⟩

theorem mandatory_parts_iff_sample :
    ∃ st req, parse (.methodStart, .empty) (bytes "GET / HTTP/1.0\r\n\r\n") =
      .ok (some true, [], st, req) ∧
      ((req.method ≠ [] ∧ req.uri ≠ [] ∧ ∀ hd ∈ req.headers, hd.name ≠ []) ↔
        ¬ DoubleSpace (bytes "GET / HTTP/1.0\r\n\r\n")) := by
  have h : parse (.methodStart, .empty) (bytes "GET / HTTP/1.0\r\n\r\n") =
      .ok (some true, [], .expectingNewline3,
        ⟨bytes "GET", bytes "/", some 1, some 0, []⟩) := by
    decide +kernel
  exact ⟨_, _, h, mandatory_parts_iff _ _ _ _ h⟩

/-- A request without a uri is complete. -/
theorem empty_uri_accepted : ¬ ∀ (bs r : Bytes) (st : State) (req : Request),
    parse (.methodStart, .empty) bs = .ok (some true, r, st, req) →
      req.method ≠ [] ∧ req.uri ≠ [] ∧ ∀ hd ∈ req.headers, hd.name ≠ [] := by
  intro h
  have hparse : parse (.methodStart, .empty) (bytes "GET  HTTP/1.0\r\n\r\n") =
      .ok (some true, [], .expectingNewline3,
        ⟨bytes "GET", [], some 1, some 0, []⟩) := by
    decide +kernel
  exact (h _ _ _ _ hparse).2.1 rfl

end PaleoServer
