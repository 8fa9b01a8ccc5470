/-
  The transitions of the request parser, and the parser with its invariant.

  `Step` lists the undecided transitions of `consume`, one constructor per arrow of the
  state diagram, with the bytes that take it and what it does to the request
  (`consume_none_iff`). `consume_true_iff` is the only accepting step. Invariants of the
  parser are case analyses of `Step`; no later proof opens `consume`.

  `WellFormed` is the unwritten invariant the partial operations rest on. Every step of a
  well-formed pair is defined and well formed again (`consume_total`), so a `Parsing`, the
  pair with its invariant, is parsed totally.
-/
import PaleoServer.RequestParser

namespace PaleoServer

/-! ## Classes of bytes -/

/-- A control byte: 0..31 or 127. -/
def IsControl (b : UInt8) : Prop := b ≤ 31 ∨ b = 127

/-- The separators that may not stand in a token. -/
def tspecials : Bytes := bytes "()<>@,;:\\\"/[]?=\x7b\x7d \t"

/-- A token byte: 0..127, not a control byte, not a separator. -/
def IsToken (b : UInt8) : Prop := b ≤ 127 ∧ ¬ IsControl b ∧ b ∉ tspecials

/-- Space or horizontal tab. -/
def IsBlank (b : UInt8) : Prop := b = ch ' ' ∨ b = ch '\t'

/-- A decimal digit. -/
def IsDigit (b : UInt8) : Prop := ch '0' ≤ b ∧ b ≤ ch '9'

instance : DecidablePred IsControl := fun _ => inferInstanceAs (Decidable (_ ∨ _))
instance : DecidablePred IsToken := fun _ => inferInstanceAs (Decidable (_ ∧ _))
instance : DecidablePred IsBlank := fun _ => inferInstanceAs (Decidable (_ ∨ _))
instance : DecidablePred IsDigit := fun _ => inferInstanceAs (Decidable (_ ∧ _))

/-- The rejecting test of the token states. -/
theorem notToken_eq : ∀ b : UInt8,
    (!isChar (charToInt b) || isCtl (charToInt b) || isTspecial (charToInt b)) =
      !decide (IsToken b) := by
  decide +kernel

theorem isCtl_charToInt : ∀ b : UInt8, isCtl (charToInt b) = decide (IsControl b) := by
  decide +kernel

theorem isDigit_charToInt : ∀ b : UInt8, isDigit (charToInt b) = decide (IsDigit b) := by
  decide +kernel

theorem isToken_ne_space : ∀ b : UInt8, IsToken b → b ≠ ch ' ' := by
  rintro _ h rfl
  exact absurd h (by decide)

theorem isToken_ne_colon : ∀ b : UInt8, IsToken b → b ≠ ch ':' := by
  rintro _ h rfl
  exact absurd h (by decide)

theorem isToken_ne_cr : ∀ b : UInt8, IsToken b → b ≠ ch '\r' := by
  rintro _ h rfl
  exact absurd h (by decide)

theorem isToken_not_blank : ∀ b : UInt8, IsToken b → ¬ IsBlank b := by
  rintro _ h (rfl | rfl)
  · exact absurd h (by decide)
  · exact absurd h (by decide)

theorem not_control_ne_cr : ∀ b : UInt8, ¬ IsControl b → b ≠ ch '\r' := by
  rintro _ h rfl
  exact h (by decide)

theorem blank_of_not_control : ∀ b : UInt8, ¬ IsControl b → b ≠ ch ' ' → ¬ IsBlank b := by
  rintro _ h hne (rfl | rfl)
  · exact hne rfl
  · exact h (by decide)

theorem isDigit_ne_dot : ∀ b : UInt8, IsDigit b → b ≠ ch '.' := by
  rintro _ h rfl
  exact absurd h (by decide)

theorem isDigit_ne_cr : ∀ b : UInt8, IsDigit b → b ≠ ch '\r' := by
  rintro _ h rfl
  exact absurd h (by decide)

/-! ## The last header -/

theorem modifyBack_snoc (f : Header → Header) (hs : List Header) (h : Header) :
    modifyBack f (hs ++ [h]) = .ok (hs ++ [f h]) := by
  induction hs with
  | nil => rfl
  | cons g hs ih =>
    cases hs with
    | nil => rfl
    | cons g' hs =>
      simp only [List.cons_append] at ih ⊢
      rw [modifyBack, ih]
      rfl

/-- `modifyBack` changes the last header and needs one to be there. -/
theorem modifyBack_ok_iff (f : Header → Header) (hs hs' : List Header) :
    modifyBack f hs = .ok hs' ↔ ∃ pre h, hs = pre ++ [h] ∧ hs' = pre ++ [f h] := by
  rcases List.eq_nil_or_concat hs with rfl | ⟨pre, h, rfl⟩
  · simp [modifyBack]
  · rw [List.concat_eq_append, modifyBack_snoc]
    constructor
    · intro e
      exact ⟨pre, h, rfl, (Except.ok.inj e).symm⟩
    · rintro ⟨pre', h', e, rfl⟩
      obtain ⟨rfl, hh⟩ := List.append_inj' e rfl
      cases hh
      rfl

/-! ## The transition relation -/

/-- The undecided transitions of the parser. -/
inductive Step : State → Request → UInt8 → State → Request → Prop where
  | methodStart {r b} : IsToken b →
      Step .methodStart r b .method { r with method := r.method ++ [b] }
  | methodEnd {r} : Step .method r (ch ' ') .uri r
  | method {r b} : IsToken b →
      Step .method r b .method { r with method := r.method ++ [b] }
  | uriStart {r b} : ¬ IsControl b →
      Step .uriStart r b .uri { r with uri := r.uri ++ [b] }
  | uriEnd {r} : Step .uri r (ch ' ') .httpVersionH r
  | uri {r b} : b ≠ ch ' ' → ¬ IsControl b →
      Step .uri r b .uri { r with uri := r.uri ++ [b] }
  | httpVersionH {r} : Step .httpVersionH r (ch 'H') .httpVersionT1 r
  | httpVersionT1 {r} : Step .httpVersionT1 r (ch 'T') .httpVersionT2 r
  | httpVersionT2 {r} : Step .httpVersionT2 r (ch 'T') .httpVersionP r
  | httpVersionP {r} : Step .httpVersionP r (ch 'P') .httpVersionSlash r
  | httpVersionSlash {r} : Step .httpVersionSlash r (ch '/') .httpVersionMajorStart
      { r with httpVersionMajor := some 0, httpVersionMinor := some 0 }
  | httpVersionMajorStart {r b v} : IsDigit b → r.httpVersionMajor = some v →
      Step .httpVersionMajorStart r b .httpVersionMajor
        { r with httpVersionMajor := some (accumulate v b) }
  | httpVersionMajorEnd {r} : Step .httpVersionMajor r (ch '.') .httpVersionMinorStart r
  | httpVersionMajor {r b v} : IsDigit b → r.httpVersionMajor = some v →
      Step .httpVersionMajor r b .httpVersionMajor
        { r with httpVersionMajor := some (accumulate v b) }
  | httpVersionMinorStart {r b v} : IsDigit b → r.httpVersionMinor = some v →
      Step .httpVersionMinorStart r b .httpVersionMinor
        { r with httpVersionMinor := some (accumulate v b) }
  | httpVersionMinorEnd {r} : Step .httpVersionMinor r (ch '\r') .expectingNewline1 r
  | httpVersionMinor {r b v} : IsDigit b → r.httpVersionMinor = some v →
      Step .httpVersionMinor r b .httpVersionMinor
        { r with httpVersionMinor := some (accumulate v b) }
  | expectingNewline1 {r} : Step .expectingNewline1 r (ch '\n') .headerLineStart r
  | headersEnd {r} : Step .headerLineStart r (ch '\r') .expectingNewline3 r
  | foldStart {r b} : r.headers ≠ [] → IsBlank b → Step .headerLineStart r b .headerLws r
  | headerLineStart {r b} : IsToken b →
      Step .headerLineStart r b .headerName
        { r with headers := r.headers ++ [⟨[b], []⟩] }
  | headerLwsEnd {r} : Step .headerLws r (ch '\r') .expectingNewline2 r
  | headerLws {r b} : IsBlank b → Step .headerLws r b .headerLws r
  | foldValue {r b hs h} : b ≠ ch ' ' → ¬ IsControl b → r.headers = hs ++ [h] →
      Step .headerLws r b .headerValue { r with headers := hs ++ [h.pushValue b] }
  | headerNameEnd {r} : Step .headerName r (ch ':') .spaceBeforeHeaderValue r
  | headerName {r b hs h} : IsToken b → r.headers = hs ++ [h] →
      Step .headerName r b .headerName { r with headers := hs ++ [h.pushName b] }
  | spaceBeforeHeaderValue {r} : Step .spaceBeforeHeaderValue r (ch ' ') .headerValue r
  | headerValueEnd {r} : Step .headerValue r (ch '\r') .expectingNewline2 r
  | headerValue {r b hs h} : ¬ IsControl b → r.headers = hs ++ [h] →
      Step .headerValue r b .headerValue { r with headers := hs ++ [h.pushValue b] }
  | expectingNewline2 {r} : Step .expectingNewline2 r (ch '\n') .headerLineStart r

/-- What follows a modification of the last header had one to modify. -/
theorem modifyBack_bind {α : Type} {f : Header → Header} {hs : List Header}
    {k : List Header → α} {r : α}
    (h : (modifyBack f hs >>= fun hs' => .ok (k hs')) = (.ok r : Except Fault α)) :
    ∃ pre g, hs = pre ++ [g] ∧ r = k (pre ++ [f g]) := by
  obtain ⟨hs', hm, hr⟩ := (Feed.bind_ok_iff _ _ _).mp h
  obtain ⟨pre, g, rfl, rfl⟩ := (modifyBack_ok_iff _ _ _).mp hm
  exact ⟨pre, g, rfl, (Except.ok.inj hr).symm⟩

/-- What follows the reading of an `int` had a written one to read. -/
theorem readInt_bind {α : Type} {o : Option Int32} {k : Int32 → α} {r : α}
    (h : (readInt o >>= fun v => .ok (k v)) = (.ok r : Except Fault α)) :
    ∃ v, o = some v ∧ r = k v := by
  obtain ⟨v, hv, hr⟩ := (Feed.bind_ok_iff _ _ _).mp h
  cases o with
  | none => cases hv
  | some w =>
    cases hv
    exact ⟨v, rfl, (Except.ok.inj hr).symm⟩

/-- A state that wants one byte and refuses every other. -/
theorem consume_literal {st st' st'' : State} {req req' req'' : Request} {b c : UInt8}
    (h : (if b = c then .ok (none, st', req') else .ok (some false, st, req) :
      Except Fault (Tribool × State × Request)) = .ok (none, st'', req'')) :
    b = c ∧ st'' = st' ∧ req'' = req' := by
  split at h
  · rename_i hb
    cases h
    exact ⟨hb, rfl, rfl⟩
  · cases h

/-- Every undecided step of `consume` is a transition of the diagram. -/
theorem step_of_consume {st st' : State} {req req' : Request} {b : UInt8}
    (h : consume st req b = .ok (none, st', req')) : Step st req b st' req' := by
  cases st with
  | methodStart =>
    simp only [consume, notToken_eq, Bool.not_eq_true', decide_eq_false_iff_not] at h
    split at h <;> cases h
    rename_i ht
    exact .methodStart (not_not.mp ht)
  | method =>
    simp only [consume, notToken_eq, Bool.not_eq_true', decide_eq_false_iff_not] at h
    split at h
    · cases h
      rename_i hb
      subst hb
      exact .methodEnd
    · split at h <;> cases h
      rename_i ht
      exact .method (not_not.mp ht)
  | uriStart =>
    simp only [consume, isCtl_charToInt, decide_eq_true_eq] at h
    split at h <;> cases h
    rename_i hc
    exact .uriStart hc
  | uri =>
    simp only [consume, isCtl_charToInt, decide_eq_true_eq] at h
    split at h
    · cases h
      rename_i hb
      subst hb
      exact .uriEnd
    · split at h <;> cases h
      rename_i hb hc
      exact .uri hb hc
  | httpVersionH =>
    obtain ⟨rfl, rfl, rfl⟩ := consume_literal h
    exact .httpVersionH
  | httpVersionT1 =>
    obtain ⟨rfl, rfl, rfl⟩ := consume_literal h
    exact .httpVersionT1
  | httpVersionT2 =>
    obtain ⟨rfl, rfl, rfl⟩ := consume_literal h
    exact .httpVersionT2
  | httpVersionP =>
    obtain ⟨rfl, rfl, rfl⟩ := consume_literal h
    exact .httpVersionP
  | httpVersionSlash =>
    obtain ⟨rfl, rfl, rfl⟩ := consume_literal h
    exact .httpVersionSlash
  | httpVersionMajorStart =>
    simp only [consume, isDigit_charToInt, decide_eq_true_eq] at h
    split at h
    · rename_i hd
      obtain ⟨v, hv, hr⟩ := readInt_bind h
      cases hr
      exact .httpVersionMajorStart hd hv
    · cases h
  | httpVersionMajor =>
    simp only [consume, isDigit_charToInt, decide_eq_true_eq] at h
    split at h
    · cases h
      rename_i hb
      subst hb
      exact .httpVersionMajorEnd
    · split at h
      · rename_i hd
        obtain ⟨v, hv, hr⟩ := readInt_bind h
        cases hr
        exact .httpVersionMajor hd hv
      · cases h
  | httpVersionMinorStart =>
    simp only [consume, isDigit_charToInt, decide_eq_true_eq] at h
    split at h
    · rename_i hd
      obtain ⟨v, hv, hr⟩ := readInt_bind h
      cases hr
      exact .httpVersionMinorStart hd hv
    · cases h
  | httpVersionMinor =>
    simp only [consume, isDigit_charToInt, decide_eq_true_eq] at h
    split at h
    · cases h
      rename_i hb
      subst hb
      exact .httpVersionMinorEnd
    · split at h
      · rename_i hd
        obtain ⟨v, hv, hr⟩ := readInt_bind h
        cases hr
        exact .httpVersionMinor hd hv
      · cases h
  | expectingNewline1 =>
    obtain ⟨rfl, rfl, rfl⟩ := consume_literal h
    exact .expectingNewline1
  | headerLineStart =>
    simp only [consume, notToken_eq, Bool.not_eq_true', decide_eq_false_iff_not,
      Bool.and_eq_true, Bool.or_eq_true, beq_iff_eq, List.isEmpty_eq_false_iff] at h
    split at h
    · cases h
      rename_i hb
      subst hb
      exact .headersEnd
    · split at h
      · cases h
        rename_i hf
        exact .foldStart hf.1 hf.2
      · split at h
        · cases h
        · rename_i ht
          rw [modifyBack_snoc] at h
          cases h
          exact .headerLineStart (not_not.mp ht)
  | headerLws =>
    simp only [consume, isCtl_charToInt, Bool.or_eq_true, decide_eq_true_eq] at h
    split at h
    · cases h
      rename_i hb
      subst hb
      exact .headerLwsEnd
    · split at h
      · cases h
        rename_i hb
        exact .headerLws hb
      · split at h
        · cases h
        · rename_i hb hc
          obtain ⟨pre, g, hreq, hr⟩ := modifyBack_bind h
          cases hr
          exact .foldValue (fun e => hb (.inl e)) hc hreq
  | headerName =>
    simp only [consume, notToken_eq, Bool.not_eq_true', decide_eq_false_iff_not] at h
    split at h
    · cases h
      rename_i hb
      subst hb
      exact .headerNameEnd
    · split at h
      · cases h
      · rename_i ht
        obtain ⟨pre, g, hreq, hr⟩ := modifyBack_bind h
        cases hr
        exact .headerName (not_not.mp ht) hreq
  | spaceBeforeHeaderValue =>
    obtain ⟨rfl, rfl, rfl⟩ := consume_literal h
    exact .spaceBeforeHeaderValue
  | headerValue =>
    simp only [consume, isCtl_charToInt, decide_eq_true_eq] at h
    split at h
    · cases h
      rename_i hb
      subst hb
      exact .headerValueEnd
    · split at h
      · cases h
      · rename_i hc
        obtain ⟨pre, g, hreq, hr⟩ := modifyBack_bind h
        cases hr
        exact .headerValue hc hreq
  | expectingNewline2 =>
    obtain ⟨rfl, rfl, rfl⟩ := consume_literal h
    exact .expectingNewline2
  | expectingNewline3 => cases h

/-- Every transition of the diagram is an undecided step of `consume`. -/
theorem Step.consume_eq {st st' : State} {req req' : Request} {b : UInt8}
    (h : Step st req b st' req') : consume st req b = .ok (none, st', req') := by
  cases h with
  | methodStart ht => simp only [consume, notToken_eq, ht, decide_true, Bool.not_true]; rfl
  | methodEnd => rfl
  | method ht =>
    simp only [consume, notToken_eq, ht, decide_true, Bool.not_true, isToken_ne_space _ ht]
    rfl
  | uriStart hc => simp only [consume, isCtl_charToInt, hc, decide_false]; rfl
  | uriEnd => rfl
  | uri hb hc => simp only [consume, isCtl_charToInt, hb, hc, decide_false]; rfl
  | httpVersionH => rfl
  | httpVersionT1 => rfl
  | httpVersionT2 => rfl
  | httpVersionP => rfl
  | httpVersionSlash => rfl
  | httpVersionMajorStart hd hv =>
    simp only [consume, isDigit_charToInt, hd, decide_true, hv]
    rfl
  | httpVersionMajorEnd => rfl
  | httpVersionMajor hd hv =>
    simp only [consume, isDigit_charToInt, hd, decide_true, hv, isDigit_ne_dot _ hd]
    rfl
  | httpVersionMinorStart hd hv =>
    simp only [consume, isDigit_charToInt, hd, decide_true, hv]
    rfl
  | httpVersionMinorEnd => rfl
  | httpVersionMinor hd hv =>
    simp only [consume, isDigit_charToInt, hd, decide_true, hv, isDigit_ne_cr _ hd]
    rfl
  | expectingNewline1 => rfl
  | headersEnd => rfl
  | foldStart hne hb =>
    have hcr : b ≠ ch '\r' := by rcases hb with rfl | rfl <;> decide
    simp only [consume, if_neg hcr, Bool.and_eq_true, Bool.or_eq_true, beq_iff_eq,
      Bool.not_eq_true', List.isEmpty_eq_false_iff]
    rw [if_pos ⟨hne, hb⟩]
  | headerLineStart ht =>
    simp only [consume, notToken_eq, if_neg (isToken_ne_cr _ ht), Bool.and_eq_true,
      Bool.or_eq_true, beq_iff_eq, ht, decide_true, Bool.not_true]
    rw [if_neg fun hf => isToken_not_blank _ ht hf.2, modifyBack_snoc]
    rfl
  | headerLwsEnd => rfl
  | headerLws hb =>
    have hcr : b ≠ ch '\r' := by rcases hb with rfl | rfl <;> decide
    simp only [consume, if_neg hcr, Bool.or_eq_true, decide_eq_true_eq]
    rw [if_pos (show _ ∨ _ from hb)]
  | foldValue hb hc hreq =>
    simp only [consume, isCtl_charToInt, hc, decide_false, if_neg (not_control_ne_cr _ hc),
      Bool.or_eq_true, decide_eq_true_eq, hreq, modifyBack_snoc]
    rw [if_neg (show ¬ (_ ∨ _) from blank_of_not_control _ hc hb)]
    rfl
  | headerNameEnd => rfl
  | headerName ht hreq =>
    simp only [consume, notToken_eq, if_neg (isToken_ne_colon _ ht), ht, decide_true,
      Bool.not_true, hreq, modifyBack_snoc]
    rfl
  | spaceBeforeHeaderValue => rfl
  | headerValueEnd => rfl
  | headerValue hc hreq =>
    simp only [consume, isCtl_charToInt, if_neg (not_control_ne_cr _ hc), hc, decide_false, hreq,
      modifyBack_snoc]
    rfl
  | expectingNewline2 => rfl

/-- The undecided steps of `consume` are exactly the transitions of the diagram. -/
theorem consume_none_iff (st st' : State) (req req' : Request) (b : UInt8) :
    consume st req b = .ok (none, st', req') ↔ Step st req b st' req' :=
  ⟨step_of_consume, Step.consume_eq⟩

/-- A definite verdict leaves the parser and the request as they are. It is `true` only for
    the line feed that ends the request. -/
theorem consume_some {st st' : State} {req req' : Request} {b : UInt8} {v : Bool}
    (h : consume st req b = .ok (some v, st', req')) :
    st' = st ∧ req' = req ∧ (v = true ↔ st = .expectingNewline3 ∧ b = ch '\n') := by
  cases st
  case expectingNewline3 =>
    cases h
    exact ⟨rfl, rfl, by simp⟩
  all_goals
    simp only [consume] at h
    repeat' split at h
  all_goals first
    | cases h; done
    | cases h; exact ⟨rfl, rfl, by simp⟩
    | obtain ⟨_, _, hr⟩ := (Feed.bind_ok_iff _ _ _).mp h; cases hr

/-- The accepting step. -/
theorem consume_true_iff (st st' : State) (req req' : Request) (b : UInt8) :
    consume st req b = .ok (some true, st', req') ↔
      st = .expectingNewline3 ∧ b = ch '\n' ∧ st' = st ∧ req' = req := by
  constructor
  · intro h
    obtain ⟨hs, hr, hv⟩ := consume_some h
    obtain ⟨he, hb⟩ := hv.mp rfl
    exact ⟨he, hb, hs, hr⟩
  · rintro ⟨rfl, rfl, rfl, rfl⟩
    rfl

/-! ## The invariant -/

/-- The states in which `headers.back()` is used. -/
def State.NeedsHeader (st : State) : Prop :=
  st = .headerLws ∨ st = .headerName ∨ st = .spaceBeforeHeaderValue ∨ st = .headerValue ∨
    st = .expectingNewline2

/-- The states in which a version number is being read. -/
def State.NeedsVersion (st : State) : Prop :=
  st = .httpVersionMajorStart ∨ st = .httpVersionMajor ∨ st = .httpVersionMinorStart ∨
    st = .httpVersionMinor

instance : DecidablePred State.NeedsHeader := fun _ => inferInstanceAs (Decidable (_ ∨ _))
instance : DecidablePred State.NeedsVersion := fun _ => inferInstanceAs (Decidable (_ ∨ _))

/-- What ties the state of the parser to its request. -/
structure WellFormed (st : State) (req : Request) : Prop where
  header : st.NeedsHeader → req.headers ≠ []
  version : st.NeedsVersion → req.httpVersionMajor.isSome ∧ req.httpVersionMinor.isSome

theorem wellFormed_start (req : Request) : WellFormed .methodStart req :=
  ⟨fun h => absurd h (by decide), fun h => absurd h (by decide)⟩

/-- No operation of `consume` is undefined on a well-formed pair. -/
theorem WellFormed.consume_defined {st : State} {req : Request} (wf : WellFormed st req)
    (b : UInt8) : ∃ r, consume st req b = .ok r := by
  have back : st.NeedsHeader → ∀ f, ∃ hs, modifyBack f req.headers = .ok hs := by
    intro hn f
    obtain ⟨pre, h, e⟩ := (List.eq_nil_or_concat req.headers).resolve_left (wf.header hn)
    exact ⟨pre ++ [f h], by rw [e, List.concat_eq_append, modifyBack_snoc]⟩
  have major : st.NeedsVersion → ∃ v, readInt req.httpVersionMajor = .ok v := by
    intro hn
    obtain ⟨v, e⟩ := Option.isSome_iff_exists.mp (wf.version hn).1
    exact ⟨v, by rw [e]; rfl⟩
  have minor : st.NeedsVersion → ∃ v, readInt req.httpVersionMinor = .ok v := by
    intro hn
    obtain ⟨v, e⟩ := Option.isSome_iff_exists.mp (wf.version hn).2
    exact ⟨v, by rw [e]; rfl⟩
  cases st
  all_goals
    simp only [consume]
    repeat' split
  -- what is left in each state is a plain result, or one partial operation and a result
  all_goals first
    | exact ⟨_, rfl⟩
    | rw [modifyBack_snoc]; exact ⟨_, rfl⟩
    | obtain ⟨hs, e⟩ := back (by decide) (Header.pushName b); rw [e]; exact ⟨_, rfl⟩
    | obtain ⟨hs, e⟩ := back (by decide) (Header.pushValue b); rw [e]; exact ⟨_, rfl⟩
    | obtain ⟨v, e⟩ := major (by decide); rw [e]; exact ⟨_, rfl⟩
    | obtain ⟨v, e⟩ := minor (by decide); rw [e]; exact ⟨_, rfl⟩

/-- A transition keeps the invariant. -/
theorem WellFormed.step {st st' : State} {req req' : Request} {b : UInt8}
    (wf : WellFormed st req) (h : Step st req b st' req') : WellFormed st' req' := by
  refine ⟨fun hn => ?_, fun hv => ?_⟩
  · cases h
    case foldStart hne _ => exact hne
    all_goals first
      | exact absurd hn (by decide)
      | exact wf.header (by decide)
      | exact List.append_ne_nil_of_right_ne_nil _ (List.cons_ne_nil _ _)
  · cases h
    case httpVersionSlash => exact ⟨rfl, rfl⟩
    all_goals first
      | exact absurd hv (by decide)
      | exact wf.version (by decide)
      | exact ⟨rfl, (wf.version (by decide)).2⟩
      | exact ⟨(wf.version (by decide)).1, rfl⟩

theorem WellFormed.consume {st : State} {req : Request} (wf : WellFormed st req) (b : UInt8) :
    ∃ v st' req', PaleoServer.consume st req b = .ok (v, st', req') ∧ WellFormed st' req' := by
  obtain ⟨⟨v, st', req'⟩, h⟩ := wf.consume_defined b
  refine ⟨v, st', req', h, ?_⟩
  cases v with
  | none => exact wf.step (step_of_consume h)
  | some v =>
    obtain ⟨rfl, rfl, _⟩ := consume_some h
    exact wf

/-- `parse` has a defined result on a well-formed pair, and leaves one. -/
theorem WellFormed.parse {st : State} {req : Request} (wf : WellFormed st req) (bs : Bytes) :
    ∃ v r st' req', PaleoServer.parse (st, req) bs = .ok (v, r, st', req') ∧
      WellFormed st' req' := by
  obtain ⟨v, r, ⟨st', req'⟩, h, hw⟩ :=
    Feed.feed_total (I := fun p => WellFormed p.1 p.2)
      (fun p b hp => by
        obtain ⟨v, st', req', h, hw⟩ := hp.consume b
        exact ⟨v, (st', req'), show consumeStep p b = _ from h, hw⟩)
      (s := (st, req)) wf bs
  exact ⟨v, r, st', req', h, hw⟩

/-! ## A parser with its invariant -/

/-- A parser and the request it fills, with the invariant between them. -/
structure Parsing where
  state : State
  request : Request
  wf : WellFormed state request

/-- `request_` and `request_parser_` of a new connection. -/
def Parsing.fresh : Parsing := ⟨.methodStart, .empty, wellFormed_start _⟩

/-- `request_parser::parse` on a well-formed pair: always defined. -/
def Parsing.parse (p : Parsing) (bs : Bytes) : Tribool × Bytes × Parsing :=
  match h : PaleoServer.parse (p.state, p.request) bs with
  | .ok (v, r, st, req) =>
    (v, r, ⟨st, req, by
      obtain ⟨_, _, _, _, h', hw⟩ := p.wf.parse bs
      rw [h] at h'
      cases h'
      exact hw⟩)
  | .error _ => (none, [], p) -- excluded by `WellFormed.parse`

/-- `Parsing.parse` is `request_parser::parse`. -/
theorem Parsing.parse_eq (p : Parsing) (bs : Bytes) :
    PaleoServer.parse (p.state, p.request) bs =
      .ok ((p.parse bs).1, (p.parse bs).2.1, (p.parse bs).2.2.state, (p.parse bs).2.2.request) := by
  obtain ⟨v, r, st, req, h, _⟩ := p.wf.parse bs
  unfold Parsing.parse
  split
  · rename_i h'
    exact h'
  · rename_i h'
    rw [h'] at h
    cases h

theorem Parsing.parse_eq_iff (p q : Parsing) (bs r : Bytes) (v : Tribool) :
    p.parse bs = (v, r, q) ↔
      PaleoServer.parse (p.state, p.request) bs = .ok (v, r, q.state, q.request) := by
  rw [p.parse_eq bs]
  rcases p.parse bs with ⟨v', r', ⟨st, req, wf⟩⟩
  obtain ⟨st', req', wf'⟩ := q
  simp

/-- An undecided parser goes on with what comes next. -/
theorem Parsing.parse_append_none {p q : Parsing} {bs r : Bytes}
    (h : p.parse bs = (none, r, q)) (cs : Bytes) : p.parse (bs ++ cs) = q.parse cs := by
  rw [Parsing.parse_eq_iff] at h
  have := Feed.feed_append_none h cs
  rw [Parsing.parse_eq_iff p (q.parse cs).2.2]
  exact this.trans (q.parse_eq cs)

/-- A parser that has decided does not look at what comes next. -/
theorem Parsing.parse_append_some {p q : Parsing} {bs r : Bytes} {v : Bool}
    (h : p.parse bs = (some v, r, q)) (cs : Bytes) :
    p.parse (bs ++ cs) = (some v, r ++ cs, q) := by
  rw [Parsing.parse_eq_iff] at h ⊢
  exact Feed.feed_append_some h cs

end PaleoServer
