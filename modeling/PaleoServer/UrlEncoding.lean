/-
  `url_decode` against URL encodings.

  `Encodes enc s`: `enc` is one of the encodings of `s`, each byte written as it is, as `+` or
  as `%` and two hex digits. Every encoding is decoded to what it encodes (`encoding_undone`).

  The converse fails. The digits are read by a stream extraction, which also takes white space
  or a sign and a digit, or one digit and any other byte. `escapesOf` is what the scan of
  `url_decode` meets, and `decodes_exactly_iff` says for which strings the extraction makes no
  difference.
-/
import PaleoServer.UrlDecode

namespace PaleoServer

/-! ## Encodings -/

/-- `enc` is an encoding of `s`. -/
inductive Encodes : Bytes → Bytes → Prop where
  | nil : Encodes [] []
  | literal {b : UInt8} {enc s : Bytes} : b ≠ ch '%' → b ≠ ch '+' → Encodes enc s →
      Encodes (b :: enc) (b :: s)
  | plus {enc s : Bytes} : Encodes enc s → Encodes (ch '+' :: enc) (ch ' ' :: s)
  | escape {x y : UInt8} {hi lo : Nat} {enc s : Bytes} : hexValue x = some hi →
      hexValue y = some lo → Encodes enc s →
      Encodes (ch '%' :: x :: y :: enc) (UInt8.ofNat (hi * 16 + lo) :: s)

theorem Encodes.decodesTo {enc s : Bytes} (h : Encodes enc s) : DecodesTo enc s := by
  induction h with
  | nil => exact .nil
  | literal hb hplus _ ih => exact (DecodesTo.byte hb hplus).append ih
  | plus _ ih => exact decodesTo_plus.append ih
  | escape hx hy _ ih => exact (DecodesTo.escape hx hy).append ih

/-- **`url_decode` undoes every encoding**, whatever `out` held before, and the encoding of a
    concatenation piece by piece. -/
theorem encoding_undone {enc s : Bytes} (h : Encodes enc s) :
    (∀ out, urlDecode enc out = (true, s)) ∧
    ∀ enc' s', Encodes enc' s' → ∀ out, urlDecode (enc ++ enc') out = (true, s ++ s') :=
  ⟨fun _ => h.decodesTo, fun _ _ h' _ => h.decodesTo.append h'.decodesTo⟩

/-- A space written as `+`, a `%`, a byte from 128 on and a literal byte, then byte 0. -/
theorem encoding_undone_sample :
    urlDecode ([ch '+', ch '%', ch '2', ch '5', ch '%', ch 'f', ch 'F', ch 'a'] ++
      [ch '%', ch '0', ch '0']) (bytes "old") = (true, [32, 37, 255, 97] ++ [0]) := by
  have hdigit : ∀ x : UInt8, x = ch '0' → hexValue x = some 0 := by rintro _ rfl; rfl
  have hpercent : hexValue (ch '2') = some 2 ∧ hexValue (ch '5') = some 5 := ⟨rfl, rfl⟩
  have hhigh : hexValue (ch 'f') = some 15 ∧ hexValue (ch 'F') = some 15 := ⟨rfl, rfl⟩
  have hzero : Encodes [ch '%', ch '0', ch '0'] [0] :=
    .escape (hdigit _ rfl) (hdigit _ rfl) .nil
  have hrest : Encodes [ch '+', ch '%', ch '2', ch '5', ch '%', ch 'f', ch 'F', ch 'a']
      [32, 37, 255, 97] :=
    .plus (.escape hpercent.1 hpercent.2
      (.escape hhigh.1 hhigh.2 (.literal (by decide) (by decide) .nil)))
  exact (encoding_undone hrest).2 _ _ hzero _

/-! ## What the scan meets -/

/-- The two bytes after each `%` that the scan of `url_decode` meets; `none` where there are
    fewer than two. -/
def escapesOf : Bytes → List (Option (UInt8 × UInt8))
  | [] => []
  | c :: rest =>
    if c = ch '%' then
      match rest with
      | a :: b :: rest' => some (a, b) :: escapesOf rest'
      | _ => [none]
    else escapesOf rest

theorem escapesOf_escape (a b : UInt8) (rest : Bytes) :
    escapesOf (ch '%' :: a :: b :: rest) = some (a, b) :: escapesOf rest := by
  rw [escapesOf.eq_def]
  exact if_pos rfl

theorem escapesOf_cons {c : UInt8} (hc : c ≠ ch '%') (rest : Bytes) :
    escapesOf (c :: rest) = escapesOf rest := by
  rw [escapesOf.eq_def]
  exact if_neg hc

/-- A `%` too close to the end. -/
theorem escapesOf_end {rest : Bytes} (h : ∀ a b rest', rest = a :: b :: rest' → False) :
    escapesOf (ch '%' :: rest) = [none] := by
  rw [escapesOf.eq_def]
  simp only [if_pos]

/-- Two hex digits. -/
def HexPair : Option (UInt8 × UInt8) → Prop
  | none => False
  | some (a, b) => (hexValue a).isSome = true ∧ (hexValue b).isSome = true

/-- The extraction finds a number: a hex digit that does not begin an empty `0x`, or a hex digit
    after white space or a sign. -/
def StartsNumber : Option (UInt8 × UInt8) → Prop
  | none => False
  | some (a, b) =>
    ((hexValue a).isSome = true ∧ ¬ (a = ch '0' ∧ (b = ch 'x' ∨ b = ch 'X'))) ∨
      ((isSpace a = true ∨ a = ch '-' ∨ a = ch '+') ∧ (hexValue b).isSome = true)

instance : DecidablePred HexPair
  | none => isFalse id
  | some (_, _) => inferInstanceAs (Decidable (_ ∧ _))

instance : DecidablePred StartsNumber
  | none => isFalse id
  | some (_, _) => inferInstanceAs (Decidable (_ ∨ _))

/-- Every `%` that the scan meets is followed by two hex digits. -/
def WellEscaped (s : Bytes) : Prop := ∀ e ∈ escapesOf s, HexPair e

instance : DecidablePred WellEscaped := fun s => inferInstanceAs (Decidable (∀ e ∈ escapesOf s, _))

/-- `hexValue` of the digits, `none` of white space and signs. -/
theorem hexValue_sign : ∀ b : UInt8, isSpace b = true ∨ b = ch '-' ∨ b = ch '+' →
    (hexValue b).isSome = false := by
  decide +kernel

theorem hexDigits_some (n : Nat) (bs : Bytes) : (hexDigits (some n) bs).isSome = true := by
  induction bs generalizing n with
  | nil => rfl
  | cons b bs ih =>
    rw [hexDigits]
    cases hexValue b with
    | none => rfl
    | some d => exact ih _

/-- One digit is enough. -/
theorem hexDigits_cons (b : UInt8) (bs : Bytes) :
    (hexDigits none (b :: bs)).isSome = (hexValue b).isSome := by
  rw [hexDigits]
  cases hexValue b with
  | none => rfl
  | some d => exact hexDigits_some _ bs

/-- The extraction without white space: a sign is passed over. -/
theorem extractHex_cons {b : UInt8} (hb : ¬ isSpace b = true) (bs : Bytes) :
    (extractHex (b :: bs)).isSome =
      if b = ch '-' ∨ b = ch '+' then (hexNumber bs).isSome else (hexNumber (b :: bs)).isSome := by
  rw [extractHex, List.dropWhile_cons_of_neg hb]
  by_cases hminus : b = ch '-'
  · rw [if_pos (.inl hminus)]
    simp only [if_pos hminus]
    cases hexNumber bs <;> rfl
  by_cases hplus : b = ch '+'
  · rw [if_pos (.inr hplus)]
    simp only [if_neg hminus, if_pos hplus]
    cases hexNumber bs <;> rfl
  rw [if_neg (not_or.mpr ⟨hminus, hplus⟩)]
  simp only [if_neg hminus, if_neg hplus]
  cases hexNumber (b :: bs) <;> rfl

theorem hexNumber_one (b : UInt8) : (hexNumber [b]).isSome = (hexValue b).isSome :=
  hexDigits_cons b []

/-- The extraction from one character. -/
theorem extractHex_one (b : UInt8) : (extractHex [b]).isSome = (hexValue b).isSome := by
  by_cases hspace : isSpace b = true
  · rw [hexValue_sign b (.inl hspace), extractHex, List.dropWhile_cons_of_pos hspace]
    rfl
  rw [extractHex_cons hspace, hexNumber_one]
  split
  · rename_i hsign
    rw [hexValue_sign b (.inr hsign)]
    rfl
  · rfl

/-- The extraction from two characters succeeds where `StartsNumber` says so. -/
theorem extractHex_isSome (a b : UInt8) :
    (extractHex [a, b]).isSome = true ↔ StartsNumber (some (a, b)) := by
  unfold StartsNumber
  by_cases hspace : isSpace a = true
  · have hskip : extractHex [a, b] = extractHex [b] := by
      unfold extractHex
      rw [List.dropWhile_cons_of_pos hspace]
    rw [hskip, extractHex_one]
    simp [hspace, hexValue_sign a (.inl hspace)]
  rw [extractHex_cons hspace]
  by_cases hsign : a = ch '-' ∨ a = ch '+'
  · rw [if_pos hsign, hexNumber_one]
    simp [hsign, hexValue_sign a (.inr hsign)]
  rw [if_neg hsign]
  by_cases hempty : a = ch '0' ∧ (b = ch 'x' ∨ b = ch 'X')
  · have hnone : hexNumber [a, b] = none := if_pos hempty
    rw [hnone]
    constructor
    · intro h
      exact absurd h Bool.false_ne_true
    · rintro (⟨_, h⟩ | ⟨h | h, _⟩)
      · exact absurd hempty h
      · exact absurd h hspace
      · exact absurd h hsign
  · have htwo : hexNumber [a, b] = hexDigits none [a, b] := if_neg hempty
    simp [htwo, hexDigits_cons, hspace, hsign, hempty]

theorem HexPair.startsNumber {e : Option (UInt8 × UInt8)} (h : HexPair e) : StartsNumber e := by
  obtain _ | ⟨a, b⟩ := e
  · exact h
  · have hb := hexValue_plain b h.2
    exact .inl ⟨h.1, fun hx => hx.2.elim hb.2.2.2.1 hb.2.2.2.2⟩

/-- What `url_decode` accepts. -/
theorem urlDecodeLoop_accepts (out s : Bytes) :
    (urlDecodeLoop out s).1 = true ↔ ∀ e ∈ escapesOf s, StartsNumber e := by
  fun_induction urlDecodeLoop out s with
  | case1 out => simp [escapesOf]
  | case2 out a b rest value hv ih =>
    have hab : StartsNumber (some (a, b)) := (extractHex_isSome a b).mp (by rw [hv]; rfl)
    rw [escapesOf_escape, ih]
    simp [hab]
  | case3 out a b rest hv =>
    have hab : ¬ StartsNumber (some (a, b)) := fun h => by
      have := (extractHex_isSome a b).mpr h
      rw [hv] at this
      exact Bool.false_ne_true this
    rw [escapesOf_escape]
    simp [hab]
  | case4 out rest hne =>
    rw [escapesOf_end hne]
    simp [StartsNumber]
  | case5 out rest hne ih =>
    rw [escapesOf_cons hne, ih]
  | case6 out c rest hp hplus ih =>
    rw [escapesOf_cons hp, ih]

/-- A well escaped string is an encoding. -/
theorem WellEscaped.encodes {s : Bytes} (h : WellEscaped s) : ∃ t, Encodes s t := by
  unfold WellEscaped at h
  fun_induction escapesOf s with
  | case1 => exact ⟨[], .nil⟩
  | case2 a b rest ih =>
    obtain ⟨hpair, hrest⟩ := List.forall_mem_cons.mp h
    obtain ⟨hi, hx⟩ := Option.isSome_iff_exists.mp hpair.1
    obtain ⟨lo, hy⟩ := Option.isSome_iff_exists.mp hpair.2
    obtain ⟨t, ht⟩ := ih hrest
    exact ⟨_, .escape hx hy ht⟩
  | case3 rest hne => exact (h none List.mem_cons_self).elim
  | case4 c rest hc ih =>
    obtain ⟨t, ht⟩ := ih h
    by_cases hplus : c = ch '+'
    · subst hplus
      exact ⟨_, .plus ht⟩
    · exact ⟨_, .literal hc hplus ht⟩

/-! ## When the extraction makes no difference -/

/-- The string is accepted exactly when it is well escaped, and then the result is what it
    encodes. -/
def DecodesExactly (s : Bytes) : Prop :=
  ∀ out, ((urlDecode s out).1 = true ↔ WellEscaped s) ∧
    (WellEscaped s → Encodes s (urlDecode s out).2)

/-- **`url_decode` accepts exactly the well escaped strings** where every `%` has two hex digits,
    or some `%` has nothing the extraction takes for a number. -/
theorem decodes_exactly_iff (s : Bytes) :
    DecodesExactly s ↔ WellEscaped s ∨ ∃ e ∈ escapesOf s, ¬ StartsNumber e := by
  constructor
  · intro h
    by_cases hall : ∀ e ∈ escapesOf s, StartsNumber e
    · exact .inl ((h []).1.mp ((urlDecodeLoop_accepts [] s).mpr hall))
    · right
      simpa using hall
  · intro h out
    obtain hwell | ⟨e, he, hnone⟩ := h
    · obtain ⟨t, ht⟩ := hwell.encodes
      have hdecode : urlDecode s out = (true, t) := ht.decodesTo
      rw [hdecode]
      exact ⟨⟨fun _ => hwell, fun _ => rfl⟩, fun _ => ht⟩
    · have hreject : (urlDecode s out).1 ≠ true := fun h =>
        hnone ((urlDecodeLoop_accepts [] s).mp h e he)
      have hbad : ¬ WellEscaped s := fun h => hnone (h e he).startsNumber
      exact ⟨⟨fun h => absurd h hreject, fun h => absurd h hbad⟩, fun h => absurd h hbad⟩

/-- `%1g` is accepted, as byte 1, though `g` is no hex digit. -/
theorem one_digit_accepted : ¬ ∀ s, DecodesExactly s := by
  intro h
  have haccept : (urlDecode [ch '/', ch '%', ch '1', ch 'g'] []).1 = true := by decide
  have hpair := ((h _) []).1.mp haccept (some (ch '1', ch 'g')) (by decide)
  exact absurd hpair (by decide)

end PaleoServer
