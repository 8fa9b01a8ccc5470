/-
  `request_handler::url_decode` (`src/request_handler.cpp`), with the extraction
  `std::istringstream >> std::hex >> int` it uses on the two characters after a `%`.

  The extraction follows the standard library in the "C" locale: leading white space is
  skipped, a sign is accepted, then an optional `0x` or `0X`, then the longest run of hex
  digits; without a digit it fails. What is left of the two characters is not looked at.
-/
import PaleoServer.Bytes

namespace PaleoServer

/-- The value of a hex digit of either case. -/
def hexValue (b : UInt8) : Option Nat :=
  if ch '0' ≤ b && b ≤ ch '9' then some (b.toNat - 48)
  else if ch 'a' ≤ b && b ≤ ch 'f' then some (b.toNat - 87)
  else if ch 'A' ≤ b && b ≤ ch 'F' then some (b.toNat - 55)
  else none

/-- The longest run of hex digits as a number; `none` when there is no digit. -/
def hexDigits : Option Nat → Bytes → Option Nat
  | acc, [] => acc
  | acc, b :: bs =>
    match hexValue b with
    | none => acc
    | some d => hexDigits (some (acc.getD 0 * 16 + d)) bs

/-- The digits after an optional `0x`. -/
def hexNumber : Bytes → Option Nat
  | z :: x :: bs =>
    if z = ch '0' ∧ (x = ch 'x' ∨ x = ch 'X') then hexDigits none bs
    else hexDigits none (z :: x :: bs)
  | bs => hexDigits none bs

/-- `is >> std::hex >> value` for an `int`. -/
def extractHex (s : Bytes) : Option Int :=
  match s.dropWhile isSpace with
  | [] => none
  | b :: bs =>
    if b = ch '-' then (hexNumber bs).map fun n => -(n : Int)
    else if b = ch '+' then (hexNumber bs).map fun n => (n : Int)
    else (hexNumber (b :: bs)).map fun n => (n : Int)

/-- `static_cast<char>(value)`. -/
def charOfInt (value : Int) : UInt8 := UInt8.ofInt value

/-- The loop of `url_decode` from one value of `i` on: `out` so far, the rest of `in`. -/
def urlDecodeLoop (out : Bytes) : Bytes → Bool × Bytes
  | [] => (true, out)
  | c :: rest =>
    if c = ch '%' then
      match rest with
      | a :: b :: rest' =>
        match extractHex [a, b] with
        | some value => urlDecodeLoop (out ++ [charOfInt value]) rest'
        | none => (false, out)
      | _ => (false, out)
    else if c = ch '+' then
      urlDecodeLoop (out ++ [ch ' ']) rest
    else
      urlDecodeLoop (out ++ [c]) rest

/-- `request_handler::url_decode`: the result and `out` afterwards, whatever it held. -/
def urlDecode (input : Bytes) (_out : Bytes) : Bool × Bytes := urlDecodeLoop [] input

/-! ## Two hex digits -/

theorem hexValue_plain : ∀ b : UInt8, (hexValue b).isSome = true →
    isSpace b = false ∧ b ≠ ch '-' ∧ b ≠ ch '+' ∧ b ≠ ch 'x' ∧ b ≠ ch 'X' := by
  decide +kernel

/-- Two hex digits are read to the last. -/
theorem extractHex_digits {x y : UInt8} {hi lo : Nat} (hx : hexValue x = some hi)
    (hy : hexValue y = some lo) : extractHex [x, y] = some ((hi * 16 + lo : Nat) : Int) := by
  obtain ⟨hspace, hminus, hplus, _⟩ := hexValue_plain x (by rw [hx]; rfl)
  obtain ⟨_, _, _, hyx, hyX⟩ := hexValue_plain y (by rw [hy]; rfl)
  have hdigits : hexNumber [x, y] = some (hi * 16 + lo) := by
    rw [hexNumber, if_neg (by rintro ⟨_, h | h⟩ <;> contradiction)]
    simp [hexDigits, hx, hy]
  have hdrop : [x, y].dropWhile isSpace = [x, y] := by
    rw [List.dropWhile_cons_of_neg (by simp [hspace])]
  rw [extractHex, hdrop]
  simp only [if_neg hminus, if_neg hplus, hdigits]
  rfl

theorem charOfInt_ofNat (n : Nat) : charOfInt (n : Int) = UInt8.ofNat n := by
  unfold charOfInt UInt8.ofInt
  apply UInt8.toNat_inj.mp
  rw [UInt8.toNat_ofNat', UInt8.toNat_ofNat']
  omega

/-! ## Decoding piece by piece -/

/-- `s` is accepted by `url_decode`, with result `t`. -/
def DecodesTo (s t : Bytes) : Prop := urlDecode s [] = (true, t)

theorem urlDecodeLoop_escape (out : Bytes) (a b : UInt8) (rest : Bytes) :
    urlDecodeLoop out (ch '%' :: a :: b :: rest) =
      match extractHex [a, b] with
      | some value => urlDecodeLoop (out ++ [charOfInt value]) rest
      | none => (false, out) := by
  rw [urlDecodeLoop.eq_def]
  exact if_pos rfl

theorem urlDecodeLoop_cons {c : UInt8} (hc : c ≠ ch '%') (out rest : Bytes) :
    urlDecodeLoop out (c :: rest) =
      urlDecodeLoop (out ++ [if c = ch '+' then ch ' ' else c]) rest := by
  rw [urlDecodeLoop.eq_def]
  simp only [if_neg hc]
  split <;> rfl

/-- A string that is accepted on its own is decoded before what follows it. -/
theorem urlDecodeLoop_append {out t s : Bytes} (h : urlDecodeLoop out s = (true, t)) (u : Bytes) :
    urlDecodeLoop out (s ++ u) = urlDecodeLoop t u := by
  fun_induction urlDecodeLoop out s with
  | case1 out =>
    cases h
    rfl
  | case2 out a b rest value hv ih =>
    rw [List.cons_append, List.cons_append, List.cons_append, urlDecodeLoop_escape, hv]
    exact ih h
  | case3 out a b rest hv => cases h
  | case4 out rest hne => cases h
  | case5 out rest hne ih =>
    rw [List.cons_append, urlDecodeLoop_cons hne, if_pos rfl]
    exact ih h
  | case6 out c rest hp hplus ih =>
    rw [List.cons_append, urlDecodeLoop_cons hp, if_neg hplus]
    exact ih h

/-- What is there already stays in front. -/
theorem urlDecodeLoop_out (pre out s : Bytes) :
    urlDecodeLoop (pre ++ out) s = ((urlDecodeLoop out s).1, pre ++ (urlDecodeLoop out s).2) := by
  fun_induction urlDecodeLoop out s with
  | case1 out => rfl
  | case2 out a b rest value hv ih =>
    rw [urlDecodeLoop_escape, hv]
    simpa using ih
  | case3 out a b rest hv => rw [urlDecodeLoop_escape, hv]
  | case4 out rest hne =>
    rw [urlDecodeLoop.eq_def]
    simp only [if_pos]
  | case5 out rest hne ih =>
    rw [urlDecodeLoop_cons hne, if_pos rfl]
    simpa using ih
  | case6 out c rest hp hplus ih =>
    rw [urlDecodeLoop_cons hp, if_neg hplus]
    simpa using ih

theorem DecodesTo.nil : DecodesTo [] [] := rfl

/-- A byte other than `%` and `+` stands for itself. -/
theorem DecodesTo.byte {c : UInt8} (hc : c ≠ ch '%') (hplus : c ≠ ch '+') :
    DecodesTo [c] [c] := by
  unfold DecodesTo urlDecode
  rw [urlDecodeLoop_cons hc, if_neg hplus]
  rfl

theorem DecodesTo.escape {x y : UInt8} {hi lo : Nat} (hx : hexValue x = some hi)
    (hy : hexValue y = some lo) : DecodesTo [ch '%', x, y] [UInt8.ofNat (hi * 16 + lo)] := by
  unfold DecodesTo urlDecode
  rw [urlDecodeLoop_escape, extractHex_digits hx hy]
  simp only [charOfInt_ofNat]
  rfl

theorem decodesTo_plus : DecodesTo [ch '+'] [ch ' '] := rfl

theorem decodesTo_equals : DecodesTo [ch '='] [ch '='] := .byte (by decide) (by decide)

theorem decodesTo_ampersand : DecodesTo [ch '&'] [ch '&'] := .byte (by decide) (by decide)

theorem decodesTo_question : DecodesTo [ch '?'] [ch '?'] := .byte (by decide) (by decide)

theorem DecodesTo.append {s t s' t' : Bytes} (h : DecodesTo s t) (h' : DecodesTo s' t') :
    DecodesTo (s ++ s') (t ++ t') := by
  unfold DecodesTo urlDecode at h h' ⊢
  have hout := urlDecodeLoop_out t [] s'
  rw [List.append_nil, h'] at hout
  rw [urlDecodeLoop_append h, hout]

/-- Pieces joined with a byte that stands for itself are decoded one by one. -/
theorem DecodesTo.intercalate {α : Type} {c : UInt8} (hc : DecodesTo [c] [c])
    {raw plain : α → Bytes} {as : List α} (h : ∀ a ∈ as, DecodesTo (raw a) (plain a)) :
    DecodesTo ([c].intercalate (as.map raw)) ([c].intercalate (as.map plain)) := by
  induction as with
  | nil => exact .nil
  | cons a as ih =>
    have ha := h a List.mem_cons_self
    have ih := ih fun b hb => h b (List.mem_cons_of_mem _ hb)
    cases as with
    | nil => simpa using ha
    | cons b as =>
      rw [List.map_cons, List.map_cons, List.map_cons, List.map_cons,
        List.intercalate_cons_cons, List.intercalate_cons_cons]
      exact (ha.append hc).append ih

end PaleoServer
