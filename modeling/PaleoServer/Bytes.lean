/-
  Byte strings and the C++ and Boost string helpers the server uses on them, in the "C"
  locale: `tolower`, `isspace`, `isdigit`, `boost::trim_copy`, `to_lower_copy`, `iequals`, and the
  tokenizer `boost::char_separator` makes with dropped delimiters and empty tokens dropped.

  A C++ `char` is a `UInt8`. Where the source widens a `char` to `int` the model does too
  (`charToInt`): bytes from 128 on are negative there, as with the signed `char` of the
  target platforms.
-/
import Mathlib

namespace PaleoServer

/-- A `std::string` or a range of a `char` buffer. -/
abbrev Bytes := List UInt8

/-- The byte of a character literal. -/
abbrev ch (c : Char) : UInt8 := c.toUInt8

/-- The bytes of a string literal. -/
def bytes (s : String) : Bytes := s.toList.map Char.toUInt8

/-- The conversion of a `char` to `int`. -/
def charToInt (b : UInt8) : Int32 := b.toInt8.toInt32

/-! ## "C" locale classes and case -/

/-- `isspace` of the "C" locale: blank, `\t`, `\n`, `\v`, `\f`, `\r`. -/
def isSpace (b : UInt8) : Bool := b == 32 || (9 ≤ b && b ≤ 13)

/-- `isdigit`. -/
def isDecimal (b : UInt8) : Bool := ch '0' ≤ b && b ≤ ch '9'

/-- The value of a decimal digit. -/
def decimalValue (b : UInt8) : Nat := b.toNat - 48

/-- The number a string of decimal digits denotes. -/
def ofDecimal (ds : Bytes) : Nat := ds.foldl (fun n d => n * 10 + decimalValue d) 0

/-- `boost::lexical_cast<std::string>` of an unsigned number, and what `operator<<` prints. -/
def decimal (n : Nat) : Bytes := (Nat.toDigits 10 n).map Char.toUInt8

/-- `tolower` of the "C" locale. -/
def toLower (b : UInt8) : UInt8 := if ch 'A' ≤ b && b ≤ ch 'Z' then b + 32 else b

/-- `boost::algorithm::to_lower_copy`. -/
def toLowerCopy (s : Bytes) : Bytes := s.map toLower

/-- `boost::algorithm::iequals`. -/
def iequals (s t : Bytes) : Bool := toLowerCopy s == toLowerCopy t

/-- `boost::trim_copy`: without leading and trailing white space. -/
def trimCopy (s : Bytes) : Bytes := ((s.dropWhile isSpace).reverse.dropWhile isSpace).reverse

/-- The tokens of `boost::char_separator<char>(delims)`: what stands between delimiters,
    empty tokens dropped. -/
def tokens (delims : Bytes) (s : Bytes) : List Bytes :=
  (s.splitOnP (delims.contains ·)).filter (· ≠ [])

/-! ## Case and white space -/

@[simp] theorem toLowerCopy_append (s t : Bytes) :
    toLowerCopy (s ++ t) = toLowerCopy s ++ toLowerCopy t := List.map_append

/-- `boost::trim_copy` leaves a string without white space alone. -/
theorem trimCopy_of_noSpace {s : Bytes} (h : ∀ b ∈ s, isSpace b = false) : trimCopy s = s := by
  have hdrop : ∀ t : Bytes, (∀ b ∈ t, isSpace b = false) → t.dropWhile isSpace = t := by
    intro t ht
    cases t with
    | nil => rfl
    | cons b t => rw [List.dropWhile_cons, ht b List.mem_cons_self]; rfl
  unfold trimCopy
  rw [hdrop s h, hdrop s.reverse fun b hb => h b (List.mem_reverse.mp hb), List.reverse_reverse]

/-! ## Joining texts, and taking a text apart at a byte -/

/-- What holds of the bytes of every text and of the separator. -/
theorem forall_mem_intercalate {P : UInt8 → Prop} {c : UInt8} (hc : P c) {ss : List Bytes}
    (h : ∀ s ∈ ss, ∀ b ∈ s, P b) : ∀ b ∈ [c].intercalate ss, P b := by
  induction ss with
  | nil => intro b hb; cases hb
  | cons s ss ih =>
    have hs := h s List.mem_cons_self
    have ih := ih fun t ht => h t (List.mem_cons_of_mem s ht)
    cases ss with
    | nil => simpa using hs
    | cons t ss =>
      rw [List.intercalate_cons_cons, List.forall_mem_append, List.forall_mem_append]
      exact ⟨⟨hs, List.forall_mem_singleton.mpr hc⟩, ih⟩

/-- A text with a byte in it, taken apart at the first. -/
theorem split_at {c : UInt8} {s : Bytes} (h : c ∈ s) :
    s = s.takeWhile (· ≠ c) ++ c :: (s.dropWhile (· ≠ c)).drop 1 := by
  induction s with
  | nil => cases h
  | cons b s ih =>
    by_cases hb : b = c
    · simp [hb]
    · have hs : c ∈ s := by
        rcases List.mem_cons.mp h with rfl | hs
        · exact absurd rfl hb
        · exact hs
      rw [List.takeWhile_cons_of_pos (by simpa using hb),
        List.dropWhile_cons_of_pos (by simpa using hb), List.cons_append, ← ih hs]

theorem ne_of_not_mem {c : UInt8} {x : Bytes} (hx : c ∉ x) :
    ∀ b ∈ x, decide (b ≠ c) = true := by
  intro b hb
  simpa using fun e : b = c => hx (e ▸ hb)

/-- The pieces of a text that was put together. -/
theorem split_append {c : UInt8} {x : Bytes} (hx : c ∉ x) (y : Bytes) :
    (x ++ c :: y).takeWhile (· ≠ c) = x ∧ ((x ++ c :: y).dropWhile (· ≠ c)).drop 1 = y := by
  have hall := ne_of_not_mem hx
  constructor
  · rw [List.takeWhile_append_of_pos hall, List.takeWhile_cons_of_neg (by simp),
      List.append_nil]
  · rw [List.dropWhile_append_of_pos hall, List.dropWhile_cons_of_neg (by simp)]
    rfl

/-- A text is put together in one way at the first place where a byte occurs. -/
theorem split_inj {c : UInt8} {x x' y y' : Bytes} (hx : c ∉ x) (hx' : c ∉ x')
    (h : x ++ c :: y = x' ++ c :: y') : x = x' ∧ y = y' := by
  have hsplit := split_append hx y
  rw [h] at hsplit
  obtain ⟨hfront, hbehind⟩ := split_append hx' y'
  exact ⟨hsplit.1.symm.trans hfront, hsplit.2.symm.trans hbehind⟩

theorem split_free {c : UInt8} {x : Bytes} (hx : c ∉ x) :
    x.takeWhile (· ≠ c) = x ∧ (x.dropWhile (· ≠ c)).drop 1 = [] := by
  have hall := ne_of_not_mem hx
  constructor
  · exact List.takeWhile_eq_self_iff.mpr hall
  · rw [List.dropWhile_eq_nil_iff.mpr hall]
    rfl

/-! ## Decimal numbers -/

theorem ofDecimal_snoc (ds : Bytes) (d : UInt8) :
    ofDecimal (ds ++ [d]) = ofDecimal ds * 10 + decimalValue d := by
  unfold ofDecimal
  rw [List.foldl_append]
  rfl

theorem isDigit_bounds {c : Char} (h : c.isDigit = true) : 48 ≤ c.toNat ∧ c.toNat ≤ 57 := by
  simp only [Char.isDigit, Bool.and_eq_true, decide_eq_true_eq] at h
  exact h

/-- A digit fits in a byte. -/
theorem toNat_toUInt8_of_isDigit {c : Char} (h : c.isDigit = true) :
    c.toUInt8.toNat = c.toNat := by
  obtain ⟨_, h2⟩ := isDigit_bounds h
  simp only [Char.toUInt8, UInt32.toNat_toUInt8]
  exact Nat.mod_eq_of_lt (show c.toNat < 256 by omega)

theorem isDecimal_toUInt8 {c : Char} (h : c.isDigit = true) : isDecimal c.toUInt8 = true := by
  obtain ⟨h1', h2'⟩ := isDigit_bounds h
  have hc := toNat_toUInt8_of_isDigit h
  have hlo : ch '0' ≤ c.toUInt8 := by
    rw [UInt8.le_iff_toNat_le, hc]
    exact h1'
  have hhi : c.toUInt8 ≤ ch '9' := by
    rw [UInt8.le_iff_toNat_le, hc]
    exact h2'
  simp [isDecimal, hlo, hhi]

theorem isDecimal_decimal (n : Nat) : ∀ b ∈ decimal n, isDecimal b = true := by
  intro b hb
  obtain ⟨c, hc, rfl⟩ := List.mem_map.mp hb
  exact isDecimal_toUInt8 (Nat.isDigit_of_mem_toDigits (by decide) (by decide) hc)

theorem decimal_ne_nil (n : Nat) : decimal n ≠ [] := by
  unfold decimal
  rw [Ne, List.map_eq_nil_iff]
  exact Nat.toDigits_ne_nil

/-- Reading what was printed gives the number back. -/
theorem ofDecimal_decimal (n : Nat) : ofDecimal (decimal n) = n := by
  have key : ∀ (l : List Char) (m : Nat), (∀ c ∈ l, c.isDigit = true) →
      (l.map Char.toUInt8).foldl (fun n d => n * 10 + decimalValue d) m =
        Nat.ofDigitChars 10 l m := by
    intro l
    induction l with
    | nil => intro m _; rfl
    | cons c l ih =>
      intro m h
      have hc := toNat_toUInt8_of_isDigit (h c List.mem_cons_self)
      rw [Nat.ofDigitChars_cons, List.map_cons, List.foldl_cons,
        ih _ fun c' hc' => h c' (List.mem_cons_of_mem c hc')]
      congr 1
      rw [decimalValue, hc, Nat.mul_comm]
      rfl
  unfold ofDecimal decimal
  rw [key _ _ fun c hc => Nat.isDigit_of_mem_toDigits (by decide) (by decide) hc,
    Nat.ofDigitChars_ten_toDigits]

end PaleoServer
