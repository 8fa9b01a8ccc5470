/-
  A strict reader of messages with a start line, header lines and a body of a stated length.

  The start line ends at the first CRLF. Then lines follow, each split at its first ": " into
  name and value, up to the first empty line. Exactly one header is named `Content-Length`,
  with a decimal value, and the body is that many bytes; what follows it is returned unread.

  Proved: `read_write`, the reader inverts the writer on messages whose parts keep to
  their alphabets and whose length header agrees with the body. The body is arbitrary.
-/
import Mathlib

namespace MessageReader

/-! ## Splitting at a separator -/

section Split

variable {α : Type} [DecidableEq α]

/-- The parts before and after the first occurrence of `sep`. -/
def splitFirst (sep : List α) : List α → Option (List α × List α)
  | [] => if sep.isEmpty then some ([], []) else none
  | a :: s =>
    if sep.isPrefixOf (a :: s) then some ([], (a :: s).drop sep.length)
    else (splitFirst sep s).map fun r => (a :: r.1, r.2)

/-- A separator whose first symbol does not occur before it is found. -/
theorem splitFirst_append {c : α} {pre : List α} (h : c ∉ pre) (sep s : List α) :
    splitFirst (c :: sep) (pre ++ (c :: sep ++ s)) = some (pre, s) := by
  induction pre with
  | nil =>
    have hp : (c :: sep).isPrefixOf (c :: (sep ++ s)) = true := by
      rw [List.isPrefixOf_iff_prefix]
      exact ⟨s, rfl⟩
    rw [List.nil_append, List.cons_append, splitFirst, if_pos hp, List.length_cons,
      List.drop_succ_cons, List.drop_left]
  | cons a pre ih =>
    obtain ⟨ha, hpre⟩ := not_or.mp (List.mem_cons.not.mp h)
    have hp : ¬ (c :: sep).isPrefixOf (a :: (pre ++ (c :: sep ++ s))) = true := by
      simp [List.isPrefixOf, ha]
    rw [List.cons_append, splitFirst, if_neg hp, ih hpre]
    rfl

end Split

/-! ## The reader -/

/-- A header: name and value. -/
abbrev Field := List UInt8 × List UInt8

def crlf : List UInt8 := [13, 10]

def colonSpace : List UInt8 := [58, 32]

/-- `Content-Length`. -/
def lengthName : List UInt8 := [67, 111, 110, 116, 101, 110, 116, 45, 76, 101, 110, 103, 116, 104]

/-- A decimal number, nothing else. -/
def readDecimal (ds : List UInt8) : Option Nat :=
  if ds ≠ [] ∧ ∀ d ∈ ds, 48 ≤ d ∧ d ≤ 57 then
    some (ds.foldl (fun n d => n * 10 + (d.toNat - 48)) 0)
  else none

/-- Header lines up to the first empty line, at most `n` of them. -/
def readFields : Nat → List UInt8 → Option (List Field × List UInt8)
  | 0, _ => none
  | n + 1, s =>
    match splitFirst crlf s with
    | none => none
    | some ([], s') => some ([], s')
    | some (line, s') =>
      match splitFirst colonSpace line with
      | none => none
      | some field => (readFields n s').map fun r => (field :: r.1, r.2)

/-- The value of the one length header. -/
def bodyLength (fields : List Field) : Option Nat :=
  match fields.filter fun f => f.1 = lengthName with
  | [f] => readDecimal f.2
  | _ => none

/-- Start line, headers, body and what follows the message. There are fewer header lines than
    bytes. -/
def read (s : List UInt8) : Option (List UInt8 × List Field × List UInt8 × List UInt8) :=
  match splitFirst crlf s with
  | none => none
  | some (start, s') =>
    match readFields (s'.length + 1) s' with
    | none => none
    | some (fields, s'') =>
      match bodyLength fields with
      | none => none
      | some n => if n ≤ s''.length then some (start, fields, s''.take n, s''.drop n) else none

/-! ## The writer -/

def writeField (f : Field) : List UInt8 := f.1 ++ colonSpace ++ f.2 ++ crlf

def write (start : List UInt8) (fields : List Field) (body : List UInt8) : List UInt8 :=
  start ++ crlf ++ fields.flatMap writeField ++ crlf ++ body

/-- A header that stays on its line and whose name ends at the separator. -/
structure Safe (f : Field) : Prop where
  name_cr : (13 : UInt8) ∉ f.1
  name_colon : (58 : UInt8) ∉ f.1
  value_cr : (13 : UInt8) ∉ f.2

theorem Safe.line_cr {f : Field} (h : Safe f) : (13 : UInt8) ∉ f.1 ++ colonSpace ++ f.2 := by
  simp only [colonSpace, List.mem_append, List.mem_cons, List.not_mem_nil, or_false]
  rintro ((hn | hc | hc) | hv)
  · exact h.name_cr hn
  · revert hc
    decide
  · revert hc
    decide
  · exact h.value_cr hv

/-- Header lines are read back one by one, and the empty line ends them. -/
theorem readFields_write (fields : List Field) (hsafe : ∀ f ∈ fields, Safe f) (s : List UInt8)
    (n : Nat) (hn : fields.length < n) :
    readFields n (fields.flatMap writeField ++ crlf ++ s) = some (fields, s) := by
  induction fields generalizing n with
  | nil =>
    obtain ⟨n, rfl⟩ := Nat.exists_eq_add_of_lt hn
    have hsplit : splitFirst crlf (crlf ++ s) = some ([], s) :=
      splitFirst_append (List.not_mem_nil : (13 : UInt8) ∉ []) [10] s
    simp only [List.flatMap_nil, List.nil_append, readFields, hsplit]
  | cons f fields ih =>
    obtain ⟨m, rfl⟩ : ∃ m, n = m + 1 := ⟨n - 1, by omega⟩
    have hf := hsafe f List.mem_cons_self
    have hline : splitFirst crlf ((f :: fields).flatMap writeField ++ crlf ++ s) =
        some (f.1 ++ colonSpace ++ f.2, fields.flatMap writeField ++ crlf ++ s) := by
      have := splitFirst_append hf.line_cr [10] (fields.flatMap writeField ++ crlf ++ s)
      rw [← this]
      simp [writeField, crlf, List.append_assoc]
    have hfield : splitFirst colonSpace (f.1 ++ colonSpace ++ f.2) = some f := by
      have := splitFirst_append hf.name_colon [32] f.2
      rw [← List.append_assoc] at this
      exact this
    have hne : f.1 ++ colonSpace ++ f.2 ≠ [] := by simp [colonSpace]
    have hrest := ih (fun g hg => hsafe g (List.mem_cons_of_mem f hg)) m
      (by rw [List.length_cons] at hn; omega)
    obtain ⟨b, line, hcons⟩ := List.exists_cons_of_ne_nil hne
    rw [hcons] at hline hfield
    simp only [readFields, hline, hfield, hrest, Option.map_some]

/-- The writer writes more bytes than headers. -/
theorem length_flatMap_writeField (fields : List Field) :
    fields.length ≤ (fields.flatMap writeField).length := by
  induction fields with
  | nil => exact Nat.le_refl _
  | cons f fields ih =>
    rw [List.flatMap_cons, List.length_append, List.length_cons]
    have : 0 < (writeField f).length := by
      simp only [writeField, crlf, List.length_append, List.length_cons]
      omega
    omega

/-- **The reader inverts the writer**: nothing is lost, added or left over, whatever the body
    holds. -/
theorem read_write {start : List UInt8} {fields : List Field} {body : List UInt8}
    (hstart : (13 : UInt8) ∉ start) (hsafe : ∀ f ∈ fields, Safe f)
    (hlen : bodyLength fields = some body.length) (s : List UInt8) :
    read (write start fields body ++ s) = some (start, fields, body, s) := by
  have hline : splitFirst crlf (write start fields body ++ s) =
      some (start, fields.flatMap writeField ++ crlf ++ (body ++ s)) := by
    rw [← splitFirst_append hstart [10] (fields.flatMap writeField ++ crlf ++ (body ++ s))]
    simp [write, crlf, List.append_assoc]
  have hcount : fields.length <
      (fields.flatMap writeField ++ crlf ++ (body ++ s)).length + 1 := by
    have := length_flatMap_writeField fields
    simp only [List.length_append]
    omega
  have hfit : body.length ≤ (body ++ s).length := by
    rw [List.length_append]
    omega
  simp only [read, hline, readFields_write fields hsafe (body ++ s) _ hcount, hlen, if_pos hfit,
    List.take_left, List.drop_left]

end MessageReader
