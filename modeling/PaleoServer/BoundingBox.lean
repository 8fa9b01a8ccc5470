/-
  The bounding box reader of `src/map_utils.hpp`: what it does to its array and to the box,
  and where its numbers come from.

  `parseBboxLog` is `parse_bbox_from_string` with a log of its accesses to `d` and of its
  call of `box.init`; without the log it is the reader of `UriParser` (`parseBboxLog_snd`).
  The loop is described by `bboxLoopLog_spec`, by induction on the tokens: it has written
  the numbers converted so far to the first entries.

  Proved: `parse_bbox_exact` on tokens, and `parse_bbox_fields` on the fields between commas.
-/
import PaleoServer.Lib.MaximalRuns
import PaleoServer.UriParser

namespace PaleoServer

open MaximalRuns

variable {Double Envelope : Type}

/-! ## `parse_bbox_from_string` with its accesses -/

/-- An access to the array `d`, or the call of `box.init`. -/
inductive BboxEvent (Double : Type) where
  | write (i : Nat) (x : Double)
  | read (i : Nat)
  | init (d0 d1 d2 d3 : Double)
  deriving DecidableEq, Repr

def BboxEvent.isInit : BboxEvent Double → Bool
  | .init _ _ _ _ => true
  | _ => false

/-- The loop of `parse_bbox_from_string`, with its writes. -/
def bboxLoopLog (lexicalCast : Bytes → Option Double) (i : Nat) (d : List (Option Double)) :
    List Bytes → List (BboxEvent Double) × Except BboxFault (Bool × List (Option Double))
  | [] => ([], .ok (false, d))
  | beg :: rest =>
    match lexicalCast (trimCopy beg) with
    | none => ([], .ok (false, d))
    | some x =>
      if i < d.length then
        if i = 3 then ([.write i x], .ok (true, d.set i (some x)))
        else
          let r := bboxLoopLog lexicalCast (i + 1) (d.set i (some x)) rest
          (.write i x :: r.1, r.2)
      else ([.write i x], .error .writeOutOfRange)

/-- The reads of `box.init(d[0],d[1],d[2],d[3])`. -/
def bboxReads : List (BboxEvent Double) := [.read 0, .read 1, .read 2, .read 3]

/-- `map_utils::parse_bbox_from_string` with its accesses. -/
def parseBboxLog (lexicalCast : Bytes → Option Double)
    (init : Double → Double → Double → Double → Envelope) (box : Envelope) (bboxString : Bytes) :
    List (BboxEvent Double) × Except BboxFault (Bool × Envelope) :=
  let loop := bboxLoopLog lexicalCast 0 [none, none, none, none] (tokens (bytes ", ") bboxString)
  match loop.2 with
  | .error e => (loop.1, .error e)
  | .ok (false, _) => (loop.1, .ok (false, box))
  | .ok (true, [some d0, some d1, some d2, some d3]) =>
    (loop.1 ++ bboxReads ++ [.init d0 d1 d2 d3], .ok (true, init d0 d1 d2 d3))
  | .ok (true, _) => (loop.1 ++ bboxReads, .error .uninitialisedRead)

theorem bboxLoopLog_snd (lexicalCast : Bytes → Option Double) (i : Nat)
    (d : List (Option Double)) (ts : List Bytes) :
    (bboxLoopLog lexicalCast i d ts).2 = bboxLoop lexicalCast i d ts := by
  induction ts generalizing i d with
  | nil => rfl
  | cons t ts ih =>
    rw [bboxLoopLog, bboxLoop]
    cases lexicalCast (trimCopy t) with
    | none => rfl
    | some x =>
      simp only
      by_cases hi : i < d.length
      · rw [if_pos hi, if_pos hi]
        by_cases hlast : i = 3
        · rw [if_pos hlast, if_pos hlast]
        · rw [if_neg hlast, if_neg hlast]
          exact ih (i + 1) (d.set i (some x))
      · rw [if_neg hi, if_neg hi]

/-- The log is all that was added. -/
theorem parseBboxLog_snd (lexicalCast : Bytes → Option Double)
    (init : Double → Double → Double → Double → Envelope) (box : Envelope) (s : Bytes) :
    (parseBboxLog lexicalCast init box s).2 = parseBboxFromString lexicalCast init box s := by
  unfold parseBboxLog parseBboxFromString
  simp only [bboxLoopLog_snd]
  split <;> simp_all

/-! ## The loop -/

/-- The numbers of the first tokens, at most `k` of them and up to the first that does not
    convert. -/
def converted (lexicalCast : Bytes → Option Double) : Nat → List Bytes → List Double
  | 0, _ => []
  | _ + 1, [] => []
  | k + 1, t :: ts =>
    match lexicalCast (trimCopy t) with
    | none => []
    | some x => x :: converted lexicalCast k ts

/-- Writes to successive entries from `i` on. -/
def writesFrom (i : Nat) : List Double → List (BboxEvent Double)
  | [] => []
  | x :: xs => .write i x :: writesFrom (i + 1) xs

theorem converted_length_le (lexicalCast : Bytes → Option Double) (k : Nat) (ts : List Bytes) :
    (converted lexicalCast k ts).length ≤ k := by
  induction ts generalizing k with
  | nil => cases k <;> simp [converted]
  | cons t ts ih =>
    cases k with
    | zero => simp [converted]
    | succ k =>
      unfold converted
      split
      · simp
      · have := ih k
        rw [List.length_cons]
        omega

/-- As many numbers as asked for are the conversions of as many tokens. -/
theorem map_take_of_converted {lexicalCast : Bytes → Option Double} {k : Nat} {ts : List Bytes}
    (h : (converted lexicalCast k ts).length = k) :
    (ts.take k).map (fun t => lexicalCast (trimCopy t)) =
      (converted lexicalCast k ts).map some := by
  induction ts generalizing k with
  | nil => cases k <;> simp [converted] at h ⊢
  | cons t ts ih =>
    cases k with
    | zero => simp [converted]
    | succ k =>
      unfold converted at h ⊢
      cases hc : lexicalCast (trimCopy t) with
      | none =>
        rw [hc] at h
        simp at h
      | some x =>
        rw [hc] at h
        simp only [List.length_cons, Nat.add_right_cancel_iff] at h
        rw [List.take_succ_cons, List.map_cons, hc, ih h, List.map_cons]

theorem converted_length_iff (lexicalCast : Bytes → Option Double) (k : Nat) (ts : List Bytes) :
    (converted lexicalCast k ts).length = k ↔
      k ≤ ts.length ∧ ∀ t ∈ ts.take k, (lexicalCast (trimCopy t)).isSome := by
  induction ts generalizing k with
  | nil => cases k <;> simp [converted]
  | cons t ts ih =>
    cases k with
    | zero => simp [converted]
    | succ k =>
      unfold converted
      cases hc : lexicalCast (trimCopy t) with
      | none => simp [hc]
      | some x => simp [hc, ih k]

/-- The array after the numbers `xs` were written to its first entries. -/
def filled (xs : List Double) : List (Option Double) :=
  xs.map some ++ List.replicate (4 - xs.length) none

theorem filled_length {xs : List Double} (h : xs.length ≤ 4) : (filled xs).length = 4 := by
  simp only [filled, List.length_append, List.length_map, List.length_replicate]
  omega

/-- One more write. -/
theorem filled_set {xs : List Double} (h : xs.length < 4) (x : Double) :
    (filled xs).set xs.length (some x) = filled (xs ++ [x]) := by
  obtain ⟨k, hk⟩ : ∃ k, 4 - xs.length = k + 1 := ⟨3 - xs.length, by omega⟩
  have hk' : 4 - (xs ++ [x]).length = k := by
    simp only [List.length_append, List.length_singleton]
    omega
  unfold filled
  rw [List.set_append_right _ _ (by simp), hk, hk', List.length_map, Nat.sub_self,
    List.replicate_succ, List.set_cons_zero, List.map_append, List.append_assoc]
  rfl

/-- The loop, started with the numbers `xs` in its array: it writes the conversions of the
    tokens to the entries behind them, and succeeds with the fourth. -/
theorem bboxLoopLog_spec (lexicalCast : Bytes → Option Double) (xs : List Double)
    (hxs : xs.length < 4) (ts : List Bytes) :
    let ys := converted lexicalCast (4 - xs.length) ts
    bboxLoopLog lexicalCast xs.length (filled xs) ts =
      (writesFrom xs.length ys, .ok (decide (xs.length + ys.length = 4), filled (xs ++ ys))) := by
  induction ts generalizing xs with
  | nil =>
    obtain ⟨k, hk⟩ : ∃ k, 4 - xs.length = k + 1 := ⟨3 - xs.length, by omega⟩
    simp only [hk, converted, bboxLoopLog, writesFrom, List.length_nil, List.append_nil]
    rw [decide_eq_false (by omega)]
  | cons t ts ih =>
    obtain ⟨k, hk⟩ : ∃ k, 4 - xs.length = k + 1 := ⟨3 - xs.length, by omega⟩
    simp only [hk, converted, bboxLoopLog]
    cases lexicalCast (trimCopy t) with
    | none =>
      simp only [writesFrom, List.length_nil, List.append_nil]
      rw [decide_eq_false (by omega)]
    | some x =>
      simp only [filled_length hxs.le, if_pos hxs, filled_set hxs, writesFrom, List.length_cons]
      by_cases hlast : xs.length = 3
      · have hzero : k = 0 := by omega
        subst hzero
        rw [if_pos hlast]
        simp [converted, writesFrom, hlast]
      · rw [if_neg hlast]
        have hstep : (xs ++ [x]).length = xs.length + 1 := by simp
        have hrest : 4 - (xs.length + 1) = k := by omega
        have hnext := ih (xs ++ [x]) (by omega)
        simp only [hstep, hrest] at hnext
        rw [hnext]
        simp only [List.append_assoc, List.singleton_append, Nat.add_assoc, Nat.add_comm 1]

theorem mem_writesFrom {i : Nat} {xs : List Double} {e : BboxEvent Double}
    (h : e ∈ writesFrom i xs) :
    ∃ j x, e = .write j x ∧ i ≤ j ∧ j < i + xs.length := by
  induction xs generalizing i with
  | nil => cases h
  | cons x xs ih =>
    rcases List.mem_cons.mp h with rfl | h
    · exact ⟨i, x, rfl, Nat.le_refl i, by rw [List.length_cons]; omega⟩
    · obtain ⟨j, y, rfl, hlo, hhi⟩ := ih h
      exact ⟨j, y, rfl, by omega, by rw [List.length_cons]; omega⟩

/-- An entry below the number of writes was written. -/
theorem exists_mem_writesFrom {i j : Nat} {xs : List Double} (hlo : i ≤ j)
    (hhi : j < i + xs.length) : ∃ x, .write j x ∈ writesFrom i xs := by
  induction xs generalizing i with
  | nil =>
    rw [List.length_nil] at hhi
    omega
  | cons x xs ih =>
    by_cases hij : i = j
    · exact ⟨x, by rw [hij]; exact List.mem_cons_self⟩
    · rw [List.length_cons] at hhi
      obtain ⟨y, hy⟩ := ih (i := i + 1) (by omega) (by omega)
      exact ⟨y, List.mem_cons_of_mem _ hy⟩

/-! ## The whole function -/

section

variable (lexicalCast : Bytes → Option Double)
  (init : Double → Double → Double → Double → Envelope) (box : Envelope)

theorem parseBboxLog_four {s : Bytes} {d0 d1 d2 d3 : Double}
    (h : converted lexicalCast 4 (tokens (bytes ", ") s) = [d0, d1, d2, d3]) :
    parseBboxLog lexicalCast init box s =
      (writesFrom 0 [d0, d1, d2, d3] ++ bboxReads ++ [.init d0 d1 d2 d3],
        .ok (true, init d0 d1 d2 d3)) := by
  have hloop := bboxLoopLog_spec lexicalCast [] (by simp) (tokens (bytes ", ") s)
  simp only [List.length_nil, Nat.sub_zero, h] at hloop
  unfold parseBboxLog
  rw [show [none, none, none, none] = filled ([] : List Double) from rfl, hloop]
  rfl

theorem parseBboxLog_fewer {s : Bytes}
    (h : (converted lexicalCast 4 (tokens (bytes ", ") s)).length ≠ 4) :
    parseBboxLog lexicalCast init box s =
      (writesFrom 0 (converted lexicalCast 4 (tokens (bytes ", ") s)), .ok (false, box)) := by
  have hloop := bboxLoopLog_spec lexicalCast [] (by simp) (tokens (bytes ", ") s)
  simp only [List.length_nil, Nat.sub_zero, Nat.zero_add, decide_eq_false h] at hloop
  unfold parseBboxLog
  rw [show [none, none, none, none] = filled ([] : List Double) from rfl, hloop]

end

/-- The tokens of the bounding box reader are the maximal runs of bytes other than `,` and
    blank. -/
theorem areRuns_tokens (s : Bytes) :
    AreRuns (fun b => b == ch ',' || b == ch ' ') s (tokens (bytes ", ") s) := by
  have hdelim : (fun b => (bytes ", ").contains b) = fun b => b == ch ',' || b == ch ' ' := by
    funext b
    rw [Bool.eq_iff_iff]
    simp [bytes]
  unfold tokens
  rw [hdelim]
  exact areRuns_splitOnP _ s

theorem filter_isInit_writesFrom (i : Nat) (xs : List Double) :
    (writesFrom i xs).filter BboxEvent.isInit = [] := by
  rw [List.filter_eq_nil_iff]
  intro e he
  obtain ⟨j, x, rfl, _, _⟩ := mem_writesFrom he
  exact Bool.false_ne_true

/-- In the log of a success `init` is called once. -/
theorem filter_isInit_success (i : Nat) (xs : List Double) (d0 d1 d2 d3 : Double) :
    (writesFrom i xs ++ bboxReads ++ [BboxEvent.init d0 d1 d2 d3]).filter BboxEvent.isInit =
      [.init d0 d1 d2 d3] := by
  rw [List.filter_append, List.filter_append, filter_isInit_writesFrom]
  rfl

theorem read_not_mem_writesFrom (i j : Nat) (xs : List Double) : .read j ∉ writesFrom i xs := by
  intro h
  obtain ⟨_, _, e, _, _⟩ := mem_writesFrom h
  cases e

/-- What stands before a read in the log of a success are all the writes. -/
theorem prefix_of_read {ws : List (BboxEvent Double)} (hws : ∀ i, .read i ∉ ws)
    {d0 d1 d2 d3 : Double} {pre post : List (BboxEvent Double)} {i : Nat}
    (h : ws ++ bboxReads ++ [.init d0 d1 d2 d3] = pre ++ .read i :: post) :
    (∀ e ∈ ws, e ∈ pre) ∧ i < 4 := by
  rw [List.append_assoc] at h
  rcases List.append_eq_append_iff.mp h with ⟨as, rfl, htail⟩ | ⟨as, rfl, htail⟩
  · refine ⟨fun e he => List.mem_append_left _ he, ?_⟩
    have hmem : BboxEvent.read i ∈ bboxReads ++ [.init d0 d1 d2 d3] := by
      rw [htail]
      simp
    have : i = 0 ∨ i = 1 ∨ i = 2 ∨ i = 3 := by simpa [bboxReads] using hmem
    omega
  · cases as with
    | nil =>
      rw [List.append_nil]
      have hhead : BboxEvent.read i = .read 0 := (List.cons.inj htail).1
      cases hhead
      exact ⟨fun e he => he, by decide⟩
    | cons e as =>
      obtain ⟨rfl, _⟩ := List.cons.inj htail
      exact absurd (by simp) (hws i)

/-- **The bounding box is read exactly, in bounds and atomically.** Let the tokens be the
    maximal runs of bytes other than `,` and blank. The reader returns `true` iff there are at
    least four of them and the first four, trimmed, convert; then it calls `init` once, with
    these four numbers. Otherwise it does not call it and the box is as before. Every write
    to `d` has an index below 4, and what is read from `d` was written before. -/
theorem parse_bbox_exact (lexicalCast : Bytes → Option Double)
    (init : Double → Double → Double → Double → Envelope) (box : Envelope) (s : Bytes) :
    AreRuns (fun b => b == ch ',' || b == ch ' ') s (tokens (bytes ", ") s) ∧
    ∃ log success box',
      parseBboxLog lexicalCast init box s = (log, .ok (success, box')) ∧
      parseBboxFromString lexicalCast init box s = .ok (success, box') ∧
      (success = true ↔ 4 ≤ (tokens (bytes ", ") s).length ∧
        ∀ t ∈ (tokens (bytes ", ") s).take 4, (lexicalCast (trimCopy t)).isSome) ∧
      (success = true → ∃ d0 d1 d2 d3,
        ((tokens (bytes ", ") s).take 4).map (fun t => lexicalCast (trimCopy t)) =
          [some d0, some d1, some d2, some d3] ∧
        log.filter BboxEvent.isInit = [.init d0 d1 d2 d3] ∧ box' = init d0 d1 d2 d3) ∧
      (success = false → log.filter BboxEvent.isInit = [] ∧ box' = box) ∧
      (∀ i x, .write i x ∈ log → i < 4) ∧
      ∀ pre post i, log = pre ++ .read i :: post → ∃ x, .write i x ∈ pre := by
  refine ⟨areRuns_tokens s, ?_⟩
  have hiff := converted_length_iff lexicalCast 4 (tokens (bytes ", ") s)
  by_cases hfour : (converted lexicalCast 4 (tokens (bytes ", ") s)).length = 4
  · have hnumbers := map_take_of_converted hfour
    obtain ⟨d0, d1, d2, d3, hconv⟩ := List.length_eq_four.mp hfour
    have hlog := parseBboxLog_four lexicalCast init box hconv
    have hresult := parseBboxLog_snd lexicalCast init box s
    rw [hlog] at hresult
    refine ⟨_, _, _, hlog, hresult.symm, iff_of_true rfl (hiff.mp hfour), fun _ => ?_,
      fun h => absurd h (by decide), fun i x hmem => ?_, fun pre post i hsplit => ?_⟩
    · rw [hconv] at hnumbers
      exact ⟨d0, d1, d2, d3, hnumbers, filter_isInit_success _ _ _ _ _ _, rfl⟩
    · have hwrite : .write i x ∈ writesFrom 0 [d0, d1, d2, d3] := by
        simpa [bboxReads] using hmem
      obtain ⟨_, _, e, _, hlt⟩ := mem_writesFrom hwrite
      cases e
      exact hlt
    · obtain ⟨hall, hlt⟩ := prefix_of_read (fun i => read_not_mem_writesFrom 0 i _) hsplit
      have hwritten : ∃ x, .write i x ∈ writesFrom 0 [d0, d1, d2, d3] :=
        exists_mem_writesFrom (Nat.zero_le i) (by simpa using hlt)
      obtain ⟨x, hx⟩ := hwritten
      exact ⟨x, hall _ hx⟩
  · have hlog := parseBboxLog_fewer lexicalCast init box hfour
    have hresult := parseBboxLog_snd lexicalCast init box s
    rw [hlog] at hresult
    refine ⟨_, _, _, hlog, hresult.symm,
      iff_of_false Bool.false_ne_true fun h => hfour (hiff.mpr h),
      fun h => absurd h (by decide), fun _ => ?_,
      fun i x hmem => ?_, fun pre post i hsplit => ?_⟩
    · exact ⟨filter_isInit_writesFrom 0 _, rfl⟩
    · obtain ⟨_, _, e, _, hlt⟩ := mem_writesFrom hmem
      cases e
      have := converted_length_le lexicalCast 4 (tokens (bytes ", ") s)
      omega
    · have hmem : .read i ∈ writesFrom 0 (converted lexicalCast 4 (tokens (bytes ", ") s)) := by
        rw [hsplit]
        simp
      exact absurd hmem (read_not_mem_writesFrom 0 i _)

/-! ## The fields between commas -/

theorem dropWhile_isSpace_append {l t : Bytes} (hl : ∀ b ∈ l, isSpace b = true) :
    (l ++ t).dropWhile isSpace = t.dropWhile isSpace := by
  induction l with
  | nil => rfl
  | cons b l ih =>
    obtain ⟨hb, hl⟩ := List.forall_mem_cons.mp hl
    rw [List.cons_append, List.dropWhile_cons_of_pos hb, ih hl]

/-- White space around a text is trimmed with its own. -/
theorem trimCopy_append {l t r : Bytes} (hl : ∀ b ∈ l, isSpace b = true)
    (hr : ∀ b ∈ r, isSpace b = true) : trimCopy (l ++ t ++ r) = trimCopy t := by
  have hrev : ∀ b ∈ r.reverse, isSpace b = true := fun b hb => hr b (List.mem_reverse.mp hb)
  unfold trimCopy
  rw [List.append_assoc, dropWhile_isSpace_append hl]
  cases hc : t.dropWhile isSpace with
  | nil =>
    have hall : ∀ b ∈ t, isSpace b = true := List.dropWhile_eq_nil_iff.mp hc
    rw [dropWhile_isSpace_append hall, List.dropWhile_eq_nil_iff.mpr hr]
  | cons b u =>
    have hkeep : (t ++ r).dropWhile isSpace = t.dropWhile isSpace ++ r := by
      rw [List.dropWhile_append, hc]
      rfl
    rw [hkeep, hc, List.reverse_append, dropWhile_isSpace_append hrev]

/-- A field with one run of bytes other than blanks is this run, up to white space around. -/
theorem trimCopy_run {f t : Bytes} (h : AreRuns (fun b => b == ch ' ') f [t]) :
    trimCopy t = trimCopy f := by
  obtain ⟨l, r, rfl, hl, hr⟩ := runs_eq_singleton ((areRuns_splitOnP _ f).unique h)
  have hspace : ∀ b : UInt8, (b == ch ' ') = true → isSpace b = true := by
    intro b hb
    rw [beq_iff_eq.mp hb]
    rfl
  exact (trimCopy_append (fun b hb => hspace b (hl b hb)) fun b hb => hspace b (hr b hb)).symm

/-- The runs of a text, found field by field. -/
theorem tokens_fields (s : Bytes) :
    tokens (bytes ", ") s =
      (s.splitOn (ch ',')).flatMap fun f => (f.splitOnP (· == ch ' ')).filter (· ≠ []) := by
  rw [(areRuns_tokens s).unique (areRuns_splitOnP _ s), runs_flatMap, List.splitOn_eq_splitOnP]

/-- Fields with one run each are the runs, up to white space. -/
theorem map_trimCopy_runs {fs : List Bytes}
    (h : ∀ f ∈ fs, ∃ t, AreRuns (fun b => b == ch ' ') f [t]) :
    (fs.flatMap fun f => (f.splitOnP (· == ch ' ')).filter (· ≠ [])).map trimCopy =
      fs.map trimCopy := by
  induction fs with
  | nil => rfl
  | cons f fs ih =>
    obtain ⟨⟨t, ht⟩, hfs⟩ := List.forall_mem_cons.mp h
    rw [List.flatMap_cons, (areRuns_splitOnP _ f).unique ht, List.map_append, ih hfs,
      List.map_singleton, trimCopy_run ht, List.map_cons]
    rfl

/-- **Where the numbers of a box come from.** When the reader returns `true`, the numbers given
    to `init` are the conversions of the first four maximal runs of bytes other than `,` and
    blank, trimmed. When there are exactly four fields between commas, with one run of bytes
    other than blanks each, they are the conversions of the fields, trimmed. -/
theorem parse_bbox_fields (lexicalCast : Bytes → Option Double)
    (init : Double → Double → Double → Double → Envelope) (box box' : Envelope) (s : Bytes)
    (log : List (BboxEvent Double))
    (h : parseBboxLog lexicalCast init box s = (log, .ok (true, box'))) :
    ∃ d0 d1 d2 d3, log.filter BboxEvent.isInit = [.init d0 d1 d2 d3] ∧
      (∃ ts, AreRuns (fun b => b == ch ',' || b == ch ' ') s ts ∧
        (ts.take 4).map (fun t => lexicalCast (trimCopy t)) =
          [some d0, some d1, some d2, some d3]) ∧
      ((s.splitOn (ch ',')).length = 4 →
        (∀ f ∈ s.splitOn (ch ','), ∃ t, AreRuns (fun b => b == ch ' ') f [t]) →
        (s.splitOn (ch ',')).map (fun f => lexicalCast (trimCopy f)) =
          [some d0, some d1, some d2, some d3]) := by
  by_cases hfour : (converted lexicalCast 4 (tokens (bytes ", ") s)).length = 4
  · have hnumbers := map_take_of_converted hfour
    obtain ⟨d0, d1, d2, d3, hconv⟩ := List.length_eq_four.mp hfour
    rw [parseBboxLog_four lexicalCast init box hconv] at h
    cases h
    rw [hconv] at hnumbers
    refine ⟨d0, d1, d2, d3, filter_isInit_success _ _ _ _ _ _,
      ⟨_, areRuns_tokens s, hnumbers⟩, fun hlen hone => ?_⟩
    have htrim : (tokens (bytes ", ") s).map trimCopy = (s.splitOn (ch ',')).map trimCopy := by
      rw [tokens_fields, map_trimCopy_runs hone]
    have htake : (tokens (bytes ", ") s).take 4 = tokens (bytes ", ") s := by
      apply List.take_of_length_le
      have := congrArg List.length htrim
      rw [List.length_map, List.length_map, hlen] at this
      omega
    calc (s.splitOn (ch ',')).map (fun f => lexicalCast (trimCopy f))
        = ((s.splitOn (ch ',')).map trimCopy).map lexicalCast := by
          rw [List.map_map]
          rfl
      _ = ((tokens (bytes ", ") s).map trimCopy).map lexicalCast := by rw [htrim]
      _ = (tokens (bytes ", ") s).map (fun t => lexicalCast (trimCopy t)) := by
          rw [List.map_map]
          rfl
      _ = [some d0, some d1, some d2, some d3] := by
          rw [← htake]
          exact hnumbers
  · rw [parseBboxLog_fewer lexicalCast init box hfour] at h
    cases h

/-- `lexical_cast` on digits. -/
def castDigits (t : Bytes) : Option Nat :=
  if t ≠ [] ∧ ∀ b ∈ t, isDecimal b = true then some (ofDecimal t) else none

theorem parse_bbox_fields_sample :
    ∃ log box', parseBboxLog castDigits (fun a b c d => [a, b, c, d]) [] (bytes "1, 2,3,4") =
      (log, .ok (true, box')) ∧
      ∃ d0 d1 d2 d3, log.filter BboxEvent.isInit = [.init d0 d1 d2 d3] ∧
        ((bytes "1, 2,3,4").splitOn (ch ',')).map (fun f => castDigits (trimCopy f)) =
          [some d0, some d1, some d2, some d3] := by
  have hfields : (bytes "1, 2,3,4").splitOn (ch ',') =
      [bytes "1", bytes " 2", bytes "3", bytes "4"] := by
    decide +kernel
  have hone : ∀ f ∈ (bytes "1, 2,3,4").splitOn (ch ','),
      ∃ t, AreRuns (fun b => b == ch ' ') f [t] := by
    intro f hf
    have hruns := areRuns_splitOnP (fun b => b == ch ' ') f
    rw [hfields] at hf
    obtain rfl | rfl | rfl | rfl : f = bytes "1" ∨ f = bytes " 2" ∨ f = bytes "3" ∨
        f = bytes "4" := by
      simpa only [List.mem_cons, List.not_mem_nil, or_false] using hf
    · exact ⟨bytes "1", hruns⟩
    · exact ⟨bytes "2", hruns⟩
    · exact ⟨bytes "3", hruns⟩
    · exact ⟨bytes "4", hruns⟩
  have hlog : parseBboxLog castDigits (fun a b c d => [a, b, c, d]) [] (bytes "1, 2,3,4") =
      ([.write 0 1, .write 1 2, .write 2 3, .write 3 4, .read 0, .read 1, .read 2, .read 3,
        .init 1 2 3 4], .ok (true, [1, 2, 3, 4])) := by
    decide +kernel
  obtain ⟨d0, d1, d2, d3, hinit, _, hplaces⟩ := parse_bbox_fields _ _ _ _ _ _ hlog
  exact ⟨_, _, hlog, d0, d1, d2, d3, hinit, hplaces (by rw [hfields]; rfl) hone⟩

/-- An empty field does not keep its place: the coordinates after it move up. -/
theorem empty_field_dropped : ¬ ∀ (s : Bytes) (log : List (BboxEvent Nat)) (box' : List Nat),
    parseBboxLog castDigits (fun a b c d => [a, b, c, d]) [] s = (log, .ok (true, box')) →
    ∀ d0 d1 d2 d3, .init d0 d1 d2 d3 ∈ log →
      (s.splitOn (ch ',')).map (fun f => castDigits (trimCopy f)) =
        [some d0, some d1, some d2, some d3] := by
  intro h
  have hfields := h (bytes "1,,2,3,4")
    [.write 0 1, .write 1 2, .write 2 3, .write 3 4, .read 0, .read 1, .read 2, .read 3,
      .init 1 2 3 4] [1, 2, 3, 4] (by decide +kernel) 1 2 3 4 (by simp)
  exact absurd hfields (by decide +kernel)

end PaleoServer
