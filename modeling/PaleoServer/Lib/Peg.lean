/-
  Parsing expressions with attributes. A parser reads a prefix of its input and returns an
  attribute and the rest, or fails and consumes nothing. The combinators are the ones of a
  recursive-descent PEG library: a literal, a character class, sequence, optional, Kleene star and
  plus, all greedy and without backtracking into a finished repetition.

  Proved:
  * `star_eq`: the equation of the star of a parser that consumes.
  * `star_charClass`: the star of a character class is a longest run.
  * `sepBy_splitOn`: a separated list whose elements never look past the separator is
    read segment by segment, up to the first segment that is not read to its end.
  * `ReadsLongest.sepBy`: a separated list of longest matches is a longest match.
  * `Respects`: parsers that do not tell a symbol from its image under a map of the alphabet.
-/
import Mathlib

namespace Peg

variable {τ α β : Type}

/-- A parser of attributes `α` over symbols `τ`. -/
abbrev Parser (τ α : Type) := List τ → Option (α × List τ)

/-- One symbol of a class. -/
def charClass (p : τ → Bool) : Parser τ τ
  | [] => none
  | a :: s => if p a then some (a, s) else none

/-- A literal symbol, without attribute. -/
def lit [DecidableEq τ] (c : τ) : Parser τ Unit
  | [] => none
  | a :: s => if a = c then some ((), s) else none

/-- `p >> q`. -/
def seq (p : Parser τ α) (q : Parser τ β) : Parser τ (α × β) := fun s =>
  match p s with
  | none => none
  | some (a, s') =>
    match q s' with
    | none => none
    | some (b, s'') => some ((a, b), s'')

/-- `-p`: the attribute stays unset when `p` fails. -/
def opt (p : Parser τ α) : Parser τ (Option α) := fun s =>
  match p s with
  | none => some (none, s)
  | some (a, s') => some (some a, s')

/-- `p` at most `n` times. -/
def upTo (p : Parser τ α) : Nat → Parser τ (List α)
  | 0, s => some ([], s)
  | n + 1, s =>
    match p s with
    | none => some ([], s)
    | some (a, s') => (upTo p n s').map fun r => (a :: r.1, r.2)

/-- `*p`. A parser that consumes cannot succeed more often than there are symbols. -/
def star (p : Parser τ α) : Parser τ (List α) := fun s => upTo p s.length s

/-- Apply a function to the attribute. -/
def map (f : α → β) (p : Parser τ α) : Parser τ β := fun s => (p s).map fun r => (f r.1, r.2)

/-- `+p`. -/
def plus (p : Parser τ α) : Parser τ (List α) := map (fun r => r.1 :: r.2) (seq p (star p))

/-- `p >> *(c >> p)`. -/
def sepBy [DecidableEq τ] (c : τ) (p : Parser τ α) : Parser τ (List α) :=
  map (fun r => r.1 :: r.2) (seq p (star (map Prod.snd (seq (lit c) p))))

/-! ## Parsers that consume -/

/-- `p` reads at least one symbol off the front whenever it succeeds. -/
def Consumes (p : Parser τ α) : Prop := ∀ s a r, p s = some (a, r) → ∃ w, w ≠ [] ∧ s = w ++ r

theorem Consumes.length_lt {p : Parser τ α} (hp : Consumes p) {s r : List τ} {a : α}
    (h : p s = some (a, r)) : r.length < s.length := by
  obtain ⟨w, hw, rfl⟩ := hp s a r h
  have := List.length_pos_of_ne_nil hw
  rw [List.length_append]
  omega

theorem consumes_charClass (p : τ → Bool) : Consumes (charClass p) := by
  intro s a r h
  cases s with
  | nil => cases h
  | cons b s =>
    simp only [charClass] at h
    split at h <;> cases h
    exact ⟨[a], by simp, rfl⟩

theorem consumes_lit [DecidableEq τ] (c : τ) : Consumes (lit c) := by
  intro s a r h
  cases s with
  | nil => cases h
  | cons b s =>
    simp only [lit] at h
    split at h <;> cases h
    exact ⟨[b], by simp, rfl⟩

theorem seq_eq_some {p : Parser τ α} {q : Parser τ β} {s r : List τ} {c : α × β} :
    seq p q s = some (c, r) ↔ ∃ t, p s = some (c.1, t) ∧ q t = some (c.2, r) := by
  obtain ⟨a, b⟩ := c
  rcases hp : p s with _ | ⟨a', t⟩
  · simp [seq, hp]
  · rcases hq : q t with _ | ⟨b', u⟩
    · simp only [seq, hp, hq]
      refine ⟨(fun h => nomatch h), ?_⟩
      rintro ⟨t', h1, h2⟩
      cases h1
      rw [hq] at h2
      cases h2
    · simp only [seq, hp, hq]
      constructor
      · intro h
        cases h
        exact ⟨t, rfl, hq⟩
      · rintro ⟨t', h1, h2⟩
        cases h1
        rw [hq] at h2
        cases h2
        rfl

theorem map_eq_some {f : α → β} {p : Parser τ α} {s r : List τ} {b : β} :
    map f p s = some (b, r) ↔ ∃ a, p s = some (a, r) ∧ f a = b := by
  unfold map
  rcases p s with _ | ⟨a, t⟩
  · simp
  · simp only [Option.map_some, Option.some.injEq, Prod.mk.injEq]
    constructor
    · rintro ⟨h, rfl⟩
      exact ⟨a, ⟨rfl, rfl⟩, h⟩
    · rintro ⟨a', ⟨rfl, rfl⟩, h⟩
      exact ⟨h, rfl⟩

/-- A parser that consumes goes on consuming with anything that reads off the front after it. -/
theorem consumes_seq {p : Parser τ α} {q : Parser τ β} (hp : Consumes p)
    (hq : ∀ s b r, q s = some (b, r) → ∃ w, s = w ++ r) : Consumes (seq p q) := by
  intro s c r h
  obtain ⟨t, h1, h2⟩ := seq_eq_some.mp h
  obtain ⟨w, hw, rfl⟩ := hp s _ t h1
  obtain ⟨w', rfl⟩ := hq t _ r h2
  exact ⟨w ++ w', by simp [hw], (List.append_assoc ..).symm⟩

theorem consumes_map {p : Parser τ α} (f : α → β) (hp : Consumes p) : Consumes (map f p) := by
  intro s b r h
  obtain ⟨a, h, _⟩ := map_eq_some.mp h
  exact hp s a r h

/-! ## Repetition -/

/-- More rounds than symbols make no difference to a parser that consumes. -/
theorem upTo_eq_of_le {p : Parser τ α} (hp : Consumes p) {n m : Nat} {s : List τ}
    (hn : s.length ≤ n) (hm : s.length ≤ m) : upTo p n s = upTo p m s := by
  induction n generalizing m s with
  | zero =>
    have hs : s = [] := List.length_eq_zero_iff.mp (Nat.le_zero.mp hn)
    subst hs
    cases m with
    | zero => rfl
    | succ m =>
      rcases h : p [] with _ | ⟨a, r⟩
      · simp only [upTo, h]
      · exact absurd (hp.length_lt h) (Nat.not_lt_zero _)
  | succ n ih =>
    rcases h : p s with _ | ⟨a, r⟩
    · cases m <;> simp only [upTo, h]
    · have hlt := hp.length_lt h
      cases m with
      | zero => omega
      | succ m =>
        simp only [upTo, h]
        rw [ih (by omega) (by omega : r.length ≤ m)]

theorem upTo_isSome (p : Parser τ α) (n : Nat) (s : List τ) : ∃ r, upTo p n s = some r := by
  induction n generalizing s with
  | zero => exact ⟨_, rfl⟩
  | succ n ih =>
    rcases h : p s with _ | ⟨a, s'⟩
    · exact ⟨_, by simp only [upTo, h]; rfl⟩
    · obtain ⟨r, hr⟩ := ih s'
      exact ⟨_, by simp only [upTo, h, hr]; rfl⟩

/-- A star does not fail. -/
theorem star_isSome (p : Parser τ α) (s : List τ) : ∃ r, star p s = some r :=
  upTo_isSome p s.length s

/-- The equation of the star. -/
theorem star_eq {p : Parser τ α} (hp : Consumes p) (s : List τ) :
    star p s = match p s with
      | none => some ([], s)
      | some (a, r) => (star p r).map fun q => (a :: q.1, q.2) := by
  rcases h : p s with _ | ⟨a, r⟩
  · unfold star
    cases s with
    | nil => rfl
    | cons b s => simp only [List.length_cons, upTo, h]
  · have hlt := hp.length_lt h
    unfold star
    cases s with
    | nil => exact absurd hlt (Nat.not_lt_zero _)
    | cons b s =>
      simp only [List.length_cons, upTo, h] at hlt ⊢
      rw [upTo_eq_of_le hp (by omega) (Nat.le_refl _)]

/-- The star of a class takes the longest run of it. -/
theorem star_charClass (p : τ → Bool) (s : List τ) :
    star (charClass p) s = some (s.takeWhile p, s.dropWhile p) := by
  induction s with
  | nil => rfl
  | cons a s ih =>
    rw [star_eq (consumes_charClass p), charClass]
    by_cases ha : p a = true
    · simp only [ha, if_true, ih, List.takeWhile_cons, List.dropWhile_cons]
      rfl
    · simp only [ha, List.takeWhile_cons, List.dropWhile_cons]
      rfl

/-! ## Separated lists -/

/-- `p` never looks past a `c`: what follows one makes no difference to it. -/
def StopsAt (c : τ) (p : Parser τ α) : Prop :=
  ∀ x y, c ∉ x → p (x ++ c :: y) = (p x).map fun r => (r.1, r.2 ++ c :: y)

/-- The attributes of the segments read one after another, up to the first segment that is not
    read to its end. -/
def readSegments (p : Parser τ α) : List (List τ) → List α
  | [] => []
  | seg :: segs =>
    match p seg with
    | none => []
    | some (a, []) => a :: readSegments p segs
    | some (a, _ :: _) => [a]

/-- Every attribute is the one of some segment. -/
theorem mem_readSegments {p : Parser τ α} {segs : List (List τ)} {a : α}
    (h : a ∈ readSegments p segs) : ∃ seg ∈ segs, ∃ r, p seg = some (a, r) := by
  induction segs with
  | nil => cases h
  | cons seg segs ih =>
    rw [readSegments] at h
    split at h
    · cases h
    · rename_i b hb
      rcases List.mem_cons.mp h with rfl | h
      · exact ⟨seg, List.mem_cons_self, [], hb⟩
      · obtain ⟨seg', hseg, r, hr⟩ := ih h
        exact ⟨seg', List.mem_cons_of_mem seg hseg, r, hr⟩
    · rename_i b c r hb
      rw [List.mem_singleton.mp h]
      exact ⟨seg, List.mem_cons_self, _, hb⟩

/-- Segments that are the texts of attributes are read back, before what follows them. -/
theorem readSegments_append {p : Parser τ α} {text : α → List τ} {as : List α}
    (h : ∀ a ∈ as, p (text a) = some (a, [])) (segs : List (List τ)) :
    readSegments p (as.map text ++ segs) = as ++ readSegments p segs := by
  induction as with
  | nil => rfl
  | cons a as ih =>
    simp only [List.map_cons, List.cons_append, readSegments, h a List.mem_cons_self,
      ih fun b hb => h b (List.mem_cons_of_mem a hb)]

theorem readSegments_map {p : Parser τ α} {text : α → List τ} {as : List α}
    (h : ∀ a ∈ as, p (text a) = some (a, [])) : readSegments p (as.map text) = as := by
  have := readSegments_append h []
  rwa [List.append_nil, readSegments, List.append_nil] at this

variable [DecidableEq τ]

/-- After an element: the separator and the list that goes on behind it, or the end. -/
theorem sepBy_eq {c : τ} {p : Parser τ α} (hp : Consumes p) (s : List τ) :
    sepBy c p s = match p s with
      | none => none
      | some (a, r) =>
        match seq (lit c) (sepBy c p) r with
        | none => some ([a], r)
        | some ((_, as), r') => some (a :: as, r') := by
  have hq : Consumes (map Prod.snd (seq (lit c) p)) :=
    consumes_map _ (consumes_seq (consumes_lit c) fun s b r h =>
      let ⟨w, _, hw⟩ := hp s b r h
      ⟨w, hw⟩)
  rcases h : p s with _ | ⟨a, r⟩
  · simp only [sepBy, map, seq, h]
    rfl
  · simp only [sepBy, map, seq, h]
    rw [star_eq hq]
    cases r with
    | nil => simp [map, seq, lit]
    | cons b r =>
      by_cases hb : b = c
      · simp only [map, seq, lit, hb, if_true]
        rcases p r with _ | ⟨a', r'⟩
        · rfl
        · simp only [Option.map_some]
          obtain ⟨⟨as, r''⟩, hs⟩ := star_isSome (map Prod.snd (seq (lit c) p)) r'
          rw [hs]
          rfl
      · simp only [map, seq, lit, hb, if_false]
        rfl

theorem not_mem_of_mem_splitOn (c : τ) (s : List τ) : ∀ seg ∈ s.splitOn c, c ∉ seg := by
  induction s with
  | nil =>
    rw [List.splitOn_nil]
    simp
  | cons a s ih =>
    rw [List.splitOn_cons_eq_if_modifyHead]
    split
    · simpa using ih
    · rename_i ha
      have hac : c ≠ a := fun e => ha (by simp [e])
      obtain ⟨seg, segs, hs⟩ := List.exists_cons_of_ne_nil (List.splitOn_ne_nil c s)
      rw [hs] at ih ⊢
      rw [List.modifyHead_cons]
      obtain ⟨hseg, hsegs⟩ := List.forall_mem_cons.mp ih
      refine List.forall_mem_cons.mpr ⟨?_, hsegs⟩
      exact List.not_mem_cons_of_ne_of_not_mem hac hseg

theorem sepBy_intercalate {c : τ} {p : Parser τ α} (hp : Consumes p) (hc : StopsAt c p)
    (segs : List (List τ)) (hne : segs ≠ []) (hfree : ∀ seg ∈ segs, c ∉ seg) :
    ((sepBy c p ([c].intercalate segs)).map Prod.fst).getD [] = readSegments p segs := by
  induction segs with
  | nil => exact absurd rfl hne
  | cons seg segs ih =>
    have hseg := hfree seg List.mem_cons_self
    cases segs with
    | nil =>
      rw [List.intercalate_singleton, sepBy_eq hp, readSegments]
      rcases h : p seg with _ | ⟨a, _ | ⟨b, r⟩⟩
      · rfl
      · rfl
      · have hb : b ≠ c := by
          obtain ⟨w, _, rfl⟩ := hp seg a _ h
          rintro rfl
          exact hseg (by simp)
        simp [seq, lit, hb]
    | cons seg' segs =>
      have hrec := ih (by simp) fun s hs => hfree s (List.mem_cons_of_mem seg hs)
      rw [List.intercalate_cons_cons, List.append_assoc, List.singleton_append, sepBy_eq hp,
        hc _ _ hseg, readSegments]
      rcases h : p seg with _ | ⟨a, _ | ⟨b, r⟩⟩
      · rfl
      · simp only [Option.map_some, List.nil_append, seq, lit, if_true]
        rcases hs : sepBy c p ([c].intercalate (seg' :: segs)) with _ | ⟨as, r'⟩
        · rw [hs] at hrec
          rw [← hrec]
          rfl
        · rw [hs] at hrec
          rw [← hrec]
          rfl
      · have hb : b ≠ c := by
          obtain ⟨w, _, rfl⟩ := hp seg a _ h
          rintro rfl
          exact hseg (by simp)
        simp [seq, lit, hb]

/-- **A separated list is read segment by segment.** -/
theorem sepBy_splitOn {c : τ} {p : Parser τ α} (hp : Consumes p) (hc : StopsAt c p)
    (s : List τ) : ((sepBy c p s).map Prod.fst).getD [] = readSegments p (s.splitOn c) := by
  have := sepBy_intercalate hp hc (s.splitOn c) (List.splitOn_ne_nil c s)
    (not_mem_of_mem_splitOn c s)
  rwa [List.intercalate_splitOn] at this

/-! ## Longest match -/

/-- `p` reads the longest text of an attribute that its input begins with: what it reads is such
    a text, a text alone is read to its end, and behind a text it does not stop earlier. -/
structure ReadsLongest (p : Parser τ α) (text : α → List τ) (Ok : α → Prop) : Prop where
  sound : ∀ {s a r}, p s = some (a, r) → Ok a ∧ s = text a ++ r
  exact : ∀ {a}, Ok a → p (text a) = some (a, [])
  longest : ∀ {a}, Ok a → ∀ t, ∃ b x r, p (text a ++ t) = some (b, r) ∧ text b = text a ++ x

section Longest

omit [DecidableEq τ]

variable {p : Parser τ α} {text : α → List τ} {Ok : α → Prop}

/-- It fails only where the input begins with no text. -/
theorem ReadsLongest.eq_none_iff (h : ReadsLongest p text Ok) (s : List τ) :
    p s = none ↔ ¬ ∃ a, Ok a ∧ text a <+: s := by
  constructor
  · rintro hnone ⟨a, ha, t, rfl⟩
    obtain ⟨b, x, r, hsome, _⟩ := h.longest ha t
    rw [hnone] at hsome
    cases hsome
  · intro hno
    rcases hp : p s with _ | ⟨a, r⟩
    · rfl
    · obtain ⟨ha, hs⟩ := h.sound hp
      exact absurd ⟨a, ha, r, hs.symm⟩ hno

/-- No text the input begins with is longer than the one that is read. -/
theorem ReadsLongest.maximal (h : ReadsLongest p text Ok) {s r : List τ} {a b : α}
    (hp : p s = some (a, r)) (hb : Ok b) (hs : text b <+: s) : text b <+: text a := by
  obtain ⟨t, rfl⟩ := hs
  obtain ⟨b', x, r', hb', htext⟩ := h.longest hb t
  rw [hp] at hb'
  cases hb'
  exact ⟨x, htext.symm⟩

/-- A text has one attribute. -/
theorem ReadsLongest.text_inj (h : ReadsLongest p text Ok) {a b : α} (ha : Ok a) (hb : Ok b)
    (htext : text a = text b) : a = b := by
  have hread := h.exact ha
  rw [htext, h.exact hb] at hread
  cases hread
  rfl

end Longest

section SeparatedLongest

variable {c : τ} {p : Parser τ α} {text : α → List τ} {Ok : α → Prop}

omit [DecidableEq τ] in
theorem intercalate_map_cons (c : τ) (text : α → List τ) (a : α) {as : List α} (hne : as ≠ []) :
    [c].intercalate ((a :: as).map text) = text a ++ c :: [c].intercalate (as.map text) := by
  cases as with
  | nil => exact absurd rfl hne
  | cons b as =>
    rw [List.map_cons, List.map_cons, List.intercalate_cons_cons, List.append_assoc,
      List.singleton_append]

/-- A text and the separator are read as one element; the list goes on behind them if it can. -/
theorem ReadsLongest.sepBy_step (h : ReadsLongest p text Ok) (hp : Consumes p)
    (hc : StopsAt c p) {a : α} (ha : Ok a) (hfree : c ∉ text a) (y : List τ) :
    sepBy c p (text a ++ c :: y) = match sepBy c p y with
      | none => some ([a], c :: y)
      | some (as, r) => some (a :: as, r) := by
  rw [sepBy_eq hp, hc _ _ hfree, h.exact ha]
  simp only [Option.map_some, List.nil_append, seq, lit, if_true]
  rcases sepBy c p y with _ | ⟨as, r⟩ <;> rfl

theorem ReadsLongest.sepBy_sound (h : ReadsLongest p text Ok) (hp : Consumes p) {s r : List τ}
    {as : List α} (hs : sepBy c p s = some (as, r)) :
    (as ≠ [] ∧ ∀ a ∈ as, Ok a) ∧ s = [c].intercalate (as.map text) ++ r := by
  induction hn : s.length using Nat.strong_induction_on generalizing s as r with
  | _ n ih =>
    rw [sepBy_eq hp] at hs
    rcases ha : p s with _ | ⟨a, s'⟩
    · rw [ha] at hs
      cases hs
    obtain ⟨hok, htext⟩ := h.sound ha
    have hlt := hp.length_lt ha
    rcases hrest : seq (lit c) (sepBy c p) s' with _ | ⟨⟨u, as'⟩, r'⟩
    · simp only [ha, hrest] at hs
      cases hs
      refine ⟨⟨List.cons_ne_nil a [], List.forall_mem_singleton.mpr hok⟩, ?_⟩
      rw [List.map_singleton, List.intercalate_singleton]
      exact htext
    · simp only [ha, hrest] at hs
      cases hs
      obtain ⟨t, hlit, hsep⟩ := seq_eq_some.mp hrest
      have hs' : s' = c :: t := by
        cases s' with
        | nil => cases hlit
        | cons b s' =>
          simp only [lit] at hlit
          split at hlit <;> cases hlit
          rename_i hb
          rw [hb]
      subst hs'
      obtain ⟨⟨hne, hall⟩, htail⟩ := ih t.length (by simp at hlt; omega) hsep rfl
      refine ⟨⟨List.cons_ne_nil a as', List.forall_mem_cons.mpr ⟨hok, hall⟩⟩, ?_⟩
      rw [intercalate_map_cons c text a hne, htext, htail, List.append_assoc, List.cons_append]

/-- The text of a list is read to its end. -/
theorem ReadsLongest.sepBy_exact (h : ReadsLongest p text Ok) (hp : Consumes p)
    (hc : StopsAt c p) (hfree : ∀ a, Ok a → c ∉ text a) {as : List α} (hne : as ≠ [])
    (hall : ∀ a ∈ as, Ok a) : sepBy c p ([c].intercalate (as.map text)) = some (as, []) := by
  induction as with
  | nil => exact absurd rfl hne
  | cons a as ih =>
    obtain ⟨ha, hall⟩ := List.forall_mem_cons.mp hall
    by_cases hnil : as = []
    · subst hnil
      rw [List.map_singleton, List.intercalate_singleton, sepBy_eq hp, h.exact ha]
      rfl
    · rw [intercalate_map_cons c text a hnil, h.sepBy_step hp hc ha (hfree a ha), ih hnil hall]

/-- Behind its last text an element may run on, and elements may follow. -/
theorem ReadsLongest.sepBy_last (h : ReadsLongest p text Ok) (hp : Consumes p) {a : α}
    (ha : Ok a) (t : List τ) : ∃ bs x r, sepBy c p (text a ++ t) = some (bs, r) ∧
      [c].intercalate (bs.map text) = text a ++ x := by
  obtain ⟨b, x, r, hb, htext⟩ := h.longest ha t
  rw [sepBy_eq hp, hb]
  rcases hrest : seq (lit c) (sepBy c p) r with _ | ⟨⟨u, bs⟩, r'⟩
  · refine ⟨[b], x, r, by simp only [hrest], ?_⟩
    rw [List.map_singleton, List.intercalate_singleton]
    exact htext
  · obtain ⟨t', _, hsep⟩ := seq_eq_some.mp hrest
    have hbs := (h.sepBy_sound hp hsep).1.1
    refine ⟨b :: bs, x ++ c :: [c].intercalate (bs.map text), r', by simp only [hrest], ?_⟩
    rw [intercalate_map_cons c text b hbs, htext, List.append_assoc]

/-- Behind the text of a list the reading does not stop earlier. -/
theorem ReadsLongest.sepBy_longest (h : ReadsLongest p text Ok) (hp : Consumes p)
    (hc : StopsAt c p) (hfree : ∀ a, Ok a → c ∉ text a) {as : List α} (hne : as ≠ [])
    (hall : ∀ a ∈ as, Ok a) (t : List τ) :
    ∃ bs x r, sepBy c p ([c].intercalate (as.map text) ++ t) = some (bs, r) ∧
      [c].intercalate (bs.map text) = [c].intercalate (as.map text) ++ x := by
  induction as with
  | nil => exact absurd rfl hne
  | cons a as ih =>
    obtain ⟨ha, hall⟩ := List.forall_mem_cons.mp hall
    by_cases hnil : as = []
    · subst hnil
      rw [List.map_singleton, List.intercalate_singleton]
      exact h.sepBy_last hp ha t
    · obtain ⟨bs, x, r, hbs, htext⟩ := ih hnil hall
      have hbsne := (h.sepBy_sound hp hbs).1.1
      refine ⟨a :: bs, x, r, ?_, ?_⟩
      · rw [intercalate_map_cons c text a hnil, List.append_assoc, List.cons_append,
          h.sepBy_step hp hc ha (hfree a ha), hbs]
      · rw [intercalate_map_cons c text a hbsne, intercalate_map_cons c text a hnil, htext,
          List.append_assoc, List.cons_append]

/-- **A separated list of longest matches is a longest match.** -/
theorem ReadsLongest.sepBy (h : ReadsLongest p text Ok) (hp : Consumes p) (hc : StopsAt c p)
    (hfree : ∀ a, Ok a → c ∉ text a) :
    ReadsLongest (sepBy c p) (fun as => [c].intercalate (as.map text))
      (fun as => as ≠ [] ∧ ∀ a ∈ as, Ok a) where
  sound hs := h.sepBy_sound hp hs
  exact has := h.sepBy_exact hp hc hfree has.1 has.2
  longest has t := h.sepBy_longest hp hc hfree has.1 has.2 t

end SeparatedLongest

/-! ## Maps of the alphabet -/

section Respects

omit [DecidableEq τ]

variable {γ δ : Type} {f : τ → τ} {g : α → α} {g' : β → β} {p : Parser τ α} {q : Parser τ β}

/-- `p` does not tell a symbol from its image under `f`, and the attribute follows by `g`. -/
def Respects (f : τ → τ) (g : α → α) (p : Parser τ α) : Prop :=
  ∀ s, p (s.map f) = (p s).map fun r => (g r.1, r.2.map f)

theorem respects_charClass {c : τ → Bool} (h : ∀ a, c (f a) = c a) :
    Respects f f (charClass c) := by
  intro s
  cases s with
  | nil => rfl
  | cons a s =>
    simp only [List.map_cons, charClass, h]
    split <;> rfl

theorem respects_lit [DecidableEq τ] {c : τ} (h : ∀ a, f a = c ↔ a = c) :
    Respects f id (lit c) := by
  intro s
  cases s with
  | nil => rfl
  | cons a s =>
    simp only [List.map_cons, lit, h]
    split <;> rfl

theorem Respects.seq (hp : Respects f g p) (hq : Respects f g' q) :
    Respects f (Prod.map g g') (seq p q) := by
  intro s
  simp only [Peg.seq, hp s]
  rcases p s with _ | ⟨a, t⟩
  · rfl
  · simp only [Option.map_some, hq t]
    rcases q t with _ | ⟨b, u⟩ <;> rfl

theorem Respects.opt (hp : Respects f g p) : Respects f (Option.map g) (opt p) := by
  intro s
  simp only [Peg.opt, hp s]
  rcases p s with _ | ⟨a, t⟩ <;> rfl

theorem Respects.map {k : α → β} (hp : Respects f g p) (hk : ∀ a, k (g a) = g' (k a)) :
    Respects f g' (Peg.map k p) := by
  intro s
  simp only [Peg.map, hp s, Option.map_map]
  congr 1
  funext r
  simp [hk]

theorem Respects.upTo (hp : Respects f g p) (n : Nat) (s : List τ) :
    upTo p n (s.map f) = (upTo p n s).map fun r => (r.1.map g, r.2.map f) := by
  induction n generalizing s with
  | zero => rfl
  | succ n ih =>
    simp only [Peg.upTo, hp s]
    rcases p s with _ | ⟨a, t⟩
    · rfl
    · simp only [Option.map_some, ih, Option.map_map]
      rfl

theorem Respects.star (hp : Respects f g p) : Respects f (List.map g) (star p) := by
  intro s
  unfold Peg.star
  rw [List.length_map]
  exact hp.upTo s.length s

theorem Respects.plus (hp : Respects f g p) : Respects f (List.map g) (plus p) :=
  (hp.seq hp.star).map fun _ => rfl

theorem Respects.sepBy [DecidableEq τ] {c : τ} (hc : ∀ a, f a = c ↔ a = c)
    (hp : Respects f g p) : Respects f (List.map g) (sepBy c p) := by
  have helement : Respects f g (Peg.map Prod.snd (Peg.seq (lit c) p)) :=
    ((respects_lit hc).seq hp).map fun _ => rfl
  exact (hp.seq helement.star).map fun _ => rfl

end Respects

end Peg
