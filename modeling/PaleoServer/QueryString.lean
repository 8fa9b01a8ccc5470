/-
  What `wms_query` stores, said without the parser.

  The query is read one `&`-segment at a time (`wmsQuery_eq`), because a pair never looks past
  an `&`. A segment gives a pair when it starts with a key (`pair_sound`), and the whole
  segment is read when it is a key, or a key, `=` and a value over the alphabet of the grammar
  (`pair_render`). The lookup of a key finds the first pair that has it and an `=`
  (`find_wmsQuery`), so every stored entry comes from one segment (`find_wmsQuery_segment`).
-/
import PaleoServer.UriParser

namespace PaleoServer

open Peg

/-- A key of the grammar. -/
def IsKey (k : Bytes) : Prop := ∃ b bs, k = b :: bs ∧ isKeyStart b = true ∧
  ∀ c ∈ bs, isKeyChar c = true

/-- A value of the grammar, or nothing. -/
def IsValue (v : Bytes) : Prop := ∀ c ∈ v, isValueChar c = true

/-- The text of a pair. -/
def renderPair : PairType → Bytes
  | (k, none) => k
  | (k, some v) => k ++ ch '=' :: v

/-- What `renderPair` may be applied to. -/
def IsPair (p : PairType) : Prop := IsKey p.1 ∧ ∀ v ∈ p.2, IsValue v

instance : DecidablePred IsKey
  | [] => isFalse (by rintro ⟨b, bs, h, _⟩; cases h)
  | b :: bs => decidable_of_iff (isKeyStart b = true ∧ ∀ c ∈ bs, isKeyChar c = true) (by
      constructor
      · exact fun h => ⟨b, bs, rfl, h⟩
      · rintro ⟨_, _, heq, h⟩
        cases heq
        exact h)

instance : DecidablePred IsValue := fun v => inferInstanceAs (Decidable (∀ c ∈ v, _))

instance : DecidablePred IsPair := fun p =>
  inferInstanceAs (Decidable (IsKey p.1 ∧ ∀ v ∈ p.2, IsValue v))

/-! ## Alphabets -/

theorem isKeyChar_of_start : ∀ b : UInt8, isKeyStart b = true → isKeyChar b = true := by
  intro b h
  show (isKeyStart b || inRange '0' '9' b) = true
  rw [h, Bool.true_or]

theorem isKeyChar_plain : ∀ b : UInt8, isKeyChar b = true →
    b ≠ ch '=' ∧ b ≠ ch '&' ∧ isSpace b = false := by
  decide +kernel

theorem isValueChar_plain : ∀ b : UInt8, isValueChar b = true →
    b ≠ ch '&' ∧ isSpace b = false := by
  decide +kernel

theorem IsKey.chars {k : Bytes} (h : IsKey k) : ∀ c ∈ k, isKeyChar c = true := by
  obtain ⟨b, bs, rfl, hb, hbs⟩ := h
  intro c hc
  rcases List.mem_cons.mp hc with rfl | hc
  · exact isKeyChar_of_start _ hb
  · exact hbs c hc

theorem IsKey.trimCopy_eq {k : Bytes} (h : IsKey k) : trimCopy k = k :=
  trimCopy_of_noSpace fun c hc => (isKeyChar_plain c (h.chars c hc)).2.2

theorem IsValue.trimCopy_eq {v : Bytes} (h : IsValue v) : trimCopy v = v :=
  trimCopy_of_noSpace fun c hc => (isValueChar_plain c (h c hc)).2

theorem IsKey.assign_free {k : Bytes} (h : IsKey k) : ch '=' ∉ k := fun hm =>
  (isKeyChar_plain _ (h.chars _ hm)).1 rfl

theorem IsPair.ampersand_free {p : PairType} (h : IsPair p) : ch '&' ∉ renderPair p := by
  obtain ⟨k, o⟩ := p
  have hk : ch '&' ∉ k := fun hm => (isKeyChar_plain _ (h.1.chars _ hm)).2.1 rfl
  cases o with
  | none => exact hk
  | some v =>
    have hv : ch '&' ∉ v := fun hm => (isValueChar_plain _ (h.2 v rfl _ hm)).1 rfl
    simp only [renderPair, List.mem_append, List.mem_cons, not_or]
    exact ⟨hk, by decide, hv⟩

theorem ampersand_free_map {ps : List PairType} (h : ∀ p ∈ ps, IsPair p) :
    ∀ seg ∈ ps.map renderPair, ch '&' ∉ seg := by
  intro seg hseg
  obtain ⟨p, hp, rfl⟩ := List.mem_map.mp hseg
  exact (h p hp).ampersand_free

/-! ## One pair -/

theorem key_eq (s : Bytes) :
    Grammar.key s = match s with
      | [] => none
      | b :: s' =>
        if isKeyStart b then some (b :: s'.takeWhile isKeyChar, s'.dropWhile isKeyChar)
        else none := by
  cases s with
  | nil => rfl
  | cons b s' =>
    simp only [Grammar.key, map, seq, charClass]
    by_cases hb : isKeyStart b = true
    · simp only [hb, if_true, star_charClass]
      rfl
    · simp only [hb]
      rfl

theorem value_eq (s : Bytes) :
    opt Grammar.value s = match s.takeWhile isValueChar with
      | [] => some (none, s)
      | b :: v => some (some (b :: v), s.dropWhile isValueChar) := by
  cases s with
  | nil => rfl
  | cons b s =>
    simp only [opt, Grammar.value, plus, map, seq, charClass]
    by_cases hb : isValueChar b = true
    · simp only [hb, if_true, star_charClass, List.takeWhile_cons, List.dropWhile_cons]
      rfl
    · simp only [hb, List.takeWhile_cons]
      rfl

/-- `'=' >> -value` behind an `=`. -/
theorem assign_cons (s : Bytes) :
    Grammar.assign (ch '=' :: s) = some (s.takeWhile isValueChar, s.dropWhile isValueChar) := by
  simp only [Grammar.assign, map, seq, lit, if_true]
  rw [value_eq]
  rcases h : s.takeWhile isValueChar with _ | ⟨b, v⟩
  · have hdrop : s.dropWhile isValueChar = s := by
      have := List.takeWhile_append_dropWhile (p := isValueChar) (l := s)
      rwa [h, List.nil_append] at this
    rw [hdrop]
    rfl
  · rfl

theorem assign_of_ne {b : UInt8} (hb : b ≠ ch '=') (s : Bytes) :
    Grammar.assign (b :: s) = none := by
  simp [Grammar.assign, map, seq, lit, hb]

/-- A pair as a function of the longest runs of its alphabets. -/
theorem pair_eq (s : Bytes) :
    Grammar.pair s = match Grammar.key s with
      | none => none
      | some (k, r) =>
        match Grammar.assign r with
        | none => some ((k, none), r)
        | some (v, r') => some ((k, some v), r') := by
  unfold Grammar.pair seq opt
  rcases Grammar.key s with _ | ⟨k, r⟩
  · rfl
  · rcases h : Grammar.assign r with _ | ⟨v, r'⟩ <;> simp [h]

theorem key_sound {s k r : Bytes} (h : Grammar.key s = some (k, r)) : IsKey k ∧ s = k ++ r := by
  rw [key_eq] at h
  cases s with
  | nil => cases h
  | cons b s =>
    simp only at h
    split at h
    · rename_i hb
      cases h
      refine ⟨⟨b, _, rfl, hb, fun c hc => List.mem_takeWhile_imp hc⟩, ?_⟩
      rw [List.cons_append, List.takeWhile_append_dropWhile]
    · cases h

theorem assign_sound {s v r : Bytes} (h : Grammar.assign s = some (v, r)) :
    IsValue v ∧ s = ch '=' :: (v ++ r) := by
  cases s with
  | nil => cases h
  | cons b s =>
    by_cases hb : b = ch '='
    · rw [hb, assign_cons] at h
      cases h
      refine ⟨fun c hc => List.mem_takeWhile_imp hc, ?_⟩
      rw [hb, List.takeWhile_append_dropWhile]
    · rw [assign_of_ne hb] at h
      cases h

/-- What a pair reads is its text. -/
theorem pair_sound {s r : Bytes} {p : PairType} (h : Grammar.pair s = some (p, r)) :
    IsPair p ∧ s = renderPair p ++ r := by
  rw [pair_eq] at h
  rcases hk : Grammar.key s with _ | ⟨k, r1⟩
  · rw [hk] at h
    cases h
  · obtain ⟨hkey, hs⟩ := key_sound hk
    rcases hv : Grammar.assign r1 with _ | ⟨v, r2⟩
    · simp only [hk, hv] at h
      cases h
      exact ⟨⟨hkey, by simp⟩, hs⟩
    · obtain ⟨hval, hr⟩ := assign_sound hv
      simp only [hk, hv] at h
      cases h
      refine ⟨⟨hkey, by simpa using hval⟩, ?_⟩
      rw [hs, hr]
      simp [renderPair]

/-- The text of a pair is read to its end. -/
theorem pair_render {p : PairType} (h : IsPair p) :
    Grammar.pair (renderPair p) = some (p, []) := by
  obtain ⟨k, o⟩ := p
  obtain ⟨⟨b, bs, rfl, hb, hbs⟩, hv⟩ := h
  rw [pair_eq]
  cases o with
  | none =>
    have htake : bs.takeWhile isKeyChar = bs := List.takeWhile_eq_self_iff.mpr hbs
    have hdrop : bs.dropWhile isKeyChar = [] := List.dropWhile_eq_nil_iff.mpr hbs
    simp only [renderPair, key_eq, hb, if_true, htake, hdrop]
    rfl
  | some v =>
    have htake : (bs ++ ch '=' :: v).takeWhile isKeyChar = bs := by
      rw [List.takeWhile_append_of_pos hbs, List.takeWhile_cons_of_neg (by decide),
        List.append_nil]
    have hdrop : (bs ++ ch '=' :: v).dropWhile isKeyChar = ch '=' :: v := by
      rw [List.dropWhile_append_of_pos hbs, List.dropWhile_cons_of_neg (by decide)]
    have hvt : v.takeWhile isValueChar = v := List.takeWhile_eq_self_iff.mpr (hv v rfl)
    have hvd : v.dropWhile isValueChar = [] := List.dropWhile_eq_nil_iff.mpr (hv v rfl)
    simp only [renderPair, List.cons_append, key_eq, hb, if_true, htake, hdrop, assign_cons, hvt,
      hvd]

/-! ## The whole query -/

theorem consumes_pair : Consumes Grammar.pair := by
  intro s p r h
  obtain ⟨⟨hkey, _⟩, hs⟩ := pair_sound h
  obtain ⟨b, bs, hk, _⟩ := hkey
  refine ⟨renderPair p, ?_, hs⟩
  obtain ⟨k, o⟩ := p
  cases o <;> simp_all [renderPair]

theorem takeWhile_append_stop {p : UInt8 → Bool} {c : UInt8} (hc : p c = false) (x y : Bytes) :
    (x ++ c :: y).takeWhile p = x.takeWhile p := by
  induction x with
  | nil => simp [hc]
  | cons a x ih => simp only [List.cons_append, List.takeWhile_cons, ih]

theorem dropWhile_append_stop {p : UInt8 → Bool} {c : UInt8} (hc : p c = false) (x y : Bytes) :
    (x ++ c :: y).dropWhile p = x.dropWhile p ++ c :: y := by
  induction x with
  | nil => simp [hc]
  | cons a x ih =>
    simp only [List.cons_append, List.dropWhile_cons, ih]
    split <;> rfl

theorem key_append_ampersand (x y : Bytes) :
    Grammar.key (x ++ ch '&' :: y) =
      (Grammar.key x).map fun r => (r.1, r.2 ++ ch '&' :: y) := by
  cases x with
  | nil =>
    simp only [List.nil_append, key_eq]
    rfl
  | cons b x =>
    simp only [List.cons_append, key_eq, takeWhile_append_stop (c := ch '&') (p := isKeyChar)
      (by decide), dropWhile_append_stop (c := ch '&') (p := isKeyChar) (by decide)]
    split <;> rfl

theorem assign_append_ampersand (x y : Bytes) :
    Grammar.assign (x ++ ch '&' :: y) =
      (Grammar.assign x).map fun r => (r.1, r.2 ++ ch '&' :: y) := by
  cases x with
  | nil =>
    rw [List.nil_append, assign_of_ne (by decide)]
    rfl
  | cons b x =>
    by_cases hb : b = ch '='
    · rw [hb, List.cons_append, assign_cons, assign_cons, takeWhile_append_stop (by decide),
        dropWhile_append_stop (by decide)]
      rfl
    · rw [List.cons_append, assign_of_ne hb, assign_of_ne hb]
      rfl

/-- A pair never looks past an `&`. -/
theorem stopsAt_pair : StopsAt (ch '&') Grammar.pair := by
  intro x y _
  rw [pair_eq, pair_eq, key_append_ampersand]
  rcases Grammar.key x with _ | ⟨k, r⟩
  · rfl
  · simp only [Option.map_some, assign_append_ampersand]
    rcases Grammar.assign r with _ | ⟨v, r'⟩ <;> rfl

/-- **`wms_query` reads its argument segment by segment**, up to the first segment that is
    not a pair to its end. -/
theorem wmsQuery_eq (q : Bytes) :
    wmsQuery q = (readSegments Grammar.pair (q.splitOn (ch '&'))).foldl insertPair [] := by
  rw [← sepBy_splitOn consumes_pair stopsAt_pair]
  unfold wmsQuery WmsQuery.create Grammar.query
  rcases sepBy (ch '&') Grammar.pair q with _ | ⟨m, r⟩ <;> rfl

/-! ## Lookup -/

@[simp] theorem find_nil (key : Bytes) : Params.find [] key = none := rfl

theorem find_insert (m : Params) (k v key : Bytes) :
    (m.insert k v).find key = (m.find key).or (if k = key then some v else none) := by
  unfold Params.insert
  rcases h : m.find k with _ | w
  · simp only [Params.find, List.lookup_append, List.lookup_cons, List.lookup_nil]
    by_cases e : k = key
    · simp [e]
    · have : (key == k) = false := by simpa using fun e' => e e'.symm
      simp [e, this]
  · by_cases e : k = key
    · subst e
      simp [h]
    · simp [e]

/-- The value an `insertPair` would store under a key. -/
def valueFor (key : Bytes) (p : PairType) : Option Bytes :=
  if toLowerCopy (trimCopy p.1) = key then p.2.map fun v => toLowerCopy (trimCopy v) else none

/-- The value of a pair that fits the grammar. -/
theorem valueFor_eq {p : PairType} (h : IsPair p) (key : Bytes) :
    valueFor key p = if toLowerCopy p.1 = key then p.2.map toLowerCopy else none := by
  obtain ⟨k, o⟩ := p
  unfold valueFor
  rw [h.1.trimCopy_eq]
  cases o with
  | none => rfl
  | some v =>
    have htrim := (h.2 v rfl).trimCopy_eq
    simp only [Option.map_some, htrim]

theorem find_insertPair (m : Params) (p : PairType) (key : Bytes) :
    (insertPair m p).find key = (m.find key).or (valueFor key p) := by
  obtain ⟨k, o⟩ := p
  cases o with
  | none => simp [insertPair, valueFor]
  | some v =>
    rw [insertPair, find_insert]
    rfl

/-- The first pair of a key stays. -/
theorem find_foldl_insertPair (ps : List PairType) (m : Params) (key : Bytes) :
    (ps.foldl insertPair m).find key = (m.find key).or (ps.findSome? (valueFor key)) := by
  induction ps generalizing m with
  | nil => simp
  | cons p ps ih =>
    rw [List.foldl_cons, ih, find_insertPair, List.findSome?_cons, Option.or_assoc]
    rcases valueFor key p with _ | v <;> rfl

theorem find_wmsQuery (q key : Bytes) :
    (wmsQuery q).find key =
      (readSegments Grammar.pair (q.splitOn (ch '&'))).findSome? (valueFor key) := by
  rw [wmsQuery_eq, find_foldl_insertPair, find_nil, Option.none_or]

/-- Pairs written as a query are read back. -/
theorem find_wmsQuery_render {ps : List PairType} (hne : ps ≠ []) (h : ∀ p ∈ ps, IsPair p)
    (key : Bytes) :
    (wmsQuery ([ch '&'].intercalate (ps.map renderPair))).find key =
      ps.findSome? (valueFor key) := by
  have hsegs : ps.map renderPair ≠ [] := by rwa [Ne, List.map_eq_nil_iff]
  rw [find_wmsQuery, List.splitOn_intercalate _ (ampersand_free_map h) hsegs,
    readSegments_map fun p hp => pair_render (h p hp)]

/-- **A stored entry comes from one segment**: its key is the segment's text before the `=`,
    its value a prefix of the text behind, over the alphabet of the grammar, both lower-cased. -/
theorem find_wmsQuery_segment {q key value : Bytes} (h : (wmsQuery q).find key = some value) :
    ∃ seg ∈ q.splitOn (ch '&'), ∃ k v r, seg = k ++ ch '=' :: (v ++ r) ∧ IsKey k ∧ IsValue v ∧
      key = toLowerCopy k ∧ value = toLowerCopy v := by
  rw [find_wmsQuery] at h
  obtain ⟨p, hp, hval⟩ := List.exists_of_findSome?_eq_some h
  obtain ⟨seg, hseg, r, hpair⟩ := mem_readSegments hp
  obtain ⟨⟨hk, hv⟩, hs⟩ := pair_sound hpair
  obtain ⟨k, o⟩ := p
  unfold valueFor at hval
  split at hval
  · rename_i hkey
    cases o with
    | none => cases hval
    | some v =>
      cases hval
      refine ⟨seg, hseg, k, v, r, ?_, hk, hv v rfl, ?_, ?_⟩
      · rw [hs]
        simp [renderPair]
      · rw [← hkey, hk.trimCopy_eq]
      · show toLowerCopy (trimCopy v) = _
        rw [(hv v rfl).trimCopy_eq]
  · cases hval

end PaleoServer
