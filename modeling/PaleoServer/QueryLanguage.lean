/-
  The queries the grammar of `src/uri_grammer.hpp` describes, without the parser.

  `Decomposes p ps`: `p` is the text of the pairs `ps`. A decomposition is unique, and the
  grammar reads the longest prefix of a query that has one (`readsLongest_query`), so
  `wms_query` stores of each key the first value that stands in this prefix, and reports a
  failure when there is no such prefix (`wmsQuery_longest`).
-/
import PaleoServer.QueryString

namespace PaleoServer

open Peg

/-! ## The language -/

/-- Pairs joined with `&`. -/
def renderPairs (ps : List PairType) : Bytes := [ch '&'].intercalate (ps.map renderPair)

/-- `p` is the text of the pairs `ps`, of which there is at least one. -/
def Decomposes (p : Bytes) (ps : List PairType) : Prop :=
  (ps ≠ [] ∧ ∀ x ∈ ps, IsPair x) ∧ p = renderPairs ps

/-- `p` is one pair, or pairs joined with `&`. -/
def InLanguage (p : Bytes) : Prop := ∃ ps, Decomposes p ps

/-- `p` is the longest prefix of `q` in the language. -/
structure LongestPrefix (p q : Bytes) : Prop where
  mem : InLanguage p
  isPrefix : p <+: q
  longest : ∀ p', InLanguage p' → p' <+: q → p'.length ≤ p.length

/-- The lower-cased value of the first pair of a lower-cased key that has an `=`. -/
def firstValue (key : Bytes) : List PairType → Option Bytes
  | [] => none
  | (_, none) :: ps => firstValue key ps
  | (k, some v) :: ps => if toLowerCopy k = key then some (toLowerCopy v) else firstValue key ps

/-- What an `insertPair` stores is what stands in the pair. -/
theorem findSome?_valueFor {ps : List PairType} (h : ∀ p ∈ ps, IsPair p) (key : Bytes) :
    ps.findSome? (valueFor key) = firstValue key ps := by
  induction ps with
  | nil => rfl
  | cons p ps ih =>
    obtain ⟨hp, hps⟩ := List.forall_mem_cons.mp h
    rw [List.findSome?_cons, ih hps, valueFor_eq hp]
    obtain ⟨k, o⟩ := p
    cases o with
    | none => simp [firstValue]
    | some v =>
      rw [firstValue]
      by_cases hkey : toLowerCopy k = key
      · rw [if_pos hkey, if_pos hkey, Option.map_some]
      · rw [if_neg hkey, if_neg hkey]

theorem firstValue_append (key : Bytes) (ps qs : List PairType) :
    firstValue key (ps ++ qs) = (firstValue key ps).or (firstValue key qs) := by
  fun_induction firstValue key ps with
  | case1 => rfl
  | case2 k ps ih => exact ih
  | case3 k v ps hkey => rw [List.cons_append, firstValue, if_pos hkey, Option.some_or]
  | case4 k v ps hkey ih => rw [List.cons_append, firstValue, if_neg hkey, ih]

/-- Pairs written as a query are read back; no pairs are the empty query. -/
theorem find_wmsQuery_renderPairs {ps : List PairType} (h : ∀ p ∈ ps, IsPair p) (key : Bytes) :
    (wmsQuery (renderPairs ps)).find key = firstValue key ps := by
  by_cases hnil : ps = []
  · subst hnil
    rfl
  · rw [← findSome?_valueFor h]
    exact find_wmsQuery_render hnil h key

/-! ## The grammar reads the longest prefix -/

/-- A key runs on as far as the alphabet goes. -/
theorem key_longest {k : Bytes} (hk : IsKey k) (t : Bytes) :
    Grammar.key (k ++ t) = some (k ++ t.takeWhile isKeyChar, t.dropWhile isKeyChar) := by
  obtain ⟨b, bs, rfl, hb, hbs⟩ := hk
  rw [List.cons_append, key_eq]
  simp only [hb, if_true]
  rw [List.takeWhile_append_of_pos hbs, List.dropWhile_append_of_pos hbs, List.cons_append]

/-- The longest prefix of a string that is a pair is read. -/
theorem readsLongest_pair : ReadsLongest Grammar.pair renderPair IsPair where
  sound := pair_sound
  exact := pair_render
  longest {p} hp t := by
    obtain ⟨k, o⟩ := p
    rw [pair_eq]
    cases o with
    | none =>
      have hread := key_longest hp.1 t
      have htext : renderPair (k, none) ++ t = k ++ t := rfl
      rw [htext]
      simp only [hread]
      rcases Grammar.assign (t.dropWhile isKeyChar) with _ | ⟨v, r⟩
      · exact ⟨_, t.takeWhile isKeyChar, _, rfl, rfl⟩
      · refine ⟨_, t.takeWhile isKeyChar ++ ch '=' :: v, r, rfl, ?_⟩
        simp [renderPair]
    | some v =>
      have hread : Grammar.key (k ++ ch '=' :: (v ++ t)) = some (k, ch '=' :: (v ++ t)) := by
        rw [key_longest hp.1, List.takeWhile_cons_of_neg (by decide),
          List.dropWhile_cons_of_neg (by decide), List.append_nil]
      have htext : renderPair (k, some v) ++ t = k ++ ch '=' :: (v ++ t) := by
        simp [renderPair]
      rw [htext]
      simp only [hread, assign_cons, List.takeWhile_append_of_pos (hp.2 v rfl)]
      refine ⟨_, t.takeWhile isValueChar, _, rfl, ?_⟩
      simp [renderPair]

/-- The longest prefix of a string that is in the language is read. -/
theorem readsLongest_query : ReadsLongest Grammar.query renderPairs
    (fun ps => ps ≠ [] ∧ ∀ p ∈ ps, IsPair p) :=
  readsLongest_pair.sepBy consumes_pair stopsAt_pair fun _ hp => hp.ampersand_free

/-- Pairs have one text, and a text one list of pairs. -/
theorem Decomposes.unique {p : Bytes} {ps ps' : List PairType} (h : Decomposes p ps)
    (h' : Decomposes p ps') : ps' = ps :=
  readsLongest_query.text_inj h'.1 h.1 (h'.2.symm.trans h.2)

/-- A query that is parsed begins with the text of its pairs, and with nothing longer. -/
theorem longestPrefix_of_query {q r : Bytes} {ps : List PairType}
    (h : Grammar.query q = some (ps, r)) :
    LongestPrefix (renderPairs ps) q ∧ Decomposes (renderPairs ps) ps := by
  obtain ⟨hps, hq⟩ := readsLongest_query.sound h
  have hdec : Decomposes (renderPairs ps) ps := ⟨hps, rfl⟩
  refine ⟨⟨⟨ps, hdec⟩, ⟨r, hq.symm⟩, ?_⟩, hdec⟩
  rintro p' ⟨ps', hps', rfl⟩ hprefix'
  exact (readsLongest_query.maximal h hps' hprefix').length_le

theorem find_wmsQuery_of_query {q r : Bytes} {ps : List PairType}
    (h : Grammar.query q = some (ps, r)) (key : Bytes) :
    (wmsQuery q).find key = firstValue key ps := by
  have hps := (readsLongest_query.sound h).1.2
  rw [wmsQuery_of_parsed h]
  simp only [find_foldl_insertPair, find_nil, Option.none_or]
  exact findSome?_valueFor hps key

/-- The constructor reports a failure when the parser fails. -/
theorem create_failed_iff (q : Bytes) :
    WmsQuery.create q = (bytes "Parsing failed\n", []) ↔ Grammar.query q = none := by
  unfold WmsQuery.create
  rcases Grammar.query q with _ | ⟨ps, r⟩
  · simp
  · simp [bytes]

/-- **`wms_query` stores exactly the longest prefix of the query in the language**: the
    constructor reports a failure and stores nothing iff there is none, and otherwise it reports
    nothing and each key has the value of the first pair of the prefix that has this key and
    an `=`. -/
theorem wmsQuery_longest (q : Bytes) :
    (WmsQuery.create q = (bytes "Parsing failed\n", []) ↔ ¬ ∃ p, InLanguage p ∧ p <+: q) ∧
    (Grammar.query q = none ↔ ¬ ∃ p, InLanguage p ∧ p <+: q) ∧
    (Grammar.query q = none → wmsQuery q = []) ∧
    ((∃ p, InLanguage p ∧ p <+: q) → (WmsQuery.create q).1 = [] ∧
      ∃ p ps, LongestPrefix p q ∧ Decomposes p ps ∧
      (∀ ps', Decomposes p ps' → ps' = ps) ∧
      ∀ key, (wmsQuery q).find key = firstValue key ps) := by
  have hfail : Grammar.query q = none ↔ ¬ ∃ p, InLanguage p ∧ p <+: q := by
    rw [readsLongest_query.eq_none_iff]
    constructor
    · rintro hno ⟨_, ⟨ps, hps, rfl⟩, hq⟩
      exact hno ⟨ps, hps, hq⟩
    · rintro hno ⟨ps, hps, hq⟩
      exact hno ⟨_, ⟨ps, hps, rfl⟩, hq⟩
  refine ⟨(create_failed_iff q).trans hfail, hfail, wmsQuery_of_failed, ?_⟩
  intro hsome
  obtain ⟨⟨ps, r⟩, hq⟩ := Option.ne_none_iff_exists'.mp fun hnone => hfail.mp hnone hsome
  obtain ⟨hlong, hdec⟩ := longestPrefix_of_query hq
  refine ⟨?_, _, ps, hlong, hdec, fun _ h' => hdec.unique h', find_wmsQuery_of_query hq⟩
  unfold WmsQuery.create
  rw [hq]

end PaleoServer
