/-
  A query with one segment that is not a pair.

  Nothing takes the parser past such a segment: the constructor of `wms_query` keeps what was
  read before it and does not check that the query was read to its end. So the query is, but
  for the segment's own key, the query of the segments before (`unreadable_segment_cuts`), and
  the parameters behind it are lost (`empty_segment_loses_parameter`).
-/
import PaleoServer.QueryLanguage
import PaleoServer.EncodedDelimiters

namespace PaleoServer

open Peg

/-- The query of pairs, the segment `bad`, and pairs. -/
def queryWith (ps : List PairType) (bad : Bytes) (qs : List PairType) : Bytes :=
  [ch '&'].intercalate (ps.map renderPair ++ bad :: qs.map renderPair)

/-- A segment that is not the text of a pair. -/
structure Unreadable (bad : Bytes) : Prop where
  ampersand_free : ch '&' ∉ bad
  not_pair : ∀ p, IsPair p → renderPair p ≠ bad

/-- The segment affects only its own key: every other key is found as if it were not there. -/
def AffectsOnlyItself (ps : List PairType) (bad : Bytes) (qs : List PairType) : Prop :=
  ∀ key, key ≠ toLowerCopy (segmentKey bad) →
    (wmsQuery (queryWith ps bad qs)).find key = (wmsQuery (renderPairs (ps ++ qs))).find key

/-- What is read of the segment, and that nothing is read behind it. -/
theorem readSegments_unreadable {bad : Bytes} (h : Unreadable bad) (segs : List Bytes) :
    ∀ p ∈ readSegments Grammar.pair (bad :: segs), IsPair p ∧
      ∀ v, p.2 = some v → p.1 = segmentKey bad := by
  intro p hp
  rw [readSegments] at hp
  rcases hbad : Grammar.pair bad with _ | ⟨q, _ | ⟨b, r⟩⟩
  · rw [hbad] at hp
    cases hp
  · obtain ⟨hq, htext⟩ := pair_sound hbad
    rw [List.append_nil] at htext
    exact absurd htext.symm (h.not_pair q hq)
  · simp only [hbad, List.mem_singleton] at hp
    subst hp
    obtain ⟨hq, htext⟩ := pair_sound hbad
    refine ⟨hq, fun v hv => ?_⟩
    obtain ⟨k, o⟩ := p
    simp only at hv
    subst hv
    have hassign : ch '=' ∉ k := hq.1.assign_free
    rw [htext, renderPair, List.append_assoc, List.cons_append, (segment_append hassign _).1]

/-- The segment gives nothing for a key that is not its own. -/
theorem findSome?_unreadable {bad : Bytes} (h : Unreadable bad) (segs : List Bytes) {key : Bytes}
    (hkey : key ≠ toLowerCopy (segmentKey bad)) :
    (readSegments Grammar.pair (bad :: segs)).findSome? (valueFor key) = none := by
  rw [List.findSome?_eq_none_iff]
  intro p hp
  obtain ⟨hpair, hown⟩ := readSegments_unreadable h segs p hp
  obtain ⟨k, o⟩ := p
  cases o with
  | none => simp [valueFor]
  | some v =>
    have hk : k = segmentKey bad := hown v rfl
    unfold valueFor
    rw [if_neg]
    rw [hpair.1.trimCopy_eq, hk]
    exact hkey.symm

/-- **A segment that is not a pair cuts the query off.** Any key but its own is found as in the
    query of the segments before it. That is how it is found without the segment exactly when
    a pair before the segment gives it a value, or no pair behind the segment does. -/
theorem unreadable_segment_cuts {ps qs : List PairType} {bad : Bytes} (hps : ∀ p ∈ ps, IsPair p)
    (hqs : ∀ p ∈ qs, IsPair p) (hbad : Unreadable bad) {key : Bytes}
    (hkey : key ≠ toLowerCopy (segmentKey bad)) :
    (wmsQuery (queryWith ps bad qs)).find key = (wmsQuery (renderPairs ps)).find key ∧
    ((wmsQuery (queryWith ps bad qs)).find key = (wmsQuery (renderPairs (ps ++ qs))).find key ↔
      firstValue key ps ≠ none ∨ firstValue key qs = none) := by
  have hfree : ∀ seg ∈ ps.map renderPair ++ bad :: qs.map renderPair, ch '&' ∉ seg := by
    rw [List.forall_mem_append, List.forall_mem_cons]
    exact ⟨ampersand_free_map hps, hbad.ampersand_free, ampersand_free_map hqs⟩
  have hcut : (wmsQuery (queryWith ps bad qs)).find key = firstValue key ps := by
    rw [find_wmsQuery, queryWith, List.splitOn_intercalate _ hfree (by simp),
      readSegments_append fun p hp => pair_render (hps p hp), List.findSome?_append,
      findSome?_unreadable hbad _ hkey, Option.or_none, findSome?_valueFor hps]
  have hall : ∀ p ∈ ps ++ qs, IsPair p := List.forall_mem_append.mpr ⟨hps, hqs⟩
  rw [hcut, find_wmsQuery_renderPairs hps, find_wmsQuery_renderPairs hall, firstValue_append]
  refine ⟨rfl, ?_⟩
  rcases firstValue key ps with _ | v
  · rw [Option.none_or]
    simp [eq_comm]
  · simp

theorem unreadable_nil : Unreadable [] := by
  refine ⟨List.not_mem_nil, fun p hp hnil => ?_⟩
  obtain ⟨⟨b, bs, hk, _⟩, _⟩ := hp
  obtain ⟨k, o⟩ := p
  cases o <;> simp_all [renderPair]

/-- Parameters around an empty segment. -/
theorem unreadable_segment_cuts_sample :
    (wmsQuery (queryWith [(bytes "a", some (bytes "1"))] [] [(bytes "b", some (bytes "2"))])).find
      (bytes "a") = (wmsQuery (renderPairs [(bytes "a", some (bytes "1"))])).find (bytes "a") :=
  (unreadable_segment_cuts (by decide +kernel) (by decide +kernel) unreadable_nil (by decide)).1

/-- An empty segment between two parameters loses the second. -/
theorem empty_segment_loses_parameter : ¬ ∀ ps bad qs, (∀ p ∈ ps, IsPair p) →
    (∀ p ∈ qs, IsPair p) → Unreadable bad → AffectsOnlyItself ps bad qs := by
  intro h
  have heq := h [(bytes "a", some (bytes "1"))] [] [(bytes "b", some (bytes "2"))]
    (by decide +kernel) (by decide +kernel) unreadable_nil (bytes "b") (by decide)
  exact absurd heq (by decide +kernel)

end PaleoServer
