/-
  The order of the parameters of a request.

  `params_` keeps the first value of a key, so pairs of one key must keep their order
  (`SameOrder`). Otherwise the order makes no difference: a key is looked up among the pairs
  that have it (`firstValue_filter`), and the handler reads nothing but what it looks up.

  Proved: `parameter_order_ignored`.
-/
import PaleoServer.RequestParams

namespace PaleoServer

/-- `qs` is `ps` in another order, in which the pairs of one lower-cased key stand as in `ps`. -/
structure SameOrder (ps qs : List PairType) : Prop where
  perm : ps.Perm qs
  stable : ∀ key, ps.filter (lookupKey · = key) = qs.filter (lookupKey · = key)

/-- Neighbours of different keys may be exchanged. -/
theorem sameOrder_swap {p q : PairType} (h : lookupKey p ≠ lookupKey q) (ps : List PairType) :
    SameOrder (p :: q :: ps) (q :: p :: ps) := by
  refine ⟨.swap q p ps, fun key => ?_⟩
  by_cases hp : lookupKey p = key
  · have hq : lookupKey q ≠ key := fun hq => h (hp.trans hq.symm)
    simp [List.filter_cons, hq]
  · simp [List.filter_cons, hp]

/-- A key is looked up among its own pairs. -/
theorem firstValue_filter (key : Bytes) (ps : List PairType) :
    firstValue key (ps.filter (lookupKey · = key)) = firstValue key ps := by
  induction ps with
  | nil => rfl
  | cons p ps ih =>
    obtain ⟨k, o⟩ := p
    rw [List.filter_cons]
    by_cases hkey : toLowerCopy k = key
    · have hkeep : decide (lookupKey (k, o) = key) = true := decide_eq_true hkey
      rw [if_pos hkeep]
      cases o with
      | none => exact ih
      | some v => rw [firstValue, if_pos hkey, firstValue, if_pos hkey]
    · have hdrop : ¬ decide (lookupKey (k, o) = key) = true := fun h => hkey (of_decide_eq_true h)
      rw [if_neg hdrop, ih]
      cases o with
      | none => rfl
      | some v => rw [firstValue, if_neg hkey]

theorem SameOrder.firstValue_eq {ps qs : List PairType} (h : SameOrder ps qs) (key : Bytes) :
    firstValue key qs = firstValue key ps := by
  rw [← firstValue_filter key qs, ← h.stable key, firstValue_filter]

/-- **The order of parameters makes no difference.** Two requests for the same pairs, where
    pairs of one key keep their order, get the same reply and leave the map in the same
    state. -/
theorem parameter_order_ignored {M : Mapnik} {ps qs : List PairType} (hps : ∀ p ∈ ps, IsPair p)
    (horder : SameOrder ps qs) {req req' : Request} (hreq : AsksFor req (renderPairs ps))
    (hreq' : AsksFor req' (renderPairs qs)) (m : M.Map) :
    (handleRequest M req').run m = (handleRequest M req).run m := by
  have hqs : ∀ p ∈ qs, IsPair p := fun p hp => hps p (horder.perm.mem_iff.mpr hp)
  obtain ⟨path, hpath, hquery⟩ := hreq
  obtain ⟨path', hpath', hquery'⟩ := hreq'
  refine run_eq_of_find hpath hpath' ?_ ?_ m
  · have hnil : qs = [] ↔ ps = [] :=
      ⟨fun h => List.perm_nil.mp (h ▸ horder.perm), fun h => List.nil_perm.mp (h ▸ horder.perm)⟩
    rw [hquery, hquery', Bool.eq_iff_iff, List.isEmpty_iff, List.isEmpty_iff,
      renderPairs_eq_nil hps, renderPairs_eq_nil hqs, hnil]
  · intro key
    rw [hquery, hquery', find_wmsQuery_renderPairs hps, find_wmsQuery_renderPairs hqs,
      horder.firstValue_eq]

/-- A request for an image, with two values of one key. -/
theorem parameter_order_ignored_sample :
    let rest := [(bytes "SRS", some (bytes "y")), (bytes "bbox", some (bytes "0,0,1,1")),
      (bytes "width", some (bytes "1")), (bytes "height", some (bytes "1"))]
    let ps := (bytes "layers", some (bytes "roads")) :: (bytes "srs", some (bytes "x")) :: rest
    let qs := (bytes "srs", some (bytes "x")) :: (bytes "layers", some (bytes "roads")) :: rest
    (handleRequest Mapnik.sample (requestFor (renderPairs qs))).run sampleMap =
        (handleRequest Mapnik.sample (requestFor (renderPairs ps))).run sampleMap ∧
      ((handleRequest Mapnik.sample (requestFor (renderPairs qs))).run sampleMap).1.content =
        bytes "roads" := by
  intro rest ps qs
  have hps : ∀ p ∈ ps, IsPair p := by decide +kernel
  have hqs : ∀ p ∈ qs, IsPair p := by decide +kernel
  have horder : SameOrder ps qs := sameOrder_swap (by decide +kernel) rest
  exact ⟨parameter_order_ignored hps horder (asksFor_requestFor hps) (asksFor_requestFor hqs)
    sampleMap, by decide +kernel⟩

end PaleoServer
