/-
  A request by its parameters.

  `queryParams` is the query that `handle_request` constructs, `AsksFor` says which text it is
  constructed from, and for the text of pairs its entries are known (`AsksFor.find_pairs`).
  `Carries` is what has to be there besides a size; then only the size decides whether the
  request is accepted (`Carries.readGetMap_eq`).
-/
import PaleoServer.QueryLanguage
import PaleoServer.UriText

namespace PaleoServer

/-! ## The query of a request -/

/-- The query that `handle_request` constructs from the uri. -/
def queryParams (req : Request) : Params := wmsQuery (queryOf (urlDecode req.uri []).2)

/-- The uri of the request is decoded to a text with `query` behind its first `?`. -/
def AsksFor (req : Request) (query : Bytes) : Prop :=
  ∃ path, urlDecode req.uri [] = (true, path) ∧ queryOf path = query

theorem AsksFor.queryParams_eq {req : Request} {query : Bytes} (h : AsksFor req query) :
    queryParams req = wmsQuery query := by
  obtain ⟨path, hpath, hquery⟩ := h
  rw [queryParams, hpath, hquery]

theorem AsksFor.find_pairs {req : Request} {ps : List PairType} (h : AsksFor req (renderPairs ps))
    (hps : ∀ p ∈ ps, IsPair p) (key : Bytes) : (queryParams req).find key = firstValue key ps := by
  rw [h.queryParams_eq, find_wmsQuery_renderPairs hps]

variable {M : Mapnik}

theorem Accepts.query_eq {req : Request} {g : GetMap M} (h : Accepts M req g) :
    g.query = queryParams req := by
  obtain ⟨path, hpath, _, hquery⟩ := h.path
  rw [hquery, queryParams, hpath]

/-! ## Requests for pairs -/

/-- A request whose uri is the query behind `/?`. -/
def requestFor (query : Bytes) : Request := { Request.empty with uri := bytes "/?" ++ query }

/-- Pairs need no escapes. -/
theorem renderPairs_plain {ps : List PairType} (h : ∀ p ∈ ps, IsPair p) :
    ∀ b ∈ renderPairs ps, b ≠ ch '%' ∧ b ≠ ch '+' := by
  have hchar : ∀ v, IsValue v → ∀ b ∈ v, b ≠ ch '%' ∧ b ≠ ch '+' := fun v hv b hb =>
    ⟨(isValueChar_sent b (hv b hb)).1, (isValueChar_sent b (hv b hb)).2.1⟩
  refine forall_mem_intercalate (by decide) fun s hs => ?_
  obtain ⟨⟨k, o⟩, hp, rfl⟩ := List.mem_map.mp hs
  have hk := hchar k fun b hb => isValueChar_of_isKeyChar b ((h _ hp).1.chars b hb)
  cases o with
  | none => exact hk
  | some v =>
    have hv := hchar v ((h _ hp).2 v rfl)
    rw [renderPair, List.forall_mem_append, List.forall_mem_cons]
    exact ⟨hk, by decide, hv⟩

theorem asksFor_requestFor {ps : List PairType} (h : ∀ p ∈ ps, IsPair p) :
    AsksFor (requestFor (renderPairs ps)) (renderPairs ps) := by
  have hfront : DecodesTo (bytes "/?") (bytes "/?") := rfl
  have hquery := decodesTo_of_plain (renderPairs_plain h)
  exact ⟨_, hfront.append hquery, rfl⟩

/-- A list of pairs is written as the empty query only when there are none. -/
theorem renderPairs_eq_nil {ps : List PairType} (h : ∀ p ∈ ps, IsPair p) :
    renderPairs ps = [] ↔ ps = [] := by
  constructor
  · intro hnil
    by_contra hne
    have hread := readsLongest_query.exact ⟨hne, h⟩
    rw [hnil] at hread
    cases hread
  · rintro rfl
    rfl

/-! ## All but the size -/

/-- The request has a bounding box that can be read, layers and a reference system. -/
structure Carries (M : Mapnik) (req : Request) (bbox : M.Envelope) (layerString srs : Bytes) :
    Prop where
  decoded : (urlDecode req.uri []).1 = true
  bbox : ∃ s, getBboxString (queryParams req) = some s ∧
    bboxFromString M.lexicalCast M.init M.envelope s = (true, bbox)
  layers : getLayerString (queryParams req) = some layerString
  srs : getSrs (queryParams req) = some srs

/-- **Then the size decides.** -/
theorem Carries.readGetMap_eq {req : Request} {bbox : M.Envelope} {layerString srs : Bytes}
    (hreq : Carries M req bbox layerString srs) {w h : UInt32}
    (hw : getWidth (queryParams req) = some w) (hh : getHeight (queryParams req) = some h) :
    readGetMap M req =
      if w = 0 ∨ h = 0 then .error (replyHtml (sizeError "width and height must be > 0." w h))
      else .ok ⟨queryParams req, bbox, w, h, layerString, srs⟩ := by
  obtain ⟨hdecoded, ⟨s, hs, hbox⟩, hlayers, hsrs⟩ := hreq
  have hsize : readSize (queryParams req) = .ok (w, h) := (readSize_ok_iff _ _).mpr ⟨hw, hh⟩
  unfold queryParams at hs hlayers hsrs hsize ⊢
  rcases hpath : urlDecode req.uri [] with ⟨ok, path⟩
  rw [hpath] at hdecoded hs hlayers hsrs hsize
  simp only at hdecoded hs hlayers hsrs hsize
  have hne : (queryOf path).isEmpty = false := by
    by_contra hnil
    rw [Bool.not_eq_false, List.isEmpty_iff] at hnil
    rw [hnil] at hs
    cases hs
  simp only [readGetMap, hpath, hdecoded, hne, hs, hsize, hlayers, hsrs, orReturn, returnIf, bind,
    Except.bind, hbox, Bool.not_true, Bool.false_eq_true, if_false]
  by_cases hzero : w = 0 ∨ h = 0
  · have hrefuse : (w == 0 || h == 0) = true := by simpa using hzero
    rw [if_pos hzero, hrefuse]
    rfl
  · have hpass : (w == 0 || h == 0) = false := by simpa using hzero
    rw [if_neg hzero, hpass]
    rfl

theorem carries_of_pairs {req : Request} {ps : List PairType} (hps : ∀ p ∈ ps, IsPair p)
    (hreq : AsksFor req (renderPairs ps)) {s layerString srs : Bytes} {bbox : M.Envelope}
    (hs : firstValue (bytes "bbox") ps = some s)
    (hbbox : bboxFromString M.lexicalCast M.init M.envelope s = (true, bbox))
    (hlayers : firstValue (bytes "layers") ps = some layerString)
    (hsrs : firstValue (bytes "srs") ps = some srs) : Carries M req bbox layerString srs where
  decoded := by
    obtain ⟨path, hpath, _⟩ := hreq
    rw [hpath]
  bbox := ⟨s, (hreq.find_pairs hps _).trans hs, hbbox⟩
  layers := (hreq.find_pairs hps _).trans hlayers
  srs := (hreq.find_pairs hps _).trans hsrs

/-! ## A small request -/

/-- Pairs of a GetMap request, `ps` behind the ones that are needed. -/
def sizedPairs (width height : Bytes) (ps : List PairType) : List PairType :=
  [(bytes "bbox", some (bytes "0,0,1,1")), (bytes "layers", some (bytes "roads")),
    (bytes "srs", some (bytes "x")), (bytes "width", some width),
    (bytes "height", some height)] ++ ps

def sizedRequest (width height : Bytes) (ps : List PairType) : Request :=
  requestFor (renderPairs (sizedPairs width height ps))

theorem isPair_sizedPairs {width height : Bytes} {ps : List PairType} (hw : IsValue width)
    (hh : IsValue height) (hps : ∀ p ∈ ps, IsPair p) :
    ∀ p ∈ sizedPairs width height ps, IsPair p := by
  have hkey : IsKey (bytes "bbox") ∧ IsKey (bytes "layers") ∧ IsKey (bytes "srs") ∧
      IsKey (bytes "width") ∧ IsKey (bytes "height") := by decide +kernel
  have hvalue : IsValue (bytes "0,0,1,1") ∧ IsValue (bytes "roads") ∧ IsValue (bytes "x") := by
    decide +kernel
  simp only [sizedPairs, List.cons_append, List.nil_append, List.forall_mem_cons, IsPair,
    Option.mem_def, Option.some.injEq, forall_eq']
  exact ⟨⟨hkey.1, hvalue.1⟩, ⟨hkey.2.1, hvalue.2.1⟩, ⟨hkey.2.2.1, hvalue.2.2⟩,
    ⟨hkey.2.2.2.1, hw⟩, ⟨hkey.2.2.2.2, hh⟩, hps⟩

theorem find_sizedRequest {width height : Bytes} {ps : List PairType} (hw : IsValue width)
    (hh : IsValue height) (hps : ∀ p ∈ ps, IsPair p) (key : Bytes) :
    (queryParams (sizedRequest width height ps)).find key =
      firstValue key (sizedPairs width height ps) :=
  (asksFor_requestFor (isPair_sizedPairs hw hh hps)).find_pairs (isPair_sizedPairs hw hh hps) key

theorem carries_sizedRequest {width height : Bytes} {ps : List PairType} (hw : IsValue width)
    (hh : IsValue height) (hps : ∀ p ∈ ps, IsPair p) :
    Carries Mapnik.sample (sizedRequest width height ps) (0, 0, 1, 1) (bytes "roads")
      (bytes "x") :=
  carries_of_pairs (isPair_sizedPairs hw hh hps) (asksFor_requestFor (isPair_sizedPairs hw hh hps))
    (s := bytes "0,0,1,1") rfl rfl rfl rfl

/-- It is accepted with a width and a height of 1. -/
theorem readGetMap_sizedRequest {ps : List PairType} (hps : ∀ p ∈ ps, IsPair p) :
    ∃ g, readGetMap Mapnik.sample (sizedRequest (bytes "1") (bytes "1") ps) = .ok g := by
  have hone : IsValue (bytes "1") := by decide +kernel
  have hfind := find_sizedRequest hone hone hps
  have hw : getWidth (queryParams (sizedRequest (bytes "1") (bytes "1") ps)) = some 1 := by
    rw [getWidth, hfind]
    rfl
  have hh : getHeight (queryParams (sizedRequest (bytes "1") (bytes "1") ps)) = some 1 := by
    rw [getHeight, hfind]
    rfl
  exact ⟨_, (carries_sizedRequest hone hone hps).readGetMap_eq hw hh⟩

end PaleoServer
