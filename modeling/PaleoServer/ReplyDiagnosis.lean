/-
  What a reply tells the client.

  The handler makes its checks in one order and answers the first that fails. `Refused` says of
  a request which one that is, without the handler; `Refusal.reply` is the answer. Proved:
  `reply_diagnoses`. A client gets the answer of a refusal exactly when its request is refused
  for that reason, so no two reasons share an answer and no image looks like one; and a
  request that is refused for no reason is accepted.

  Two things can be seen in the definition of `Refused`. All but the first are answered with
  the status 200. And where the width is missing the answer shows it as 0, as it does where the
  width is 0 and the height missing.
-/
import PaleoServer.RequestParams

namespace PaleoServer

variable {M : Mapnik}

/-! ## Reasons -/

/-- Why a request gets no image. -/
inductive Refusal where
  | undecodable
  | noQuery
  | noBbox
  | badBbox
  | noSize (w : UInt32)
  | zeroSize (w h : UInt32)
  | noLayers
  | noSrs
  deriving DecidableEq, Repr

def Refusal.reply : Refusal → Reply
  | .undecodable => stockReply .badRequest
  | .noQuery => replyHtml (bytes "Ready to accept Query")
  | .noBbox => replyHtml (bytes "missing bbox")
  | .badBbox => replyHtml (bytes "failed to parse bbox")
  | .noSize w => replyHtml (sizeError "missing width or height." w 0)
  | .zeroSize w h => replyHtml (sizeError "width and height must be > 0." w h)
  | .noLayers => replyHtml (bytes "missing layers")
  | .noSrs => replyHtml (bytes "missing srs")

/-- The uri is decoded and the bounding box is read. -/
structure HasBbox (M : Mapnik) (req : Request) : Prop where
  decoded : (urlDecode req.uri []).1 = true
  bbox : ∃ s, getBboxString (queryParams req) = some s ∧
    (bboxFromString M.lexicalCast M.init M.envelope s).1 = true

/-- So is a size that is not 0. -/
structure HasImageSize (M : Mapnik) (req : Request) : Prop extends HasBbox M req where
  size : ∃ w h, getWidth (queryParams req) = some w ∧ getHeight (queryParams req) = some h ∧
    w ≠ 0 ∧ h ≠ 0

/-- The first check that fails. -/
def Refused (M : Mapnik) (req : Request) : Refusal → Prop
  | .undecodable => (urlDecode req.uri []).1 = false
  | .noQuery => (urlDecode req.uri []).1 = true ∧ queryOf (urlDecode req.uri []).2 = []
  | .noBbox => (urlDecode req.uri []).1 = true ∧ queryOf (urlDecode req.uri []).2 ≠ [] ∧
      getBboxString (queryParams req) = none
  | .badBbox => (urlDecode req.uri []).1 = true ∧ ∃ s, getBboxString (queryParams req) = some s ∧
      (bboxFromString M.lexicalCast M.init M.envelope s).1 = false
  | .noSize w => HasBbox M req ∧ (getWidth (queryParams req) = none ∧ w = 0 ∨
      getWidth (queryParams req) = some w ∧ getHeight (queryParams req) = none)
  | .zeroSize w h => HasBbox M req ∧ getWidth (queryParams req) = some w ∧
      getHeight (queryParams req) = some h ∧ (w = 0 ∨ h = 0)
  | .noLayers => HasImageSize M req ∧ getLayerString (queryParams req) = none
  | .noSrs => HasImageSize M req ∧ (getLayerString (queryParams req)).isSome ∧
      getSrs (queryParams req) = none

/-! ## The order of the checks -/

/-- A request with a parameter has a query. -/
theorem query_ne_nil {req : Request} {key v : Bytes} (h : (queryParams req).find key = some v) :
    queryOf (urlDecode req.uri []).2 ≠ [] := by
  intro hnil
  unfold queryParams at h
  rw [hnil] at h
  cases h

/-- From the bounding box on. -/
theorem readGetMap_of_query {req : Request} (hdecoded : (urlDecode req.uri []).1 = true)
    (hquery : queryOf (urlDecode req.uri []).2 ≠ []) :
    readGetMap M req = (do
      let bboxString ← orReturn (getBboxString (queryParams req)) (replyHtml (bytes "missing bbox"))
      let (success, bbox) := bboxFromString M.lexicalCast M.init M.envelope bboxString
      returnIf (!success) (replyHtml (bytes "failed to parse bbox"))
      let (w, h) ← readSize (queryParams req)
      returnIf (w == 0 || h == 0) (replyHtml (sizeError "width and height must be > 0." w h))
      let layerString ← orReturn (getLayerString (queryParams req))
        (replyHtml (bytes "missing layers"))
      let srs ← orReturn (getSrs (queryParams req)) (replyHtml (bytes "missing srs"))
      return { query := queryParams req, bbox, w, h, layerString, srs }) := by
  have hempty : (queryOf (urlDecode req.uri []).2).isEmpty = false := by
    rw [List.isEmpty_eq_false_iff]
    exact hquery
  unfold queryParams
  rcases hpath : urlDecode req.uri [] with ⟨ok, path⟩
  rw [hpath] at hdecoded hempty
  simp only at hdecoded hempty
  simp only [readGetMap, hpath, hdecoded, hempty]
  rfl

/-- From the size on. -/
theorem readGetMap_of_bbox {req : Request} (h : HasBbox M req) :
    ∃ bbox, readGetMap M req = (do
      let (w, h) ← readSize (queryParams req)
      returnIf (w == 0 || h == 0) (replyHtml (sizeError "width and height must be > 0." w h))
      let layerString ← orReturn (getLayerString (queryParams req))
        (replyHtml (bytes "missing layers"))
      let srs ← orReturn (getSrs (queryParams req)) (replyHtml (bytes "missing srs"))
      return { query := queryParams req, bbox, w, h, layerString, srs }) := by
  obtain ⟨hdecoded, s, hs, hbox⟩ := h
  rw [readGetMap_of_query hdecoded (query_ne_nil hs), hs]
  rcases hb : bboxFromString M.lexicalCast M.init M.envelope s with ⟨success, bbox⟩
  rw [hb] at hbox
  refine ⟨bbox, ?_⟩
  simp only [orReturn, returnIf, bind, Except.bind, hb, hbox, Bool.not_true, Bool.false_eq_true,
    if_false]

/-- From the layers on. -/
theorem readGetMap_of_size {req : Request} (h : HasImageSize M req) :
    ∃ bbox w h, readGetMap M req = (do
      let layerString ← orReturn (getLayerString (queryParams req))
        (replyHtml (bytes "missing layers"))
      let srs ← orReturn (getSrs (queryParams req)) (replyHtml (bytes "missing srs"))
      return { query := queryParams req, bbox, w, h, layerString, srs }) := by
  obtain ⟨hbbox, w, h, hw, hh, hw0, hh0⟩ := h
  obtain ⟨bbox, heq⟩ := readGetMap_of_bbox hbbox
  refine ⟨bbox, w, h, ?_⟩
  have hsize : readSize (queryParams req) = .ok (w, h) := (readSize_ok_iff _ _).mpr ⟨hw, hh⟩
  have hpass : (w == 0 || h == 0) = false := by simp [hw0, hh0]
  rw [heq, hsize]
  simp only [returnIf, bind, Except.bind, hpass, Bool.false_eq_true, if_false]

/-- A request that is refused gets the answer of the reason. -/
theorem Refused.readGetMap_eq {req : Request} {r : Refusal} (h : Refused M req r) :
    readGetMap M req = .error r.reply := by
  cases r with
  | undecodable =>
    rcases hpath : urlDecode req.uri [] with ⟨ok, path⟩
    have hno : ok = false := by
      have := h
      rwa [Refused, hpath] at this
    simp only [readGetMap, hpath, hno]
    rfl
  | noQuery =>
    obtain ⟨hdecoded, hquery⟩ := h
    rcases hpath : urlDecode req.uri [] with ⟨ok, path⟩
    rw [hpath] at hdecoded hquery
    simp only at hdecoded hquery
    simp only [readGetMap, hpath, hdecoded, hquery]
    rfl
  | noBbox =>
    obtain ⟨hdecoded, hquery, hnone⟩ := h
    rw [readGetMap_of_query hdecoded hquery, hnone]
    rfl
  | badBbox =>
    obtain ⟨hdecoded, s, hs, hbad⟩ := h
    rw [readGetMap_of_query hdecoded (query_ne_nil hs), hs]
    simp only [orReturn, returnIf, bind, Except.bind, hbad]
    rfl
  | noSize w =>
    obtain ⟨hbbox, hsize⟩ := h
    obtain ⟨bbox, heq⟩ := readGetMap_of_bbox hbbox
    rw [heq]
    unfold readSize
    rcases hsize with ⟨hw, rfl⟩ | ⟨hw, hh⟩
    · rw [hw]
      rfl
    · rw [hw, hh]
      rfl
  | zeroSize w h' =>
    obtain ⟨hbbox, hw, hh, hzero⟩ := h
    obtain ⟨bbox, heq⟩ := readGetMap_of_bbox hbbox
    have hsize : readSize (queryParams req) = .ok (w, h') := (readSize_ok_iff _ _).mpr ⟨hw, hh⟩
    have hrefuse : (w == 0 || h' == 0) = true := by simpa using hzero
    rw [heq, hsize]
    simp only [returnIf, bind, Except.bind, hrefuse]
    rfl
  | noLayers =>
    obtain ⟨hsize, hnone⟩ := h
    obtain ⟨bbox, w, h, heq⟩ := readGetMap_of_size hsize
    rw [heq, hnone]
    rfl
  | noSrs =>
    obtain ⟨hsize, hlayers, hnone⟩ := h
    obtain ⟨bbox, w, h, heq⟩ := readGetMap_of_size hsize
    obtain ⟨l, hl⟩ := Option.isSome_iff_exists.mp hlayers
    rw [heq, hl, hnone]
    rfl

/-- Every request is refused for some reason or accepted. -/
theorem refused_or_accepted (M : Mapnik) (req : Request) :
    (∃ r, Refused M req r) ∨ ∃ g, readGetMap M req = .ok g := by
  rcases hdecoded : (urlDecode req.uri []).1 with _ | _
  · exact .inl ⟨.undecodable, hdecoded⟩
  by_cases hquery : queryOf (urlDecode req.uri []).2 = []
  · exact .inl ⟨.noQuery, hdecoded, hquery⟩
  rcases hs : getBboxString (queryParams req) with _ | s
  · exact .inl ⟨.noBbox, hdecoded, hquery, hs⟩
  rcases hbox : (bboxFromString M.lexicalCast M.init M.envelope s).1 with _ | _
  · exact .inl ⟨.badBbox, hdecoded, s, hs, hbox⟩
  have hbbox : HasBbox M req := ⟨hdecoded, s, hs, hbox⟩
  rcases hw : getWidth (queryParams req) with _ | w
  · exact .inl ⟨.noSize 0, hbbox, .inl ⟨hw, rfl⟩⟩
  rcases hh : getHeight (queryParams req) with _ | h
  · exact .inl ⟨.noSize w, hbbox, .inr ⟨hw, hh⟩⟩
  by_cases hzero : w = 0 ∨ h = 0
  · exact .inl ⟨.zeroSize w h, hbbox, hw, hh, hzero⟩
  rw [not_or] at hzero
  have hsize : HasImageSize M req := ⟨hbbox, w, h, hw, hh, hzero.1, hzero.2⟩
  rcases hl : getLayerString (queryParams req) with _ | l
  · exact .inl ⟨.noLayers, hsize, hl⟩
  rcases hsrs : getSrs (queryParams req) with _ | srs
  · exact .inl ⟨.noSrs, hsize, by rw [hl]; rfl, hsrs⟩
  obtain ⟨bbox, w', h', heq⟩ := readGetMap_of_size hsize
  rw [hl, hsrs] at heq
  exact .inr ⟨_, heq⟩

/-! ## The answers -/

/-- A number can be read off the text it begins. -/
theorem decimal_append_inj {x y : Nat} {b c : UInt8} {s t : Bytes} (hb : isDecimal b = false)
    (hc : isDecimal c = false) (h : decimal x ++ b :: s = decimal y ++ c :: t) :
    x = y ∧ s = t := by
  have hdigits : ∀ (z : Nat) (d : UInt8) (r : Bytes), isDecimal d = false →
      (decimal z ++ d :: r).takeWhile isDecimal = decimal z := by
    intro z d r hd
    rw [List.takeWhile_append_of_pos (isDecimal_decimal z), List.takeWhile_cons_of_neg (by simp [hd]),
      List.append_nil]
  have hxy : decimal x = decimal y := by
    rw [← hdigits x b s hb, h, hdigits y c t hc]
  rw [hxy, List.append_cancel_left_eq] at h
  refine ⟨?_, List.tail_eq_of_cons_eq h⟩
  rw [← ofDecimal_decimal x, hxy, ofDecimal_decimal]

theorem sizeError_inj {text : String} {w h w' h' : UInt32}
    (e : sizeError text w h = sizeError text w' h') : w = w' ∧ h = h' := by
  unfold sizeError at e
  simp only [List.append_assoc, List.append_cancel_left_eq] at e
  obtain ⟨hw, e⟩ := decimal_append_inj (b := ch ' ') (c := ch ' ') (by decide) (by decide) e
  have e' := @List.append_cancel_left _ (bytes "got height value of: ") _ _ e
  obtain ⟨hh, -⟩ := decimal_append_inj (b := ch '\n') (c := ch '\n') (by decide) (by decide) e'
  exact ⟨UInt32.toNat_inj.mp hw, UInt32.toNat_inj.mp hh⟩

/-- The kind of a reason, without the numbers. -/
def Refusal.kind : Refusal → Fin 8
  | .undecodable => 0
  | .noQuery => 1
  | .noBbox => 2
  | .badBbox => 3
  | .noSize _ => 4
  | .zeroSize _ _ => 5
  | .noLayers => 6
  | .noSrs => 7

/-- How the contents of the answers begin. -/
def openings : Fin 8 → Bytes :=
  ![(stockContent .badRequest).take 9, bytes "Ready to ", bytes "missing b", bytes "failed to",
    bytes "missing w", bytes "width and", bytes "missing l", bytes "missing s"]

theorem openings_injective : Function.Injective openings := by decide +kernel

theorem Refusal.content_take (r : Refusal) : r.reply.content.take 9 = openings r.kind := by
  have hsize : ∀ (text : String) (w h : UInt32), 9 ≤ (bytes text).length →
      (sizeError text w h).take 9 = (bytes text).take 9 := by
    intro text w h hlen
    unfold sizeError
    simp only [List.append_assoc]
    exact List.take_append_of_le_length hlen
  cases r with
  | noSize w =>
    have hfour : (bytes "missing width or height.").take 9 = openings 4 := by decide +kernel
    exact (hsize _ _ _ (by decide +kernel)).trans hfour
  | zeroSize w h =>
    have hfive : (bytes "width and height must be > 0.").take 9 = openings 5 := by decide +kernel
    exact (hsize _ _ _ (by decide +kernel)).trans hfive
  | _ => decide +kernel

/-- No two reasons share an answer. -/
theorem Refusal.reply_injective : Function.Injective Refusal.reply := by
  intro r r' h
  have hcontent : r.reply.content = r'.reply.content := congrArg Reply.content h
  have hkind : r.kind = r'.kind := by
    apply openings_injective
    rw [← r.content_take, ← r'.content_take, hcontent]
  cases r with
  | noSize w =>
    cases r' with
    | noSize w' => rw [(sizeError_inj hcontent).1]
    | _ => cases hkind
  | zeroSize w h =>
    cases r' with
    | zeroSize w' h' =>
      obtain ⟨rfl, rfl⟩ := sizeError_inj hcontent
      rfl
    | _ => cases hkind
  | _ => cases r' <;> first | rfl | cases hkind

/-- An image does not look like an answer to a refused request. -/
theorem imageReply_ne (g : GetMap M) (im : M.Image) (r : Refusal) : imageReply g im ≠ r.reply := by
  intro h
  have hlength : (imageReply g im).headers.length = r.reply.headers.length := by rw [h]
  cases r <;> cases hlength

/-- **The reply is a diagnosis**: on any map, a client gets the answer of a refusal iff its
    request is refused for that reason; and it is accepted iff it is refused for none. -/
theorem reply_diagnoses (M : Mapnik) (req : Request) :
    (∀ (m : M.Map) (r : Refusal), ((handleRequest M req).run m).1 = r.reply ↔ Refused M req r) ∧
      ((∃ g, Accepts M req g) ↔ ∀ r, ¬ Refused M req r) := by
  have hsound : ∀ (m : M.Map) (r : Refusal), Refused M req r →
      ((handleRequest M req).run m).1 = r.reply := by
    intro m r h
    rw [run_handleRequest, h.readGetMap_eq]
  refine ⟨fun m r => ⟨fun h => ?_, hsound m r⟩, ?_⟩
  · rcases refused_or_accepted M req with ⟨r', h'⟩ | ⟨g, hg⟩
    · rw [hsound m r' h'] at h
      rwa [← Refusal.reply_injective h]
    · rw [run_handleRequest, hg] at h
      exact (imageReply_ne _ _ _ h).elim
  · constructor
    · rintro ⟨g, hg⟩ r hr
      have hread := (readGetMap_ok_iff req g).mpr hg
      rw [hr.readGetMap_eq] at hread
      cases hread
    · intro hnone
      obtain ⟨r, hr⟩ | ⟨g, hg⟩ := refused_or_accepted M req
      · exact absurd hr (hnone r)
      · exact ⟨g, (readGetMap_ok_iff req g).mp hg⟩

end PaleoServer
