/-
  Which layers are rendered.

  The client names layers in the LAYERS parameter. The grammar reads its value as far as its
  alphabet goes, `wms_query` lower-cases it, and the names are looked up as the stylesheet
  spells them. Proved:
  * `active_iff_lower`: a layer is active exactly when its name is the lower case of an item,
    or all layers are asked for. So a layer whose name has an upper-case letter cannot be asked
    for by its name.
  * `requested_layers_rendered`: as long as no item with an upper-case letter is meant, the
    layers shown are the items of the value as it was sent, up to the first byte the grammar
    does not read.
-/
import PaleoServer.LetterCase
import PaleoServer.EncodedDelimiters
import PaleoServer.RequestParams

namespace PaleoServer

open Peg

/-! ## The value that was sent -/

/-- The segment has this key, in any letter case, and an `=`. -/
def HasKey (key seg : Bytes) : Prop := toLowerCopy (segmentKey seg) = key ∧ ch '=' ∈ seg

instance (key : Bytes) : DecidablePred (HasKey key) :=
  fun seg => inferInstanceAs (Decidable (toLowerCopy (segmentKey seg) = key ∧ ch '=' ∈ seg))

/-- The text after the `=` in the first segment of this key. -/
def sentValue (key query : Bytes) : Option Bytes :=
  ((query.splitOn (ch '&')).find? (HasKey key)).map segmentValue

/-- The layers a client asks for. -/
def sentLayers (req : Request) : Option Bytes :=
  sentValue (bytes "layers") (queryOf (urlDecode req.uri []).2)

/-- What is read of a value. -/
def readable (value : Bytes) : Bytes := value.takeWhile isValueChar

/-- The items of a list of layers: between commas, without white space around, not empty. -/
def layerItems (value : Bytes) : List Bytes :=
  ((value.splitOn (ch ',')).map trimCopy).filter (· ≠ [])

/-! ## From the segment to the parameter -/

/-- What a pair with a value takes from its segment. -/
theorem pair_segment {seg k v r : Bytes} (h : Grammar.pair seg = some ((k, some v), r)) :
    segmentKey seg = k ∧ ch '=' ∈ seg ∧ readable (segmentValue seg) = v := by
  rw [pair_eq] at h
  rcases hk : Grammar.key seg with _ | ⟨k', t⟩
  · rw [hk] at h
    cases h
  rcases hv : Grammar.assign t with _ | ⟨v', t'⟩
  · simp only [hk, hv] at h
    cases h
  · simp only [hk, hv] at h
    cases h
    obtain ⟨hkey, rfl⟩ := key_sound hk
    cases t with
    | nil => cases hv
    | cons b t =>
      by_cases hb : b = ch '='
      · subst hb
        rw [assign_cons] at hv
        cases hv
        obtain ⟨hsk, hsv⟩ := segment_append hkey.assign_free t
        rw [hsk, hsv]
        exact ⟨rfl, by simp, rfl⟩
      · rw [assign_of_ne hb] at hv
        cases hv

/-- What a segment gives for a key, unless it is left before an `=` that it does have. -/
theorem valueFor_segment {seg r key : Bytes} {p : PairType} (h : Grammar.pair seg = some (p, r))
    (hread : r = [] ∨ valueFor key p ≠ none) :
    valueFor key p =
      if HasKey key seg then some (toLowerCopy (readable (segmentValue seg))) else none := by
  obtain ⟨hpair, htext⟩ := pair_sound h
  obtain ⟨k, o⟩ := p
  rw [valueFor_eq hpair] at hread ⊢
  cases o with
  | none =>
    have hnone : ¬ HasKey key seg := by
      rintro ⟨_, hmem⟩
      have hr : r = [] := hread.resolve_right (by simp)
      rw [htext, hr, List.append_nil] at hmem
      exact hpair.1.assign_free hmem
    rw [if_neg hnone]
    exact ite_self none
  | some v =>
    obtain ⟨hk, hmem, hv⟩ := pair_segment h
    have hkey : HasKey key seg ↔ toLowerCopy k = key := by
      rw [HasKey, hk]
      exact and_iff_left hmem
    simp only [hkey, hv, Option.map_some]

/-- The first value of a key among the pairs is what is read of the first segment with this
    key. -/
theorem find_segment {key v : Bytes} {segs : List Bytes}
    (h : (readSegments Grammar.pair segs).findSome? (valueFor key) = some v) :
    ∃ seg, segs.find? (HasKey key) = some seg ∧ v = toLowerCopy (readable (segmentValue seg)) := by
  induction segs with
  | nil => cases h
  | cons seg segs ih =>
    rw [readSegments] at h
    cases hpair : Grammar.pair seg with
    | none =>
      rw [hpair] at h
      cases h
    | some a =>
      obtain ⟨p, r⟩ := a
      have hvalue : _ → valueFor key p = _ := valueFor_segment hpair
      cases r with
      | nil =>
        simp only [hpair, List.findSome?_cons, hvalue (.inl rfl)] at h
        by_cases hkey : HasKey key seg
        · rw [if_pos hkey] at h
          exact ⟨seg, List.find?_cons_of_pos (by simpa using hkey), (Option.some.inj h).symm⟩
        · rw [if_neg hkey] at h
          rw [List.find?_cons_of_neg (by simpa using hkey)]
          exact ih h
      | cons b r =>
        -- nothing is read behind it, so the value is its own
        simp only [hpair, List.findSome?_singleton] at h
        rw [hvalue (.inr (by simp [h]))] at h
        have hkey : HasKey key seg := by
          by_contra hno
          rw [if_neg hno] at h
          cases h
        rw [if_pos hkey] at h
        exact ⟨seg, List.find?_cons_of_pos (by simpa using hkey), (Option.some.inj h).symm⟩

/-- **A stored value is what is read of the value that was sent**, in lower case. -/
theorem find_wmsQuery_sent {query key v : Bytes} (h : (wmsQuery query).find key = some v) :
    ∃ sent, sentValue key query = some sent ∧ v = toLowerCopy (readable sent) := by
  rw [find_wmsQuery] at h
  obtain ⟨seg, hseg, hv⟩ := find_segment h
  exact ⟨segmentValue seg, by rw [sentValue, hseg, Option.map_some], hv⟩

/-! ## Items -/

theorem splitOn_toLowerCopy (v : Bytes) :
    (toLowerCopy v).splitOn (ch ',') = (v.splitOn (ch ',')).map toLowerCopy := by
  have hcomma : ∀ b : UInt8, toLower b = ch ',' ↔ b = ch ',' := by decide +kernel
  induction v with
  | nil => rfl
  | cons b v ih =>
    have hcons : toLowerCopy (b :: v) = toLower b :: toLowerCopy v := rfl
    obtain ⟨seg, segs, hsegs⟩ := List.exists_cons_of_ne_nil (List.splitOn_ne_nil (ch ',') v)
    rw [hcons, List.splitOn_cons_eq_if_modifyHead, List.splitOn_cons_eq_if_modifyHead, ih, hsegs]
    by_cases hb : b = ch ','
    · rw [if_pos (beq_iff_eq.mpr ((hcomma b).mpr hb)), if_pos (beq_iff_eq.mpr hb)]
      rfl
    · rw [if_neg (by simpa using fun h => hb ((hcomma b).mp h)), if_neg (by simpa using hb)]
      rfl

/-- The items of a value in lower case are the items in lower case. -/
theorem layerItems_toLowerCopy (v : Bytes) :
    layerItems (toLowerCopy v) = (layerItems v).map toLowerCopy := by
  have hne : (fun s => decide (s ≠ [])) ∘ toLowerCopy = fun s : Bytes => decide (s ≠ []) := by
    funext s
    cases s <;> rfl
  have htrim : trimCopy ∘ toLowerCopy = toLowerCopy ∘ trimCopy := funext trimCopy_toLowerCopy
  unfold layerItems
  rw [splitOn_toLowerCopy, List.map_map, htrim, ← List.map_map, List.filter_map, hne]

/-- The tokenizer finds the items. -/
theorem parseLayerString_eq (s : Bytes) : parseLayerString s = layerItems s := by
  have hdelim : (fun b => (bytes ",").contains b) = fun b => b == ch ',' := by
    funext b
    rw [Bool.eq_iff_iff]
    simp [bytes]
  have hkeep : ∀ segs : List Bytes, ((segs.filter (· ≠ [])).map trimCopy).filter (· ≠ []) =
      (segs.map trimCopy).filter (· ≠ []) := by
    intro segs
    induction segs with
    | nil => rfl
    | cons seg segs ih =>
      cases seg with
      | nil => exact ih
      | cons b seg =>
        rw [List.filter_cons_of_pos (by simp), List.map_cons, List.filter_cons, ih, List.map_cons,
          List.filter_cons]
  unfold parseLayerString tokens layerItems
  rw [hkeep, List.splitOn_eq_splitOnP, hdelim]

/-! ## The layers of an accepted request -/

variable {M : Mapnik}

theorem layerString_sent {req : Request} {g : GetMap M} (h : readGetMap M req = .ok g) :
    ∃ sent, sentLayers req = some sent ∧ g.layerString = toLowerCopy (readable sent) := by
  have haccepts := (readGetMap_ok_iff req g).mp h
  have hlayers := haccepts.layers
  rw [haccepts.query_eq] at hlayers
  exact find_wmsQuery_sent hlayers

/-- What makes a layer active. -/
theorem requested_iff_lower {g : GetMap M} {v : Bytes} (hv : g.layerString = toLowerCopy v)
    (hall : iequals v (bytes "__all__") = false) (name : Bytes) :
    g.requested name = true ↔ ∃ i ∈ layerItems v, toLowerCopy i = name := by
  have hnot : iequals g.layerString (bytes "__all__") = false := by
    rw [← hall, hv, iequals, toLowerCopy_idem, iequals]
  rw [GetMap.requested, hnot, Bool.false_or, parseLayerString_eq, hv, layerItems_toLowerCopy]
  simp

/-- **A layer is active exactly when its name is the lower case of an item** of the value of LAYERS
    as it was sent, as far as it can be read, unless this asks for all layers: what is asked
    for in upper case is looked up in lower case. -/
theorem active_iff_lower {req : Request} {g : GetMap M} (h : readGetMap M req = .ok g)
    (m : M.Map) :
    ∃ sent, sentLayers req = some sent ∧
      (iequals (readable sent) (bytes "__all__") = false → ∀ lyr ∈ (g.configure m).layers,
        (lyr.active = true ↔ ∃ i ∈ layerItems (readable sent), toLowerCopy i = lyr.name)) := by
  obtain ⟨sent, hsent, hstring⟩ := layerString_sent h
  refine ⟨sent, hsent, fun hall lyr hlyr => ?_⟩
  obtain ⟨lyr', _, rfl⟩ := List.mem_map.mp hlyr
  exact requested_iff_lower hstring hall lyr'.name

/-- An upper-case letter occurs in the string. -/
def HasUpper (s : Bytes) : Prop := ∃ b ∈ s, ch 'A' ≤ b ∧ b ≤ ch 'Z'

instance : DecidablePred HasUpper := fun _ => inferInstanceAs (Decidable (∃ b ∈ _, _))

theorem toLowerCopy_of_noUpper {s : Bytes} (h : ¬ HasUpper s) : toLowerCopy s = s := by
  unfold toLowerCopy
  rw [List.map_congr_left (g := id), List.map_id]
  intro b hb
  have hletter : ¬ (ch 'A' ≤ b ∧ b ≤ ch 'Z') := fun hb' => h ⟨b, hb, hb'⟩
  have hclass : ¬ (decide (ch 'A' ≤ b) && decide (b ≤ ch 'Z')) = true := by simpa using hletter
  exact if_neg hclass

/-- No item with an upper-case letter is this name but for the case of letters. -/
def PlainlyNamed (value name : Bytes) : Prop :=
  ∀ i ∈ layerItems value, iequals i name = true → ¬ HasUpper i

theorem active_iff_item {v name : Bytes} (h : PlainlyNamed v name) :
    (∃ i ∈ layerItems v, toLowerCopy i = name) ↔ name ∈ layerItems v := by
  constructor
  · rintro ⟨i, hi, rfl⟩
    have hsame : iequals i (toLowerCopy i) = true := by rw [iequals, toLowerCopy_idem, beq_self_eq_true]
    rwa [toLowerCopy_of_noUpper (h i hi hsame)]
  · intro hname
    exact ⟨name, hname, toLowerCopy_of_noUpper (h name hname (beq_self_eq_true _))⟩

/-- **The requested layers are the ones rendered.** Take the value of LAYERS as it was sent, as far
    as it can be read, and let it not ask for all layers. The image shows the layers of the
    map, and a layer is active in it exactly when its name is an item of this value, unless an
    item with an upper-case letter differs from the name only in case. -/
theorem requested_layers_rendered {req : Request} {g : GetMap M} (h : readGetMap M req = .ok g)
    (m : M.Map) :
    ∃ sent, sentLayers req = some sent ∧
      (iequals (readable sent) (bytes "__all__") = false →
        ∃ m', (handleRequest M req).run m =
            (imageReply g (M.aggRender m' (M.image32 g.w g.h)), m') ∧
          m'.layers.map Layer.identity = m.layers.map Layer.identity ∧
          ∀ lyr ∈ m'.layers, PlainlyNamed (readable sent) lyr.name →
            (lyr.active = true ↔ lyr.name ∈ layerItems (readable sent))) := by
  obtain ⟨sent, hsent, hactive⟩ := active_iff_lower h m
  refine ⟨sent, hsent, fun hall => ⟨g.configure m, ?_, ?_, ?_⟩⟩
  · rw [run_handleRequest, h]
  · exact (sameStylesheet_configure g m).2.symm
  · exact fun lyr hlyr hplain => (hactive hall lyr hlyr).trans (active_iff_item hplain)

/-- A request for the layer `roads` shows this layer and no other. -/
theorem requested_layers_rendered_sample :
    ∃ (g : GetMap Mapnik.sample) (m' : Mapnik.sample.Map),
      (handleRequest Mapnik.sample (sizedRequest (bytes "1") (bytes "1") [])).run sampleMap =
        (imageReply g (Mapnik.sample.aggRender m' (Mapnik.sample.image32 g.w g.h)), m') ∧
      m'.layers.map Layer.identity = [(bytes "rivers", ()), (bytes "roads", ())] ∧
      ∀ lyr ∈ m'.layers, (lyr.active = true ↔ lyr.name = bytes "roads") := by
  obtain ⟨g, hg⟩ := readGetMap_sizedRequest (List.forall_mem_nil IsPair)
  have hvalue : sentLayers (sizedRequest (bytes "1") (bytes "1") []) = some (bytes "roads") := by
    decide +kernel
  obtain ⟨sent, hsent, hrendered⟩ := requested_layers_rendered hg sampleMap
  cases hvalue.symm.trans hsent
  obtain ⟨m', hrun, hlayers, hactive⟩ := hrendered (by decide +kernel)
  have hitems : layerItems (readable (bytes "roads")) = [bytes "roads"] := by decide +kernel
  have hlower : ¬ HasUpper (bytes "roads") := by decide +kernel
  refine ⟨g, m', hrun, hlayers, fun lyr hlyr => ?_⟩
  have hplain : PlainlyNamed (readable (bytes "roads")) lyr.name := by
    intro i hi _
    rw [hitems] at hi
    rwa [List.mem_singleton.mp hi]
  rw [hactive lyr hlyr hplain, hitems, List.mem_singleton]

/-! ## Values the grammar does not read to their end -/

/-- Layer names over the alphabet of values, without comma. -/
def PlainNames (m : M.Map) : Prop :=
  ∀ lyr ∈ m.layers, ∀ c ∈ lyr.name, isValueChar c = true ∧ c ≠ ch ','

/-- An accepted request, not for all layers, renders the items of the value as it was sent. -/
def RendersAsSent (M : Mapnik) (req : Request) (m : M.Map) : Prop :=
  ∀ g sent, readGetMap M req = .ok g → sentLayers req = some sent →
    iequals sent (bytes "__all__") = false →
    ∀ lyr ∈ (g.configure m).layers, (lyr.active = true ↔ lyr.name ∈ layerItems sent)

def spacedRequest : Request :=
  { Request.empty with
    uri := bytes "/?bbox=0,0,1,1&width=1&height=1&srs=x&layers=roads%20x" }

/-- The value `roads x` names no layer, and is read as `roads`. -/
theorem space_ends_layers : ¬ ∀ (M : Mapnik) (req : Request) (m : M.Map), PlainNames m →
    RendersAsSent M req m := by
  intro h
  have hparams : queryParams spacedRequest =
      [(bytes "bbox", bytes "0,0,1,1"), (bytes "width", bytes "1"), (bytes "height", bytes "1"),
        (bytes "srs", bytes "x"), (bytes "layers", bytes "roads")] := by
    decide +kernel
  have hcarries : Carries Mapnik.sample spacedRequest (0, 0, 1, 1) (bytes "roads") (bytes "x") := by
    refine ⟨by decide +kernel, ⟨bytes "0,0,1,1", ?_, rfl⟩, ?_, ?_⟩
    · rw [hparams]
      rfl
    · rw [hparams]
      rfl
    · rw [hparams]
      rfl
  have hw : getWidth (queryParams spacedRequest) = some 1 := by
    rw [hparams]
    rfl
  have hh : getHeight (queryParams spacedRequest) = some 1 := by
    rw [hparams]
    rfl
  have hread := hcarries.readGetMap_eq hw hh
  rw [if_neg (by decide)] at hread
  have hsent : sentLayers spacedRequest = some (bytes "roads x") := by decide +kernel
  have hplain : PlainNames sampleMap := by
    have hnames : ∀ lyr ∈ sampleMap.layers, ∀ c ∈ lyr.name, isValueChar c = true ∧ c ≠ ch ',' := by
      decide +kernel
    exact hnames
  have hroads : (⟨bytes "roads", true, ()⟩ : Layer Mapnik.sample.LayerData) ∈ sampleMap.layers :=
    List.mem_cons_of_mem _ List.mem_cons_self
  have hitem := h Mapnik.sample spacedRequest sampleMap hplain _ _ hread hsent (by decide) _
    (List.mem_map_of_mem hroads)
  exact absurd (hitem.mp rfl) (by decide +kernel)

end PaleoServer
