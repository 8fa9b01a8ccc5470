/-
  A normal form of requests.

  What `wms_query` stores is written as a query again by `Params.text`: the parameters in the
  order in which they were stored, in lower case, without escapes and without anything the
  parser has passed over. `canonicalUri` is the uri with this query; a uri that never gets as
  far as its parameters has one of three fixed forms.

  Proved: `wmsQuery_text`, the text of what is stored is stored as it is; `canonical_request`, the
  handler does the same with a request and with its normal form, on every map and step by
  step, the normal form can be sent, and is its own.
-/
import PaleoServer.LetterCase
import PaleoServer.RequestParams

namespace PaleoServer

variable {M : Mapnik}

/-! ## Stored parameters -/

/-- An entry as `wms_query` stores it. -/
structure StoredEntry (e : Bytes × Bytes) : Prop where
  key : IsKey e.1
  key_lower : toLowerCopy e.1 = e.1
  value : IsValue e.2
  value_lower : toLowerCopy e.2 = e.2

/-- What `params_` can hold. -/
structure Params.Canonical (m : Params) : Prop where
  entry : ∀ e ∈ m, StoredEntry e
  nodup : (m.map Prod.fst).Nodup

theorem isKey_toLowerCopy {k : Bytes} (h : IsKey k) : IsKey (toLowerCopy k) := by
  obtain ⟨b, bs, rfl, hb, hbs⟩ := h
  refine ⟨toLower b, toLowerCopy bs, rfl, ?_, fun c hc => ?_⟩
  · rw [(toLower_classes b).2.1, hb]
  · obtain ⟨d, hd, rfl⟩ := List.mem_map.mp hc
    rw [(toLower_classes d).2.2.1, hbs d hd]

theorem isValue_toLowerCopy {v : Bytes} (h : IsValue v) : IsValue (toLowerCopy v) := by
  intro c hc
  obtain ⟨d, hd, rfl⟩ := List.mem_map.mp hc
  rw [(toLower_classes d).2.2.2, h d hd]

/-- A lookup finds nothing exactly when there is no entry of the key. -/
theorem find_eq_none_iff (m : Params) (key : Bytes) : m.find key = none ↔ key ∉ m.map Prod.fst := by
  unfold Params.find
  rw [List.lookup_eq_none_iff, List.mem_map]
  constructor
  · rintro h ⟨e, he, rfl⟩
    simpa using h e he
  · intro h e he
    simpa using fun heq : key = e.1 => h ⟨e, he, heq.symm⟩

theorem Params.Canonical.insert {m : Params} (hm : m.Canonical) {k v : Bytes}
    (h : StoredEntry (k, v)) : (m.insert k v).Canonical := by
  unfold Params.insert
  rcases hfind : m.find k with _ | w
  · refine ⟨List.forall_mem_append.mpr ⟨hm.entry, List.forall_mem_singleton.mpr h⟩, ?_⟩
    rw [List.map_append, List.nodup_append]
    refine ⟨hm.nodup, List.nodup_singleton _, fun a ha b hb e => ?_⟩
    have hak : a = k := e.trans (List.mem_singleton.mp hb)
    exact (find_eq_none_iff m k).mp hfind (hak ▸ ha)
  · exact hm

theorem Params.Canonical.insertPair {m : Params} (hm : m.Canonical) {p : PairType}
    (h : IsPair p) : (insertPair m p).Canonical := by
  obtain ⟨k, o⟩ := p
  cases o with
  | none => exact hm
  | some v =>
    have hk : IsKey k := h.1
    have hv : IsValue v := h.2 v rfl
    show (m.insert (toLowerCopy (trimCopy k)) (toLowerCopy (trimCopy v))).Canonical
    rw [hk.trimCopy_eq, hv.trimCopy_eq]
    exact hm.insert ⟨isKey_toLowerCopy hk, toLowerCopy_idem k, isValue_toLowerCopy hv,
      toLowerCopy_idem v⟩

theorem canonical_wmsQuery (q : Bytes) : (wmsQuery q).Canonical := by
  have hfold : ∀ (ps : List PairType) (m : Params), m.Canonical → (∀ p ∈ ps, IsPair p) →
      (ps.foldl PaleoServer.insertPair m).Canonical := by
    intro ps
    induction ps with
    | nil => exact fun m hm _ => hm
    | cons p ps ih =>
      intro m hm hps
      obtain ⟨hp, hps⟩ := List.forall_mem_cons.mp hps
      exact ih _ (hm.insertPair hp) hps
  have hnil : Params.Canonical [] := ⟨List.forall_mem_nil _, List.nodup_nil⟩
  rcases h : Grammar.query q with _ | ⟨ps, r⟩
  · rw [wmsQuery_of_failed h]
    exact hnil
  · rw [wmsQuery_of_parsed h]
    exact hfold ps [] hnil (readsLongest_query.sound h).1.2

/-! ## Written again -/

/-- The entries as pairs. -/
def Params.pairs (m : Params) : List PairType := m.map fun e => (e.1, some e.2)

/-- The query that stands for what is stored. -/
def Params.text (m : Params) : Bytes := renderPairs m.pairs

theorem Params.Canonical.isPair {m : Params} (hm : m.Canonical) : ∀ p ∈ m.pairs, IsPair p := by
  intro p hp
  obtain ⟨e, he, rfl⟩ := List.mem_map.mp hp
  refine ⟨(hm.entry e he).key, fun v hv => ?_⟩
  cases hv
  exact (hm.entry e he).value

/-- Stored entries are stored as they are, behind others. -/
theorem foldl_insertPair_pairs {m acc : Params} (h : (acc ++ m).Canonical) :
    m.pairs.foldl insertPair acc = acc ++ m := by
  induction m generalizing acc with
  | nil => exact (List.append_nil acc).symm
  | cons e m ih =>
    have he := h.entry e (by simp)
    have hnew : acc.find e.1 = none := by
      rw [find_eq_none_iff]
      have hnodup := h.nodup
      rw [List.map_append, List.map_cons] at hnodup
      intro hmem
      exact (List.nodup_append.mp hnodup).2.2 e.1 hmem e.1 List.mem_cons_self rfl
    have hstep : insertPair acc (e.1, some e.2) = acc ++ [e] := by
      show acc.insert (toLowerCopy (trimCopy e.1)) (toLowerCopy (trimCopy e.2)) = _
      rw [he.key.trimCopy_eq, he.value.trimCopy_eq, he.key_lower, he.value_lower]
      unfold Params.insert
      rw [hnew]
    have hsplit : acc ++ e :: m = acc ++ [e] ++ m := by simp
    rw [hsplit] at h ⊢
    show (Params.pairs m).foldl insertPair (insertPair acc (e.1, some e.2)) = _
    rw [hstep, ih h]

/-- **The text of what is stored is stored as it is.** -/
theorem Params.Canonical.wmsQuery_text {m : Params} (hm : m.Canonical) : wmsQuery m.text = m := by
  cases m with
  | nil => rfl
  | cons e m =>
    have hne : Params.pairs (e :: m) ≠ [] := List.cons_ne_nil _ _
    exact (wmsQuery_of_parsed (readsLongest_query.exact ⟨hne, hm.isPair⟩)).trans
      (@foldl_insertPair_pairs (e :: m) [] hm)

theorem wmsQuery_text (q : Bytes) : wmsQuery (wmsQuery q).text = wmsQuery q :=
  (canonical_wmsQuery q).wmsQuery_text

/-! ## The uri -/

/-- The normal form of a uri. -/
def canonicalUri (uri : Bytes) : Bytes :=
  match urlDecode uri [] with
  | (false, _) => bytes "/%"
  | (true, path) =>
    if (queryOf path).isEmpty then bytes "/"
    else
      let params := wmsQuery (queryOf path)
      bytes "/?" ++ if params.isEmpty then bytes "&" else params.text

/-- The normal form of a request. -/
def Request.canonical (req : Request) : Request := { req with uri := canonicalUri req.uri }

theorem canonicalUri_undecoded {uri : Bytes} (h : (urlDecode uri []).1 = false) :
    canonicalUri uri = bytes "/%" := by
  rcases hd : urlDecode uri [] with ⟨ok, path⟩
  rw [hd] at h
  cases h
  simp only [canonicalUri, hd]

theorem canonicalUri_decoded {uri path : Bytes} (h : urlDecode uri [] = (true, path)) :
    canonicalUri uri =
      if (queryOf path).isEmpty then bytes "/"
      else bytes "/?" ++
        if (wmsQuery (queryOf path)).isEmpty then bytes "&"
        else (wmsQuery (queryOf path)).text := by
  simp only [canonicalUri, h]

/-- The normal form of a uri is read like the uri. -/
theorem urlDecode_canonicalUri {uri path : Bytes} (h : urlDecode uri [] = (true, path)) :
    ∃ path', urlDecode (canonicalUri uri) [] = (true, path') ∧
      (queryOf path').isEmpty = (queryOf path).isEmpty ∧
      wmsQuery (queryOf path') = wmsQuery (queryOf path) := by
  rw [canonicalUri_decoded h]
  by_cases hempty : (queryOf path).isEmpty = true
  · rw [if_pos hempty]
    refine ⟨bytes "/", by decide +kernel, hempty.symm, ?_⟩
    rw [List.isEmpty_iff.mp hempty]
    rfl
  · rw [if_neg hempty]
    by_cases hnil : (wmsQuery (queryOf path)).isEmpty = true
    · rw [if_pos hnil]
      refine ⟨bytes "/?&", by decide +kernel, ?_, ?_⟩
      · rw [Bool.not_eq_true] at hempty
        rw [hempty]
        rfl
      · rw [List.isEmpty_iff.mp hnil]
        decide +kernel
    · rw [if_neg hnil]
      have hcanonical := canonical_wmsQuery (queryOf path)
      obtain ⟨path', hpath', hquery⟩ := asksFor_requestFor hcanonical.isPair
      have hquery' : queryOf path' = (wmsQuery (queryOf path)).text := hquery
      refine ⟨path', hpath', ?_, ?_⟩
      · have htext : (wmsQuery (queryOf path)).text ≠ [] := by
          intro hno
          rw [Params.text, renderPairs_eq_nil hcanonical.isPair] at hno
          exact hnil (List.isEmpty_iff.mpr (List.map_eq_nil_iff.mp hno))
        rw [Bool.not_eq_true] at hempty
        rw [hempty, hquery', List.isEmpty_eq_false_iff]
        exact htext
      · rw [hquery', wmsQuery_text]

theorem canonicalUri_idem (uri : Bytes) : canonicalUri (canonicalUri uri) = canonicalUri uri := by
  rcases hd : urlDecode uri [] with ⟨_ | _, path⟩
  · have huri : canonicalUri uri = bytes "/%" := canonicalUri_undecoded (by rw [hd])
    rw [huri]
    decide +kernel
  · obtain ⟨path', hd', hempty, hparams⟩ := urlDecode_canonicalUri hd
    rw [canonicalUri_decoded hd', canonicalUri_decoded hd, hempty, hparams]

/-- Keys and values need no escapes, and no byte of them ends a uri. -/
theorem isUri_renderPairs {ps : List PairType} (h : ∀ p ∈ ps, IsPair p) :
    IsUri (renderPairs ps) := by
  have hvalue : ∀ v, IsValue v → IsUri v := fun v hv b hb => (isValueChar_sent b (hv b hb)).2.2
  have hassign : IsUri [ch '='] := List.forall_mem_singleton.mpr (by decide)
  refine forall_mem_intercalate (by decide) fun s hs => ?_
  obtain ⟨⟨k, o⟩, hp, rfl⟩ := List.mem_map.mp hs
  have hk : IsUri k := hvalue k fun b hb => isValueChar_of_isKeyChar b ((h _ hp).1.chars b hb)
  cases o with
  | none => exact hk
  | some v => exact hk.append (hassign.append (hvalue v ((h _ hp).2 v rfl)))

instance : DecidablePred IsUri := fun u =>
  inferInstanceAs (Decidable (∀ b ∈ u, b ≠ ch ' ' ∧ ¬ IsControl b))

theorem isUri_canonicalUri (uri : Bytes) : IsUri (canonicalUri uri) := by
  have hfront : IsUri (bytes "/?") := by decide +kernel
  have hfixed : IsUri (bytes "/%") ∧ IsUri (bytes "/") ∧ IsUri (bytes "&") := by decide +kernel
  unfold canonicalUri
  split
  · exact hfixed.1
  · split
    · exact hfixed.2.1
    · refine hfront.append ?_
      split
      · exact hfixed.2.2
      · exact isUri_renderPairs (canonical_wmsQuery _).isPair

/-- **The normal form of a request means the same**: the handler reads the same from it, so it
    takes the same steps on any map and gives the same reply; it can be sent; and it is its
    own normal form. -/
theorem canonical_request (M : Mapnik) (req : Request) :
    handleRequest M req.canonical = handleRequest M req ∧ IsUri req.canonical.uri ∧
      req.canonical.canonical = req.canonical := by
  refine ⟨?_, isUri_canonicalUri req.uri, ?_⟩
  · have hread : readGetMap M req.canonical = readGetMap M req := by
      rcases hd : urlDecode req.uri [] with ⟨_ | _, path⟩
      · have hcanonical : (urlDecode req.canonical.uri []).1 = false := by
          show (urlDecode (canonicalUri req.uri) []).1 = false
          rw [canonicalUri_undecoded (by rw [hd])]
          decide +kernel
        rw [readGetMap_of_undecoded hcanonical, readGetMap_of_undecoded (by rw [hd])]
      · obtain ⟨path', hd', hempty, hparams⟩ := urlDecode_canonicalUri hd
        have hd'' : urlDecode req.canonical.uri [] = (true, path') := hd'
        simp only [readGetMap, hd, hd'', hempty, hparams]
    unfold handleRequest
    rw [hread]
  · show ({ req with uri := canonicalUri (canonicalUri req.uri) } : Request) = _
    rw [canonicalUri_idem]
    rfl

example : canonicalUri (bytes "/wms?%53RS=EPSG%3a4326&=1&bbox=1") = bytes "/?srs=epsg:4326" := by
  decide +kernel

end PaleoServer
