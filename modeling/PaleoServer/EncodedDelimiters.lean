/-
  What becomes of a percent-encoded delimiter in a request uri.

  `handle_request` decodes the whole uri before it looks for the `?`, and the grammar splits
  the decoded text at `&` and `=`. So the structure is that of the decoded text: an encoded
  delimiter is one once it is decoded (`stored_b_from_a`). Every stored parameter comes
  from a segment of the decoded text; it comes from a segment of the raw text when no
  decoded piece of the uri contains the delimiter that ends it (`Intact`).

  Proved: `stored_from_segment`.
-/
import PaleoServer.QueryString
import PaleoServer.RequestHandler

namespace PaleoServer

/-! ## The pieces of a text -/

/-- What `url_decode` has put out. -/
def decoded (s : Bytes) : Bytes := (urlDecode s []).2

/-- The text before the first `?`. -/
def pathOf (uri : Bytes) : Bytes := uri.takeWhile (· ≠ ch '?')

/-- The segments of the text after the first `?`. -/
def segmentsOf (uri : Bytes) : List Bytes := (queryOf uri).splitOn (ch '&')

/-- The text of a segment before the first `=`. -/
def segmentKey (seg : Bytes) : Bytes := seg.takeWhile (· ≠ ch '=')

/-- The text of a segment after the first `=`. -/
def segmentValue (seg : Bytes) : Bytes := (seg.dropWhile (· ≠ ch '=')).drop 1

theorem segment_append {k : Bytes} (hk : ch '=' ∉ k) (v : Bytes) :
    segmentKey (k ++ ch '=' :: v) = k ∧ segmentValue (k ++ ch '=' :: v) = v :=
  split_append hk v

theorem segment_free {seg : Bytes} (h : ch '=' ∉ seg) :
    segmentKey seg = seg ∧ segmentValue seg = [] :=
  split_free h

theorem uri_append {path : Bytes} (hpath : ch '?' ∉ path) (query : Bytes) :
    queryOf (path ++ ch '?' :: query) = query :=
  (split_append hpath query).2

theorem uri_free {uri : Bytes} (h : ch '?' ∉ uri) : pathOf uri = uri ∧ queryOf uri = [] :=
  split_free h

/-! ## Encoded delimiters -/

/-- An entry is the decoded key of a segment of the raw uri with a prefix of its decoded
    value, both lower-cased. -/
def FromRawSegment (uri key value : Bytes) : Prop :=
  ∃ seg ∈ segmentsOf uri, key = toLowerCopy (decoded (segmentKey seg)) ∧
    value <+: toLowerCopy (decoded (segmentValue seg))

instance (uri key value : Bytes) : Decidable (FromRawSegment uri key value) :=
  inferInstanceAs (Decidable (∃ seg ∈ segmentsOf uri, _))

/-- Encoded delimiters are data: everything stored is an entry of the raw uri. -/
def DelimitersAreData (uri : Bytes) : Prop :=
  ∀ path, urlDecode uri [] = (true, path) →
    ∀ key value, (wmsQuery (queryOf path)).find key = some value → FromRawSegment uri key value

/-- An encoded `&` in the value of `a` gives a parameter `b`. -/
theorem stored_b_from_a : ¬ DelimitersAreData (bytes "/?a=1%26b=2") := by
  intro h
  have hfrom := h (bytes "/?a=1&b=2") (by decide +kernel) (bytes "b") (bytes "2")
    (by decide +kernel)
  exact absurd hfrom (by decide +kernel)

/-! ## Where the raw segments are the decoded ones -/

/-- Key and value of a segment decode on their own and put in no delimiter that would end
    them. -/
def SegmentIntact (seg : Bytes) : Prop :=
  (urlDecode (segmentKey seg) []).1 = true ∧ (urlDecode (segmentValue seg) []).1 = true ∧
    ch '=' ∉ decoded (segmentKey seg) ∧ ch '&' ∉ decoded (segmentKey seg) ∧
    ch '&' ∉ decoded (segmentValue seg)

instance : DecidablePred SegmentIntact := fun _ => inferInstanceAs (Decidable (_ ∧ _))

/-- So does the path, and every segment is intact. -/
def Intact (uri : Bytes) : Prop :=
  (urlDecode (pathOf uri) []).1 = true ∧ ch '?' ∉ decoded (pathOf uri) ∧
    ∀ seg ∈ segmentsOf uri, SegmentIntact seg

instance : DecidablePred Intact := fun _ => inferInstanceAs (Decidable (_ ∧ _))

theorem decodesTo_decoded {s : Bytes} (h : (urlDecode s []).1 = true) :
    DecodesTo s (decoded s) := by
  unfold DecodesTo decoded
  rw [← h]

theorem DecodesTo.decoded_eq {s t : Bytes} (h : DecodesTo s t) : decoded s = t := by
  unfold decoded
  rw [h]

/-- An intact segment is decoded to the decoded key and the decoded value. -/
theorem SegmentIntact.decodes {seg : Bytes} (h : SegmentIntact seg) :
    DecodesTo seg (decoded seg) ∧ ch '&' ∉ decoded seg ∧
      segmentKey (decoded seg) = decoded (segmentKey seg) ∧
      segmentValue (decoded seg) = decoded (segmentValue seg) := by
  obtain ⟨hkey, hvalue, hassign, hkeyAmp, hvalueAmp⟩ := h
  have hk := decodesTo_decoded hkey
  have hv := decodesTo_decoded hvalue
  by_cases hmem : ch '=' ∈ seg
  · have hseg : DecodesTo seg (decoded (segmentKey seg) ++ ch '=' :: decoded (segmentValue seg)) := by
      have happ := hk.append (decodesTo_equals.append hv)
      rwa [List.singleton_append, List.singleton_append, segmentKey, segmentValue,
        ← split_at hmem] at happ
    obtain ⟨hsk, hsv⟩ := segment_append hassign (decoded (segmentValue seg))
    rw [hseg.decoded_eq]
    refine ⟨hseg, ?_, hsk, hsv⟩
    simp only [List.mem_append, List.mem_cons, not_or]
    exact ⟨hkeyAmp, by decide, hvalueAmp⟩
  · obtain ⟨hsk, hsv⟩ := segment_free hmem
    rw [hsk] at hk hassign hkeyAmp
    rw [hsk, hsv]
    obtain ⟨htk, htv⟩ := segment_free hassign
    exact ⟨hk, hkeyAmp, htk, htv⟩

/-- **Splitting and decoding commute** on an intact uri. -/
theorem Intact.segmentsOf_eq {uri path : Bytes} (h : Intact uri) (hd : DecodesTo uri path) :
    segmentsOf path = (segmentsOf uri).map decoded := by
  obtain ⟨hpath, hquestion, hsegs⟩ := h
  have hp := decodesTo_decoded hpath
  by_cases hmem : ch '?' ∈ uri
  · have hquery : DecodesTo (queryOf uri) ([ch '&'].intercalate ((segmentsOf uri).map decoded)) := by
      have hjoin := DecodesTo.intercalate decodesTo_ampersand
        fun seg hseg => (hsegs seg hseg).decodes.1
      rwa [List.map_id', segmentsOf, List.intercalate_splitOn] at hjoin
    have huri : DecodesTo uri (decoded (pathOf uri) ++
        ch '?' :: [ch '&'].intercalate ((segmentsOf uri).map decoded)) := by
      have happ := hp.append (decodesTo_question.append hquery)
      rwa [List.singleton_append, List.singleton_append, pathOf, queryOf,
        ← split_at hmem] at happ
    have hq : queryOf path = [ch '&'].intercalate ((segmentsOf uri).map decoded) := by
      rw [← hd.decoded_eq, huri.decoded_eq]
      exact uri_append hquestion _
    rw [segmentsOf, hq, List.splitOn_intercalate]
    · intro d hd'
      obtain ⟨seg, hseg, rfl⟩ := List.mem_map.mp hd'
      exact (hsegs seg hseg).decodes.2.1
    · rw [Ne, List.map_eq_nil_iff]
      exact List.splitOn_ne_nil _ _
  · obtain ⟨hpu, hqu⟩ := uri_free hmem
    rw [hpu, hd.decoded_eq] at hquestion
    have hqp : queryOf path = [] := (uri_free hquestion).2
    rw [segmentsOf, segmentsOf, hqp, hqu]
    rfl

/-! ## What is stored -/

/-- **Every stored parameter comes from a segment of the decoded text**, and on an intact uri
    from a segment of the raw text. -/
theorem stored_from_segment {uri path key value : Bytes} (hd : urlDecode uri [] = (true, path))
    (h : (wmsQuery (queryOf path)).find key = some value) :
    (∃ seg ∈ segmentsOf path, key = toLowerCopy (segmentKey seg) ∧
      value <+: toLowerCopy (segmentValue seg)) ∧
    (Intact uri → FromRawSegment uri key value) := by
  obtain ⟨seg, hseg, k, v, r, hs, hk, _, hkey, hvalue⟩ := find_wmsQuery_segment h
  obtain ⟨hsk, hsv⟩ := segment_append hk.assign_free (v ++ r)
  rw [← hs] at hsk hsv
  have hfrom : key = toLowerCopy (segmentKey seg) ∧ value <+: toLowerCopy (segmentValue seg) := by
    rw [hsk, hsv, toLowerCopy_append, hkey, hvalue]
    exact ⟨rfl, List.prefix_append _ _⟩
  refine ⟨⟨seg, hseg, hfrom⟩, ?_⟩
  intro hintact
  have hseg' : seg ∈ segmentsOf path := hseg
  rw [hintact.segmentsOf_eq hd] at hseg'
  obtain ⟨raw, hraw, rfl⟩ := List.mem_map.mp hseg'
  obtain ⟨_, _, hrk, hrv⟩ := (hintact.2.2 raw hraw).decodes
  rw [hrk, hrv] at hfrom
  exact ⟨raw, hraw, hfrom⟩

/-- An encoded `=` in a value stays in it, and ends what is stored. -/
theorem stored_layers : FromRawSegment (bytes "/a%26b?x=1&LAYERS=r%2Ft%3Du") (bytes "layers")
    (bytes "r/t") :=
  have hd : urlDecode (bytes "/a%26b?x=1&LAYERS=r%2Ft%3Du") [] =
      (true, bytes "/a&b?x=1&LAYERS=r/t=u") := by decide +kernel
  (stored_from_segment hd (by decide +kernel)).2 (by decide +kernel)

end PaleoServer
