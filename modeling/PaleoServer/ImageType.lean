/-
  The MIME type of an image and the format it is encoded in.

  The reply takes its `Content-Type` from the `format` parameter as it stands, while the encoder
  takes the extension that `r_mappings` has for it, or `png` when it has none. So header and
  content belong together exactly when the parameter is absent or is one of the MIME types
  listed there (`type_matches_iff`).
-/
import PaleoServer.RequestParams

namespace PaleoServer

variable {M : Mapnik}

/-- The `format` parameter of a request. -/
def formatParameter (req : Request) : Option Bytes := getMime (queryParams req)

/-- The reply to an accepted request names the MIME type of a row of `r_mappings`, and its
    content is the image as saved with the extension of this row. -/
def TypeMatches (M : Mapnik) (req : Request) (m : M.Map) : Prop :=
  ∀ g, readGetMap M req = .ok g →
    ∃ e ∈ rMappings,
      ⟨bytes "Content-Type", e.1⟩ ∈ ((handleRequest M req).run m).1.headers ∧
      ((handleRequest M req).run m).1.content =
        M.saveToString (M.aggRender (g.configure m) (M.image32 g.w g.h)) e.2

theorem mime_eq {req : Request} {g : GetMap M} (h : readGetMap M req = .ok g) :
    g.mime = (formatParameter req).getD (bytes "image/png") := by
  rw [GetMap.mime, ((readGetMap_ok_iff req g).mp h).query_eq, formatParameter]

/-- The content type of the reply to an accepted request. -/
theorem contentType_mem_headers {req : Request} {g : GetMap M} (h : readGetMap M req = .ok g)
    (m : M.Map) (type : Bytes) :
    ⟨bytes "Content-Type", type⟩ ∈ ((handleRequest M req).run m).1.headers ↔
      type = (formatParameter req).getD (bytes "image/png") := by
  have hserver : bytes "Content-Type" ≠ bytes "Server" := by decide
  have hlength : bytes "Content-Type" ≠ bytes "Content-Length" := by decide
  rw [run_handleRequest, h, ← mime_eq h]
  simp [imageReply, hserver, hlength]

/-- The extension of a listed type is the one of its row. -/
theorem typeToExtension_of_mem : ∀ e ∈ rMappings, typeToExtension e.1 = e.2 := by
  decide +kernel

/-- **The advertised type is the encoded type** for these values of `format`. -/
theorem type_matches_iff {req : Request} {g : GetMap M} (h : readGetMap M req = .ok g)
    (m : M.Map) :
    TypeMatches M req m ↔
      formatParameter req = none ∨ ∃ e ∈ rMappings, formatParameter req = some e.1 := by
  constructor
  · intro hmatch
    obtain ⟨e, he, htype, _⟩ := hmatch g h
    rw [contentType_mem_headers h] at htype
    rcases hformat : formatParameter req with _ | f
    · exact .inl rfl
    · rw [hformat] at htype
      exact .inr ⟨e, he, congrArg some htype.symm⟩
  · intro hformat g' hg'
    rw [h] at hg'
    cases hg'
    have hlisted : ∃ e ∈ rMappings, e.1 = (formatParameter req).getD (bytes "image/png") := by
      rcases hformat with hnone | ⟨e, he, hsome⟩
      · rw [hnone]
        exact ⟨_, List.mem_cons_self, rfl⟩
      · rw [hsome]
        exact ⟨e, he, rfl⟩
    obtain ⟨e, he, htype⟩ := hlisted
    refine ⟨e, he, (contentType_mem_headers h m e.1).mpr htype, ?_⟩
    rw [run_handleRequest, h, ← typeToExtension_of_mem e he, htype, ← mime_eq h]
    rfl

/-- A request with this `format` for an image of one pixel. -/
def formatRequest (format : Bytes) : Request :=
  sizedRequest (bytes "1") (bytes "1") [(bytes "format", some format)]

theorem isPair_format {format : Bytes} (h : IsValue format) :
    ∀ p ∈ [((bytes "format", some format) : PairType)], IsPair p := by
  have hkey : IsKey (bytes "format") := by decide +kernel
  rw [List.forall_mem_singleton]
  exact ⟨hkey, by simpa using h⟩

theorem formatParameter_formatRequest {format : Bytes} (h : IsValue format) :
    formatParameter (formatRequest format) = some (toLowerCopy format) := by
  have hone : IsValue (bytes "1") := by decide +kernel
  rw [formatParameter, getMime, formatRequest, find_sizedRequest hone hone (isPair_format h)]
  rfl

theorem readGetMap_formatRequest {format : Bytes} (h : IsValue format) :
    ∃ g, readGetMap Mapnik.sample (formatRequest format) = .ok g :=
  readGetMap_sizedRequest (isPair_format h)

/-- A listed type. -/
theorem type_matches_iff_sample :
    TypeMatches Mapnik.sample (formatRequest (bytes "image/png8")) sampleMap := by
  have hvalue : IsValue (bytes "image/png8") := by decide +kernel
  obtain ⟨g, hg⟩ := readGetMap_formatRequest hvalue
  refine (type_matches_iff hg sampleMap).mpr (.inr ⟨(bytes "image/png8", bytes "png8"), ?_, ?_⟩)
  · decide
  · rw [formatParameter_formatRequest hvalue]
    decide +kernel

/-- An image asked for as `image/gif` is announced as such, and is not encoded by any row. -/
theorem gif_not_encoded : ¬ ∀ (M : Mapnik) (req : Request) (m : M.Map), TypeMatches M req m := by
  intro h
  have hvalue : IsValue (bytes "image/gif") := by decide +kernel
  obtain ⟨g, hg⟩ := readGetMap_formatRequest hvalue
  obtain ⟨e, he, htype, _⟩ := h Mapnik.sample (formatRequest (bytes "image/gif")) sampleMap g hg
  rw [contentType_mem_headers hg, formatParameter_formatRequest hvalue] at htype
  have hunlisted : ∀ e ∈ rMappings, e.1 ≠ toLowerCopy (bytes "image/gif") := by decide +kernel
  exact hunlisted e he htype

end PaleoServer
