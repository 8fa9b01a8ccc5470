/-
  From the client's GetMap request to the rendered map.

  `GetMapRequest` is what a client means: layer names, a reference system, four coordinates, a
  size and perhaps a format. `UriText g.params` is any way to write it as a uri. Sent in any
  well-formed GET request it is accepted by the parser, and `handle_request` renders the map
  `g.configured`, with nothing of the request lost or altered on the way: the parser, the URL
  decoder, the query grammar, the lower-casing and the readers agree.

  Proved: `getMap_round_trip`.
-/
import PaleoServer.UriText

namespace PaleoServer

/-! ## The request a client means -/

variable {M : Mapnik}

/-- A string over the alphabet of values without upper-case letters. -/
def IsLowerValue (v : Bytes) : Prop := ∀ c ∈ v, isValueChar c = true ∧ toLower c = c

/-- Digits, `.`, `-` and `e`. -/
def isCoordinateChar (b : UInt8) : Bool :=
  inRange '0' '9' b || b == ch '.' || b == ch '-' || b == ch 'e'

/-- A coordinate that the number conversion accepts. -/
structure Coordinate (M : Mapnik) where
  token : Bytes
  value : M.Double
  token_ne : token ≠ []
  token_char : ∀ b ∈ token, isCoordinateChar b = true
  cast : M.lexicalCast token = some value

structure GetMapRequest (M : Mapnik) where
  layers : List Bytes
  srs : Bytes
  minx : Coordinate M
  miny : Coordinate M
  maxx : Coordinate M
  maxy : Coordinate M
  width : Nat
  height : Nat
  format : Option Bytes
  layers_ne : layers ≠ []
  layer : ∀ l ∈ layers, l ≠ [] ∧ IsLowerValue l ∧ ch ',' ∉ l
  srs_ne : srs ≠ []
  srs_value : IsLowerValue srs
  width_pos : 1 ≤ width
  width_lt : width < 2 ^ 31
  height_pos : 1 ≤ height
  height_lt : height < 2 ^ 31
  format_value : ∀ f ∈ format, IsLowerValue f

def GetMapRequest.layerString (g : GetMapRequest M) : Bytes := [ch ','].intercalate g.layers

def GetMapRequest.bboxString (g : GetMapRequest M) : Bytes :=
  [ch ','].intercalate [g.minx.token, g.miny.token, g.maxx.token, g.maxy.token]

/-- The parameters of the request. -/
def GetMapRequest.params (g : GetMapRequest M) : List (Bytes × Bytes) :=
  [(bytes "bbox", g.bboxString), (bytes "layers", g.layerString), (bytes "srs", g.srs),
    (bytes "width", decimal g.width), (bytes "height", decimal g.height)] ++
    (g.format.map fun f => (bytes "format", f)).toList

def GetMapRequest.bbox (g : GetMapRequest M) : M.Envelope :=
  M.init g.minx.value g.miny.value g.maxx.value g.maxy.value

/-- A layer is drawn when it is named, or when the request is for all layers. -/
def GetMapRequest.requested (g : GetMapRequest M) (name : Bytes) : Bool :=
  g.layers == [bytes "__all__"] || g.layers.contains name

/-- The map the request asks for. -/
def GetMapRequest.configured (g : GetMapRequest M) (m : M.Map) : M.Map where
  srs := bytes "+init=" ++ g.srs
  layers := m.layers.map fun lyr => { lyr with active := g.requested lyr.name }
  width := UInt32.ofNat g.width
  height := UInt32.ofNat g.height
  currentExtent := g.bbox
  data := m.data

def GetMapRequest.mime (g : GetMapRequest M) : Bytes := g.format.getD (bytes "image/png")

/-- The image of that map, as the extension of the format has it. -/
def GetMapRequest.content (g : GetMapRequest M) (m : M.Map) : Bytes :=
  M.saveToString
    (M.aggRender (g.configured m) (M.image32 (UInt32.ofNat g.width) (UInt32.ofNat g.height)))
    (typeToExtension g.mime)

/-! ## The parameters -/

theorem isLowerValue_decimal (n : Nat) : IsLowerValue (decimal n) := by
  have digit : ∀ b : UInt8, isDecimal b = true → isValueChar b = true ∧ toLower b = b := by
    decide +kernel
  exact fun b hb => digit b (isDecimal_decimal n b hb)

theorem isLowerValue_intercalate {vs : List Bytes} (h : ∀ v ∈ vs, IsLowerValue v) :
    IsLowerValue ([ch ','].intercalate vs) :=
  forall_mem_intercalate (by decide) h

theorem IsLowerValue.toLowerCopy_eq {v : Bytes} (h : IsLowerValue v) : toLowerCopy v = v := by
  unfold toLowerCopy
  rw [List.map_congr_left fun b hb => (h b hb).2, List.map_id']

theorem isCoordinateChar_plain : ∀ b : UInt8, isCoordinateChar b = true →
    isValueChar b = true ∧ toLower b = b ∧ b ∉ bytes ", " ∧ isSpace b = false := by
  decide +kernel

theorem Coordinate.isLowerValue (c : Coordinate M) : IsLowerValue c.token := fun b hb =>
  have h := isCoordinateChar_plain b (c.token_char b hb)
  ⟨h.1, h.2.1⟩

theorem GetMapRequest.isLowerValue_params (g : GetMapRequest M) :
    ∀ e ∈ g.params, IsLowerValue e.2 := by
  have hbbox : IsLowerValue g.bboxString := by
    refine isLowerValue_intercalate fun v hv => ?_
    simp only [List.mem_cons, List.not_mem_nil, or_false] at hv
    rcases hv with rfl | rfl | rfl | rfl
    all_goals exact Coordinate.isLowerValue _
  have hlayers : IsLowerValue g.layerString :=
    isLowerValue_intercalate fun l hl => (g.layer l hl).2.1
  intro e he
  rcases List.mem_append.mp he with he | he
  · simp only [List.mem_cons, List.not_mem_nil, or_false] at he
    rcases he with rfl | rfl | rfl | rfl | rfl
    · exact hbbox
    · exact hlayers
    · exact g.srs_value
    · exact isLowerValue_decimal _
    · exact isLowerValue_decimal _
  · rw [Option.mem_toList, Option.map_eq_some_iff] at he
    obtain ⟨f, hf, rfl⟩ := he
    exact g.format_value f hf

theorem GetMapRequest.nodup_params (g : GetMapRequest M) : (g.params.map Prod.fst).Nodup := by
  unfold GetMapRequest.params
  rcases g.format with _ | f
  all_goals
    simp only [List.map_append, List.map_cons, List.map_nil, Option.map_none, Option.map_some,
      Option.toList_none, Option.toList_some]
    decide

/-- What the server finds in the query. -/
theorem GetMapRequest.find_eq (g : GetMapRequest M) (u : UriText g.params) {key : Bytes}
    (hkey : key ∈ parameterNames) : (wmsQuery u.query).find key = g.params.lookup key :=
  u.find_eq (by simp [GetMapRequest.params]) g.nodup_params
    (fun e he => (g.isLowerValue_params e he).toLowerCopy_eq) hkey

/-! ## The readers -/

/-- The tokens of joined pieces are the pieces. -/
theorem tokens_intercalate {delims : Bytes} {c : UInt8} (hc : c ∈ delims) {pieces : List Bytes}
    (h : ∀ p ∈ pieces, p ≠ [] ∧ ∀ b ∈ p, b ∉ delims) :
    tokens delims ([c].intercalate pieces) = pieces := by
  have hc : delims.contains c = true := by simpa using hc
  unfold tokens
  induction pieces with
  | nil => rfl
  | cons p ps ih =>
    obtain ⟨hne, hfree⟩ := h p List.mem_cons_self
    have hfree : ∀ b ∈ p, delims.contains b = false := by simpa using hfree
    have ih := ih fun q hq => h q (List.mem_cons_of_mem p hq)
    cases ps with
    | nil =>
      rw [List.intercalate_singleton, List.splitOnP_eq_singleton hfree]
      simp [hne]
    | cons q ps =>
      rw [List.intercalate_cons_cons, List.append_assoc, List.singleton_append,
        List.splitOnP_append_cons_of_forall_mem hfree c hc, List.filter_cons, ih]
      simp [hne]

/-- `atoi` on a printed number. -/
theorem atoi_decimal {n : Nat} (h : n < 2 ^ 31) : (atoi (decimal n)).toUInt32 = UInt32.ofNat n := by
  have hint : DecimalInt (decimal n) n :=
    ⟨decimal n, decimal_ne_nil n, isDecimal_decimal n, .inl ⟨rfl, by rw [ofDecimal_decimal]⟩⟩
  rw [atoi_decimalInt hint (by omega) (by omega), Int32.ofInt_eq_ofNat, Int32.toUInt32_ofNat']

theorem Coordinate.trimCopy_token (c : Coordinate M) : trimCopy c.token = c.token :=
  trimCopy_of_noSpace fun b hb => (isCoordinateChar_plain b (c.token_char b hb)).2.2.2

/-- The bounding box is read as it was meant. -/
theorem GetMapRequest.bbox_read (g : GetMapRequest M) :
    bboxFromString M.lexicalCast M.init M.envelope g.bboxString = (true, g.bbox) := by
  have htokens : tokens (bytes ", ") g.bboxString =
      [g.minx.token, g.miny.token, g.maxx.token, g.maxy.token] := by
    refine tokens_intercalate (by decide) fun p hp => ?_
    have token : ∀ c : Coordinate M, c.token ≠ [] ∧ ∀ b ∈ c.token, b ∉ bytes ", " := fun c =>
      ⟨c.token_ne, fun b hb => (isCoordinateChar_plain b (c.token_char b hb)).2.2.1⟩
    simp only [List.mem_cons, List.not_mem_nil, or_false] at hp
    rcases hp with rfl | rfl | rfl | rfl
    all_goals exact token _
  have hread := parseBboxFromString_ok M.lexicalCast M.init M.envelope g.bboxString
  rw [parseBboxFromString_eq, htokens] at hread
  simp only [List.take_succ_cons, List.take_zero, List.mapM_cons, List.mapM_nil,
    Coordinate.trimCopy_token, Coordinate.cast] at hread
  exact (Except.ok.inj hread).symm

/-- The layer names are read as they were meant. -/
theorem GetMapRequest.parseLayerString_eq (g : GetMapRequest M) :
    parseLayerString g.layerString = g.layers := by
  have htokens : tokens (bytes ",") g.layerString = g.layers := by
    refine tokens_intercalate (by decide) fun l hl => ⟨(g.layer l hl).1, ?_⟩
    intro b hb hcomma
    have : b = ch ',' := by simpa [bytes] using hcomma
    exact (g.layer l hl).2.2 (this ▸ hb)
  have htrim : g.layers.map trimCopy = g.layers := by
    rw [List.map_congr_left (g := id), List.map_id]
    intro l hl
    exact trimCopy_of_noSpace fun b hb =>
      (isValueChar_plain b ((g.layer l hl).2.1 b hb).1).2
  rw [parseLayerString, htokens, htrim, List.filter_eq_self]
  intro l hl
  simpa using (g.layer l hl).1

/-- The request is for all layers when `__all__` is its one name. -/
theorem GetMapRequest.all_iff (g : GetMapRequest M) :
    iequals g.layerString (bytes "__all__") = (g.layers == [bytes "__all__"]) := by
  have hlow : toLowerCopy g.layerString = g.layerString :=
    (isLowerValue_intercalate fun l hl => (g.layer l hl).2.1).toLowerCopy_eq
  have hsplit : g.layerString.splitOn (ch ',') = g.layers :=
    List.splitOn_intercalate _ (fun l hl => (g.layer l hl).2.2) g.layers_ne
  rw [iequals, hlow, Bool.eq_iff_iff, beq_iff_eq, beq_iff_eq]
  constructor
  · intro h
    rw [← hsplit, h]
    decide
  · intro h
    rw [GetMapRequest.layerString, h]
    decide

/-! ## The round trip -/

theorem GetMapRequest.key_mem (g : GetMapRequest M) :
    ∀ e ∈ g.params, e.1 ∈ parameterNames := by
  unfold GetMapRequest.params
  rcases g.format with _ | f <;> simp [parameterNames]

/-- What the server finds under the key of an entry. -/
theorem GetMapRequest.find_of_mem (g : GetMapRequest M) (u : UriText g.params)
    {e : Bytes × Bytes} (he : e ∈ g.params) : (wmsQuery u.query).find e.1 = some e.2 := by
  rw [g.find_eq u (g.key_mem e he), lookup_of_mem g.nodup_params he]

theorem GetMapRequest.getMime_eq (g : GetMapRequest M) (u : UriText g.params) :
    getMime (wmsQuery u.query) = g.format := by
  rw [getMime, g.find_eq u (by decide)]
  rcases h : g.format with _ | f
  · rw [GetMapRequest.params, h]
    rfl
  · refine lookup_of_mem g.nodup_params (e := (bytes "format", f)) ?_
    simp [GetMapRequest.params, h]

theorem ofNat_ne_zero {n : Nat} (hpos : 1 ≤ n) (hlt : n < 2 ^ 31) : UInt32.ofNat n ≠ 0 := by
  intro h
  have := congrArg UInt32.toNat h
  rw [UInt32.toNat_ofNat_of_lt' (show n < 2 ^ 32 by omega)] at this
  exact absurd this (show n ≠ 0 by omega)

/-- What `handle_request` reads from the query. -/
def GetMapRequest.read (g : GetMapRequest M) (u : UriText g.params) : GetMap M where
  query := wmsQuery u.query
  bbox := g.bbox
  w := UInt32.ofNat g.width
  h := UInt32.ofNat g.height
  layerString := g.layerString
  srs := g.srs

theorem GetMapRequest.accepts (g : GetMapRequest M) (u : UriText g.params) {req : Request}
    (huri : req.uri = u.render) : Accepts M req (g.read u) where
  path := by
    refine ⟨u.path ++ ch '?' :: u.query, ?_, ?_, ?_⟩
    · rw [huri]
      exact u.decodes
    · intro hempty
      have hbbox := g.find_of_mem u (e := (bytes "bbox", g.bboxString))
        (by simp [GetMapRequest.params])
      rw [u.queryOf_eq] at hempty
      rw [hempty] at hbbox
      cases hbbox
    · rw [u.queryOf_eq]
      rfl
  bbox := by
    refine ⟨g.bboxString, ?_, g.bbox_read⟩
    exact g.find_of_mem u (e := (bytes "bbox", g.bboxString))
      (by simp [GetMapRequest.params])
  width := by
    have h := g.find_of_mem u (e := (bytes "width", decimal g.width))
      (by simp [GetMapRequest.params])
    rw [getWidth, GetMapRequest.read, h, Option.map_some, atoi_decimal g.width_lt]
  height := by
    have h := g.find_of_mem u (e := (bytes "height", decimal g.height))
      (by simp [GetMapRequest.params])
    rw [getHeight, GetMapRequest.read, h, Option.map_some, atoi_decimal g.height_lt]
  size := ⟨ofNat_ne_zero g.width_pos g.width_lt, ofNat_ne_zero g.height_pos g.height_lt⟩
  layers := g.find_of_mem u (e := (bytes "layers", g.layerString))
    (by simp [GetMapRequest.params])
  srs := g.find_of_mem u (e := (bytes "srs", g.srs))
    (by simp [GetMapRequest.params])

/-- The handler configures the map as the client meant it. -/
theorem GetMapRequest.configure_read (g : GetMapRequest M) (u : UriText g.params) (m : M.Map) :
    (g.read u).configure m = g.configured m := by
  have hrequested : (g.read u).requested = g.requested := by
    funext name
    unfold GetMap.requested GetMapRequest.requested GetMapRequest.read
    rw [g.all_iff, g.parseLayerString_eq]
  unfold GetMap.configure
  rw [hrequested]
  rfl

/-- The reply with the image the client asked for. -/
def GetMapRequest.reply (g : GetMapRequest M) (m : M.Map) : Reply where
  status := .ok
  headers :=
    [⟨bytes "Content-Type", g.mime⟩, ⟨bytes "Server", bytes "PaleoServer/0.1.0"⟩,
      ⟨bytes "Content-Length", decimal (g.content m).length⟩]
  content := g.content m

/-- **The handler's answer** to any request with such a uri is the image, and it leaves the map
    as the client meant it. -/
theorem GetMapRequest.handled (g : GetMapRequest M) (u : UriText g.params) {req : Request}
    (huri : req.uri = u.render) (m : M.Map) :
    (handleRequest M req).run m = (g.reply m, g.configured m) := by
  have hread := (readGetMap_ok_iff req (g.read u)).mpr (g.accepts u huri)
  have hmime : (g.read u).mime = g.mime := by
    rw [GetMap.mime, GetMapRequest.read, g.getMime_eq u]
    rfl
  rw [run_handleRequest, hread]
  simp only [g.configure_read, imageReply, hmime]
  rfl

/-! ## The request on the wire -/

/-- A GetMap request on the wire. -/
structure GetMapText (g : GetMapRequest M) where
  uri : UriText g.params
  major : Bytes
  minor : Bytes
  lines : List Line
  major_version : IsVersion major
  minor_version : IsVersion minor
  lines_ok : LinesOk lines

/-- As a request text. -/
def GetMapText.requestText {g : GetMapRequest M} (t : GetMapText g) : RequestText where
  start :=
    { method := bytes "GET"
      uri := t.uri.render
      major := t.major
      minor := t.minor
      method_ne := by decide
      method_token := by decide +kernel
      uri_byte := t.uri.sent
      major_ne := t.major_version.1
      major_digit := t.major_version.2
      minor_ne := t.minor_version.1
      minor_digit := t.minor_version.2 }
  lines := t.lines
  lines_ok := t.lines_ok

/-- It is accepted at its last byte. -/
theorem GetMapText.parsed {g : GetMapRequest M} (t : GetMapText g) (rest : Bytes) :
    parse (.methodStart, .empty) (bytes "GET " ++ t.uri.render ++ bytes " HTTP/" ++ t.major ++
      bytes "." ++ t.minor ++ crlf ++ renderLines t.lines ++ crlf ++ rest) =
        .ok (some true, rest, .expectingNewline3, t.requestText.request) := by
  rw [← parse_complete t.requestText rest]
  simp [GetMapText.requestText, RequestText.render, StartLine.render, bytes]

/-- **The end-to-end round trip of a GetMap request.** However it is written as a uri, sent as
    a GET request with any version and headers it is accepted at its last byte, and the
    handler renders the map the client asked for and replies with its image. -/
theorem getMap_round_trip (g : GetMapRequest M) (u : UriText g.params) {major minor : Bytes}
    (hmajor : IsVersion major) (hminor : IsVersion minor) {lines : List Line}
    (hlines : LinesOk lines) (rest : Bytes) (m : M.Map) :
    ∃ st req, parse (.methodStart, .empty) (bytes "GET " ++ u.render ++ bytes " HTTP/" ++
        major ++ bytes "." ++ minor ++ crlf ++ renderLines lines ++ crlf ++ rest) =
          .ok (some true, rest, st, req) ∧
      (handleRequest M req).run m = (g.reply m, g.configured m) ∧
      (g.configured m).width.toNat = g.width ∧ (g.configured m).height.toNat = g.height := by
  refine ⟨_, _, GetMapText.parsed ⟨u, major, minor, lines, hmajor, hminor, hlines⟩ rest,
    g.handled u rfl m, ?_, ?_⟩
  · exact UInt32.toNat_ofNat_of_lt' (Nat.lt_trans g.width_lt (by decide))
  · exact UInt32.toNat_ofNat_of_lt' (Nat.lt_trans g.height_lt (by decide))

/-! ## A sample -/

def sampleCoordinate (n : Nat) : Coordinate Mapnik.sample where
  token := decimal n
  value := n
  token_ne := decimal_ne_nil n
  token_char := by
    have digit : ∀ b : UInt8, isDecimal b = true → isCoordinateChar b = true := by
      decide +kernel
    exact fun b hb => digit b (isDecimal_decimal n b hb)
  cast := by
    have hall : (decimal n).all isDecimal = true := List.all_eq_true.mpr (isDecimal_decimal n)
    show (if decimal n ≠ [] ∧ (decimal n).all isDecimal then some (ofDecimal (decimal n))
      else none) = some n
    rw [if_pos ⟨decimal_ne_nil n, hall⟩, ofDecimal_decimal]

def sampleGetMap : GetMapRequest Mapnik.sample where
  layers := [bytes "roads"]
  srs := bytes "epsg:4326"
  minx := sampleCoordinate 0
  miny := sampleCoordinate 0
  maxx := sampleCoordinate 10
  maxy := sampleCoordinate 20
  width := 256
  height := 128
  format := none
  layers_ne := by decide
  layer := by
    intro l hl
    rw [List.mem_singleton.mp hl]
    exact ⟨by decide, fun c hc => by revert c; decide +kernel, by decide +kernel⟩
  srs_ne := by decide
  srs_value := fun c hc => by revert c; decide +kernel
  width_pos := by decide
  width_lt := by decide
  height_pos := by decide
  height_lt := by decide
  format_value := by simp

/-- With an escape in a key and one in a value, keys of either case and a pair of another key. -/
def sampleUri : UriText sampleGetMap.params where
  path := bytes "/wms"
  pairs :=
    [⟨.literal (bytes "REQUEST"), some (.literal (bytes "GetMap"))⟩,
      ⟨.literal (bytes "width"), some (.literal (bytes "256"))⟩,
      ⟨.escape (ch '4') (ch 'C') :: Written.literal (bytes "ayers"), some (.literal (bytes "roads"))⟩,
      ⟨.literal (bytes "HEIGHT"), some (.literal (bytes "128"))⟩,
      ⟨.literal (bytes "srs"), some (Written.literal (bytes "epsg") ++
        .escape (ch '3') (ch 'a') :: Written.literal (bytes "4326"))⟩,
      ⟨.literal (bytes "bbox"), some (.literal (bytes "0,0,10,20"))⟩]
  path_first := by decide
  path_byte := by decide +kernel
  pair_ok := by decide +kernel
  params_perm := by decide +kernel

example : sampleUri.render =
    bytes "/wms?REQUEST=GetMap&width=256&%4Cayers=roads&HEIGHT=128&srs=epsg%3a4326&bbox=0,0,10,20" := by
  decide +kernel

theorem getMap_round_trip_sample :
    ∃ st req, parse (.methodStart, .empty) (bytes "GET " ++ sampleUri.render ++ bytes " HTTP/" ++
        bytes "1" ++ bytes "." ++ bytes "1" ++ crlf ++
        renderLines [.header (bytes "Host") (bytes "localhost")] ++ crlf ++ []) =
          .ok (some true, [], st, req) ∧
      (handleRequest Mapnik.sample req).run sampleMap =
        (sampleGetMap.reply sampleMap, sampleGetMap.configured sampleMap) ∧
      (sampleGetMap.configured sampleMap).width.toNat = 256 ∧
      (sampleGetMap.configured sampleMap).height.toNat = 128 := by
  have hversion : IsVersion (bytes "1") := ⟨by decide, by decide +kernel⟩
  have hlines : LinesOk [.header (bytes "Host") (bytes "localhost")] := by
    refine ⟨fun l hl => ?_, by decide⟩
    rw [List.mem_singleton.mp hl]
    exact ⟨by decide, by decide +kernel, by decide +kernel⟩
  exact getMap_round_trip sampleGetMap sampleUri hversion hversion hlines [] sampleMap

end PaleoServer
