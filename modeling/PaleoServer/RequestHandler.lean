/-
  `request_handler::handle_request` (`src/request_handler.cpp`), in the MAP_PER_IO build.

  What the handler uses of mapnik is the parameter `Mapnik`: the setters overwrite their own
  field of the map, rendering is a function of the map and an image, and nothing throws.
  `handleRequest` is a program over the map of the connection (`Atomic.Prog`): each
  operation on the map is an atomic step of its own. The part before the first of them, with
  every early return, is `readGetMap`.

  Proved: `run_handleRequest`, what a request does when it has the map for itself. A rejected
  request does not touch the map, an accepted one leaves `GetMap.configure`, which depends
  on the layers and the data no request changes; `SameStylesheet` maps get one reply.
-/
import PaleoServer.Lib.Atomic
import PaleoServer.UriParser
import PaleoServer.UrlDecode
import PaleoServer.Reply

namespace PaleoServer

open Atomic

/-! ## mapnik -/

/-- `mapnik::layer`: its name, its active flag and everything else. -/
structure Layer (LayerData : Type) where
  name : Bytes
  active : Bool
  data : LayerData
  deriving DecidableEq, Repr

/-- `mapnik::Map`: the fields the server sets and everything else. -/
structure MapObject (Envelope LayerData MapData : Type) where
  srs : Bytes
  layers : List (Layer LayerData)
  width : UInt32
  height : UInt32
  currentExtent : Envelope
  data : MapData
  deriving DecidableEq, Repr

/-- What the handler uses of mapnik, and `boost::lexical_cast<double>`. -/
structure Mapnik where
  Double : Type
  Envelope : Type
  LayerData : Type
  MapData : Type
  Image : Type
  lexicalCast : Bytes → Option Double
  envelope : Envelope
  init : Double → Double → Double → Double → Envelope
  image32 : UInt32 → UInt32 → Image
  aggRender : MapObject Envelope LayerData MapData → Image → Image
  saveToString : Image → Bytes → Bytes

/-- The maps of a mapnik. -/
abbrev Mapnik.Map (M : Mapnik) := MapObject M.Envelope M.LayerData M.MapData

variable {M : Mapnik}

/-- `Map::set_srs`. -/
def setSrs (srs : Bytes) (m : M.Map) : M.Map := { m with srs }

/-- `Map::resize`. -/
def resize (width height : UInt32) (m : M.Map) : M.Map := { m with width, height }

/-- `Map::zoom_to_box`. -/
def zoomToBox (currentExtent : M.Envelope) (m : M.Map) : M.Map := { m with currentExtent }

/-- `layer::setActive` on one element of `layers()`, with an argument computed from its name. -/
def setActive (requested : Bytes → Bool) (i : Nat) (m : M.Map) : M.Map :=
  { m with layers := m.layers.modify i fun lyr => { lyr with active := requested lyr.name } }

/-! ## The checks -/

/-- What `handle_request` has read from the query once no early return is left. -/
structure GetMap (M : Mapnik) where
  query : Params
  bbox : M.Envelope
  w : UInt32
  h : UInt32
  layerString : Bytes
  srs : Bytes

/-- The text after the first `?` of the request path. -/
def queryOf (requestPath : Bytes) : Bytes := (requestPath.dropWhile (· ≠ ch '?')).drop 1

/-- `s_error` of the two checks of the size. -/
def sizeError (text : String) (w h : UInt32) : Bytes :=
  bytes text ++ bytes " got width value of: " ++ decimal w.toNat ++
    bytes " got height value of: " ++ decimal h.toNat ++ bytes "\n"

/-- `if (refused) { rep = ...; return; }`. -/
def returnIf (refused : Bool) (rep : Reply) : Except Reply Unit :=
  if refused then .error rep else .ok ()

/-- A getter of the query that reports whether it found its key, with the early return. -/
def orReturn (got : Option Bytes) (rep : Reply) : Except Reply Bytes :=
  match got with
  | none => .error rep
  | some v => .ok v

/-- `get_width(w)` and `get_height(h)` on variables that hold 0; the second is not called when
    the first fails. -/
def readSize (query : Params) : Except Reply (UInt32 × UInt32) :=
  match getWidth query with
  | none => .error (replyHtml (sizeError "missing width or height." 0 0))
  | some w =>
    match getHeight query with
    | none => .error (replyHtml (sizeError "missing width or height." w 0))
    | some h => .ok (w, h)

/-- `handle_request` up to the first operation on the map: an early return with its reply, or
    the values read. -/
def readGetMap (M : Mapnik) (req : Request) : Except Reply (GetMap M) := do
  let (decoded, requestPath) := urlDecode req.uri []
  returnIf (!decoded) (stockReply .badRequest)
  let query := queryOf requestPath
  returnIf query.isEmpty (replyHtml (bytes "Ready to accept Query"))
  let query := wmsQuery query
  let bboxString ← orReturn (getBboxString query) (replyHtml (bytes "missing bbox"))
  let (success, bbox) := bboxFromString M.lexicalCast M.init M.envelope bboxString
  returnIf (!success) (replyHtml (bytes "failed to parse bbox"))
  let (w, h) ← readSize query
  returnIf (w == 0 || h == 0) (replyHtml (sizeError "width and height must be > 0." w h))
  let layerString ← orReturn (getLayerString query) (replyHtml (bytes "missing layers"))
  let srs ← orReturn (getSrs query) (replyHtml (bytes "missing srs"))
  return { query, bbox, w, h, layerString, srs }

/-! ## When a request is accepted -/

theorem returnIf_ok_iff (refused : Bool) (rep : Reply) (u : Unit) :
    returnIf refused rep = .ok u ↔ refused = false := by
  cases refused <;> simp [returnIf]

theorem orReturn_ok_iff (got : Option Bytes) (rep : Reply) (v : Bytes) :
    orReturn got rep = .ok v ↔ got = some v := by
  cases got <;> simp [orReturn]

theorem readSize_ok_iff (query : Params) (s : UInt32 × UInt32) :
    readSize query = .ok s ↔ getWidth query = some s.1 ∧ getHeight query = some s.2 := by
  obtain ⟨w, h⟩ := s
  unfold readSize
  rcases getWidth query with _ | w'
  · simp
  · rcases getHeight query with _ | h' <;> simp

/-- What an accepted request consists of. -/
structure Accepts (M : Mapnik) (req : Request) (g : GetMap M) : Prop where
  path : ∃ requestPath, urlDecode req.uri [] = (true, requestPath) ∧
    queryOf requestPath ≠ [] ∧ g.query = wmsQuery (queryOf requestPath)
  bbox : ∃ s, getBboxString g.query = some s ∧
    bboxFromString M.lexicalCast M.init M.envelope s = (true, g.bbox)
  width : getWidth g.query = some g.w
  height : getHeight g.query = some g.h
  size : g.w ≠ 0 ∧ g.h ≠ 0
  layers : getLayerString g.query = some g.layerString
  srs : getSrs g.query = some g.srs

/-- The handler gets past its early returns exactly on these requests. -/
theorem readGetMap_ok_iff (req : Request) (g : GetMap M) :
    readGetMap M req = .ok g ↔ Accepts M req g := by
  obtain ⟨query, bbox, w, h, layerString, srs⟩ := g
  rcases hp : urlDecode req.uri [] with ⟨decoded, requestPath⟩
  simp only [readGetMap, hp, Feed.bind_ok_iff, returnIf_ok_iff, orReturn_ok_iff,
    readSize_ok_iff]
  constructor
  · rintro ⟨_, hdec, _, hq, s, hs, _, hb, ⟨w', h'⟩, ⟨hw, hh⟩, _, hsize, l, hl, srs', hsrs, hg⟩
    cases hg
    have hdecoded : decoded = true := by simpa using hdec
    have hsuccess : (bboxFromString M.lexicalCast M.init M.envelope s).1 = true := by
      simpa using hb
    refine ⟨⟨requestPath, ?_, ?_, rfl⟩, ⟨s, hs, ?_⟩, hw, hh, ?_, hl, hsrs⟩
    · rw [hp, hdecoded]
    · simpa using hq
    · rw [← hsuccess]
    · simpa using hsize
  · rintro ⟨⟨path, hd, hq, hw⟩, ⟨s, hs, hb⟩, hwidth, hheight, ⟨hw0, hh0⟩, hlayers, hsrs⟩
    rw [hp] at hd
    cases hd
    simp only at hw hs hwidth hheight hw0 hh0 hlayers hsrs
    subst hw
    refine ⟨(), rfl, (), ?_, s, hs, (), ?_, (w, h), ⟨hwidth, hheight⟩, (), ?_, layerString,
      hlayers, srs, hsrs, ?_⟩
    · simpa using hq
    · rw [hb]
      rfl
    · simp [hw0, hh0]
    · rw [hb]
      rfl

/-! ## The map -/

/-- The argument of `setActive` for a layer of this name. -/
def GetMap.requested (g : GetMap M) (name : Bytes) : Bool :=
  iequals g.layerString (bytes "__all__") || (parseLayerString g.layerString).contains name

/-- The MIME type of the image. -/
def GetMap.mime (g : GetMap M) : Bytes := (getMime g.query).getD (bytes "image/png")

/-- The reply with an image. -/
def imageReply (g : GetMap M) (im : M.Image) : Reply :=
  let content := M.saveToString im (typeToExtension g.mime)
  { status := .ok
    headers :=
      [⟨bytes "Content-Type", g.mime⟩, ⟨bytes "Server", bytes "PaleoServer/0.1.0"⟩,
        ⟨bytes "Content-Length", decimal content.length⟩]
    content }

/-- `handle_request` from the first operation on the map on. -/
def render (g : GetMap M) : Prog M.Map Reply := do
  Prog.modify (setSrs (bytes "+init=" ++ g.srs))
  let im := M.image32 g.w g.h
  let layers ← Prog.read fun m => m.layers.length
  (List.range layers).forM fun i => Prog.modify (setActive g.requested i)
  Prog.modify (resize g.w g.h)
  Prog.modify (zoomToBox g.bbox)
  let im ← Prog.read fun m => M.aggRender m im
  return imageReply g im

/-- `request_handler::handle_request`: the reply, by a program over the map. -/
def handleRequest (M : Mapnik) (req : Request) : Prog M.Map Reply :=
  match readGetMap M req with
  | .error rep => pure rep
  | .ok g => render g

/-! ## A request with the map for itself -/

/-- The map as an accepted request leaves it. -/
def GetMap.configure (g : GetMap M) (m : M.Map) : M.Map where
  srs := bytes "+init=" ++ g.srs
  layers := m.layers.map fun lyr => { lyr with active := g.requested lyr.name }
  width := g.w
  height := g.h
  currentExtent := g.bbox
  data := m.data

theorem modify_length_append {α : Type} (f : α → α) (as : List α) (x : α) (bs : List α) :
    (as ++ x :: bs).modify as.length f = as ++ f x :: bs := by
  induction as with
  | nil => rfl
  | cons a as ih => rw [List.cons_append, List.length_cons, List.modify_succ_cons, ih]; rfl

/-- A loop over the indices of a list that modifies the element at each of them. -/
theorem modify_foldl {α : Type} (f : α → α) (as : List α) (n : Nat) (hn : n ≤ as.length) :
    (List.range n).foldl (fun as i => as.modify i f) as = (as.take n).map f ++ as.drop n := by
  induction n with
  | zero => simp
  | succ n ih =>
    have hlt : n < as.length := hn
    have hlen : ((as.take n).map f).length = n := by
      rw [List.length_map, List.length_take]
      omega
    have hmod := modify_length_append f ((as.take n).map f) as[n] (as.drop (n + 1))
    rw [hlen] at hmod
    rw [List.range_succ, List.foldl_append, ih (Nat.le_of_succ_le hn), List.foldl_cons,
      List.foldl_nil, List.drop_eq_getElem_cons hlt, hmod, List.take_succ_eq_append_getElem hlt,
      List.map_append, List.append_assoc]
    rfl

/-- The loop over the layers. -/
theorem setActive_foldl (requested : Bytes → Bool) (m : M.Map) :
    (List.range m.layers.length).foldl (fun m i => setActive requested i m) m =
      { m with layers := m.layers.map fun lyr => { lyr with active := requested lyr.name } } := by
  have key : ∀ is : List Nat, is.foldl (fun m i => setActive requested i m) m =
      { m with layers := is.foldl (fun ls i => ls.modify i fun lyr =>
          { lyr with active := requested lyr.name }) m.layers } := by
    intro is
    induction is using List.reverseRecOn with
    | nil => rfl
    | append_singleton is i ih =>
      rw [List.foldl_append, ih, List.foldl_append]
      rfl
  rw [key, modify_foldl _ _ _ (Nat.le_refl _), List.take_length, List.drop_length,
    List.append_nil]

theorem run_render (g : GetMap M) (m : M.Map) :
    (render g).run m =
      (imageReply g (M.aggRender (g.configure m) (M.image32 g.w g.h)), g.configure m) := by
  unfold render
  simp only [Prog.run_bind, Prog.run_modify, Prog.run_read, Prog.run_forM, Prog.run_pure,
    setActive_foldl]
  rfl

/-- **What a request does**: an early return leaves the map alone; otherwise the reply shows
    the map configured by the request, and the map stays so configured. -/
theorem run_handleRequest (req : Request) (m : M.Map) :
    (handleRequest M req).run m =
      match readGetMap M req with
      | .error rep => (rep, m)
      | .ok g =>
        (imageReply g (M.aggRender (g.configure m) (M.image32 g.w g.h)), g.configure m) := by
  unfold handleRequest
  rcases readGetMap M req with rep | g
  · rfl
  · exact run_render g m

/-! ## What requests leave alone -/

/-- A layer without its active flag. -/
def Layer.identity {D : Type} (lyr : Layer D) : Bytes × D := (lyr.name, lyr.data)

/-- Maps that differ only in what requests set: loaded from one stylesheet. -/
def SameStylesheet (m m' : M.Map) : Prop :=
  m.data = m'.data ∧ m.layers.map Layer.identity = m'.layers.map Layer.identity

theorem SameStylesheet.refl (m : M.Map) : SameStylesheet m m := ⟨rfl, rfl⟩

theorem SameStylesheet.symm {m m' : M.Map} (h : SameStylesheet m m') : SameStylesheet m' m :=
  ⟨h.1.symm, h.2.symm⟩

theorem SameStylesheet.trans {m m' m'' : M.Map} (h : SameStylesheet m m')
    (h' : SameStylesheet m' m'') : SameStylesheet m m'' :=
  ⟨h.1.trans h'.1, h.2.trans h'.2⟩

/-- An accepted request overwrites everything in which the two maps may differ. -/
theorem SameStylesheet.configure_eq {m m' : M.Map} (h : SameStylesheet m m') (g : GetMap M) :
    g.configure m = g.configure m' := by
  obtain ⟨hdata, hlayers⟩ := h
  have hset : ∀ ls : List (Layer M.LayerData),
      ls.map (fun lyr => ({ lyr with active := g.requested lyr.name } : Layer M.LayerData)) =
        (ls.map Layer.identity).map fun e => ⟨e.1, g.requested e.1, e.2⟩ := by
    intro ls
    rw [List.map_map]
    rfl
  unfold GetMap.configure
  rw [hset m.layers, hset m'.layers, hlayers, hdata]

theorem sameStylesheet_configure (g : GetMap M) (m : M.Map) :
    SameStylesheet m (g.configure m) := by
  refine ⟨rfl, ?_⟩
  simp only [GetMap.configure, List.map_map]
  rfl

theorem sameStylesheet_handleRequest (req : Request) (m : M.Map) :
    SameStylesheet m ((handleRequest M req).run m).2 := by
  rw [run_handleRequest]
  rcases readGetMap M req with rep | g
  · exact .refl m
  · exact sameStylesheet_configure g m

/-- **Maps loaded from one stylesheet give one reply**, whatever requests they have seen. -/
theorem SameStylesheet.reply_eq {m m' : M.Map} (h : SameStylesheet m m') (req : Request) :
    ((handleRequest M req).run m).1 = ((handleRequest M req).run m').1 := by
  rw [run_handleRequest, run_handleRequest]
  rcases readGetMap M req with rep | g
  · rfl
  · simp only [h.configure_eq g]

/-! ## What the reply depends on -/

/-- Two requests whose queries are both empty or neither, and hold the same parameters, are
    read alike. -/
theorem readGetMap_eq_of_find {req req' : Request} {path path' : Bytes}
    (hpath : urlDecode req.uri [] = (true, path)) (hpath' : urlDecode req'.uri [] = (true, path'))
    (hempty : (queryOf path').isEmpty = (queryOf path).isEmpty)
    (hfind : ∀ key, (wmsQuery (queryOf path')).find key = (wmsQuery (queryOf path)).find key) :
    readGetMap M req' =
      (fun g => { g with query := wmsQuery (queryOf path') }) <$> readGetMap M req := by
  have hbbox : getBboxString (wmsQuery (queryOf path')) = getBboxString (wmsQuery (queryOf path)) :=
    hfind _
  have hlayers : getLayerString (wmsQuery (queryOf path')) =
      getLayerString (wmsQuery (queryOf path)) := hfind _
  have hsrs : getSrs (wmsQuery (queryOf path')) = getSrs (wmsQuery (queryOf path)) := hfind _
  have hsize : readSize (wmsQuery (queryOf path')) = readSize (wmsQuery (queryOf path)) := by
    unfold readSize getWidth getHeight
    rw [hfind, hfind]
  simp only [readGetMap, hpath, hpath', hempty, hbbox, hlayers, hsrs, hsize, map_bind, map_pure]

/-- **The reply and the map depend on the parameters alone**: not on how the uri is written, nor on
    the order in which they are stored, nor on the rest of the request. -/
theorem run_eq_of_find {req req' : Request} {path path' : Bytes}
    (hpath : urlDecode req.uri [] = (true, path)) (hpath' : urlDecode req'.uri [] = (true, path'))
    (hempty : (queryOf path').isEmpty = (queryOf path).isEmpty)
    (hfind : ∀ key, (wmsQuery (queryOf path')).find key = (wmsQuery (queryOf path)).find key)
    (m : M.Map) : (handleRequest M req').run m = (handleRequest M req).run m := by
  rw [run_handleRequest, run_handleRequest, readGetMap_eq_of_find hpath hpath' hempty hfind]
  rcases hread : readGetMap M req with rep | g
  · rfl
  · obtain ⟨p, hp, _, hquery⟩ := ((readGetMap_ok_iff req g).mp hread).path
    rw [hpath] at hp
    cases hp
    have hmime : getMime (wmsQuery (queryOf path')) = getMime g.query := by
      rw [hquery]
      exact hfind _
    simp only [Except.map_ok, imageReply, GetMap.mime, hmime]
    rfl

/-! ## A small mapnik

  Integer coordinates, and images that say which layers were drawn. -/

def Mapnik.sample : Mapnik where
  Double := Nat
  Envelope := Nat × Nat × Nat × Nat
  LayerData := Unit
  MapData := Unit
  Image := Bytes
  lexicalCast s := if s ≠ [] ∧ s.all isDecimal then some (ofDecimal s) else none
  envelope := (0, 0, 0, 0)
  init a b c d := (min a c, min b d, max a c, max b d)
  image32 _ _ := []
  aggRender m im := im ++ (m.layers.filter (·.active)).flatMap (·.name)
  saveToString im _ := im

def sampleMap : Mapnik.sample.Map where
  srs := []
  layers := [⟨bytes "rivers", true, ()⟩, ⟨bytes "roads", true, ()⟩]
  width := 256
  height := 256
  currentExtent := (0, 0, 0, 0)
  data := ()

end PaleoServer
