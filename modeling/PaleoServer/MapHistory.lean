/-
  A map over a sequence of requests. The maps of the pool live as long as the server and are
  changed in place, so a map carries what earlier requests left in it.

  `map_after_requests`: it carries the settings of the last accepted request, and nothing
  of any other. When every request was rejected it is the map that was loaded.
-/
import PaleoServer.RequestHandler

namespace PaleoServer

variable {M : Mapnik}

/-- Requests handled one after another on one map. -/
def handleAll (m : M.Map) (reqs : List Request) : M.Map :=
  reqs.foldl (fun m req => ((handleRequest M req).run m).2) m

/-- The last request of the list that is not answered by an early return. -/
def lastAccepted (M : Mapnik) (reqs : List Request) : Option (GetMap M) :=
  (reqs.filterMap fun req => (readGetMap M req).toOption).getLast?

theorem configure_configure (g g' : GetMap M) (m : M.Map) :
    g'.configure (g.configure m) = g'.configure m :=
  (sameStylesheet_configure g m).configure_eq g' |>.symm

/-- A rejected request leaves the map as it is. -/
theorem handleAll_snoc_rejected {req : Request} {rep : Reply} (h : readGetMap M req = .error rep)
    (m : M.Map) (reqs : List Request) : handleAll m (reqs ++ [req]) = handleAll m reqs := by
  unfold handleAll
  rw [List.foldl_append, List.foldl_cons, List.foldl_nil, run_handleRequest, h]

theorem handleAll_snoc_accepted {req : Request} {g : GetMap M} (h : readGetMap M req = .ok g)
    (m : M.Map) (reqs : List Request) :
    handleAll m (reqs ++ [req]) = g.configure (handleAll m reqs) := by
  unfold handleAll
  rw [List.foldl_append, List.foldl_cons, List.foldl_nil, run_handleRequest, h]

theorem lastAccepted_snoc (reqs : List Request) (req : Request) :
    lastAccepted M (reqs ++ [req]) =
      match readGetMap M req with
      | .error _ => lastAccepted M reqs
      | .ok g => some g := by
  unfold lastAccepted
  rw [List.filterMap_append]
  rcases h : readGetMap M req with rep | g
  · rw [List.filterMap_cons_none (by rw [h]; rfl), List.filterMap_nil, List.append_nil]
  · rw [List.filterMap_cons_some (by rw [h]; rfl), List.filterMap_nil, List.getLast?_concat]

/-- **The map after any requests**: the initial map when all were rejected. Otherwise its
    srs, size, extent and active flags are those of the last accepted request, whatever came
    before it, and the rest is as it was loaded. -/
theorem map_after_requests (m : M.Map) (reqs : List Request) :
    handleAll m reqs =
      match lastAccepted M reqs with
      | none => m
      | some g =>
        { srs := bytes "+init=" ++ g.srs
          layers := m.layers.map fun lyr => { lyr with active := g.requested lyr.name }
          width := g.w
          height := g.h
          currentExtent := g.bbox
          data := m.data } := by
  show _ = match lastAccepted M reqs with
    | none => m
    | some g => g.configure m
  induction reqs using List.reverseRecOn with
  | nil => rfl
  | append_singleton reqs req ih =>
    rw [lastAccepted_snoc]
    rcases h : readGetMap M req with rep | g
    · rw [handleAll_snoc_rejected h, ih]
    · rw [handleAll_snoc_accepted h, ih]
      rcases lastAccepted M reqs with _ | g'
      · rfl
      · exact configure_configure g' g m

end PaleoServer
