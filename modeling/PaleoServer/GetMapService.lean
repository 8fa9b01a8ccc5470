/-
  The service, from the bytes a client sends to the bytes it gets.

  A client sends a GetMap request in any of the ways `UriText` allows, cut into any reads, to a
  server of any size that is busy with other clients. Proved: `getMap_served`. The client is
  sent the image of the map it has asked for, drawn from the stylesheet as it was loaded,
  and a strict reader finds the image in what is written.
-/
import PaleoServer.GetMapRoundTrip
import PaleoServer.ServerAnswers

namespace PaleoServer

open Atomic Trace

variable {M : Mapnik}

/-- Whatever follows it, it stands for the reply with the image. -/
theorem GetMapText.replyOf_eq {g : GetMapRequest M} (t : GetMapText g) (rest : Bytes)
    (m : M.Map) :
    replyOf m (Parsing.fresh.parse (t.requestText.render ++ rest)) = some (g.reply m) := by
  rcases hp : Parsing.fresh.parse (t.requestText.render ++ rest) with ⟨v, r, q⟩
  have hparse := (Parsing.parse_eq_iff ..).mp hp
  have hrequest : (v, r, q.state, q.request) =
      (some true, rest, .expectingNewline3, t.requestText.request) :=
    Except.ok.inj (hparse.symm.trans (parse_complete t.requestText rest))
  simp only [Prod.mk.injEq] at hrequest
  obtain ⟨rfl, -, -, hreq⟩ := hrequest
  show some ((handleRequest M q.request).run m).1 = _
  rw [hreq, g.handled t.uri rfl]

/-- **A GetMap request gets its image**: after any run of a server of any size, when what has
    arrived on a connection is a GetMap request, however written, and whatever follows it, and
    the handlers of the connection have ended, then exactly one reply has been written on it,
    the image of the map the request asks for, as mapnik draws it from the stylesheet; and a
    strict reader finds that image in the bytes. -/
theorem getMap_served (M : Mapnik) (n : Nat) (stylesheet : M.Map) (s₀ s : Server M)
    (evs : List ServerEvent) (hcreate : Server.create M n stylesheet = .ok s₀)
    (hrun : Run ServerStep s₀ evs s) (k : Nat) (c : Connection)
    (hc : s.connections[k]? = some c) (hidle : s.machine.running c.ioService = none)
    (g : GetMapRequest M) (t : GetMapText g) (rest : Bytes)
    (hsent : received k (evs.filterMap ServerEvent.arrival) = t.requestText.render ++ rest) :
    (∀ rep, .asyncWrite rep ∈ c.log ↔ rep = g.reply stylesheet) ∧
      MessageReader.read (g.reply stylesheet).toBuffers.flatten =
        some (statusLine .ok,
          [(bytes "Content-Type", g.mime), (bytes "Server", bytes "PaleoServer/0.1.0"),
            (bytes "Content-Length", decimal (g.content stylesheet).length)],
          g.content stylesheet, []) := by
  have hsound : Sound n s := run_invariant (fun _ _ _ hs h => hs.step h) hrun
    (sound_create hcreate)
  obtain ⟨hreply, hwritten⟩ := (serialInvariant_settle hcreate hrun).answered hsound hc hidle
  have hrep := t.replyOf_eq rest stylesheet
  rw [hsent, hrep] at hreply
  refine ⟨fun rep => ?_, (framed_replyOf hrep).decodes⟩
  rw [hwritten, hreply, Option.some.injEq]
  exact eq_comm

def sampleGetMapText : GetMapText sampleGetMap where
  uri := sampleUri
  major := bytes "1"
  minor := bytes "1"
  lines := [.header (bytes "Host") (bytes "localhost")]
  major_version := ⟨by decide, by decide +kernel⟩
  minor_version := ⟨by decide, by decide +kernel⟩
  lines_ok := by
    refine ⟨fun l hl => ?_, by decide⟩
    rw [List.mem_singleton.mp hl]
    exact ⟨by decide, by decide +kernel, by decide +kernel⟩

/-- A server of two io_services and one client. -/
theorem getMap_served_sample :
    ∃ evs s c, Run ServerStep (Server.initial .sample 2 sampleMap) evs s ∧
      s.connections[0]? = some c ∧ .asyncWrite (sampleGetMap.reply sampleMap) ∈ c.log := by
  obtain ⟨evs, s, hrun, hquiet, hevs, hc⟩ := first_read_run .sample (n := 2) (by decide) sampleMap
    (sampleGetMapText.requestText.render ++ bytes "GET / HTTP")
  have hsent : received 0 (evs.filterMap ServerEvent.arrival) =
      sampleGetMapText.requestText.render ++ bytes "GET / HTTP" := by
    rw [hevs]
    exact (received_snoc 0 [.accept false] _).trans (bytesFor_read 0 _)
  obtain ⟨hwritten, _⟩ := getMap_served .sample 2 sampleMap _ s evs
    (create_eq .sample (by decide) sampleMap) hrun 0 _ hc (congrFun hquiet _) sampleGetMap
    sampleGetMapText (bytes "GET / HTTP") hsent
  exact ⟨evs, s, _, hrun, hc, (hwritten _).mpr rfl⟩

end PaleoServer
