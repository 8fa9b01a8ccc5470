/-
  How much a client can make the server store.

  A request is kept in strings and vectors that grow by at most one byte for each byte read
  (`Step.stored_le`), so a connection stores no more than it has received. There is no other
  bound: the parser counts nothing, and a client that goes on sending its method is read for
  ever. Proved: `request_memory`.
-/
import PaleoServer.ConnectionIndependence

namespace PaleoServer

open Atomic Trace

variable {M : Mapnik}

/-- The bytes in the strings of headers. -/
def headersStored (hs : List Header) : Nat :=
  (hs.map fun h => h.name.length + h.value.length).sum

/-- The bytes in the strings of a request. -/
def Request.stored (req : Request) : Nat :=
  req.method.length + req.uri.length + headersStored req.headers

theorem headersStored_snoc (hs : List Header) (h : Header) :
    headersStored (hs ++ [h]) = headersStored hs + (h.name.length + h.value.length) := by
  unfold headersStored
  rw [List.map_append, List.sum_append, List.map_singleton, List.sum_singleton]

/-- One byte read is at most one byte stored. -/
theorem Step.stored_le {st st' : State} {req req' : Request} {b : UInt8}
    (h : Step st req b st' req') : req'.stored ≤ req.stored + 1 := by
  cases h with
  | headerLineStart _ =>
    simp only [Request.stored, headersStored_snoc, List.length_cons, List.length_nil]
    omega
  | foldValue _ _ hreq =>
    simp only [Request.stored, hreq, headersStored_snoc, Header.pushValue, List.length_append,
      List.length_cons, List.length_nil]
    omega
  | headerName _ hreq =>
    simp only [Request.stored, hreq, headersStored_snoc, Header.pushName, List.length_append,
      List.length_cons, List.length_nil]
    omega
  | headerValue _ hreq =>
    simp only [Request.stored, hreq, headersStored_snoc, Header.pushValue, List.length_append,
      List.length_cons, List.length_nil]
    omega
  | _ =>
    simp only [Request.stored, List.length_append, List.length_cons, List.length_nil]
    omega

/-- A parser stores no more than it consumes. -/
theorem stored_of_parse {st st' : State} {req req' : Request} {bs r : Bytes} {v : Tribool}
    (h : parse (st, req) bs = .ok (v, r, st', req')) :
    req'.stored + r.length ≤ req.stored + bs.length := by
  induction bs generalizing st req with
  | nil =>
    cases h
    exact Nat.le_refl _
  | cons b bs ih =>
    unfold parse at h ih
    rw [List.length_cons]
    rcases hs : consumeStep (st, req) b with e | ⟨_ | w, st₁, req₁⟩
    · rw [Feed.feed_cons_error hs] at h
      cases h
    · rw [Feed.feed_cons_none hs] at h
      have hstep : req₁.stored ≤ req.stored + 1 := ((consume_none_iff _ _ _ _ _).mp hs).stored_le
      have hrest := ih h
      omega
    · rw [Feed.feed_cons_some hs] at h
      obtain ⟨-, hreq, -⟩ := consume_some hs
      cases h
      rw [show req' = req from hreq]
      omega

/-! ## Connections -/

/-- The bytes a completion delivers. -/
def Completion.bytes : Completion → Bytes
  | .read (some input) => input
  | _ => []

/-- What is stored for a connection. -/
def Connection.stored (c : Connection) : Nat := c.parsing.request.stored

theorem stored_parse (c : Connection) (input : Bytes) :
    (c.parse input).2.stored ≤ c.stored + input.length := by
  rcases hp : c.parsing.parse input with ⟨v, r, q⟩
  obtain ⟨d, hd, hq⟩ := connection_parse_eq hp
  have hle := stored_of_parse ((Parsing.parse_eq_iff ..).mp hp)
  unfold Connection.stored
  rw [hd, hq]
  omega

/-- The reading handler changes the request in `parse` only. -/
theorem run_handleRead_parsing (c : Connection) (input : Bytes) (m : M.Map) :
    ((c.handleRead M (some input)).run m).1.parsing = (c.parse input).2.parsing := by
  rw [run_handleRead]
  rcases c.parse input with ⟨_ | _ | _, d⟩ <;> rfl

/-- One completion adds at most its bytes. -/
theorem AloneStep.stored_le {stylesheet : M.Map} {c c' : Connection} {ev : Completion}
    (h : AloneStep stylesheet c ev c') : c'.stored ≤ c.stored + ev.bytes.length := by
  obtain ⟨code, hd, rfl⟩ := h
  rcases ev with (_ | input) | error
  · simp only [Connection.deliver] at hd
    split at hd <;> cases hd
    exact Nat.le_refl _
  · simp only [Connection.deliver] at hd
    split at hd <;> cases hd
    have hle := stored_parse (c.complete .readSome (.readCompleted false)) input
    unfold Connection.stored at hle ⊢
    rw [run_handleRead_parsing]
    exact hle
  · simp only [Connection.deliver] at hd
    split at hd <;> cases hd
    cases error <;> exact Nat.le_refl _

theorem completion_bytes (k : Nat) (a : Arrival) :
    (a.completion k).toList.flatMap Completion.bytes = a.bytesFor k := by
  rcases a with error | ⟨l, ev⟩
  · rfl
  · by_cases e : l = k
    · rw [Arrival.completion, if_pos e, Option.toList_some, List.flatMap_singleton]
      rcases ev with (_ | input) | error
      · rfl
      · exact (if_pos e).symm
      · rfl
    · rw [Arrival.completion, if_neg e, bytesFor_of_ne e]
      rfl

/-- The completions of a connection bring what it has received. -/
theorem flatMap_completionsOf (k : Nat) (as : List Arrival) :
    (completionsOf k as).flatMap Completion.bytes = received k as := by
  induction as using List.reverseRecOn with
  | nil => rfl
  | append_singleton as a ih =>
    rw [completionsOf_snoc, List.flatMap_append, ih, completion_bytes, received_snoc]

/-- Alone, a connection stores no more than it gets. -/
theorem stored_of_run {stylesheet : M.Map} {c c' : Connection} {evs : List Completion}
    (h : Run (AloneStep stylesheet) c evs c') :
    c'.stored ≤ c.stored + (evs.flatMap Completion.bytes).length := by
  induction evs generalizing c with
  | nil =>
    rw [show c' = c from h]
    exact Nat.le_add_right ..
  | cons ev evs ih =>
    obtain ⟨d, hd, hrest⟩ := h
    have hstep := hd.stored_le
    have hle := ih hrest
    rw [List.flatMap_cons, List.length_append]
    omega

/-! ## The server -/

/-- A client that is sending its method, which has `len` bytes so far. -/
structure SendingMethod (len : Nat) (c : Connection) : Prop where
  pending : c.pending = [.readSome]
  state : c.parsing.state = .methodStart ∨ c.parsing.state = .method
  stored : c.stored = len

/-- Another byte of the method. -/
theorem parse_method {c : Connection}
    (h : c.parsing.state = .methodStart ∨ c.parsing.state = .method) :
    ∃ d, c.parse [ch 'G'] = (none, d) ∧ d.pending = c.pending ∧
      d.parsing.state = .method ∧ d.stored = c.stored + 1 := by
  have htoken : IsToken (ch 'G') := by decide
  have hstep : Step c.parsing.state c.parsing.request (ch 'G') .method
      { c.parsing.request with method := c.parsing.request.method ++ [ch 'G'] } := by
    rcases h with h | h <;> rw [h]
    · exact .methodStart htoken
    · exact .method htoken
  rcases hp : c.parsing.parse [ch 'G'] with ⟨v, r, q⟩
  obtain ⟨d, hd, rfl⟩ := connection_parse_eq hp
  have hparse := ((Parsing.parse_eq_iff ..).mp hp).symm.trans
    (Feed.feed_cons_none hstep.consume_eq [])
  rcases hq : d.parsing with ⟨st, req, _⟩
  rw [hq] at hparse
  cases hparse
  refine ⟨d, hd, congrArg (fun r => r.2.pending) hd.symm, by rw [hq], ?_⟩
  simp only [Connection.stored, hq, Request.stored, List.length_append, List.length_cons,
    List.length_nil]
  omega

theorem SendingMethod.aloneStep {len : Nat} {c : Connection} (h : SendingMethod len c)
    (m : M.Map) : ∃ code, c.deliver M (.read (some [ch 'G'])) = some code ∧
      SendingMethod (len + 1) (code.run m).1 := by
  obtain ⟨d, hd, hpending, hstate, hstored⟩ :=
    parse_method (c := c.complete .readSome (.readCompleted false)) h.state
  have hreading : .readSome ∈ c.pending := h.pending ▸ List.mem_singleton_self _
  refine ⟨_, if_pos hreading, ?_⟩
  change SendingMethod (len + 1) (((c.complete .readSome (.readCompleted false)).handleRead M
    (some [ch 'G'])).run m).1
  rw [run_handleRead, hd]
  refine ⟨?_, .inr hstate, ?_⟩
  · change d.pending ++ [.readSome] = [.readSome]
    rw [hpending]
    change c.pending.erase .readSome ++ [.readSome] = [.readSome]
    rw [h.pending]
    rfl
  · change d.stored = len + 1
    rw [hstored, ← h.stored]
    rfl

/-- The first client sends its method, a byte at a time. -/
def methodArrivals (len : Nat) : List Arrival :=
  .accept false :: List.replicate len (.complete 0 (.read (some [ch 'G'])))

theorem serial_method (M : Mapnik) {n : Nat} (hn : 0 < n) (stylesheet : M.Map) (len : Nat) :
    ∃ s c, Run SerialStep (Server.initial M n stylesheet) (methodArrivals len) s ∧
      s.connections[0]? = some c ∧ SendingMethod len c := by
  induction len with
  | zero =>
    refine ⟨_, (Connection.create (1 % n) 0).start,
      ⟨_, initial_accept M hn stylesheet, rfl⟩, rfl, ?_⟩
    exact ⟨rfl, .inl rfl, rfl⟩
  | succ len ih =>
    obtain ⟨s, c, hrun, hc, hsending⟩ := ih
    obtain ⟨code, hd, hnext⟩ := hsending.aloneStep (s.machine.store c.map)
    obtain ⟨s', hs'⟩ : ∃ s', SerialStep s (.complete 0 (.read (some [ch 'G']))) s' ∧
        s'.connections = s.connections.set 0 (code.run (s.machine.store c.map)).1 :=
      ⟨_, serialStep_complete.mpr ⟨c, code, hc, hd, rfl⟩, rfl⟩
    refine ⟨s', (code.run (s.machine.store c.map)).1, ?_, ?_, hnext⟩
    · rw [methodArrivals, List.replicate_succ', ← List.cons_append]
      exact run_snoc.mpr ⟨s, hrun, hs'.1⟩
    · rw [hs'.2]
      exact List.getElem?_set_self (List.getElem?_eq_some_iff.mp hc).1

theorem fitsBuffer_methodArrivals (len : Nat) :
    ∀ a ∈ methodArrivals len, a.event.FitsBuffer := by
  intro a ha
  rcases List.mem_cons.mp ha with rfl | ha
  · trivial
  · rw [List.eq_of_mem_replicate ha]
    exact ⟨List.cons_ne_nil _ _, show 1 ≤ 8192 by decide⟩

/-- **What a connection stores is bounded by what it has received, and by nothing else**: in any
    run of the server the request of a connection has, once the handlers have ended, no more
    bytes than have arrived on it; and for every number there is a run in which the client
    sends that many bytes, one by one, all are stored and the server reads on. -/
theorem request_memory (M : Mapnik) (n : Nat) (hn : 0 < n) (stylesheet : M.Map) :
    (∀ (evs : List ServerEvent) (s : Server M) (k : Nat) (c : Connection),
        Run ServerStep (Server.initial M n stylesheet) evs s →
        (s.settle n).connections[k]? = some c →
        c.stored ≤ (received k (evs.filterMap ServerEvent.arrival)).length) ∧
      ∀ len, ∃ evs s c, Run BufferedStep (Server.initial M n stylesheet) evs s ∧
        evs.filterMap ServerEvent.arrival = methodArrivals len ∧
        s.connections[0]? = some c ∧ c.pending = [.readSome] ∧ c.stored = len := by
  have hcreate := create_eq M hn stylesheet
  refine ⟨fun evs s k c hrun hc => ?_, fun len => ?_⟩
  · obtain ⟨hsound, hind⟩ := independent_settle hcreate hrun
    rcases Nat.lt_or_ge k (s.settle n).newConnection with hk | hk
    · have hle := stored_of_run (hind k c hk hc)
      rw [flatMap_completionsOf] at hle
      exact hle.trans (Nat.le_of_eq (Nat.zero_add _))
    · -- the connection that waits for a client
      have hnewest := hsound.1.newest
      have hlt := (List.getElem?_eq_some_iff.mp hc).1
      have hwaiting := hsound.1.waiting
      rw [show (s.settle n).newConnection = k by omega, hc] at hwaiting
      cases hwaiting
      exact Nat.zero_le _
  · obtain ⟨s, c, hserial, hc, hsending⟩ := serial_method M hn stylesheet len
    obtain ⟨evs, hevs, hrun⟩ := run_arrivals (sound_create hcreate) (quiet_create hcreate) hserial
    have hfits := fitsBuffer_of_arrivals fun a ha => fitsBuffer_methodArrivals len a (hevs ▸ ha)
    exact ⟨evs, s, c, run_restrict hfits hrun, hevs, hc, hsending.pending, hsending.stored⟩

/-- Three bytes of a method, on a server of two io_services. -/
theorem request_memory_sample :
    ∃ evs s c, Run BufferedStep (Server.initial .sample 2 sampleMap) evs s ∧
      evs.filterMap ServerEvent.arrival = methodArrivals 3 ∧
      s.connections[0]? = some c ∧ c.pending = [.readSome] ∧ c.stored = 3 :=
  (request_memory .sample 2 (by decide) sampleMap).2 3

end PaleoServer
