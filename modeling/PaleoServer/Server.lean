/-
  `src/server.hpp`, `src/server.cpp`, in the MAP_PER_IO build.

  The server is its pool, its connections in order of creation, the accepts outstanding on the
  acceptor, and a machine of `Atomic` whose threads are the io_services and whose resources
  are the maps. `step` takes one event: a completed accept, a completion on a connection, whose
  handler starts on the io_service of the connection, one atomic step of a running handler, or
  its end. An io_service runs one handler at a time; those of different io_services
  interleave. The handler of an accept does not touch a map and is one event.

  Proved: `step_cases`, everything an event can do; `server_binding`, the binding of
  connections to io_services and maps.
-/
import PaleoServer.IoServicePool
import PaleoServer.Connection

namespace PaleoServer

open Atomic Trace

variable {M : Mapnik}

/-- `class server`. A running handler belongs to the connection with the number `job`. -/
structure Server (M : Mapnik) where
  pool : IoServicePool
  acceptor : Nat
  connections : List Connection
  newConnection : Nat
  accepts : List Nat
  machine : Machine Nat Nat Nat M.Map Connection

namespace Server

/-- `server::start_accept`, and the same call in `handle_accept`. -/
def startAccept (s : Server M) : Server M := { s with accepts := s.accepts ++ [s.newConnection] }

/-- The constructor; `stylesheet` is the map that `load_map` fills from the stylesheet. -/
def create (M : Mapnik) (poolSize : Nat) (stylesheet : M.Map) : Except PoolError (Server M) := do
  let pool ← IoServicePool.create poolSize
  let (acceptor, pool) ← pool.getIoService
  let (ioService, pool) ← pool.getIoService
  let (map, pool) ← pool.getMapService
  let s : Server M :=
    { pool
      acceptor
      connections := [.create ioService map]
      newConnection := 0
      accepts := []
      machine := ⟨fun _ => stylesheet, fun _ => none⟩ }
  return s.startAccept

/-- `server::handle_accept`. -/
def handleAccept (s : Server M) (error : Bool) : Except PoolError (Server M) :=
  if error then .ok s
  else do
    let connections := s.connections.modify s.newConnection Connection.start
    let (ioService, pool) ← s.pool.getIoService
    let (map, pool) ← pool.getMapService
    let s : Server M :=
      { s with
        pool
        connections := connections ++ [.create ioService map]
        newConnection := connections.length }
    return s.startAccept

end Server

/-- The events of a server. -/
inductive ServerEvent where
  | accept (error : Bool)
  | complete (connection : Nat) (completion : Completion)
  | advance (ioService : Nat)
  | finish (ioService : Nat)
  deriving DecidableEq, Repr

/-- One event, when it is possible. -/
def Server.step (s : Server M) : ServerEvent → Option (Server M)
  | .accept error =>
    match s.accepts, s.machine.running s.acceptor with
    | _ :: accepts, none => ({ s with accepts }.handleAccept error).toOption
    | _, _ => none
  | .complete connection completion =>
    match s.connections[connection]? with
    | none => none
    | some c =>
      match c.deliver M completion with
      | none => none
      | some code =>
        (s.machine.begin c.ioService ⟨connection, c.map, code⟩).map fun machine =>
          { s with machine }
  | .advance ioService => (s.machine.advance ioService).map fun machine => { s with machine }
  | .finish ioService =>
    (s.machine.finish ioService).map fun (connection, c, machine) =>
      { s with machine, connections := s.connections.set connection c }

/-- The steps of the server as a transition system. -/
def ServerStep (s : Server M) (ev : ServerEvent) (s' : Server M) : Prop := s.step ev = some s'

/-- An event that the buffers of the connections allow. -/
def ServerEvent.FitsBuffer : ServerEvent → Prop
  | .complete _ ev => ev.FitsBuffer
  | _ => True

/-- The steps in which no read brings more than the buffer holds. -/
def BufferedStep (s : Server M) (ev : ServerEvent) (s' : Server M) : Prop :=
  ev.FitsBuffer ∧ ServerStep s ev s'

/-- The states a server of `n` io_services comes to. -/
def Reachable (n : Nat) (stylesheet : M.Map) (s : Server M) : Prop :=
  ∃ s₀ evs, Server.create M n stylesheet = .ok s₀ ∧ Run ServerStep s₀ evs s

/-! ## What an event can do -/

/-- The event of a completion starts the handler on the thread of the connection. -/
theorem step_complete {s s' : Server M} {k : Nat} {ev : Completion}
    (h : s.step (.complete k ev) = some s') :
    ∃ c code machine, s.connections[k]? = some c ∧ c.deliver M ev = some code ∧
      s.machine.begin c.ioService ⟨k, c.map, code⟩ = some machine ∧ s' = { s with machine } := by
  simp only [Server.step] at h
  rcases hc : s.connections[k]? with _ | c
  · rw [hc] at h
    cases h
  · rcases hd : c.deliver M ev with _ | code
    · simp only [hc, hd] at h
      cases h
    · simp only [hc, hd] at h
      obtain ⟨machine, hb, rfl⟩ := Option.map_eq_some_iff.mp h
      exact ⟨c, code, machine, rfl, hd, hb, rfl⟩

theorem step_advance {s s' : Server M} {t : Nat} (h : s.step (.advance t) = some s') :
    ∃ machine, s.machine.advance t = some machine ∧ s' = { s with machine } := by
  obtain ⟨machine, ha, rfl⟩ := Option.map_eq_some_iff.mp h
  exact ⟨machine, ha, rfl⟩

/-- The end of a handler writes the connection back. -/
theorem step_finish {s s' : Server M} {t : Nat} (h : s.step (.finish t) = some s') :
    ∃ k c machine, s.machine.finish t = some (k, c, machine) ∧
      s' = { s with machine, connections := s.connections.set k c } := by
  obtain ⟨⟨k, c, machine⟩, hf, rfl⟩ := Option.map_eq_some_iff.mp h
  exact ⟨k, c, machine, hf, rfl⟩

/-! ## Reachable servers -/

/-- A started connection, the `k`-th of a server of `n` io_services. -/
def Lived (M : Mapnik) (n k : Nat) (c : Connection) : Prop :=
  ∃ evs, Run (ConnectionStep M) (Connection.create ((k + 1) % n) (k % n)).start evs c

/-- What every event keeps. The cursors of the pool count the connections; the acceptor has
    taken one io_service more. The newest connection is as constructed, the others have lived
    and handlers run for those only. -/
structure Invariant (n : Nat) (s : Server M) : Prop where
  pos : 0 < n
  pool : s.pool = .after n (s.connections.length + 1) s.connections.length
  newest : s.newConnection + 1 = s.connections.length
  waiting : s.connections[s.newConnection]? =
    some (.create ((s.newConnection + 1) % n) (s.newConnection % n))
  lived : ∀ k c, k < s.newConnection → s.connections[k]? = some c → Lived M n k c
  handlers : s.machine.Yields fun k c => k < s.newConnection ∧ Lived M n k c

/-- A new server of `n` io_services. -/
def Server.initial (M : Mapnik) (n : Nat) (stylesheet : M.Map) : Server M where
  pool := .after n 2 1
  acceptor := 0
  connections := [.create (1 % n) 0]
  newConnection := 0
  accepts := [0]
  machine := ⟨fun _ => stylesheet, fun _ => none⟩

/-- A server of `n` io_services after a successful accept. -/
def Server.accepted (n : Nat) (s : Server M) : Server M :=
  { s with
    pool := .after n (s.connections.length + 2) (s.connections.length + 1)
    connections := s.connections.modify s.newConnection Connection.start ++
      [.create ((s.connections.length + 1) % n) (s.connections.length % n)]
    newConnection := s.connections.length
    accepts := s.accepts ++ [s.connections.length] }

/-- The constructor, for every size of the pool. -/
theorem create_eq (M : Mapnik) {n : Nat} (hn : 0 < n) (stylesheet : M.Map) :
    Server.create M n stylesheet = .ok (Server.initial M n stylesheet) := by
  unfold Server.create
  rw [IoServicePool.create_eq hn]
  show ((IoServicePool.after n 0 0).getIoService >>= _) = _
  rw [IoServicePool.getIoService_after hn]
  show ((IoServicePool.after n 1 0).getIoService >>= _) = _
  rw [IoServicePool.getIoService_after hn]
  show ((IoServicePool.after n 2 0).getMapService >>= _) = _
  rw [IoServicePool.getMapService_after hn, Nat.zero_mod]
  rfl

theorem create_zero (M : Mapnik) (stylesheet : M.Map) :
    Server.create M 0 stylesheet =
      .error (.runtimeError (bytes "io_service_pool size is 0")) := rfl

theorem invariant_create {n : Nat} {stylesheet : M.Map} {s : Server M}
    (h : Server.create M n stylesheet = .ok s) : Invariant n s := by
  rcases Nat.eq_zero_or_pos n with rfl | hn
  · rw [create_zero] at h
    cases h
  · rw [create_eq M hn] at h
    cases h
    refine ⟨hn, rfl, rfl, ?_, ?_, ?_⟩
    · show some (Connection.create (1 % n) 0) = some (Connection.create ((0 + 1) % n) (0 % n))
      rw [Nat.zero_mod]
    · exact fun k c hk => absurd hk (Nat.not_lt_zero k)
    · exact fun t k hk => nomatch hk

/-- A successful accept starts the newest connection and makes another. -/
theorem handleAccept_eq {n : Nat} {s : Server M} (hs : Invariant n s) :
    s.handleAccept false = .ok (s.accepted n) := by
  have hlen : (s.connections.modify s.newConnection Connection.start).length =
      s.connections.length := List.length_modify ..
  unfold Server.handleAccept
  simp only [Bool.false_eq_true, if_false]
  rw [hs.pool]
  show ((IoServicePool.after n (s.connections.length + 1) s.connections.length).getIoService
    >>= _) = _
  rw [IoServicePool.getIoService_after hs.pos]
  show ((IoServicePool.after n (s.connections.length + 2)
    s.connections.length).getMapService >>= _) = _
  rw [IoServicePool.getMapService_after hs.pos]
  simp only [hlen]
  rfl

/-- The handler of an accept never indexes a vector out of range. -/
theorem handleAccept_ok {n : Nat} {s : Server M} (hs : Invariant n s) (error : Bool) :
    ∃ s', s.handleAccept error = .ok s' := by
  cases error
  · exact ⟨_, handleAccept_eq hs⟩
  · exact ⟨s, rfl⟩

/-- A connection that has not been started has nothing outstanding. -/
theorem deliver_create (ioService map : Nat) (ev : Completion) :
    (Connection.create ioService map).deliver M ev = none := by
  cases ev <;> rfl

/-- Only connections that have been started complete an operation. -/
theorem Invariant.started {n : Nat} {s : Server M} (hs : Invariant n s) {k : Nat}
    {c : Connection} {ev : Completion} {code : Prog M.Map Connection}
    (hc : s.connections[k]? = some c) (hd : c.deliver M ev = some code) :
    k < s.newConnection := by
  have hlt : k < s.connections.length := (List.getElem?_eq_some_iff.mp hc).1
  have hne : k ≠ s.newConnection := by
    rintro rfl
    rw [hs.waiting] at hc
    cases hc
    rw [deliver_create] at hd
    cases hd
  have := hs.newest
  omega

/-- The invariant does not speak of the accepts. -/
theorem Invariant.withAccepts {n : Nat} {s : Server M} (hs : Invariant n s)
    (accepts : List Nat) : Invariant n { s with accepts } :=
  ⟨hs.pos, hs.pool, hs.newest, hs.waiting, hs.lived, hs.handlers⟩

theorem Invariant.accepted {n : Nat} {s : Server M} (hs : Invariant n s) :
    Invariant n (s.accepted n) := by
  have hlen : (s.connections.modify s.newConnection Connection.start).length =
        s.connections.length := List.length_modify ..
  have hlen' : (s.accepted n).connections.length = s.connections.length + 1 := by
    rw [← hlen]
    exact List.length_append
  refine ⟨hs.pos, ?_, hlen'.symm, ?_, ?_, ?_⟩
  · rw [hlen']
    rfl
  · show (s.connections.modify s.newConnection Connection.start ++ [_])[s.connections.length]? = _
    rw [← hlen, List.getElem?_concat_length, hlen]
    rfl
  · intro k c hk hc
    change k < s.connections.length at hk
    change (s.connections.modify s.newConnection Connection.start ++ [_])[k]? = some c at hc
    rw [List.getElem?_append_left (by rw [hlen]; exact hk)] at hc
    by_cases e : s.newConnection = k
    · subst e
      rw [List.getElem?_modify_eq, hs.waiting] at hc
      cases hc
      exact ⟨[], rfl⟩
    · rw [List.getElem?_modify_ne _ _ e] at hc
      have := hs.newest
      exact hs.lived k c (by omega) hc
  · refine hs.handlers.mono fun k c hk => ⟨?_, hk.2⟩
    have := hs.newest
    show k < s.connections.length
    omega

/-- An accept completes: with an error it is just no longer outstanding. -/
theorem Invariant.step_accept {n : Nat} {s s' : Server M} {error : Bool} (hs : Invariant n s)
    (h : s.step (.accept error) = some s') :
    ∃ k accepts, s.accepts = k :: accepts ∧
      s' = if error then { s with accepts } else Server.accepted n { s with accepts } := by
  simp only [Server.step] at h
  split at h
  · rename_i k accepts hacc hidle
    refine ⟨k, accepts, hacc, ?_⟩
    cases error with
    | true =>
      cases h
      rfl
    | false =>
      rw [handleAccept_eq (hs.withAccepts accepts)] at h
      cases h
      rfl
  · cases h

/-- The first client is accepted. -/
theorem initial_accept (M : Mapnik) {n : Nat} (hn : 0 < n) (stylesheet : M.Map) :
    ServerStep (Server.initial M n stylesheet) (.accept false)
      (Server.accepted n { Server.initial M n stylesheet with accepts := [] }) :=
  congrArg Except.toOption
    (handleAccept_eq ((invariant_create (create_eq M hn stylesheet)).withAccepts []))

theorem Invariant.step {n : Nat} {s s' : Server M} {ev : ServerEvent} (hs : Invariant n s)
    (h : ServerStep s ev s') : Invariant n s' := by
  cases ev with
  | accept error =>
    obtain ⟨k, accepts, _, rfl⟩ := hs.step_accept h
    split
    · exact hs.withAccepts accepts
    · exact (hs.withAccepts accepts).accepted
  | complete k ev =>
    obtain ⟨c, code, machine, hc, hd, hb, rfl⟩ := step_complete h
    have hk := hs.started hc hd
    obtain ⟨evs, hevs⟩ := hs.lived k c hk hc
    refine ⟨hs.pos, hs.pool, hs.newest, hs.waiting, hs.lived,
      Machine.yields_begin hs.handlers (fun c' hc' => ⟨hk, evs ++ [ev], ?_⟩) hb⟩
    exact run_snoc.mpr ⟨c, hevs, code, hd, hc'⟩
  | advance t =>
    obtain ⟨machine, ha, rfl⟩ := step_advance h
    exact ⟨hs.pos, hs.pool, hs.newest, hs.waiting, hs.lived,
      Machine.yields_advance hs.handlers ha⟩
  | finish t =>
    obtain ⟨k, c, machine, hf, rfl⟩ := step_finish h
    obtain ⟨⟨hk, hlived⟩, hyields⟩ := Machine.yields_finish hs.handlers hf
    refine ⟨hs.pos, ?_, ?_, ?_, ?_, hyields⟩
    · rw [List.length_set]
      exact hs.pool
    · rw [List.length_set]
      exact hs.newest
    · rw [List.getElem?_set_ne (Nat.ne_of_lt hk)]
      exact hs.waiting
    · intro l d hl hd
      by_cases e : k = l
      · subst e
        have hlt : k < s.connections.length := by
          have := hs.newest
          omega
        rw [List.getElem?_set_self hlt] at hd
        cases hd
        exact hlived
      · rw [List.getElem?_set_ne e] at hd
        exact hs.lived l d hl hd

theorem Reachable.invariant {n : Nat} {stylesheet : M.Map} {s : Server M}
    (h : Reachable n stylesheet s) : Invariant n s := by
  obtain ⟨s₀, evs, hcreate, hrun⟩ := h
  exact run_invariant (fun _ _ _ hs h => hs.step h) hrun (invariant_create hcreate)

/-! ## Round robin -/

theorem Lived.binding {n k : Nat} {c : Connection} (h : Lived M n k c) :
    c.ioService = (k + 1) % n ∧ c.map = k % n := by
  obtain ⟨evs, hrun⟩ := h
  refine run_invariant (I := fun c : Connection => c.ioService = (k + 1) % n ∧ c.map = k % n)
    ?_ hrun ⟨rfl, rfl⟩
  rintro c ev c' ⟨h1, h2⟩ h
  obtain ⟨e1, e2⟩ := connectionStep_binding h
  exact ⟨e1.trans h1, e2.trans h2⟩

/-- The `k`-th connection is bound to io_service `k + 1` and map `k`, in the round. -/
theorem Invariant.binding {n : Nat} {s : Server M} (hs : Invariant n s) {k : Nat}
    {c : Connection} (hc : s.connections[k]? = some c) :
    c.ioService = (k + 1) % n ∧ c.map = k % n := by
  have hlt : k < s.connections.length := (List.getElem?_eq_some_iff.mp hc).1
  have hnew := hs.newest
  by_cases e : k = s.newConnection
  · subst e
    rw [hs.waiting] at hc
    cases hc
    exact ⟨rfl, rfl⟩
  · exact (hs.lived k c (by omega) hc).binding

theorem Invariant.ioServices {n : Nat} {s : Server M} (hs : Invariant n s) :
    s.connections.map (·.ioService) =
      (List.range s.connections.length).map fun k => (1 + k) % n := by
  refine List.ext_getElem (by simp) fun k h1 h2 => ?_
  have hk : k < s.connections.length := by simpa using h1
  have := (hs.binding (List.getElem?_eq_getElem hk)).1
  simp only [List.getElem_map, List.getElem_range, this, Nat.add_comm k 1]

theorem Invariant.maps {n : Nat} {s : Server M} (hs : Invariant n s) :
    s.connections.map (·.map) =
      (List.range s.connections.length).map fun k => (0 + k) % n := by
  refine List.ext_getElem (by simp) fun k h1 h2 => ?_
  have hk : k < s.connections.length := by simpa using h1
  have := (hs.binding (List.getElem?_eq_getElem hk)).2
  simp only [List.getElem_map, List.getElem_range, this, Nat.zero_add]

/-- How the connections of a server of `n` io_services are bound. -/
structure RoundRobinBound (n : Nat) (s : Server M) : Prop where
  /-- No call of `get_io_service` or `get_map_service` indexes out of range. -/
  in_range : s.pool.nextIoService < s.pool.ioServices.length ∧
    s.pool.nextMapService < s.pool.mapServices.length ∧
    ∀ error, ∃ s', s.handleAccept error = .ok s'
  same : ∀ c ∈ s.connections, ∀ c' ∈ s.connections, c.map = c'.map ↔ c.ioService = c'.ioService
  /-- In any block of connections, as many for one io_service as for another, up to one. -/
  ioServices_even : ∀ start len i j, i < n → j < n →
    (((s.connections.map (·.ioService)).drop start).take len).count i ≤
      (((s.connections.map (·.ioService)).drop start).take len).count j + 1
  maps_even : ∀ start len i j, i < n → j < n →
    (((s.connections.map (·.map)).drop start).take len).count i ≤
      (((s.connections.map (·.map)).drop start).take len).count j + 1

theorem Invariant.roundRobin {n : Nat} {s : Server M} (hs : Invariant n s) :
    RoundRobinBound n s := by
  refine ⟨⟨?_, ?_, handleAccept_ok hs⟩, ?_, ?_, ?_⟩
  · rw [hs.pool]
    simpa [IoServicePool.after] using Nat.mod_lt _ hs.pos
  · rw [hs.pool]
    simpa [IoServicePool.after] using Nat.mod_lt _ hs.pos
  · intro c hc c' hc'
    obtain ⟨k, hk⟩ := List.mem_iff_getElem?.mp hc
    obtain ⟨l, hl⟩ := List.mem_iff_getElem?.mp hc'
    obtain ⟨hio, hmap⟩ := hs.binding hk
    obtain ⟨hio', hmap'⟩ := hs.binding hl
    rw [hio, hmap, hio', hmap']
    exact RoundRobin.succ_mod_inj.symm
  · intro start len i j hi hj
    rw [hs.ioServices]
    exact RoundRobin.block_count_le hi hj 1 _ start len
  · intro start len i j hi hj
    rw [hs.maps]
    exact RoundRobin.block_count_le hi hj 0 _ start len

/-- **Connections are bound round robin.** The constructor fails for an empty pool, before an
    index is used; for any other size it succeeds, and in every state the server comes to the
    bindings are as `RoundRobinBound` says. -/
theorem server_binding (M : Mapnik) (n : Nat) (stylesheet : M.Map) :
    match Server.create M n stylesheet with
    | .error e => n = 0 ∧ e = .runtimeError (bytes "io_service_pool size is 0")
    | .ok s₀ => 0 < n ∧ ∀ evs s, Run ServerStep s₀ evs s → RoundRobinBound n s := by
  rcases Nat.eq_zero_or_pos n with rfl | hn
  · rw [create_zero]
    exact ⟨rfl, rfl⟩
  · rw [create_eq M hn]
    refine ⟨hn, fun evs s hrun => ?_⟩
    have hreach : Reachable n stylesheet s := ⟨_, evs, create_eq M hn stylesheet, hrun⟩
    exact hreach.invariant.roundRobin

/-- Four clients are accepted by a server of three io_services, then an accept fails. -/
theorem server_binding_sample :
    ∃ s : Server .sample, Run ServerStep (Server.initial .sample 3 sampleMap)
        [.accept false, .accept false, .accept false, .accept false, .accept true] s ∧
      s.connections.map (fun c => (c.ioService, c.map)) =
        [(1, 0), (2, 1), (0, 2), (1, 0), (2, 1)] ∧ RoundRobinBound 3 s := by
  obtain ⟨s, hrun, hbound⟩ : ∃ s : Server .sample,
      Run ServerStep (Server.initial .sample 3 sampleMap)
        [.accept false, .accept false, .accept false, .accept false, .accept true] s ∧
      s.connections.map (fun c => (c.ioService, c.map)) =
        [(1, 0), (2, 1), (0, 2), (1, 0), (2, 1)] :=
    ⟨_, run_iff_foldlM.mpr rfl, rfl⟩
  have hbinding := server_binding .sample 3 sampleMap
  rw [create_eq .sample (by decide)] at hbinding
  exact ⟨s, hrun, hbound, hbinding.2 _ s hrun⟩

/-! ## Three clients

  Two io_services. The first client is served to the end. The second, on the other io_service,
  and the third, on the io_service and the map of the first, are then served at the same time. -/

/-- A client that asks for one of two layers. -/
def sampleText : Bytes :=
  bytes "GET /?bbox=1,2,3,4&width=5&height=6&srs=s&layers=roads HTTP/1.0\r\n\r\n"

def sampleRequest : Request where
  method := bytes "GET"
  uri := bytes "/?bbox=1,2,3,4&width=5&height=6&srs=s&layers=roads"
  httpVersionMajor := some 1
  httpVersionMinor := some 0
  headers := []

def sampleReply : Reply where
  status := .ok
  headers :=
    [⟨bytes "Content-Type", bytes "image/png"⟩, ⟨bytes "Server", bytes "PaleoServer/0.1.0"⟩,
      ⟨bytes "Content-Length", bytes "5"⟩]
  content := bytes "roads"

/-- A client that asks for the other. -/
def riversText : Bytes :=
  bytes "GET /?bbox=1,2,3,4&width=5&height=6&srs=s&layers=rivers HTTP/1.0\r\n\r\n"

def riversRequest : Request where
  method := bytes "GET"
  uri := bytes "/?bbox=1,2,3,4&width=5&height=6&srs=s&layers=rivers"
  httpVersionMajor := some 1
  httpVersionMinor := some 0
  headers := []

def riversReply : Reply where
  status := .ok
  headers :=
    [⟨bytes "Content-Type", bytes "image/png"⟩, ⟨bytes "Server", bytes "PaleoServer/0.1.0"⟩,
      ⟨bytes "Content-Length", bytes "6"⟩]
  content := bytes "rivers"

/-- The handler of the first client makes seven operations on its map. -/
def firstServed : List ServerEvent :=
  [.accept false, .complete 0 (.read (some sampleText))] ++ List.replicate 7 (.advance 1) ++
    [.finish 1]

/-- The handlers of the second and the third client have begun. -/
def bothAtWork : List ServerEvent :=
  firstServed ++ [.accept false, .accept false, .complete 1 (.read (some sampleText)),
    .complete 2 (.read (some riversText))]

/-- They take turns. -/
def bothEnd : List ServerEvent :=
  (List.replicate 7 [.advance 0, .advance 1]).flatten ++ [.finish 0, .finish 1]

/-- A request has been handled and a reply sent. -/
def Connection.Answered (c : Connection) (req : Request) (rep : Reply) : Prop :=
  .handleRequest req ∈ c.log ∧ .asyncWrite rep ∈ c.log

instance (c : Connection) (req : Request) (rep : Reply) : Decidable (c.Answered req rep) :=
  inferInstanceAs (Decidable (_ ∧ _))

/-- The third client's map is the one the first has used. -/
theorem three_clients : ∃ (s t : Server .sample) (c₁ c₂ : Connection),
    Run ServerStep (Server.initial .sample 2 sampleMap) bothAtWork s ∧
    Run ServerStep s bothEnd t ∧
    t.connections[1]? = some c₁ ∧ c₁.Answered sampleRequest sampleReply ∧
    t.connections[2]? = some c₂ ∧ c₂.Answered riversRequest riversReply ∧
    c₁.map = 1 ∧ c₂.map = 0 ∧ ∀ i < 2, t.machine.running i = none := by
  obtain ⟨t, hrun, htest⟩ := run_of_any Server.step (Server.initial .sample 2 sampleMap)
    (bothAtWork ++ bothEnd)
    (fun t =>
      t.connections[1]?.any (fun c => c.Answered sampleRequest sampleReply ∧ c.map = 1) &&
        t.connections[2]?.any (fun c => c.Answered riversRequest riversReply ∧ c.map = 0) &&
        (t.machine.running 0).isNone && (t.machine.running 1).isNone)
    (by decide +kernel)
  simp only [Bool.and_eq_true, Option.any_eq_true, Option.isNone_iff_eq_none,
    decide_eq_true_eq] at htest
  obtain ⟨⟨⟨⟨c₁, hc₁, h₁, hmap₁⟩, c₂, hc₂, h₂, hmap₂⟩, hidle₀⟩, hidle₁⟩ := htest
  obtain ⟨s, hwork, hend⟩ := run_append.mp hrun
  refine ⟨s, t, c₁, c₂, hwork, hend, hc₁, h₁, hc₂, h₂, hmap₁, hmap₂, fun i hi => ?_⟩
  obtain rfl | rfl : i = 0 ∨ i = 1 := by omega
  · exact hidle₀
  · exact hidle₁

end PaleoServer
