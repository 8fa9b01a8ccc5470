/-
  The build without MAP_PER_IO (`src/server.cpp`, `src/io_service_pool.cpp`,
  `src/connection.cpp`, `src/request_handler.cpp`, MAP_REQUEST not defined either).

  There is one map. `server` loads it and hands it to the `request_handler`, whose
  `handle_request` does the same with it as in the other build; the pool has no maps and a
  connection none of its own. In the model every connection has the map 0.

  Proved: `shared_isolated_iff`. With one io_service the handlers take turns and every client
  gets its own reply. With two or more a client can get the layers and the extent another has
  asked for: `shared_mixes` is the run.
-/
import PaleoServer.ConnectionStream
import PaleoServer.MapHistory
import PaleoServer.SerialServer
import PaleoServer.ServerIsolation

namespace PaleoServer

open Atomic Trace

variable {M : Mapnik}

/-! ## The build -/

/-- `io_service_pool::io_service_pool(pool_size)`. -/
def IoServicePool.createShared (poolSize : Nat) : Except PoolError IoServicePool :=
  if poolSize = 0 then
    .error (.runtimeError (bytes "io_service_pool size is 0"))
  else
    .ok
      { ioServices := List.range poolSize
        mapServices := []
        nextIoService := 0
        nextMapService := 0 }

namespace Server

/-- The constructor; `stylesheet` is the map that `load_map` fills and `set_map` hands over. -/
def createShared (M : Mapnik) (poolSize : Nat) (stylesheet : M.Map) :
    Except PoolError (Server M) := do
  let pool ← IoServicePool.createShared poolSize
  let (acceptor, pool) ← pool.getIoService
  let (ioService, pool) ← pool.getIoService
  let s : Server M :=
    { pool
      acceptor
      connections := [.create ioService 0]
      newConnection := 0
      accepts := []
      machine := ⟨fun _ => stylesheet, fun _ => none⟩ }
  return s.startAccept

/-- `server::handle_accept`. -/
def handleAcceptShared (s : Server M) (error : Bool) : Except PoolError (Server M) :=
  if error then .ok s
  else do
    let connections := s.connections.modify s.newConnection Connection.start
    let (ioService, pool) ← s.pool.getIoService
    let s : Server M :=
      { s with
        pool
        connections := connections ++ [.create ioService 0]
        newConnection := connections.length }
    return s.startAccept

/-- One event: accepts have their own handler, the others are those of any connection. -/
def sharedStep (s : Server M) : ServerEvent → Option (Server M)
  | .accept error =>
    match s.accepts, s.machine.running s.acceptor with
    | _ :: accepts, none => ({ s with accepts }.handleAcceptShared error).toOption
    | _, _ => none
  | ev => s.step ev

end Server

def SharedStep (s : Server M) (ev : ServerEvent) (s' : Server M) : Prop := s.sharedStep ev = some s'

/-- The states a server of `n` io_services comes to in this build. -/
def SharedReachable (n : Nat) (stylesheet : M.Map) (s : Server M) : Prop :=
  ∃ s₀ evs, Server.createShared M n stylesheet = .ok s₀ ∧ Run SharedStep s₀ evs s

/-! ## One io_service

  A server with one io_service is the same in both builds, up to the maps of its pool. -/

/-- The server with the pool of the other build. -/
def Server.withMaps (s : Server M) : Server M :=
  { s with pool := { s.pool with mapServices := [0], nextMapService := 0 } }

theorem withMaps_handleAccept (s : Server M) (error : Bool) :
    s.withMaps.handleAccept error = Server.withMaps <$> s.handleAcceptShared error := by
  cases error with
  | true => rfl
  | false =>
    unfold Server.handleAccept Server.handleAcceptShared Server.withMaps
    simp only [Bool.false_eq_true, if_false, IoServicePool.getIoService]
    rcases s.pool.ioServices[s.pool.nextIoService]? with _ | i
    · rfl
    · rfl

theorem toOption_map {ε α β : Type} (f : α → β) (x : Except ε α) :
    (f <$> x).toOption = x.toOption.map f := by
  cases x <;> rfl

theorem withMaps_step (s : Server M) (ev : ServerEvent) :
    s.withMaps.step ev = (s.sharedStep ev).map Server.withMaps := by
  have hmachine : s.withMaps.machine = s.machine := rfl
  have hconnections : s.withMaps.connections = s.connections := rfl
  have haccepts : s.withMaps.accepts = s.accepts := rfl
  have hacceptor : s.withMaps.acceptor = s.acceptor := rfl
  cases ev with
  | accept error =>
    simp only [Server.step, Server.sharedStep, hmachine, haccepts, hacceptor]
    rcases s.accepts with _ | ⟨k, accepts⟩
    · rfl
    · rcases s.machine.running s.acceptor with _ | task
      · have h := withMaps_handleAccept { s with accepts } error
        exact (congrArg Except.toOption h).trans (toOption_map ..)
      · rfl
  | complete k ev =>
    simp only [Server.step, Server.sharedStep, hmachine, hconnections]
    rcases s.connections[k]? with _ | c
    · rfl
    · rcases hd : c.deliver M ev with _ | code
      · simp only [hd]
        rfl
      · simp only [hd, Option.map_map]
        rfl
  | advance t =>
    show (s.machine.advance t).map _ = ((s.machine.advance t).map _).map _
    rw [Option.map_map]
    rfl
  | finish t =>
    show (s.machine.finish t).map _ = ((s.machine.finish t).map _).map _
    rw [Option.map_map]
    rfl

theorem withMaps_create (M : Mapnik) (stylesheet : M.Map) :
    Server.create M 1 stylesheet = Server.withMaps <$> Server.createShared M 1 stylesheet := rfl

/-- With one io_service both builds do the same. -/
theorem SharedReachable.withMaps {stylesheet : M.Map} {s : Server M}
    (h : SharedReachable 1 stylesheet s) : Reachable 1 stylesheet s.withMaps := by
  obtain ⟨s₀, evs, hcreate, hrun⟩ := h
  refine ⟨s₀.withMaps, evs, ?_, ?_⟩
  · rw [withMaps_create, hcreate]
    rfl
  · have hsim := run_refinement (I := fun _ => True) (f := Server.withMaps) (l := some)
      (Q := ServerStep (M := M)) (fun _ _ _ _ _ => trivial) ?_ hrun trivial
    · rwa [List.filterMap_some] at hsim
    · intro s ev s' _ h
      refine ⟨fun ev' e => ?_, fun e => (nomatch e)⟩
      cases e
      show s.withMaps.step ev = some s'.withMaps
      rw [withMaps_step, show s.sharedStep ev = some s' from h]
      rfl

/-- What the other build guarantees. -/
theorem Reachable.isolated {n : Nat} {stylesheet : M.Map} {s : Server M}
    (h : Reachable n stylesheet s) {c : Connection} (hc : c ∈ s.connections) :
    Isolated stylesheet c := by
  obtain ⟨s₀, evs, hcreate, hrun⟩ := h
  obtain ⟨_, hi⟩ := run_invariant
    (I := fun s => Invariant n s ∧ IsolationInvariant n stylesheet s)
    (fun _ _ _ hi h => ⟨hi.1.step h, hi.2.step hi.1 h⟩) hrun
    ⟨invariant_create hcreate, isolationInvariant_create hcreate⟩
  obtain ⟨k, hk⟩ := List.mem_iff_getElem?.mp hc
  exact hi.connections k c hk

/-! ## Several io_services -/

/-- `handle_request` from its first operation on the map to its last before the rendering. -/
def setUp (g : GetMap M) : Prog M.Map Unit := do
  Prog.modify (setSrs (bytes "+init=" ++ g.srs))
  let layers ← Prog.read fun m => m.layers.length
  (List.range layers).forM fun i => Prog.modify (setActive g.requested i)
  Prog.modify (resize g.w g.h)
  Prog.modify (zoomToBox g.bbox)

theorem render_eq (g : GetMap M) :
    render g = setUp g >>= fun _ =>
      Prog.read (fun m => M.aggRender m (M.image32 g.w g.h)) >>= fun im =>
        pure (imageReply g im) := by
  unfold render setUp
  simp only [Prog.bind_assoc]

theorem run_setUp (g : GetMap M) (m : M.Map) : (setUp g).run m = ((), g.configure m) := by
  unfold setUp
  simp only [Prog.run_bind, Prog.run_modify, Prog.run_read, Prog.run_forM, setActive_foldl]
  rfl

/-- What is left of the handler when the settings have been made. -/
def draw (c : Connection) (g : GetMap M) : Prog M.Map Connection :=
  Prog.read (fun m => M.aggRender m (M.image32 g.w g.h)) >>= fun im =>
    pure (c.send (imageReply g im))

/-- The reading handler for a request that is accepted: the settings are made, then the map is
    rendered. -/
theorem handleRead_eq {c d : Connection} {input : Bytes} {g : GetMap M}
    (hp : c.parse input = (some true, d)) (hg : readGetMap M d.parsing.request = .ok g) :
    c.handleRead M (some input) = setUp g >>= fun _ =>
      draw (d.record [.handleRequest d.parsing.request]) g := by
  simp only [Connection.handleRead, hp, PaleoServer.handleRequest, hg, render_eq, Prog.bind_assoc]
  rfl

/-- The pool after `k` calls of `get_io_service`. -/
def sharedPool (n k : Nat) : IoServicePool where
  ioServices := List.range n
  mapServices := []
  nextIoService := k % n
  nextMapService := 0

theorem getIoService_sharedPool {n : Nat} (hn : 0 < n) (k : Nat) :
    (sharedPool n k).getIoService = .ok (k % n, sharedPool n (k + 1)) := by
  have hidx : (List.range n)[k % n]? = some (k % n) := List.getElem?_range (Nat.mod_lt k hn)
  have hnext := RoundRobin.next_mod hn k
  unfold RoundRobin.next at hnext
  simp only [IoServicePool.getIoService, sharedPool, hidx, List.length_range, hnext]

theorem handleAcceptShared_eq {n k : Nat} (hn : 0 < n) {s : Server M}
    (hpool : s.pool = sharedPool n k) :
    s.handleAcceptShared false = .ok (Server.startAccept
      { s with
        pool := sharedPool n (k + 1)
        connections := s.connections.modify s.newConnection Connection.start ++
          [.create (k % n) 0]
        newConnection := s.connections.length }) := by
  unfold Server.handleAcceptShared
  simp only [Bool.false_eq_true, if_false]
  rw [hpool]
  show ((sharedPool n k).getIoService >>= _) = _
  rw [getIoService_sharedPool hn]
  simp only [List.length_modify]
  rfl

/-- Two clients have been accepted and have sent nothing. -/
theorem shared_two_clients (M : Mapnik) {n : Nat} (hn : 0 < n) (stylesheet : M.Map) :
    ∃ s : Server M, SharedReachable n stylesheet s ∧
      s.machine = ⟨fun _ => stylesheet, fun _ => none⟩ ∧
      s.connections = [(Connection.create (1 % n) 0).start, (Connection.create (2 % n) 0).start,
        .create (3 % n) 0] := by
  obtain ⟨s₀, hs₀⟩ : ∃ s₀ : Server M, s₀ =
      { pool := sharedPool n 2
        acceptor := 0 % n
        connections := [.create (1 % n) 0]
        newConnection := 0
        accepts := [0]
        machine := ⟨fun _ => stylesheet, fun _ => none⟩ } := ⟨_, rfl⟩
  have hcreate : Server.createShared M n stylesheet = .ok s₀ := by
    unfold Server.createShared IoServicePool.createShared
    rw [if_neg (Nat.ne_of_gt hn), hs₀]
    have hzero : (⟨List.range n, [], 0, 0⟩ : IoServicePool) = sharedPool n 0 := by
      unfold sharedPool
      rw [Nat.zero_mod]
    show ((⟨List.range n, [], 0, 0⟩ : IoServicePool).getIoService >>= _) = _
    rw [hzero, getIoService_sharedPool hn]
    show ((sharedPool n 1).getIoService >>= _) = _
    rw [getIoService_sharedPool hn]
    rfl
  have haccept : ∀ (s : Server M) (k l : Nat), s.pool = sharedPool n k → s.accepts = [l] →
      s.machine = ⟨fun _ => stylesheet, fun _ => none⟩ →
      ∃ s', SharedStep s (.accept false) s' ∧ s'.pool = sharedPool n (k + 1) ∧
        s'.accepts = [s.connections.length] ∧ s'.machine = s.machine ∧
        s'.newConnection = s.connections.length ∧
        s'.connections = s.connections.modify s.newConnection Connection.start ++
          [.create (k % n) 0] := by
    intro s k l hpool hacc hmachine
    have heq := handleAcceptShared_eq hn (s := { s with accepts := [] }) hpool
    refine ⟨Server.startAccept
      { s with
        pool := sharedPool n (k + 1)
        connections := s.connections.modify s.newConnection Connection.start ++
          [.create (k % n) 0]
        newConnection := s.connections.length
        accepts := [] }, ?_, rfl, rfl, rfl, rfl, rfl⟩
    have hidle : s.machine.running s.acceptor = none := by rw [hmachine]
    simp only [SharedStep, Server.sharedStep, hacc, hidle]
    exact congrArg Except.toOption heq
  obtain ⟨s₁, h₁, hpool₁, hacc₁, hmachine₁, hnew₁, hconn₁⟩ :=
    haccept s₀ 2 0 (by rw [hs₀]) (by rw [hs₀]) (by rw [hs₀])
  rw [hs₀] at hmachine₁ hconn₁ hnew₁
  obtain ⟨s₂, h₂, _, _, hmachine₂, _, hconn₂⟩ := haccept s₁ 3 _ hpool₁ hacc₁ hmachine₁
  refine ⟨s₂, ⟨s₀, [.accept false, .accept false], hcreate, s₁, h₁, s₂, h₂, rfl⟩,
    hmachine₂.trans hmachine₁, ?_⟩
  rw [hconn₂, hconn₁, hnew₁]
  rfl

/-- Events of the machine are the same in both builds. -/
theorem shared_advance {s : Server M} {t k : Nat} {m m' : Machine Nat Nat Nat M.Map Connection}
    (h : (List.replicate k t).foldlM Machine.advance m = some m') :
    Run SharedStep { s with machine := m } (List.replicate k (.advance t))
      { s with machine := m' } := by
  induction k generalizing m with
  | zero =>
    cases h
    rfl
  | succ k ih =>
    rw [List.replicate_succ, List.foldlM_cons] at h
    obtain ⟨m₁, ha, hrest⟩ := Option.bind_eq_some_iff.mp h
    refine ⟨{ s with machine := m₁ }, ?_, ih hrest⟩
    simp only [SharedStep, Server.sharedStep, Server.step, ha, Option.map_some]

/-- A handler alone runs the first part of its program. -/
theorem shared_through {β : Type} {s : Server M} {t j r : Nat} {p : Prog M.Map β}
    {g : β → Prog M.Map Connection} (h : s.machine.running t = some ⟨j, r, p >>= g⟩) :
    ∃ evs m, Run SharedStep s evs { s with machine := m } ∧
      m.store r = (p.run (s.machine.store r)).2 ∧
      m.running t = some ⟨j, r, g (p.run (s.machine.store r)).1⟩ ∧
      ∀ u, u ≠ t → m.running u = s.machine.running u :=
  ⟨_, _, shared_advance (s := s) (Machine.advance_through h), Function.update_self ..,
    Function.update_self .., fun _ hu => Function.update_of_ne hu ..⟩

/-- The bytes of a client arrive and its handler starts. -/
theorem shared_read {s : Server M} {k t : Nat} {input rest : Bytes} {p : Parsing} {g : GetMap M}
    (hc : s.connections[k]? = some (Connection.create t 0).start)
    (hidle : s.machine.running t = none) (hp : Parsing.fresh.parse input = (some true, rest, p))
    (hg : readGetMap M p.request = .ok g) :
    ∃ (d : Connection) (m : Machine Nat Nat Nat M.Map Connection),
      .handleRequest p.request ∈ d.log ∧
      SharedStep s (.complete k (.read (some input))) { s with machine := m } ∧
      m.store = s.machine.store ∧
      m.running t = some ⟨k, 0, setUp g >>= fun _ => draw d g⟩ ∧
      ∀ u, u ≠ t → m.running u = s.machine.running u := by
  obtain ⟨c, hceq⟩ : ∃ c, c = (Connection.create t 0).start.complete .readSome
    (.readCompleted false) := ⟨_, rfl⟩
  have hparsing : c.parsing = .fresh := by rw [hceq]; rfl
  obtain ⟨d, hd, hdp⟩ := connection_parse_eq (hparsing ▸ hp)
  have hgd : readGetMap M d.parsing.request = .ok g := by rw [hdp]; exact hg
  have hcode : (Connection.create t 0).start.deliver M (.read (some input)) =
      some (setUp g >>= fun _ => draw (d.record [.handleRequest d.parsing.request]) g) := by
    rw [← handleRead_eq hd hgd, hceq]
    rfl
  refine ⟨d.record [.handleRequest d.parsing.request],
    { s.machine with running := Function.update s.machine.running t (some _) }, ?_, ?_, rfl,
    Function.update_self .., fun _ hu => Function.update_of_ne hu ..⟩
  · rw [hdp]
    exact List.mem_append_right _ List.mem_cons_self
  · simp only [SharedStep, Server.sharedStep, Server.step, hc, hcode]
    show (s.machine.begin t ⟨k, 0, _⟩).map _ = _
    rw [Machine.begin_iff.mpr ⟨hidle, rfl⟩]
    rfl

/-- The handler draws the map as it is and ends; the connection is then written back. -/
theorem shared_draw {s : Server M} {k t : Nat} {c d : Connection} {g : GetMap M}
    (hc : s.connections[k]? = some c) (h : s.machine.running t = some ⟨k, 0, draw d g⟩) :
    ∃ evs s', Run SharedStep s evs s' ∧ s'.connections[k]? = some
      (d.send (imageReply g (M.aggRender (s.machine.store 0) (M.image32 g.w g.h)))) := by
  obtain ⟨evs, m, hrun, -, hdone, -⟩ := shared_through h
  have hfinish : SharedStep { s with machine := m } (.finish t)
      { s with
        machine := { m with running := Function.update m.running t none }
        connections := s.connections.set k
          (d.send (imageReply g (M.aggRender (s.machine.store 0) (M.image32 g.w g.h)))) } := by
    simp only [SharedStep, Server.sharedStep, Server.step]
    rw [Machine.finish_iff.mpr ⟨0, hdone, rfl⟩]
    rfl
  exact ⟨evs ++ [.finish t], _, run_snoc.mpr ⟨_, hrun, hfinish⟩,
    List.getElem?_set_self (List.getElem?_eq_some_iff.mp hc).1⟩

/-- **Two clients at once**: the first has made its settings when the second makes its own. The
    first is then sent an image in its own size and format, of the layers, the projection and
    the extent of the second. -/
theorem shared_mixes (M : Mapnik) {n : Nat} (hn : 2 ≤ n) (stylesheet : M.Map)
    {A B restA restB : Bytes} {pA pB : Parsing} {gA gB : GetMap M}
    (hA : Parsing.fresh.parse A = (some true, restA, pA))
    (hgA : readGetMap M pA.request = .ok gA)
    (hB : Parsing.fresh.parse B = (some true, restB, pB))
    (hgB : readGetMap M pB.request = .ok gB) :
    ∃ s c, SharedReachable n stylesheet s ∧ c ∈ s.connections ∧
      .handleRequest pA.request ∈ c.log ∧
      .asyncWrite (imageReply gA
        (M.aggRender (gB.configure stylesheet) (M.image32 gA.w gA.h))) ∈ c.log := by
  have hne : 2 % n ≠ 1 % n := by
    rw [Nat.mod_eq_of_lt (show 1 < n by omega)]
    obtain rfl | hlt := Nat.eq_or_lt_of_le hn
    · decide
    · rw [Nat.mod_eq_of_lt hlt]
      decide
  obtain ⟨s₀, ⟨sᵢ, evs₀, hcreate, hrun₀⟩, hmachine, hconn⟩ :=
    shared_two_clients M (by omega : 0 < n) stylesheet
  -- both requests arrive
  obtain ⟨dA, m₁, hdA, hstep₁, hstore₁, hA₁, hother₁⟩ := shared_read (k := 0) (t := 1 % n)
    (by rw [hconn]; rfl) (by rw [hmachine]) hA hgA
  obtain ⟨dB, m₂, -, hstep₂, hstore₂, hB₂, hother₂⟩ := shared_read (k := 1) (t := 2 % n)
    (s := { s₀ with machine := m₁ }) (by show s₀.connections[1]? = _; rw [hconn]; rfl)
    (by rw [hother₁ _ hne, hmachine]) hB hgB
  have hA₂ := (hother₂ _ hne.symm).trans hA₁
  -- the first makes its settings, then the second
  obtain ⟨evs₃, m₃, hrun₃, hstore₃, hA₃, hother₃⟩ :=
    shared_through (s := { s₀ with machine := m₂ }) hA₂
  have hB₃ := (hother₃ _ hne).trans hB₂
  obtain ⟨evs₄, m₄, hrun₄, hstore₄, -, hother₄⟩ :=
    shared_through (s := { s₀ with machine := m₃ }) hB₃
  have hA₄ := (hother₄ _ hne.symm).trans hA₃
  have hmap : m₄.store 0 = gB.configure stylesheet := by
    rw [hstore₄, run_setUp, hstore₃, run_setUp, hstore₂, hstore₁, hmachine]
    exact configure_configure gA gB stylesheet
  -- the first draws
  obtain ⟨evs₅, s₅, hrun₅, hc₅⟩ := shared_draw (s := { s₀ with machine := m₄ }) (k := 0)
    (by show s₀.connections[0]? = _; rw [hconn]; rfl) hA₄
  have hdrawn : ({ s₀ with machine := m₄ } : Server M).machine.store 0 =
      gB.configure stylesheet := hmap
  rw [hdrawn] at hc₅
  have hrun : Run SharedStep sᵢ (evs₀ ++ .complete 0 (.read (some A)) ::
      .complete 1 (.read (some B)) :: (evs₃ ++ (evs₄ ++ evs₅))) s₅ :=
    run_append.mpr ⟨s₀, hrun₀, _, hstep₁, _, hstep₂,
      run_append.mpr ⟨_, hrun₃, run_append.mpr ⟨_, hrun₄, hrun₅⟩⟩⟩
  refine ⟨s₅, _, ⟨sᵢ, _, hcreate, hrun⟩, List.mem_of_getElem? hc₅, ?_, ?_⟩
  · exact List.mem_append_left _ hdA
  · exact List.mem_append_right _ (by simp)

/-! ## When clients are isolated -/

/-- The two settings, from the bytes of the two clients. -/
def twoRequests (M : Mapnik) (A B : Bytes) : Option (Request × GetMap M × GetMap M) :=
  match Parsing.fresh.parse A, Parsing.fresh.parse B with
  | (some true, _, pA), (some true, _, pB) =>
    match readGetMap M pA.request, readGetMap M pB.request with
    | .ok gA, .ok gB => some (pA.request, gA, gB)
    | _, _ => none
  | _, _ => none

theorem twoRequests_some {A B : Bytes} {r : Request × GetMap M × GetMap M}
    (h : twoRequests M A B = some r) :
    ∃ pA pB restA restB, Parsing.fresh.parse A = (some true, restA, pA) ∧
      readGetMap M pA.request = .ok r.2.1 ∧ Parsing.fresh.parse B = (some true, restB, pB) ∧
      readGetMap M pB.request = .ok r.2.2 ∧ r.1 = pA.request := by
  unfold twoRequests at h
  split at h
  case h_1 restA pA restB pB hA hB =>
    split at h
    case h_1 gA gB hgA hgB =>
      cases h
      exact ⟨pA, pB, restA, restB, hA, hgA, hB, hgB, rfl⟩
    case h_2 => cases h
  case h_2 => cases h

/-- The client that wants roads would be sent rivers. -/
theorem twoRequests_differ :
    (twoRequests .sample sampleText riversText).any (fun r =>
      imageReply r.2.1 (Mapnik.sample.aggRender (r.2.2.configure sampleMap)
        (Mapnik.sample.image32 r.2.1.w r.2.1.h)) ≠
          ((handleRequest .sample r.1).run sampleMap).1) = true := by
  decide +kernel

/-- **Without MAP_PER_IO** replies are those of the handler on a map as it was loaded, whatever
    the clients send and however the handlers interleave, exactly when there is no more than
    one io_service. -/
theorem shared_isolated_iff (n : Nat) :
    (∀ (M : Mapnik) (stylesheet : M.Map) (s : Server M), SharedReachable n stylesheet s →
      ∀ c ∈ s.connections, ∀ req rep, .handleRequest req ∈ c.log → .asyncWrite rep ∈ c.log →
        rep = ((handleRequest M req).run stylesheet).1) ↔ n ≤ 1 := by
  constructor
  · intro h
    by_contra hn
    obtain ⟨r, hr, hdiffer⟩ := (Option.any_eq_true ..).mp twoRequests_differ
    obtain ⟨pA, pB, restA, restB, hA, hgA, hB, hgB, hreq⟩ := twoRequests_some hr
    obtain ⟨s, c, hs, hc, hhandled, hsent⟩ :=
      shared_mixes .sample (by omega : 2 ≤ n) sampleMap hA hgA hB hgB
    rw [hreq] at hdiffer
    exact of_decide_eq_true hdiffer (h .sample sampleMap s hs c hc _ _ hhandled hsent)
  · intro hn M stylesheet s hs c hc
    obtain rfl | rfl : n = 0 ∨ n = 1 := by omega
    · -- the pool refuses to be built
      obtain ⟨s₀, evs, hcreate, hrun⟩ := hs
      cases hcreate
    · exact hs.withMaps.isolated hc

end PaleoServer
