/-
  What a client gets, and what a map has seen.

  `received` are the bytes that have arrived on a connection, `handledOn` the requests handled
  on a map, both read off the arrivals alone. Proved, for every interleaving:
  * `server_answers`: the reply of a connection is the one its own bytes ask for, and exactly
    that reply has been written, in a form that decodes.
  * `server_maps`: a map that is not in use is as the requests handled on it, one after
    another in the order of their handlers' starts, have left it.

  Both are inductions on the arrivals of the serial server.
-/
import PaleoServer.ConnectionStream
import PaleoServer.MapHistory
import PaleoServer.ReplyFraming
import PaleoServer.SerialServer
import PaleoServer.ServerIsolation

namespace PaleoServer

open Atomic Trace

variable {M : Mapnik}

/-- The bytes an arrival brings to connection `k`. -/
def Arrival.bytesFor (k : Nat) : Arrival → Bytes
  | .complete l (.read (some input)) => if l = k then input else []
  | _ => []

/-- The bytes that have arrived on connection `k`. -/
def received (k : Nat) (as : List Arrival) : Bytes := as.flatMap (Arrival.bytesFor k)

/-- The request an arrival completes, with its connection, after the arrivals `before`. -/
def requestAt (before : List Arrival) : Arrival → Option (Nat × Request)
  | .complete k (.read (some input)) =>
    match Parsing.fresh.parse (received k before),
        Parsing.fresh.parse (received k before ++ input) with
    | (none, _, _), (some true, _, p) => some (k, p.request)
    | _, _ => none
  | _ => none

/-- The requests completed by arrivals that follow others. -/
def requestsFrom (before : List Arrival) : List Arrival → List (Nat × Request)
  | [] => []
  | a :: as => (requestAt before a).toList ++ requestsFrom (before ++ [a]) as

/-- The requests handled on map `m`: those of connections `m`, `m + n`, `m + 2 n` and so on. -/
def handledOn (n m : Nat) (as : List Arrival) : List Request :=
  ((requestsFrom [] as).filter fun r => r.1 % n = m).map Prod.snd

theorem received_snoc (k : Nat) (as : List Arrival) (a : Arrival) :
    received k (as ++ [a]) = received k as ++ a.bytesFor k := by
  unfold received
  rw [List.flatMap_append, List.flatMap_singleton]

theorem requestsFrom_snoc (p as : List Arrival) (a : Arrival) :
    requestsFrom p (as ++ [a]) = requestsFrom p as ++ (requestAt (p ++ as) a).toList := by
  induction as generalizing p with
  | nil => simp [requestsFrom]
  | cons b as ih =>
    rw [List.cons_append, requestsFrom, requestsFrom, ih, List.append_assoc, List.append_assoc]
    rfl

theorem handledOn_snoc (n m : Nat) (as : List Arrival) (a : Arrival) :
    handledOn n m (as ++ [a]) =
      handledOn n m as ++ (((requestAt as a).toList.filter fun r => r.1 % n = m).map Prod.snd) := by
  unfold handledOn
  rw [requestsFrom_snoc, List.filter_append, List.map_append, List.nil_append]

/-! ## Maps -/

theorem sameStylesheet_handleAll (m : M.Map) (reqs : List Request) :
    SameStylesheet m (handleAll m reqs) := by
  induction reqs using List.reverseRecOn with
  | nil => exact .refl m
  | append_singleton reqs req ih =>
    unfold handleAll at ih ⊢
    rw [List.foldl_append]
    exact ih.trans (sameStylesheet_handleRequest req _)

/-! ## Connections -/

/-- A connection that has received `sent` and has no handler running: it reads on, or the
    parser has decided, or a read has failed. -/
inductive Served (stylesheet : M.Map) (sent : Bytes) (c : Connection) : Prop where
  | reading (r : Bytes) (hpend : c.pending = [.readSome]) (hrep : c.reply = none)
      (hquiet : Quiet c.log) (hparse : Parsing.fresh.parse sent = (none, r, c.parsing))
  | ended (hpend : .readSome ∉ c.pending)
      (hrep : c.reply = replyOf stylesheet (Parsing.fresh.parse sent))
      (hlog : ∀ rep, .asyncWrite rep ∈ c.log ↔ c.reply = some rep)

theorem served_start (stylesheet : M.Map) (ioService map : Nat) :
    Served stylesheet [] (Connection.create ioService map).start :=
  .reading [] rfl rfl quiet_asyncReadSome rfl

theorem Served.reply {stylesheet : M.Map} {sent : Bytes} {c : Connection}
    (h : Served stylesheet sent c) :
    c.reply = replyOf stylesheet (Parsing.fresh.parse sent) ∧
      ∀ rep, .asyncWrite rep ∈ c.log ↔ c.reply = some rep := by
  cases h with
  | reading r hpend hrep hquiet hparse =>
    rw [hparse]
    refine ⟨hrep, fun rep => ?_⟩
    rw [hrep]
    exact ⟨fun hm => absurd hm (hquiet.not_sent rep), fun e => nomatch e⟩
  | ended hpend hrep hlog => exact ⟨hrep, hlog⟩

/-- A reply has been sent. -/
theorem served_send {stylesheet : M.Map} {sent : Bytes} {c : Connection} {rep : Reply}
    (hpend : c.pending = []) (hquiet : ∀ rep, .asyncWrite rep ∉ c.log)
    (hrep : replyOf stylesheet (Parsing.fresh.parse sent) = some rep) :
    Served stylesheet sent (c.send rep) := by
  refine .ended ?_ hrep.symm fun rep' => ?_
  · show .readSome ∉ c.pending ++ [.write]
    rw [hpend]
    decide
  · show .asyncWrite rep' ∈ c.log ++ [.assignReply rep, .asyncWrite rep] ↔ some rep = some rep'
    simp only [List.mem_append, hquiet rep', List.mem_cons, reduceCtorEq, Action.asyncWrite.injEq,
      List.not_mem_nil, or_false, false_or, Option.some.injEq]
    exact eq_comm

theorem bytesFor_read (k : Nat) (input : Bytes) :
    (Arrival.complete k (.read (some input))).bytesFor k = input := if_pos rfl

/-- A read on a connection whose parser has not decided. -/
theorem requestAt_read {k : Nat} {before : List Arrival} {r : Bytes} {p : Parsing}
    (h : Parsing.fresh.parse (received k before) = (none, r, p)) (input : Bytes) :
    requestAt before (.complete k (.read (some input))) =
      match p.parse input with
      | (some true, _, q) => some (k, q.request)
      | _ => none := by
  unfold requestAt
  simp only [h, Parsing.parse_append_none h input]
  rcases p.parse input with ⟨_ | _ | _, rest, q⟩ <;> rfl

/-- The reading handler, alone with its map. -/
theorem Served.read {stylesheet m : M.Map} (hm : SameStylesheet stylesheet m) {k : Nat}
    {before : List Arrival} {c : Connection} {input r : Bytes} (hpend : c.pending = [])
    (hrep : c.reply = none) (hquiet : Quiet c.log)
    (hparse : Parsing.fresh.parse (received k before) = (none, r, c.parsing)) :
    Served stylesheet (received k before ++ input) ((c.handleRead M (some input)).run m).1 ∧
      ((c.handleRead M (some input)).run m).2 =
        handleAll m ((requestAt before (.complete k (.read (some input)))).toList.map Prod.snd) := by
  have hcat := Parsing.parse_append_none hparse input
  obtain ⟨_, _, hpd, hrp, _, _⟩ := parse_spec c input
  have hquiet' := hquiet.parse input
  rw [run_handleRead, requestAt_read hparse]
  rcases hp : c.parsing.parse input with ⟨_ | _ | _, rest, q⟩
  · -- undecided: the next read goes on
    obtain ⟨d, hd, hq⟩ := connection_parse_eq hp
    rw [hd] at hpd hrp hquiet'
    rw [hd]
    refine ⟨.reading rest ?_ (hrp.trans hrep) (hquiet'.append quiet_asyncReadSome) ?_, rfl⟩
    · show d.pending ++ [.readSome] = [.readSome]
      rw [hpd, hpend]
      rfl
    · rw [hcat, hp]
      exact congrArg (fun p => ((none : Tribool), rest, p)) hq.symm
  · -- refused
    obtain ⟨d, hd, hq⟩ := connection_parse_eq hp
    rw [hd] at hpd hquiet'
    rw [hd]
    refine ⟨served_send (hpd.trans hpend) hquiet'.not_sent ?_, rfl⟩
    rw [hcat, hp]
    rfl
  · -- accepted
    obtain ⟨d, hd, hq⟩ := connection_parse_eq hp
    rw [hd] at hpd hquiet'
    rw [hd]
    refine ⟨served_send (c := d.record [.handleRequest d.parsing.request]) (hpd.trans hpend)
      (fun rep hmem => ?_) ?_, ?_⟩
    · rcases List.mem_append.mp hmem with hmem | hmem
      · exact hquiet'.not_sent rep hmem
      · cases List.mem_singleton.mp hmem
    · rw [hcat, hp]
      show some ((handleRequest M q.request).run stylesheet).1 = some _
      rw [hq, hm.reply_eq q.request]
    · show ((handleRequest M d.parsing.request).run m).2 = _
      rw [hq]
      rfl

/-- **One completion**, its handler alone with the map: the connection is served, and the map
    has seen the request that the completion completed, if any. -/
theorem Served.deliver {stylesheet m : M.Map} (hm : SameStylesheet stylesheet m) {k : Nat}
    {before : List Arrival} {c : Connection} (h : Served stylesheet (received k before) c)
    {ev : Completion} {code : Prog M.Map Connection} (hd : c.deliver M ev = some code) :
    Served stylesheet (received k (before ++ [.complete k ev])) (code.run m).1 ∧
      (code.run m).2 =
        handleAll m ((requestAt before (.complete k ev)).toList.map Prod.snd) := by
  rw [received_snoc]
  cases ev with
  | read result =>
    cases h with
    | ended hpend hrep hlog =>
      simp only [Connection.deliver, hpend, if_false] at hd
      cases hd
    | reading r hpend hrep hquiet hparse =>
      have herase : c.pending.erase .readSome = [] := by
        rw [hpend]
        rfl
      simp only [Connection.deliver, hpend, List.mem_singleton, if_true, Option.some.injEq] at hd
      subst hd
      have hquiet' := hquiet.append (quiet_readCompleted result.isNone)
      rcases result with _ | input
      · refine ⟨.ended ?_ ?_ fun rep => ?_, rfl⟩
        · show .readSome ∉ c.pending.erase .readSome
          rw [herase]
          exact List.not_mem_nil
        · show c.reply = replyOf stylesheet (Parsing.fresh.parse (received k before ++ []))
          rw [List.append_nil, hparse]
          exact hrep
        · show .asyncWrite rep ∈ c.log ++ [.readCompleted true] ↔ c.reply = some rep
          rw [hrep]
          exact ⟨fun hmem => absurd hmem (hquiet'.not_sent rep), fun e => by cases e⟩
      · rw [bytesFor_read]
        exact Served.read hm (c := c.complete .readSome (.readCompleted false)) herase hrep hquiet'
          hparse
  | write error =>
    rw [show (Arrival.complete k (.write error)).bytesFor k = [] from rfl, List.append_nil]
    cases h with
    | reading r hpend hrep hquiet hparse =>
      simp [Connection.deliver, hpend] at hd
    | ended hpend hrep hlog =>
      simp only [Connection.deliver] at hd
      split at hd <;> cases hd
      have herase : .readSome ∉ c.pending.erase .write :=
        fun hmem => hpend (List.mem_of_mem_erase hmem)
      cases error with
      | true =>
        refine ⟨.ended herase hrep fun rep => ?_, rfl⟩
        show .asyncWrite rep ∈ c.log ++ [.writeCompleted true] ↔ c.reply = some rep
        rw [← hlog rep]
        simp
      | false =>
        refine ⟨.ended herase hrep fun rep => ?_, rfl⟩
        show .asyncWrite rep ∈ c.log ++ [.writeCompleted false] ++ [.shutdown] ↔ c.reply = some rep
        rw [← hlog rep]
        simp

/-! ## Arrivals -/

theorem bytesFor_of_ne {k l : Nat} (h : k ≠ l) (ev : Completion) :
    (Arrival.complete k ev).bytesFor l = [] := by
  rcases ev with (_ | input) | error
  · rfl
  · exact if_neg h
  · rfl

/-- The request an arrival completes is one of the connection it arrives on. -/
theorem requestAt_connection {before : List Arrival} {k : Nat} {ev : Completion}
    {r : Nat × Request} (h : r ∈ (requestAt before (.complete k ev)).toList) : r.1 = k := by
  rw [Option.mem_toList] at h
  rcases ev with (_ | input) | error
  · cases h
  · simp only [requestAt] at h
    split at h
    · cases h
      rfl
    · cases h
  · cases h

/-- What an arrival on connection `k` adds to the requests of a map. -/
theorem handledOn_complete (n m : Nat) (as : List Arrival) (k : Nat) (ev : Completion) :
    handledOn n m (as ++ [.complete k ev]) = handledOn n m as ++
      if k % n = m then (requestAt as (.complete k ev)).toList.map Prod.snd else [] := by
  rw [handledOn_snoc]
  split
  · rename_i h
    rw [List.filter_eq_self.mpr]
    intro r hr
    rw [requestAt_connection hr]
    exact decide_eq_true h
  · rename_i h
    rw [List.filter_eq_nil_iff.mpr, List.map_nil]
    intro r hr
    rw [requestAt_connection hr]
    simpa using h

theorem handleAll_append (m : M.Map) (reqs reqs' : List Request) :
    handleAll m (reqs ++ reqs') = handleAll (handleAll m reqs) reqs' := List.foldl_append

/-- The serial server after some arrivals. A connection that has not been started has received
    nothing. -/
structure SerialInvariant (n : Nat) (stylesheet : M.Map) (as : List Arrival) (s : Server M) :
    Prop where
  sound : Sound n s
  quiet : s.Quiet
  served : ∀ k c, k < s.newConnection → s.connections[k]? = some c →
    Served stylesheet (received k as) c
  silent : ∀ k, s.newConnection ≤ k → received k as = []
  maps : ∀ m, s.machine.store m = handleAll stylesheet (handledOn n m as)

/-- Requests do not change which stylesheet a map is of. -/
theorem SerialInvariant.sameStylesheet {n : Nat} {stylesheet : M.Map} {as : List Arrival}
    {s : Server M} (hi : SerialInvariant n stylesheet as s) (m : Nat) :
    SameStylesheet stylesheet (s.machine.store m) := by
  rw [hi.maps]
  exact sameStylesheet_handleAll ..

theorem serialInvariant_create {n : Nat} {stylesheet : M.Map} {s : Server M}
    (h : Server.create M n stylesheet = .ok s) : SerialInvariant n stylesheet [] s := by
  have hsound := sound_create h
  have hquiet := quiet_create h
  rw [create_eq M hsound.1.pos] at h
  cases h
  exact ⟨hsound, hquiet, fun k c hk => absurd hk (Nat.not_lt_zero k), fun _ _ => rfl,
    fun _ => rfl⟩

/-- An accept adds a connection that has received nothing. -/
theorem SerialInvariant.accepted {n : Nat} {stylesheet : M.Map} {as : List Arrival}
    {s : Server M} (hi : SerialInvariant n stylesheet as s) (accepts : List Nat) {error : Bool}
    {k : Nat} {c : Connection}
    (hk : k < (Server.accepted n { s with accepts }).newConnection)
    (hc : (Server.accepted n { s with accepts }).connections[k]? = some c) :
    Served stylesheet (received k (as ++ [.accept error])) c := by
  rw [received_snoc]
  show Served stylesheet (received k as ++ []) c
  rw [List.append_nil]
  rcases hi.sound.1.accepted_cases accepts hk hc with ⟨rfl, rfl⟩ | ⟨hk, hc⟩
  · rw [hi.silent _ (Nat.le_refl _)]
    exact served_start ..
  · exact hi.served k c hk hc

theorem SerialInvariant.step {n : Nat} {stylesheet : M.Map} {as : List Arrival} {s s' : Server M}
    {a : Arrival} (hi : SerialInvariant n stylesheet as s) (h : SerialStep s a s') :
    SerialInvariant n stylesheet (as ++ [a]) s' := by
  obtain ⟨evs, _, hrun, hquiet⟩ := run_arrival hi.sound hi.quiet h
  have hsound : Sound n s' := run_invariant (fun _ _ _ hs h => hs.step h) hrun hi.sound
  cases a with
  | accept error =>
    have hsame : ∀ k, received k (as ++ [.accept error]) = received k as := by
      intro k
      rw [received_snoc]
      exact List.append_nil _
    have hmaps : ∀ m, handledOn n m (as ++ [.accept error]) = handledOn n m as := by
      intro m
      rw [handledOn_snoc]
      exact List.append_nil _
    obtain ⟨j, accepts, _, _, rfl⟩ := (hi.sound.1.step_accept_iff error).mp h
    cases error with
    | true =>
      exact ⟨hsound, hquiet, fun k c hk hc => hsame k ▸ hi.served k c hk hc,
        fun k hk => hsame k ▸ hi.silent k hk, fun m => hmaps m ▸ hi.maps m⟩
    | false =>
      refine ⟨hsound, hquiet, fun k c hk hc => hi.accepted accepts hk hc, fun k hk => ?_,
        fun m => hmaps m ▸ hi.maps m⟩
      rw [hsame]
      have := hi.sound.1.newest
      change s.connections.length ≤ k at hk
      exact hi.silent k (by omega)
  | complete k ev =>
    obtain ⟨c, code, hc, hd, rfl⟩ := serialStep_complete.mp h
    have hk := hi.sound.1.started hc hd
    have hmap := (hi.sound.1.binding hc).2
    obtain ⟨hserved, hnext⟩ := (hi.served k c hk hc).deliver (hi.sameStylesheet c.map) hd
    refine ⟨hsound, hquiet, fun l d hl hdl => ?_, fun l hl => ?_, fun m => ?_⟩
    · rcases set_cases hdl with ⟨rfl, rfl⟩ | ⟨e, hdl⟩
      · exact hserved
      · rw [received_snoc, bytesFor_of_ne e, List.append_nil]
        exact hi.served l d hl hdl
    · have e : k ≠ l := by
        rintro rfl
        exact absurd hk (Nat.not_lt.mpr hl)
      rw [received_snoc, bytesFor_of_ne e, List.append_nil]
      exact hi.silent l hl
    · rw [handledOn_complete, handleAll_append, ← hi.maps]
      show Function.update s.machine.store c.map (code.run (s.machine.store c.map)).2 m = _
      by_cases e : k % n = m
      · subst e
        rw [if_pos rfl, ← hmap, Function.update_self, hnext]
      · rw [if_neg e, Function.update_of_ne (by rw [hmap]; exact Ne.symm e)]
        rfl

/-! ## All interleavings -/

theorem serialInvariant_settle {n : Nat} {stylesheet : M.Map} {s₀ s : Server M}
    {evs : List ServerEvent} (hcreate : Server.create M n stylesheet = .ok s₀)
    (hrun : Run ServerStep s₀ evs s) :
    SerialInvariant n stylesheet (evs.filterMap ServerEvent.arrival) (s.settle n) := by
  have hserial := settle_run (sound_create hcreate) hrun
  rw [settle_quiet (quiet_create hcreate)] at hserial
  exact run_history (p := []) (fun _ _ _ _ hi h => hi.step h) hserial
    (serialInvariant_create hcreate)

theorem framed_handleRequest (req : Request) (m : M.Map) :
    Framed ((handleRequest M req).run m).1 := by
  rw [run_handleRequest]
  rcases h : readGetMap M req with rep | g
  · exact framed_readGetMap req rep h
  · exact framed_image ((readGetMap_ok_iff req g).mp h) _

theorem framed_replyOf {m : M.Map} {result : Tribool × Bytes × Parsing} {rep : Reply}
    (h : replyOf m result = some rep) : Framed rep := by
  rcases result with ⟨_ | _ | _, r, p⟩ <;> cases h
  · exact framed_html ..
  · exact framed_handleRequest ..

/-- A connection whose handlers have ended is as it will be when all handlers have. -/
theorem SerialInvariant.answered {n : Nat} {stylesheet : M.Map} {as : List Arrival} {s : Server M}
    (hi : SerialInvariant n stylesheet as (s.settle n)) (hs : Sound n s) {k : Nat} {c : Connection}
    (hc : s.connections[k]? = some c) (hidle : s.machine.running c.ioService = none) :
    c.reply = replyOf stylesheet (Parsing.fresh.parse (received k as)) ∧
      ∀ rep, .asyncWrite rep ∈ c.log ↔ c.reply = some rep := by
  have hsettled := hs.settle_idle hc hidle
  rcases Nat.lt_or_ge k s.newConnection with hk | hk
  · exact (hi.served k c hk hsettled).reply
  · -- the newest connection has not been started
    have hlt : k < s.connections.length := (List.getElem?_eq_some_iff.mp hc).1
    have hnewest := hs.1.newest
    have hwaiting := hs.1.waiting
    rw [show s.newConnection = k by omega, hc] at hwaiting
    cases hwaiting
    rw [hi.silent k hk]
    exact ⟨rfl, fun rep => ⟨fun h => (nomatch h), fun h => (nomatch h)⟩⟩

/-- **What a client gets depends on what it sends**: after any run, on a connection whose
    handlers have ended, the reply is that of one parse of the bytes that have arrived on it, the
    request handled alone on a map as it was loaded; exactly that reply has been
    written; and what has been written decodes. -/
theorem server_answers (M : Mapnik) (n : Nat) (stylesheet : M.Map) (s₀ s : Server M)
    (evs : List ServerEvent) (hcreate : Server.create M n stylesheet = .ok s₀)
    (hrun : Run ServerStep s₀ evs s) (k : Nat) (c : Connection)
    (hc : s.connections[k]? = some c) (hidle : s.machine.running c.ioService = none) :
    c.reply = replyOf stylesheet
        (Parsing.fresh.parse (received k (evs.filterMap ServerEvent.arrival))) ∧
      (∀ rep, .asyncWrite rep ∈ c.log ↔ c.reply = some rep) ∧
      ∀ rep, c.reply = some rep → Decodes rep := by
  have hsound : Sound n s := run_invariant (fun _ _ _ hs h => hs.step h) hrun
    (sound_create hcreate)
  obtain ⟨hreply, hwritten⟩ := (serialInvariant_settle hcreate hrun).answered hsound hc hidle
  exact ⟨hreply, hwritten, fun rep hrep => (framed_replyOf (hreply.symm.trans hrep)).decodes⟩

/-- The first client's first read, and its handler to the end. -/
theorem first_read_run (M : Mapnik) {n : Nat} (hn : 0 < n) (stylesheet : M.Map) (input : Bytes) :
    ∃ evs s, Run ServerStep (Server.initial M n stylesheet) evs s ∧ s.Quiet ∧
      evs.filterMap ServerEvent.arrival = [.accept false, .complete 0 (.read (some input))] ∧
      s.connections[0]? = some (afterRead stylesheet (1 % n) 0 input) := by
  obtain ⟨t, ht⟩ : ∃ t, t = Server.accepted n
      { Server.initial M n stylesheet with accepts := [] } := ⟨_, rfl⟩
  have haccept : ServerStep (Server.initial M n stylesheet) (.accept false) t := by
    rw [ht]
    exact initial_accept M hn stylesheet
  obtain ⟨s, hread, hc⟩ : ∃ s, SerialStep t (.complete 0 (.read (some input))) s ∧
      s.connections[0]? = some (afterRead stylesheet (1 % n) 0 input) := by
    rw [ht]
    exact ⟨_, rfl, rfl⟩
  have hcreate := create_eq M hn stylesheet
  have hquiet : t.Quiet := by
    rw [ht]
    rfl
  obtain ⟨evs, hevs, hrun, hquiet'⟩ :=
    run_arrival ((sound_create hcreate).step haccept) hquiet hread
  refine ⟨.accept false :: evs, s, ⟨t, haccept, hrun⟩, hquiet', ?_, hc⟩
  exact congrArg (Arrival.accept false :: ·) hevs

theorem server_answers_sample :
    ∃ evs s c, Run ServerStep (Server.initial .sample 2 sampleMap) evs s ∧
      s.connections[0]? = some c ∧ .asyncWrite sampleReply ∈ c.log ∧ Decodes sampleReply := by
  obtain ⟨evs, s, hrun, hquiet, hevs, hc⟩ :=
    first_read_run .sample (n := 2) (by decide) sampleMap sampleText
  obtain ⟨hreply, hwritten, hdecodes⟩ := server_answers .sample 2 sampleMap _ s evs
    (create_eq .sample (by decide) sampleMap) hrun 0 _ hc (congrFun hquiet _)
  rw [hevs] at hreply
  have hsome := hreply.trans (show _ = some sampleReply by decide +kernel)
  exact ⟨evs, s, _, hrun, hc, (hwritten _).mpr hsome, hdecodes _ hsome⟩

/-- **A map is the work of its own requests in their order**: after any run, a map that no
    handler is using is what the requests handled on it leave, one after another, of the
    map that was loaded. -/
theorem server_maps (M : Mapnik) (n : Nat) (stylesheet : M.Map) (s₀ s : Server M)
    (evs : List ServerEvent) (hcreate : Server.create M n stylesheet = .ok s₀)
    (hrun : Run ServerStep s₀ evs s) (m : Nat)
    (hfree : ∀ task, s.machine.running (mapThread n m) = some task → task.resource ≠ m) :
    s.machine.store m =
      handleAll stylesheet (handledOn n m (evs.filterMap ServerEvent.arrival)) := by
  rw [← (serialInvariant_settle hcreate hrun).maps m]
  exact (Machine.settled_free hfree).symm

theorem server_maps_sample :
    ∃ evs s, Run ServerStep (Server.initial .sample 2 sampleMap) evs s ∧
      s.machine.store 0 = handleAll sampleMap [sampleRequest] := by
  obtain ⟨evs, s, hrun, hquiet, hevs, _⟩ :=
    first_read_run .sample (n := 2) (by decide) sampleMap sampleText
  have hidle : ∀ task, s.machine.running (mapThread 2 0) = some task → task.resource ≠ 0 := by
    intro task h
    rw [hquiet] at h
    cases h
  have hmaps := server_maps .sample 2 sampleMap _ s evs
    (create_eq .sample (by decide) sampleMap) hrun 0 hidle
  rw [hevs] at hmaps
  refine ⟨evs, s, hrun, hmaps.trans ?_⟩
  have hhandled : handledOn 2 0 [.accept false, .complete 0 (.read (some sampleText))] =
      [sampleRequest] := by decide +kernel
  rw [hhandled]

end PaleoServer
