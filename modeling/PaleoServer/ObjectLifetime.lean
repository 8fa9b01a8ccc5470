/-
  When a connection object is destroyed.

  Nothing in the source deletes a connection. `new_connection_` holds it until the next client is
  awaited, and every handler it gives to an asynchronous operation holds a `shared_from_this()`;
  with the last of these pointers it goes. `Server.pointers` are the operations on pointers that
  an event performs; they fail where an object is used that has been destroyed.

  Proved: `connections_managed`. In no run does one fail. A connection has one pointer for each
  operation that is outstanding and no other, so it is destroyed exactly when its conversation is
  over, and nothing refers to it then; and the reply whose buffers are being written stays as
  it is, as `reply.hpp` asks.
-/
import PaleoServer.Lib.UseCount
import PaleoServer.ConnectionProtocol
import PaleoServer.ServerThreads

namespace PaleoServer

open Atomic Trace UseCount

variable {M : Mapnik}

/-! ## Pointers -/

/-- The asynchronous operations that have been started, each with a `shared_from_this()`. -/
def Connection.started (c : Connection) : Nat := c.log.countP Action.starts

def Server.started (s : Server M) (k : Nat) : Nat :=
  (s.connections[k]?.map Connection.started).getD 0

/-- What an event does to the pointers to connections, from `s` to `s'`. -/
def Server.pointers (s s' : Server M) : ServerEvent → List (PointerOp Nat)
  | .accept true => []
  -- `start`, then `new_connection_.reset(new connection(...))`
  | .accept false => [.share s.newConnection, .make s'.newConnection, .release s.newConnection]
  -- the io_service calls the handler that it holds
  | .complete _ _ => []
  | .advance _ => []
  -- the operations the handler has started, then the handler itself is destroyed
  | .finish t =>
    match s.machine.running t with
    | none => []
    | some task => PointerOp.handOver task.job (s'.started task.job - s.started task.job)

/-- A step of the server with the use counts of the connections. -/
def CountedStep (p : Server M × (Nat → Nat)) (ev : ServerEvent)
    (p' : Server M × (Nat → Nat)) : Prop :=
  ServerStep p.1 ev p'.1 ∧ PointerOp.applyAll p.2 (p.1.pointers p'.1 ev) = some p'.2

/-- The connections whose members an event reads or writes. -/
def Server.uses (s : Server M) : ServerEvent → List Nat
  | .accept true => s.accepts
  | .accept false => s.newConnection :: s.accepts
  | .complete k _ => [k]
  | .advance t | .finish t => (s.machine.running t).toList.map Task.job

/-- The pointers to connection `k`: those of its operations, and `new_connection_`. -/
def Server.holders (s : Server M) (k : Nat) : Nat :=
  (s.connections[k]?.map (·.pending.length)).getD 0 + if k = s.newConnection then 1 else 0

/-! ## Handlers -/

theorem started_record (c : Connection) (as : List Action) :
    (c.record as).started = c.started + as.countP Action.starts := List.countP_append

theorem started_complete {c : Connection} {op : Operation} {a : Action}
    (ha : a.starts = false) : (c.complete op a).started = c.started := by
  change (c.record [a]).started = c.started
  rw [started_record, List.countP_singleton, ha]
  rfl

theorem started_parse (c : Connection) (input : Bytes) :
    (c.parse input).2.started = c.started := by
  change (c.record _).started = c.started
  rw [started_record, Nat.add_eq_left, List.countP_eq_zero]
  intro a ha
  obtain ⟨e, _, rfl⟩ := List.mem_map.mp ha
  exact Bool.false_ne_true

/-- The reading handler starts one operation. -/
theorem handleRead_started {c c' : Connection} {input : Bytes}
    (h : (c.handleRead M (some input)).Returns c') :
    c'.started = c.started + 1 ∧ c'.pending.length = c.pending.length + 1 := by
  have hstarted := started_parse c input
  have hpending : (c.parse input).2.pending = c.pending := rfl
  rcases handleRead_returns h with ⟨d, hp, rfl⟩ | ⟨d, hp, rfl⟩ | ⟨d, rep, hp, _, rfl⟩ <;>
    rw [hp] at hstarted hpending <;> rw [← hstarted, ← hpending]
  · exact ⟨started_record d [.asyncReadSome], List.length_append⟩
  · exact ⟨started_record d [.assignReply _, .asyncWrite _], List.length_append⟩
  · refine ⟨?_, List.length_append⟩
    change ((d.record [.handleRequest _]).record [.assignReply rep, .asyncWrite rep]).started = _
    rw [started_record, started_record]
    rfl

/-- An event of a connection takes one operation from those outstanding and adds those that it
    starts. -/
theorem connectionStep_started {c c' : Connection} {ev : Completion}
    (h : ConnectionStep M c ev c') :
    0 < c.pending.length ∧
      ∃ i, c'.started = c.started + i ∧ c'.pending.length = c.pending.length + i - 1 := by
  obtain ⟨code, hd, hret⟩ := h
  rcases ev with (_ | input) | error
  · simp only [Connection.deliver] at hd
    split at hd <;> cases hd
    rename_i hmem
    cases hret
    exact ⟨List.length_pos_of_mem hmem, 0, started_complete rfl, List.length_erase_of_mem hmem⟩
  · simp only [Connection.deliver] at hd
    split at hd <;> cases hd
    rename_i hmem
    have hpos := List.length_pos_of_mem hmem
    obtain ⟨hstarted, hpending⟩ := handleRead_started hret
    refine ⟨hpos, 1, hstarted.trans (congrArg (· + 1) (started_complete rfl)), ?_⟩
    rw [hpending]
    change (c.pending.erase .readSome).length + 1 = _
    rw [List.length_erase_of_mem hmem]
    omega
  · simp only [Connection.deliver] at hd
    split at hd <;> cases hd
    rename_i hmem
    cases hret
    have hclosed : ((c.complete .write (.writeCompleted error)).handleWrite error).started =
        c.started := by
      cases error with
      | true => exact started_complete rfl
      | false =>
        change ((c.complete .write (.writeCompleted false)).record [.shutdown]).started = _
        rw [started_record, started_complete rfl]
        rfl
    have herase : ((c.complete .write (.writeCompleted error)).handleWrite error).pending =
        c.pending.erase .write := by
      cases error <;> rfl
    refine ⟨List.length_pos_of_mem hmem, 0, hclosed, ?_⟩
    rw [herase]
    exact List.length_erase_of_mem hmem

/-- Every running handler takes its connection one step on. -/
def Server.Handling (s : Server M) : Prop :=
  s.machine.Yields fun k c' => ∃ c ev, s.connections[k]? = some c ∧ ConnectionStep M c ev c'

theorem handling_create {n : Nat} {stylesheet : M.Map} {s : Server M}
    (h : Server.create M n stylesheet = .ok s) : s.Handling := by
  have hpos := (sound_create h).1.pos
  rw [create_eq M hpos] at h
  cases h
  intro t task ht
  cases ht

theorem Server.Handling.step {n : Nat} {s s' : Server M} {ev : ServerEvent} (hs : Sound n s)
    (hh : s.Handling) (h : ServerStep s ev s') : s'.Handling := by
  cases ev with
  | accept error =>
    obtain ⟨_, accepts, _, rfl⟩ := hs.1.step_accept h
    cases error with
    | true => exact hh
    | false =>
      intro t task ht a ha
      obtain ⟨c, ev, hc, hstep⟩ := hh t task ht a ha
      have hnew := (List.getElem?_eq_some_iff.mp hs.1.waiting).1
      exact ⟨c, ev, sameOn_accepted n c.ioService accepts hnew _ c (hs.1.job_lt ht) hc rfl, hstep⟩
  | complete k ev =>
    obtain ⟨c, code, machine, hc, hd, hb, rfl⟩ := step_complete h
    exact Machine.yields_begin hh (fun c' hc' => ⟨c, ev, hc, code, hd, hc'⟩) hb
  | advance t =>
    obtain ⟨machine, ha, rfl⟩ := step_advance h
    exact Machine.yields_advance hh ha
  | finish t =>
    obtain ⟨k, c, machine, hf, rfl⟩ := step_finish h
    obtain ⟨r, ht, rfl⟩ := Machine.finish_iff.mp hf
    intro u task hu a ha
    have hne : u ≠ t := by
      rintro rfl
      cases (Function.update_self u none s.machine.running).symm.trans hu
    have hu' : s.machine.running u = some task :=
      (Function.update_of_ne hne none s.machine.running).symm.trans hu
    -- another io_service does not serve this connection
    have hjob : k ≠ task.job := by
      rintro rfl
      exact hne ((hs.2 u task hu').1.trans (hs.2 t _ ht).1.symm)
    obtain ⟨d, ev, hd, hstep⟩ := hh u task hu' a ha
    refine ⟨d, ev, ?_, hstep⟩
    change (s.connections.set k c)[task.job]? = some d
    rw [List.getElem?_set_ne hjob]
    exact hd

/-! ## Counts -/

theorem holders_of {s : Server M} {k : Nat} {c : Connection} (hc : s.connections[k]? = some c) :
    s.holders k = c.pending.length + if k = s.newConnection then 1 else 0 := by
  unfold Server.holders
  rw [hc]
  rfl

theorem started_of {s : Server M} {k : Nat} {c : Connection} (hc : s.connections[k]? = some c) :
    s.started k = c.started := by
  unfold Server.started
  rw [hc]
  rfl

/-- `new_connection_` is the only pointer to its connection. -/
theorem Invariant.holders_new {n : Nat} {s : Server M} (hs : Invariant n s) :
    s.holders s.newConnection = 1 := by
  rw [holders_of hs.waiting, if_pos rfl]
  rfl

/-- A connection written back brings its operations. -/
theorem holders_set (s : Server M) (machine : Machine Nat Nat Nat M.Map Connection) {k : Nat}
    {c : Connection} (hk : k < s.connections.length) :
    ({ s with machine, connections := s.connections.set k c } : Server M).holders =
      Function.update s.holders k
        (c.pending.length + if k = s.newConnection then 1 else 0) := by
  funext l
  by_cases e : l = k
  · subst e
    rw [Function.update_self]
    exact holders_of (List.getElem?_set_self hk)
  · rw [Function.update_of_ne e]
    unfold Server.holders
    rw [List.getElem?_set_ne (Ne.symm e)]

/-- A client comes: its connection is held by a handler, the next one by `new_connection_`. -/
theorem holders_accepted {n : Nat} {s : Server M} (hs : Invariant n s) (accepts : List Nat) :
    (Server.accepted n { s with accepts }).holders =
      Function.update (Function.update s.holders s.connections.length 1) s.newConnection 1 := by
  have hnewest := hs.newest
  have hlen : (s.connections.modify s.newConnection Connection.start).length =
      s.connections.length := List.length_modify ..
  funext l
  change ((s.connections.modify s.newConnection Connection.start ++ [_])[l]?.map _).getD 0 +
    (if l = s.connections.length then 1 else 0) = _
  rcases Nat.lt_trichotomy l s.connections.length with hl | rfl | hl
  · rw [List.getElem?_append_left (hlen ▸ hl), if_neg (Nat.ne_of_lt hl)]
    by_cases e : l = s.newConnection
    · subst e
      rw [Function.update_self, List.getElem?_modify_eq, hs.waiting]
      rfl
    · rw [Function.update_of_ne e, Function.update_of_ne (Nat.ne_of_lt hl),
        List.getElem?_modify_ne _ _ (Ne.symm e)]
      exact (congrArg _ (if_neg e)).symm
  · have hne : s.connections.length ≠ s.newConnection := by omega
    rw [Function.update_of_ne hne, Function.update_self, ← hlen, List.getElem?_concat_length,
      if_pos rfl]
    rfl
  · have hne : l ≠ s.newConnection := by omega
    have hnone : s.connections[l]? = none := List.getElem?_eq_none (Nat.le_of_lt hl)
    rw [Function.update_of_ne hne, Function.update_of_ne (Nat.ne_of_gt hl),
      List.getElem?_eq_none (by rw [List.length_append, hlen]; exact hl),
      if_neg (Nat.ne_of_gt hl)]
    unfold Server.holders
    rw [hnone, if_neg hne]

/-- What holds after every event. -/
structure CountInvariant (n : Nat) (s : Server M) : Prop where
  sound : Sound n s
  handling : s.Handling
  accepts : s.accepts = [] ∨ s.accepts = [s.newConnection]

theorem CountInvariant.step {n : Nat} {s s' : Server M} {ev : ServerEvent}
    (hs : CountInvariant n s) (h : ServerStep s ev s') : CountInvariant n s' := by
  refine ⟨hs.sound.step h, hs.handling.step hs.sound h, ?_⟩
  have haccepts := hs.accepts
  cases ev with
  | accept error =>
    obtain ⟨k, accepts, hacc, rfl⟩ := hs.sound.1.step_accept h
    have hnone : accepts = [] := by
      rw [hacc] at haccepts
      exact (List.cons.inj (haccepts.resolve_left (List.cons_ne_nil k accepts))).2
    subst hnone
    cases error with
    | true => exact .inl rfl
    | false => exact .inr rfl
  | complete k ev =>
    obtain ⟨_, _, _, _, _, _, rfl⟩ := step_complete h
    exact haccepts
  | advance t =>
    obtain ⟨_, _, rfl⟩ := step_advance h
    exact haccepts
  | finish t =>
    obtain ⟨_, _, _, _, rfl⟩ := step_finish h
    exact haccepts

theorem countInvariant_create {n : Nat} {stylesheet : M.Map} {s : Server M}
    (h : Server.create M n stylesheet = .ok s) : CountInvariant n s := by
  refine ⟨sound_create h, handling_create h, ?_⟩
  have hpos := (sound_create h).1.pos
  rw [create_eq M hpos] at h
  cases h
  exact .inr rfl

/-- A handler that ends. -/
theorem CountInvariant.finish {n : Nat} {s : Server M} (hs : CountInvariant n s) {t k r : Nat}
    {c' : Connection} (ht : s.machine.running t = some ⟨k, r, .done c'⟩) :
    k < s.newConnection ∧ ∃ c ev, s.connections[k]? = some c ∧ ConnectionStep M c ev c' :=
  ⟨hs.sound.1.job_lt ht, hs.handling t _ ht c' rfl⟩

/-- The pointers of an accept: the old connection is never without one. -/
theorem Invariant.counted_accept {n : Nat} {s : Server M} (hs : Invariant n s)
    (accepts : List Nat) :
    PointerOp.applyAll s.holders
        [.share s.newConnection, .make s.connections.length, .release s.newConnection] =
      some (Server.accepted n { s with accepts }).holders := by
  have hnew := hs.holders_new
  have hnewest := hs.newest
  have hne : s.connections.length ≠ s.newConnection := by omega
  have hfree : s.holders s.connections.length = 0 := by
    unfold Server.holders
    rw [List.getElem?_eq_none (Nat.le_refl _), if_neg hne]
    rfl
  rw [holders_accepted hs,
    PointerOp.applyAll_cons (PointerOp.apply_share (by omega)),
    PointerOp.applyAll_cons (PointerOp.apply_make
      (by rw [Function.update_of_ne hne, hfree])),
    PointerOp.applyAll_cons (PointerOp.apply_release
      (by rw [Function.update_of_ne hne.symm, Function.update_self]; omega)),
    Function.update_of_ne hne.symm, Function.update_self, hnew,
    Function.update_comm hne, Function.update_idem]
  exact congrArg some (Function.update_comm hne.symm ..)

/-- **The counts are the holders**, after every event as before. -/
theorem CountInvariant.counted {n : Nat} {s s' : Server M} {ev : ServerEvent}
    (hs : CountInvariant n s) (h : ServerStep s ev s') :
    PointerOp.applyAll s.holders (s.pointers s' ev) = some s'.holders := by
  cases ev with
  | accept error =>
    obtain ⟨_, accepts, _, rfl⟩ := hs.sound.1.step_accept h
    cases error with
    | true => rfl
    | false => exact hs.sound.1.counted_accept accepts
  | complete k ev =>
    obtain ⟨_, _, _, _, _, _, rfl⟩ := step_complete h
    rfl
  | advance t =>
    obtain ⟨_, _, rfl⟩ := step_advance h
    rfl
  | finish t =>
    obtain ⟨k, c', machine, hf, rfl⟩ := step_finish h
    obtain ⟨r, ht, -⟩ := Machine.finish_iff.mp hf
    obtain ⟨hk, c, ev, hc, hstep⟩ := hs.finish ht
    obtain ⟨hpos, i, hstarted, hpending⟩ := connectionStep_started hstep
    have hlt : k < s.connections.length := (List.getElem?_eq_some_iff.mp hc).1
    have hne : k ≠ s.newConnection := Nat.ne_of_lt hk
    have hholders : s.holders k = c.pending.length := by
      rw [holders_of hc, if_neg hne]
      rfl
    have hops : s.pointers { s with machine, connections := s.connections.set k c' } (.finish t) =
        PointerOp.handOver k i := by
      have hi : c'.started - c.started = i := by omega
      rw [← hi, ← started_of hc, ← started_of (s := { s with
        machine, connections := s.connections.set k c' }) (List.getElem?_set_self hlt)]
      simp only [Server.pointers, ht]
    rw [hops, PointerOp.applyAll_handOver (by omega), holders_set s machine hlt, hholders,
      if_neg hne, ← hpending]
    rfl

/-! ## Destruction -/

/-- Nothing is left to do for a connection: an error, or its reply has been written. -/
def Connection.Over (c : Connection) : Prop := ∃ a ∈ c.log, a.ends = true

/-- The log has an end when the last phase is reached, and not before. -/
theorem protocol_over {log : List Action} {p : Phase} (h : Run Protocol .idle log p) :
    (∃ a ∈ log, a.ends = true) ↔ 6 ≤ p.rank := by
  refine run_history (H := fun as p => (∃ a ∈ as, Action.ends a = true) ↔ 6 ≤ p.rank) (p := [])
    ?_ h (by simp [Phase.rank])
  intro as p a p' hp hs
  simp only [List.mem_append, List.mem_singleton, or_and_right, exists_or, exists_eq_left, hp]
  cases hs <;> simp [Phase.rank, Action.ends]

theorem Lived.over_iff {n k : Nat} {c : Connection} (h : Lived M n k c) :
    c.Over ↔ c.pending.length = 0 := by
  obtain ⟨evs, hrun⟩ := h
  obtain ⟨p, hp, ht⟩ := log_follows_protocol hrun
  unfold Connection.Over
  rw [protocol_over hp]
  cases ht with
  | reading hpend => simp [hpend, Phase.rank]
  | writing hpend => simp [hpend, Phase.rank]
  | closed hpend => simp [hpend, Phase.rank]

/-- What the pointers to connections promise. -/
structure Managed (s : Server M) (useCount : Nat → Nat) : Prop where
  /-- One pointer for each operation that is outstanding, and `new_connection_`. -/
  counted : ∀ k c, s.connections[k]? = some c →
    useCount k = c.pending.length + if k = s.newConnection then 1 else 0
  /-- A connection never has two. -/
  unique : ∀ k, useCount k ≤ 1
  /-- What an event uses is there. -/
  alive : ∀ ev s', ServerStep s ev s' → ∀ k ∈ s.uses ev, useCount k = 1
  /-- A connection is destroyed when its conversation is over, and not before. -/
  destroyed : ∀ k c, s.connections[k]? = some c → (useCount k = 0 ↔ c.Over)
  /-- What `to_buffers` asks for: until a write has completed the reply is there, and no event
      changes it. -/
  reply_kept : ∀ k c, s.connections[k]? = some c → .write ∈ c.pending →
    useCount k = 1 ∧ ∀ ev s', ServerStep s ev s' →
      ∃ c', s'.connections[k]? = some c' ∧ c'.reply = c.reply

/-- What an event does to a connection that has been started. -/
theorem CountInvariant.step_connection {n : Nat} {s s' : Server M} {ev : ServerEvent}
    (hs : CountInvariant n s) (h : ServerStep s ev s') {k : Nat} {c : Connection}
    (hc : s.connections[k]? = some c) (hk : k < s.newConnection) :
    k < s'.newConnection ∧
      ∃ c', s'.connections[k]? = some c' ∧ (c' = c ∨ ∃ ev', ConnectionStep M c ev' c') := by
  have hnewest := hs.sound.1.newest
  cases ev with
  | accept error =>
    obtain ⟨_, accepts, _, rfl⟩ := hs.sound.1.step_accept h
    cases error with
    | true => exact ⟨hk, c, hc, .inl rfl⟩
    | false =>
      refine ⟨?_, c, sameOn_accepted n c.ioService accepts (by omega) k c hk hc rfl, .inl rfl⟩
      change k < s.connections.length
      omega
  | complete l ev =>
    obtain ⟨_, _, _, _, _, _, rfl⟩ := step_complete h
    exact ⟨hk, c, hc, .inl rfl⟩
  | advance t =>
    obtain ⟨_, _, rfl⟩ := step_advance h
    exact ⟨hk, c, hc, .inl rfl⟩
  | finish t =>
    obtain ⟨l, d', machine, hf, rfl⟩ := step_finish h
    obtain ⟨r, ht, -⟩ := Machine.finish_iff.mp hf
    obtain ⟨_, d, ev, hd, hstep⟩ := hs.finish ht
    refine ⟨hk, ?_⟩
    by_cases e : l = k
    · subst e
      cases hd.symm.trans hc
      exact ⟨d', List.getElem?_set_self (List.getElem?_eq_some_iff.mp hd).1, .inr ⟨ev, hstep⟩⟩
    · exact ⟨c, (List.getElem?_set_ne e).trans hc, .inl rfl⟩

/-- While its write is outstanding a connection does not touch its reply. -/
theorem connectionStep_reply {c c' : Connection} {ev : Completion} (hpend : c.pending = [.write])
    (h : ConnectionStep M c ev c') : c'.reply = c.reply := by
  obtain ⟨code, hd, hret⟩ := h
  rcases ev with result | error
  · simp [Connection.deliver, hpend] at hd
  · simp only [Connection.deliver, hpend, List.mem_singleton, if_true, Option.some.injEq] at hd
    subst hd
    cases hret
    cases error <;> rfl

theorem Lived.pending_write {n k : Nat} {c : Connection} (h : Lived M n k c)
    (hwrite : .write ∈ c.pending) : c.pending = [.write] := by
  obtain ⟨evs, hrun⟩ := h
  obtain ⟨p, _, ht⟩ := log_follows_protocol hrun
  cases ht with
  | reading hpend => simp [hpend] at hwrite
  | writing hpend => exact hpend
  | closed hpend => simp [hpend] at hwrite

/-- What an event uses is held. -/
theorem CountInvariant.uses_held {n : Nat} {s s' : Server M} {ev : ServerEvent}
    (hs : CountInvariant n s) (h : ServerStep s ev s') {k : Nat} (hk : k ∈ s.uses ev) :
    0 < s.holders k := by
  have hnew := hs.sound.1.holders_new
  have haccepts : ∀ l ∈ s.accepts, 0 < s.holders l := by
    intro l hl
    rcases hs.accepts with hacc | hacc
    · rw [hacc] at hl
      cases hl
    · rw [hacc] at hl
      rw [List.mem_singleton.mp hl, hnew]
      exact Nat.one_pos
  have hheld : ∀ l c, s.connections[l]? = some c → 0 < c.pending.length → 0 < s.holders l := by
    intro l c hc hpos
    rw [holders_of hc]
    exact Nat.add_pos_left hpos _
  have hrunning : ∀ t, ∀ l ∈ (s.machine.running t).toList.map Task.job, 0 < s.holders l := by
    intro t l hl
    obtain ⟨task, ht, rfl⟩ := List.mem_map.mp hl
    obtain ⟨c, ev, hc, hstep⟩ := hs.handling t task (Option.mem_toList.mp ht) _
      (Prog.returns_run task.code (s.machine.store task.resource))
    exact hheld _ c hc (connectionStep_started hstep).1
  cases ev with
  | accept error =>
    cases error with
    | true => exact haccepts k hk
    | false =>
      rcases List.mem_cons.mp hk with rfl | hk
      · exact hnew ▸ Nat.one_pos
      · exact haccepts k hk
  | complete l ev =>
    obtain ⟨c, code, machine, hc, hd, _, rfl⟩ := step_complete h
    have hstep : ConnectionStep M c ev _ :=
      ⟨code, hd, Prog.returns_run code (s.machine.store c.map)⟩
    rw [List.mem_singleton.mp hk]
    exact hheld l c hc (connectionStep_started hstep).1
  | advance t => exact hrunning t k hk
  | finish t => exact hrunning t k hk

theorem CountInvariant.managed {n : Nat} {s : Server M} (hs : CountInvariant n s) :
    Managed s s.holders := by
  have hnew := hs.sound.1.holders_new
  have hnewest := hs.sound.1.newest
  have hunique : ∀ k, s.holders k ≤ 1 := by
    intro k
    rcases Nat.lt_trichotomy k s.newConnection with hk | rfl | hk
    · have hlt : k < s.connections.length := by omega
      have hc := List.getElem?_eq_getElem hlt
      obtain ⟨evs, hrun⟩ := hs.sound.1.lived k _ hk hc
      rw [holders_of hc, if_neg (Nat.ne_of_lt hk)]
      exact (connection_orderly hrun).outstanding.1
    · exact Nat.le_of_eq hnew
    · unfold Server.holders
      rw [List.getElem?_eq_none (by omega), if_neg (Nat.ne_of_gt hk)]
      exact Nat.zero_le 1
  refine ⟨fun k c hc => holders_of hc, hunique, fun ev s' h k hk => ?_, fun k c hc => ?_,
    fun k c hc hwrite => ?_⟩
  · have hpos := hs.uses_held h hk
    have hle := hunique k
    omega
  · rcases Nat.lt_or_ge k s.newConnection with hk | hk
    · rw [holders_of hc, if_neg (Nat.ne_of_lt hk)]
      exact (hs.sound.1.lived k c hk hc).over_iff.symm
    · have hlt := (List.getElem?_eq_some_iff.mp hc).1
      obtain rfl : k = s.newConnection := by omega
      rw [hnew]
      cases hs.sound.1.waiting.symm.trans hc
      constructor
      · intro h
        cases h
      · rintro ⟨a, ha, -⟩
        cases ha
  · have hlt := (List.getElem?_eq_some_iff.mp hc).1
    have hk : k < s.newConnection := by
      by_contra hge
      obtain rfl : k = s.newConnection := by omega
      cases hs.sound.1.waiting.symm.trans hc
      cases hwrite
    have hpend := (hs.sound.1.lived k c hk hc).pending_write hwrite
    refine ⟨?_, fun ev s' h => ?_⟩
    · rw [holders_of hc, if_neg (Nat.ne_of_lt hk), hpend]
      rfl
    · obtain ⟨_, c', hc', rfl | ⟨ev', hstep⟩⟩ := hs.step_connection h hc hk
      · exact ⟨_, hc', rfl⟩
      · exact ⟨c', hc', connectionStep_reply hpend hstep⟩

/-- A connection that has been destroyed is left alone. -/
theorem CountInvariant.gone_step {n : Nat} {s s' : Server M} {ev : ServerEvent}
    (hs : CountInvariant n s) (h : ServerStep s ev s') {k : Nat} {c : Connection}
    (hc : s.connections[k]? = some c) (hgone : s.holders k = 0) :
    s'.connections[k]? = some c ∧ s'.holders k = 0 := by
  have hnewest := hs.sound.1.newest
  have hlt := (List.getElem?_eq_some_iff.mp hc).1
  rw [holders_of hc, Nat.add_eq_zero_iff] at hgone
  obtain ⟨hpending, hnew⟩ := hgone
  have hk : k < s.newConnection := by
    by_contra hge
    rw [if_pos (by omega)] at hnew
    cases hnew
  obtain ⟨hk', c', hc', rfl | ⟨ev', hstep⟩⟩ := hs.step_connection h hc hk
  · refine ⟨hc', ?_⟩
    rw [holders_of hc', hpending, if_neg (Nat.ne_of_lt hk')]
  · -- an event of this connection needs an operation
    exact absurd hpending (Nat.ne_of_gt (connectionStep_started hstep).1)

theorem CountInvariant.gone_run {n : Nat} {s s' : Server M} {evs : List ServerEvent}
    (hs : CountInvariant n s) (h : Run ServerStep s evs s') {k : Nat} {c : Connection}
    (hc : s.connections[k]? = some c) (hgone : s.holders k = 0) :
    s'.connections[k]? = some c ∧ s'.holders k = 0 :=
  (run_invariant
    (I := fun s => CountInvariant n s ∧ s.connections[k]? = some c ∧ s.holders k = 0)
    (fun _ _ _ hI h => ⟨hI.1.step h, hI.1.gone_step h hI.2.1 hI.2.2⟩) h ⟨hs, hc, hgone⟩).2

/-- Every run is one of the server with use counts: no operation on a pointer fails. -/
theorem CountInvariant.run {n : Nat} {s s' : Server M} {evs : List ServerEvent}
    (hs : CountInvariant n s) (h : Run ServerStep s evs s') :
    Run CountedStep (s, s.holders) evs (s', s'.holders) ∧ CountInvariant n s' := by
  induction evs generalizing s with
  | nil =>
    cases h
    exact ⟨rfl, hs⟩
  | cons ev evs ih =>
    obtain ⟨t, ht, hrest⟩ := h
    obtain ⟨hrun, hs'⟩ := ih (hs.step ht) hrest
    exact ⟨⟨(t, t.holders), ⟨ht, hs.counted ht⟩, hrun⟩, hs'⟩

/-- The use counts when the constructor has returned. -/
def initialCounts : Nat → Nat := Function.update (fun _ => 0) 0 1

theorem holders_create {n : Nat} {stylesheet : M.Map} {s : Server M}
    (h : Server.create M n stylesheet = .ok s) : s.holders = initialCounts := by
  have hpos := (sound_create h).1.pos
  rw [create_eq M hpos] at h
  cases h
  funext k
  rcases k with _ | k
  · rfl
  · rfl

/-- **No connection is used after it has been destroyed, and none is kept after that is over**:
    every run goes through with the use counts; after it each connection is held once for its
    outstanding operation, or by `new_connection_`; what an event uses is there; a connection
    is gone exactly when its conversation is over, and no later event changes it; and a reply
    that is being written is not touched. -/
theorem connections_managed (M : Mapnik) (n : Nat) (stylesheet : M.Map) (s₀ s : Server M)
    (evs : List ServerEvent) (hcreate : Server.create M n stylesheet = .ok s₀)
    (hrun : Run ServerStep s₀ evs s) :
    ∃ u, Run CountedStep (s₀, initialCounts) evs (s, u) ∧ Managed s u ∧
      ∀ evs' s', Run ServerStep s evs' s' → ∃ u', Run CountedStep (s, u) evs' (s', u') ∧
        ∀ k c, s.connections[k]? = some c → u k = 0 →
          s'.connections[k]? = some c ∧ u' k = 0 := by
  have hstart := countInvariant_create hcreate
  obtain ⟨hcounted, hs⟩ := hstart.run hrun
  rw [holders_create hcreate] at hcounted
  refine ⟨s.holders, hcounted, hs.managed, fun evs' s' hrun' => ?_⟩
  exact ⟨s'.holders, (hs.run hrun').1, fun k c hc hgone => hs.gone_run hrun' hc hgone⟩

/-- The first client's reply is being written, and then has been. -/
theorem connections_managed_sample :
    ∃ (s s' : Server .sample) (u u' : Nat → Nat) (c : Connection),
      Run CountedStep (Server.initial .sample 2 sampleMap, initialCounts) firstServed (s, u) ∧
      Managed s u ∧ s.connections[0]? = some c ∧ c.pending = [.write] ∧ u 0 = 1 ∧
      Run CountedStep (Server.initial .sample 2 sampleMap, initialCounts)
        (firstServed ++ [.complete 0 (.write false), .finish 1]) (s', u') ∧
      Managed s' u' ∧ u' 0 = 0 := by
  have hcreate := create_eq .sample (n := 2) (by decide) sampleMap
  obtain ⟨s, hrun, htest⟩ := run_of_any Server.step (Server.initial .sample 2 sampleMap)
    firstServed (fun s => s.newConnection == 1 && s.connections[0]?.any (·.pending = [.write]))
    (by decide +kernel)
  obtain ⟨s', hrun', htest'⟩ := run_of_any Server.step (Server.initial .sample 2 sampleMap)
    (firstServed ++ [.complete 0 (.write false), .finish 1])
    (fun s => s.newConnection == 1 && s.connections[0]?.any (·.pending = [])) (by decide +kernel)
  simp only [Bool.and_eq_true, Option.any_eq_true, beq_iff_eq, decide_eq_true_eq] at htest htest'
  obtain ⟨hnew, c, hc, hpending⟩ := htest
  obtain ⟨hnew', c', hc', hpending'⟩ := htest'
  obtain ⟨u, hcounted, hmanaged, -⟩ := connections_managed .sample 2 sampleMap _ s _ hcreate hrun
  obtain ⟨u', hcounted', hmanaged', -⟩ :=
    connections_managed .sample 2 sampleMap _ s' _ hcreate hrun'
  have hheld := hmanaged.counted 0 c hc
  have hgone := hmanaged'.counted 0 c' hc'
  rw [hpending, hnew] at hheld
  rw [hpending', hnew'] at hgone
  exact ⟨s, s', u, u', c, hcounted, hmanaged, hc, hpending, hheld, hcounted', hmanaged', hgone⟩

end PaleoServer
