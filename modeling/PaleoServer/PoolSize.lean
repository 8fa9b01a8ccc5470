/-
  The size of the pool cannot be seen from outside.

  What a server of `n` io_services does, a server of `n'` can do as well: for any run of the
  first there is one of the second with the same arrivals in the same order, after which every
  connection has done the same and has the same reply, bound to another io_service and another
  map (`pool_size_unobservable`). With `n' = 1` this says that the threads add nothing but
  speed.

  The simulation is on the serial servers, arrival by arrival. The two servers serve a
  connection with maps that different requests have used; what it does is the same, because
  they were loaded from one stylesheet.
-/
import PaleoServer.ServerAnswers

namespace PaleoServer

open Atomic Trace

variable {M : Mapnik}

/-! ## Bindings -/

/-- The connection on another io_service and another map. -/
def Connection.rebind (ioService map : Nat) (c : Connection) : Connection :=
  { c with ioService, map }

theorem parse_rebind (ioService map : Nat) (c : Connection) (input : Bytes) :
    (c.rebind ioService map).parse input =
      ((c.parse input).1, (c.parse input).2.rebind ioService map) := rfl

theorem handleRead_rebind (ioService map : Nat) (c : Connection) (result : Option Bytes) :
    (c.rebind ioService map).handleRead M result =
      c.handleRead M result >>= fun d => pure (d.rebind ioService map) := by
  rcases result with _ | input
  · rfl
  · rcases hp : c.parse input with ⟨_ | _ | _, d⟩
    · simp only [Connection.handleRead, parse_rebind, hp]
      rfl
    · simp only [Connection.handleRead, parse_rebind, hp]
      rfl
    · simp only [Connection.handleRead, parse_rebind, hp, Prog.bind_assoc]
      rfl

/-- A handler does not look at what its connection is bound to. -/
theorem deliver_rebind (ioService map : Nat) (c : Connection) (ev : Completion) :
    (c.rebind ioService map).deliver M ev =
      (c.deliver M ev).map fun code => code >>= fun d => pure (d.rebind ioService map) := by
  have hpending : (c.rebind ioService map).pending = c.pending := rfl
  cases ev with
  | read result =>
    simp only [Connection.deliver, hpending]
    split
    · rw [Option.map_some, ← handleRead_rebind]
      rfl
    · rfl
  | write error =>
    simp only [Connection.deliver, hpending]
    cases error <;> split <;> rfl

/-! ## The simulation -/

/-- The same server on `n'` io_services. -/
structure Rescaled (n' : Nat) (s s' : Server M) : Prop where
  accepts : s'.accepts = s.accepts
  newConnection : s'.newConnection = s.newConnection
  connections : ∀ k, s'.connections[k]? =
    s.connections[k]?.map (Connection.rebind ((k + 1) % n') (k % n'))

theorem Rescaled.length {n' : Nat} {s s' : Server M} (h : Rescaled n' s s') :
    s'.connections.length = s.connections.length := by
  have hnone : ∀ k, s'.connections.length ≤ k ↔ s.connections.length ≤ k := by
    intro k
    rw [← List.getElem?_eq_none_iff, ← List.getElem?_eq_none_iff, h.connections,
      Option.map_eq_none_iff]
  have h₁ := (hnone s'.connections.length).mp (Nat.le_refl _)
  have h₂ := (hnone s.connections.length).mpr (Nat.le_refl _)
  omega

theorem rescaled_create {n : Nat} (n' : Nat) {stylesheet : M.Map} {s : Server M}
    (h : Server.create M n stylesheet = .ok s) :
    Rescaled n' s (Server.initial M n' stylesheet) := by
  rcases Nat.eq_zero_or_pos n with rfl | hn
  · rw [create_zero] at h
    cases h
  · rw [create_eq M hn] at h
    cases h
    refine ⟨rfl, rfl, fun k => ?_⟩
    rcases k with _ | k <;> rfl

/-- An accept makes the same of both. -/
theorem Rescaled.accepted {n n' : Nat} {s s' : Server M} (h : Rescaled n' s s')
    (accepts : List Nat) :
    Rescaled n' (Server.accepted n { s with accepts }) (Server.accepted n' { s' with accepts }) := by
  have hlen := h.length
  refine ⟨?_, hlen, fun k => ?_⟩
  · show accepts ++ [s'.connections.length] = accepts ++ [s.connections.length]
    rw [hlen]
  · show (s'.connections.modify s'.newConnection Connection.start ++
        [.create ((s'.connections.length + 1) % n') (s'.connections.length % n')])[k]? =
      (s.connections.modify s.newConnection Connection.start ++
        [.create ((s.connections.length + 1) % n) (s.connections.length % n)])[k]?.map _
    rw [List.getElem?_append, List.getElem?_append, List.length_modify, List.length_modify, hlen]
    rcases Nat.lt_trichotomy k s.connections.length with hlt | rfl | hgt
    · rw [if_pos hlt, if_pos hlt, List.getElem?_modify, List.getElem?_modify, h.connections,
        h.newConnection]
      rcases s.connections[k]? with _ | c
      · rfl
      · by_cases e : s.newConnection = k
        · simp only [Option.map_some, if_pos e]
          rfl
        · simp only [Option.map_some, if_neg e]
          rfl
    · simp only [Nat.lt_irrefl, if_false, Nat.sub_self]
      rfl
    · have hpos : k - s.connections.length = (k - s.connections.length - 1) + 1 := by omega
      rw [if_neg (by omega), if_neg (by omega), hpos]
      rfl

/-- Every arrival can be served by both, with the same effect. -/
theorem Rescaled.step {n n' : Nat} {stylesheet : M.Map} {as : List Arrival} {s s' t : Server M}
    {a : Arrival} (h : Rescaled n' s s') (hs : SerialInvariant n stylesheet as s)
    (hs' : SerialInvariant n' stylesheet as s') (ha : SerialStep s a t) :
    ∃ t', SerialStep s' a t' ∧ Rescaled n' t t' := by
  cases a with
  | accept error =>
    obtain ⟨k, accepts, hacc, _, rfl⟩ := (hs.sound.1.step_accept_iff error).mp ha
    have hstep := (hs'.sound.1.step_accept_iff error).mpr
      ⟨k, accepts, h.accepts.trans hacc, congrFun hs'.quiet _, rfl⟩
    refine ⟨_, hstep, ?_⟩
    cases error with
    | true => exact ⟨rfl, h.newConnection, h.connections⟩
    | false => exact h.accepted accepts
  | complete k ev =>
    obtain ⟨c, code, hc, hd, rfl⟩ := serialStep_complete.mp ha
    have hc' : s'.connections[k]? = some (c.rebind ((k + 1) % n') (k % n')) := by
      rw [h.connections, hc]
      rfl
    have hd' := deliver_rebind (M := M) ((k + 1) % n') (k % n') c ev
    rw [hd, Option.map_some] at hd'
    refine ⟨_, serialStep_complete.mpr ⟨_, _, hc', hd', rfl⟩, h.accepts, h.newConnection, ?_⟩
    have hsame := (hs.sameStylesheet c.map).symm.trans (hs'.sameStylesheet (k % n'))
    intro l
    show (s'.connections.set k _)[l]? = (s.connections.set k _)[l]?.map _
    rw [List.getElem?_set, List.getElem?_set, h.length]
    by_cases e : k = l
    · subst e
      rw [if_pos rfl, if_pos rfl]
      split
      · rw [Option.map_some, Prog.run_bind]
        show some (Connection.rebind _ _ (code.run (s'.machine.store (k % n'))).1) = _
        rw [run_deliver_same hsame hd]
      · rfl
    · rw [if_neg e, if_neg e]
      exact h.connections l

/-- **The size of the pool cannot be seen**: whatever has happened to a server of `n` io_services,
    the same clients can have come to one of `n'`, in the same order, with the same bytes; and
    when the handlers have ended every connection has done the same in both. -/
theorem pool_size_unobservable (M : Mapnik) (n n' : Nat) (hn' : 0 < n') (stylesheet : M.Map)
    (s₀ s : Server M) (evs : List ServerEvent) (hcreate : Server.create M n stylesheet = .ok s₀)
    (hrun : Run ServerStep s₀ evs s) :
    ∃ s₀' s' evs', Server.create M n' stylesheet = .ok s₀' ∧ Run ServerStep s₀' evs' s' ∧
      evs'.filterMap ServerEvent.arrival = evs.filterMap ServerEvent.arrival ∧ s'.Quiet ∧
      ∀ k, s'.connections[k]? =
        (s.settle n).connections[k]?.map (Connection.rebind ((k + 1) % n') (k % n')) := by
  have hcreate' := create_eq M hn' stylesheet
  have hserial := settle_run (sound_create hcreate) hrun
  rw [settle_quiet (quiet_create hcreate)] at hserial
  obtain ⟨-, s', hserial', hi', hrescaled⟩ := run_history (p := [])
    (H := fun as s => SerialInvariant n stylesheet as s ∧
      ∃ s', Run SerialStep (Server.initial M n' stylesheet) as s' ∧
        SerialInvariant n' stylesheet as s' ∧ Rescaled n' s s')
    (by
      rintro as t a u ⟨ht, t', hrun', ht', hrel⟩ hstep
      obtain ⟨u', hstep', hrel'⟩ := hrel.step ht ht' hstep
      exact ⟨ht.step hstep, u', run_snoc.mpr ⟨t', hrun', hstep'⟩, ht'.step hstep', hrel'⟩)
    hserial
    ⟨serialInvariant_create hcreate, _, rfl, serialInvariant_create hcreate',
      rescaled_create n' hcreate⟩
  obtain ⟨evs', hevs', hrun'⟩ := run_arrivals (sound_create hcreate') (quiet_create hcreate') hserial'
  exact ⟨_, s', evs', hcreate', hrun', hevs', hi'.quiet, hrescaled.connections⟩

/-- A request answered by a server of two io_services, and by a server of one. -/
theorem pool_size_unobservable_sample :
    ∃ evs evs' s s' c c', Run ServerStep (Server.initial .sample 2 sampleMap) evs s ∧
      Run ServerStep (Server.initial .sample 1 sampleMap) evs' s' ∧
      s.connections[0]? = some c ∧ s'.connections[0]? = some c' ∧ c' = c.rebind 0 0 ∧
      .asyncWrite sampleReply ∈ c'.log := by
  obtain ⟨evs, s, hrun, hquiet, _, hc⟩ :=
    first_read_run .sample (n := 2) (by decide) sampleMap sampleText
  obtain ⟨c, hceq⟩ : ∃ c, c = afterRead sampleMap (1 % 2) 0 sampleText := ⟨_, rfl⟩
  have hlog : .asyncWrite sampleReply ∈ c.log := by
    rw [hceq]
    decide +kernel
  rw [← hceq] at hc
  obtain ⟨s₀', s', evs', hcreate', hrun', _, _, hconnections⟩ :=
    pool_size_unobservable .sample 2 1 (by decide) sampleMap _ s evs
      (create_eq .sample (by decide) sampleMap) hrun
  rw [create_eq .sample (by decide)] at hcreate'
  cases hcreate'
  have hc' := hconnections 0
  rw [settle_quiet hquiet, hc] at hc'
  exact ⟨evs, evs', s, s', c, _, hrun, hrun', hc, hc', rfl, hlog⟩

end PaleoServer
