/-
  Every complete request is answered.

  An execution of the server may go on for ever: clients keep connecting and sending. It is
  `Fair` when no io_service runs a handler for ever without a step of it. Then every handler
  ends, whatever else arrives, because what the other io_services do leaves the number of its
  remaining steps as it is. Proved: `fair_server_answers`.
-/
import PaleoServer.Lib.Fairness
import PaleoServer.ServerAnswers

namespace PaleoServer

open Atomic Trace

variable {M : Mapnik}

/-- A step of the handler on an io_service, or its end. -/
def ServerEvent.isMoveOf (t : Nat) (ev : ServerEvent) : Prop := ev = .advance t ∨ ev = .finish t

/-- No io_service that runs a handler is passed over for ever. -/
def Fair (e : Execution (ServerStep (M := M))) : Prop :=
  ∀ t i, (∀ j, i ≤ j → (e.state j).machine.running t ≠ none) →
    ∃ j ev, i ≤ j ∧ e.label j = some ev ∧ ev.isMoveOf t

/-- What happens elsewhere leaves a handler as many steps as it had. -/
theorem load_of_other {n : Nat} {s s' : Server M} {ev : ServerEvent} {t : Nat} (hs : Sound n s)
    (h : ServerStep s ev s') (hbusy : s.machine.running t ≠ none) (hev : ¬ ev.isMoveOf t) :
    s'.machine.load t = s.machine.load t := by
  cases ev with
  | accept error =>
    obtain ⟨k, accepts, _, rfl⟩ := hs.1.step_accept h
    cases error <;> rfl
  | complete k ev =>
    obtain ⟨c, code, machine, hc, hd, hb, rfl⟩ := step_complete h
    obtain ⟨hidle, rfl⟩ := Machine.begin_iff.mp hb
    have hne : t ≠ c.ioService := by
      rintro rfl
      exact hbusy hidle
    exact Machine.load_congr (Function.update_of_ne hne ..) fun _ _ => rfl
  | advance u =>
    obtain ⟨machine, ha, rfl⟩ := step_advance h
    have hne : t ≠ u := by
      rintro rfl
      exact hev (.inl rfl)
    exact (Machine.advance_load hs.2.owned ha).2 t hne
  | finish u =>
    obtain ⟨k, c, machine, hf, rfl⟩ := step_finish h
    have hne : t ≠ u := by
      rintro rfl
      exact hev (.inr rfl)
    exact (Machine.finish_load hf).2 t hne

/-- Its own events bring it nearer to its end. -/
theorem load_of_move {n : Nat} {s s' : Server M} {ev : ServerEvent} {t : Nat} (hs : Sound n s)
    (h : ServerStep s ev s') (hev : ev.isMoveOf t) : s'.machine.load t < s.machine.load t := by
  rcases hev with rfl | rfl
  · obtain ⟨machine, ha, rfl⟩ := step_advance h
    have := (Machine.advance_load hs.2.owned ha).1
    show machine.load t < s.machine.load t
    omega
  · obtain ⟨k, c, machine, hf, rfl⟩ := step_finish h
    have := (Machine.finish_load hf).1
    show machine.load t < s.machine.load t
    omega

/-- Every io_service becomes idle again and again. -/
theorem Fair.idle {n : Nat} {e : Execution (ServerStep (M := M))} (hfair : Fair e)
    (hs : ∀ i, Sound n (e.state i)) (t i : Nat) :
    ∃ j, i ≤ j ∧ (e.state j).machine.running t = none := by
  obtain ⟨j, hj, hidle⟩ := e.eventually_not (I := Sound n)
    (fun s => s.machine.running t ≠ none) (ServerEvent.isMoveOf t) (fun s => s.machine.load t) hs
    (fun _ _ _ hs h hbusy hev => load_of_other hs h hbusy hev)
    (fun _ _ _ hs h _ hev _ => load_of_move hs h hev) (hfair t) i
  exact ⟨j, hj, not_not.mp hidle⟩

/-- A reply stays the same when more bytes arrive. -/
theorem replyOf_mono {m : M.Map} {p : Parsing} {bs bs' : Bytes} {rep : Reply}
    (h : bs <+: bs') (hrep : replyOf m (p.parse bs) = some rep) :
    replyOf m (p.parse bs') = some rep := by
  obtain ⟨rest, rfl⟩ := h
  rcases hp : p.parse bs with ⟨_ | v, r, q⟩
  · rw [hp] at hrep
    cases hrep
  · rw [hp] at hrep
    rw [Parsing.parse_append_some hp, ← hrep]
    cases v <;> rfl

/-- What has arrived on connection `k` before a time. -/
def receivedBy (k : Nat) (e : Execution (ServerStep (M := M))) (i : Nat) : Bytes :=
  received k ((e.labels i).filterMap ServerEvent.arrival)

theorem receivedBy_mono (k : Nat) (e : Execution (ServerStep (M := M))) {i j : Nat} (h : i ≤ j) :
    receivedBy k e i <+: receivedBy k e j := by
  obtain ⟨evs, hevs⟩ := e.labels_mono h
  unfold receivedBy received
  rw [← hevs, List.filterMap_append, List.flatMap_append]
  exact List.prefix_append ..

/-- **Every complete request is answered**: in a fair execution, however many clients there are
    and whatever they send, once the bytes that have arrived on a connection stand for a
    reply, that reply is assigned and written on it. -/
theorem fair_server_answers (M : Mapnik) (n : Nat) (stylesheet : M.Map)
    (e : Execution (ServerStep (M := M))) (hcreate : Server.create M n stylesheet = .ok (e.state 0))
    (hfair : Fair e) (k i : Nat) (rep : Reply)
    (hrep : replyOf stylesheet (Parsing.fresh.parse (receivedBy k e i)) = some rep) :
    ∃ j c, i ≤ j ∧ (e.state j).connections[k]? = some c ∧ c.reply = some rep ∧
      .asyncWrite rep ∈ c.log := by
  have hsound : ∀ i, Sound n (e.state i) := fun i =>
    run_invariant (fun _ _ _ hs h => hs.step h) (e.run i) (sound_create hcreate)
  obtain ⟨j, hj, hidle⟩ := hfair.idle hsound ((k + 1) % n) i
  have hi := serialInvariant_settle hcreate (e.run j)
  have hrep' : replyOf stylesheet (Parsing.fresh.parse (receivedBy k e j)) = some rep :=
    replyOf_mono (receivedBy_mono k e hj) hrep
  -- a connection that has received bytes exists
  have hk : k < (e.state j).connections.length := by
    by_contra hlt
    have hnewest := (hsound j).1.newest
    have hsilent : receivedBy k e j = [] :=
      hi.silent k (show (e.state j).newConnection ≤ k by omega)
    rw [hsilent] at hrep'
    cases hrep'
  obtain ⟨c, hc⟩ : ∃ c, (e.state j).connections[k]? = some c := ⟨_, List.getElem?_eq_getElem hk⟩
  rw [← ((hsound j).1.binding hc).1] at hidle
  obtain ⟨hreply, hwritten⟩ := hi.answered (hsound j) hc hidle
  have hsome : c.reply = some rep := hreply.trans hrep'
  exact ⟨j, c, hj, hc, hsome, (hwritten rep).mpr hsome⟩

/-- One client, and nothing after its request has been handled. -/
theorem fair_server_answers_sample :
    ∃ (e : Execution (ServerStep (M := .sample))) (j : Nat) (c : Connection),
      (e.state j).connections[0]? = some c ∧ .asyncWrite sampleReply ∈ c.log := by
  obtain ⟨evs, s, hrun, hquiet, hevs, _⟩ :=
    first_read_run .sample (n := 2) (by decide) sampleMap sampleText
  obtain ⟨e, hstart, hlabels, hrest⟩ := execution_of_run hrun
  have hfair : Fair e := by
    intro t i hbusy
    have hlate := hbusy (i + evs.length) (by omega)
    rw [(hrest (i + evs.length) (by omega)).1, hquiet] at hlate
    exact absurd rfl hlate
  have hcreate : Server.create .sample 2 sampleMap = .ok (e.state 0) := by
    rw [hstart]
    exact create_eq .sample (by decide) sampleMap
  have hreceived : receivedBy 0 e evs.length = sampleText := by
    unfold receivedBy
    rw [hlabels, hevs]
    rfl
  have hrep : replyOf sampleMap (Parsing.fresh.parse (receivedBy 0 e evs.length)) =
      some sampleReply := by
    rw [hreceived]
    decide +kernel
  obtain ⟨j, c, _, hc, _, hwritten⟩ :=
    fair_server_answers .sample 2 sampleMap e hcreate hfair 0 evs.length sampleReply hrep
  exact ⟨e, j, c, hc, hwritten⟩

end PaleoServer
