/-
  No connection gets stuck. From every state the server comes to, a connection that still reads
  can be answered: some bytes complete its request (`Parsing.live`), and whatever bytes decide
  its parser, in reads of the sizes that `buffer_` allows, no other client has to do anything
  for the reply to be written.

  That there is a run to the reply rests on `Mapnik`: no operation of mapnik throws. A version
  number beyond `int`, where the source has no defined meaning, wraps as in `consume`; no reply
  depends on it.
-/
import PaleoServer.ParserProgress
import PaleoServer.ServerAnswers

namespace PaleoServer

open Atomic Trace

variable {M : Mapnik}

/-- A connection that still reads has not received a decided request. -/
theorem Served.undecided {stylesheet : M.Map} {sent : Bytes} {c : Connection}
    (h : Served stylesheet sent c) (hread : .readSome ∈ c.pending) :
    ∃ r, Parsing.fresh.parse sent = (none, r, c.parsing) := by
  cases h with
  | reading r hpend hrep hquiet hparse => exact ⟨r, hparse⟩
  | ended hpend hrep hlog => exact absurd hread hpend

/-- Only a connection that has been started reads. -/
theorem Invariant.started_of_reading {n : Nat} {s : Server M} (hs : Invariant n s) {k : Nat}
    {c : Connection} (hc : s.connections[k]? = some c) (hread : .readSome ∈ c.pending) :
    k < s.newConnection := by
  obtain ⟨code, hd⟩ : ∃ code, c.deliver M (.read none) = some code := ⟨_, if_pos hread⟩
  exact hs.started hc hd

theorem SerialInvariant.undecided {n : Nat} {stylesheet : M.Map} {as : List Arrival}
    {s : Server M} (hi : SerialInvariant n stylesheet as s) {k : Nat} {c : Connection}
    (hc : s.connections[k]? = some c) (hread : .readSome ∈ c.pending) :
    ∃ r, Parsing.fresh.parse (received k as) = (none, r, c.parsing) :=
  (hi.served k c (hi.sound.1.started_of_reading hc hread) hc).undecided hread

/-- The reply does not depend on what comes after the bytes that decide. -/
theorem replyOf_append {stylesheet : M.Map} {bs : Bytes}
    (h : (Parsing.fresh.parse bs).1 ≠ none) (cs : Bytes) :
    replyOf stylesheet (Parsing.fresh.parse (bs ++ cs)) =
      replyOf stylesheet (Parsing.fresh.parse bs) := by
  rcases hp : Parsing.fresh.parse bs with ⟨_ | v, r, p⟩
  · rw [hp] at h
    exact absurd rfl h
  · rw [Parsing.parse_append_some hp cs]
    cases v <;> rfl

/-- A decided parser has a reply. -/
theorem replyOf_decided (stylesheet : M.Map) {bs : Bytes}
    (h : (Parsing.fresh.parse bs).1 ≠ none) :
    ∃ rep, replyOf stylesheet (Parsing.fresh.parse bs) = some rep := by
  rcases hp : Parsing.fresh.parse bs with ⟨_ | _ | _, r, p⟩
  · rw [hp] at h
    exact absurd rfl h
  · exact ⟨_, rfl⟩
  · exact ⟨_, rfl⟩

/-- The reading handler of a connection whose parser stays undecided reads on. -/
theorem run_handleRead_undecided {c : Connection} {input r : Bytes} {q : Parsing}
    (h : c.parsing.parse input = (none, r, q)) (m : M.Map) :
    .readSome ∈ ((c.handleRead M (some input)).run m).1.pending := by
  obtain ⟨d, hd, _⟩ := connection_parse_eq h
  rw [run_handleRead, hd]
  exact List.mem_append_right _ List.mem_cons_self

/-- One read on a connection that still reads. It reads on as long as its parser has not
    decided. -/
theorem SerialInvariant.read {n : Nat} {stylesheet : M.Map} {as : List Arrival} {s : Server M}
    (hi : SerialInvariant n stylesheet as s) {k : Nat} {c : Connection}
    (hc : s.connections[k]? = some c) (hread : .readSome ∈ c.pending) (input : Bytes) :
    ∃ s' c', SerialStep s (.complete k (.read (some input))) s' ∧
      s'.connections[k]? = some c' ∧ Served stylesheet (received k as ++ input) c' ∧
      ((Parsing.fresh.parse (received k as ++ input)).1 = none → .readSome ∈ c'.pending) ∧
      ∀ l, l ≠ k → s'.connections[l]? = s.connections[l]? := by
  obtain ⟨code, hd⟩ : ∃ code, c.deliver M (.read (some input)) = some code := ⟨_, if_pos hread⟩
  have hlt : k < s.connections.length := (List.getElem?_eq_some_iff.mp hc).1
  refine ⟨_, _, serialStep_complete.mpr ⟨c, code, hc, hd, rfl⟩, List.getElem?_set_self hlt, ?_,
    fun hnone => ?_, fun l hl => List.getElem?_set_ne (Ne.symm hl)⟩
  · have hserved := hi.served k c (hi.sound.1.started hc hd) hc
    have h := (hserved.deliver (hi.sameStylesheet c.map) hd).1
    rwa [received_snoc, bytesFor_read] at h
  · obtain ⟨r, hparse⟩ := hi.undecided hc hread
    rw [Parsing.parse_append_none hparse] at hnone
    rcases hp : c.parsing.parse input with ⟨v, rest, q⟩
    rw [hp] at hnone
    cases hnone
    simp only [Connection.deliver, hread, if_true, Option.some.injEq] at hd
    subst hd
    exact run_handleRead_undecided (c := c.complete .readSome (.readCompleted false)) hp _

/-- **Reads that decide the parser of a connection get it its reply**, as many of them as it
    takes. -/
theorem SerialInvariant.answer {n : Nat} {stylesheet : M.Map} {as : List Arrival} {s : Server M}
    (hi : SerialInvariant n stylesheet as s) {k : Nat} {c : Connection}
    (hc : s.connections[k]? = some c) (hread : .readSome ∈ c.pending) {reads : List Bytes}
    (hdecided : (Parsing.fresh.parse (received k as ++ reads.flatten)).1 ≠ none) :
    ∃ used s' c' rep, used <+: reads ∧
      Run SerialStep s (used.map fun input => .complete k (.read (some input))) s' ∧
      s'.connections[k]? = some c' ∧ .asyncWrite rep ∈ c'.log ∧
      replyOf stylesheet (Parsing.fresh.parse (received k as ++ reads.flatten)) = some rep ∧
      ∀ l, l ≠ k → s'.connections[l]? = s.connections[l]? := by
  induction reads generalizing as s c with
  | nil =>
    obtain ⟨r, hparse⟩ := hi.undecided hc hread
    rw [List.flatten_nil, List.append_nil, hparse] at hdecided
    exact absurd rfl hdecided
  | cons input reads ih =>
    obtain ⟨s₁, c₁, hstep, hc₁, hserved, hmore, hother⟩ := hi.read hc hread input
    have hi₁ := hi.step hstep
    have hreceived : received k (as ++ [.complete k (.read (some input))]) =
        received k as ++ input := by rw [received_snoc, bytesFor_read]
    rw [List.flatten_cons, ← List.append_assoc] at hdecided ⊢
    by_cases hnone : (Parsing.fresh.parse (received k as ++ input)).1 = none
    · rw [← hreceived] at hdecided ⊢
      obtain ⟨used, s', c', rep, hused, hrun, hc', hwritten, hrep, hother'⟩ :=
        ih hi₁ hc₁ (hmore hnone) hdecided
      exact ⟨input :: used, s', c', rep, List.cons_prefix_cons.mpr ⟨rfl, hused⟩,
        ⟨s₁, hstep, hrun⟩, hc', hwritten, hrep, fun l hl => (hother' l hl).trans (hother l hl)⟩
    · -- this read decides
      obtain ⟨hreply, hwritten⟩ := hserved.reply
      obtain ⟨rep, hrep⟩ := replyOf_decided stylesheet hnone
      refine ⟨[input], s₁, c₁, rep, List.cons_prefix_cons.mpr ⟨rfl, List.nil_prefix⟩,
        run_single.mpr hstep, hc₁, (hwritten rep).mpr (hreply.trans hrep), ?_, hother⟩
      rw [replyOf_append hnone, hrep]

/-- **No connection gets stuck**: in every state the server comes to, the bytes that have arrived
    on a connection that still reads begin a complete request; and any bytes that decide its
    parser, cut into reads that fit the buffer, can arrive as soon as the running handlers have
    ended, and get the reply written, with no other arrival and no other connection
    changed. Reads after the one that decides are not made. -/
theorem never_stuck (M : Mapnik) (n : Nat) (stylesheet : M.Map) (s₀ s : Server M)
    (evs : List ServerEvent) (hcreate : Server.create M n stylesheet = .ok s₀)
    (hrun : Run ServerStep s₀ evs s) (k : Nat) (c : Connection)
    (hc : (s.settle n).connections[k]? = some c) (hread : .readSome ∈ c.pending) :
    BeginsComplete (received k (evs.filterMap ServerEvent.arrival)) ∧
      ∀ reads : List Bytes, (∀ input ∈ reads, (Completion.read (some input)).FitsBuffer) →
        (Parsing.fresh.parse (received k (evs.filterMap ServerEvent.arrival) ++
          reads.flatten)).1 ≠ none →
        ∃ used evs' s' c' rep, used <+: reads ∧ Run BufferedStep s evs' s' ∧
          evs'.filterMap ServerEvent.arrival =
            used.map (fun input => .complete k (.read (some input))) ∧
          s'.connections[k]? = some c' ∧ .asyncWrite rep ∈ c'.log ∧
          replyOf stylesheet (Parsing.fresh.parse
            (received k (evs.filterMap ServerEvent.arrival) ++ reads.flatten)) = some rep ∧
          ∀ l, l ≠ k → s'.connections[l]? = (s.settle n).connections[l]? := by
  have hi := serialInvariant_settle hcreate hrun
  have hs : Sound n s := run_invariant (fun _ _ _ hs h => hs.step h) hrun (sound_create hcreate)
  constructor
  · obtain ⟨r, hparse⟩ := hi.undecided hc hread
    exact beginsComplete_of_undecided hparse
  · intro reads hfits hdecided
    obtain ⟨used, s', c', rep, hused, hserial, hc', hwritten, hrep, hother⟩ :=
      hi.answer hc hread hdecided
    obtain ⟨evs₁, hevs₁, hrun₁⟩ := run_settle hs
    obtain ⟨evs₂, hevs₂, hrun₂⟩ := run_arrivals hs.settle (quiet_settle n s) hserial
    have harrivals : (evs₁ ++ evs₂).filterMap ServerEvent.arrival =
        used.map fun input => .complete k (.read (some input)) := by
      rw [List.filterMap_append, List.filterMap_eq_nil_iff.mpr hevs₁, hevs₂]
      rfl
    have hbuffered : ∀ ev ∈ evs₁ ++ evs₂, ev.FitsBuffer := by
      refine fitsBuffer_of_arrivals fun a ha => ?_
      rw [harrivals] at ha
      obtain ⟨input, hinput, rfl⟩ := List.mem_map.mp ha
      exact hfits input (hused.subset hinput)
    exact ⟨used, evs₁ ++ evs₂, s', c', rep, hused,
      run_restrict hbuffered (run_append.mpr ⟨_, hrun₁, hrun₂⟩), harrivals, hc', hwritten, hrep,
      hother⟩

/-- A client has been accepted while another was served; its request comes in two reads. -/
theorem never_stuck_sample :
    ∃ s : Server .sample, Run ServerStep (Server.initial .sample 2 sampleMap)
        [.accept false, .accept false, .complete 0 (.read (some sampleText))] s ∧
      ∃ evs s' c, Run BufferedStep s evs s' ∧ s'.connections[1]? = some c ∧
        .asyncWrite riversReply ∈ c.log := by
  obtain ⟨s, hrun, htest⟩ := run_of_any Server.step (Server.initial .sample 2 sampleMap)
    [.accept false, .accept false, .complete 0 (.read (some sampleText))]
    (fun s => (s.settle 2).connections[1]?.any (.readSome ∈ ·.pending)) (by decide +kernel)
  obtain ⟨c, hc, hread⟩ := (Option.any_eq_true ..).mp htest
  have hfits : ∀ input ∈ [riversText.take 20, riversText.drop 20],
      (Completion.read (some input)).FitsBuffer := by
    intro input hinput
    have hlen : ∀ b ∈ [riversText.take 20, riversText.drop 20], b ≠ [] ∧ b.length ≤ bufferSize := by
      decide +kernel
    exact hlen input hinput
  obtain ⟨_, hanswer⟩ := never_stuck .sample 2 sampleMap _ s _
    (create_eq .sample (by decide) sampleMap) hrun 1 c hc (of_decide_eq_true hread)
  obtain ⟨_, evs, s', c', rep, _, hrun', _, hc', hwritten, hrep, _⟩ :=
    hanswer [riversText.take 20, riversText.drop 20] hfits (by decide +kernel)
  have hsome := hrep.symm.trans (show _ = some riversReply by decide +kernel)
  cases hsome
  exact ⟨s, hrun, evs, s', c', hrun', hc', hwritten⟩

end PaleoServer
