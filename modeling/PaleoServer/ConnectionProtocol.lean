/-
  The protocol a connection keeps to.

  `Protocol` is the intended order of actions as an automaton of its own: read and parse until
  there is a verdict, produce one reply, write it, shut down. `log_follows_protocol`: the log of
  every run of a connection is a run of it. What the protocol forbids, no connection does;
  `connection_orderly` lists it.
-/
import PaleoServer.Connection

namespace PaleoServer

open Trace

variable {M : Mapnik}

/-! ## The protocol -/

inductive Phase where
  | idle
  | reading
  | parsing
  | accepted
  | refused
  | handling
  | replied (rep : Reply)
  | writing (rep : Reply)
  | written
  | closed
  deriving DecidableEq, Repr

/-- Which action is possible in which phase. -/
inductive Protocol : Phase → Action → Phase → Prop where
  | start : Protocol .idle .asyncReadSome .reading
  | received : Protocol .reading (.readCompleted false) .parsing
  | readFailed : Protocol .reading (.readCompleted true) .closed
  | undecided (b) : Protocol .parsing (.consumed b none) .parsing
  | accept (b) : Protocol .parsing (.consumed b (some true)) .accepted
  | refuse (b) : Protocol .parsing (.consumed b (some false)) .refused
  | readMore : Protocol .parsing .asyncReadSome .reading
  | handle (req) : Protocol .accepted (.handleRequest req) .handling
  | reply (rep) : Protocol .handling (.assignReply rep) (.replied rep)
  | badRequest (rep) : Protocol .refused (.assignReply rep) (.replied rep)
  | write (rep) : Protocol (.replied rep) (.asyncWrite rep) (.writing rep)
  | writeFailed (rep) : Protocol (.writing rep) (.writeCompleted true) .closed
  | wrote (rep) : Protocol (.writing rep) (.writeCompleted false) .written
  | shutdown : Protocol .written .shutdown .closed

/-- The phase after a `parse` with this verdict. -/
def Phase.afterParse : Tribool → Phase
  | none => .parsing
  | some true => .accepted
  | some false => .refused

/-! ## Connections keep to it -/

theorem run_undecided (l : List (UInt8 × Tribool)) (h : ∀ e ∈ l, e.2 = none) :
    Run Protocol .parsing (l.map fun e => .consumed e.1 e.2) .parsing := by
  induction l with
  | nil => rfl
  | cons e l ih =>
    obtain ⟨b, v⟩ := e
    have hv : v = none := h (b, v) List.mem_cons_self
    subst hv
    exact ⟨.parsing, .undecided b, ih fun e he => h e (List.mem_cons_of_mem _ he)⟩

theorem run_verdict (b : UInt8) (v : Bool) :
    Run Protocol .parsing [.consumed b (some v)] (.afterParse (some v)) := by
  rw [run_single]
  cases v
  · exact .refuse b
  · exact .accept b

/-- What parsing a buffer does to a connection: bytes are consumed up to the verdict. -/
theorem parse_spec (c : Connection) (input : Bytes) :
    ∃ as, (c.parse input).2.log = c.log ++ as ∧ (c.parse input).2.pending = c.pending ∧
      (c.parse input).2.reply = c.reply ∧ (∀ a ∈ as, ∃ b v, a = .consumed b v) ∧
      Run Protocol .parsing as (.afterParse (c.parse input).1) := by
  refine ⟨_, rfl, rfl, rfl, ?_, ?_⟩
  · intro a ha
    obtain ⟨e, _, rfl⟩ := List.mem_map.mp ha
    exact ⟨e.1, e.2, rfl⟩
  · have hfeed := c.parsing.parse_eq input
    show Run Protocol .parsing _ (.afterParse (c.parsing.parse input).1)
    rcases hv : (c.parsing.parse input).1 with _ | v
    · rw [hv] at hfeed
      exact run_undecided _ (Feed.readLog_none hfeed)
    · rw [hv] at hfeed
      obtain ⟨pre, b, hlog, hpre⟩ := Feed.readLog_some hfeed
      rw [hlog, List.map_append, run_append]
      exact ⟨.parsing, run_undecided pre hpre, run_verdict b v⟩

/-- A log in which no request was handled and nothing was sent. -/
def Quiet (log : List Action) : Prop :=
  ∀ a ∈ log, (∀ req, a ≠ .handleRequest req) ∧ ∀ rep, a ≠ .asyncWrite rep

/-- The phase a connection is in between two events. -/
inductive Tracks : Connection → Phase → Prop where
  | reading {c} : c.pending = [.readSome] → c.reply = none → Quiet c.log → Tracks c .reading
  | writing {c rep} : c.pending = [.write] → c.reply = some rep →
      (∀ rep', .asyncWrite rep' ∈ c.log → rep' = rep) → Tracks c (.writing rep)
  | closed {c} : c.pending = [] → (∀ rep, .asyncWrite rep ∈ c.log → c.reply = some rep) →
      Tracks c .closed

theorem Quiet.append {l l' : List Action} (h : Quiet l) (h' : Quiet l') : Quiet (l ++ l') := by
  intro a ha
  rcases List.mem_append.mp ha with ha | ha
  · exact h a ha
  · exact h' a ha

theorem Quiet.not_sent {l : List Action} (h : Quiet l) (rep : Reply) : .asyncWrite rep ∉ l :=
  fun hm => (h _ hm).2 rep rfl

theorem quiet_asyncReadSome : Quiet [.asyncReadSome] := by
  intro a ha
  rw [List.mem_singleton.mp ha]
  exact ⟨fun _ => nofun, fun _ => nofun⟩

theorem quiet_readCompleted (error : Bool) : Quiet [.readCompleted error] := by
  intro a ha
  rw [List.mem_singleton.mp ha]
  exact ⟨fun _ => nofun, fun _ => nofun⟩

theorem Quiet.parse {c : Connection} (h : Quiet c.log) (input : Bytes) :
    Quiet (c.parse input).2.log := by
  obtain ⟨as, hlog, _, _, has, _⟩ := parse_spec c input
  rw [hlog]
  refine h.append fun a ha => ?_
  obtain ⟨b, v, rfl⟩ := has a ha
  exact ⟨fun _ => nofun, fun _ => nofun⟩

theorem tracks_start (ioService map : Nat) :
    Tracks (Connection.create ioService map).start .reading :=
  .reading rfl rfl quiet_asyncReadSome

/-- A reply is assigned and its write started, where the protocol has it. -/
theorem run_send {p : Phase} {rep : Reply} (h : Protocol p (.assignReply rep) (.replied rep)) :
    Run Protocol p [.assignReply rep, .asyncWrite rep] (.writing rep) :=
  ⟨.replied rep, h, .writing rep, .write rep, rfl⟩

theorem tracks_send {d : Connection} (hpend : d.pending = []) (rep : Reply)
    (hsent : ∀ rep, .asyncWrite rep ∉ d.log) : Tracks (d.send rep) (.writing rep) := by
  refine .writing ?_ rfl ?_
  · show d.pending ++ [.write] = [.write]
    rw [hpend]
    rfl
  · intro rep' hm
    rcases List.mem_append.mp hm with hm | hm
    · exact absurd hm (hsent rep')
    · simpa using hm

/-- The reading handler on a read that delivered bytes. -/
theorem handleRead_protocol {c c' : Connection} {input : Bytes} (hpend : c.pending = [])
    (hrep : c.reply = none) (hquiet : Quiet c.log)
    (h : (c.handleRead M (some input)).Returns c') :
    ∃ as p', c'.log = c.log ++ as ∧ Run Protocol .parsing as p' ∧ Tracks c' p' := by
  obtain ⟨as, hlog, hpd, hrp, _, hrun⟩ := parse_spec c input
  have hquiet' := hquiet.parse input
  rw [hpend] at hpd
  rw [hrep] at hrp
  rcases handleRead_returns h with ⟨d, hp, rfl⟩ | ⟨d, hp, rfl⟩ | ⟨d, rep, hp, _, rfl⟩
  · rw [hp] at hlog hpd hrp hrun hquiet'
    refine ⟨as ++ [.asyncReadSome], .reading, ?_,
      run_append.mpr ⟨.parsing, hrun, run_single.mpr .readMore⟩,
      .reading ?_ hrp (hquiet'.append quiet_asyncReadSome)⟩
    · rw [← List.append_assoc, ← hlog]
      rfl
    · show d.pending ++ [.readSome] = [.readSome]
      rw [hpd]
      rfl
  · rw [hp] at hlog hpd hrun hquiet'
    refine ⟨as ++ [.assignReply _, .asyncWrite _], .writing _, ?_,
      run_append.mpr ⟨.refused, hrun, run_send (.badRequest _)⟩,
      tracks_send hpd _ hquiet'.not_sent⟩
    rw [← List.append_assoc, ← hlog]
    rfl
  · rw [hp] at hlog hpd hrun hquiet'
    have hhandle : Run Protocol .accepted [.handleRequest d.parsing.request] .handling :=
      run_single.mpr (.handle _)
    refine ⟨as ++ ([.handleRequest d.parsing.request] ++ [.assignReply rep, .asyncWrite rep]),
      .writing rep, ?_, ?_,
      tracks_send (d := d.record [.handleRequest d.parsing.request]) hpd rep fun rep' hm => ?_⟩
    · rw [← List.append_assoc, ← hlog, ← List.append_assoc]
      rfl
    · exact run_append.mpr ⟨.accepted, hrun,
        run_append.mpr ⟨.handling, hhandle, run_send (.reply rep)⟩⟩
    · rcases List.mem_append.mp hm with hm | hm
      · exact hquiet'.not_sent rep' hm
      · cases List.mem_singleton.mp hm

/-- One event: the actions it adds to the log are a run of the protocol. -/
theorem connectionStep_protocol {c c' : Connection} {ev : Completion} {p : Phase}
    (ht : Tracks c p) (hs : ConnectionStep M c ev c') :
    ∃ as p', c'.log = c.log ++ as ∧ Run Protocol p as p' ∧ Tracks c' p' := by
  obtain ⟨prog, hd, hret⟩ := hs
  cases ht with
  | reading hpend hrep hquiet =>
    have herase : c.pending.erase .readSome = [] := by
      rw [hpend]
      rfl
    rcases ev with (_ | input) | error
    · -- a failed read
      simp only [Connection.deliver, hpend, List.mem_singleton, if_true, Option.some.injEq] at hd
      subst hd
      cases hret
      refine ⟨[.readCompleted true], .closed, rfl, run_single.mpr .readFailed,
        .closed herase fun rep hm => ?_⟩
      exact absurd hm ((hquiet.append (quiet_readCompleted true)).not_sent rep)
    · -- a read with data
      simp only [Connection.deliver, hpend, List.mem_singleton, if_true, Option.some.injEq] at hd
      subst hd
      obtain ⟨as, p', hlog, hrun, htr⟩ :=
        handleRead_protocol (c := c.complete .readSome (.readCompleted false)) herase hrep
          (hquiet.append (quiet_readCompleted false)) hret
      refine ⟨[.readCompleted false] ++ as, p', ?_, run_append.mpr ⟨.parsing, run_single.mpr .received, hrun⟩, htr⟩
      rw [hlog, ← List.append_assoc]
      rfl
    · -- no write is outstanding
      simp [Connection.deliver, hpend] at hd
  | writing hpend hrep honly =>
    rename_i rep
    have herase : c.pending.erase .write = [] := by
      rw [hpend]
      rfl
    have hkept : ∀ as : List Action, (∀ r, .asyncWrite r ∉ as) →
        ∀ r, .asyncWrite r ∈ c.log ++ as → c.reply = some r := by
      intro as has r hm
      rcases List.mem_append.mp hm with hm | hm
      · rw [hrep, honly r hm]
      · exact absurd hm (has r)
    rcases ev with result | error
    · -- no read is outstanding
      simp [Connection.deliver, hpend] at hd
    · simp only [Connection.deliver, hpend, List.mem_singleton, if_true, Option.some.injEq] at hd
      subst hd
      cases hret
      cases error with
      | true =>
        exact ⟨[.writeCompleted true], .closed, rfl, run_single.mpr (.writeFailed rep),
          .closed herase (hkept _ (by simp))⟩
      | false =>
        refine ⟨[.writeCompleted false, .shutdown], .closed, ?_,
          ⟨.written, .wrote rep, .closed, .shutdown, rfl⟩, .closed herase ?_⟩
        · exact List.append_assoc c.log [.writeCompleted false] [.shutdown]
        · intro r hm
          change .asyncWrite r ∈ c.log ++ [.writeCompleted false] ++ [.shutdown] at hm
          rw [List.append_assoc] at hm
          exact hkept _ (by simp) r hm
  | closed hpend _ =>
    rcases ev with result | error <;> simp [Connection.deliver, hpend] at hd

/-- **The log of a connection is a run of the protocol**, after any completions. -/
theorem log_follows_protocol {ioService map : Nat} {evs : List Completion} {c : Connection}
    (h : Run (ConnectionStep M) (Connection.create ioService map).start evs c) :
    ∃ p, Run Protocol .idle c.log p ∧ Tracks c p := by
  obtain ⟨as, p, hlog, hrun, ht⟩ :=
    run_simulation (fun _ _ _ _ ht hs => connectionStep_protocol ht hs) h
      (tracks_start ioService map)
  refine ⟨p, ?_, ht⟩
  rw [hlog]
  exact ⟨.reading, .start, hrun⟩

/-! ## What the protocol forbids -/

namespace Action

/-- An asynchronous operation is started. -/
def starts : Action → Bool
  | .asyncReadSome | .asyncWrite _ => true
  | _ => false

/-- An asynchronous operation completes. -/
def completes : Action → Bool
  | .readCompleted _ | .writeCompleted _ => true
  | _ => false

/-- A completion after which nothing is started. -/
def ends : Action → Bool
  | .readCompleted true | .writeCompleted _ => true
  | _ => false

def isHandle : Action → Bool
  | .handleRequest _ => true
  | _ => false

def isWrite : Action → Bool
  | .asyncWrite _ => true
  | _ => false

def isAssign : Action → Bool
  | .assignReply _ => true
  | _ => false

def isConsumed : Action → Bool
  | .consumed _ _ => true
  | _ => false

/-- The parser gives its verdict. -/
def isVerdict : Action → Bool
  | .consumed _ (some _) => true
  | _ => false

end Action

/-- The phases in order; no action leads back, except from parsing to reading. -/
def Phase.rank : Phase → Nat
  | .idle => 0
  | .reading | .parsing => 1
  | .accepted | .refused => 2
  | .handling => 3
  | .replied _ => 4
  | .writing _ => 5
  | .written => 6
  | .closed => 7

theorem Protocol.rank_le {p p' : Phase} {a : Action} (h : Protocol p a p') :
    p.rank ≤ p'.rank := by
  cases h <;> simp [Phase.rank]

/-- Actions `A` only lead to rank `k`, actions `B` are only possible below it: no `B` after an
    `A`. -/
theorem protocol_barrier {A B : Action → Bool} (k : Nat)
    (hA : ∀ p a p', Protocol p a p' → A a = true → k ≤ p'.rank)
    (hB : ∀ p b p', Protocol p b p' → B b = true → p.rank < k) {p p' : Phase}
    {log : List Action} (h : Run Protocol p log p') :
    log.Pairwise fun a b => A a = true → ¬ B b = true := by
  refine run_barrier (S := fun p => k ≤ p.rank) ?_ ?_ ?_ h
  · exact fun p a p' ha hs => hA p a p' hs ha
  · exact fun p a p' hp hs => Nat.le_trans hp hs.rank_le
  · exact fun p b p' hp hs hb => absurd (hB p b p' hs hb) (Nat.not_lt.mpr hp)

/-- What happens at most once in every pair happens at most once. -/
theorem countP_le_one {A : Action → Bool} {log : List Action}
    (h : log.Pairwise fun a b => A a = true → ¬ A b = true) : log.countP A ≤ 1 := by
  induction log with
  | nil => exact Nat.zero_le _
  | cons a log ih =>
    obtain ⟨ha, hl⟩ := List.pairwise_cons.mp h
    by_cases hA : A a = true
    · have : log.countP A = 0 := List.countP_eq_zero.mpr fun b hb => ha b hb hA
      rw [List.countP_cons_of_pos hA, this]
    · rw [List.countP_cons_of_neg hA]
      exact ih hl

/-- The operations outstanding in a phase. -/
def Phase.outstanding : Phase → Nat
  | .reading | .writing _ => 1
  | _ => 0

theorem protocol_outstanding {log : List Action} {p : Phase} (h : Run Protocol .idle log p) :
    log.countP Action.starts = log.countP Action.completes + p.outstanding := by
  refine run_history (H := fun as p =>
    as.countP Action.starts = as.countP Action.completes + p.outstanding) (p := []) ?_ h rfl
  intro as p a p' hp hs
  rw [List.countP_append, List.countP_append, hp]
  cases hs <;> simp [Phase.outstanding, Action.starts, Action.completes]

/-- What a connection promises about its log, its operations and its reply. -/
structure Orderly (c : Connection) : Prop where
  /-- At every point at most one operation is outstanding. -/
  outstanding : c.pending.length ≤ 1 ∧ ∀ point, point <+: c.log →
    point.countP Action.starts ≤ point.countP Action.completes + 1
  handled_once : c.log.countP Action.isHandle ≤ 1
  written_once : c.log.countP Action.isWrite ≤ 1
  /-- No byte is fed to the parser after its verdict. -/
  verdict_final : c.log.Pairwise fun a b => a.isVerdict = true → ¬ b.isConsumed = true
  /-- The reply is not assigned once its write has started, and is still what is written. -/
  reply_kept : (c.log.Pairwise fun a b => a.isWrite = true → ¬ b.isAssign = true) ∧
    ∀ rep, .asyncWrite rep ∈ c.log → c.reply = some rep
  /-- After an error or a completed write no operation is started. -/
  ended : c.log.Pairwise fun a b => a.ends = true → ¬ b.starts = true

/-- **Every connection is orderly at every point of every run.** -/
theorem connection_orderly {ioService map : Nat} {evs : List Completion} {c : Connection}
    (h : Run (ConnectionStep M) (Connection.create ioService map).start evs c) : Orderly c := by
  obtain ⟨p, hrun, ht⟩ := log_follows_protocol h
  refine ⟨⟨?_, ?_⟩, ?_, ?_, ?_, ⟨?_, ?_⟩, ?_⟩
  · cases ht with
    | reading hpend => simp [hpend]
    | writing hpend => simp [hpend]
    | closed hpend => simp [hpend]
  · rintro point ⟨rest, hrest⟩
    rw [← hrest] at hrun
    obtain ⟨q, hq, _⟩ := run_append.mp hrun
    have hcount := protocol_outstanding hq
    have hle : q.outstanding ≤ 1 := by
      cases q <;> simp [Phase.outstanding]
    omega
  · refine countP_le_one (protocol_barrier 3 ?_ ?_ hrun) <;> intro p a p' hs <;> cases hs <;>
      simp [Phase.rank, Action.isHandle]
  · refine countP_le_one (protocol_barrier 5 ?_ ?_ hrun) <;> intro p a p' hs <;> cases hs <;>
      simp [Phase.rank, Action.isWrite]
  · refine protocol_barrier 2 ?_ ?_ hrun <;> intro p a p' hs <;> cases hs <;>
      simp [Phase.rank, Action.isVerdict, Action.isConsumed]
  · refine protocol_barrier 5 ?_ ?_ hrun <;> intro p a p' hs <;> cases hs <;>
      simp [Phase.rank, Action.isWrite, Action.isAssign]
  · intro rep hm
    cases ht with
    | reading _ _ hquiet => exact absurd hm (hquiet.not_sent rep)
    | writing _ hrep honly => rw [hrep, honly rep hm]
    | closed _ hkept => exact hkept rep hm
  · refine protocol_barrier 6 ?_ ?_ hrun <;> intro p a p' hs <;> cases hs <;>
      simp [Phase.rank, Action.ends, Action.starts]

/-- A request that is answered and a write that completes. -/
theorem connection_orderly_sample :
    ∃ c, Run (ConnectionStep .sample) (Connection.create 0 0).start
        [.read (some (bytes "GET / HTTP/1.0\r\n\r\n")), .write false] c ∧
      Orderly c ∧ c.log.countP Action.isWrite = 1 := by
  obtain ⟨d, hd⟩ : ∃ d, d = afterRead sampleMap 0 0 (bytes "GET / HTTP/1.0\r\n\r\n") := ⟨_, rfl⟩
  have hread : ConnectionStep .sample (Connection.create 0 0).start
      (.read (some (bytes "GET / HTTP/1.0\r\n\r\n"))) d := by
    rw [hd]
    exact ⟨_, rfl, Atomic.Prog.returns_run _ _⟩
  have hpend : .write ∈ d.pending := by
    rw [hd]
    decide +kernel
  have hwrite : ConnectionStep .sample d (.write false)
      ((d.complete .write (.writeCompleted false)).handleWrite false) :=
    ⟨_, if_pos hpend, rfl⟩
  have hrun : Run (ConnectionStep .sample) (Connection.create 0 0).start
      [.read (some (bytes "GET / HTTP/1.0\r\n\r\n")), .write false] _ :=
    run_append.mpr ⟨d, run_single.mpr hread, run_single.mpr hwrite⟩
  refine ⟨_, hrun, connection_orderly hrun, ?_⟩
  rw [hd]
  decide +kernel

end PaleoServer
