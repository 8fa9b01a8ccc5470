/-
  How TCP cuts the stream does not matter. A connection that receives its bytes in any number
  of reads ends as one `parse` over their concatenation says, and once the parser has decided,
  bytes behind the deciding one do not matter either (`stream_outcome`).
-/
import PaleoServer.ConnectionProtocol

namespace PaleoServer

variable {M : Mapnik}

/-- Reads delivered to a connection one after another, each with the map as it was then. When no
    read is outstanding the rest stays unread. -/
def deliverReads (M : Mapnik) (c : Connection) : List (M.Map × Bytes) → Connection
  | [] => c
  | (m, input) :: reads =>
    match c.deliver M (.read (some input)) with
    | none => c
    | some p => deliverReads M (p.run m).1 reads

/-- The bytes of a list of reads. -/
def streamOf (reads : List (M.Map × Bytes)) : Bytes := (reads.map Prod.snd).flatten

/-- What has become of the request on a connection. -/
inductive Outcome where
  | waiting
  | handled (req : Request)
  | badRequest
  deriving DecidableEq, Repr

/-- The request `handle_request` was called with. -/
def Action.request : Action → Option Request
  | .handleRequest req => some req
  | _ => none

def Connection.outcome (c : Connection) : Outcome :=
  match c.log.findSome? Action.request with
  | some req => .handled req
  | none => if .asyncWrite (stockReply .badRequest) ∈ c.log then .badRequest else .waiting

/-- The outcome a parse stands for. -/
def outcomeOf : Tribool × Bytes × Parsing → Outcome
  | (none, _, _) => .waiting
  | (some true, _, p) => .handled p.request
  | (some false, _, _) => .badRequest

/-- The reply a parse stands for, on a map loaded like `m`. -/
def replyOf (m : M.Map) : Tribool × Bytes × Parsing → Option Reply
  | (none, _, _) => none
  | (some true, _, p) => some ((handleRequest M p.request).run m).1
  | (some false, _, _) => some (stockReply .badRequest)

/-! ## One read -/

theorem Quiet.no_request {l : List Action} (h : Quiet l) : l.findSome? Action.request = none := by
  rw [List.findSome?_eq_none_iff]
  intro a ha
  cases a with
  | handleRequest req => exact absurd rfl ((h _ ha).1 req)
  | _ => rfl

theorem outcome_quiet {c : Connection} (h : Quiet c.log) : c.outcome = .waiting := by
  unfold Connection.outcome
  rw [h.no_request]
  simp only [h.not_sent, if_false]

theorem outcome_refused {c : Connection} (h : Quiet c.log) :
    (c.send (stockReply .badRequest)).outcome = .badRequest := by
  have hnone : (c.send (stockReply .badRequest)).log.findSome? Action.request = none := by
    show (c.log ++ [_, _]).findSome? Action.request = none
    rw [List.findSome?_append, h.no_request]
    rfl
  have hmem : .asyncWrite (stockReply .badRequest) ∈ (c.send (stockReply .badRequest)).log :=
    List.mem_append_right _ (List.mem_cons_of_mem _ List.mem_cons_self)
  unfold Connection.outcome
  rw [hnone]
  simp only [hmem, if_true]

theorem outcome_handled {c : Connection} (h : Quiet c.log) (req : Request) (rep : Reply) :
    ((c.record [.handleRequest req]).send rep).outcome = .handled req := by
  have hsome : ((c.record [.handleRequest req]).send rep).log.findSome? Action.request =
      some req := by
    show ((c.log ++ [_]) ++ [_, _]).findSome? Action.request = some req
    rw [List.findSome?_append, List.findSome?_append, h.no_request]
    rfl
  unfold Connection.outcome
  rw [hsome]

/-- A connection that has sent its reply reads no more. -/
theorem deliverReads_sent {c : Connection} (h : c.pending = [.write])
    (reads : List (M.Map × Bytes)) : deliverReads M c reads = c := by
  cases reads with
  | nil => rfl
  | cons r reads => simp [deliverReads, Connection.deliver, h]

/-- The parser of a connection after a buffer. -/
theorem connection_parse_eq {c : Connection} {input r : Bytes} {v : Tribool} {q : Parsing}
    (h : c.parsing.parse input = (v, r, q)) : ∃ d, c.parse input = (v, d) ∧ d.parsing = q := by
  unfold Connection.parse
  rw [h]
  exact ⟨_, rfl, rfl⟩

/-! ## All reads -/

/-- A connection that waits for bytes: what its reads lead to. -/
theorem deliverReads_spec (reads : List (M.Map × Bytes)) {c : Connection}
    (hpend : c.pending = [.readSome]) (hrep : c.reply = none) (hquiet : Quiet c.log) :
    (deliverReads M c reads).outcome = outcomeOf (c.parsing.parse (streamOf reads)) ∧
      ∀ m, (∀ r ∈ reads, SameStylesheet m r.1) →
        (deliverReads M c reads).reply = replyOf m (c.parsing.parse (streamOf reads)) := by
  induction reads generalizing c with
  | nil =>
    have hparse : c.parsing.parse (streamOf (M := M) []) = (none, [], c.parsing) := by
      rw [Parsing.parse_eq_iff]
      rfl
    rw [hparse]
    exact ⟨outcome_quiet hquiet, fun _ _ => hrep⟩
  | cons r reads ih =>
    obtain ⟨m, input⟩ := r
    -- the connection whose handler runs: its read has completed
    obtain ⟨c1, hc1⟩ : ∃ c1, c1 = c.complete .readSome (.readCompleted false) := ⟨_, rfl⟩
    have hdeliver : deliverReads M c ((m, input) :: reads) =
        deliverReads M ((c1.handleRead M (some input)).run m).1 reads := by
      simp [deliverReads, Connection.deliver, hpend, hc1]
    have hpend1 : c1.pending = [] := by
      rw [hc1]
      show c.pending.erase .readSome = []
      rw [hpend]
      rfl
    have hquiet1 : Quiet c1.log := by
      rw [hc1]
      exact hquiet.append (quiet_readCompleted false)
    have hrep1 : c1.reply = none := by
      rw [hc1]
      exact hrep
    have hparsing : c1.parsing = c.parsing := by rw [hc1]; rfl
    obtain ⟨_, _, hpd, hrp, _, _⟩ := parse_spec c1 input
    have hquiet2 := hquiet1.parse input
    have hstream : streamOf ((m, input) :: reads) = input ++ streamOf reads := rfl
    rw [hdeliver, hstream, run_handleRead]
    rcases hp : c.parsing.parse input with ⟨_ | _ | _, rest, q⟩
    · -- undecided: the next read goes on
      obtain ⟨d, hd, hq⟩ := connection_parse_eq (hparsing ▸ hp)
      rw [hd] at hpd hrp hquiet2
      simp only [hd, Parsing.parse_append_none hp]
      have hpend2 : d.asyncReadSome.pending = [.readSome] := by
        show d.pending ++ [.readSome] = [.readSome]
        rw [hpd, hpend1]
        rfl
      have := ih hpend2 (hrp.trans hrep1) (hquiet2.append quiet_asyncReadSome)
      rw [show d.asyncReadSome.parsing = q from hq] at this
      exact ⟨this.1, fun m hm => this.2 m fun r hr => hm r (List.mem_cons_of_mem _ hr)⟩
    · -- refused
      obtain ⟨d, hd, hq⟩ := connection_parse_eq (hparsing ▸ hp)
      rw [hd] at hpd hquiet2
      simp only [hd, Parsing.parse_append_some hp]
      have hsent : (d.send (stockReply .badRequest)).pending = [.write] := by
        show d.pending ++ [.write] = [.write]
        rw [hpd, hpend1]
        rfl
      rw [deliverReads_sent hsent]
      exact ⟨outcome_refused hquiet2, fun _ _ => rfl⟩
    · -- accepted
      obtain ⟨d, hd, hq⟩ := connection_parse_eq (hparsing ▸ hp)
      rw [hd] at hpd hquiet2
      simp only [hd, Parsing.parse_append_some hp]
      rw [deliverReads_sent (by
        show d.pending ++ [.write] = [.write]
        rw [hpd, hpend1]
        rfl)]
      refine ⟨?_, fun m' hm => ?_⟩
      · rw [outcome_handled hquiet2]
        exact congrArg (fun p : Parsing => Outcome.handled p.request) hq
      · have hsame := hm (m, input) List.mem_cons_self
        show some ((handleRequest M d.parsing.request).run m).1 = some _
        rw [hq, hsame.reply_eq q.request]

/-- **The outcome is that of one parse over the whole stream**, however it was cut, and of any
    prefix of it on which the parser has decided. The reply is the handler's on a map as it was
    loaded, or the stock reply. -/
theorem stream_outcome (M : Mapnik) (ioService map : Nat) (reads : List (M.Map × Bytes))
    (pre more : Bytes) (hstream : streamOf reads = pre ++ more)
    (hdecided : more = [] ∨ (Parsing.fresh.parse pre).1 ≠ none) :
    (deliverReads M (Connection.create ioService map).start reads).outcome =
        outcomeOf (Parsing.fresh.parse pre) ∧
      ∀ m, (∀ r ∈ reads, SameStylesheet m r.1) →
        (deliverReads M (Connection.create ioService map).start reads).reply =
          replyOf m (Parsing.fresh.parse pre) := by
  have hspec := deliverReads_spec reads (c := (Connection.create ioService map).start) rfl rfl
    quiet_asyncReadSome
  rw [hstream] at hspec
  have hpre : outcomeOf (Parsing.fresh.parse (pre ++ more)) =
        outcomeOf (Parsing.fresh.parse pre) ∧
      ∀ m : M.Map, replyOf m (Parsing.fresh.parse (pre ++ more)) =
        replyOf m (Parsing.fresh.parse pre) := by
    rcases hdecided with rfl | hdecided
    · rw [List.append_nil]
      exact ⟨rfl, fun _ => rfl⟩
    · rcases hp : Parsing.fresh.parse pre with ⟨_ | v, rest, q⟩
      · exact absurd (by rw [hp]) hdecided
      · rw [Parsing.parse_append_some hp]
        cases v
        · exact ⟨rfl, fun _ => rfl⟩
        · exact ⟨rfl, fun _ => rfl⟩
  exact ⟨hspec.1.trans hpre.1, fun m hm => (hspec.2 m hm).trans (hpre.2 m)⟩

/-- A request cut inside its version and followed by bytes of another. -/
theorem stream_outcome_sample :
    let c := deliverReads .sample (Connection.create 0 0).start
      [(sampleMap, bytes "GET / HT"), (sampleMap, bytes "TP/1.0\r\n\r\nGET")]
    c.outcome = .handled ⟨bytes "GET", bytes "/", some 1, some 0, []⟩ ∧
      c.reply = some (replyHtml (bytes "Ready to accept Query")) := by
  have h := stream_outcome .sample 0 0
    [(sampleMap, bytes "GET / HT"), (sampleMap, bytes "TP/1.0\r\n\r\nGET")]
    (bytes "GET / HTTP/1.0\r\n\r\n") (bytes "GET") (by decide +kernel) (.inr (by decide +kernel))
  have hreply := h.2 sampleMap (by simp [SameStylesheet.refl])
  refine ⟨h.1.trans ?_, hreply.trans ?_⟩
  · decide +kernel
  · decide +kernel

end PaleoServer
