/-
  `src/connection.hpp`, `src/connection.cpp`.

  A connection keeps its parser and request (`Parsing`), its reply, the operations it has
  started on its socket that have not completed, and a log of what it has done, action by
  action. Events are completions; `deliver` calls the handler of an operation that is
  outstanding. The handlers are programs over the map of the connection.

  The bytes of a read are what the read put at the front of `buffer_`. Nothing else of the
  buffer is looked at. A read of the program brings between 1 and 8192 bytes (`FitsBuffer`).
  `deliver` takes reads of any size: what is proved of all runs holds of those of the program
  among them, and a result that makes up reads of its own makes up such reads.
-/
import PaleoServer.Lib.Trace
import PaleoServer.ParserStep
import PaleoServer.RequestHandler

namespace PaleoServer

open Atomic

variable {M : Mapnik}

/-- The asynchronous operations of a connection. -/
inductive Operation where
  | readSome
  | write
  deriving DecidableEq, Repr

/-- What a connection does, as far as its protocol is concerned. -/
inductive Action where
  | asyncReadSome
  | readCompleted (error : Bool)
  | consumed (input : UInt8) (verdict : Tribool)
  | handleRequest (req : Request)
  | assignReply (rep : Reply)
  | asyncWrite (rep : Reply)
  | writeCompleted (error : Bool)
  | shutdown
  deriving DecidableEq, Repr

/-- `class connection`. `ioService` and `map` identify the objects it is bound to; `reply` is
    `none` until it is assigned. -/
structure Connection where
  ioService : Nat
  map : Nat
  parsing : Parsing
  reply : Option Reply
  pending : List Operation
  log : List Action

namespace Connection

/-- The constructor. -/
def create (ioService map : Nat) : Connection where
  ioService
  map
  parsing := .fresh
  reply := none
  pending := []
  log := []

def record (c : Connection) (as : List Action) : Connection := { c with log := c.log ++ as }

/-- `socket_.async_read_some(...)`. -/
def asyncReadSome (c : Connection) : Connection :=
  { c.record [.asyncReadSome] with pending := c.pending ++ [.readSome] }

/-- `request_parser_.parse(request_, buffer_.data(), buffer_.data() + bytes_transferred)`. -/
def parse (c : Connection) (input : Bytes) : Tribool × Connection :=
  let log := Feed.readLog consumeStep (c.parsing.state, c.parsing.request) input
  let (result, _, parsing) := c.parsing.parse input
  (result, { c.record (log.map fun e => .consumed e.1 e.2) with parsing })

/-- An assignment to `reply_` and `async_write(socket_, reply_.to_buffers(), ...)`. -/
def send (c : Connection) (rep : Reply) : Connection :=
  { c.record [.assignReply rep, .asyncWrite rep] with
    reply := some rep
    pending := c.pending ++ [.write] }

/-- `connection::start`. -/
def start (c : Connection) : Connection := c.asyncReadSome

/-- `connection::handle_read`: the bytes read, or `none` for an error. -/
def handleRead (M : Mapnik) (c : Connection) : Option Bytes → Prog M.Map Connection
  | none => pure c
  | some input =>
    match c.parse input with
    | (some true, c) => do
      let rep ← PaleoServer.handleRequest M c.parsing.request
      return (c.record [.handleRequest c.parsing.request]).send rep
    | (some false, c) => pure (c.send (stockReply .badRequest))
    | (none, c) => pure c.asyncReadSome

/-- `connection::handle_write`. -/
def handleWrite (c : Connection) (error : Bool) : Connection :=
  if error then c else c.record [.shutdown]

/-- An operation completes: it is no longer outstanding. -/
def complete (c : Connection) (op : Operation) (a : Action) : Connection :=
  { c.record [a] with pending := c.pending.erase op }

end Connection

/-- The size of `buffer_`, a `boost::array<char, 8192>`. -/
def bufferSize : Nat := 8192

/-- The completion of an operation, with what it reports: the bytes read, or `none` for an error;
    whether a write failed. -/
inductive Completion where
  | read (result : Option Bytes)
  | write (error : Bool)
  deriving DecidableEq, Repr

/-- A read without an error brings some bytes, and no more than the buffer holds. -/
def Completion.FitsBuffer : Completion → Prop
  | .read (some input) => input ≠ [] ∧ input.length ≤ bufferSize
  | _ => True

/-- The handler that runs when a completion is delivered. Only an operation that is outstanding
    completes. -/
def Connection.deliver (M : Mapnik) (c : Connection) : Completion → Option (Prog M.Map Connection)
  | .read result =>
    if .readSome ∈ c.pending then
      some ((c.complete .readSome (.readCompleted result.isNone)).handleRead M result)
    else none
  | .write error =>
    if .write ∈ c.pending then
      some (pure ((c.complete .write (.writeCompleted error)).handleWrite error))
    else none

/-- A completion is delivered and its handler runs to its end, whatever other connections do
    to the map in the meantime. -/
def ConnectionStep (M : Mapnik) (c : Connection) (ev : Completion) (c' : Connection) : Prop :=
  ∃ p, c.deliver M ev = some p ∧ p.Returns c'

/-- A connection whose first read delivered `input`, after its handler. -/
def afterRead (m : M.Map) (ioService map : Nat) (input : Bytes) : Connection :=
  (((Connection.create ioService map).start.complete .readSome
    (.readCompleted false)).handleRead M (some input)).run m |>.1

/-! ## The reading handler -/

/-- What `handle_read` makes of a connection whose read delivered `input`: more is read, or one
    reply is sent. -/
theorem handleRead_returns {c c' : Connection} {input : Bytes}
    (h : (c.handleRead M (some input)).Returns c') :
    (∃ d, c.parse input = (none, d) ∧ c' = d.asyncReadSome) ∨
    (∃ d, c.parse input = (some false, d) ∧ c' = d.send (stockReply .badRequest)) ∨
    ∃ d rep, c.parse input = (some true, d) ∧
      (PaleoServer.handleRequest M d.parsing.request).Returns rep ∧
      c' = (d.record [.handleRequest d.parsing.request]).send rep := by
  rcases hp : c.parse input with ⟨_ | _ | _, d⟩ <;>
    simp only [Connection.handleRead, hp] at h
  · exact .inl ⟨d, rfl, Prog.returns_pure.mp h⟩
  · exact .inr (.inl ⟨d, rfl, Prog.returns_pure.mp h⟩)
  · obtain ⟨rep, hrep, hc⟩ := Prog.returns_bind.mp h
    exact .inr (.inr ⟨d, rep, rfl, hrep, Prog.returns_pure.mp hc⟩)

/-- The same, with the map to itself. -/
theorem run_handleRead (c : Connection) (input : Bytes) (m : M.Map) :
    (c.handleRead M (some input)).run m =
      match c.parse input with
      | (none, d) => (d.asyncReadSome, m)
      | (some false, d) => (d.send (stockReply .badRequest), m)
      | (some true, d) =>
        let r := (PaleoServer.handleRequest M d.parsing.request).run m
        ((d.record [.handleRequest d.parsing.request]).send r.1, r.2) := by
  rcases hp : c.parse input with ⟨_ | _ | _, d⟩ <;>
    simp only [Connection.handleRead, hp, Prog.run_bind, Prog.run_pure]

theorem parse_binding {c d : Connection} {input : Bytes} {v : Tribool}
    (h : c.parse input = (v, d)) : d.ioService = c.ioService ∧ d.map = c.map := by
  have hd : (c.parse input).2 = d := congrArg Prod.snd h
  rw [← hd]
  exact ⟨rfl, rfl⟩

/-- A connection stays bound to its io_service and its map. -/
theorem connectionStep_binding {c c' : Connection} {ev : Completion}
    (h : ConnectionStep M c ev c') : c'.ioService = c.ioService ∧ c'.map = c.map := by
  obtain ⟨code, hd, hret⟩ := h
  rcases ev with (_ | input) | error
  · simp only [Connection.deliver] at hd
    split at hd <;> cases hd
    cases hret
    exact ⟨rfl, rfl⟩
  · simp only [Connection.deliver] at hd
    split at hd <;> cases hd
    rcases handleRead_returns hret with ⟨d, hp, rfl⟩ | ⟨d, hp, rfl⟩ | ⟨d, rep, hp, _, rfl⟩
    all_goals
      obtain ⟨h1, h2⟩ := parse_binding hp
      exact ⟨h1, h2⟩
  · simp only [Connection.deliver] at hd
    split at hd <;> cases hd
    cases hret
    cases error <;> exact ⟨rfl, rfl⟩

end PaleoServer
