/-
  The partial operations of the parser.

  `consume` reads two `int`s that the request's constructor leaves uninitialised, and changes
  the last header of a vector that starts empty. What keeps this defined is `WellFormed`,
  which ties `state_` to the shape of the request. Here `state_` is the number it is in
  the program, so that the `default` of the switch can be reached at all (`consumeSwitch`); it is
  a hazard like the undefined operations, though it has a result.

  Proved: `parser_operations_safe`, for every way the bytes are cut into chunks.
-/
import PaleoServer.ParserStep

namespace PaleoServer

open Feed

/-! ## The switch over `state_` -/

/-- `enum state`, in its order. -/
def State.enumerators : List State :=
  [.methodStart, .method, .uriStart, .uri, .httpVersionH, .httpVersionT1, .httpVersionT2,
    .httpVersionP, .httpVersionSlash, .httpVersionMajorStart, .httpVersionMajor,
    .httpVersionMinorStart, .httpVersionMinor, .expectingNewline1, .headerLineStart, .headerLws,
    .headerName, .spaceBeforeHeaderValue, .headerValue, .expectingNewline2, .expectingNewline3]

/-- The number of an enumerator. -/
def State.value (st : State) : Nat := State.enumerators.idxOf st

/-- The enumerator of a number. -/
def State.ofValue (n : Nat) : Option State := State.enumerators[n]?

theorem State.ofValue_value (st : State) : State.ofValue st.value = some st := by
  cases st <;> rfl

/-- What is not meant to happen in a call of `consume`. -/
inductive Hazard where
  | undefined (f : Fault)
  | defaultBranch
  deriving DecidableEq, Repr

/-- `request_parser::consume` on the value of `state_`: each enumerator has its case. -/
def consumeSwitch (p : Nat × Request) (input : UInt8) :
    Except Hazard (Tribool × Nat × Request) :=
  match State.ofValue p.1 with
  | some st =>
    match consume st p.2 input with
    | .ok (v, st', req') => .ok (v, st'.value, req')
    | .error f => .error (.undefined f)
  | none => .error .defaultBranch

/-- The value of `state_` and the request are those of a well-formed pair. -/
def SwitchSafe (p : Nat × Request) : Prop := ∃ st, p.1 = st.value ∧ WellFormed st p.2

/-- A call of `consume` has no hazard and is followed by none. -/
theorem SwitchSafe.step {p : Nat × Request} (h : SwitchSafe p) (input : UInt8) :
    ∃ v p', consumeSwitch p input = .ok (v, p') ∧ SwitchSafe p' := by
  obtain ⟨state, req⟩ := p
  obtain ⟨st, rfl, wf⟩ := h
  obtain ⟨v, st', req', hc, wf'⟩ := wf.consume input
  refine ⟨v, (st'.value, req'), ?_, st', rfl, wf'⟩
  simp only [consumeSwitch, State.ofValue_value, hc]

/-- **Every partial operation of the parser is safe.** A new parser and a request without headers
    and with uninitialised version fields are fed any bytes, in any chunks, until there is a
    verdict: `headers.back()` is not evaluated on an empty vector, no version field is read
    before it was written, and the `default` of the switch is not reached. What is left is a
    well-formed pair again. -/
theorem parser_operations_safe (method uri : Bytes) (chunks : List Bytes) :
    ∃ v state req,
      feedChunks consumeSwitch (State.methodStart.value, ⟨method, uri, none, none, []⟩) chunks =
        .ok (v, state, req) ∧
      ∃ st : State, state = st.value ∧
        (st.NeedsHeader → req.headers ≠ []) ∧
        (st.NeedsVersion → req.httpVersionMajor.isSome ∧ req.httpVersionMinor.isSome) := by
  have hstart : SwitchSafe (State.methodStart.value, ⟨method, uri, none, none, []⟩) :=
    ⟨.methodStart, rfl, wellFormed_start _⟩
  obtain ⟨v, ⟨state, req⟩, hrun, st, hvalue, wf⟩ :=
    feedChunks_total (fun p b hp => SwitchSafe.step hp b) hstart chunks
  exact ⟨v, state, req, hrun, st, hvalue, wf.header, wf.version⟩

end PaleoServer
