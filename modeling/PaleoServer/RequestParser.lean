/-
  `src/request.hpp`, `src/header.hpp`, `src/request_parser.hpp`, `src/request_parser.cpp`.

  `consume` is the switch of `request_parser::consume`, one case per state in the source's
  order. It returns the tribool, the new `state_` and the new request. The operations with no defined
  result are explicit: reading an `int` that was never written and `headers.back()` of an
  empty vector are a `Fault`. `parse` is the loop of the header's template, run by
  `Feed.feed`.

  `Parsing` packs a parser and its request with the invariant that ties them
  (`WellFormed`): in the header states there is a header, in the version states the version
  fields are written. On it `parse` is total (`Parsing.parse`), and every parser of a
  connection is one, because it starts as `Parsing.fresh`.

  Signed overflow of the version numbers is undefined in C++; the model wraps (`Int32`), and
  `VersionNumbers` says when there is none.
-/
import PaleoServer.Lib.Feed
import PaleoServer.Bytes

namespace PaleoServer

/-! ## `header.hpp`, `request.hpp` -/

/-- `struct header`. -/
structure Header where
  name : Bytes
  value : Bytes
  deriving DecidableEq, Repr

/-- `struct request`. The two version fields are plain `int`s of a class without constructor:
    `none` until written. -/
structure Request where
  method : Bytes
  uri : Bytes
  httpVersionMajor : Option Int32
  httpVersionMinor : Option Int32
  headers : List Header
  deriving DecidableEq, Repr

/-- A request as a connection constructs it. -/
def Request.empty : Request := ⟨[], [], none, none, []⟩

/-! ## `request_parser.hpp` -/

/-- `boost::tribool`: `none` is `indeterminate`. -/
abbrev Tribool := Option Bool

/-- The states of the parser. -/
inductive State where
  | methodStart
  | method
  | uriStart
  | uri
  | httpVersionH
  | httpVersionT1
  | httpVersionT2
  | httpVersionP
  | httpVersionSlash
  | httpVersionMajorStart
  | httpVersionMajor
  | httpVersionMinorStart
  | httpVersionMinor
  | expectingNewline1
  | headerLineStart
  | headerLws
  | headerName
  | spaceBeforeHeaderValue
  | headerValue
  | expectingNewline2
  | expectingNewline3
  deriving DecidableEq, Repr

/-- The operations of `consume` that have no defined result. -/
inductive Fault where
  | backOfEmptyVector
  | uninitialisedRead
  deriving DecidableEq, Repr

/-- `request_parser::is_char`. -/
def isChar (c : Int32) : Bool := c ≥ 0 && c ≤ 127

/-- `request_parser::is_ctl`. -/
def isCtl (c : Int32) : Bool := (c ≥ 0 && c ≤ 31) || c == 127

/-- `request_parser::is_tspecial`. -/
def isTspecial (c : Int32) : Bool :=
  ((bytes "()<>@,;:\\\"/[]?=\x7b\x7d \t").map charToInt).contains c

/-- `request_parser::is_digit`. -/
def isDigit (c : Int32) : Bool := c ≥ charToInt (ch '0') && c ≤ charToInt (ch '9')

/-! ## The partial operations -/

/-- Reading an `int` member. -/
def readInt : Option Int32 → Except Fault Int32
  | some v => .ok v
  | none => .error .uninitialisedRead

/-- `v * 10 + input - '0'` on `int`. -/
def accumulate (v : Int32) (input : UInt8) : Int32 :=
  v * 10 + charToInt input - charToInt (ch '0')

/-- A modification of `headers.back()`. -/
def modifyBack (f : Header → Header) : List Header → Except Fault (List Header)
  | [] => .error .backOfEmptyVector
  | [h] => .ok [f h]
  | h :: h' :: hs => (modifyBack f (h' :: hs)).map (h :: ·)

/-- `name.push_back(input)` on a header. -/
def Header.pushName (input : UInt8) (h : Header) : Header := { h with name := h.name ++ [input] }

/-- `value.push_back(input)` on a header. -/
def Header.pushValue (input : UInt8) (h : Header) : Header :=
  { h with value := h.value ++ [input] }

/-! ## `request_parser.cpp` -/

/-- `request_parser::consume`: the verdict, the new `state_` and the new request. -/
def consume (state : State) (req : Request) (input : UInt8) :
    Except Fault (Tribool × State × Request) :=
  let c := charToInt input
  match state with
  | .methodStart =>
    if !isChar c || isCtl c || isTspecial c then
      .ok (some false, state, req)
    else
      .ok (none, .method, { req with method := req.method ++ [input] })
  | .method =>
    if input = ch ' ' then
      .ok (none, .uri, req)
    else if !isChar c || isCtl c || isTspecial c then
      .ok (some false, state, req)
    else
      .ok (none, state, { req with method := req.method ++ [input] })
  | .uriStart =>
    if isCtl c then
      .ok (some false, state, req)
    else
      .ok (none, .uri, { req with uri := req.uri ++ [input] })
  | .uri =>
    if input = ch ' ' then
      .ok (none, .httpVersionH, req)
    else if isCtl c then
      .ok (some false, state, req)
    else
      .ok (none, state, { req with uri := req.uri ++ [input] })
  | .httpVersionH =>
    if input = ch 'H' then
      .ok (none, .httpVersionT1, req)
    else
      .ok (some false, state, req)
  | .httpVersionT1 =>
    if input = ch 'T' then
      .ok (none, .httpVersionT2, req)
    else
      .ok (some false, state, req)
  | .httpVersionT2 =>
    if input = ch 'T' then
      .ok (none, .httpVersionP, req)
    else
      .ok (some false, state, req)
  | .httpVersionP =>
    if input = ch 'P' then
      .ok (none, .httpVersionSlash, req)
    else
      .ok (some false, state, req)
  | .httpVersionSlash =>
    if input = ch '/' then
      .ok (none, .httpVersionMajorStart,
        { req with httpVersionMajor := some 0, httpVersionMinor := some 0 })
    else
      .ok (some false, state, req)
  | .httpVersionMajorStart =>
    if isDigit c then do
      let v ← readInt req.httpVersionMajor
      .ok (none, .httpVersionMajor, { req with httpVersionMajor := some (accumulate v input) })
    else
      .ok (some false, state, req)
  | .httpVersionMajor =>
    if input = ch '.' then
      .ok (none, .httpVersionMinorStart, req)
    else if isDigit c then do
      let v ← readInt req.httpVersionMajor
      .ok (none, state, { req with httpVersionMajor := some (accumulate v input) })
    else
      .ok (some false, state, req)
  | .httpVersionMinorStart =>
    if isDigit c then do
      let v ← readInt req.httpVersionMinor
      .ok (none, .httpVersionMinor, { req with httpVersionMinor := some (accumulate v input) })
    else
      .ok (some false, state, req)
  | .httpVersionMinor =>
    if input = ch '\r' then
      .ok (none, .expectingNewline1, req)
    else if isDigit c then do
      let v ← readInt req.httpVersionMinor
      .ok (none, state, { req with httpVersionMinor := some (accumulate v input) })
    else
      .ok (some false, state, req)
  | .expectingNewline1 =>
    if input = ch '\n' then
      .ok (none, .headerLineStart, req)
    else
      .ok (some false, state, req)
  | .headerLineStart =>
    if input = ch '\r' then
      .ok (none, .expectingNewline3, req)
    else if !req.headers.isEmpty && (input == ch ' ' || input == ch '\t') then
      .ok (none, .headerLws, req)
    else if !isChar c || isCtl c || isTspecial c then
      .ok (some false, state, req)
    else do
      let headers ← modifyBack (Header.pushName input) (req.headers ++ [⟨[], []⟩])
      .ok (none, .headerName, { req with headers })
  | .headerLws =>
    if input = ch '\r' then
      .ok (none, .expectingNewline2, req)
    else if input = ch ' ' || input = ch '\t' then
      .ok (none, state, req)
    else if isCtl c then
      .ok (some false, state, req)
    else do
      let headers ← modifyBack (Header.pushValue input) req.headers
      .ok (none, .headerValue, { req with headers })
  | .headerName =>
    if input = ch ':' then
      .ok (none, .spaceBeforeHeaderValue, req)
    else if !isChar c || isCtl c || isTspecial c then
      .ok (some false, state, req)
    else do
      let headers ← modifyBack (Header.pushName input) req.headers
      .ok (none, state, { req with headers })
  | .spaceBeforeHeaderValue =>
    if input = ch ' ' then
      .ok (none, .headerValue, req)
    else
      .ok (some false, state, req)
  | .headerValue =>
    if input = ch '\r' then
      .ok (none, .expectingNewline2, req)
    else if isCtl c then
      .ok (some false, state, req)
    else do
      let headers ← modifyBack (Header.pushValue input) req.headers
      .ok (none, state, { req with headers })
  | .expectingNewline2 =>
    if input = ch '\n' then
      .ok (none, .headerLineStart, req)
    else
      .ok (some false, state, req)
  | .expectingNewline3 =>
    .ok (some (input == ch '\n'), state, req)

/-- `consume` on a parser and its request as one state. -/
def consumeStep (p : State × Request) (input : UInt8) :
    Except Fault (Tribool × State × Request) :=
  consume p.1 p.2 input

/-- `request_parser::parse` on the bytes of a range: the verdict, the bytes from the returned
    iterator on, and the parser and request afterwards. -/
def parse (p : State × Request) (input : Bytes) :
    Except Fault (Tribool × Bytes × State × Request) :=
  Feed.feed consumeStep p input

end PaleoServer
