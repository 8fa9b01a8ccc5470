/-
  `src/uri_grammer.hpp`, `src/uri_parser.hpp`, `src/uri_parser.cpp`, and the bounding box reader
  of `src/map_utils.hpp`.

  The grammar is the source's, written with the combinators of `Lib.Peg`. A pair's
  attribute is a key and an optional value, unset exactly when no `=` was read.
  `WmsQuery.create` is the constructor: it reports a query that could not be parsed, or
  lower-cases and trims what was parsed and inserts it into `params_`, where the first entry of
  a key stays. The getters look one key up in `wmsQuery`, its `params_`.

  `parseBboxFromString` keeps the fixed array `d` and its index: a write outside the array
  and a read of an entry that was not written are a `BboxFault`. Neither can happen
  (`parseBboxFromString_eq`), so `bboxFromString` is total.

  Parameters: `lexicalCast` for `boost::lexical_cast<double>`, `init` for `box2d::init`.
-/
import PaleoServer.Lib.Peg
import PaleoServer.Bytes

namespace PaleoServer

open Peg

/-! ## `uri_grammer.hpp` -/

def inRange (lo hi : Char) (b : UInt8) : Bool := ch lo ≤ b && b ≤ ch hi

/-- `qi::char_("a-zA-Z_")`. -/
def isKeyStart (b : UInt8) : Bool := inRange 'a' 'z' b || inRange 'A' 'Z' b || b == ch '_'

/-- `qi::char_("a-zA-Z_0-9")`. -/
def isKeyChar (b : UInt8) : Bool :=
  inRange 'a' 'z' b || inRange 'A' 'Z' b || b == ch '_' || inRange '0' '9' b

/-- `qi::char_("a-zA-Z_0-9,/.:-")`. -/
def isValueChar (b : UInt8) : Bool :=
  inRange 'a' 'z' b || inRange 'A' 'Z' b || b == ch '_' || inRange '0' '9' b || b == ch ',' ||
    b == ch '/' || b == ch '.' || b == ch ':' || b == ch '-'

/-- `pair_type`: a key and, when there was an `=`, a value. -/
abbrev PairType := Bytes × Option Bytes

namespace Grammar

/-- `key = qi::char_("a-zA-Z_") >> *qi::char_("a-zA-Z_0-9")`. -/
def key : Parser UInt8 Bytes :=
  map (fun r => r.1 :: r.2) (seq (charClass isKeyStart) (star (charClass isKeyChar)))

/-- `value = +qi::char_("a-zA-Z_0-9,/.:-")`. -/
def value : Parser UInt8 Bytes := plus (charClass isValueChar)

/-- `'=' >> -value`; the attribute of an absent value is the empty string. -/
def assign : Parser UInt8 Bytes := map (fun r => r.2.getD []) (seq (lit (ch '=')) (opt value))

/-- `pair = key >> -('=' >> -value)`. -/
def pair : Parser UInt8 PairType := seq key (opt assign)

/-- `query = pair >> *((qi::lit('&')) >> pair)`. -/
def query : Parser UInt8 (List PairType) := sepBy (ch '&') pair

end Grammar

/-! ## `wms_query` -/

/-- `params_`: the entries of the map, no two with one key. -/
abbrev Params := List (Bytes × Bytes)

/-- `params_.find(key)`. -/
def Params.find (m : Params) (key : Bytes) : Option Bytes := m.lookup key

/-- `params_.insert(std::make_pair(key, value))`: an entry of the key that is there stays. -/
def Params.insert (m : Params) (key value : Bytes) : Params :=
  match m.find key with
  | some _ => m
  | none => m ++ [(key, value)]

/-- The body of the constructor's loop. -/
def insertPair (params : Params) (it : PairType) : Params :=
  match it.2 with
  | some value => params.insert (toLowerCopy (trimCopy it.1)) (toLowerCopy (trimCopy value))
  | none => params

/-- `wms_query::wms_query`: what it writes to `std::cout`, and the `params_` it leaves. -/
def WmsQuery.create (query : Bytes) : Bytes × Params :=
  match Grammar.query query with
  | none => (bytes "Parsing failed\n", [])
  | some (m, _) => ([], m.foldl insertPair [])

/-- The `params_` of a query, which is all the handler looks at. -/
def wmsQuery (query : Bytes) : Params := (WmsQuery.create query).2

theorem wmsQuery_of_parsed {query r : Bytes} {m : List PairType}
    (h : Grammar.query query = some (m, r)) : wmsQuery query = m.foldl insertPair [] := by
  unfold wmsQuery WmsQuery.create
  rw [h]

theorem wmsQuery_of_failed {query : Bytes} (h : Grammar.query query = none) :
    wmsQuery query = [] := by
  unfold wmsQuery WmsQuery.create
  rw [h]

/-- `wms_query::get_bbox_string`. -/
def getBboxString (q : Params) : Option Bytes := q.find (bytes "bbox")

/-- `wms_query::get_layer_string`. -/
def getLayerString (q : Params) : Option Bytes := q.find (bytes "layers")

/-- `wms_query::get_mime`. -/
def getMime (q : Params) : Option Bytes := q.find (bytes "format")

/-- `wms_query::get_srs`. -/
def getSrs (q : Params) : Option Bytes := q.find (bytes "srs")

/-- `atoi` on `c_str()`: white space, a sign, decimal digits. Out of range it is what the C
    library's `strtol` gives, saturated to `long`, converted to `int`. -/
def atoi (s : Bytes) : Int32 :=
  let long (v : Int) : Int32 := Int32.ofInt (max (-2 ^ 63) (min v (2 ^ 63 - 1)))
  let digits (t : Bytes) : Int := ofDecimal (t.takeWhile isDecimal)
  match (s.takeWhile (· ≠ 0)).dropWhile isSpace with
  | [] => 0
  | b :: t =>
    if b = ch '-' then long (-digits t)
    else if b = ch '+' then long (digits t)
    else long (digits (b :: t))

/-- `wms_query::get_width`: `atoi`, converted to `unsigned`. -/
def getWidth (q : Params) : Option UInt32 :=
  (q.find (bytes "width")).map fun v => (atoi v).toUInt32

/-- `wms_query::get_height`. -/
def getHeight (q : Params) : Option UInt32 :=
  (q.find (bytes "height")).map fun v => (atoi v).toUInt32

/-- `wms_query::parse_layer_string`: the elements inserted into the set. -/
def parseLayerString (layerString : Bytes) : List Bytes :=
  ((tokens (bytes ",") layerString).map trimCopy).filter (· ≠ [])

/-! ## `atoi` on decimal integers -/

/-- `t` is an optional `-` and decimal digits, and denotes `i`. -/
def DecimalInt (t : Bytes) (i : Int) : Prop :=
  ∃ ds, ds ≠ [] ∧ (∀ b ∈ ds, isDecimal b = true) ∧
    ((t = ds ∧ i = ofDecimal ds) ∨ (t = ch '-' :: ds ∧ i = -ofDecimal ds))

theorem isDecimal_plain : ∀ b : UInt8, isDecimal b = true →
    b ≠ 0 ∧ isSpace b = false ∧ b ≠ ch '-' ∧ b ≠ ch '+' := by
  decide +kernel

/-- An `int` is read as it is written. -/
theorem atoi_decimalInt {t : Bytes} {i : Int} (h : DecimalInt t i) (hlo : -2 ^ 31 ≤ i)
    (hhi : i < 2 ^ 31) : atoi t = Int32.ofInt i := by
  obtain ⟨ds, hne, hdigit, htext⟩ := h
  have hnul : ds.takeWhile (· ≠ 0) = ds := by
    rw [List.takeWhile_eq_self_iff]
    intro b hb
    simpa using (isDecimal_plain b (hdigit b hb)).1
  have htake : ds.takeWhile isDecimal = ds := List.takeWhile_eq_self_iff.mpr hdigit
  have hsat : max (-2 ^ 63) (min i (2 ^ 63 - 1)) = i := by omega
  unfold atoi
  rcases htext with ⟨rfl, rfl⟩ | ⟨rfl, rfl⟩
  · rw [hnul]
    cases t with
    | nil => exact absurd rfl hne
    | cons b ds =>
      obtain ⟨_, hspace, hminus, hplus⟩ := isDecimal_plain b (hdigit b List.mem_cons_self)
      rw [List.dropWhile_cons_of_neg (by simp [hspace])]
      simp only [if_neg hminus, if_neg hplus, htake, hsat]
  · have hfront : (ch '-' :: ds).takeWhile (· ≠ 0) = ch '-' :: ds := by
      rw [List.takeWhile_cons_of_pos (by decide), hnul]
    rw [hfront, List.dropWhile_cons_of_neg (by decide)]
    simp only [if_pos, htake, hsat]

/-- The conversion of an `int` to `unsigned`. -/
theorem toNat_toUInt32_ofInt (i : Int) : (Int32.ofInt i).toUInt32.toNat = (i % 2 ^ 32).toNat := by
  have hbits : (Int32.ofInt i).toUInt32.toNat = (BitVec.ofInt 32 i).toNat := rfl
  rw [hbits, BitVec.toNat_ofInt]
  rfl

/-! ## `map_utils.hpp` -/

/-- What the reader of the bounding box could do to its array `d[4]` without a defined result. -/
inductive BboxFault where
  | writeOutOfRange
  | uninitialisedRead
  deriving DecidableEq, Repr

variable {Double Envelope : Type}

/-- The loop of `parse_bbox_from_string` over the tokens: `success` and the array `d`, of
    which the entries not written are `none`. -/
def bboxLoop (lexicalCast : Bytes → Option Double) (i : Nat) (d : List (Option Double)) :
    List Bytes → Except BboxFault (Bool × List (Option Double))
  | [] => .ok (false, d)
  | beg :: rest =>
    match lexicalCast (trimCopy beg) with
    | none => .ok (false, d)
    | some x =>
      if i < d.length then
        if i = 3 then .ok (true, d.set i (some x))
        else bboxLoop lexicalCast (i + 1) (d.set i (some x)) rest
      else .error .writeOutOfRange

/-- What the same loop writes to `std::clog` about a token that does not convert; `what` is what
    `bad_lexical_cast` says of itself. -/
def bboxClog (lexicalCast : Bytes → Option Double) (what : Bytes) (i : Nat) :
    List Bytes → Option Bytes
  | [] => none
  | beg :: rest =>
    match lexicalCast (trimCopy beg) with
    | none => some (beg ++ bytes " : " ++ what ++
        bytes "\nAre your coordinates each separated by commas?\n")
    | some _ => if i = 3 then none else bboxClog lexicalCast what (i + 1) rest

/-- `map_utils::parse_bbox_from_string`: the result and the box afterwards. -/
def parseBboxFromString (lexicalCast : Bytes → Option Double)
    (init : Double → Double → Double → Double → Envelope) (box : Envelope) (bboxString : Bytes) :
    Except BboxFault (Bool × Envelope) :=
  match bboxLoop lexicalCast 0 [none, none, none, none] (tokens (bytes ", ") bboxString) with
  | .error e => .error e
  | .ok (false, _) => .ok (false, box)
  | .ok (true, [some d0, some d1, some d2, some d3]) => .ok (true, init d0 d1 d2 d3)
  | .ok (true, _) => .error .uninitialisedRead

/-- What `parse_bbox_from_string` computes: the conversions of the first four tokens. -/
theorem parseBboxFromString_eq (lexicalCast : Bytes → Option Double)
    (init : Double → Double → Double → Double → Envelope) (box : Envelope) (s : Bytes) :
    parseBboxFromString lexicalCast init box s =
      match ((tokens (bytes ", ") s).take 4).mapM fun t => lexicalCast (trimCopy t) with
      | some [d0, d1, d2, d3] => .ok (true, init d0 d1 d2 d3)
      | _ => .ok (false, box) := by
  unfold parseBboxFromString
  rcases tokens (bytes ", ") s with _ | ⟨t0, _ | ⟨t1, _ | ⟨t2, _ | ⟨t3, ts⟩⟩⟩⟩
  all_goals
    simp only [bboxLoop, List.take_nil, List.take_succ_cons, List.take_zero, List.mapM_nil,
      List.mapM_cons]
  · rfl
  · cases lexicalCast (trimCopy t0) <;> rfl
  · cases lexicalCast (trimCopy t0) <;> cases lexicalCast (trimCopy t1) <;> rfl
  · cases lexicalCast (trimCopy t0) <;> cases lexicalCast (trimCopy t1) <;>
      cases lexicalCast (trimCopy t2) <;> rfl
  · cases lexicalCast (trimCopy t0) <;> cases lexicalCast (trimCopy t1) <;>
      cases lexicalCast (trimCopy t2) <;> cases lexicalCast (trimCopy t3) <;> rfl

/-- `parse_bbox_from_string` without the faults, which do not occur. -/
def bboxFromString (lexicalCast : Bytes → Option Double)
    (init : Double → Double → Double → Double → Envelope) (box : Envelope) (s : Bytes) :
    Bool × Envelope :=
  match parseBboxFromString lexicalCast init box s with
  | .ok r => r
  | .error _ => (false, box) -- excluded by `parseBboxFromString_ok`

theorem parseBboxFromString_ok (lexicalCast : Bytes → Option Double)
    (init : Double → Double → Double → Double → Envelope) (box : Envelope) (s : Bytes) :
    parseBboxFromString lexicalCast init box s = .ok (bboxFromString lexicalCast init box s) := by
  unfold bboxFromString
  rw [parseBboxFromString_eq]
  split <;> rfl

/-- A line on `std::clog` means that the box was refused; it is refused without one only for
    want of tokens. -/
theorem bboxClog_isNone_iff (lexicalCast : Bytes → Option Double)
    (init : Double → Double → Double → Double → Envelope) (box : Envelope) (what s : Bytes) :
    bboxClog lexicalCast what 0 (tokens (bytes ", ") s) = none ↔
      (bboxFromString lexicalCast init box s).1 = true ∨
        (tokens (bytes ", ") s).length < 4 ∧
          ∀ t ∈ tokens (bytes ", ") s, (lexicalCast (trimCopy t)).isSome := by
  unfold bboxFromString
  rw [parseBboxFromString_eq]
  rcases tokens (bytes ", ") s with _ | ⟨t0, _ | ⟨t1, _ | ⟨t2, _ | ⟨t3, ts⟩⟩⟩⟩
  · simp [bboxClog]
  · cases h0 : lexicalCast (trimCopy t0) <;> simp [bboxClog, h0]
  · cases h0 : lexicalCast (trimCopy t0) <;> cases h1 : lexicalCast (trimCopy t1) <;>
      simp [bboxClog, h0, h1]
  · cases h0 : lexicalCast (trimCopy t0) <;> cases h1 : lexicalCast (trimCopy t1) <;>
      cases h2 : lexicalCast (trimCopy t2) <;> simp [bboxClog, h0, h1, h2]
  · cases h0 : lexicalCast (trimCopy t0) <;> cases h1 : lexicalCast (trimCopy t1) <;>
      cases h2 : lexicalCast (trimCopy t2) <;> cases h3 : lexicalCast (trimCopy t3) <;>
      simp [bboxClog, h0, h1, h2, h3]

end PaleoServer
