/-
  Ways to write parameters as a request uri.

  A client may write a byte of a key or a value as it is or as `%` and two hex digits
  (`WrittenByte`), may write keys in any letter case, and may put the parameters in any order
  among pairs of other keys. `UriText params` is one way to write `params`, with its path;
  `UriText.render` is the uri.

  Proved: `UriText.decodes`, the uri is decoded to the path, `?` and the text of the pairs;
  `UriText.find_eq`, the query stores exactly `params` under the keys of `parameterNames`.
-/
import PaleoServer.QueryString
import PaleoServer.RequestHandler
import PaleoServer.RequestAcceptance

namespace PaleoServer

/-! ## Bytes and strings -/

/-- A byte as a client writes it. -/
inductive WrittenByte where
  | literal (b : UInt8)
  | escape (x y : UInt8)
  deriving DecidableEq, Repr

/-- What is sent. -/
def WrittenByte.raw : WrittenByte → Bytes
  | .literal b => [b]
  | .escape x y => [ch '%', x, y]

/-- What is meant. -/
def WrittenByte.byte : WrittenByte → UInt8
  | .literal b => b
  | .escape x y => UInt8.ofNat ((hexValue x).getD 0 * 16 + (hexValue y).getD 0)

/-- An escape has two hex digits. -/
def WrittenByte.Ok : WrittenByte → Prop
  | .literal _ => True
  | .escape x y => (hexValue x).isSome = true ∧ (hexValue y).isSome = true

instance : DecidablePred WrittenByte.Ok := fun w => by
  cases w <;> unfold WrittenByte.Ok <;> infer_instance

/-- A key or a value as a client writes it. -/
abbrev Written := List WrittenByte

def Written.raw (ws : Written) : Bytes := ws.flatMap WrittenByte.raw

def Written.text (ws : Written) : Bytes := ws.map WrittenByte.byte

/-- A string written without escapes. -/
def Written.literal (s : Bytes) : Written := s.map .literal

theorem hexValue_sent : ∀ b : UInt8, (hexValue b).isSome = true →
    b ≠ ch ' ' ∧ ¬ IsControl b := by
  decide +kernel

theorem isValueChar_sent : ∀ b : UInt8, isValueChar b = true →
    b ≠ ch '%' ∧ b ≠ ch '+' ∧ b ≠ ch ' ' ∧ ¬ IsControl b := by
  decide +kernel

theorem isValueChar_of_isKeyChar : ∀ b : UInt8, isKeyChar b = true → isValueChar b = true := by
  decide +kernel

theorem WrittenByte.decodes {w : WrittenByte} (h : w.Ok) (hb : isValueChar w.byte = true) :
    DecodesTo w.raw [w.byte] := by
  cases w with
  | literal b => exact .byte (isValueChar_sent b hb).1 (isValueChar_sent b hb).2.1
  | escape x y =>
    obtain ⟨hx, hy⟩ := h
    obtain ⟨hi, hx⟩ := Option.isSome_iff_exists.mp hx
    obtain ⟨lo, hy⟩ := Option.isSome_iff_exists.mp hy
    simp only [WrittenByte.raw, WrittenByte.byte, hx, hy, Option.getD_some]
    exact .escape hx hy

/-- Nothing sent for a byte ends the uri. -/
theorem WrittenByte.sent {w : WrittenByte} (h : w.Ok) (hb : isValueChar w.byte = true) :
    IsUri w.raw := by
  cases w with
  | literal b =>
    have := (isValueChar_sent b hb).2.2
    simpa [IsUri, WrittenByte.raw] using this
  | escape x y =>
    have hx := hexValue_sent x h.1
    have hy := hexValue_sent y h.2
    have hpercent : ch '%' ≠ ch ' ' ∧ ¬ IsControl (ch '%') := by decide
    simpa [IsUri, WrittenByte.raw, hpercent] using ⟨hx, hy⟩

/-- A string over the alphabet of values, as it may be written. -/
structure Written.Ok (ws : Written) : Prop where
  byte : ∀ w ∈ ws, w.Ok
  value : IsValue ws.text

theorem IsUri.append {u v : Bytes} (h : IsUri u) (h' : IsUri v) : IsUri (u ++ v) :=
  List.forall_mem_append.mpr ⟨h, h'⟩

theorem Written.Ok.tail {w : WrittenByte} {ws : Written} (h : Written.Ok (w :: ws)) :
    Written.Ok ws :=
  ⟨fun v hv => h.byte v (List.mem_cons_of_mem w hv),
    fun b hb => h.value b (List.mem_cons_of_mem _ hb)⟩

theorem Written.Ok.decodes {ws : Written} (h : ws.Ok) : DecodesTo ws.raw ws.text := by
  induction ws with
  | nil => exact .nil
  | cons w ws ih =>
    have hw := w.decodes (h.byte w List.mem_cons_self) (h.value _ List.mem_cons_self)
    exact hw.append (ih h.tail)

theorem Written.Ok.sent {ws : Written} (h : ws.Ok) : IsUri ws.raw := by
  intro b hb
  obtain ⟨w, hw, hb⟩ := List.mem_flatMap.mp hb
  exact w.sent (h.byte w hw) (h.value _ (List.mem_map_of_mem hw)) b hb

/-! ## Pairs -/

/-- A pair as a client writes it. -/
structure WrittenPair where
  key : Written
  value : Option Written
  deriving DecidableEq, Repr

def WrittenPair.raw (p : WrittenPair) : Bytes :=
  match p.value with
  | none => p.key.raw
  | some v => p.key.raw ++ ch '=' :: v.raw

/-- The pair that is meant. -/
def WrittenPair.pair (p : WrittenPair) : PairType := (p.key.text, p.value.map Written.text)

/-- It fits the grammar, and its escapes have two hex digits. -/
structure WrittenPair.Ok (p : WrittenPair) : Prop where
  pair : IsPair p.pair
  key : ∀ w ∈ p.key, w.Ok
  value : ∀ v ∈ p.value, ∀ w ∈ v, w.Ok

instance : DecidablePred WrittenPair.Ok := fun p =>
  decidable_of_iff (IsPair p.pair ∧ (∀ w ∈ p.key, w.Ok) ∧ ∀ v ∈ p.value, ∀ w ∈ v, w.Ok)
    ⟨fun h => ⟨h.1, h.2.1, h.2.2⟩, fun h => ⟨h.pair, h.key, h.value⟩⟩

theorem WrittenPair.Ok.key_ok {p : WrittenPair} (h : p.Ok) : p.key.Ok :=
  ⟨h.key, fun c hc => isValueChar_of_isKeyChar c (h.pair.1.chars c hc)⟩

theorem WrittenPair.Ok.value_ok {p : WrittenPair} (h : p.Ok) {v : Written} (hv : p.value = some v) :
    v.Ok :=
  ⟨h.value v hv, h.pair.2 v.text (by rw [WrittenPair.pair, hv]; rfl)⟩

theorem WrittenPair.Ok.decodes {p : WrittenPair} (h : p.Ok) :
    DecodesTo p.raw (renderPair p.pair) := by
  have hk := h.key_ok.decodes
  obtain ⟨k, o⟩ := p
  cases o with
  | none => exact hk
  | some v =>
    have hv := (h.value_ok rfl).decodes
    exact hk.append (decodesTo_equals.append hv)

theorem WrittenPair.Ok.sent {p : WrittenPair} (h : p.Ok) : IsUri p.raw := by
  have hk := h.key_ok.sent
  obtain ⟨k, o⟩ := p
  cases o with
  | none => exact hk
  | some v =>
    have hv := (h.value_ok rfl).sent
    have hassign : IsUri [ch '='] := List.forall_mem_singleton.mpr (by decide)
    exact hk.append (hassign.append hv)

/-! ## The uri -/

/-- The keys the server looks up. -/
def parameterNames : List Bytes :=
  [bytes "bbox", bytes "layers", bytes "srs", bytes "width", bytes "height", bytes "format"]

/-- The key of a pair as it is looked up. -/
def lookupKey (p : PairType) : Bytes := toLowerCopy p.1

def isParameter (p : PairType) : Bool := parameterNames.contains (lookupKey p)

/-- One way to write `params` as a uri: a path, and pairs of which those of `parameterNames`
    are `params` in some order, in some letter case of the keys. -/
structure UriText (params : List (Bytes × Bytes)) where
  path : Bytes
  pairs : List WrittenPair
  path_first : path.head? = some (ch '/')
  path_byte : ∀ b ∈ path, b ≠ ch '?' ∧ b ≠ ch '%' ∧ b ≠ ch '+' ∧ b ≠ ch ' ' ∧ ¬ IsControl b
  pair_ok : ∀ p ∈ pairs, p.Ok
  params_perm : (((pairs.map WrittenPair.pair).filter isParameter).map fun p =>
    (lookupKey p, p.2)).Perm (params.map fun e => (e.1, some e.2))

variable {params : List (Bytes × Bytes)}

/-- The text of the pairs as the client means them. -/
def UriText.query (u : UriText params) : Bytes :=
  [ch '&'].intercalate (u.pairs.map fun p => renderPair p.pair)

/-- The bytes of the uri. -/
def UriText.render (u : UriText params) : Bytes :=
  u.path ++ ch '?' :: [ch '&'].intercalate (u.pairs.map WrittenPair.raw)

theorem decodesTo_of_plain {s : Bytes} (h : ∀ b ∈ s, b ≠ ch '%' ∧ b ≠ ch '+') :
    DecodesTo s s := by
  induction s with
  | nil => exact .nil
  | cons b s ih =>
    obtain ⟨hb, hplus⟩ := h b List.mem_cons_self
    exact (DecodesTo.byte hb hplus).append (ih fun c hc => h c (List.mem_cons_of_mem b hc))

/-- **The uri is decoded to its path and the pairs that are meant.** -/
theorem UriText.decodes (u : UriText params) :
    DecodesTo u.render (u.path ++ ch '?' :: u.query) := by
  have hpath : DecodesTo u.path u.path :=
    decodesTo_of_plain fun b hb => ⟨(u.path_byte b hb).2.1, (u.path_byte b hb).2.2.1⟩
  have hquery := DecodesTo.intercalate decodesTo_ampersand fun p hp => (u.pair_ok p hp).decodes
  exact hpath.append (decodesTo_question.append hquery)

/-- The uri can be sent in a request line. -/
theorem UriText.sent (u : UriText params) : IsUri u.render := by
  have hpath : IsUri u.path := fun b hb => (u.path_byte b hb).2.2.2
  have hquestion : IsUri [ch '?'] := List.forall_mem_singleton.mpr (by decide)
  have hpairs : IsUri ([ch '&'].intercalate (u.pairs.map WrittenPair.raw)) := by
    refine forall_mem_intercalate (by decide) fun r hr => ?_
    obtain ⟨p, hp, rfl⟩ := List.mem_map.mp hr
    exact (u.pair_ok p hp).sent
  exact hpath.append (hquestion.append hpairs)

/-- The query of the decoded uri. -/
theorem UriText.queryOf_eq (u : UriText params) :
    queryOf (u.path ++ ch '?' :: u.query) = u.query :=
  (split_append (fun hm => (u.path_byte _ hm).1 rfl) u.query).2

/-! ## Lookup -/

/-- In a list without two entries of one key every entry is found. -/
theorem lookup_of_mem {l : List (Bytes × Bytes)} (hnd : (l.map Prod.fst).Nodup)
    {e : Bytes × Bytes} (he : e ∈ l) : l.lookup e.1 = some e.2 := by
  obtain ⟨l₁, l₂, rfl⟩ := List.append_of_mem he
  refine List.lookup_eq_some_iff.mpr ⟨l₁, l₂, rfl, ?_⟩
  intro a ha
  rw [List.map_append, List.map_cons] at hnd
  have hdis := (List.nodup_append.mp hnd).2.2 a.1 (List.mem_map_of_mem ha) e.1 List.mem_cons_self
  simpa using fun h : e.1 = a.1 => hdis h.symm

theorem UriText.isPair (u : UriText params) : ∀ p ∈ u.pairs.map WrittenPair.pair, IsPair p := by
  intro p hp
  obtain ⟨q, hq, rfl⟩ := List.mem_map.mp hp
  exact (u.pair_ok q hq).pair

/-- What a pair gives for a parameter is what `params` has for it. -/
theorem UriText.lookup_of_valueFor (u : UriText params) (hnd : (params.map Prod.fst).Nodup)
    (hlow : ∀ e ∈ params, toLowerCopy e.2 = e.2) {key v : Bytes} (hkey : key ∈ parameterNames)
    {p : PairType} (hp : p ∈ u.pairs.map WrittenPair.pair) (hv : valueFor key p = some v) :
    params.lookup key = some v := by
  rw [valueFor_eq (u.isPair p hp)] at hv
  split at hv
  · rename_i hk
    change lookupKey p = key at hk
    have hfilter : p ∈ (u.pairs.map WrittenPair.pair).filter isParameter := by
      refine List.mem_filter.mpr ⟨hp, ?_⟩
      rw [isParameter, hk]
      simpa using hkey
    have hmem := u.params_perm.mem_iff.mp (List.mem_map_of_mem hfilter)
    obtain ⟨e, he, heq⟩ := List.mem_map.mp hmem
    obtain ⟨h1, h2⟩ := Prod.mk.inj heq
    rw [← h2, Option.map_some, hlow e he] at hv
    rw [← hk, ← h1, lookup_of_mem hnd he, ← hv]
  · cases hv

/-- Every entry of `params` is given by a pair. -/
theorem UriText.valueFor_of_lookup (u : UriText params)
    (hlow : ∀ e ∈ params, toLowerCopy e.2 = e.2) {key v : Bytes}
    (hv : params.lookup key = some v) :
    ∃ p ∈ u.pairs.map WrittenPair.pair, valueFor key p = some v := by
  have he : (key, v) ∈ params := by
    obtain ⟨l, l', rfl, _⟩ := List.lookup_eq_some_iff.mp hv
    simp
  obtain ⟨p, hp, heq⟩ := List.mem_map.mp (u.params_perm.mem_iff.mpr (List.mem_map_of_mem he))
  have hp := (List.mem_filter.mp hp).1
  obtain ⟨h1, h2⟩ := Prod.mk.inj heq
  change toLowerCopy p.1 = key at h1
  refine ⟨p, hp, ?_⟩
  rw [valueFor_eq (u.isPair p hp), if_pos h1, h2, Option.map_some, hlow _ he]

/-- **The query stores exactly `params`**, when their keys are distinct and their values have no
    upper-case letters. -/
theorem UriText.find_eq (u : UriText params) (hne : params ≠ [])
    (hnd : (params.map Prod.fst).Nodup) (hlow : ∀ e ∈ params, toLowerCopy e.2 = e.2)
    {key : Bytes} (hkey : key ∈ parameterNames) :
    (wmsQuery u.query).find key = params.lookup key := by
  have hpairs_ne : u.pairs.map WrittenPair.pair ≠ [] := by
    intro hnil
    have := u.params_perm
    rw [hnil] at this
    exact hne (List.map_eq_nil_iff.mp this.nil_eq.symm)
  have hquery : u.query = [ch '&'].intercalate ((u.pairs.map WrittenPair.pair).map renderPair) := by
    rw [List.map_map]
    rfl
  rw [hquery, find_wmsQuery_render hpairs_ne u.isPair]
  rcases h : (u.pairs.map WrittenPair.pair).findSome? (valueFor key) with _ | v
  · rcases hl : params.lookup key with _ | v
    · rfl
    · obtain ⟨p, hp, hv⟩ := u.valueFor_of_lookup hlow hl
      rw [List.findSome?_eq_none_iff.mp h p hp] at hv
      cases hv
  · obtain ⟨p, hp, hv⟩ := List.exists_of_findSome?_eq_some h
    exact (u.lookup_of_valueFor hnd hlow hkey hp hv).symm

end PaleoServer
