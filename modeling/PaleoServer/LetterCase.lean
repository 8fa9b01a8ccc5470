/-
  Letter case in a request uri.

  Lower-casing a uri changes nothing that `handle_request` looks at: a hex digit keeps its value,
  white space and the delimiters are no letters, the classes of the grammar hold both cases
  of a letter, and keys and values are lower-cased before they are stored. So two uris that
  agree but for the case of letters give what their common lower case gives.

  Proved: `letter_case_ignored`.
-/
import PaleoServer.QueryString
import PaleoServer.RequestHandler

namespace PaleoServer

open Peg

/-! ## Equal but for the case of letters -/

/-- `a` is an upper-case ASCII letter and `b` the same in lower case. -/
def LowerOf (a b : UInt8) : Prop := ch 'A' ≤ a ∧ a ≤ ch 'Z' ∧ b = a + 32

/-- One byte, or one letter in two cases. -/
def SameLetter (a b : UInt8) : Prop := a = b ∨ LowerOf a b ∨ LowerOf b a

/-- Of one length, and different at most in the case of letters. -/
def SameUpToCase (u v : Bytes) : Prop := List.Forall₂ SameLetter u v

instance : DecidableRel LowerOf := fun _ _ => inferInstanceAs (Decidable (_ ∧ _))

instance : DecidableRel SameLetter := fun _ _ => inferInstanceAs (Decidable (_ ∨ _))

instance : DecidableRel SameUpToCase := inferInstanceAs (DecidableRel (List.Forall₂ SameLetter))

theorem LowerOf.toLower_eq {a b : UInt8} (h : LowerOf a b) : toLower a = toLower b := by
  have key : ∀ a : UInt8, ch 'A' ≤ a ∧ a ≤ ch 'Z' → toLower a = toLower (a + 32) := by
    decide +kernel
  obtain ⟨hlo, hhi, rfl⟩ := h
  exact key a ⟨hlo, hhi⟩

theorem SameUpToCase.toLowerCopy_eq {u v : Bytes} (h : SameUpToCase u v) :
    toLowerCopy u = toLowerCopy v := by
  induction h with
  | nil => rfl
  | cons hab _ ih =>
    have hletter : toLower _ = toLower _ := hab.elim (congrArg toLower)
      fun h => h.elim LowerOf.toLower_eq fun h => h.toLower_eq.symm
    exact congrArg₂ List.cons hletter ih

/-! ## Bytes -/

@[simp] theorem toLower_toLower : ∀ b : UInt8, toLower (toLower b) = toLower b := by
  decide +kernel

@[simp] theorem hexValue_toLower : ∀ b : UInt8, hexValue (toLower b) = hexValue b := by
  decide +kernel

theorem toLower_classes : ∀ b : UInt8, isSpace (toLower b) = isSpace b ∧
    isKeyStart (toLower b) = isKeyStart b ∧ isKeyChar (toLower b) = isKeyChar b ∧
    isValueChar (toLower b) = isValueChar b := by
  decide +kernel

/-- A byte that is no letter is the lower case of itself only. -/
theorem toLower_eq_iff : ∀ c ∈ bytes "%+?&=-0", ∀ b : UInt8, toLower b = c ↔ b = c := by
  decide +kernel

theorem toLower_eq_x : ∀ b : UInt8,
    (toLower b = ch 'x' ∨ toLower b = ch 'X') ↔ (b = ch 'x' ∨ b = ch 'X') := by
  decide +kernel

theorem dropWhile_toLowerCopy {p : UInt8 → Bool} (hp : ∀ b, p (toLower b) = p b) (s : Bytes) :
    (toLowerCopy s).dropWhile p = toLowerCopy (s.dropWhile p) := by
  have hcomp : p ∘ toLower = p := funext hp
  unfold toLowerCopy
  rw [List.dropWhile_map, hcomp]

theorem toLowerCopy_idem (s : Bytes) : toLowerCopy (toLowerCopy s) = toLowerCopy s := by
  simp [toLowerCopy]

theorem trimCopy_toLowerCopy (s : Bytes) : trimCopy (toLowerCopy s) = toLowerCopy (trimCopy s) := by
  have hspace : ∀ b, isSpace (toLower b) = isSpace b := fun b => (toLower_classes b).1
  have hreverse : ∀ t : Bytes, (toLowerCopy t).reverse = toLowerCopy t.reverse := fun t =>
    List.map_reverse.symm
  unfold trimCopy
  rw [dropWhile_toLowerCopy hspace, hreverse, dropWhile_toLowerCopy hspace, hreverse]

/-! ## `url_decode` -/

theorem hexDigits_toLowerCopy (acc : Option Nat) (s : Bytes) :
    hexDigits acc (toLowerCopy s) = hexDigits acc s := by
  induction s generalizing acc with
  | nil => rfl
  | cons b s ih =>
    rw [toLowerCopy, List.map_cons, hexDigits, hexDigits, hexValue_toLower]
    cases hexValue b with
    | none => rfl
    | some d => exact ih _

theorem hexNumber_toLowerCopy (s : Bytes) : hexNumber (toLowerCopy s) = hexNumber s := by
  rcases s with _ | ⟨z, _ | ⟨x, bs⟩⟩
  · rfl
  · exact hexDigits_toLowerCopy none [z]
  · have hz := toLower_eq_iff (ch '0') (by decide) z
    have hdigits := hexDigits_toLowerCopy none (z :: x :: bs)
    have hrest := hexDigits_toLowerCopy none bs
    simp only [toLowerCopy, List.map_cons] at hdigits hrest ⊢
    simp only [hexNumber, hz, toLower_eq_x, hdigits, hrest]

/-- The digits of an escape may be of either case. -/
theorem extractHex_toLowerCopy (s : Bytes) : extractHex (toLowerCopy s) = extractHex s := by
  unfold extractHex
  rw [dropWhile_toLowerCopy fun b => (toLower_classes b).1]
  rcases s.dropWhile isSpace with _ | ⟨b, bs⟩
  · rfl
  · have hminus := toLower_eq_iff (ch '-') (by decide) b
    have hplus := toLower_eq_iff (ch '+') (by decide) b
    have hrest := hexNumber_toLowerCopy bs
    have hall := hexNumber_toLowerCopy (b :: bs)
    simp only [toLowerCopy, List.map_cons] at hrest hall ⊢
    simp only [hminus, hplus, hrest, hall]

/-- Lower case is decoded to the same but for the case of letters, and accepted alike. -/
theorem urlDecodeLoop_toLowerCopy (out out' s : Bytes) (hout : toLowerCopy out' = toLowerCopy out) :
    (urlDecodeLoop out' (toLowerCopy s)).1 = (urlDecodeLoop out s).1 ∧
    toLowerCopy (urlDecodeLoop out' (toLowerCopy s)).2 = toLowerCopy (urlDecodeLoop out s).2 := by
  have hpercent : toLower (ch '%') = ch '%' := by decide
  fun_induction urlDecodeLoop out s generalizing out' with
  | case1 out => exact ⟨rfl, hout⟩
  | case2 out a b rest value hv ih =>
    have hlow := extractHex_toLowerCopy [a, b]
    simp only [toLowerCopy, List.map_cons, List.map_nil] at hlow
    rw [toLowerCopy, List.map_cons, List.map_cons, List.map_cons, hpercent, urlDecodeLoop_escape,
      hlow, hv]
    exact ih _ (by rw [toLowerCopy_append, toLowerCopy_append, hout])
  | case3 out a b rest hv =>
    have hlow := extractHex_toLowerCopy [a, b]
    simp only [toLowerCopy, List.map_cons, List.map_nil] at hlow
    rw [toLowerCopy, List.map_cons, List.map_cons, List.map_cons, hpercent, urlDecodeLoop_escape,
      hlow, hv]
    exact ⟨rfl, hout⟩
  | case4 out rest hne =>
    rw [toLowerCopy, List.map_cons, hpercent]
    rcases rest with _ | ⟨a, _ | ⟨b, rest⟩⟩
    · exact ⟨rfl, hout⟩
    · exact ⟨rfl, hout⟩
    · exact absurd rfl (hne a b rest)
  | case5 out rest hne ih =>
    have hplus : toLower (ch '+') = ch '+' := by decide
    rw [toLowerCopy, List.map_cons, hplus, urlDecodeLoop_cons hne, if_pos rfl]
    exact ih _ (by rw [toLowerCopy_append, toLowerCopy_append, hout])
  | case6 out c rest hp hplus ih =>
    have hp' : toLower c ≠ ch '%' := fun h => hp ((toLower_eq_iff _ (by decide) c).mp h)
    have hplus' : toLower c ≠ ch '+' := fun h => hplus ((toLower_eq_iff _ (by decide) c).mp h)
    rw [toLowerCopy, List.map_cons, urlDecodeLoop_cons hp', if_neg hplus']
    exact ih _ (by rw [toLowerCopy_append, toLowerCopy_append, hout]; simp [toLowerCopy])

/-! ## The query -/

theorem queryOf_toLowerCopy (path : Bytes) : queryOf (toLowerCopy path) = toLowerCopy (queryOf path) := by
  have hquestion : ∀ b, decide (toLower b ≠ ch '?') = decide (b ≠ ch '?') := by
    intro b
    exact decide_eq_decide.mpr (not_congr (toLower_eq_iff _ (by decide) b))
  unfold queryOf
  rw [dropWhile_toLowerCopy hquestion]
  exact List.map_drop.symm

/-- A pair in lower case. -/
def lowerPair : PairType → PairType := Prod.map toLowerCopy (Option.map toLowerCopy)

theorem respects_key : Respects toLower toLowerCopy Grammar.key :=
  ((respects_charClass fun b => (toLower_classes b).2.1).seq
    (respects_charClass fun b => (toLower_classes b).2.2.1).star).map fun _ => rfl

theorem respects_assign : Respects toLower toLowerCopy Grammar.assign := by
  have hvalue : Respects toLower toLowerCopy Grammar.value :=
    (respects_charClass fun b => (toLower_classes b).2.2.2).plus
  refine ((respects_lit (toLower_eq_iff _ (by decide))).seq hvalue.opt).map fun r => ?_
  obtain ⟨_, o⟩ := r
  cases o <;> rfl

/-- The grammar reads pairs whatever the case of their letters. -/
theorem respects_query : Respects toLower (List.map lowerPair) Grammar.query :=
  (respects_key.seq respects_assign.opt).sepBy (toLower_eq_iff _ (by decide))

theorem insertPair_lowerPair (m : Params) (p : PairType) :
    insertPair m (lowerPair p) = insertPair m p := by
  obtain ⟨k, o⟩ := p
  cases o with
  | none => rfl
  | some v =>
    show m.insert (toLowerCopy (trimCopy (toLowerCopy k))) (toLowerCopy (trimCopy (toLowerCopy v)))
      = _
    rw [trimCopy_toLowerCopy, trimCopy_toLowerCopy, toLowerCopy_idem, toLowerCopy_idem]
    rfl

/-- **`wms_query` holds the same `params_`** for a query and its lower case. -/
theorem wmsQuery_toLowerCopy (q : Bytes) : wmsQuery (toLowerCopy q) = wmsQuery q := by
  unfold wmsQuery WmsQuery.create
  rw [toLowerCopy, respects_query q]
  rcases Grammar.query q with _ | ⟨ps, r⟩
  · rfl
  · simp only [Option.map_some, List.foldl_map, insertPair_lowerPair]

/-! ## The request -/

theorem readGetMap_of_undecoded {M : Mapnik} {req : Request} (h : (urlDecode req.uri []).1 = false) :
    readGetMap M req = .error (stockReply .badRequest) := by
  rcases hd : urlDecode req.uri [] with ⟨ok, path⟩
  rw [hd] at h
  cases h
  simp only [readGetMap, hd]
  rfl

/-- **Letter case never matters in a request uri.** Of two uris that differ only in the case of
    letters `url_decode` accepts both or neither, the queries hold the same parameters, and
    requests for them get the same reply and leave the map in the same state. -/
theorem letter_case_ignored {req req' : Request} (h : SameUpToCase req.uri req'.uri) :
    (∀ out out', (urlDecode req'.uri out').1 = (urlDecode req.uri out).1) ∧
    (∀ out out', wmsQuery (queryOf (urlDecode req'.uri out').2) =
      wmsQuery (queryOf (urlDecode req.uri out).2)) ∧
    ∀ (M : Mapnik) (m : M.Map), (handleRequest M req').run m = (handleRequest M req).run m := by
  obtain ⟨haccept, hdecoded⟩ := urlDecodeLoop_toLowerCopy [] [] req.uri rfl
  obtain ⟨haccept', hdecoded'⟩ := urlDecodeLoop_toLowerCopy [] [] req'.uri rfl
  rw [h.toLowerCopy_eq] at haccept hdecoded
  have hsame : (urlDecode req'.uri []).1 = (urlDecode req.uri []).1 := haccept'.symm.trans haccept
  have hquery : toLowerCopy (queryOf (urlDecode req'.uri []).2) =
      toLowerCopy (queryOf (urlDecode req.uri []).2) := by
    rw [← queryOf_toLowerCopy, ← queryOf_toLowerCopy]
    exact congrArg queryOf (hdecoded'.symm.trans hdecoded)
  have hparams : wmsQuery (queryOf (urlDecode req'.uri []).2) =
      wmsQuery (queryOf (urlDecode req.uri []).2) := by
    rw [← wmsQuery_toLowerCopy, hquery, wmsQuery_toLowerCopy]
  refine ⟨fun _ _ => hsame, fun _ _ => hparams, fun M m => ?_⟩
  rcases hd : urlDecode req.uri [] with ⟨ok, path⟩
  rcases hd' : urlDecode req'.uri [] with ⟨ok', path'⟩
  rw [hd, hd'] at hsame hquery hparams
  cases hsame
  cases ok with
  | false =>
    have hreject : readGetMap M req = _ := readGetMap_of_undecoded (by rw [hd])
    have hreject' : readGetMap M req' = _ := readGetMap_of_undecoded (by rw [hd'])
    rw [run_handleRequest, run_handleRequest, hreject, hreject']
  | true =>
    refine run_eq_of_find hd hd' ?_ (fun key => by rw [hparams]) m
    simpa [toLowerCopy] using congrArg List.isEmpty hquery

/-- A request for an image, with letters of the path, of keys, of values and of a hex digit
    changed. -/
theorem letter_case_ignored_sample :
    let req := { Request.empty with
      uri := bytes "/wms?bbox=0,0,1,1&Width=1&height=1&layers=Roads&Srs=epsg%3A1" }
    let req' := { Request.empty with
      uri := bytes "/WMS?BBox=0,0,1,1&width=1&HEIGHT=1&LAYERS=rOADS&sRs=EPSG%3a1" }
    (handleRequest Mapnik.sample req').run sampleMap =
        (handleRequest Mapnik.sample req).run sampleMap ∧
      ((handleRequest Mapnik.sample req').run sampleMap).1.content = bytes "roads" := by
  intro req req'
  have hsame : SameUpToCase req.uri req'.uri := by decide +kernel
  exact ⟨(letter_case_ignored hsame).2.2 Mapnik.sample sampleMap, by decide +kernel⟩

end PaleoServer
