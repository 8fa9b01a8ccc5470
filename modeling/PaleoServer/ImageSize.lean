/-
  The size of an image.

  The size is read as an `int`, assigned to an `unsigned` and only then compared with 0, so the
  comparison `w <= 0` is `w == 0`: a negative number is taken for one above 2^31. So the guard
  refuses a size with a 0 in it and admits the others (`size_guard_iff`).
-/
import PaleoServer.RequestParams

namespace PaleoServer

variable {M : Mapnik}

/-- What the guard is for, when `w` and `h` are asked for: the image is created when both are
    positive, with just these dimensions; otherwise the reply says so and the map is left as
    it is. -/
structure SizeGuard (M : Mapnik) (req : Request) (w h : Int) : Prop where
  created_iff : (∃ g, readGetMap M req = .ok g) ↔ 0 < w ∧ 0 < h
  dimensions : ∀ g, readGetMap M req = .ok g → (g.w.toNat : Int) = w ∧ (g.h.toNat : Int) = h
  refused : (¬ ∃ g, readGetMap M req = .ok g) → ∀ m : M.Map, ∃ w' h' : UInt32,
    (handleRequest M req).run m =
      (replyHtml (sizeError "width and height must be > 0." w' h'), m)

/-- The width and the height of a request are decimal integers, and fit in an `int`. -/
structure HasSize (req : Request) (w h : Int) : Prop where
  width : ∃ t, (queryParams req).find (bytes "width") = some t ∧ DecimalInt t w
  height : ∃ t, (queryParams req).find (bytes "height") = some t ∧ DecimalInt t h
  width_range : -2 ^ 31 ≤ w ∧ w < 2 ^ 31
  height_range : -2 ^ 31 ≤ h ∧ h < 2 ^ 31

/-- An `int` as the `unsigned` it is assigned to. -/
def asUnsigned (i : Int) : UInt32 := (Int32.ofInt i).toUInt32

theorem HasSize.read {req : Request} {w h : Int} (hsize : HasSize req w h) :
    getWidth (queryParams req) = some (asUnsigned w) ∧
      getHeight (queryParams req) = some (asUnsigned h) := by
  obtain ⟨⟨tw, hw, hwint⟩, ⟨th, hh, hhint⟩, hwr, hhr⟩ := hsize
  constructor
  · rw [getWidth, hw, Option.map_some, atoi_decimalInt hwint hwr.1 hwr.2, asUnsigned]
  · rw [getHeight, hh, Option.map_some, atoi_decimalInt hhint hhr.1 hhr.2, asUnsigned]

/-- Only 0 is 0 as an `unsigned`. -/
theorem asUnsigned_eq_zero {i : Int} (hlo : -2 ^ 31 ≤ i) (hhi : i < 2 ^ 31) :
    asUnsigned i = 0 ↔ i = 0 := by
  have hval := toNat_toUInt32_ofInt i
  rw [← UInt32.toNat_inj, asUnsigned, hval]
  show (i % 2 ^ 32).toNat = 0 ↔ i = 0
  omega

/-- A number that is not negative stays what it is. -/
theorem toNat_asUnsigned {i : Int} (hlo : 0 ≤ i) (hhi : i < 2 ^ 31) :
    ((asUnsigned i).toNat : Int) = i := by
  rw [asUnsigned, toNat_toUInt32_ofInt]
  omega

/-- A 0 is refused. -/
theorem readGetMap_of_zero {req : Request} {bbox : M.Envelope} {layerString srs : Bytes}
    (hreq : Carries M req bbox layerString srs) {w h : Int} (hsize : HasSize req w h)
    (hzero : w = 0 ∨ h = 0) : readGetMap M req =
      .error (replyHtml (sizeError "width and height must be > 0." (asUnsigned w)
        (asUnsigned h))) := by
  have hread := hreq.readGetMap_eq hsize.read.1 hsize.read.2
  have hw := asUnsigned_eq_zero hsize.width_range.1 hsize.width_range.2
  have hh := asUnsigned_eq_zero hsize.height_range.1 hsize.height_range.2
  rw [hread, if_pos]
  rwa [hw, hh]

/-- Anything else is admitted, negative numbers too. -/
theorem readGetMap_of_nonzero {req : Request} {bbox : M.Envelope} {layerString srs : Bytes}
    (hreq : Carries M req bbox layerString srs) {w h : Int} (hsize : HasSize req w h)
    (hzero : ¬ (w = 0 ∨ h = 0)) : readGetMap M req =
      .ok ⟨queryParams req, bbox, asUnsigned w, asUnsigned h, layerString, srs⟩ := by
  have hread := hreq.readGetMap_eq hsize.read.1 hsize.read.2
  have hw := asUnsigned_eq_zero hsize.width_range.1 hsize.width_range.2
  have hh := asUnsigned_eq_zero hsize.height_range.1 hsize.height_range.2
  rw [hread, if_neg]
  rwa [hw, hh]

/-- **The size guard does its work exactly when no dimension is negative or one of them is 0.** -/
theorem size_guard_iff {req : Request} {bbox : M.Envelope} {layerString srs : Bytes}
    (hreq : Carries M req bbox layerString srs) {w h : Int} (hsize : HasSize req w h) :
    SizeGuard M req w h ↔ w = 0 ∨ h = 0 ∨ (0 < w ∧ 0 < h) := by
  by_cases hzero : w = 0 ∨ h = 0
  · have hread := readGetMap_of_zero hreq hsize hzero
    have hnone : ¬ ∃ g, readGetMap M req = .ok g := by
      rintro ⟨g, hg⟩
      rw [hread] at hg
      cases hg
    refine ⟨fun _ => by omega, fun _ => ⟨?_, fun g hg => absurd ⟨g, hg⟩ hnone, fun _ m => ?_⟩⟩
    · exact ⟨fun hg => absurd hg hnone, fun hpos => by omega⟩
    · refine ⟨asUnsigned w, asUnsigned h, ?_⟩
      rw [run_handleRequest, hread]
  · have hread := readGetMap_of_nonzero hreq hsize hzero
    constructor
    · intro hguard
      have hpos := hguard.created_iff.mp ⟨_, hread⟩
      omega
    · intro hcond
      have hpos : 0 < w ∧ 0 < h := by omega
      refine ⟨⟨fun _ => hpos, fun _ => ⟨_, hread⟩⟩, ?_, fun hnone => absurd ⟨_, hread⟩ hnone⟩
      intro g hg
      rw [hread] at hg
      cases hg
      exact ⟨toNat_asUnsigned (by omega) hsize.width_range.2,
        toNat_asUnsigned (by omega) hsize.height_range.2⟩

/-! ## Sizes to try -/

/-- A request for an image of this width and height 5. -/
def widthRequest (width : Bytes) : Request := sizedRequest width (bytes "5") []

theorem isValue_five : IsValue (bytes "5") := by
  decide +kernel

theorem carries_widthRequest {width : Bytes} (hw : IsValue width) :
    Carries Mapnik.sample (widthRequest width) (0, 0, 1, 1) (bytes "roads") (bytes "x") :=
  carries_sizedRequest hw isValue_five (List.forall_mem_nil IsPair)

theorem hasSize_widthRequest {width : Bytes} (hw : IsValue width)
    (hlow : toLowerCopy width = width) {w : Int} (hint : DecimalInt width w)
    (hlo : -2 ^ 31 ≤ w) (hhi : w < 2 ^ 31) : HasSize (widthRequest width) w 5 := by
  have hfind := find_sizedRequest hw isValue_five (List.forall_mem_nil IsPair)
  have hfive : DecimalInt (bytes "5") 5 := ⟨bytes "5", by decide, by decide +kernel, .inl ⟨rfl, rfl⟩⟩
  refine ⟨⟨width, ?_, hint⟩, ⟨bytes "5", ?_, hfive⟩, ⟨hlo, hhi⟩, by decide⟩
  · have hfirst : firstValue (bytes "width") (sizedPairs width (bytes "5") []) =
        some (toLowerCopy width) := rfl
    rw [widthRequest, hfind, hfirst, hlow]
  · rw [widthRequest, hfind]
    rfl

/-- The width 0 is refused. -/
theorem size_guard_iff_sample : SizeGuard Mapnik.sample (widthRequest (bytes "0")) 0 5 := by
  have hvalue : IsValue (bytes "0") := by decide +kernel
  have hzero : DecimalInt (bytes "0") 0 := ⟨bytes "0", by decide, by decide +kernel, .inl ⟨rfl, rfl⟩⟩
  have hsize := hasSize_widthRequest hvalue (by decide) hzero (by decide) (by decide)
  exact (size_guard_iff (carries_widthRequest hvalue) hsize).mpr (.inl rfl)

/-- The width -5 is admitted. -/
theorem negative_width_admitted : ¬ ∀ (M : Mapnik) (req : Request) (bbox : M.Envelope)
    (layerString srs : Bytes) (w h : Int), Carries M req bbox layerString srs →
      HasSize req w h → SizeGuard M req w h := by
  intro hall
  have hvalue : IsValue (bytes "-5") := by decide +kernel
  have hint : DecimalInt (bytes "-5") (-5) :=
    ⟨bytes "5", by decide, by decide +kernel, .inr ⟨by decide, rfl⟩⟩
  have hcarries := carries_widthRequest hvalue
  have hsize := hasSize_widthRequest hvalue (by decide) hint (by decide) (by decide)
  have hguard := hall _ _ _ _ _ _ _ hcarries hsize
  have hread := readGetMap_of_nonzero hcarries hsize (by decide)
  exact absurd (hguard.created_iff.mp ⟨_, hread⟩).1 (by decide)

end PaleoServer
