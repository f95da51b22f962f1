import HaarDetection.Search.Detector
import HaarDetection.Proofs.Search.Rescaling

/-!
# The windows of a search

At every scale of a search the window has room in the image, and the grid of its positions reaches
up to the right and bottom borders.

* `gridTo_eq_filter`: the grid has all multiples of a step up to the last position.
* `mem_windows`, `position?_gridWindow`: **the windows of a scale, and their positions.**
* `Detector.visited_of_mem_scales`: **what is known of a scale that is searched.**
-/

namespace HaarDetection

variable {last step n : ℕ}

theorem mem_gridTo (hs : 0 < step) : n ∈ gridTo last step ↔ step ∣ n ∧ n ≤ last := by
  simp only [gridTo, List.mem_map, List.mem_range, Nat.lt_succ_iff]
  constructor
  · rintro ⟨k, hk, rfl⟩
    exact ⟨Nat.dvd_mul_left _ _, (Nat.le_div_iff_mul_le hs).1 hk⟩
  · rintro ⟨⟨k, rfl⟩, hle⟩
    exact ⟨k, (Nat.le_div_iff_mul_le hs).2 (by rwa [Nat.mul_comm]), Nat.mul_comm _ _⟩

/-- **The grid has all multiples of the step** up to the last position, in order. -/
theorem gridTo_eq_filter (hs : 0 < step) :
    gridTo last step = (List.range (last + 1)).filter (step ∣ ·) := by
  -- both lists ascend, so it is enough that they have the same members
  refine List.Pairwise.eq_of_mem_iff (r := (· < ·)) ?_ ?_ ?_
  · refine List.Pairwise.map _ ?_ List.pairwise_lt_range
    intro a b hab
    exact Nat.mul_lt_mul_of_pos_right hab hs
  · exact List.pairwise_lt_range.filter _
  · intro n
    rw [mem_gridTo hs, List.mem_filter, List.mem_range, Nat.lt_succ_iff, decide_eq_true_iff, and_comm]

theorem stepAt_pos (ratio scale : Float32) : 0 < stepAt ratio scale := Nat.le_max_left _ _

/-- The window of a size at a position. -/
def gridWindow (window : Size) (x y : ℕ) : Rect := ⟨.ofNat x, .ofNat y, window.width, window.height⟩

/-- The windows of a scale, row by row. -/
def windows (image window : Size) (step : ℕ) : List Rect := (windowRows image window step).flatten

theorem windows_eq (image window : Size) (step : ℕ) :
    windows image window step =
      (gridTo (image.height.toNat - window.height.toNat) step).flatMap fun y =>
        (gridTo (image.width.toNat - window.width.toNat) step).map fun x => gridWindow window x y :=
  rfl

/-- **The windows of a scale** are those on the grid. -/
theorem mem_windows {image window : Size} (hs : 0 < step) (hfit : image.Fits window) {w : Rect} :
    w ∈ windows image window step ↔
      ∃ x y, step ∣ x ∧ step ∣ y ∧ x + window.width.toNat ≤ image.width.toNat ∧
        y + window.height.toNat ≤ image.height.toNat ∧ w = gridWindow window x y := by
  have hw := UInt32.le_iff_toNat_le.1 hfit.1
  have hh := UInt32.le_iff_toNat_le.1 hfit.2
  simp only [windows_eq, List.mem_flatMap, List.mem_map, mem_gridTo hs]
  constructor
  · rintro ⟨y, ⟨hy, hy'⟩, x, ⟨hx, hx'⟩, rfl⟩
    exact ⟨x, y, hx, hy, by omega, by omega, rfl⟩
  · rintro ⟨x, y, hx, hy, hx', hy', rfl⟩
    exact ⟨y, ⟨hy, by omega⟩, x, ⟨hx, by omega⟩, rfl⟩

/-- An image with fewer than `2 ^ 31` pixels a side. -/
def Size.Small (s : Size) : Prop := s.width.toNat < 2 ^ 31 ∧ s.height.toNat < 2 ^ 31

section GridWindow

variable {image window : Size} (hi : image.Small) {x y : ℕ}
include hi

theorem gridWindow_left (hx : x + window.width.toNat ≤ image.width.toNat) :
    (gridWindow window x y).left = x :=
  Int32.toInt_ofNat_of_lt (by have := hi.1; omega)

theorem gridWindow_top (hy : y + window.height.toNat ≤ image.height.toNat) :
    (gridWindow window x y).top = y :=
  Int32.toInt_ofNat_of_lt (by have := hi.2; omega)

theorem gridWindow_inImage (hx : x + window.width.toNat ≤ image.width.toNat)
    (hy : y + window.height.toNat ≤ image.height.toNat) :
    (gridWindow window x y).InImage image := by
  have hl := gridWindow_left (y := y) hi hx
  have ht := gridWindow_top (x := x) hi hy
  have hr : (gridWindow window x y).right = x + window.width.toNat := by rw [Rect.right, hl]; rfl
  have hb : (gridWindow window x y).bottom = y + window.height.toNat := by rw [Rect.bottom, ht]; rfl
  exact ⟨by omega, by omega, by omega, by omega⟩

end GridWindow

/-- **The position of a window on the grid.** -/
theorem Classifier.position?_gridWindow {α : Type} [Scalar α] {c : Classifier α} {image : Size}
    (hi : image.Small) {x y : ℕ} (hx : x + c.windowSize.width.toNat ≤ image.width.toNat)
    (hy : y + c.windowSize.height.toNat ≤ image.height.toNat) :
    c.position? image (gridWindow c.windowSize x y) = some (x, y) := by
  obtain ⟨hl, ht, hr, hb⟩ := gridWindow_inImage hi hx hy
  have hx' : (gridWindow c.windowSize x y).left = x := gridWindow_left hi hx
  have hy' : (gridWindow c.windowSize x y).top = y := gridWindow_top hi hy
  unfold position?
  rw [if_pos ⟨hl, ht, hr, hb, Size.Fits.refl _⟩, hx', hy']
  rfl

namespace Schedule

theorem admits_of_mem_takeFrom {s : Schedule} {limit : ℕ} {scale : Float32} {found : List Float32}
    (hf : ∀ t ∈ found, s.admits t) : ∀ t ∈ s.takeFrom limit scale found, s.admits t := by
  induction limit generalizing scale found with
  | zero => simpa [takeFrom] using hf
  | succ limit ih =>
    simp only [takeFrom]
    split
    · rename_i ha
      refine ih ?_
      intro t ht
      rcases List.mem_cons.1 ht with rfl | ht
      · exact ha
      · exact hf t ht
    · simpa using hf

theorem admits_of_mem_scales {s : Schedule} {scale : Float32} (h : scale ∈ s.scales) :
    s.max.Fits (s.base.scale scale) ∧ (s.base.scale scale).Fits s.min := by
  have := admits_of_mem_takeFrom (by simp) scale h
  simpa [admits] using this

end Schedule

namespace Detector

variable {d : Detector} {image : Size} {scales : List Float32} {scale : Float32}

theorem checkLimit_ok {limit : SizeLimit} {size : Option Size}
    (h : checkLimit image limit size = .ok ()) : ∀ s, size = some s → image.Fits s := by
  rintro s rfl
  simp only [checkLimit] at h
  split at h
  · assumption
  · cases h

/-- What is known of the window at a scale that is searched: it has room in the image and in the
greatest size, and room for the cascade's own window and for the least size. -/
structure Visited (window : Size) (options : Options) (image : Size) (scale : Float32) : Prop where
  image_fits : image.Fits (window.scale scale)
  fits_window : (window.scale scale).Fits window
  maxSize_fits : ∀ m, options.maxSize = some m → m.Fits (window.scale scale)
  fits_minSize : ∀ m, options.minSize = some m → (window.scale scale).Fits m

/-- The least windows of a schedule have room for that of the cascade. -/
theorem schedule_min_fits (d : Detector) (image : Size) :
    (d.schedule image).min.Fits d.classifier.cascade.window := by
  simp only [schedule]
  cases d.options.minSize with
  | none => exact Size.Fits.refl _
  | some m => exact Size.max_fits_right _ _

/-- The greatest windows of a schedule have room in the image, as both limits have. -/
theorem image_fits_max (h : d.scales image = .ok scales) : image.Fits (d.schedule image).max := by
  obtain ⟨-, -, h⟩ := ok_of_bind h
  obtain ⟨u, hmax, -⟩ := ok_of_bind h
  simp only [schedule]
  cases hm : d.options.maxSize with
  | none => exact Size.Fits.refl _
  | some m => exact checkLimit_ok hmax m hm

theorem scales_ok (h : d.scales image = .ok scales) : scales = (d.schedule image).scales := by
  obtain ⟨-, -, h⟩ := ok_of_bind h
  obtain ⟨-, -, h⟩ := ok_of_bind h
  exact (Except.ok.inj h).symm

/-- **The scales that are searched.** -/
theorem visited_of_mem_scales (h : d.scales image = .ok scales) (hs : scale ∈ scales) :
    Visited d.classifier.cascade.window d.options image scale := by
  obtain rfl := scales_ok h
  obtain ⟨hmax, hmin⟩ := Schedule.admits_of_mem_scales hs
  refine ⟨(image_fits_max h).trans hmax, hmin.trans (schedule_min_fits d image), ?_, ?_⟩
  · intro m hm
    simpa [schedule, hm] using hmax
  · intro m hm
    simp only [schedule, hm] at hmin
    exact hmin.trans (Size.max_fits_left _ _)

/-- The scale is no zero, as the window has room for that of the cascade. -/
theorem Visited.not_zero {window : Size} {options : Options} (h : Visited window options image scale)
    (hw : 0 < window.width.toNat) : ¬∃ z, scale.toModel.unpack = .zero z := by
  intro hz
  have hfit : window.width ≤ (window.scale scale).width := h.fits_window.1
  rw [Size.scale, wholePixels_mul_zero window.width hz] at hfit
  have := UInt32.le_iff_toNat_le.1 hfit
  rw [UInt32.toNat_zero] at this
  omega

/-- **The scale is a finite number above zero**, when the window and the image are as they are to
be. -/
theorem Visited.scaledWindow {window : Size} {options : Options} (h : Visited window options image scale)
    (hw : 0 < window.width.toNat ∧ 0 < window.height.toNat) (hi : image.Small) :
    ScaledWindow window scale := by
  have h1 := UInt32.le_iff_toNat_le.1 h.image_fits.1
  have h2 := UInt32.le_iff_toNat_le.1 h.image_fits.2
  have h3 := UInt32.le_iff_toNat_le.1 h.fits_window.1
  have h4 := UInt32.le_iff_toNat_le.1 h.fits_window.2
  obtain ⟨hi1, hi2⟩ := hi
  exact ⟨⟨rfl, by omega, by omega⟩, ⟨rfl, by omega, by omega⟩⟩

end Detector

end HaarDetection
