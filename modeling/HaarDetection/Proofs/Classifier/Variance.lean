import Mathlib
import HaarDetection.Proofs.Classifier.PixelSums
import HaarDetection.Proofs.Number.Exact

/-!
# The variance of a window

The deviation of a window is made of two sums over its pixels. With exact numbers it is the root of a
true variance: the number of pixels times the sum of their squares, less their squared sum, is made of
the squared differences of all pairs of pixels.

* `squaredGap`, `sum_squaredGap`: **the squared differences of all pairs.**
* `Rect.cells`, `Rect.Constant`: the positions of the pixels of a window, and a window of a single
  intensity.
* `Rect.spread_pos_iff`: **only in a window of a single intensity** all pairs are equal.
* `Classifier.variance_eq_spread`: the variance, from the pairs.
* `Scalar.exact`, `Classifier.exactDeviation`: the deviation in exact arithmetic, with any function in
  the place of the square root.
* `Classifier.deviationOn_real`: the deviation is the root of the variance.
* `Classifier.window_variance`: **the variance of a window is a true one**, and what follows for the
  deviation.
-/

namespace HaarDetection

open Finset (Ico)

section Pairs

variable {ι : Type*}

/-- The squared difference of the values of a pair. -/
def squaredGap (f : ι → ℤ) : Sym2 ι → ℤ :=
  Sym2.lift ⟨fun a b => (f a - f b) ^ 2, fun a b => by ring⟩

theorem squaredGap_mk (f : ι → ℤ) (a b : ι) : squaredGap f s(a, b) = (f a - f b) ^ 2 := rfl

theorem squaredGap_nonneg (f : ι → ℤ) (e : Sym2 ι) : 0 ≤ squaredGap f e := by
  induction e using Sym2.ind with
  | h a b => exact sq_nonneg (f a - f b)

/-- **The squared differences of all pairs**, which are not ordered, from the sums of the values and of
their squares. -/
theorem sum_squaredGap (s : Finset ι) (f : ι → ℤ) :
    ∑ e ∈ s.sym2, squaredGap f e =
      s.card * ∑ a ∈ s, f a ^ 2 - (∑ a ∈ s, f a) * ∑ a ∈ s, f a := by
  -- one more element is in a pair with itself and with all elements before
  induction s using Finset.cons_induction with
  | empty => simp
  | cons a s ha ih =>
    have hnew : ∑ b ∈ s, (f a - f b) ^ 2 =
        s.card * f a ^ 2 - 2 * f a * ∑ b ∈ s, f b + ∑ b ∈ s, f b ^ 2 := by
      have hsquare : ∀ b, (f a - f b) ^ 2 = f a ^ 2 - 2 * f a * f b + f b ^ 2 := fun b => by ring
      simp only [hsquare, Finset.sum_add_distrib, Finset.sum_sub_distrib, ← Finset.mul_sum,
        Finset.sum_const, nsmul_eq_mul]
    rw [Finset.sym2_cons, Finset.sum_disjUnion, ih, Finset.sum_map, Finset.sum_cons, Finset.sum_cons,
      Finset.sum_cons, Finset.card_cons]
    simp only [Sym2.mkEmbedding_apply, squaredGap_mk, hnew]
    push_cast
    ring

/-- **All pairs have the same values** if their squared differences add up to zero. -/
theorem sum_squaredGap_eq_zero_iff (s : Finset ι) (f : ι → ℤ) :
    ∑ e ∈ s.sym2, squaredGap f e = 0 ↔ ∀ a ∈ s, ∀ b ∈ s, f a = f b := by
  rw [Finset.sum_eq_zero_iff_of_nonneg fun e _ => squaredGap_nonneg f e]
  constructor
  · intro h a ha b hb
    have hgap := h s(a, b) (Finset.mk_mem_sym2_iff.2 ⟨ha, hb⟩)
    rw [squaredGap_mk] at hgap
    exact sub_eq_zero.1 (pow_eq_zero_iff two_ne_zero |>.1 hgap)
  · intro h e he
    induction e using Sym2.ind with
    | h a b =>
      obtain ⟨ha, hb⟩ := Finset.mk_mem_sym2_iff.1 he
      rw [squaredGap_mk, h a ha b hb, sub_self]
      rfl

end Pairs

namespace Rect

/-- The positions of the pixels of a window. -/
def cells (w : Rect) : Finset (ℕ × ℕ) :=
  Ico w.left.toNat (w.left.toNat + w.width.toNat) ×ˢ Ico w.top.toNat (w.top.toNat + w.height.toNat)

/-- **A window all pixels of which are the same.** -/
def Constant (w : Rect) (p : Pixels) : Prop := ∃ v, ∀ c ∈ w.cells, p.pixel c.1 c.2 = v

/-- **How far the pixels of a window differ:** the squared differences of all pairs of them. -/
def spread (w : Rect) (p : Pixels) : ℤ :=
  ∑ e ∈ w.cells.sym2, squaredGap (fun c => (p.pixel c.1 c.2 : ℤ)) e

variable {p : Pixels} {w : Rect}

theorem card_cells (w : Rect) : w.cells.card = w.area := by
  simp [Rect.cells, Rect.area, Rect.size, Size.pixels]

/-- A window without pixels is one of them. -/
theorem constant_of_area_eq_zero (h : w.area = 0) : w.Constant p := by
  rw [← card_cells, Finset.card_eq_zero] at h
  exact ⟨0, by simp [h]⟩

theorem constant_iff : w.Constant p ↔
    ∀ a ∈ w.cells, ∀ b ∈ w.cells, (p.pixel a.1 a.2 : ℤ) = p.pixel b.1 b.2 := by
  constructor
  · rintro ⟨v, hv⟩ a ha b hb
    rw [hv a ha, hv b hb]
  · intro h
    rcases w.cells.eq_empty_or_nonempty with hempty | ⟨a, ha⟩
    · exact ⟨0, by simp [hempty]⟩
    · exact ⟨p.pixel a.1 a.2, fun c hc => Nat.cast_injective (h c hc a ha)⟩

theorem spread_nonneg (w : Rect) (p : Pixels) : 0 ≤ w.spread p :=
  Finset.sum_nonneg fun e _ => squaredGap_nonneg _ e

theorem spread_eq_zero_iff : w.spread p = 0 ↔ w.Constant p := by
  rw [constant_iff]
  exact sum_squaredGap_eq_zero_iff _ _

/-- **Only in a window of more than one intensity** the pixels differ. -/
theorem spread_pos_iff : 0 < w.spread p ↔ ¬w.Constant p := by
  rw [← spread_eq_zero_iff]
  exact (spread_nonneg w p).lt_iff_ne'

end Rect

/-- **Exact arithmetic** with any function in the place of the square root. -/
@[reducible]
noncomputable def Scalar.exact (root : ℝ → ℝ) : Scalar ℝ :=
  { (inferInstance : Scalar ℝ) with sqrt := root }

namespace Classifier

variable {p : Pixels} {w : Rect}

theorem windowSum_sum (p : Pixels) (w : Rect) :
    windowSum .sum p w = ∑ c ∈ w.cells, (p.pixel c.1 c.2 : ℤ) := rfl

theorem windowSum_squares (p : Pixels) (w : Rect) :
    windowSum .squares p w = ∑ c ∈ w.cells, (p.pixel c.1 c.2 : ℤ) ^ 2 := rfl

/-- **The pairs of pixels of a window**, from its two sums. -/
theorem spread_eq (p : Pixels) (w : Rect) : w.spread p =
    w.area * windowSum .squares p w - windowSum .sum p w * windowSum .sum p w := by
  rw [Rect.spread, sum_squaredGap, w.card_cells, windowSum_sum, windowSum_squares]

theorem variance_real (n : ℕ) (sum squares : ℝ) :
    variance n sum squares = squares / n - sum / n * (sum / n) := by
  unfold variance
  rw [Scalar.ofNat_real]

/-- **The variance of a window**, from the pairs of its pixels. -/
theorem variance_eq_spread (harea : w.area ≠ 0) :
    variance w.area (windowSum .sum p w : ℝ) (windowSum .squares p w) =
      w.spread p / (w.area : ℝ) ^ 2 := by
  rw [variance_real, spread_eq]
  push_cast
  field_simp

/-- **A window of more than one intensity has a variance.** -/
theorem variance_pos (h : ¬w.Constant p) :
    (0 : ℝ) < variance w.area (windowSum .sum p w : ℝ) (windowSum .squares p w) := by
  have harea : w.area ≠ 0 := fun hzero => h (Rect.constant_of_area_eq_zero hzero)
  have hspread : (0 : ℝ) < w.spread p := by exact_mod_cast Rect.spread_pos_iff.2 h
  rw [variance_eq_spread harea]
  positivity

theorem variance_of_constant (h : w.Constant p) (harea : w.area ≠ 0) :
    variance w.area (windowSum .sum p w : ℝ) (windowSum .squares p w) = 0 := by
  rw [variance_eq_spread harea, Rect.spread_eq_zero_iff.2 h, Int.cast_zero, zero_div]

/-- **The deviation of a window** of more than one intensity is the root of its variance. -/
theorem deviationOn_exact (root : ℝ → ℝ) (h : ¬w.Constant p) :
    @deviationOn ℝ (.exact root) p w =
      root (variance w.area (windowSum .sum p w : ℝ) (windowSum .squares p w)) := by
  have harea : w.area ≠ 0 := fun hzero => h (Rect.constant_of_area_eq_zero hzero)
  have hlt : Scalar.lt (Scalar.zero : ℝ)
      (variance w.area (windowSum .sum p w : ℝ) (windowSum .squares p w)) = true := by
    rw [Scalar.zero_real]
    exact decide_eq_true (variance_pos h)
  unfold deviationOn deviationOf
  rw [if_neg harea]
  exact if_pos hlt

theorem deviationOn_real (h : ¬w.Constant p) :
    deviationOn ℝ p w =
      √(variance w.area (windowSum .sum p w : ℝ) (windowSum .squares p w)) :=
  deviationOn_exact Real.sqrt h

/-- The deviation of a window of a single intensity is not a root. -/
theorem deviationOn_of_constant (root : ℝ → ℝ) (h : w.Constant p) :
    @deviationOn ℝ (.exact root) p w = 1 := by
  unfold deviationOn deviationOf
  split
  · exact Int.cast_one
  · rename_i harea
    have hlt : Scalar.lt (Scalar.zero : ℝ)
        (variance w.area (windowSum .sum p w : ℝ) (windowSum .squares p w)) = false := by
      rw [variance_of_constant h harea, Scalar.zero_real]
      exact decide_eq_false (lt_irrefl 0)
    refine (if_neg ?_).trans Int.cast_one
    exact ne_true_of_eq_false hlt

/-- **The deviation of a window of an image** in exact arithmetic, where some function stands in for
the square root. -/
noncomputable def exactDeviation (root : ℝ → ℝ) (p : Pixels) (w : Rect) : Except Fault ℝ :=
  letI := Scalar.exact root
  (deviation w).resultOn ((IntegralImage.ofPixels p).source ℝ).answer

theorem exactDeviation_eq (root : ℝ → ℝ) (h : w.area = 0 ∨ w.InImage p.size) :
    exactDeviation root p w = .ok (@deviationOn ℝ (.exact root) p w) := by
  rcases h with harea | hin
  · unfold exactDeviation deviation deviationOn deviationOf
    rw [if_pos harea, if_pos harea]
    rfl
  · exact @resultOn_deviation_ofPixels ℝ p (.exact root) w hin

/-- **The variance of a window is a true one.** For a window of an image that has pixels, let `S` and
`Q` be the answers to the two queries for it, the sums of the pixels and of their squares. The number of
pixels times `Q`, less the square of `S`, is the sum of the squared differences of all pairs of pixels.
So the variance, the mean of the squares less the square of the mean, is never below zero, and it is
zero exactly if all pixels are the same. In exact arithmetic the deviation therefore falls back to one
exactly for these windows and for those without pixels, whatever function stands in for the square root,
and this one is applied to nothing but the variance where it is above zero. -/
theorem window_variance (h : w.area = 0 ∨ w.InImage p.size) :
    (0 < w.area → ∃ S Q : ℤ,
      (IntegralImage.ofPixels p).lookup
        ⟨.sum, w.left.toNat, w.top.toNat, w.width.toNat, w.height.toNat⟩ = .ok S ∧
      (IntegralImage.ofPixels p).lookup
        ⟨.squares, w.left.toNat, w.top.toNat, w.width.toNat, w.height.toNat⟩ = .ok Q ∧
      S = ∑ c ∈ w.cells, (p.pixel c.1 c.2 : ℤ) ∧ Q = ∑ c ∈ w.cells, (p.pixel c.1 c.2 : ℤ) ^ 2 ∧
      w.area * Q - S * S = ∑ e ∈ w.cells.sym2, squaredGap (fun c => (p.pixel c.1 c.2 : ℤ)) e ∧
      0 ≤ (Q / w.area - S / w.area * (S / w.area) : ℝ) ∧
      ((Q / w.area - S / w.area * (S / w.area) : ℝ) = 0 ↔ w.Constant p) ∧
      (¬w.Constant p → ∀ root : ℝ → ℝ, exactDeviation root p w =
        .ok (root (Q / w.area - S / w.area * (S / w.area))))) ∧
    (w.area = 0 ∨ w.Constant p → ∀ root : ℝ → ℝ, exactDeviation root p w = .ok 1) := by
  refine ⟨?_, ?_⟩
  · intro harea
    have hin : w.InImage p.size := h.resolve_left harea.ne'
    have hvariance := variance_real w.area (windowSum .sum p w) (windowSum .squares p w)
    have hlookup : ∀ kind ≠ .tilted, (IntegralImage.ofPixels p).lookup
        (windowQuery kind w w.left.toNat w.top.toNat) = .ok (windowSum kind p w) :=
      fun kind hk => IntegralImage.lookup_eq (inside_windowQuery hk hin)
    refine ⟨windowSum .sum p w, windowSum .squares p w, hlookup .sum nofun, hlookup .squares nofun,
      rfl, rfl, (spread_eq p w).symm, ?_, ?_, ?_⟩
    · rw [← hvariance, variance_eq_spread harea.ne']
      exact div_nonneg (Int.cast_nonneg (Rect.spread_nonneg w p)) (sq_nonneg _)
    · rw [← hvariance, variance_eq_spread harea.ne', div_eq_zero_iff, Int.cast_eq_zero,
        Rect.spread_eq_zero_iff, or_iff_left (pow_ne_zero 2 (Nat.cast_ne_zero.2 harea.ne'))]
    · intro hne root
      rw [exactDeviation_eq root h, deviationOn_exact root hne, hvariance]
  · intro hconstant root
    rw [exactDeviation_eq root h,
      deviationOn_of_constant root (hconstant.elim Rect.constant_of_area_eq_zero id)]

/-- Four keys in a square. -/
theorem window_variance_keypad :
    ((⟨1, 1, 2, 2⟩ : Rect).area = 0 ∨ (⟨1, 1, 2, 2⟩ : Rect).InImage IntegralImage.keypad.size) ∧
      0 < (⟨1, 1, 2, 2⟩ : Rect).area ∧
      ∑ e ∈ (⟨1, 1, 2, 2⟩ : Rect).cells.sym2,
        squaredGap (fun c => (IntegralImage.keypad.pixel c.1 c.2 : ℤ)) e = 40 ∧
      exactDeviation Real.sqrt IntegralImage.keypad ⟨1, 1, 2, 2⟩ = .ok √(40 / 16) := by
  have h : (⟨1, 1, 2, 2⟩ : Rect).area = 0 ∨
      (⟨1, 1, 2, 2⟩ : Rect).InImage IntegralImage.keypad.size :=
    .inr (by unfold Rect.InImage; decide)
  have harea : 0 < (⟨1, 1, 2, 2⟩ : Rect).area := by decide
  obtain ⟨S, Q, -, -, hS, hQ, hpairs, -, -, hroot⟩ := (window_variance h).1 harea
  have hS' : S = 28 := hS.trans (by decide +kernel)
  have hQ' : Q = 206 := hQ.trans (by decide +kernel)
  have hne : ¬(⟨1, 1, 2, 2⟩ : Rect).Constant IntegralImage.keypad := by
    rintro ⟨v, hv⟩
    have h5 := hv (1, 1) (by decide)
    have h6 := hv (2, 1) (by decide)
    exact absurd (h5.trans h6.symm) (by decide +kernel)
  refine ⟨h, harea, ?_, ?_⟩
  · rw [← hpairs, hS', hQ']
    rfl
  · rw [hroot hne, hS', hQ', show (⟨1, 1, 2, 2⟩ : Rect).area = 4 by decide]
    norm_num

end Classifier

end HaarDetection
