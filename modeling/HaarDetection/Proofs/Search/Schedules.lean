import HaarDetection.Proofs.Geometry.Ratios
import HaarDetection.Search.Schedule

/-!
# What a schedule visits

A schedule goes on by its factor from its first scale, until a window is not to be searched. The windows
keep growing, or shrinking, so that nothing that comes later is to be searched either. A scale for which
the window is to be searched is a normal number, and those change by every factor above one, so that the
schedule comes to an end.

* `Schedule.term`, `Schedule.window`: the scales one after another, and their windows.
* `Schedule.takeFrom_eq`: the leading scales of a schedule.
* `Schedule.Proper.exists_not_admits`: **the end of a schedule**, after `2 ^ 31` scales at most.
* `Schedule.Ascends`, `Schedule.Descends`: the windows of a schedule, from **the first one**, which touches
  its bound.
* `Schedule.Visits`: what a schedule visits.
* `Schedule.build_visits`: **a schedule visits every window in its range.**
-/

namespace HaarDetection

variable {a b x : Float32}

/-- **The greater of two finite numbers** is one of them, and not below the other one. -/
theorem greaterSingle_spec (ha : FiniteSingle a) (hb : FiniteSingle b) :
    greaterSingle a b = a ∧ singleValue b ≤ singleValue a ∨
      greaterSingle a b = b ∧ singleValue a ≤ singleValue b := by
  have hlt := lt_single_iff ha hb
  rw [greaterSingle, ha.isNaN_eq, hb.isNaN_eq]
  cases h : a.lt b with
  | false => exact .inl ⟨rfl, not_lt.1 fun hc => by rw [hlt.2 hc] at h; cases h⟩
  | true => exact .inr ⟨rfl, (hlt.1 h).le⟩

/-- **The smaller of two finite numbers** is one of them, and not above the other one. -/
theorem smallerSingle_spec (ha : FiniteSingle a) (hb : FiniteSingle b) :
    smallerSingle a b = a ∧ singleValue a ≤ singleValue b ∨
      smallerSingle a b = b ∧ singleValue b ≤ singleValue a := by
  have hlt := lt_single_iff hb ha
  rw [smallerSingle, ha.isNaN_eq, hb.isNaN_eq]
  cases h : b.lt a with
  | false => exact .inl ⟨rfl, not_lt.1 fun hc => by rw [hlt.2 hc] at h; cases h⟩
  | true => exact .inr ⟨rfl, (hlt.1 h).le⟩

/-- No integers between zero and `n` keep growing for `n` steps. -/
theorem not_strictly_growing {n : ℕ} {f : ℕ → ℤ} (hmem : ∀ k ≤ n, 0 ≤ f k ∧ f k < n)
    (hstep : ∀ k < n, f k < f (k + 1)) : False := by
  have hle : ∀ k ≤ n, (k : ℤ) ≤ f k := by
    intro k
    induction k with
    | zero => exact fun h => (hmem 0 h).1
    | succ k ih =>
      intro hk
      have := ih (by omega)
      have := hstep k hk
      push_cast
      omega
  exact absurd (hmem n le_rfl).2 (not_lt.2 (hle n le_rfl))

/-- What does not come back once it has ended holds up to some number. -/
theorem exists_iff_lt {p : ℕ → Prop} [DecidablePred p] (hp : ∀ k, p (k + 1) → p k) {n : ℕ}
    (hn : ¬p n) : ∃ m ≤ n, ∀ k, p k ↔ k < m := by
  have hanti : Antitone p := antitone_nat_of_succ_le hp
  have hex : ∃ k, ¬p k := ⟨n, hn⟩
  refine ⟨Nat.find hex, Nat.find_min' hex hn, fun k => ⟨fun hk => ?_, fun hk => ?_⟩⟩
  · by_contra hge
    exact Nat.find_spec hex (hanti (not_lt.1 hge) hk)
  · exact not_not.1 (Nat.find_min hex hk)

/-- **A size with sides of `1` up to `32767` pixels.** -/
structure Size.Moderate (s : Size) : Prop where
  width_pos : 0 < s.width.toNat
  height_pos : 0 < s.height.toNat
  width_lt : s.width.toNat < 2 ^ 15
  height_lt : s.height.toNat < 2 ^ 15

namespace Schedule

variable {s : Schedule} {k : ℕ}

/-- **The scales of a schedule** one after another, whether their windows are to be searched or not. -/
def term (s : Schedule) (k : ℕ) : Float32 := s.after^[k] s.start

/-- The window at a scale of a schedule. -/
def window (s : Schedule) (k : ℕ) : Size := s.base.scale (s.term k)

theorem term_succ_up (hmode : s.mode = .smallerToGreater) (k : ℕ) :
    s.term (k + 1) = s.term k * s.factor := by
  rw [term, Function.iterate_succ_apply', after, hmode]
  rfl

theorem term_succ_down (hmode : s.mode = .greaterToSmaller) (k : ℕ) :
    s.term (k + 1) = s.term k / s.factor := by
  rw [term, Function.iterate_succ_apply', after, hmode]
  rfl

theorem admits_iff : s.admits x = true ↔ s.max.Fits (s.base.scale x) ∧ (s.base.scale x).Fits s.min := by
  rw [admits, Bool.and_eq_true, decide_eq_true_iff, decide_eq_true_iff]

/-- **The leading scales of a schedule** are those up to the first one that is not to be searched. -/
theorem takeFrom_eq {n : ℕ} (h : ∀ k, s.admits (s.after^[k] x) = true ↔ k < n) (limit : ℕ)
    (found : List Float32) : s.takeFrom limit x found =
      found.reverse ++ (List.range (Min.min limit n)).map fun k => s.after^[k] x := by
  induction limit generalizing x n found with
  | zero => simp [takeFrom]
  | succ limit ih =>
    cases n with
    | zero =>
      have hx : ¬s.admits x = true := fun hx => absurd ((h 0).1 hx) (lt_irrefl 0)
      simp [takeFrom, hx]
    | succ n =>
      have hx : s.admits x = true := (h 0).2 n.succ_pos
      have hnext : ∀ k, s.admits (s.after^[k] (s.after x)) = true ↔ k < n := fun k =>
        (h (k + 1)).trans Nat.succ_lt_succ_iff
      rw [takeFrom, if_pos hx, ih hnext, Nat.succ_min_succ, List.range_succ_eq_map]
      simp [Function.comp_def]

/-- **A schedule with a factor above one** for windows that have pixels and do not fill the plane. -/
structure Proper (s : Schedule) : Prop where
  factor_finite : FiniteSingle s.factor
  one_lt_factor : 1 < singleValue s.factor
  base_pos : 0 < s.base.width.toNat ∧ 0 < s.base.height.toNat
  min_pos : 0 < s.min.width.toNat ∧ 0 < s.min.height.toNat
  max_lt : s.max.width.toNat < 2 ^ 32 - 1 ∨ s.max.height.toNat < 2 ^ 32 - 1

theorem ratio_finite (length : UInt32) {side : UInt32} (hside : 0 < side.toNat) :
    FiniteSingle (ratio length side) ∧ 0 ≤ singleValue (ratio length side) := by
  obtain ⟨hf, hn⟩ := ratio_nearest length hside
  exact ⟨hf, hn.nonneg (div_nonneg (toFloat32_nonneg length) (toFloat32_nonneg side))⟩

namespace Proper

variable (h : s.Proper)
include h

/-- The first scale is a finite number. -/
theorem start_finite : FiniteSingle s.start ∧ 0 ≤ singleValue s.start := by
  unfold start
  have hw length := ratio_finite length h.base_pos.1
  have hh length := ratio_finite length h.base_pos.2
  split
  · rcases greaterSingle_spec (hw s.min.width).1 (hh s.min.height).1 with ⟨heq, -⟩ | ⟨heq, -⟩
    · rw [heq]
      exact hw _
    · rw [heq]
      exact hh _
  · rcases smallerSingle_spec (hw s.max.width).1 (hh s.max.height).1 with ⟨heq, -⟩ | ⟨heq, -⟩
    · rw [heq]
      exact hw _
    · rw [heq]
      exact hh _

section Up

variable (hmode : s.mode = .smallerToGreater)
include hmode

theorem term_notNegative (k : ℕ) : NotNegative (s.term k) := by
  induction k with
  | zero => exact .inr h.start_finite
  | succ k ih =>
    rw [term_succ_up hmode]
    exact (upTo_mul h.factor_finite h.one_lt_factor.le ih).right

/-- **Scales go up.** -/
theorem term_upTo_succ (k : ℕ) : UpTo (s.term k) (s.term (k + 1)) := by
  rw [term_succ_up hmode]
  exact upTo_mul h.factor_finite h.one_lt_factor.le (h.term_notNegative hmode k)

/-- **Windows grow.** -/
theorem window_succ_fits (k : ℕ) : (s.window (k + 1)).Fits (s.window k) :=
  Size.scale_mono h.base_pos (h.term_upTo_succ hmode k)

end Up

section Down

variable (hmode : s.mode = .greaterToSmaller)
include hmode

theorem term_finite (k : ℕ) : FiniteSingle (s.term k) ∧ 0 ≤ singleValue (s.term k) := by
  induction k with
  | zero => exact h.start_finite
  | succ k ih =>
    rw [term_succ_down hmode]
    exact (div_upTo h.factor_finite h.one_lt_factor.le ih.1 ih.2).finite_left ih.1

/-- **Scales go down.** -/
theorem term_succ_upTo (k : ℕ) : UpTo (s.term (k + 1)) (s.term k) := by
  obtain ⟨hf, h0⟩ := h.term_finite hmode k
  rw [term_succ_down hmode]
  exact div_upTo h.factor_finite h.one_lt_factor.le hf h0

/-- **Windows shrink.** -/
theorem window_fits_succ (k : ℕ) : (s.window k).Fits (s.window (k + 1)) :=
  Size.scale_mono h.base_pos (h.term_succ_upTo hmode k)

end Down

/-- **A scale for which the window is to be searched** is a normal number. -/
theorem normal (hx : s.admits x = true) : Normal x := by
  obtain ⟨⟨hw, hh⟩, hw', hh'⟩ := admits_iff.1 hx
  rw [UInt32.le_iff_toNat_le] at hw hh hw' hh'
  obtain ⟨hmin, hmin'⟩ := h.min_pos
  rcases h.max_lt with hmax | hmax
  · exact normal_of_wholePixels s.base.width (hmin.trans_le hw') (hw.trans_lt hmax)
  · exact normal_of_wholePixels s.base.height (hmin'.trans_le hh') (hh.trans_lt hmax)

/-- **The end of a schedule.** Each scale has another place in the order of positive singles. -/
theorem exists_not_admits : ∃ k ≤ 2 ^ 31, ¬s.admits (s.term k) = true := by
  by_contra hall
  push Not at hall
  have hnormal : ∀ k ≤ 2 ^ 31, Normal (s.term k) := fun k hk => h.normal (hall k hk)
  have hkey : ∀ k ≤ 2 ^ 31, 0 ≤ totalKey (s.term k) ∧ totalKey (s.term k) < (2 ^ 31 : ℕ) :=
    fun k hk => totalKey_mem (hnormal k hk).finite (hnormal k hk).pos
  cases hmode : s.mode with
  | smallerToGreater =>
    refine not_strictly_growing hkey fun k hk => ?_
    have hx := hnormal k hk.le
    have hy := hnormal (k + 1) hk
    refine totalKey_lt hx.finite hx.pos hy.finite ?_
    rw [term_succ_up hmode] at hy ⊢
    exact hx.lt_mul h.one_lt_factor hy.finite
  | greaterToSmaller =>
    -- counted from the end the places grow
    refine not_strictly_growing (n := 2 ^ 31) (f := fun k => 2 ^ 31 - 1 - totalKey (s.term k))
      (fun k hk => ?_) fun k hk => ?_
    · have := hkey k hk
      push_cast at this ⊢
      omega
    · have hx := hnormal k hk.le
      have hy := hnormal (k + 1) hk
      refine sub_lt_sub_left (totalKey_lt hy.finite hy.pos hx.finite ?_) _
      rw [term_succ_down hmode]
      exact hx.div_lt h.factor_finite h.one_lt_factor

end Proper

section Start

variable {base goal : Size} (hbase : base.Moderate) (hgoal : goal.Moderate)
include hbase hgoal

/-- The ratio of the widths leads from one width to the other. -/
theorem scale_ratio_width : (base.scale (ratio goal.width base.width)).width = goal.width :=
  wholePixels_ratio hbase.width_pos (hbase.width_lt.le.trans (by norm_num)) hgoal.width_pos
    hgoal.width_lt

/-- The ratio of the heights leads from one height to the other. -/
theorem scale_ratio_height : (base.scale (ratio goal.height base.height)).height = goal.height :=
  wholePixels_ratio hbase.height_pos (hbase.height_lt.le.trans (by norm_num)) hgoal.height_pos
    hgoal.height_lt

/-- **A scale from both ratios on** leads to a window with room for the size. -/
theorem scale_fits (hw : UpTo (ratio goal.width base.width) x)
    (hh : UpTo (ratio goal.height base.height) x) : (base.scale x).Fits goal := by
  constructor
  · rw [← scale_ratio_width hbase hgoal]
    exact wholePixels_mono hbase.width_pos hw
  · rw [← scale_ratio_height hbase hgoal]
    exact wholePixels_mono hbase.height_pos hh

/-- **A scale up to both ratios** leads to a window that has room in the size. -/
theorem fits_scale (hw : UpTo x (ratio goal.width base.width))
    (hh : UpTo x (ratio goal.height base.height)) : goal.Fits (base.scale x) := by
  constructor
  · rw [← scale_ratio_width hbase hgoal]
    exact wholePixels_mono hbase.width_pos hw
  · rw [← scale_ratio_height hbase hgoal]
    exact wholePixels_mono hbase.height_pos hh

end Start

/-- **The windows of a schedule that goes up** grow from one that touches the least size. -/
structure Ascends (s : Schedule) : Prop where
  term_succ : ∀ k, s.term (k + 1) = s.term k * s.factor
  grows : ∀ k, (s.window (k + 1)).Fits (s.window k)
  fits_min : (s.window 0).Fits s.min
  touches : (s.window 0).width = s.min.width ∨ (s.window 0).height = s.min.height

/-- **The windows of a schedule that goes down** shrink from one that touches the greatest size. -/
structure Descends (s : Schedule) : Prop where
  term_succ : ∀ k, s.term (k + 1) = s.term k / s.factor
  shrinks : ∀ k, (s.window k).Fits (s.window (k + 1))
  max_fits : s.max.Fits (s.window 0)
  touches : (s.window 0).width = s.max.width ∨ (s.window 0).height = s.max.height

/-- A window that grows is too large for good. -/
theorem Ascends.admits_of_succ (h : s.Ascends) (k : ℕ) (hk : s.admits (s.term (k + 1)) = true) :
    s.admits (s.term k) = true := by
  have hmin : ∀ k, (s.window k).Fits s.min := by
    intro k
    induction k with
    | zero => exact h.fits_min
    | succ k ih => exact (h.grows k).trans ih
  exact admits_iff.2 ⟨(admits_iff.1 hk).1.trans (h.grows k), hmin k⟩

/-- A window that shrinks is too small for good. -/
theorem Descends.admits_of_succ (h : s.Descends) (k : ℕ) (hk : s.admits (s.term (k + 1)) = true) :
    s.admits (s.term k) = true := by
  have hmax : ∀ k, s.max.Fits (s.window k) := by
    intro k
    induction k with
    | zero => exact h.max_fits
    | succ k ih => exact ih.trans (h.shrinks k)
  exact admits_iff.2 ⟨hmax k, (h.shrinks k).trans (admits_iff.1 hk).2⟩

namespace Proper

variable (h : s.Proper) (hbase : s.base.Moderate)
include h hbase

/-- **The first window from the least size up.** -/
theorem ascends (hmode : s.mode = .smallerToGreater) (hmin : s.min.Moderate) : s.Ascends := by
  obtain ⟨hw, hw0⟩ := ratio_finite s.min.width h.base_pos.1
  obtain ⟨hh, hh0⟩ := ratio_finite s.min.height h.base_pos.2
  have hstart : s.start =
      greaterSingle (ratio s.min.width s.base.width) (ratio s.min.height s.base.height) := by
    simp only [start, hmode]
  have hfirst : s.window 0 = s.base.scale s.start := rfl
  rcases greaterSingle_spec hw hh with ⟨heq, hle⟩ | ⟨heq, hle⟩
  · rw [hstart, heq] at hfirst
    refine ⟨term_succ_up hmode, h.window_succ_fits hmode, ?_, .inl ?_⟩ <;> rw [hfirst]
    · exact scale_fits hbase hmin (.finite hw hw hw0 le_rfl) (.finite hh hw hh0 hle)
    · exact scale_ratio_width hbase hmin
  · rw [hstart, heq] at hfirst
    refine ⟨term_succ_up hmode, h.window_succ_fits hmode, ?_, .inr ?_⟩ <;> rw [hfirst]
    · exact scale_fits hbase hmin (.finite hw hh hw0 hle) (.finite hh hh hh0 le_rfl)
    · exact scale_ratio_height hbase hmin

/-- **The first window from the greatest size down.** -/
theorem descends (hmode : s.mode = .greaterToSmaller) (hmax : s.max.Moderate) : s.Descends := by
  obtain ⟨hw, hw0⟩ := ratio_finite s.max.width h.base_pos.1
  obtain ⟨hh, hh0⟩ := ratio_finite s.max.height h.base_pos.2
  have hstart : s.start =
      smallerSingle (ratio s.max.width s.base.width) (ratio s.max.height s.base.height) := by
    simp only [start, hmode]
  have hfirst : s.window 0 = s.base.scale s.start := rfl
  rcases smallerSingle_spec hw hh with ⟨heq, hle⟩ | ⟨heq, hle⟩
  · rw [hstart, heq] at hfirst
    refine ⟨term_succ_down hmode, h.window_fits_succ hmode, ?_, .inl ?_⟩ <;> rw [hfirst]
    · exact fits_scale hbase hmax (.finite hw hw hw0 le_rfl) (.finite hw hh hw0 hle)
    · exact scale_ratio_width hbase hmax
  · rw [hstart, heq] at hfirst
    refine ⟨term_succ_down hmode, h.window_fits_succ hmode, ?_, .inr ?_⟩ <;> rw [hfirst]
    · exact fits_scale hbase hmax (.finite hh hw hh0 hle) (.finite hh hh hh0 le_rfl)
    · exact scale_ratio_height hbase hmax

end Proper

/-- **What a schedule visits:** its first `n` scales, which are all those for which the window is to be
searched. -/
structure Visits (s : Schedule) (n : ℕ) : Prop where
  /-- The window is to be searched at the first `n` scales, and at no other one. -/
  inRange_iff : ∀ k, s.max.Fits (s.window k) ∧ (s.window k).Fits s.min ↔ k < n
  scales_eq : s.scales = (List.range n).map s.term
  take_eq : ∀ limit, s.take limit = (List.range (Min.min limit n)).map s.term

/-- A schedule visits what is in its range, if nothing comes back into the range. -/
theorem Proper.exists_visits (h : s.Proper)
    (hback : ∀ k, s.admits (s.term (k + 1)) = true → s.admits (s.term k) = true) :
    ∃ n, s.Visits n := by
  obtain ⟨stop, hle, hstop⟩ := h.exists_not_admits
  obtain ⟨n, hn, hiff⟩ := exists_iff_lt (p := fun k => s.admits (s.term k) = true) hback hstop
  have htake : ∀ limit, s.take limit = (List.range (Min.min limit n)).map s.term :=
    fun limit => takeFrom_eq hiff limit []
  refine ⟨n, fun k => admits_iff.symm.trans (hiff k), ?_, htake⟩
  rw [scales, htake, min_eq_right (hn.trans (hle.trans (by decide)))]

/-- **A schedule visits every window in its range.** Take three sizes with sides of `1` up to `32767`
pixels, and a finite factor above one. The scales of the schedule are those of the geometric sequence
from the first scale on at which the window has room in the greatest size and for the least size, in
order. They come first in the sequence. The windows of the sequence only grow from a window that has the
least width or height and room for the least size, or only shrink from one that has the greatest width or
height and room in the greatest size. -/
theorem build_visits {base min max : Size} {factor : Float32} (mode : ScalingMode)
    (hbase : base.Moderate) (hmin : min.Moderate) (hmax : max.Moderate)
    (hfinite : factor.isFinite = true) (hgt : Float32.lt 1 factor = true) :
    let s : Schedule := ⟨base, min, max, factor, mode⟩
    build base min max factor mode = .ok s ∧ (∃ n, s.Visits n) ∧
      (mode = .smallerToGreater → s.Ascends) ∧ (mode = .greaterToSmaller → s.Descends) := by
  intro s
  have hfactor := isFinite_single_iff.1 hfinite
  have hone : 1 < singleValue factor := by
    have hlt := (lt_single_iff one_single.1 hfactor).1 hgt
    rwa [one_single.2] at hlt
  have hproper : s.Proper := ⟨hfactor, hone, ⟨hbase.width_pos, hbase.height_pos⟩,
    ⟨hmin.width_pos, hmin.height_pos⟩, .inl (hmax.width_lt.trans (by norm_num))⟩
  have hup : mode = .smallerToGreater → s.Ascends := fun hmode => hproper.ascends hbase hmode hmin
  have hdown : mode = .greaterToSmaller → s.Descends := fun hmode => hproper.descends hbase hmode hmax
  refine ⟨by rw [build, hfinite, hgt]; rfl, hproper.exists_visits ?_, hup, hdown⟩
  cases hmode : mode with
  | smallerToGreater => exact (hup hmode).admits_of_succ
  | greaterToSmaller => exact (hdown hmode).admits_of_succ

/-- A schedule for windows that are wider than high is limited by their height. -/
example : (⟨⟨20, 10⟩, ⟨20, 10⟩, ⟨100, 30⟩, 2, .greaterToSmaller⟩ : Schedule).take 3 = [3, 1.5] := by
  decide +kernel

/-- Windows of `24` up to `256` pixels, growing by a half. -/
theorem build_visits_growing : (⟨24, 24⟩ : Size).Moderate ∧ (⟨256, 256⟩ : Size).Moderate ∧
    Float32.isFinite 1.5 = true ∧ Float32.lt 1 1.5 = true ∧
    (∃ n, (⟨⟨24, 24⟩, ⟨24, 24⟩, ⟨256, 256⟩, 1.5, .smallerToGreater⟩ : Schedule).Visits n) := by
  have hsmall : (⟨24, 24⟩ : Size).Moderate := ⟨by decide, by decide, by decide, by decide⟩
  have hlarge : (⟨256, 256⟩ : Size).Moderate := ⟨by decide, by decide, by decide, by decide⟩
  have hfinite : Float32.isFinite 1.5 = true := by decide +kernel
  have hgt : Float32.lt 1 1.5 = true := by decide +kernel
  exact ⟨hsmall, hlarge, hfinite, hgt,
    (build_visits .smallerToGreater hsmall hsmall hlarge hfinite hgt).2.1⟩

end Schedule

end HaarDetection
