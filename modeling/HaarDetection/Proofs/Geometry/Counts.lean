import HaarDetection.Proofs.Geometry.Intersections

/-!
# The overlap of two rectangles, counted

The area of a rectangle is the number of its pixels. What two rectangles have in common is counted
twice when their areas are added up, so the pixels that they cover together are what is left without
it, and the overlap of two rectangles is a quotient of two numbers of pixels.

* `Rect.card_points`: the area is the number of pixels.
* `Rect.eq_of_points_eq`: a rectangle is known from its pixels, if it has any.
* `Rect.sharedArea_eq`, `Rect.coveredArea_eq`: **the pixels in both rectangles, and in one at least.**
* `div_single_pos`, `zero_div_single`: when a quotient of two natural numbers is zero.
* `Rect.iou_counts`: **the overlap is the quotient of these two numbers.**
-/

namespace HaarDetection

section Quotients

variable {m n : ℕ}

/-- A natural number that is not zero, as a single. -/
theorem singleOfNat_between (h0 : 0 < n) (hn : n < 2 ^ 64) :
    1 ≤ singleValue (singleOfNat n) ∧ singleValue (singleOfNat n) ≤ 2 ^ 64 := by
  have hone : OnGrid .binary32 1 := one_single.2 ▸ one_single.1.onGrid
  have hlarge : OnGrid .binary32 (2 ^ 64) := ⟨1, 64, by decide, by decide, by norm_num⟩
  obtain ⟨-, hnear⟩ := singleOfNat_spec hn
  exact ⟨hnear.le_of_ge hone (by exact_mod_cast h0), hnear.le_of_le hlarge (by exact_mod_cast hn.le)⟩

/-- **A quotient of natural numbers** that are not zero is above zero. -/
theorem div_single_pos (hm0 : 0 < m) (hm : m < 2 ^ 64) (hn0 : 0 < n) (hn : n < 2 ^ 64) :
    0 < singleValue (singleOfNat m / singleOfNat n) := by
  obtain ⟨hm1, hm2⟩ := singleOfNat_between hm0 hm
  obtain ⟨hn1, hn2⟩ := singleOfNat_between hn0 hn
  have hpos : 0 < singleValue (singleOfNat n) := zero_lt_one.trans_le hn1
  have hlarge : OnGrid .binary32 (2 ^ 64) := ⟨1, 64, by decide, by decide, by norm_num⟩
  have hle : singleValue (singleOfNat m) / singleValue (singleOfNat n) ≤ 2 ^ 64 :=
    (div_le_self (zero_le_one.trans hm1) hn1).trans hm2
  obtain ⟨-, hq⟩ := div_single (singleOfNat_spec hm).1 (singleOfNat_spec hn).1 (zero_le_one.trans hm1)
    hpos hlarge (by norm_num) hle
  -- the least quotient that there can be is a single
  have hleast : OnGrid .binary32 (2 ^ (-64 : ℤ)) := ⟨1, -64, by decide, by decide, by norm_num⟩
  have hge : (2 : ℚ) ^ (-64 : ℤ) ≤ singleValue (singleOfNat m) / singleValue (singleOfNat n) := by
    rw [le_div_iff₀ hpos]
    calc (2 : ℚ) ^ (-64 : ℤ) * singleValue (singleOfNat n) ≤ 2 ^ (-64 : ℤ) * 2 ^ 64 :=
          mul_le_mul_of_nonneg_left hn2 (by positivity)
      _ = 1 := by norm_num
      _ ≤ singleValue (singleOfNat m) := hm1
  exact lt_of_lt_of_le (by positivity) (hq.le_of_ge hleast hge)

/-- **Zero over a natural number** that is not zero is zero. -/
theorem zero_div_single (hn0 : 0 < n) (hn : n < 2 ^ 64) : singleOfNat 0 / singleOfNat n = 0 := by
  obtain ⟨hf, -⟩ := singleOfNat_spec hn
  obtain ⟨m, e, hm, hu⟩ := finite_of_pos hf (zero_lt_one.trans_le (singleOfNat_between hn0 hn).1)
  -- that the value of the quotient is zero would not tell the two zeros apart
  apply eq_of_unpack_eq
  have hquotient : (singleOfNat 0 / singleOfNat n).toModel.unpack =
      repack .binary32 (.div .binary32 (singleOfNat 0).toModel.unpack
        (singleOfNat n).toModel.unpack) := rfl
  rw [hquotient, hu]
  exact unpack_packedZero _

end Quotients

namespace Rect

variable {a b r : Rect}

/-- **The area** of a rectangle is the number of its pixels. -/
theorem card_points (r : Rect) : r.points.card = r.area := by
  obtain ⟨hwidth, hheight⟩ := r.sides_eq
  rw [points, Finset.card_product, Int.card_Ico, Int.card_Ico, ← hwidth, ← hheight, Int.toNat_natCast,
    Int.toNat_natCast]
  rfl

/-- **A rectangle is known from its pixels**, if it has any: the first and the last one tell its
edges. -/
theorem eq_of_points_eq (ha : a.points.Nonempty) (h : a.points = b.points) : a = b := by
  have hmem : ∀ p : ℤ × ℤ, ((a.left ≤ p.1 ∧ p.1 < a.right) ∧ a.top ≤ p.2 ∧ p.2 < a.bottom) ↔
      (b.left ≤ p.1 ∧ p.1 < b.right) ∧ b.top ≤ p.2 ∧ p.2 < b.bottom := by
    intro p
    rw [← mem_points, ← mem_points, h]
  obtain ⟨p, hp⟩ := ha
  rw [mem_points] at hp
  have ha1 := (hmem (a.left, a.top)).1 ⟨by omega, by omega⟩
  have ha2 := (hmem (a.right - 1, a.bottom - 1)).1 ⟨by omega, by omega⟩
  have hb1 := (hmem (b.left, b.top)).2 ⟨by omega, by omega⟩
  have hb2 := (hmem (b.right - 1, b.bottom - 1)).2 ⟨by omega, by omega⟩
  rw [← ofEdges_self a, ← ofEdges_self b]
  congr 1 <;> omega

/-- The pixels of an intersection are those in both rectangles. -/
theorem points_of_intersection? (h : a.intersection? b = some r) : r.points = a.points ∩ b.points := by
  obtain ⟨⟨hleft, hright, -⟩, htop, hbottom, -⟩ := intersection?_edges h
  ext p
  rw [Finset.mem_inter, mem_points, mem_points, mem_points, hleft, hright, htop, hbottom]
  omega

theorem intersects_iff_nonempty (a b : Rect) :
    a.intersects b = true ↔ (a.points ∩ b.points).Nonempty := by
  rw [intersects_iff, ← exists_mem_points_iff]
  exact exists_congr fun p => Finset.mem_inter.symm

/-- **The pixels in both rectangles.** -/
theorem sharedArea_eq (a b : Rect) : a.sharedArea b = (a.points ∩ b.points).card := by
  have hnonempty := intersects_iff_nonempty a b
  unfold sharedArea
  unfold intersects at hnonempty
  cases h : a.intersection? b with
  | some r =>
    rw [← points_of_intersection? h, card_points]
    rfl
  | none =>
    rw [h, ← Finset.card_pos] at hnonempty
    exact (Nat.eq_zero_of_not_pos fun hpos => Bool.noConfusion (hnonempty.2 hpos)).symm

/-- What two rectangles share is counted in both areas. -/
theorem sharedArea_le (a b : Rect) : a.sharedArea b ≤ a.area + b.area := by
  rw [sharedArea_eq, ← card_points a]
  exact (Finset.card_le_card Finset.inter_subset_left).trans (Nat.le_add_right _ _)

/-- Areas that add up within 64 bits are added up exactly, and what is shared is taken away from the
sum exactly. -/
theorem coveredArea_of_lt (h : a.area + b.area < 2 ^ 64) :
    a.coveredArea b = a.area + b.area - a.sharedArea b := by
  have hshared := sharedArea_le a b
  rw [coveredArea, ← UInt64.ofNat_add, ← UInt64.ofNat_sub hshared,
    UInt64.toNat_ofNat_of_lt' ((Nat.sub_le _ _).trans_lt h)]

/-- **The pixels in one rectangle at least.** -/
theorem coveredArea_eq (h : a.area + b.area < 2 ^ 64) :
    a.coveredArea b = (a.points ∪ b.points).card := by
  have hcount := Finset.card_union_add_card_inter a.points b.points
  rw [card_points, card_points, ← sharedArea_eq] at hcount
  rw [coveredArea_of_lt h]
  omega

theorem sharedArea_comm (a b : Rect) : a.sharedArea b = b.sharedArea a := by
  rw [sharedArea_eq, sharedArea_eq, Finset.inter_comm]

theorem coveredArea_comm (a b : Rect) : a.coveredArea b = b.coveredArea a := by
  rw [coveredArea, coveredArea, sharedArea_comm, UInt64.add_comm]

theorem coveredArea_lt (a b : Rect) : a.coveredArea b < 2 ^ 64 := UInt64.toNat_lt _

theorem sharedArea_le_coveredArea (h : a.area + b.area < 2 ^ 64) :
    a.sharedArea b ≤ a.coveredArea b := by
  rw [sharedArea_eq, coveredArea_eq h]
  exact Finset.card_le_card Finset.inter_subset_union

/-- No pixel is covered if there is none. -/
theorem coveredArea_eq_zero_iff (h : a.area + b.area < 2 ^ 64) :
    a.coveredArea b = 0 ↔ a.points = ∅ ∧ b.points = ∅ := by
  rw [coveredArea_eq h, Finset.card_eq_zero, Finset.union_eq_empty]

/-- **Two rectangles that have pixels and cover no more than they share** are the same. -/
theorem eq_of_coveredArea_le (h : a.area + b.area < 2 ^ 64) (ha : a.points.Nonempty)
    (hle : a.coveredArea b ≤ a.sharedArea b) : a = b := by
  rw [coveredArea_eq h, sharedArea_eq] at hle
  have heq : a.points ∩ b.points = a.points ∪ b.points :=
    Finset.eq_of_subset_of_card_le Finset.inter_subset_union hle
  have hsub : a.points ⊆ b.points := by
    calc a.points ⊆ a.points ∪ b.points := Finset.subset_union_left
      _ = a.points ∩ b.points := heq.symm
      _ ⊆ b.points := Finset.inter_subset_right
  have hsub' : b.points ⊆ a.points := by
    calc b.points ⊆ a.points ∪ b.points := Finset.subset_union_right
      _ = a.points ∩ b.points := heq.symm
      _ ⊆ a.points := Finset.inter_subset_left
  exact eq_of_points_eq ha (Finset.Subset.antisymm hsub hsub')

/-- The overlap is above zero if a pixel is shared. -/
theorem iou_pos (h : a.area + b.area < 2 ^ 64) (hshared : 0 < a.sharedArea b) :
    0 < singleValue (a.iou b) := by
  have hle := sharedArea_le_coveredArea h
  have hcovered : 0 < a.coveredArea b := hshared.trans_le hle
  rw [iou, if_neg hcovered.ne']
  exact div_single_pos hshared (hle.trans_lt (coveredArea_lt a b)) hcovered (coveredArea_lt a b)

/-- **When the overlap is zero.** -/
theorem iou_eq_zero_iff (h : a.area + b.area < 2 ^ 64) : a.iou b = 0 ↔ a.sharedArea b = 0 := by
  constructor
  · intro hzero
    by_contra hshared
    have hpos := iou_pos h (Nat.pos_of_ne_zero hshared)
    rw [hzero] at hpos
    exact lt_irrefl _ hpos
  · intro hshared
    unfold iou
    split
    · rfl
    · rename_i hcovered
      rw [hshared]
      exact zero_div_single (Nat.pos_of_ne_zero hcovered) (coveredArea_lt a b)

/-- **The overlap is the quotient of two numbers of pixels.** For two rectangles with areas that add up
to less than `2 ^ 64`, what they share is not more than the sum of their areas, so what is left of it
without that is the number of pixels in one of them at least. It is zero only if there are no pixels,
and then the overlap is zero by definition; otherwise the overlap is the number of pixels in both over
the number of pixels in one at least, both in single precision. So which rectangle comes first does not
matter, the overlap is zero exactly if no pixel is shared and a positive number otherwise, and
rectangles with pixels are the same exactly if they share all that they cover. -/
theorem iou_counts {a b : Rect} (h : a.area + b.area < 2 ^ 64) :
    (a.sharedArea b ≤ a.area + b.area ∧ a.coveredArea b < 2 ^ 64) ∧
    a.coveredArea b = (a.points ∪ b.points).card ∧
    a.sharedArea b = (a.points ∩ b.points).card ∧
    a.sharedArea b ≤ a.coveredArea b ∧
    (a.points = ∅ ∧ b.points = ∅ → a.iou b = 0) ∧
    (¬(a.points = ∅ ∧ b.points = ∅) → 0 < singleValue (singleOfNat (a.points ∪ b.points).card) ∧
      a.iou b = singleOfNat (a.points ∩ b.points).card / singleOfNat (a.points ∪ b.points).card) ∧
    a.iou b = b.iou a ∧
    (a.iou b = 0 ↔ ¬∃ p, p ∈ a.points ∧ p ∈ b.points) ∧
    ((∃ p, p ∈ a.points ∧ p ∈ b.points) → 0 < singleValue (a.iou b)) ∧
    (a.points.Nonempty → b.points.Nonempty → (a.sharedArea b = a.coveredArea b ↔ a = b)) := by
  have hcovered := coveredArea_lt a b
  have hshares : 0 < a.sharedArea b ↔ ∃ p, p ∈ a.points ∧ p ∈ b.points := by
    rw [sharedArea_eq, Finset.card_pos]
    exact exists_congr fun p => Finset.mem_inter
  refine ⟨⟨sharedArea_le a b, hcovered⟩, coveredArea_eq h, sharedArea_eq a b,
    sharedArea_le_coveredArea h, ?_, ?_, ?_, ?_, fun hp => iou_pos h (hshares.2 hp), ?_⟩
  · intro hempty
    rw [iou, if_pos ((coveredArea_eq_zero_iff h).2 hempty)]
  · intro hempty
    rw [← coveredArea_eq_zero_iff h] at hempty
    rw [iou, if_neg hempty, ← coveredArea_eq h, ← sharedArea_eq]
    obtain ⟨hone, -⟩ := singleOfNat_between (Nat.pos_of_ne_zero hempty) hcovered
    exact ⟨zero_lt_one.trans_le hone, rfl⟩
  · rw [iou, iou, sharedArea_comm, coveredArea_comm]
  · rw [iou_eq_zero_iff h, ← hshares, Nat.pos_iff_ne_zero, not_not]
  · intro ha _
    refine ⟨fun heq => eq_of_coveredArea_le h ha heq.ge, ?_⟩
    rintro rfl
    rw [sharedArea_eq, coveredArea_eq h, Finset.inter_self, Finset.union_self]

/-- Two windows of twenty by twenty pixels, one half of each in the other one. -/
theorem iou_counts_shifted :
    (⟨0, 0, 20, 20⟩ : Rect).area + (⟨10, 0, 20, 20⟩ : Rect).area < 2 ^ 64 ∧
      (⟨0, 0, 20, 20⟩ : Rect).iou ⟨10, 0, 20, 20⟩ = singleOfNat 200 / singleOfNat 600 ∧
      0 < singleValue ((⟨0, 0, 20, 20⟩ : Rect).iou ⟨10, 0, 20, 20⟩) := by
  have h : (⟨0, 0, 20, 20⟩ : Rect).area + (⟨10, 0, 20, 20⟩ : Rect).area < 2 ^ 64 := by decide
  obtain ⟨-, hcovered, hshared, -, -, hquotient, -, -, hpos, -⟩ := iou_counts h
  have hpixel : ∃ p, p ∈ (⟨0, 0, 20, 20⟩ : Rect).points ∧ p ∈ (⟨10, 0, 20, 20⟩ : Rect).points :=
    ⟨(10, 0), mem_points.2 (by decide), mem_points.2 (by decide)⟩
  refine ⟨h, ?_, hpos hpixel⟩
  obtain ⟨p, hp, -⟩ := hpixel
  have hne : ¬((⟨0, 0, 20, 20⟩ : Rect).points = ∅ ∧ (⟨10, 0, 20, 20⟩ : Rect).points = ∅) :=
    fun hempty => Finset.ne_empty_of_mem hp hempty.1
  rw [(hquotient hne).2, ← hcovered, ← hshared]
  rfl

-- From `2 ^ 64` on, the sum of the areas wraps, and two rectangles that share a half of each cover no
-- more than that.
example : (⟨0, 0, 0xffffffff, 0xffffffff⟩ : Rect).iou ⟨0x7fffffff, 0, 0xffffffff, 0xffffffff⟩ = 1 := by
  decide +kernel

end Rect

end HaarDetection
