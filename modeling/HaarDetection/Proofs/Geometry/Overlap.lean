import HaarDetection.Geometry.Rect
import HaarDetection.Proofs.Number.Quotient

/-!
# Rectangles that share pixels

Which of two rectangles comes first does not matter for whether they share a pixel, and a rectangle
shares all of its pixels with itself.

* `Rect.intersects_iff`, `Rect.intersects_comm`: **when two rectangles share a pixel.**
* `Rect.intersection?_self`: a rectangle that is not empty is its own intersection.
* `Rect.iou_self`: **its overlap with itself** is one.
-/

namespace HaarDetection

namespace Rect

variable {r : Rect}

/-- **Two rectangles share a pixel** if on both axes each of them begins before the other one ends, and
neither is empty. -/
theorem intersects_iff (a b : Rect) : a.intersects b = true ↔
    Max.max a.left b.left < Min.min a.right b.right ∧
      Max.max a.top b.top < Min.min a.bottom b.bottom := by
  simp only [intersects, intersection?]
  split <;> simp_all

theorem intersects_comm (a b : Rect) : a.intersects b = b.intersects a := by
  rw [Bool.eq_iff_iff, intersects_iff, intersects_iff, max_comm, min_comm, max_comm a.top,
    min_comm a.bottom]

/-- The sides of a rectangle that has pixels. -/
theorem sides_pos (h : 0 < r.area) : 0 < r.width.toNat ∧ 0 < r.height.toNat :=
  ⟨Nat.pos_of_mul_pos_right h, Nat.pos_of_mul_pos_left h⟩

/-- A rectangle between its own edges. -/
theorem ofEdges_self (r : Rect) : ofEdges r.left r.top r.right r.bottom = r := by
  have hwidth : (r.right - r.left).toNat = r.width.toNat := by
    unfold right
    omega
  have hheight : (r.bottom - r.top).toNat = r.height.toNat := by
    unfold bottom
    omega
  rw [ofEdges, hwidth, hheight]
  simp only [left, top, Int32.ofInt_toInt, UInt32.ofNat_toNat]

/-- **A rectangle that is not empty** is its own intersection. -/
theorem intersection?_self (h : 0 < r.area) : r.intersection? r = some r := by
  obtain ⟨hwidth, hheight⟩ := sides_pos h
  have hcols : r.left < r.right := by
    unfold right
    omega
  have hrows : r.top < r.bottom := by
    unfold bottom
    omega
  simp only [intersection?, max_self, min_self, hcols, hrows, and_self, if_true, ofEdges_self]

theorem area_lt (r : Rect) : r.area < 2 ^ 64 := by
  calc r.area ≤ (2 ^ 32 - 1) * (2 ^ 32 - 1) :=
        Nat.mul_le_mul (Nat.le_sub_one_of_lt r.width.toNat_lt) (Nat.le_sub_one_of_lt r.height.toNat_lt)
    _ < 2 ^ 64 := by norm_num

/-- A rectangle covers with itself what it covers alone. Twice its area may wrap around, but what is
shared takes one of the two away again. -/
theorem coveredArea_self (h : 0 < r.area) : r.sharedArea r = r.area ∧ r.coveredArea r = r.area := by
  have hshared : r.sharedArea r = r.area := by
    simp only [sharedArea, intersection?_self h, Option.map_some, Option.getD_some]
  refine ⟨hshared, ?_⟩
  rw [coveredArea, hshared, UInt64.add_sub_cancel, UInt64.toNat_ofNat_of_lt' r.area_lt]

/-- **The overlap of a rectangle with itself** is one, if it is not empty. -/
theorem iou_self (h : 0 < r.area) : r.iou r = 1 := by
  obtain ⟨hshared, hcovered⟩ := coveredArea_self h
  obtain ⟨hf, hn⟩ := singleOfNat_spec r.area_lt
  have hone : OnGrid .binary32 1 := one_single.2 ▸ one_single.1.onGrid
  have hpos : 0 < singleValue (singleOfNat r.area) :=
    zero_lt_one.trans_le (hn.le_of_ge hone (by exact_mod_cast h))
  rw [iou, hcovered, hshared, if_neg h.ne']
  exact div_self_single hf hpos

end Rect

end HaarDetection
