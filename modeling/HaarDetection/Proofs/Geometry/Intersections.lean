import HaarDetection.Proofs.Geometry.Overlap

/-!
# Intersections as sets of pixels

A rectangle stands for the pixels of the plane that lie between its edges. Corners have 32 bits with a
sign and sides 32 bits without one, so edges may lie outside of the range of either; the intersection
of two rectangles is in range again.

* `Rect.points`: the pixels of a rectangle.
* `Rect.exists_mem_points_iff`: when two rectangles have a pixel in common.
* `Rect.edges_ofEdges`: a rectangle between four edges has these edges, if they are in range.
* `Rect.intersection?_edges`: the edges of an intersection.
* `Rect.intersection_points`: **the intersection of two rectangles is that of their pixels.**
-/

namespace HaarDetection

open Finset (Ico)

namespace Rect

variable {a b r : Rect} {p : ℤ × ℤ}

/-- **The pixels of a rectangle**, by their places in the plane. -/
noncomputable def points (r : Rect) : Finset (ℤ × ℤ) := Ico r.left r.right ×ˢ Ico r.top r.bottom

theorem mem_points :
    p ∈ r.points ↔ (r.left ≤ p.1 ∧ p.1 < r.right) ∧ r.top ≤ p.2 ∧ p.2 < r.bottom := by
  rw [points, Finset.mem_product, Finset.mem_Ico, Finset.mem_Ico]

/-- The sides of a rectangle lie between its edges. -/
theorem sides_eq (r : Rect) :
    (r.width.toNat : ℤ) = r.right - r.left ∧ (r.height.toNat : ℤ) = r.bottom - r.top := by
  unfold right bottom
  omega

theorem area_pos_of_mem (h : p ∈ r.points) : 0 < r.area := by
  rw [mem_points] at h
  obtain ⟨hwidth, hheight⟩ := r.sides_eq
  have hw : 0 < r.width.toNat := by omega
  have hh : 0 < r.height.toNat := by omega
  exact Nat.mul_pos hw hh

/-- **Two rectangles have a pixel in common** if there is room between the last of their left edges and
the first of their right ones, and between those above and below. -/
theorem exists_mem_points_iff (a b : Rect) : (∃ p, p ∈ a.points ∧ p ∈ b.points) ↔
    Max.max a.left b.left < Min.min a.right b.right ∧
      Max.max a.top b.top < Min.min a.bottom b.bottom := by
  simp only [mem_points]
  constructor
  · rintro ⟨p, ha, hb⟩
    omega
  · rintro ⟨hcols, hrows⟩
    -- the first of the common pixels
    exact ⟨(Max.max a.left b.left, Max.max a.top b.top), by omega, by omega⟩

/-- A corner has 32 bits with a sign. -/
theorem corner_mem (r : Rect) :
    (-2 ^ 31 ≤ r.left ∧ r.left < 2 ^ 31) ∧ -2 ^ 31 ≤ r.top ∧ r.top < 2 ^ 31 :=
  ⟨⟨r.x.le_toInt, r.x.toInt_lt⟩, r.y.le_toInt, r.y.toInt_lt⟩

/-- **A rectangle between four edges** has these edges, if its corner and its sides are in range. -/
theorem edges_ofEdges (left top right bottom : ℤ)
    (hleft : -2 ^ 31 ≤ left ∧ left < 2 ^ 31) (htop : -2 ^ 31 ≤ top ∧ top < 2 ^ 31)
    (hwidth : left ≤ right ∧ right < left + 2 ^ 32) (hheight : top ≤ bottom ∧ bottom < top + 2 ^ 32) :
    (ofEdges left top right bottom).left = left ∧ (ofEdges left top right bottom).top = top ∧
      (ofEdges left top right bottom).right = right ∧
      (ofEdges left top right bottom).bottom = bottom := by
  have hx : (ofEdges left top right bottom).left = left :=
    Int32.toInt_ofInt_of_le hleft.1 hleft.2
  have hy : (ofEdges left top right bottom).top = top :=
    Int32.toInt_ofInt_of_le htop.1 htop.2
  have hw : (ofEdges left top right bottom).width.toNat = (right - left).toNat :=
    UInt32.toNat_ofNat_of_lt' (by have : UInt32.size = 2 ^ 32 := rfl; omega)
  have hh : (ofEdges left top right bottom).height.toNat = (bottom - top).toNat :=
    UInt32.toNat_ofNat_of_lt' (by have : UInt32.size = 2 ^ 32 := rfl; omega)
  refine ⟨hx, hy, ?_, ?_⟩
  · rw [Rect.right, hx, hw]
    omega
  · rw [Rect.bottom, hy, hh]
    omega

/-- **The edges of an intersection** are the last left and upper ones and the first right and lower ones
of the two rectangles. -/
theorem intersection?_edges (h : a.intersection? b = some r) :
    (r.left = Max.max a.left b.left ∧ r.right = Min.min a.right b.right ∧ r.left < r.right) ∧
      r.top = Max.max a.top b.top ∧ r.bottom = Min.min a.bottom b.bottom ∧ r.top < r.bottom := by
  simp only [intersection?] at h
  split at h
  · rename_i hroom
    cases h
    obtain ⟨hal, hat⟩ := a.corner_mem
    obtain ⟨hbl, hbt⟩ := b.corner_mem
    -- no side is longer than that of the first rectangle
    obtain ⟨hwidth, hheight⟩ := a.sides_eq
    have hw := a.width.toNat_lt
    have hh := a.height.toNat_lt
    obtain ⟨hl, ht, hr, hb⟩ := edges_ofEdges (Max.max a.left b.left) (Max.max a.top b.top)
      (Min.min a.right b.right) (Min.min a.bottom b.bottom) (by omega) (by omega) (by omega) (by omega)
    rw [hl, ht, hr, hb]
    exact ⟨⟨rfl, rfl, hroom.1⟩, rfl, rfl, hroom.2⟩
  · cases h

theorem intersection?_comm (a b : Rect) : a.intersection? b = b.intersection? a := by
  simp only [intersection?, max_comm a.left, max_comm a.top, min_comm a.right, min_comm a.bottom]

/-- **The intersection of two rectangles** is that of their pixels. There is one exactly if the
rectangles have a pixel in common, whatever their corners and sides are. Its edges are the inner ones of
the two rectangles, nothing is lost in its corner and its sides, and its pixels are those that the
rectangles have in common. So which rectangle comes first does not matter, and a rectangle that has
pixels is its own intersection. -/
theorem intersection_points (a b : Rect) :
    ((∃ r, a.intersection? b = some r) ↔ ∃ p, p ∈ a.points ∧ p ∈ b.points) ∧
    (∀ r, a.intersection? b = some r →
      r.points = a.points ∩ b.points ∧ 0 < r.width.toNat ∧ 0 < r.height.toNat ∧
      (r.left = Max.max a.left b.left ∧
        (r.width.toNat : ℤ) = Min.min a.right b.right - Max.max a.left b.left) ∧
      r.top = Max.max a.top b.top ∧
        (r.height.toNat : ℤ) = Min.min a.bottom b.bottom - Max.max a.top b.top) ∧
    (a.intersects b = true ↔ ∃ p, p ∈ a.points ∧ p ∈ b.points) ∧
    a.intersects b = b.intersects a ∧
    a.intersection? b = b.intersection? a ∧
    (a.points.Nonempty → a.intersection? a = some a) := by
  have hshares : a.intersects b = true ↔ ∃ p, p ∈ a.points ∧ p ∈ b.points :=
    (intersects_iff a b).trans (exists_mem_points_iff a b).symm
  refine ⟨?_, ?_, hshares, intersects_comm a b, intersection?_comm a b, ?_⟩
  · rw [← hshares, intersects, Option.isSome_iff_exists]
  · intro r hr
    obtain ⟨⟨hleft, hright, hcols⟩, htop, hbottom, hrows⟩ := intersection?_edges hr
    obtain ⟨hwidth, hheight⟩ := r.sides_eq
    rw [hleft, hright] at hwidth hcols
    rw [htop, hbottom] at hheight hrows
    refine ⟨?_, by omega, by omega, ⟨hleft, hwidth⟩, htop, hheight⟩
    ext p
    rw [Finset.mem_inter, mem_points, mem_points, mem_points, hleft, hright, htop, hbottom]
    omega
  · rintro ⟨p, hp⟩
    exact intersection?_self (area_pos_of_mem hp)

/-- Windows at the two ends of the range that reach across it share the pixels between them. -/
example : (⟨-2147483648, 0, 4294967295, 2⟩ : Rect).intersection? ⟨2147483646, 1, 4294967295, 4⟩ =
    some ⟨2147483646, 1, 1, 1⟩ := by decide

end Rect

end HaarDetection
