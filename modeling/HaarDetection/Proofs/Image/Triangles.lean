import HaarDetection.Proofs.Image.Tilted

/-!
# The triangles of the tilted table

The triangle above a corner `(X, Y)` has its lowest pixel at `(X - 1, Y - 1)` and is two pixels wider in
every row further up. The table is made in buffers with margins, beyond which every triangle that could
be asked for lies beside the image.

* `InTriangle`: the positions of a triangle.
* `triangleSum_eq`: the sums over the triangles, pixel by pixel.
* `triangleSum_beyond_margin`: **beyond the margins** there is nothing to add up.
* `TiltedWork.Agrees.triangles`: **the buffers hold the triangles** on two rows.
* `tiltedTable_triangles`: **the closed form of the tilted table**, and of the buffers after every row.
-/

namespace HaarDetection

/-- **The positions of the triangle** that widens upwards from the corner `(X, Y)`. -/
def InTriangle (X Y x y : ℤ) : Prop := y < Y ∧ |x - X + 1| ≤ Y - y - 1

instance (X Y x y : ℤ) : Decidable (InTriangle X Y x y) := by
  unfold InTriangle; infer_instance

/-- A triangle lies between a diagonal and an antidiagonal. -/
theorem inTriangle_iff {X Y x y : ℤ} : InTriangle X Y x y ↔ X - Y ≤ x - y ∧ x + y ≤ X + Y - 2 := by
  rw [InTriangle, abs_le]
  omega

variable {width height : ℕ} {value : ℤ → ℤ → ℤ}

theorem triangleSum_eq (width height : ℕ) (value : ℤ → ℤ → ℤ) (X Y : ℤ) :
    triangleSum width height value X Y =
      ∑ c ∈ cells width height with InTriangle X Y c.1 c.2, value c.1 c.2 :=
  Finset.sum_congr (Finset.filter_congr fun _ _ => inTriangle_iff.symm) fun _ _ => rfl

/-- **Beyond the margins** no triangle with its corner on a row of the table has a pixel of the image:
it widens by one column in a row, and there are not more rows than the margin has columns. -/
theorem triangleSum_beyond_margin {X Y : ℤ} (hY : Y ≤ height)
    (hX : X < -tiltedMargin height ∨ width + 1 + tiltedMargin height ≤ X) :
    triangleSum width height value X Y = 0 := by
  rw [triangleSum, coneSum_eq_zero]
  -- on the left its antidiagonal is left of the image, and on the right its diagonal is right of it
  unfold tiltedMargin at hX
  push_cast at hX
  omega

/-- **The sum over the pixels of a triangle**, from the bytes of an image. -/
def trianglePixels (width height : ℕ) (bytes : ByteArray) (X Y : ℤ) : ℤ :=
  ∑ c ∈ cells width height with InTriangle X Y c.1 c.2, (bytes[c.2 * width + c.1]!.toNat : ℤ)

theorem bytePlane_vanishesOutside (width height : ℕ) (bytes : ByteArray) :
    VanishesOutside width height (bytePlane width height bytes) := fun _ _ h =>
  if_neg fun hin => h ⟨hin.1, hin.2.1, hin.2.2⟩

theorem triangleSum_bytePlane (width height : ℕ) (bytes : ByteArray) (X Y : ℤ) :
    triangleSum width height (bytePlane width height bytes) X Y =
      trianglePixels width height bytes X Y := by
  rw [triangleSum_eq]
  refine Finset.sum_congr rfl ?_
  intro c hc
  obtain ⟨hcell, -⟩ := Finset.mem_filter.1 hc
  rw [cells, Finset.mem_product, Finset.mem_range, Finset.mem_range] at hcell
  rw [bytePlane, if_pos (by omega), Int.toNat_natCast, Int.toNat_natCast]

section Buffers

variable {bytes : ByteArray} {y : ℕ} {w : TiltedWork}

/-- **The buffers hold the triangles** with their corners on the last row and on the row before, also
those with their corners in the margins. -/
theorem TiltedWork.Agrees.triangles (h : w.Agrees width height (bytePlane width height bytes) y)
    (hy : y ≤ height) {e : ℕ} (he : e < paddedWidth width height) :
    w.above1[e]? = some (trianglePixels width height bytes ((e : ℤ) - tiltedMargin height) y) ∧
      w.above2[e]? =
        some (trianglePixels width height bytes ((e : ℤ) - tiltedMargin height) ((y : ℤ) - 1)) := by
  have hhold := tiltedRowsAt_hold (bytePlane_vanishesOutside width height bytes) hy
  refine ⟨?_, ?_⟩
  · rw [h.above1, hhold.row e he, triangleSum_bytePlane]
  · rw [h.above2, hhold.above e he, triangleSum_bytePlane]

end Buffers

/-- **The closed form of the tilted table.** For bytes that are enough for the pixels of an image, the
table is made without asking for anything past the end of a buffer. Its entry for a corner is the sum
over the triangle above it. After every row one buffer holds the triangles with their corners on this
row, and another one those on the row before, also for the corners in the margins; the triangles with
their corners beyond the margins, which are taken as zero for the next row, are zero. -/
theorem tiltedTable_triangles {bytes : ByteArray} (h : width * height ≤ bytes.size) :
    (∃ table, tiltedTableOfBytes width height bytes = .ok table ∧
      table.size = (height + 1) * (width + 1) ∧
      ∀ X ≤ width, ∀ Y ≤ height,
        table[Y * (width + 1) + X]? = some (trianglePixels width height bytes X Y)) ∧
    ∀ y ≤ height,
      (∃ w, TiltedWork.afterRows width height bytes y = .ok w ∧
        w.above1.size = width + 1 + 2 * (height + 1) ∧ w.above2.size = width + 1 + 2 * (height + 1) ∧
        w.row.size = width + 1 + 2 * (height + 1) ∧
        ∀ e < width + 1 + 2 * (height + 1),
          w.above1[e]? = some (trianglePixels width height bytes ((e : ℤ) - (height + 1)) y) ∧
          w.above2[e]? = some (trianglePixels width height bytes ((e : ℤ) - (height + 1)) (y - 1))) ∧
      ∀ X : ℤ, X < -(height + 1) ∨ width + 1 + (height + 1) ≤ X →
        trianglePixels width height bytes X y = 0 := by
  have hv := bytePlane_vanishesOutside width height bytes
  refine ⟨⟨_, tiltedTableOfBytes_eq (pixelAt_eq h), tiltedTable_size _ _ _, ?_⟩, ?_⟩
  · intro X hX Y hY
    rw [tiltedTable_getElem? hv hX hY, triangleSum_bytePlane]
  · intro y hy
    obtain ⟨w, hw, hagrees⟩ := TiltedWork.afterRows_agrees (pixelAt_eq h) hy
    have hmargin : (tiltedMargin height : ℤ) = height + 1 := rfl
    refine ⟨⟨w, hw, hagrees.above1_size, hagrees.above2_size, hagrees.row_size, ?_⟩, ?_⟩
    · intro e he
      rw [← hmargin]
      exact hagrees.triangles hy he
    · intro X hX
      rw [← triangleSum_bytePlane]
      refine triangleSum_beyond_margin (by exact_mod_cast hy) ?_
      rwa [hmargin]

/-- The triangle above the last corner but one in the last row reaches all keys of the first rows. -/
theorem tiltedTable_triangles_keypad : 3 * 3 ≤ IntegralImage.keypad.bytes.size ∧
    ∃ table, tiltedTableOfBytes 3 3 IntegralImage.keypad.bytes = .ok table ∧
      table[3 * (3 + 1) + 2]? = some (8 + (4 + 5 + 6) + (1 + 2 + 3)) := by
  have h : 3 * 3 ≤ IntegralImage.keypad.bytes.size := by decide
  obtain ⟨⟨table, htable, -, hentry⟩, -⟩ := tiltedTable_triangles h
  refine ⟨h, table, htable, ?_⟩
  rw [hentry 2 (by decide) 3 (by decide)]
  decide +kernel

end HaarDetection
