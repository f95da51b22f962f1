import HaarDetection.Proofs.Image.UprightBuffers

/-!
# Buffers that are used again

The tilted table is made in three buffers that change places after every row. No place past the end of
a buffer is ever asked for, and after every row the buffers hold the last two rows, so that the table is
the one that the rows make up.

* `bytePlane`, `pixelAt_eq`: a pixel anywhere in the plane.
* `tiltedEntry_eq`: **an entry of the next row,** from the buffers.
* `TiltedWork.Agrees`: the buffers hold the last rows, and the table all rows up to the last one.
* `TiltedWork.afterRows_agrees`: **they do so after every row.**
* `tiltedTableOfBytes_eq`, `IntegralImage.ofBytes_eq`: **the tables made in buffers** are those of the
  image.
-/

namespace HaarDetection

variable {width height : ℕ} {bytes : ByteArray}

/-- **A pixel anywhere in the plane**, from the bytes of an image, row after row. -/
def bytePlane (width height : ℕ) (bytes : ByteArray) (x y : ℤ) : ℤ :=
  if 0 ≤ x ∧ x < width ∧ 0 ≤ y ∧ y < height then bytes[y.toNat * width + x.toNat]!.toNat else 0

/-- The bytes are enough for all pixels. -/
theorem pixelAt_eq (hbytes : width * height ≤ bytes.size) (x y : ℤ) :
    pixelAt width height bytes x y = .ok (bytePlane width height bytes x y) := by
  unfold pixelAt bytePlane
  by_cases h : 0 ≤ x ∧ x < width ∧ 0 ≤ y ∧ y < height
  · have hlt : y.toNat * width + x.toNat < bytes.size := by
      calc y.toNat * width + x.toNat < y.toNat * width + width := by omega
        _ = (y.toNat + 1) * width := (Nat.succ_mul _ _).symm
        _ ≤ height * width := Nat.mul_le_mul_right _ (by omega)
        _ = width * height := Nat.mul_comm _ _
        _ ≤ bytes.size := hbytes
    rw [if_neg (by omega), if_pos h, readByte_of_lt hlt, getElem!_pos bytes _ hlt]
    rfl
  · rw [if_pos (by omega), if_neg h]

theorem plane_eq_bytePlane (p : Pixels) :
    IntegralImage.plane p = bytePlane p.width p.height p.bytes := by
  funext x y
  unfold IntegralImage.plane bytePlane Pixels.pixel
  by_cases h : 0 ≤ x ∧ x < p.width ∧ 0 ≤ y ∧ y < p.height
  · have hin : x.toNat < p.width ∧ y.toNat < p.height := by omega
    rw [if_pos (by omega), dif_pos hin, if_pos h, getElem!_pos p.bytes _ (p.index_lt hin.1 hin.2)]
    rfl
  · rw [if_neg h]
    split
    · rw [dif_neg (by omega)]
      rfl
    · rfl

variable {value : ℤ → ℤ → ℤ}

/-- **An entry of the next row**, from the buffers of the two rows above it. -/
theorem tiltedEntry_eq (hpixel : ∀ x y, pixelAt width height bytes x y = .ok (value x y)) (y : ℕ)
    {rows : TiltedRows} (hrow : rows.row.size = paddedWidth width height)
    (habove : rows.above.size = paddedWidth width height) {e : ℕ} (he : e < paddedWidth width height) :
    tiltedEntry width height bytes y rows.above rows.row e =
      .ok ((rows.next (tiltedMargin height) value y).row.getD e 0) := by
  have hleft : (if 0 < e then readAt rows.row (e - 1) else .ok 0) =
      .ok (if e = 0 then 0 else rows.row.getD (e - 1) 0) := by
    split_ifs with h0 h1 h1
    · omega
    · exact readAt_of_lt (by omega) 0
    · rfl
    · omega
  -- past its end a row reads as zero, which is what the last place adds
  have hright : (if e + 1 < paddedWidth width height then readAt rows.row (e + 1) else .ok 0) =
      .ok (rows.row.getD (e + 1) 0) := by
    split_ifs with h1
    · exact readAt_of_lt (by omega) 0
    · rw [Array.getD_eq_getD_getElem?, Array.getElem?_eq_none (by omega), Option.getD_none]
  have hup : readAt rows.above e = .ok (rows.above.getD e 0) := readAt_of_lt (by omega) 0
  have hnext : (rows.next (tiltedMargin height) value y).row[e]? = some
      ((if e = 0 then 0 else rows.row.getD (e - 1) 0) + rows.row.getD (e + 1) 0 - rows.above.getD e 0 +
        value ((e : ℤ) - tiltedMargin height - 1) y +
        value ((e : ℤ) - tiltedMargin height - 1) ((y : ℤ) - 1)) := by
    simp only [TiltedRows.next, Array.getElem?_ofFn, hrow, he, dif_pos]
  rw [Array.getD_eq_getD_getElem?, hnext, Option.getD_some]
  simp only [tiltedEntry, hleft, hright, hup, hpixel, bind, Except.bind, pure, Except.pure]

/-- **The next row** fills its buffer, whatever the buffer held before. -/
theorem fillFrom_tiltedEntry (hpixel : ∀ x y, pixelAt width height bytes x y = .ok (value x y)) (y : ℕ)
    {rows : TiltedRows} (hrow : rows.row.size = paddedWidth width height)
    (habove : rows.above.size = paddedWidth width height) {row : Array ℤ}
    (hsize : row.size = paddedWidth width height) :
    fillFrom 0 (paddedWidth width height) (tiltedEntry width height bytes y rows.above rows.row) row =
      .ok (rows.next (tiltedMargin height) value y).row := by
  have hbound : 0 + paddedWidth width height ≤ row.size := by omega
  obtain ⟨row', hfill, hsize', hentry⟩ :=
    fillFrom_ok (fun e he => tiltedEntry_eq hpixel y hrow habove he) hbound
  have heq : row' = (rows.next (tiltedMargin height) value y).row := by
    refine Array.ext_getElem? fun j => ?_
    have hnext := tiltedNext_size (tiltedMargin height) value y rows
    rw [hentry, Nat.sub_zero]
    split_ifs with hj
    · rw [Array.getD_eq_getD_getElem?, Array.getElem?_eq_getElem (by omega), Option.getD_some]
    · rw [Array.getElem?_eq_none (by omega), Array.getElem?_eq_none (by omega)]
  rw [← heq]
  exact hfill

/-- **A row without its margins** is copied to its place in the table, and the other rows of the table
stay. -/
theorem fillFrom_readAt {row table : Array ℤ} {R : ℕ} (hrow : row.size = paddedWidth width height)
    (htable : table.size = (height + 1) * (width + 1)) (hR : R ≤ height) :
    ∃ table', fillFrom (R * (width + 1)) (width + 1) (fun x => readAt row (tiltedMargin height + x)) table =
        .ok table' ∧ table'.size = table.size ∧
      ∀ X ≤ width, ∀ Y, table'[Y * (width + 1) + X]? =
        if Y = R then row[tiltedMargin height + X]? else table[Y * (width + 1) + X]? := by
  have hread : ∀ x < width + 1, readAt row (tiltedMargin height + x) =
      .ok (row.getD (tiltedMargin height + x) 0) := by
    intro x hx
    exact readAt_of_lt (by rw [hrow, paddedWidth]; omega) 0
  have hplace : R * (width + 1) + (width + 1) ≤ table.size := by
    rw [htable, ← Nat.succ_mul]
    exact Nat.mul_le_mul_right _ (Nat.succ_le_succ hR)
  obtain ⟨table', hcopy, hsize, hentry⟩ := fillFrom_ok hread hplace
  refine ⟨table', hcopy, hsize, ?_⟩
  intro X hX Y
  rw [hentry, if_congr (place_in_row_iff hX) rfl rfl]
  split_ifs with hY
  · rw [hY, Nat.add_sub_cancel_left, Array.getD_eq_getD_getElem?,
      Array.getElem?_eq_getElem (by rw [hrow, paddedWidth]; omega), Option.getD_some]
  · rfl

/-- **The buffers hold the last two rows**, and the table all rows up to the last one. -/
structure TiltedWork.Agrees (width height : ℕ) (value : ℤ → ℤ → ℤ) (y : ℕ) (w : TiltedWork) : Prop where
  above1 : w.above1 = (tiltedRowsAt width height value y).row
  above2 : w.above2 = (tiltedRowsAt width height value y).above
  row_size : w.row.size = paddedWidth width height
  table_size : w.table.size = (height + 1) * (width + 1)
  table : ∀ X ≤ width, ∀ Y ≤ y, w.table[Y * (width + 1) + X]? =
    (tiltedRowsAt width height value Y).row[tiltedMargin height + X]?

namespace TiltedWork

theorem Agrees.above1_size {y : ℕ} {w : TiltedWork} (h : w.Agrees width height value y) :
    w.above1.size = paddedWidth width height := by
  rw [h.above1]
  exact tiltedRowsAt_row_size width height value y

theorem Agrees.above2_size {y : ℕ} {w : TiltedWork} (h : w.Agrees width height value y) :
    w.above2.size = paddedWidth width height := by
  rw [h.above2]
  exact tiltedRowsAt_above_size width height value y

theorem blank_agrees (width height : ℕ) (value : ℤ → ℤ → ℤ) :
    (blank width height).Agrees width height value 0 := by
  have hsize : (blank width height).table.size = (height + 1) * (width + 1) := by
    rw [blank, Array.size_replicate, Nat.mul_comm]
  refine ⟨rfl, rfl, Array.size_replicate, hsize, ?_⟩
  intro X hX Y hY
  obtain rfl : Y = 0 := Nat.le_zero.1 hY
  have hplace : 0 * (width + 1) + X < (width + 1) * (height + 1) :=
    (cell_lt hX (Nat.zero_le height)).trans_eq (Nat.mul_comm _ _)
  rw [blank, tiltedRowsAt, Array.getElem?_replicate, Array.getElem?_replicate, if_pos hplace,
    if_pos (by rw [paddedWidth]; omega)]

/-- **One more row.** The buffers take turns: the last row becomes the one above, and the buffer of the
row above is written to next. -/
theorem Agrees.addRow (hpixel : ∀ x y, pixelAt width height bytes x y = .ok (value x y)) {y : ℕ}
    {w : TiltedWork} (h : w.Agrees width height value y) (hy : y < height) :
    ∃ w', w.addRow width height bytes y = .ok w' ∧ w'.Agrees width height value (y + 1) := by
  obtain ⟨table, above2, above1, row⟩ := w
  obtain ⟨rfl, rfl, hrow, hsize, htable⟩ := h
  set rows := tiltedRowsAt width height value y with hrows
  set next := tiltedRowsAt width height value (y + 1) with hnext
  have hfill : fillFrom 0 (paddedWidth width height)
      (tiltedEntry width height bytes y rows.above rows.row) row = .ok next.row :=
    fillFrom_tiltedEntry hpixel y (tiltedRowsAt_row_size width height value y)
      (tiltedRowsAt_above_size width height value y) hrow
  have hmade : next.row.size = paddedWidth width height :=
    tiltedRowsAt_row_size width height value (y + 1)
  have hold : table.size = (height + 1) * (width + 1) := hsize
  obtain ⟨table', hcopy, hsize', htable'⟩ := fillFrom_readAt (R := y + 1) hmade hold hy
  refine ⟨⟨table', rows.row, next.row, rows.above⟩, ?_, ?_⟩
  · simp only [TiltedWork.addRow, hfill, hcopy, bind, Except.bind, pure, Except.pure]
  · refine ⟨rfl, rfl, tiltedRowsAt_above_size width height value y, hsize'.trans hold, ?_⟩
    intro X hX Y hY
    rw [htable' X hX]
    split_ifs with hlast
    · rw [hlast]
    · exact htable X hX Y (by omega)

/-- **After every row** the buffers hold the last two rows, and nothing was asked for past their
ends. -/
theorem afterRows_agrees (hpixel : ∀ x y, pixelAt width height bytes x y = .ok (value x y)) {y : ℕ}
    (hy : y ≤ height) :
    ∃ w, afterRows width height bytes y = .ok w ∧ w.Agrees width height value y := by
  have hrow : ∀ (z : ℕ) (w : TiltedWork), z < 0 + y → w.Agrees width height value z →
      ∃ w', w.addRow width height bytes z = .ok w' ∧ w'.Agrees width height value (z + 1) :=
    fun z w hz h => h.addRow hpixel (by omega)
  have hloop := countUp_keeps (blank_agrees width height value) hrow
  rwa [Nat.zero_add] at hloop

end TiltedWork

/-- **The tilted table made in buffers** is the one that the rows make up. -/
theorem tiltedTableOfBytes_eq (hpixel : ∀ x y, pixelAt width height bytes x y = .ok (value x y)) :
    tiltedTableOfBytes width height bytes = .ok (tiltedTable width height value) := by
  obtain ⟨w, hw, h⟩ := TiltedWork.afterRows_agrees hpixel (le_refl height)
  have htable : w.table = tiltedTable width height value := by
    refine table_ext h.table_size (tiltedTable_size width height value) ?_
    intro X hX Y hY
    rw [h.table X hX Y hY, tiltedTable_getElem?_row value hX hY]
  simp only [tiltedTableOfBytes, hw, bind, Except.bind, pure, Except.pure, htable]

/-- **The tables of the bytes of an image** are made without a fault. -/
theorem IntegralImage.ofBytes_eq (p : Pixels) : ofBytes p.size p.bytes = .ok (ofPixels p) := by
  have hupright : uprightTablesOfBytes p.size.width.toNat p.size.height.toNat p.bytes =
      .ok (sumTable p.width p.height p.pixel,
        sumTable p.width p.height fun x y => p.pixel x y * p.pixel x y) :=
    uprightTablesOfBytes_eq fun y hy x hx => readByte_pixel p hx hy
  have htilted : tiltedTableOfBytes p.size.width.toNat p.size.height.toNat p.bytes =
      .ok (tiltedTable p.width p.height (plane p)) := by
    rw [plane_eq_bytePlane]
    exact tiltedTableOfBytes_eq (pixelAt_eq p.size_bytes.ge)
  rw [ofBytes, if_pos p.size_bytes, hupright, htilted]
  rfl

end HaarDetection
