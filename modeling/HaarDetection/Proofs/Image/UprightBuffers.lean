import HaarDetection.Proofs.Image.Loops
import HaarDetection.Proofs.Image.Tables

/-!
# The upright tables made in buffers

The two upright tables are filled pixel by pixel. No place past the end of a table is ever asked for, and
after every pixel the entries that have been made are the sums over the pixels above and left of them,
while the others are zero.

* `FilledTo`: a table of which some rows, and some entries of the next one, have been made.
* `FilledTo.write`: **the entry for the next pixel.**
* `UprightWork.Agrees`, `UprightWork.Filled`: both tables are filled up to a pixel, and up to a row.
* `UprightWork.afterRows_filled`: **so they are after every row.**
* `uprightTablesOfBytes_eq`: **the tables made in buffers** are those that the rows make up.
-/

namespace HaarDetection

open Finset (range)

variable {width height : ℕ} {bytes : ByteArray} {value : ℕ → ℕ → ℕ}

/-- **A table with the entries for `y` rows of pixels** and for `x` pixels of the next row. All other
entries are zero. -/
structure FilledTo (width height : ℕ) (value : ℕ → ℕ → ℕ) (y x : ℕ) (table : Array ℕ) : Prop where
  size : table.size = (height + 1) * (width + 1)
  entry : ∀ X ≤ width, ∀ Y ≤ height, table[Y * (width + 1) + X]? =
    some (if Y ≤ y ∨ Y = y + 1 ∧ X ≤ x then prefixSum value X Y else 0)

theorem prefixSum_zero (value : ℕ → ℕ → ℕ) (Y : ℕ) : prefixSum value 0 Y = 0 := by
  simp [prefixSum]

namespace FilledTo

variable {table : Array ℕ} {y x : ℕ}

/-- Nothing is made yet. -/
theorem blank (width height : ℕ) (value : ℕ → ℕ → ℕ) :
    FilledTo width height value 0 0 (Array.replicate ((width + 1) * (height + 1)) 0) := by
  refine ⟨by rw [Array.size_replicate, Nat.mul_comm], ?_⟩
  intro X hX Y hY
  have hlt : Y * (width + 1) + X < (width + 1) * (height + 1) :=
    (cell_lt hX hY).trans_eq (Nat.mul_comm _ _)
  rw [Array.getElem?_replicate, if_pos hlt]
  split_ifs with h
  · -- the first row and the first column stay zero
    rcases h with h | ⟨-, h⟩
    · rw [Nat.le_zero.1 h]
      rfl
    · rw [Nat.le_zero.1 h, prefixSum_zero]
  · rfl

/-- **The entry for the next pixel**, from the one above it. -/
theorem write (h : FilledTo width height value y x table) (hy : y < height) (hx : x < width) :
    readAt table ((y + 1) * (width + 1) + (x + 1) - (width + 1)) = .ok (prefixSum value (x + 1) y) ∧
      ∃ table', writeAt table ((y + 1) * (width + 1) + (x + 1))
          (prefixSum value (x + 1) y + ∑ i ∈ range (x + 1), value i y) = .ok table' ∧
        FilledTo width height value y (x + 1) table' := by
  have habove : (y + 1) * (width + 1) + (x + 1) - (width + 1) = y * (width + 1) + (x + 1) := by
    rw [Nat.succ_mul]
    omega
  have hplace : (y + 1) * (width + 1) + (x + 1) < table.size := h.size ▸ cell_lt hx hy
  obtain ⟨table', hwrite, hsize, hentry⟩ :=
    writeAt_ok hplace (prefixSum value (x + 1) y + ∑ i ∈ range (x + 1), value i y)
  refine ⟨?_, table', hwrite, hsize.trans h.size, ?_⟩
  · rw [habove]
    exact readAt_eq (by rw [h.entry (x + 1) hx y hy.le, if_pos (.inl le_rfl)])
  · intro X hX Y hY
    rw [hentry, if_congr (cell_inj hx hX) rfl rfl, h.entry X hX Y hY]
    -- the place that is written to is the only one that changes, and the only one that comes in
    split_ifs with h1 h2 h3 h3
    · rw [← h1.1, ← h1.2, prefixSum_succ]
    · omega
    · rfl
    · omega
    · omega
    · rfl

/-- When all pixels of a row have come in, its entries have been made. The next row begins with a zero. -/
theorem next_row (h : FilledTo width height value y width table) :
    FilledTo width height value (y + 1) 0 table := by
  refine ⟨h.size, ?_⟩
  intro X hX Y hY
  rw [h.entry X hX Y hY]
  split_ifs with h1 h2 h2
  · rfl
  · omega
  · obtain rfl : X = 0 := by omega
    rw [prefixSum_zero]
  · rfl

/-- **A filled table** is the one that the rows make up. -/
theorem eq_sumTable (h : FilledTo width height value height 0 table) :
    table = sumTable width height value := by
  refine table_ext h.size (sumTable_size width height value) ?_
  intro X hX Y hY
  rw [h.entry X hX Y hY, if_pos (.inl hY), sumTable_getElem? value hX hY]

end FilledTo

/-- **Both tables are filled up to a pixel**, and the sums over the row are those up to it. -/
structure UprightWork.Agrees (width height : ℕ) (value : ℕ → ℕ → ℕ) (y x : ℕ) (work : UprightWork) :
    Prop where
  sums : FilledTo width height value y x work.sums
  squares : FilledTo width height (fun i j => value i j * value i j) y x work.squares
  rowSum : work.rowSum = ∑ i ∈ range x, value i y
  rowSquares : work.rowSquares = ∑ i ∈ range x, value i y * value i y

namespace UprightWork

variable {y x : ℕ} {work : UprightWork}

/-- **One more pixel.** -/
theorem Agrees.addPixel (hpixel : readByte bytes (y * width + x) = .ok (value x y))
    (h : work.Agrees width height value y x) (hy : y < height) (hx : x < width) :
    ∃ work', work.addPixel width bytes y x = .ok work' ∧ work'.Agrees width height value y (x + 1) := by
  obtain ⟨sums, squares, rowSum, rowSquares⟩ := work
  obtain ⟨hsums, hsquares, rfl, rfl⟩ := h
  obtain ⟨habove, sums', hwrite, hsums'⟩ := hsums.write hy hx
  obtain ⟨habove', squares', hwrite', hsquares'⟩ := hsquares.write hy hx
  rw [Finset.sum_range_succ] at hwrite hwrite'
  refine ⟨⟨sums', squares', ∑ i ∈ range x, value i y + value x y,
    ∑ i ∈ range x, value i y * value i y + value x y * value x y⟩, ?_,
    hsums', hsquares', (Finset.sum_range_succ _ _).symm, (Finset.sum_range_succ _ _).symm⟩
  simp only [UprightWork.addPixel, hpixel, habove, hwrite, habove', hwrite', bind, Except.bind, pure,
    Except.pure]

/-- **Both tables are filled** with the entries for some rows of pixels. -/
structure Filled (width height : ℕ) (value : ℕ → ℕ → ℕ) (y : ℕ) (work : UprightWork) : Prop where
  sums : FilledTo width height value y 0 work.sums
  squares : FilledTo width height (fun i j => value i j * value i j) y 0 work.squares

theorem blank_filled (width height : ℕ) (value : ℕ → ℕ → ℕ) :
    (blank width height).Filled width height value 0 :=
  ⟨FilledTo.blank width height value, FilledTo.blank width height _⟩

/-- **One more row**, for which the sums over the row begin with zero. -/
theorem Filled.addRow (hpixel : ∀ x < width, readByte bytes (y * width + x) = .ok (value x y))
    (h : work.Filled width height value y) (hy : y < height) :
    ∃ work', work.addRow width bytes y = .ok work' ∧ work'.Filled width height value (y + 1) := by
  have hstart : ({ work with rowSum := 0, rowSquares := 0 } : UprightWork).Agrees width height value y 0 :=
    ⟨h.sums, h.squares, rfl, rfl⟩
  have hstep : ∀ (x : ℕ) (w : UprightWork), x < 0 + width → w.Agrees width height value y x →
      ∃ w', w.addPixel width bytes y x = .ok w' ∧ w'.Agrees width height value y (x + 1) :=
    fun x w hx hw => hw.addPixel (hpixel x (by omega)) hy (by omega)
  obtain ⟨work', hwork', hfull⟩ := countUp_keeps hstart hstep
  rw [Nat.zero_add] at hfull
  exact ⟨work', hwork', hfull.sums.next_row, hfull.squares.next_row⟩

/-- **After every row** the tables are filled with the entries for the rows so far, and nothing was
asked for past their ends. -/
theorem afterRows_filled
    (hpixel : ∀ y < height, ∀ x < width, readByte bytes (y * width + x) = .ok (value x y))
    (hy : y ≤ height) :
    ∃ work, afterRows width height bytes y = .ok work ∧ work.Filled width height value y := by
  have hrow : ∀ (z : ℕ) (w : UprightWork), z < 0 + y → w.Filled width height value z →
      ∃ w', w.addRow width bytes z = .ok w' ∧ w'.Filled width height value (z + 1) :=
    fun z w hz h => h.addRow (hpixel z (by omega)) (by omega)
  have hloop := countUp_keeps (blank_filled width height value) hrow
  rwa [Nat.zero_add] at hloop

end UprightWork

/-- **The upright tables made in buffers** are those that the rows make up. -/
theorem uprightTablesOfBytes_eq
    (hpixel : ∀ y < height, ∀ x < width, readByte bytes (y * width + x) = .ok (value x y)) :
    uprightTablesOfBytes width height bytes = .ok (sumTable width height value,
      sumTable width height fun x y => value x y * value x y) := by
  obtain ⟨work, hwork, h⟩ := UprightWork.afterRows_filled hpixel (le_refl height)
  simp only [uprightTablesOfBytes, hwork, bind, Except.bind, pure, Except.pure, h.sums.eq_sumTable,
    h.squares.eq_sumTable]

/-- The bytes of an image are enough for all its pixels. -/
theorem readByte_pixel (p : Pixels) {x y : ℕ} (hx : x < p.width) (hy : y < p.height) :
    readByte p.bytes (y * p.width + x) = .ok (p.pixel x y) := by
  rw [readByte_of_lt (p.index_lt hx hy), Pixels.pixel, dif_pos ⟨hx, hy⟩]
  rfl

end HaarDetection
