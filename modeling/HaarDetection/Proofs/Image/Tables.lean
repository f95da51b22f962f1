import Mathlib
import HaarDetection.Image.Integral

/-!
# The tables of an integral image

A table is made row by row, each from the row before. The upright ones hold the sums over all pixels
above a row and left of a column, so that the sum over a rectangle is never below zero.

* `TableRows`: what the rows of a table keep, and from it the size and the entries of the table.
* `prefixSum`: the sum over the pixels above a row and left of a column.
* `sumTable_getElem?`: **the entries of an upright table.**
* `tiltedRowsAt`: the rows of the tilted table, with margins.
* `tiltedTable_size`, `tiltedTable_getElem?_row`: the tilted table has an entry for every corner too,
  and it is one of its row.
* `cell_lt`, `cell_inj`: every entry has a place of its own in the table.
* `table_ext`: tables with the same entries are the same.
* `IntegralImage.lookup_ofPixels`: **every query inside of the image is answered.**
-/

namespace HaarDetection

section Rows

variable {β : Type}

theorem rowsFrom_length (next : ℕ → β → β) (count y : ℕ) (row : β) :
    (rowsFrom next count y row).length = count + 1 := by
  induction count generalizing y row with
  | zero => rfl
  | succ count ih => simp [rowsFrom, ih]

/-- **What every step keeps, every row has.** -/
theorem rowsFrom_getElem? {next : ℕ → β → β} {I : ℕ → β → Prop} {count y : ℕ} {row : β}
    (h0 : I y row) (hnext : ∀ z r, I z r → I (z + 1) (next z r)) {k : ℕ} (hk : k ≤ count) :
    ∃ r, (rowsFrom next count y row)[k]? = some r ∧ I (y + k) r := by
  induction count generalizing y row k with
  | zero =>
    obtain rfl : k = 0 := by omega
    exact ⟨row, rfl, h0⟩
  | succ count ih =>
    cases k with
    | zero => exact ⟨row, rfl, h0⟩
    | succ k =>
      have := ih (y := y + 1) (hnext y row h0) (show k ≤ count by omega)
      rwa [show y + 1 + k = y + (k + 1) by omega] at this

theorem flatten_length {rows : List (List β)} {n : ℕ} (h : ∀ r ∈ rows, r.length = n) :
    rows.flatten.length = rows.length * n := by
  induction rows with
  | nil => simp
  | cons r rows ih =>
    rw [List.flatten_cons, List.length_append, h r List.mem_cons_self,
      ih fun r' hr' => h r' (List.mem_cons_of_mem _ hr'), List.length_cons, Nat.succ_mul, Nat.add_comm]

/-- Where an element of a row is when all rows are in one list. -/
theorem flatten_getElem? {rows : List (List β)} {n : ℕ} (h : ∀ r ∈ rows, r.length = n) {i j : ℕ}
    (hj : j < n) : rows.flatten[i * n + j]? = rows[i]?.bind (·[j]?) := by
  induction rows generalizing i with
  | nil => simp
  | cons r rows ih =>
    have hr := h r List.mem_cons_self
    rw [List.flatten_cons]
    cases i with
    | zero =>
      rw [Nat.zero_mul, Nat.zero_add, List.getElem?_append_left (by omega)]
      rfl
    | succ i =>
      rw [List.getElem?_append_right (by rw [hr, Nat.succ_mul]; omega), hr,
        show (i + 1) * n + j - n = i * n + j by rw [Nat.succ_mul]; omega,
        ih fun r' hr' => h r' (List.mem_cons_of_mem _ hr')]
      rfl

variable {γ : Type} {next : ℕ → β → β} {cut : β → List γ} {n : ℕ} {first : β} {I : ℕ → β → Prop}

/-- **What the rows of a table keep:** the first row has it, the next row has it if the row before does,
and what is cut out of a row that has it are `n` entries. -/
structure TableRows (next : ℕ → β → β) (cut : β → List γ) (n : ℕ) (first : β) (I : ℕ → β → Prop) :
    Prop where
  first : I 0 first
  next : ∀ y r, I y r → I (y + 1) (next y r)
  length : ∀ y r, I y r → (cut r).length = n

namespace TableRows

theorem getElem? (h : TableRows next cut n first I) {height k : ℕ} (hk : k ≤ height) :
    ∃ r, (rowsFrom next height 0 first)[k]? = some r ∧ I k r := by
  have hrow := rowsFrom_getElem? h.first h.next hk
  rwa [Nat.zero_add] at hrow

theorem length_eq (h : TableRows next cut n first I) (height : ℕ) :
    ∀ r ∈ (rowsFrom next height 0 first).map cut, r.length = n := by
  intro r hr
  obtain ⟨a, ha, rfl⟩ := List.mem_map.1 hr
  obtain ⟨k, hk, rfl⟩ := List.mem_iff_getElem.1 ha
  rw [rowsFrom_length] at hk
  obtain ⟨a, ha', hI⟩ := h.getElem? (Nat.le_of_lt_succ hk)
  rw [List.getElem?_eq_some_iff] at ha'
  obtain ⟨_, rfl⟩ := ha'
  exact h.length k _ hI

/-- **The table has an entry for every corner.** -/
theorem size (h : TableRows next cut n first I) (height : ℕ) :
    ((rowsFrom next height 0 first).map cut).flatten.toArray.size = (height + 1) * n := by
  rw [List.size_toArray, flatten_length (h.length_eq height), List.length_map, rowsFrom_length]

/-- **An entry of the table** is one of its row. -/
theorem entry (h : TableRows next cut n first I) {height X Y : ℕ} (hX : X < n) (hY : Y ≤ height) :
    ∃ r, I Y r ∧ ((rowsFrom next height 0 first).map cut).flatten.toArray[Y * n + X]? = (cut r)[X]? := by
  obtain ⟨r, hr, hI⟩ := h.getElem? hY
  refine ⟨r, hI, ?_⟩
  rw [List.getElem?_toArray, flatten_getElem? (h.length_eq height) hX, List.getElem?_map, hr]
  rfl

end TableRows

end Rows

/-- **The sum over the pixels** above the row `Y` and left of the column `X`. -/
def prefixSum (value : ℕ → ℕ → ℕ) (X Y : ℕ) : ℕ :=
  ∑ y ∈ Finset.range Y, ∑ x ∈ Finset.range X, value x y

theorem prefixSum_succ (value : ℕ → ℕ → ℕ) (X Y : ℕ) :
    prefixSum value X (Y + 1) = prefixSum value X Y + ∑ x ∈ Finset.range X, value x Y :=
  Finset.sum_range_succ _ _

/-- The corners of a rectangle never give a sum below zero. -/
theorem prefixSum_corners (value : ℕ → ℕ → ℕ) (x y w h : ℕ) :
    prefixSum value (x + w) y + prefixSum value x (y + h) ≤
      prefixSum value x y + prefixSum value (x + w) (y + h) := by
  induction h with
  | zero => rw [Nat.add_zero, Nat.add_comm]
  | succ h ih =>
    have hrow : ∑ i ∈ Finset.range x, value i (y + h) ≤ ∑ i ∈ Finset.range (x + w), value i (y + h) :=
      Finset.sum_le_sum_of_subset (Finset.range_mono (Nat.le_add_right x w))
    rw [← Nat.add_assoc, prefixSum_succ, prefixSum_succ]
    omega

/-- The sums of the leading values, with the last one of them beside the array. -/
theorem runningSums_fold (f : ℕ → ℕ) (n : ℕ) :
    (Nat.fold n (fun x _ (sums, total) => (sums.push (total + f x), total + f x)) (#[0], 0) :
        Array ℕ × ℕ) =
      (Array.ofFn fun k : Fin (n + 1) => ∑ i ∈ Finset.range k, f i, ∑ i ∈ Finset.range n, f i) := by
  induction n with
  | zero => rfl
  | succ n ih =>
    rw [Nat.fold_succ, ih, Array.ofFn_succ (n := n + 1)]
    simp only [Finset.sum_range_succ, Fin.val_castSucc]

theorem runningSums_eq (f : ℕ → ℕ) (n : ℕ) :
    runningSums f n = Array.ofFn fun k : Fin (n + 1) => ∑ i ∈ Finset.range k, f i :=
  congrArg Prod.fst (runningSums_fold f n)

theorem runningSums_size (f : ℕ → ℕ) (n : ℕ) : (runningSums f n).size = n + 1 := by
  rw [runningSums_eq, Array.size_ofFn]

theorem runningSums_getElem? (f : ℕ → ℕ) {n k : ℕ} (hk : k ≤ n) :
    (runningSums f n)[k]? = some (∑ i ∈ Finset.range k, f i) := by
  rw [runningSums_eq, Array.getElem?_ofFn, dif_pos (by omega)]

/-- The rows of an upright table have an entry for every column, and the row `y` holds the sums of the
rows of pixels above `y`. -/
theorem sumTable_rows (width : ℕ) (value : ℕ → ℕ → ℕ) :
    TableRows (fun y above => Array.zipWith (· + ·) above (runningSums (value · y) width)) Array.toList
      (width + 1) (Array.replicate (width + 1) 0) fun y r =>
        r.size = width + 1 ∧ ∀ k ≤ width, r[k]? = some (prefixSum value k y) where
  first := by
    refine ⟨Array.size_replicate, ?_⟩
    intro k hk
    rw [Array.getElem?_replicate, if_pos (by omega)]
    rfl
  next := by
    rintro y above ⟨hsize, hentry⟩
    refine ⟨by rw [Array.size_zipWith, hsize, runningSums_size, min_self], ?_⟩
    intro k hk
    rw [Array.getElem?_zipWith, hentry k hk, runningSums_getElem? _ hk, prefixSum_succ]
  length _ r hr := by rw [Array.length_toList, hr.1]

theorem sumTable_size (width height : ℕ) (value : ℕ → ℕ → ℕ) :
    (sumTable width height value).size = (height + 1) * (width + 1) :=
  (sumTable_rows width value).size height

/-- **The entries of an upright table.** -/
theorem sumTable_getElem? (value : ℕ → ℕ → ℕ) {width height X Y : ℕ} (hX : X ≤ width)
    (hY : Y ≤ height) :
    (sumTable width height value)[Y * (width + 1) + X]? = some (prefixSum value X Y) := by
  obtain ⟨r, ⟨-, hrow⟩, hentry⟩ := (sumTable_rows width value).entry (Nat.lt_succ_of_le hX) hY
  calc (sumTable width height value)[Y * (width + 1) + X]? = r.toList[X]? := hentry
    _ = r[X]? := Array.getElem?_toList
    _ = some (prefixSum value X Y) := hrow X hX

theorem tiltedNext_size (margin : ℕ) (value : ℤ → ℤ → ℤ) (y : ℕ) (rows : TiltedRows) :
    (rows.next margin value y).row.size = rows.row.size := by
  simp [TiltedRows.next]

/-- **The rows of the tilted table** with their margins, each with the row above it. -/
def tiltedRowsAt (width height : ℕ) (value : ℤ → ℤ → ℤ) : ℕ → TiltedRows
  | 0 => ⟨Array.replicate (paddedWidth width height) 0, Array.replicate (paddedWidth width height) 0⟩
  | y + 1 => (tiltedRowsAt width height value y).next (tiltedMargin height) value y

theorem tiltedRowsAt_row_size (width height : ℕ) (value : ℤ → ℤ → ℤ) (y : ℕ) :
    (tiltedRowsAt width height value y).row.size = paddedWidth width height := by
  induction y with
  | zero => exact Array.size_replicate
  | succ y ih => rw [tiltedRowsAt, tiltedNext_size, ih]

theorem tiltedRowsAt_above_size (width height : ℕ) (value : ℤ → ℤ → ℤ) (y : ℕ) :
    (tiltedRowsAt width height value y).above.size = paddedWidth width height := by
  cases y with
  | zero => exact Array.size_replicate
  | succ y => exact tiltedRowsAt_row_size width height value y

/-- The rows of the tilted table without the margins. -/
theorem tiltedTable_rows (width height : ℕ) (value : ℤ → ℤ → ℤ) :
    TableRows (TiltedRows.next (tiltedMargin height) value)
      (fun r => (r.row.extract (tiltedMargin height) (tiltedMargin height + width + 1)).toList)
      (width + 1) (tiltedRowsAt width height value 0) fun y r => r = tiltedRowsAt width height value y where
  first := rfl
  next y r hr := by rw [hr, tiltedRowsAt]
  length y r hr := by
    rw [hr, Array.length_toList, Array.size_extract, tiltedRowsAt_row_size, paddedWidth]
    omega

/-- **The tilted table has an entry for every corner.** -/
theorem tiltedTable_size (width height : ℕ) (value : ℤ → ℤ → ℤ) :
    (tiltedTable width height value).size = (height + 1) * (width + 1) :=
  (tiltedTable_rows width height value).size height

/-- **The entries of the tilted table** are those of its rows, without the margins. -/
theorem tiltedTable_getElem?_row (value : ℤ → ℤ → ℤ) {width height X Y : ℕ} (hX : X ≤ width)
    (hY : Y ≤ height) :
    (tiltedTable width height value)[Y * (width + 1) + X]? =
      (tiltedRowsAt width height value Y).row[tiltedMargin height + X]? := by
  obtain ⟨r, rfl, hentry⟩ := (tiltedTable_rows width height value).entry (Nat.lt_succ_of_le hX) hY
  have hin : X < min (tiltedMargin height + width + 1)
      (tiltedRowsAt width height value Y).row.size - tiltedMargin height := by
    rw [tiltedRowsAt_row_size, paddedWidth]
    omega
  refine hentry.trans ?_
  rw [Array.getElem?_toList, Array.getElem?_extract_of_lt hin, ← Array.getElem?_eq_getElem]

section Places

variable {width height : ℕ}

/-- The place of an entry tells its column and its row. -/
theorem place_le {n : ℕ} (hn : n < (height + 1) * (width + 1)) :
    n % (width + 1) ≤ width ∧ n / (width + 1) ≤ height :=
  ⟨Nat.le_of_lt_succ (Nat.mod_lt _ (Nat.succ_pos _)),
    Nat.le_of_lt_succ (Nat.div_lt_of_lt_mul (by rwa [Nat.mul_comm]))⟩

/-- The place of a corner is in the table. -/
theorem cell_lt {X Y : ℕ} (hX : X ≤ width) (hY : Y ≤ height) :
    Y * (width + 1) + X < (height + 1) * (width + 1) := by
  rw [Nat.succ_mul]
  have := Nat.mul_le_mul_right (width + 1) hY
  omega

/-- The place of an entry tells its row. -/
theorem place_in_row_iff {X Y R : ℕ} (hX : X ≤ width) :
    R * (width + 1) ≤ Y * (width + 1) + X ∧ Y * (width + 1) + X < R * (width + 1) + (width + 1) ↔
      Y = R := by
  constructor
  · rintro ⟨hlow, hup⟩
    rcases Nat.lt_trichotomy Y R with hlt | heq | hgt
    · have := Nat.mul_le_mul_right (width + 1) (Nat.succ_le_of_lt hlt)
      rw [Nat.succ_mul] at this
      omega
    · exact heq
    · have := Nat.mul_le_mul_right (width + 1) (Nat.succ_le_of_lt hgt)
      rw [Nat.succ_mul] at this
      omega
  · rintro rfl
    omega

/-- Entries of different corners have different places. -/
theorem cell_inj {X Y X' Y' : ℕ} (hX : X ≤ width) (hX' : X' ≤ width) :
    Y * (width + 1) + X = Y' * (width + 1) + X' ↔ Y = Y' ∧ X = X' := by
  refine ⟨fun h => ?_, fun h => by rw [h.1, h.2]⟩
  obtain rfl : Y = Y' := (place_in_row_iff hX).1 (by omega)
  exact ⟨rfl, Nat.add_left_cancel h⟩

/-- **Every entry of a table** is that of a corner. -/
theorem exists_corner_of_mem {β : Type} {a : Array β} (ha : a.size = (height + 1) * (width + 1)) {v : β}
    (hv : v ∈ a) : ∃ X ≤ width, ∃ Y ≤ height, a[Y * (width + 1) + X]? = some v := by
  obtain ⟨n, hn, rfl⟩ := Array.mem_iff_getElem.1 hv
  obtain ⟨hX, hY⟩ := place_le (ha ▸ hn)
  refine ⟨_, hX, _, hY, ?_⟩
  rw [Nat.div_add_mod', Array.getElem?_eq_getElem hn]

/-- **Tables with the same entries** for all corners of an image are the same. -/
theorem table_ext {β : Type} {a b : Array β} (ha : a.size = (height + 1) * (width + 1))
    (hb : b.size = (height + 1) * (width + 1))
    (h : ∀ X ≤ width, ∀ Y ≤ height, a[Y * (width + 1) + X]? = b[Y * (width + 1) + X]?) : a = b := by
  refine Array.ext_getElem? fun n => ?_
  -- every place in a table is that of a corner
  by_cases hn : n < (height + 1) * (width + 1)
  · obtain ⟨hX, hY⟩ := place_le hn
    have hentry := h _ hX _ hY
    rwa [Nat.div_add_mod'] at hentry
  · rw [Array.getElem?_eq_none (by omega), Array.getElem?_eq_none (by omega)]

end Places

namespace IntegralImage

variable {p : Pixels}

theorem entry_of_lt {β : Type} {image : IntegralImage} {table : Array β} {x y : ℕ}
    (hs : table.size = (image.size.height.toNat + 1) * (image.size.width.toNat + 1))
    (hx : x ≤ image.size.width.toNat) (hy : y ≤ image.size.height.toNat) :
    ∃ v, image.entry table x y = .ok v := by
  unfold entry
  rw [Array.getElem?_eq_getElem (hs ▸ cell_lt hx hy)]
  exact ⟨_, rfl⟩

theorem coordinate_of_le {n : ℕ} (side : UInt32) (h : n ≤ side.toNat) : coordinate n = .ok n := by
  rw [coordinate, if_pos (Nat.lt_of_le_of_lt h side.toNat_lt)]

/-- The sum over an upright rectangle in the image. -/
theorem uprightSum_ok (image : IntegralImage) {value : ℕ → ℕ → ℕ} {table : Array ℕ}
    (ht : table = sumTable image.size.width.toNat image.size.height.toNat value) {x y w h : ℕ}
    (hx : x + w ≤ image.size.width.toNat) (hy : y + h ≤ image.size.height.toNat) :
    image.uprightSum table x y w h =
      .ok (prefixSum value x y + prefixSum value (x + w) (y + h) -
        (prefixSum value (x + w) y + prefixSum value x (y + h))) := by
  have hentry : ∀ X Y, X ≤ image.size.width.toNat → Y ≤ image.size.height.toNat →
      image.entry table X Y = .ok (prefixSum value X Y) := by
    intro X Y hX hY
    rw [entry, ht, sumTable_getElem? value hX hY]
  have hc := prefixSum_corners value x y w h
  -- all four corners are in the table, so all that is left is the sign of the sum
  simp only [uprightSum, coordinate_of_le _ hx, coordinate_of_le _ hy, bind, Except.bind,
    hentry x y (by omega) (by omega), hentry (x + w) y hx (by omega),
    hentry x (y + h) (by omega) hy, hentry (x + w) (y + h) hx hy]
  rw [if_neg (by omega)]

/-- The sum over a tilted rectangle in the image. -/
theorem tiltedSum_ok (image : IntegralImage) {value : ℤ → ℤ → ℤ}
    (ht : image.tilted = tiltedTable image.size.width.toNat image.size.height.toNat value)
    {x y w h : ℕ} (hl : h ≤ x) (hx : x + w ≤ image.size.width.toNat)
    (hy : y + w + h ≤ image.size.height.toNat) : ∃ v, image.tiltedSum x y w h = .ok v := by
  have hs : image.tilted.size = (image.size.height.toNat + 1) * (image.size.width.toNat + 1) := by
    rw [ht, tiltedTable_size]
  obtain ⟨a, ha⟩ := entry_of_lt hs (show x ≤ _ by omega) (show y ≤ _ by omega)
  obtain ⟨b, hb⟩ := entry_of_lt hs (show x - h ≤ _ by omega) (show y + h ≤ _ by omega)
  obtain ⟨e, he⟩ := entry_of_lt hs hx (show y + w ≤ _ by omega)
  obtain ⟨d, hd⟩ := entry_of_lt hs (show x - h + w ≤ _ by omega) hy
  refine ⟨a - b - e + d, ?_⟩
  simp only [tiltedSum, if_neg (show ¬ x < h by omega), bind, Except.bind, ha,
    coordinate_of_le image.size.height (show y + h ≤ _ by omega), hb, coordinate_of_le _ hx,
    coordinate_of_le image.size.height (show y + w ≤ _ by omega), he, coordinate_of_le _ hy, hd]

/-- **Every query inside of the image is answered.** -/
theorem lookup_ofPixels {q : Query} (h : q.Inside p.size) : ∃ v, (ofPixels p).lookup q = .ok v := by
  have hsums : (ofPixels p).sums = sumTable p.size.width.toNat p.size.height.toNat p.pixel := rfl
  have hsquares : (ofPixels p).squares =
    sumTable p.size.width.toNat p.size.height.toNat fun x y => p.pixel x y * p.pixel x y := rfl
  unfold lookup
  cases hk : q.kind <;> simp only [Query.Inside, hk] at h
  · simp only [uprightSum_ok (ofPixels p) hsums h.1 h.2]
    exact ⟨_, rfl⟩
  · simp only [uprightSum_ok (ofPixels p) hsquares h.1 h.2]
    exact ⟨_, rfl⟩
  · exact tiltedSum_ok (ofPixels p) rfl h.1 h.2.1 h.2.2

theorem source_ofPixels {α : Type} [Scalar α] {q : Query} (h : q.Inside p.size) :
    ∃ v, ((ofPixels p).source α).answer q = .ok v := by
  obtain ⟨v, hv⟩ := lookup_ofPixels h
  exact ⟨Scalar.ofInt v, by simp only [source, hv]; rfl⟩

end IntegralImage

end HaarDetection
