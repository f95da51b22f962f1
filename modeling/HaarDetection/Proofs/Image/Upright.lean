import HaarDetection.Proofs.Image.Buffers

/-!
# Sums over upright rectangles

The sum over an upright rectangle is the sum of its pixels. It comes from four corners of a table,
and while the squares of all pixels together stay below `2 ^ 63` no word of 64 bits is too short for
what has to be added up.

* `prefixSum_rect`: **the corners of a rectangle give the sum over its pixels.**
* `sumTable_le`: the entries of a table are no greater than the sum over the whole image.
* `IntegralImage.CornersInWord`: the corners are found, and their sum can be made of words.
* `IntegralImage.upright_lookup`: **upright queries are exact.**
-/

namespace HaarDetection

open Finset (Ico range)

variable {value : ℕ → ℕ → ℕ} {width height : ℕ}

/-- **The sum over an upright rectangle,** pixel by pixel. -/
def rectSum (value : ℕ → ℕ → ℕ) (x y w h : ℕ) : ℕ :=
  ∑ j ∈ Ico y (y + h), ∑ i ∈ Ico x (x + w), value i j

/-- **The corners of a rectangle give the sum over its pixels.** -/
theorem prefixSum_rect (value : ℕ → ℕ → ℕ) (x y w h : ℕ) :
    prefixSum value x y + prefixSum value (x + w) (y + h) =
      prefixSum value (x + w) y + prefixSum value x (y + h) + rectSum value x y w h := by
  induction h with
  | zero => simp [rectSum, Nat.add_comm]
  | succ h ih =>
    have hrow : ∑ i ∈ range (x + w), value i (y + h) =
        ∑ i ∈ range x, value i (y + h) + ∑ i ∈ Ico x (x + w), value i (y + h) :=
      (Finset.sum_range_add_sum_Ico _ (Nat.le_add_right x w)).symm
    rw [rectSum, ← Nat.add_assoc, prefixSum_succ, prefixSum_succ,
      Finset.sum_Ico_succ_top (Nat.le_add_right y h), ← rectSum, hrow]
    omega

theorem prefixSum_le {b : ℕ} (hv : ∀ i j, value i j ≤ b) (X Y : ℕ) :
    prefixSum value X Y ≤ b * (X * Y) := by
  have hrow : ∀ y ∈ range Y, ∑ x ∈ range X, value x y ≤ X * b := fun y _ => by
    simpa using Finset.sum_le_card_nsmul (range X) (value · y) b fun x _ => hv x y
  calc prefixSum value X Y ≤ Y * (X * b) := by
        simpa [prefixSum] using Finset.sum_le_card_nsmul (range Y) _ (X * b) hrow
    _ = b * (X * Y) := by ring

/-- **No entry is greater** than what all pixels can add up to. -/
theorem sumTable_le {b : ℕ} (hv : ∀ i j, value i j ≤ b) :
    ∀ v ∈ sumTable width height value, v ≤ b * (width * height) := by
  intro v hmem
  obtain ⟨X, hX, Y, hY, hentry⟩ := exists_corner_of_mem (sumTable_size width height value) hmem
  rw [sumTable_getElem? value hX hY, Option.some.injEq] at hentry
  rw [← hentry]
  calc prefixSum value X Y ≤ b * (X * Y) := prefixSum_le hv X Y
    _ ≤ b * (width * height) := Nat.mul_le_mul_left _ (Nat.mul_le_mul hX hY)

theorem Pixels.pixel_le (p : Pixels) (i j : ℕ) : p.pixel i j ≤ 255 := by
  unfold Pixels.pixel
  split
  · exact Nat.le_of_lt_succ (UInt8.toNat_lt _)
  · exact Nat.zero_le _

namespace IntegralImage

/-- **The corners of a rectangle are in a table**, and the sum over the rectangle can be made of them
in words of 64 bits without a sign. -/
def CornersInWord (image : IntegralImage) (table : Array ℕ) (x y w h : ℕ) : Prop :=
  ∃ a b c d, image.entry table x y = .ok a ∧ image.entry table (x + w) y = .ok b ∧
    image.entry table x (y + h) = .ok c ∧ image.entry table (x + w) (y + h) = .ok d ∧
    b + c ≤ a + d ∧ a + d < 2 ^ 64

theorem cornersInWord_of_table (image : IntegralImage) {table : Array ℕ} {b : ℕ}
    (ht : table = sumTable image.size.width.toNat image.size.height.toNat value)
    (hv : ∀ i j, value i j ≤ b)
    (hb : b * (image.size.width.toNat * image.size.height.toNat) < 2 ^ 63) {x y w h : ℕ}
    (hx : x + w ≤ image.size.width.toNat) (hy : y + h ≤ image.size.height.toNat) :
    image.CornersInWord table x y w h := by
  have hentry : ∀ X Y, X ≤ image.size.width.toNat → Y ≤ image.size.height.toNat →
      image.entry table X Y = .ok (prefixSum value X Y) ∧ prefixSum value X Y < 2 ^ 63 := by
    intro X Y hX hY
    refine ⟨by rw [entry, ht, sumTable_getElem? value hX hY], ?_⟩
    calc prefixSum value X Y ≤ b * (X * Y) := prefixSum_le hv X Y
      _ ≤ b * (image.size.width.toNat * image.size.height.toNat) :=
        Nat.mul_le_mul_left _ (Nat.mul_le_mul hX hY)
      _ < 2 ^ 63 := hb
  obtain ⟨ha, ha'⟩ := hentry x y (by omega) (by omega)
  obtain ⟨hd, hd'⟩ := hentry (x + w) (y + h) hx hy
  exact ⟨_, _, _, _, ha, (hentry (x + w) y hx (by omega)).1, (hentry x (y + h) (by omega) hy).1, hd,
    prefixSum_corners value x y w h, by omega⟩

/-- The sum over an upright rectangle is the sum of the values in it. -/
theorem uprightSum_eq (image : IntegralImage) {table : Array ℕ}
    (ht : table = sumTable image.size.width.toNat image.size.height.toNat value) {x y w h : ℕ}
    (hx : x + w ≤ image.size.width.toNat) (hy : y + h ≤ image.size.height.toNat) :
    image.uprightSum table x y w h = .ok (rectSum value x y w h) := by
  have := prefixSum_rect value x y w h
  rw [uprightSum_ok image ht hx hy]
  congr 1
  omega

theorem sums_ofPixels (p : Pixels) : (ofPixels p).sums =
    sumTable (ofPixels p).size.width.toNat (ofPixels p).size.height.toNat p.pixel := rfl

theorem squares_ofPixels (p : Pixels) : (ofPixels p).squares =
    sumTable (ofPixels p).size.width.toNat (ofPixels p).size.height.toNat
      fun i j => p.pixel i j ^ 2 := by
  simp only [pow_two]
  rfl

/-- **Upright queries are exact.** What is asked for a rectangle in the image, which may be empty or
reach up to the borders, is answered by the sum of its pixels or of their squares. The corners of
the rectangle are in the tables, what they add up to is never below zero, and everything fits into
words of 64 bits. -/
theorem upright_lookup (p : Pixels) (hp : 65025 * (p.width * p.height) < 2 ^ 63) {x y w h : ℕ}
    (hx : x + w ≤ p.width) (hy : y + h ≤ p.height) :
    ∃ image, ofBytes p.size p.bytes = .ok image ∧
      image.lookup ⟨.sum, x, y, w, h⟩ = .ok (rectSum p.pixel x y w h) ∧
      image.lookup ⟨.squares, x, y, w, h⟩ = .ok (rectSum (fun i j => p.pixel i j ^ 2) x y w h) ∧
      (image.source Float).answer ⟨.sum, x, y, w, h⟩ =
        .ok (Scalar.ofInt (rectSum p.pixel x y w h)) ∧
      (image.source Float).answer ⟨.squares, x, y, w, h⟩ =
        .ok (Scalar.ofInt (rectSum (fun i j => p.pixel i j ^ 2) x y w h)) ∧
      ∀ table ∈ [image.sums, image.squares],
        image.CornersInWord table x y w h ∧ ∀ v ∈ table, v < 2 ^ 63 := by
  have hpixel : ∀ i j, p.pixel i j ≤ 65025 := fun i j => (p.pixel_le i j).trans (by norm_num)
  have hsquare : ∀ i j, p.pixel i j ^ 2 ≤ 65025 := fun i j => Nat.pow_le_pow_left (p.pixel_le i j) 2
  have hsum : (ofPixels p).lookup ⟨.sum, x, y, w, h⟩ = .ok (rectSum p.pixel x y w h) := by
    simp only [lookup, uprightSum_eq (ofPixels p) (sums_ofPixels p) hx hy]
    rfl
  have hsquares : (ofPixels p).lookup ⟨.squares, x, y, w, h⟩ =
      .ok (rectSum (fun i j => p.pixel i j ^ 2) x y w h) := by
    simp only [lookup, uprightSum_eq (ofPixels p) (squares_ofPixels p) hx hy]
    rfl
  refine ⟨ofPixels p, ofBytes_eq p, hsum, hsquares, ?_, ?_, ?_⟩
  · simp only [source, hsum]
    rfl
  · simp only [source, hsquares]
    rfl
  · intro table ht
    simp only [List.mem_cons, List.not_mem_nil, or_false] at ht
    rcases ht with rfl | rfl
    · refine ⟨cornersInWord_of_table (ofPixels p) (sums_ofPixels p) hpixel hp hx hy, ?_⟩
      intro v hv
      exact lt_of_le_of_lt (sumTable_le hpixel v hv) hp
    · refine ⟨cornersInWord_of_table (ofPixels p) (squares_ofPixels p) hsquare hp hx hy, ?_⟩
      intro v hv
      rw [squares_ofPixels] at hv
      exact lt_of_le_of_lt (sumTable_le hsquare v hv) hp

/-- Nine pixels, three in a row. -/
def keypad : Pixels := ⟨⟨3, 3⟩, ⟨#[1, 2, 3, 4, 5, 6, 7, 8, 9]⟩, by decide⟩

/-- The last two columns of the last two rows, down to the corner of the image. -/
theorem upright_lookup_keypad : 65025 * (keypad.width * keypad.height) < 2 ^ 63 ∧
    1 + 2 ≤ keypad.width ∧ 1 + 2 ≤ keypad.height ∧
    ∃ image, ofBytes keypad.size keypad.bytes = .ok image ∧
      image.lookup ⟨.sum, 1, 1, 2, 2⟩ = .ok (5 + 6 + 8 + 9) ∧
      image.lookup ⟨.squares, 1, 1, 2, 2⟩ = .ok (25 + 36 + 64 + 81) := by
  have hp : 65025 * (keypad.width * keypad.height) < 2 ^ 63 := by decide
  have hx : 1 + 2 ≤ keypad.width := by decide
  have hy : 1 + 2 ≤ keypad.height := by decide
  obtain ⟨image, hi, hsum, hsquares, -⟩ := upright_lookup keypad hp hx hy
  refine ⟨hp, hx, hy, image, hi, ?_, ?_⟩
  · rw [hsum, show rectSum keypad.pixel 1 1 2 2 = 5 + 6 + 8 + 9 by decide +kernel]
    rfl
  · rw [hsquares, show rectSum (fun i j => keypad.pixel i j ^ 2) 1 1 2 2 = 25 + 36 + 64 + 81 by
      decide +kernel]
    rfl

end IntegralImage

end HaarDetection
