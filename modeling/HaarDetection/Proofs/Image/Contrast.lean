import HaarDetection.Proofs.Image.Covered
import HaarDetection.Proofs.Number.Exact

/-!
# Images with more contrast

When all pixels of an image are multiplied with a number, so are all entries of its tables, or with the
square of it. A query is then answered with as many times what it was answered with before, wherever
its rectangle lies: what is asked for beyond the image meets the same fault in both images.

* `Amplified`: an image whose pixels are those of another one times a number.
* `sumTable_mul`, `tiltedTable_mul`: **the tables of multiplied pixels.**
* `Amplified.pixelSum`: what a query adds up.
* `Amplified.lookup`: **the answers to all queries.**
-/

namespace HaarDetection

/-- **An image whose pixels are `k` times those of another one.** -/
structure Amplified (k : ℕ) (p p' : Pixels) : Prop where
  size_eq : p'.size = p.size
  pixel_eq : ∀ i < p.width, ∀ j < p.height, p'.pixel i j = k * p.pixel i j

/-- **Every query is answered with a multiple:** `k` times, or `k` times `k` times for squares, what it
was answered with before. -/
def Multiplies (k : ℕ) (answer answer' : Query → Except Fault ℝ) : Prop :=
  ∀ q, answer' q = ((q.kind.term k : ℝ) * ·) <$> answer q

section Tables

variable {width height : ℕ}

theorem prefixSum_mul (k : ℕ) (value : ℕ → ℕ → ℕ) (X Y : ℕ) :
    prefixSum (fun x y => k * value x y) X Y = k * prefixSum value X Y := by
  simp only [prefixSum, Finset.mul_sum]

/-- **The table of multiplied values.** -/
theorem sumTable_mul (k : ℕ) (value : ℕ → ℕ → ℕ) :
    sumTable width height (fun x y => k * value x y) = (sumTable width height value).map (k * ·) := by
  refine table_ext (sumTable_size _ _ _) (by rw [Array.size_map, sumTable_size]) ?_
  intro X hX Y hY
  rw [Array.getElem?_map, sumTable_getElem? _ hX hY, sumTable_getElem? _ hX hY, prefixSum_mul]
  rfl

theorem triangleSum_mul (k : ℤ) (value : ℤ → ℤ → ℤ) (X Y : ℤ) :
    triangleSum width height (fun x y => k * value x y) X Y =
      k * triangleSum width height value X Y := by
  simp only [triangleSum, coneSum, Finset.mul_sum]

/-- **The tilted table of multiplied values.** -/
theorem tiltedTable_mul (k : ℤ) {value : ℤ → ℤ → ℤ} (hv : VanishesOutside width height value) :
    tiltedTable width height (fun x y => k * value x y) =
      (tiltedTable width height value).map (k * ·) := by
  have hv' : VanishesOutside width height fun x y => k * value x y := by
    intro x y h
    simp only [hv x y h, mul_zero]
  refine table_ext (tiltedTable_size _ _ _) (by rw [Array.size_map, tiltedTable_size]) ?_
  intro X hX Y hY
  rw [Array.getElem?_map, tiltedTable_getElem? hv hX hY, tiltedTable_getElem? hv' hX hY,
    triangleSum_mul]
  rfl

end Tables

namespace IntegralImage

variable {image image' : IntegralImage}

theorem entry_map {β : Type} (hsize : image'.size = image.size) (g : β → β) (table : Array β)
    (x y : ℕ) : image'.entry (table.map g) x y = g <$> image.entry table x y := by
  unfold entry
  rw [hsize, Array.getElem?_map]
  cases table[y * (image.size.width.toNat + 1) + x]? <;> rfl

/-- The sum over an upright rectangle, from a table with all entries multiplied. -/
theorem uprightSum_mul (hsize : image'.size = image.size) {k : ℕ} (hk : 0 < k) (table : Array ℕ)
    (x y w h : ℕ) :
    image'.uprightSum (table.map (k * ·)) x y w h = (k * ·) <$> image.uprightSum table x y w h := by
  -- the corners give a sum below zero from both tables, or from none
  have hcorners : ∀ a b c d : ℕ,
      (if k * a + k * d < k * b + k * c then .error .negativeSum
        else .ok (k * a + k * d - (k * b + k * c)) : Except Fault ℕ) =
      (k * ·) <$> (if a + d < b + c then .error .negativeSum else .ok (a + d - (b + c))) := by
    intro a b c d
    simp only [← Nat.mul_add, Nat.mul_lt_mul_left hk, ← Nat.mul_sub]
    split <;> rfl
  simp only [uprightSum, entry_map hsize, map_bind, bind_map_left, hcorners]

/-- The sum over a tilted rectangle, from a table with all entries multiplied. -/
theorem tiltedSum_mul (hsize : image'.size = image.size) {k : ℤ}
    (ht : image'.tilted = image.tilted.map (k * ·)) (x y w h : ℕ) :
    image'.tiltedSum x y w h = (k * ·) <$> image.tiltedSum x y w h := by
  have hcorners : ∀ a b c d : ℤ, (.ok (k * a - k * b - k * c + k * d) : Except Fault ℤ) =
      (k * ·) <$> (.ok (a - b - c + d) : Except Fault ℤ) := by
    intro a b c d
    simp only [← mul_sub, ← mul_add]
    rfl
  unfold tiltedSum
  rw [ht]
  by_cases hl : x < h
  · simp only [if_pos hl]
    rfl
  · simp only [if_neg hl, entry_map hsize, map_bind, bind_map_left, hcorners]

end IntegralImage

namespace Amplified

variable {k : ℕ} {p p' : Pixels} (h : Amplified k p p')
include h

theorem pixel (i j : ℕ) : p'.pixel i j = k * p.pixel i j := by
  by_cases hin : i < p.width ∧ j < p.height
  · exact h.pixel_eq i hin.1 j hin.2
  · have hin' : ¬(i < p'.width ∧ j < p'.height) := by
      rw [Pixels.width, Pixels.height, h.size_eq]
      exact hin
    rw [Pixels.pixel, dif_neg hin', Pixels.pixel, dif_neg hin, mul_zero]

theorem plane : IntegralImage.plane p' = fun x y => k * IntegralImage.plane p x y := by
  funext x y
  unfold IntegralImage.plane
  split
  · rw [h.pixel]
    exact Nat.cast_mul _ _
  · rfl

/-- **What a query adds up** is multiplied. -/
theorem pixelSum (q : Query) : q.pixelSum p' = q.kind.term k * q.pixelSum p := by
  have hterm : ∀ v : ℤ, q.kind.term (k * v) = q.kind.term k * q.kind.term v := by
    intro v
    cases q.kind with
    | sum => rfl
    | squares => exact mul_pow _ _ 2
    | tilted => rfl
  unfold Query.pixelSum
  simp only [h.pixel, Nat.cast_mul, hterm, Finset.mul_sum]

/-- **All queries are answered with multiples**, or meet the same fault. -/
theorem lookup (hk : 0 < k) (q : Query) :
    (IntegralImage.ofPixels p').lookup q =
      (q.kind.term k * ·) <$> (IntegralImage.ofPixels p).lookup q := by
  have hsize : (IntegralImage.ofPixels p').size = (IntegralImage.ofPixels p).size := h.size_eq
  have hsums : (IntegralImage.ofPixels p').sums = (IntegralImage.ofPixels p).sums.map (k * ·) := by
    rw [IntegralImage.sums_ofPixels, IntegralImage.sums_ofPixels, hsize, ← sumTable_mul]
    simp only [funext₂ h.pixel]
  have hsquares : (IntegralImage.ofPixels p').squares =
      (IntegralImage.ofPixels p).squares.map (k ^ 2 * ·) := by
    rw [IntegralImage.squares_ofPixels, IntegralImage.squares_ofPixels, hsize, ← sumTable_mul]
    simp only [h.pixel, mul_pow]
  have htilted : (IntegralImage.ofPixels p').tilted =
      (IntegralImage.ofPixels p).tilted.map ((k : ℤ) * ·) := by
    refine Eq.trans ?_ (tiltedTable_mul k (IntegralImage.plane_vanishesOutside p))
    rw [← h.plane, Pixels.width, Pixels.height, ← h.size_eq]
    rfl
  unfold IntegralImage.lookup
  cases q.kind with
  | sum =>
    simp only [hsums, IntegralImage.uprightSum_mul hsize hk, Functor.map_map]
    rfl
  | squares =>
    simp only [hsquares, IntegralImage.uprightSum_mul hsize (pow_pos hk 2), Functor.map_map]
    rfl
  | tilted => exact IntegralImage.tiltedSum_mul hsize htilted _ _ _ _

/-- The answers as real numbers. -/
theorem multiplies (hk : 0 < k) :
    Multiplies k ((IntegralImage.ofPixels p).source ℝ).answer
      ((IntegralImage.ofPixels p').source ℝ).answer := by
  intro q
  change (Int.cast : ℤ → ℝ) <$> _ = _ <$> (Int.cast : ℤ → ℝ) <$> _
  rw [h.lookup hk, Functor.map_map, Functor.map_map]
  congr 1
  exact funext fun v => Int.cast_mul _ v

end Amplified

end HaarDetection
