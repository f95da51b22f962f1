import HaarDetection.Proofs.Image.Upright

/-!
# Sums over tilted rectangles

A diagonal holds the pixels with the same difference `x - y`, an antidiagonal those with the same sum
`x + y`. A tilted rectangle lies between two diagonals and two antidiagonals, and the triangle above
a corner is bounded by one of each, so that the triangles add up as the sums in the upright tables
do.

* `coneSum`, `bandSum`: the sums over the pixels beyond two lines, and between four of them.
* `coneSum_band`: **four cones give the sum between their lines.**
* `tiltedRowsAt_hold`: **the rows of the tilted table**, with their margins, are sums over triangles.
* `tiltedTable_getElem?`: **the entries of the tilted table** are sums over triangles.
* `InTilted`, `card_tiltedCells`: the positions of a tilted rectangle, and how many there are.
* `IntegralImage.tilted_lookup`: **tilted queries are exact.**
-/

namespace HaarDetection

open Finset (range)

/-- The positions of the pixels of an image. -/
def cells (width height : ℕ) : Finset (ℕ × ℕ) := range width ×ˢ range height

/-- The sum over the pixels from the diagonal `a` on, up to the antidiagonal `b`. -/
def coneSum (width height : ℕ) (value : ℤ → ℤ → ℤ) (a b : ℤ) : ℤ :=
  ∑ c ∈ cells width height with a ≤ (c.1 : ℤ) - c.2 ∧ (c.1 : ℤ) + c.2 ≤ b, value c.1 c.2

/-- The sum over the pixels from the diagonal `a` to the one before `a'`, and from the antidiagonal
after `b'` to `b`. -/
def bandSum (width height : ℕ) (value : ℤ → ℤ → ℤ) (a a' b' b : ℤ) : ℤ :=
  ∑ c ∈ cells width height with
    (a ≤ (c.1 : ℤ) - c.2 ∧ (c.1 : ℤ) - c.2 < a') ∧ b' < (c.1 : ℤ) + c.2 ∧ (c.1 : ℤ) + c.2 ≤ b,
    value c.1 c.2

variable {width height : ℕ} {value : ℤ → ℤ → ℤ}

/-- **Four cones give the sum between their lines.** -/
theorem coneSum_band (width height : ℕ) (value : ℤ → ℤ → ℤ) (a a' b' b : ℤ) (ha : a ≤ a')
    (hb : b' ≤ b) :
    coneSum width height value a b - coneSum width height value a' b -
        coneSum width height value a b' + coneSum width height value a' b' =
      bandSum width height value a a' b' b := by
  simp only [coneSum, bandSum, Finset.sum_filter, ← Finset.sum_sub_distrib, ← Finset.sum_add_distrib]
  refine Finset.sum_congr rfl ?_
  intro c _
  split_ifs <;> omega

/-- A cone without pixels. -/
theorem coneSum_eq_zero {a b : ℤ} (h : b < 0 ∨ width ≤ a ∨ b < a) :
    coneSum width height value a b = 0 := by
  refine Finset.sum_eq_zero ?_
  intro c hc
  simp only [cells, Finset.mem_filter, Finset.mem_product, Finset.mem_range] at hc
  omega

/-- The values are those of an image: outside of it they are zero. -/
def VanishesOutside (width height : ℕ) (value : ℤ → ℤ → ℤ) : Prop :=
  ∀ x y : ℤ, ¬(0 ≤ x ∧ x < width ∧ 0 ≤ y ∧ y < height) → value x y = 0

/-- The sum over a single position. -/
theorem sum_cell (hv : VanishesOutside width height value) (x y : ℤ) :
    (∑ c ∈ cells width height, if (c.1 : ℤ) = x ∧ (c.2 : ℤ) = y then value c.1 c.2 else 0) =
      value x y := by
  by_cases h : 0 ≤ x ∧ x < width ∧ 0 ≤ y ∧ y < height
  · rw [Finset.sum_eq_single (x.toNat, y.toNat)]
    · rw [if_pos (by omega)]
      congr 1 <;> omega
    · intro c _ hne
      rw [if_neg]
      rintro ⟨rfl, rfl⟩
      exact hne (by simp)
    · intro hmem
      refine absurd ?_ hmem
      simp only [cells, Finset.mem_product, Finset.mem_range]
      omega
  · rw [hv x y h]
    refine Finset.sum_eq_zero ?_
    intro c hc
    simp only [cells, Finset.mem_product, Finset.mem_range] at hc
    rw [if_neg]
    omega

/-- Two diagonals and two antidiagonals next to each other meet in two positions. -/
theorem bandSum_two (hv : VanishesOutside width height value) (x y : ℤ) :
    bandSum width height value (x - y) (x - y + 2) (x + y - 2) (x + y) = value x y + value x (y - 1) := by
  rw [← sum_cell hv x y, ← sum_cell hv x (y - 1), bandSum, Finset.sum_filter, ← Finset.sum_add_distrib]
  refine Finset.sum_congr rfl ?_
  intro c _
  split_ifs <;> omega

/-- **The sum over the triangle** that widens upwards from the corner `(X, Y)`. -/
def triangleSum (width height : ℕ) (value : ℤ → ℤ → ℤ) (X Y : ℤ) : ℤ :=
  coneSum width height value (X - Y) (X + Y - 2)

/-- **The recurrence of the triangles.** Two of them overlap in a third one, and leave out two
pixels. -/
theorem triangleSum_succ (hv : VanishesOutside width height value) (X Y : ℤ) :
    triangleSum width height value X (Y + 1) =
      triangleSum width height value (X - 1) Y + triangleSum width height value (X + 1) Y -
        triangleSum width height value X (Y - 1) + value (X - 1) Y + value (X - 1) (Y - 1) := by
  have h := coneSum_band width height value (X - 1 - Y) (X - 1 - Y + 2) (X - 1 + Y - 2) (X - 1 + Y)
    (by omega) (by omega)
  rw [bandSum_two hv] at h
  simp only [triangleSum, show X - (Y + 1) = X - 1 - Y by ring, show X + (Y + 1) - 2 = X - 1 + Y by ring,
    show X + 1 - Y = X - 1 - Y + 2 by ring,
    show X + 1 + Y - 2 = X - 1 + Y by ring, show X - (Y - 1) = X - 1 - Y + 2 by ring,
    show X + (Y - 1) - 2 = X - 1 + Y - 2 by ring]
  omega

/-- The rows that belong to the triangles with their corners on the row `y`. -/
structure TiltedRows.Hold (width height : ℕ) (value : ℤ → ℤ → ℤ) (margin y : ℕ) (rows : TiltedRows) :
    Prop where
  row_size : rows.row.size = width + 1 + 2 * margin
  row : ∀ i < width + 1 + 2 * margin,
    rows.row[i]? = some (triangleSum width height value ((i : ℤ) - margin) y)
  above : ∀ i < width + 1 + 2 * margin,
    rows.above[i]? = some (triangleSum width height value ((i : ℤ) - margin) ((y : ℤ) - 1))

theorem tiltedRows_blank (margin : ℕ) :
    TiltedRows.Hold width height value margin 0
      ⟨Array.replicate (width + 1 + 2 * margin) 0, Array.replicate (width + 1 + 2 * margin) 0⟩ := by
  refine ⟨Array.size_replicate, ?_, ?_⟩
  · intro i hi
    rw [triangleSum, coneSum_eq_zero (by omega), Array.getElem?_replicate, if_pos hi]
  · intro i hi
    rw [triangleSum, coneSum_eq_zero (by omega), Array.getElem?_replicate, if_pos hi]

/-- **A row follows from the two rows above it.** The margins are as wide as the image is high, so no
triangle with its corner beyond them reaches the image. -/
theorem TiltedRows.Hold.next (hv : VanishesOutside width height value) {margin y : ℕ} {rows : TiltedRows}
    (h : rows.Hold width height value margin y) (hy : y < margin) :
    (rows.next margin value y).Hold width height value margin (y + 1) := by
  refine ⟨by rw [tiltedNext_size, h.row_size], ?_, ?_⟩
  · intro i hi
    have hleft : (if i = 0 then 0 else rows.row.getD (i - 1) 0) =
        triangleSum width height value ((i : ℤ) - margin - 1) y := by
      split
      · rw [triangleSum, coneSum_eq_zero (by omega)]
      · rw [Array.getD_eq_getD_getElem?, h.row (i - 1) (by omega), Option.getD_some]
        congr 1
        omega
    have hright : rows.row.getD (i + 1) 0 =
        triangleSum width height value ((i : ℤ) - margin + 1) y := by
      rw [Array.getD_eq_getD_getElem?]
      by_cases hlast : i + 1 < width + 1 + 2 * margin
      · rw [h.row (i + 1) hlast, Option.getD_some]
        congr 1
        omega
      · rw [Array.getElem?_eq_none (by rw [h.row_size]; omega), Option.getD_none, triangleSum,
          coneSum_eq_zero (by omega)]
    have habove : rows.above.getD i 0 =
        triangleSum width height value ((i : ℤ) - margin) ((y : ℤ) - 1) := by
      rw [Array.getD_eq_getD_getElem?, h.above i hi, Option.getD_some]
    have hrec := triangleSum_succ hv ((i : ℤ) - margin) y
    simp only [TiltedRows.next, Array.getElem?_ofFn, h.row_size, hi, dif_pos, hleft, hright, habove,
      Option.some.injEq]
    push_cast
    rw [hrec]
  · intro i hi
    rw [show (rows.next margin value y).above = rows.row from rfl, h.row i hi]
    congr 2
    push_cast
    ring

/-- **All rows of the tilted table**, with their margins, belong to the triangles. -/
theorem tiltedRowsAt_hold (hv : VanishesOutside width height value) {y : ℕ} (hy : y ≤ height) :
    (tiltedRowsAt width height value y).Hold width height value (tiltedMargin height) y := by
  induction y with
  | zero => exact tiltedRows_blank (tiltedMargin height)
  | succ y ih => exact (ih (by omega)).next hv (by unfold tiltedMargin; omega)

/-- **The entries of the tilted table** are the sums over the triangles. -/
theorem tiltedTable_getElem? (hv : VanishesOutside width height value) {X Y : ℕ} (hX : X ≤ width)
    (hY : Y ≤ height) :
    (tiltedTable width height value)[Y * (width + 1) + X]? =
      some (triangleSum width height value X Y) := by
  rw [tiltedTable_getElem?_row value hX hY, (tiltedRowsAt_hold hv hY).row _ (by omega)]
  congr 2
  push_cast
  ring

/-- A triangle has at most all pixels. -/
theorem triangleSum_le {b : ℕ} (hv : ∀ x y, 0 ≤ value x y ∧ value x y ≤ b) (X Y : ℤ) :
    0 ≤ triangleSum width height value X Y ∧
      triangleSum width height value X Y ≤ b * (width * height) := by
  refine ⟨Finset.sum_nonneg fun c _ => (hv _ _).1, ?_⟩
  calc triangleSum width height value X Y
      ≤ ∑ c ∈ cells width height, value c.1 c.2 :=
        Finset.sum_le_sum_of_subset_of_nonneg (Finset.filter_subset _ _) fun c _ _ => (hv _ _).1
    _ ≤ ∑ _c ∈ cells width height, (b : ℤ) := Finset.sum_le_sum fun c _ => (hv _ _).2
    _ = b * (width * height) := by
        rw [Finset.sum_const, cells, Finset.card_product, Finset.card_range, Finset.card_range,
          nsmul_eq_mul]
        push_cast
        ring

/-- **No entry of the tilted table is below zero**, or greater than what all pixels can add up to. -/
theorem tiltedTable_le {b : ℕ} (hv : VanishesOutside width height value)
    (hb : ∀ x y, 0 ≤ value x y ∧ value x y ≤ b) :
    ∀ v ∈ tiltedTable width height value, 0 ≤ v ∧ v ≤ b * (width * height) := by
  intro v hmem
  obtain ⟨X, hX, Y, hY, hentry⟩ := exists_corner_of_mem (tiltedTable_size width height value) hmem
  rw [tiltedTable_getElem? hv hX hY, Option.some.injEq] at hentry
  rw [← hentry]
  exact triangleSum_le hb X Y

/-- **The positions of a tilted rectangle** with its topmost corner at `(x, y)`: those between two
diagonals and two antidiagonals. -/
def InTilted (x y w h : ℕ) (px py : ℤ) : Prop :=
  (x - y - 2 * h ≤ px - py ∧ px - py < x - y) ∧ x + y - 1 ≤ px + py ∧ px + py ≤ x + y + 2 * w - 2

instance (x y w h : ℕ) (px py : ℤ) : Decidable (InTilted x y w h px py) := by
  unfold InTilted; infer_instance

variable {x y w h : ℕ}

/-- They lie around the corner. -/
theorem InTilted.bounds {px py : ℤ} (hp : InTilted x y w h px py) :
    x - h ≤ px ∧ px < x + w ∧ y ≤ py ∧ py < y + w + h := by
  unfold InTilted at hp
  omega

/-- The pixels at the positions of a tilted rectangle. -/
def tiltedCells (width height x y w h : ℕ) : Finset (ℕ × ℕ) :=
  {c ∈ cells width height | InTilted x y w h c.1 c.2}

theorem mem_tiltedCells {c : ℕ × ℕ} : c ∈ tiltedCells width height x y w h ↔
    (c.1 < width ∧ c.2 < height) ∧ InTilted x y w h c.1 c.2 := by
  rw [tiltedCells, Finset.mem_filter, cells, Finset.mem_product, Finset.mem_range, Finset.mem_range]

/-- **How many pixels a tilted rectangle has.** From the topmost one, steps down to the right and down
to the left lead to half of them, and each other one is below one of these. -/
theorem card_tiltedCells (hl : h ≤ x) (hx : x + w ≤ width) (hy : y + w + h ≤ height) :
    (tiltedCells width height x y w h).card = 2 * w * h := by
  have hcard : (range w ×ˢ range h ×ˢ range 2).card = 2 * w * h := by
    simp only [Finset.card_product, Finset.card_range]
    ring
  rw [← hcard]
  refine Finset.card_bij'
    (fun c _ => ((c.1 + c.2 + 1 - (x + y)) / 2, (x + c.2 - (y + c.1 + 1)) / 2,
      (c.1 + c.2 + 1 - (x + y)) % 2))
    (fun t _ => (x + t.1 - (t.2.1 + 1), y + t.1 + t.2.1 + t.2.2)) ?_ ?_ ?_ ?_
  · intro c hc
    rw [mem_tiltedCells, InTilted] at hc
    simp only [Finset.mem_product, Finset.mem_range]
    omega
  · intro t ht
    simp only [Finset.mem_product, Finset.mem_range] at ht
    rw [mem_tiltedCells, InTilted]
    omega
  · rintro ⟨px, py⟩ hc
    rw [mem_tiltedCells, InTilted] at hc
    simp only [Prod.mk.injEq]
    omega
  · rintro ⟨i, j, b⟩ ht
    simp only [Finset.mem_product, Finset.mem_range] at ht
    simp only [Prod.mk.injEq]
    omega

/-- All positions of a tilted rectangle in the image are those of pixels. -/
theorem ncard_inTilted (hl : h ≤ x) (hx : x + w ≤ width) (hy : y + w + h ≤ height) :
    {c : ℤ × ℤ | InTilted x y w h c.1 c.2}.ncard = 2 * w * h := by
  have hset : {c : ℤ × ℤ | InTilted x y w h c.1 c.2} =
      (fun c : ℕ × ℕ => ((c.1 : ℤ), (c.2 : ℤ))) '' (tiltedCells width height x y w h) := by
    ext ⟨px, py⟩
    simp only [Set.mem_ofPred_eq, Set.mem_image, Finset.mem_coe, mem_tiltedCells, Prod.mk.injEq]
    constructor
    · intro hp
      have := hp.bounds
      refine ⟨(px.toNat, py.toNat), ⟨by omega, ?_⟩, by omega, by omega⟩
      rwa [Int.toNat_of_nonneg (by omega), Int.toNat_of_nonneg (by omega)]
    · rintro ⟨c, ⟨-, hp⟩, rfl, rfl⟩
      exact hp
  have hinj : Function.Injective fun c : ℕ × ℕ => ((c.1 : ℤ), (c.2 : ℤ)) := by
    rintro ⟨a, b⟩ ⟨a', b'⟩ heq
    simpa using heq
  rw [hset, Set.ncard_image_of_injective _ hinj, Set.ncard_coe_finset, card_tiltedCells hl hx hy]

/-- **The corners of a tilted rectangle give the sum over its pixels.** -/
theorem triangleSum_corners (width height : ℕ) (value : ℤ → ℤ → ℤ) (hl : h ≤ x) :
    triangleSum width height value x y - triangleSum width height value (x - h : ℕ) (y + h : ℕ) -
        triangleSum width height value (x + w : ℕ) (y + w : ℕ) +
        triangleSum width height value (x - h + w : ℕ) (y + w + h : ℕ) =
      ∑ c ∈ tiltedCells width height x y w h, value c.1 c.2 := by
  have hband := coneSum_band width height value (x - y - 2 * h) (x - y) (x + y - 2)
    (x + y + 2 * w - 2) (by omega) (by omega)
  have hset : bandSum width height value (x - y - 2 * h) (x - y) (x + y - 2) (x + y + 2 * w - 2) =
      ∑ c ∈ tiltedCells width height x y w h, value c.1 c.2 := by
    refine Finset.sum_congr (Finset.filter_congr ?_) fun _ _ => rfl
    intro c _
    unfold InTilted
    omega
  rw [← hset, ← hband]
  simp only [triangleSum]
  push_cast [hl]
  ring_nf

namespace IntegralImage

theorem plane_vanishesOutside (p : Pixels) : VanishesOutside p.width p.height (plane p) := by
  intro x y h
  unfold plane
  split
  · rename_i h0
    have hout : ¬(x.toNat < p.width ∧ y.toNat < p.height) := by omega
    rw [Pixels.pixel, dif_neg hout]
    rfl
  · rfl

theorem plane_nat (p : Pixels) (i j : ℕ) : plane p i j = p.pixel i j := by
  unfold plane
  rw [if_pos ⟨Int.natCast_nonneg i, Int.natCast_nonneg j⟩]
  rfl

theorem plane_le (p : Pixels) (x y : ℤ) : 0 ≤ plane p x y ∧ plane p x y ≤ (255 : ℕ) := by
  unfold plane
  split
  · have := p.pixel_le x.toNat y.toNat
    omega
  · omega

/-- The sum over a tilted rectangle in the image, from its four corners. -/
theorem tiltedSum_eq (image : IntegralImage) {value : ℤ → ℤ → ℤ}
    (ht : image.tilted = tiltedTable image.size.width.toNat image.size.height.toNat value)
    (hv : VanishesOutside image.size.width.toNat image.size.height.toNat value)
    (hl : h ≤ x) (hx : x + w ≤ image.size.width.toNat) (hy : y + w + h ≤ image.size.height.toNat) :
    image.tiltedSum x y w h = .ok (∑ c ∈
      tiltedCells image.size.width.toNat image.size.height.toNat x y w h, value c.1 c.2) := by
  have hentry : ∀ X Y, X ≤ image.size.width.toNat → Y ≤ image.size.height.toNat →
      image.entry image.tilted X Y =
        .ok (triangleSum image.size.width.toNat image.size.height.toNat value X Y) := by
    intro X Y hX hY
    rw [entry, ht, tiltedTable_getElem? hv hX hY]
  simp only [tiltedSum, if_neg (show ¬x < h by omega), bind, Except.bind,
    coordinate_of_le _ hx, coordinate_of_le _ hy,
    coordinate_of_le image.size.height (show y + h ≤ _ by omega),
    coordinate_of_le image.size.height (show y + w ≤ _ by omega),
    hentry x y (by omega) (by omega), hentry (x - h) (y + h) (by omega) (by omega),
    hentry (x + w) (y + w) hx (by omega), hentry (x - h + w) (y + w + h) (by omega) hy,
    triangleSum_corners (x := x) _ _ value hl]

/-- **Tilted queries are exact.** What is asked for a tilted rectangle in the image is answered by the
sum of its pixels. These lie within its height to the left of its topmost corner, within its width to
the right of it, and within both of them below it, and there are twice as many as in an upright
rectangle with the same sides. The entries of the table are no greater than the sum over the image. -/
theorem tilted_lookup (p : Pixels) (hl : h ≤ x) (hx : x + w ≤ p.width) (hy : y + w + h ≤ p.height) :
    ∃ image, ofBytes p.size p.bytes = .ok image ∧
      image.lookup ⟨.tilted, x, y, w, h⟩ =
        .ok (∑ c ∈ tiltedCells p.width p.height x y w h, (p.pixel c.1 c.2 : ℤ)) ∧
      (image.source Float).answer ⟨.tilted, x, y, w, h⟩ = .ok (Scalar.ofInt
        (∑ c ∈ tiltedCells p.width p.height x y w h, (p.pixel c.1 c.2 : ℤ))) ∧
      (∀ px py, InTilted x y w h px py → x - h ≤ px ∧ px < x + w ∧ y ≤ py ∧ py < y + w + h) ∧
      {c : ℤ × ℤ | InTilted x y w h c.1 c.2}.ncard = 2 * w * h ∧
      (∀ v : ℕ, (∀ i < p.width, ∀ j < p.height, p.pixel i j = v) →
        image.lookup ⟨.tilted, x, y, w, h⟩ = .ok (2 * w * h * v)) ∧
      ∀ v ∈ image.tilted, 0 ≤ v ∧ v ≤ 255 * (p.width * p.height) := by
  have hlookup : (ofPixels p).lookup ⟨.tilted, x, y, w, h⟩ =
      .ok (∑ c ∈ tiltedCells p.width p.height x y w h, (p.pixel c.1 c.2 : ℤ)) := by
    simp only [lookup, tiltedSum_eq (ofPixels p) rfl (plane_vanishesOutside p) hl hx hy, plane_nat]
    rfl
  refine ⟨ofPixels p, ofBytes_eq p, hlookup, ?_, fun px py => InTilted.bounds, ncard_inTilted hl hx hy,
    ?_, tiltedTable_le (plane_vanishesOutside p) (plane_le p)⟩
  · simp only [source, hlookup]
    rfl
  · intro v hv
    have hconst : ∀ c ∈ tiltedCells p.width p.height x y w h, (p.pixel c.1 c.2 : ℤ) = v := by
      intro c hc
      obtain ⟨⟨hi, hj⟩, -⟩ := mem_tiltedCells.1 hc
      rw [hv _ hi _ hj]
    rw [hlookup, Finset.sum_congr rfl hconst, Finset.sum_const, card_tiltedCells hl hx hy, nsmul_eq_mul]
    push_cast
    rfl

/-- The two pixels on either side of the diagonal, from the left border of the image. -/
theorem tilted_lookup_keypad : 1 ≤ 1 ∧ 1 + 2 ≤ keypad.width ∧ 0 + 2 + 1 ≤ keypad.height ∧
    ∃ image, ofBytes keypad.size keypad.bytes = .ok image ∧
      image.lookup ⟨.tilted, 1, 0, 2, 1⟩ = .ok (1 + 4 + 5 + 8) := by
  have hx : 1 + 2 ≤ keypad.width := by decide
  have hy : 0 + 2 + 1 ≤ keypad.height := by decide
  obtain ⟨image, himage, hlookup, -⟩ := tilted_lookup keypad (le_refl 1) hx hy
  refine ⟨le_refl 1, hx, hy, image, himage, ?_⟩
  rw [hlookup]
  decide +kernel

end IntegralImage

end HaarDetection
