import HaarDetection.Proofs.Image.Tilted

/-!
# What a query adds up

A query adds up the pixels at certain positions. When its rectangle is moved, these move with it, so
what is asked for a rectangle of a window is a sum over the pixels of the window.

* `Query.Covers`, `Query.covered`: the positions of the pixels that a query adds up.
* `Query.Covers.lt`, `Query.covers_moved`: they lie where the query lies, and move with it.
* `Query.card_covered`: how many there are.
* `Query.pixelSum`: what a query adds up.
* `Query.pixelSum_moved_congr`: **it hangs on the pixels of the window alone.**
* `Query.pixelSum_brighter`, `Query.pixelSum_squares_brighter`: what it is in a brighter image.
* `IntegralImage.lookup_eq`: **the tables answer a query** with what it adds up.
-/

namespace HaarDetection

open Finset (Ico)

/-- What a pixel adds to a sum. -/
def QueryKind.term : QueryKind → ℤ → ℤ
  | .squares, v => v ^ 2
  | _, v => v

theorem QueryKind.term_of_ne {kind : QueryKind} (h : kind ≠ .squares) (v : ℤ) : kind.term v = v := by
  cases kind with
  | squares => exact absurd rfl h
  | sum => rfl
  | tilted => rfl

namespace Query

/-- **Is the pixel in column `i` and row `j` one of those that a query adds up?** -/
def Covers (q : Query) (i j : ℕ) : Prop :=
  match q.kind with
  | .sum | .squares => (q.x ≤ i ∧ i < q.x + q.width) ∧ q.y ≤ j ∧ j < q.y + q.height
  | .tilted => InTilted q.x q.y q.width q.height i j

/-- The positions of the pixels that a query adds up. -/
def covered (q : Query) : Finset (ℕ × ℕ) :=
  match q.kind with
  | .sum | .squares => Ico q.x (q.x + q.width) ×ˢ Ico q.y (q.y + q.height)
  | .tilted => tiltedCells (q.x + q.width) (q.y + q.width + q.height) q.x q.y q.width q.height

/-- The query for a rectangle that lies `x` columns further right and `y` rows further down. -/
def moved (q : Query) (x y : ℕ) : Query := { q with x := x + q.x, y := y + q.y }

variable {q : Query} {size : Size} {i j x y : ℕ}

theorem mem_covered {c : ℕ × ℕ} : c ∈ q.covered ↔ q.Covers c.1 c.2 := by
  unfold covered Covers
  cases q.kind with
  | sum => simp only [Finset.mem_product, Finset.mem_Ico]
  | squares => simp only [Finset.mem_product, Finset.mem_Ico]
  | tilted =>
    refine mem_tiltedCells.trans ⟨And.right, fun h => ⟨?_, h⟩⟩
    have := h.bounds
    omega

/-- **A query inside of an image adds up pixels of the image.** -/
theorem Covers.lt (h : q.Covers i j) (hq : q.Inside size) :
    i < size.width.toNat ∧ j < size.height.toNat := by
  unfold Covers at h
  unfold Query.Inside at hq
  cases hk : q.kind with
  | sum => rw [hk] at h hq; simp only at h hq; omega
  | squares => rw [hk] at h hq; simp only at h hq; omega
  | tilted =>
    rw [hk] at h hq
    have := InTilted.bounds h
    omega

/-- **The positions move with the query.** -/
theorem covers_moved (hq : q.Inside size) :
    (q.moved x y).Covers i j ↔ x ≤ i ∧ y ≤ j ∧ q.Covers (i - x) (j - y) := by
  unfold Covers moved
  unfold Query.Inside at hq
  cases hk : q.kind with
  | sum => simp only; omega
  | squares => simp only; omega
  | tilted =>
    rw [hk] at hq
    simp only at hq ⊢
    constructor
    · intro h
      have := h.bounds
      unfold InTilted at h ⊢
      omega
    · rintro ⟨hx, hy, h⟩
      unfold InTilted at h ⊢
      omega

theorem sum_covered_moved (hq : q.Inside size) (g : ℕ → ℕ → ℤ) :
    ∑ c ∈ (q.moved x y).covered, g c.1 c.2 = ∑ c ∈ q.covered, g (x + c.1) (y + c.2) := by
  refine Finset.sum_nbij' (fun c => (c.1 - x, c.2 - y)) (fun c => (x + c.1, y + c.2)) ?_ ?_ ?_ ?_ ?_
  · intro c hc
    rw [mem_covered, covers_moved hq] at hc
    exact mem_covered.2 hc.2.2
  · intro c hc
    rw [mem_covered] at hc ⊢
    refine (covers_moved hq).2 ⟨Nat.le_add_right x c.1, Nat.le_add_right y c.2, ?_⟩
    rwa [Nat.add_sub_cancel_left, Nat.add_sub_cancel_left]
  · intro c hc
    rw [mem_covered, covers_moved hq] at hc
    exact Prod.ext (Nat.add_sub_cancel' hc.1) (Nat.add_sub_cancel' hc.2.1)
  · intro c _
    exact Prod.ext (Nat.add_sub_cancel_left x c.1) (Nat.add_sub_cancel_left y c.2)
  · intro c hc
    rw [mem_covered, covers_moved hq] at hc
    dsimp only
    rw [Nat.add_sub_cancel' hc.1, Nat.add_sub_cancel' hc.2.1]

/-- **How many pixels a query adds up.** A tilted rectangle has twice as many as its sides tell. -/
theorem card_covered (hq : q.Inside size) :
    q.covered.card = (if q.kind = .tilted then 2 else 1) * (q.width * q.height) := by
  unfold Query.Inside at hq
  unfold covered
  cases hk : q.kind with
  | sum => simp
  | squares => simp
  | tilted =>
    rw [hk] at hq
    rw [card_tiltedCells hq.1 le_rfl le_rfl]
    simp [Nat.mul_assoc]

/-- **What a query adds up** in an image. -/
def pixelSum (q : Query) (p : Pixels) : ℤ := ∑ c ∈ q.covered, q.kind.term (p.pixel c.1 c.2)

variable {p p' : Pixels}

/-- **What is added up for a rectangle of a window** hangs on the pixels of the window alone, wherever
in an image the window is. -/
theorem pixelSum_moved_congr {x' y' : ℕ} (hq : q.Inside size)
    (h : ∀ i < size.width.toNat, ∀ j < size.height.toNat,
      p.pixel (x + i) (y + j) = p'.pixel (x' + i) (y' + j)) :
    (q.moved x y).pixelSum p = (q.moved x' y').pixelSum p' := by
  calc (q.moved x y).pixelSum p
      = ∑ c ∈ q.covered, q.kind.term (p.pixel (x + c.1) (y + c.2)) :=
        sum_covered_moved hq fun i j => q.kind.term (p.pixel i j)
    _ = ∑ c ∈ q.covered, q.kind.term (p'.pixel (x' + c.1) (y' + c.2)) := by
        refine Finset.sum_congr rfl ?_
        intro c hc
        obtain ⟨hi, hj⟩ := (mem_covered.1 hc).lt hq
        rw [h c.1 hi c.2 hj]
    _ = (q.moved x' y').pixelSum p' :=
        (sum_covered_moved hq fun i j => q.kind.term (p'.pixel i j)).symm

/-- **In a brighter image** every pixel that is added up adds the difference. -/
theorem pixelSum_brighter {b : ℤ} (hk : q.kind ≠ .squares) (hq : q.Inside p.size)
    (h : ∀ i < p.width, ∀ j < p.height, (p'.pixel i j : ℤ) = p.pixel i j + b) :
    q.pixelSum p' = q.pixelSum p + b * q.covered.card := by
  unfold pixelSum
  simp only [QueryKind.term_of_ne hk]
  calc ∑ c ∈ q.covered, (p'.pixel c.1 c.2 : ℤ)
      = ∑ c ∈ q.covered, ((p.pixel c.1 c.2 : ℤ) + b) := by
        refine Finset.sum_congr rfl ?_
        intro c hc
        obtain ⟨hi, hj⟩ := (mem_covered.1 hc).lt hq
        exact h c.1 hi c.2 hj
    _ = _ := by rw [Finset.sum_add_distrib, Finset.sum_const, nsmul_eq_mul, mul_comm]

theorem pixelSum_of_constant {k : ℕ} (hk : q.kind ≠ .squares) (hq : q.Inside p.size)
    (h : ∀ i < p.width, ∀ j < p.height, p.pixel i j = k) : q.pixelSum p = k * q.covered.card := by
  unfold pixelSum
  simp only [QueryKind.term_of_ne hk]
  calc ∑ c ∈ q.covered, (p.pixel c.1 c.2 : ℤ)
      = ∑ c ∈ q.covered, (k : ℤ) := by
        refine Finset.sum_congr rfl ?_
        intro c hc
        obtain ⟨hi, hj⟩ := (mem_covered.1 hc).lt hq
        rw [h c.1 hi c.2 hj]
    _ = k * q.covered.card := by rw [Finset.sum_const, nsmul_eq_mul, mul_comm]

/-- The squares of the pixels of an upright rectangle, from another query for the pixels. -/
theorem pixelSum_squares_brighter {x y w h : ℕ} {b : ℤ}
    (hq : (⟨.squares, x, y, w, h⟩ : Query).Inside p.size)
    (hb : ∀ i < p.width, ∀ j < p.height, (p'.pixel i j : ℤ) = p.pixel i j + b) :
    (⟨.squares, x, y, w, h⟩ : Query).pixelSum p' =
      (⟨.squares, x, y, w, h⟩ : Query).pixelSum p
        + 2 * b * (⟨.sum, x, y, w, h⟩ : Query).pixelSum p + b ^ 2 * (w * h) := by
  have hcard := card_covered hq
  simp only [reduceCtorEq, if_false, one_mul] at hcard
  unfold pixelSum
  calc ∑ c ∈ (⟨.squares, x, y, w, h⟩ : Query).covered, (p'.pixel c.1 c.2 : ℤ) ^ 2
      = ∑ c ∈ (⟨.squares, x, y, w, h⟩ : Query).covered,
          ((p.pixel c.1 c.2 : ℤ) ^ 2 + 2 * b * p.pixel c.1 c.2 + b ^ 2) := by
        refine Finset.sum_congr rfl ?_
        intro c hc
        obtain ⟨hi, hj⟩ := (mem_covered.1 hc).lt hq
        rw [hb c.1 hi c.2 hj]
        ring
    _ = _ := by
        rw [Finset.sum_add_distrib, Finset.sum_add_distrib, ← Finset.mul_sum, Finset.sum_const, hcard,
          nsmul_eq_mul, mul_comm (((w * h : ℕ) : ℤ)), Nat.cast_mul]
        rfl

end Query

namespace IntegralImage

variable {p : Pixels} {q : Query}

theorem rectSum_eq_sum_product (value : ℕ → ℕ → ℕ) (x y w h : ℕ) :
    rectSum value x y w h = ∑ c ∈ Ico x (x + w) ×ˢ Ico y (y + h), value c.1 c.2 :=
  (Finset.sum_product_right _ _ fun c : ℕ × ℕ => value c.1 c.2).symm

/-- The pixels of a tilted rectangle in the image are those that its query covers. -/
theorem tiltedCells_eq_covered {x y w h : ℕ} (hx : x + w ≤ p.width) (hy : y + w + h ≤ p.height) :
    tiltedCells p.width p.height x y w h = (⟨.tilted, x, y, w, h⟩ : Query).covered := by
  ext c
  rw [Query.mem_covered, mem_tiltedCells]
  refine ⟨And.right, fun hc => ⟨?_, hc⟩⟩
  have := InTilted.bounds (x := x) (y := y) (w := w) (h := h) hc
  omega

/-- **The answer to a query in the image** is what it adds up. -/
theorem lookup_eq (h : q.Inside p.size) : (ofPixels p).lookup q = .ok (q.pixelSum p) := by
  obtain ⟨kind, x, y, w, h'⟩ := q
  unfold lookup
  cases kind with
  | sum =>
    simp only [uprightSum_eq (ofPixels p) (sums_ofPixels p) h.1 h.2, rectSum_eq_sum_product]
    exact congrArg Except.ok (Nat.cast_sum _ _)
  | squares =>
    simp only [uprightSum_eq (ofPixels p) (squares_ofPixels p) h.1 h.2, rectSum_eq_sum_product]
    refine congrArg Except.ok ((Nat.cast_sum _ _).trans (Finset.sum_congr rfl ?_))
    intro c _
    exact Nat.cast_pow _ 2
  | tilted =>
    simp only [tiltedSum_eq (ofPixels p) rfl (plane_vanishesOutside p) h.1 h.2.1 h.2.2, plane_nat]
    exact congrArg Except.ok (Finset.sum_congr (tiltedCells_eq_covered h.2.1 h.2.2) fun _ _ => rfl)

/-- The answer as a scalar. -/
theorem answer_ofPixels {α : Type} [Scalar α] (h : q.Inside p.size) :
    ((ofPixels p).source α).answer q = .ok (Scalar.ofInt (q.pixelSum p)) := by
  change Scalar.ofInt <$> (ofPixels p).lookup q = _
  rw [lookup_eq h]
  rfl

end IntegralImage

end HaarDetection
