import HaarDetection.Proofs.Classifier.Verdicts
import HaarDetection.Proofs.Image.Covered

/-!
# What a classifier sees of an image

The queries of a classifier for a window are answered with sums of pixels, so features, deviations and
verdicts can be written in terms of these sums.

* `Region.query`: the query for a region of a window, which moves with the window.
* `View.ofPixels`: an image, seen from a position.
* `Feature.valueIn_ofPixels`: **the value of a feature** of which all regions lie in the image.
* `Classifier.trace_deviation_ofPixels`: **the deviation of a window** in the image.
* `Classifier.rejectingStage_ofPixels_congr`: windows that have these in common are judged the same.
* `Classifier.exists_rejectingStage`: a window in the image is judged.
-/

namespace HaarDetection

variable {α : Type} {p : Pixels} {x y : ℕ}

/-- The query for the pixels of a region of a window in the corner of the image. -/
def Region.query (r : Region) (tilted : Bool) : Query where
  kind := if tilted then .tilted else .sum
  x := r.x.toNat
  y := r.y.toNat
  width := r.width.toNat
  height := r.height.toNat

theorem Region.queryAt_kind_ne (r : Region) (tilted : Bool) (x y : ℕ) :
    (r.queryAt tilted x y).kind ≠ .squares := by
  cases tilted with
  | true => exact nofun
  | false => exact nofun

theorem Region.inside_query {r : Region} {tilted : Bool} {window : Size}
    (h : r.Inside tilted window) : (r.query tilted).Inside window := by
  unfold Region.Inside at h
  unfold Region.query Query.Inside
  cases tilted with
  | true => exact h
  | false => exact h

theorem Region.Inside.mono {r : Region} {tilted : Bool} {window window' : Size}
    (h : r.Inside tilted window) (hfits : window'.Fits window) : r.Inside tilted window' := by
  have hw := UInt32.le_iff_toNat_le.1 hfits.1
  have hh := UInt32.le_iff_toNat_le.1 hfits.2
  unfold Region.Inside at h ⊢
  split at h <;> rename_i ht
  · rw [if_pos ht]
    omega
  · rw [if_neg ht]
    omega

/-- A query moves as far as there is room for it. -/
theorem Query.Inside.moved {q : Query} {window image : Size} (h : q.Inside window)
    (hx : x + window.width.toNat ≤ image.width.toNat)
    (hy : y + window.height.toNat ≤ image.height.toNat) : (q.moved x y).Inside image := by
  unfold Query.Inside at h ⊢
  unfold Query.moved
  cases hk : q.kind with
  | sum => rw [hk] at h; simp only at h ⊢; omega
  | squares => rw [hk] at h; simp only at h ⊢; omega
  | tilted => rw [hk] at h; simp only at h ⊢; omega

/-- A query in an image has coordinates of 32 bits. -/
theorem Query.Inside.coordinates_lt {q : Query} {image : Size} (h : q.Inside image) :
    q.x < 2 ^ 32 ∧ q.y < 2 ^ 32 := by
  have hw := image.width.toNat_lt
  have hh := image.height.toNat_lt
  unfold Query.Inside at h
  cases hk : q.kind with
  | sum => rw [hk] at h; simp only at h; omega
  | squares => rw [hk] at h; simp only at h; omega
  | tilted => rw [hk] at h; simp only at h; omega

/-- What a rectangle of a feature adds up in an image, for a window at `(x, y)`. -/
def FeatureRect.pixelSum (r : FeatureRect α) (tilted : Bool) (p : Pixels) (x y : ℕ) : ℤ :=
  (r.scaledRegion.queryAt tilted x y).pixelSum p

/-- The regions of a feature lie in an image when the window is at `(x, y)`. -/
def Feature.InImage (f : Feature α) (image : Size) (x y : ℕ) : Prop :=
  ∀ r ∈ f.rects, (r.scaledRegion.queryAt f.tilted x y).Inside image

/-- A window in an image, by its position. -/
theorem Rect.InImage.position {w : Rect} {image : Size} (h : w.InImage image) :
    w.left = w.left.toNat ∧ w.top = w.top.toNat ∧
      w.left.toNat + w.width.toNat ≤ image.width.toNat ∧
      w.top.toNat + w.height.toNat ≤ image.height.toNat := by
  obtain ⟨h1, h2, h3, h4⟩ := h
  unfold Rect.right at h3
  unfold Rect.bottom at h4
  omega

/-- Regions inside of a window lie in the image with the window. -/
theorem Feature.inImage_of_inside {f : Feature α} {w : Rect} {image : Size} (hw : w.InImage image)
    (h : ∀ r ∈ f.rects, r.scaledRegion.Inside f.tilted w.size) :
    f.InImage image w.left.toNat w.top.toNat := by
  obtain ⟨-, -, hright, hbottom⟩ := hw.position
  exact fun r hr => (Region.inside_query (h r hr)).moved hright hbottom

variable [Scalar α]

/-- **An image, seen from a position.** -/
def View.ofPixels (α : Type) [Scalar α] (p : Pixels) (x y : ℕ) : View α :=
  ⟨((IntegralImage.ofPixels p).source α).answer, x, y⟩

/-- **The value of a feature** from the pixels of an image. -/
def Feature.valueOn (f : Feature α) (p : Pixels) (x y : ℕ) : α :=
  f.rects.foldl (fun sum r => sum + Scalar.ofInt (r.pixelSum f.tilted p x y) * r.scaledWeight)
    Scalar.zero

/-- **A feature of which all regions lie in the image** has a value. -/
theorem Feature.valueIn_ofPixels {f : Feature α} (h : f.InImage p.size x y) :
    f.valueIn (.ofPixels α p x y) = .ok (f.valueOn p x y) := by
  refine Feature.valueIn_eq ?_
  intro r hr
  obtain ⟨hx, hy⟩ := (h r hr).coordinates_lt
  exact ⟨hx, hy, IntegralImage.answer_ofPixels (h r hr)⟩

namespace Classifier

variable {p' : Pixels} {w w' : Rect} {cl : Classifier α}

omit [Scalar α] in
theorem position?_of_inImage {image : Size} (h : w.InImage image) (hfits : w.size.Fits cl.windowSize) :
    cl.position? image w = some (w.left.toNat, w.top.toNat) := by
  obtain ⟨h1, h2, h3, h4⟩ := h
  unfold position?
  rw [if_pos ⟨h1, h2, h3, h4, hfits⟩]

omit [Scalar α] in
/-- **Only windows in the image have a position.** -/
theorem inImage_of_position? {image : Size} (h : cl.position? image w = some (x, y)) :
    w.InImage image ∧ w.size.Fits cl.windowSize ∧ w.left.toNat = x ∧ w.top.toNat = y := by
  obtain ⟨hx, hy, hright, hbottom, hfits⟩ := position?_eq_some h
  exact ⟨⟨by omega, by omega, hright, hbottom⟩, hfits, by omega, by omega⟩

omit [Scalar α] in
/-- The queries for a window lie in the image with the window. -/
theorem inside_windowQuery {kind : QueryKind} {image : Size} (hk : kind ≠ .tilted)
    (h : w.InImage image) : (windowQuery kind w w.left.toNat w.top.toNat).Inside image := by
  obtain ⟨-, -, hright, hbottom⟩ := h.position
  unfold windowQuery Query.Inside
  cases kind with
  | sum => exact ⟨hright, hbottom⟩
  | squares => exact ⟨hright, hbottom⟩
  | tilted => exact absurd rfl hk

/-- What is added up for a window in an image. -/
def windowSum (kind : QueryKind) (p : Pixels) (w : Rect) : ℤ :=
  (windowQuery kind w w.left.toNat w.top.toNat).pixelSum p

/-- **The deviation of a window** from the pixels of an image. -/
def deviationOn (α : Type) [Scalar α] (p : Pixels) (w : Rect) : α :=
  deviationOf w.area (Scalar.ofInt (windowSum .sum p w)) (Scalar.ofInt (windowSum .squares p w))

theorem trace_deviation_ofPixels (h : w.InImage p.size) :
    (deviation w).trace ((IntegralImage.ofPixels p).source α).answer =
      ⟨.ok (deviationOn α p w), deviationQueries w⟩ := by
  obtain ⟨hx, hy, -⟩ := h.position
  exact trace_deviation hx hy (IntegralImage.answer_ofPixels (inside_windowQuery nofun h))
    (IntegralImage.answer_ofPixels (inside_windowQuery nofun h))

theorem resultOn_deviation_ofPixels (h : w.InImage p.size) :
    (deviation w).resultOn ((IntegralImage.ofPixels p).source α).answer = .ok (deviationOn α p w) :=
  congrArg Trace.result (trace_deviation_ofPixels h)

/-- **Windows in which deviation and features are the same** are judged the same. -/
theorem rejectingStage_ofPixels_congr (hw : w.InImage p.size) (hw' : w'.InImage p'.size)
    (hfits : w.size.Fits cl.windowSize) (hfits' : w'.size.Fits cl.windowSize)
    (hin : ∀ f ∈ cl.cascade.features, f.InImage p.size w.left.toNat w.top.toNat)
    (hin' : ∀ f ∈ cl.cascade.features, f.InImage p'.size w'.left.toNat w'.top.toNat)
    (hdev : deviationOn α p w = deviationOn α p' w')
    (hvalue : ∀ f ∈ cl.cascade.features,
      f.valueOn p w.left.toNat w.top.toNat = f.valueOn p' w'.left.toNat w'.top.toNat) :
    (cl.rejectingStage p.size w).resultOn ((IntegralImage.ofPixels p).source α).answer =
      (cl.rejectingStage p'.size w').resultOn ((IntegralImage.ofPixels p').source α).answer := by
  refine rejectingStage_congr (v := .ofPixels α p w.left.toNat w.top.toNat)
    (w := .ofPixels α p' w'.left.toNat w'.top.toNat) (position?_of_inImage hw hfits)
    (position?_of_inImage hw' hfits') ?_ ?_
  · refine (resultOn_deviation_ofPixels hw).trans ?_
    rw [hdev]
    exact (resultOn_deviation_ofPixels hw').symm
  · intro f hf
    rw [Feature.valueIn_ofPixels (hin f hf), Feature.valueIn_ofPixels (hin' f hf), hvalue f hf]

/-- **A window is judged** by an accepted cascade all regions of which lie in it. -/
theorem exists_rejectingStage {c : Cascade α} {scale : Float32} {inverseArea : α} (hc : c.Accepted)
    (hcl : cl.cascade = c.rescale scale inverseArea)
    (hin : ∀ f ∈ cl.cascade.features, ∀ r ∈ f.rects, r.scaledRegion.Inside f.tilted w.size) :
    ∃ stage, (cl.rejectingStage p.size w).resultOn
      ((IntegralImage.ofPixels p).source α).answer = .ok stage := by
  rw [hcl] at hin
  have hregions := (Cascade.forall_rects_rescale fun tilted r => r.Inside tilted w.size).1 hin
  have hkeeps : (cl.rejectingStage p.size w).Keeps (·.Inside p.size) fun _ => True := by
    refine rejectingStage_keeps hc hcl ?_
    intro x y hpos
    obtain ⟨hw, -, rfl, rfl⟩ := inImage_of_position? hpos
    obtain ⟨-, -, hright, hbottom⟩ := hw.position
    refine ⟨inside_windowQuery nofun hw, inside_windowQuery nofun hw, ?_⟩
    intro f hf r hr
    have hquery : ((r.region.scale scale).queryAt f.tilted w.left.toNat w.top.toNat).Inside p.size :=
      (Region.inside_query (hregions f hf r hr)).moved hright hbottom
    obtain ⟨hx', hy'⟩ := hquery.coordinates_lt
    exact ⟨hx', hy', hquery⟩
  obtain ⟨stage, hstage, -⟩ := hkeeps.trace fun q hq => ⟨_, IntegralImage.answer_ofPixels hq⟩
  exact ⟨stage, hstage⟩

end Classifier

end HaarDetection
