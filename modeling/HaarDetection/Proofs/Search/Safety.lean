import HaarDetection.Proofs.Cascade.Stump
import HaarDetection.Proofs.Search.Placement

/-!
# Which searches are safe

A search is safe when it meets no fault and asks only for rectangles in the image. Whether it does
depends on the regions of the cascade, as rounding can make a scaled region leave its window.

* `Detector.Safe`: a search without faults, and with queries in the image only.
* `Detector.Stays`: a region that stays in the image at every position of its window.
* `Detector.safe_of_stays`: **a search is safe while all regions stay in the image.**
* `Detector.stays_of_safe`: a region that does not is one that a search can be led to.
* `Detector.stays_iff`: **which regions stay in the image**, for windows below `2 ^ 15` pixels a side.
* `Detector.searches_safe_iff`: when the searches with all cascades for a window are safe.
* `Detector.search_leaves_image`: a search that is not.
-/

namespace HaarDetection

namespace Detector

open Classifier (atScale)

variable {c : Cascade Float} {d : Detector} {window image : Size} {options : Options}
  {scales : List Float32} {scale : Float32} {r : Region} {tilted : Bool}

/-- An image without anything on it. -/
def blank (image : Size) : Pixels := ⟨image, ⟨Array.replicate image.pixels 0⟩, by simp [ByteArray.size]⟩

/-- **A safe search** meets no fault, and asks only queries whose rectangles lie in the image. -/
def Safe (d : Detector) (image : Source Float) : Prop :=
  (∃ d' ds, d.detect image = .ok (d', .ok ds)) ∧ ∀ q ∈ d.asked image, q.Inside image.size

/-- The scales at which an image is searched with cascades for a window. -/
def scalesOf (window : Size) (options : Options) (image : Size) : Except SearchError (List Float32) :=
  ({ classifier := .ofCascade ⟨window, []⟩, options } : Detector).scales image

theorem Uses.scales_eq (hd : d.Uses c) (image : Size) :
    d.scales image = scalesOf c.window d.options image := by
  unfold scalesOf scales schedule
  rw [hd.window]
  rfl

/-- **A region stays in the image** when its window is scaled, at all positions on the grid. -/
def Stays (window : Size) (options : Options) (image : Size) (scale : Float32) (tilted : Bool)
    (r : Region) : Prop :=
  ∀ x y, stepAt options.stepRatio scale ∣ x → stepAt options.stepRatio scale ∣ y →
    x + (window.scale scale).width.toNat ≤ image.width.toNat →
    y + (window.scale scale).height.toNat ≤ image.height.toNat →
    ((r.scale scale).queryAt tilted x y).Inside image

/-- A region inside of the scaled window stays in the image. -/
theorem Stays.of_inside (h : (r.scale scale).Inside tilted (window.scale scale)) :
    Stays window options image scale tilted r := by
  intro x y _ _ hx hy
  unfold Region.Inside at h
  unfold Region.queryAt Query.Inside
  cases tilted with
  | true =>
    rw [if_pos rfl] at h
    simp only [if_true]
    omega
  | false =>
    rw [if_neg Bool.false_ne_true] at h
    simp only [Bool.false_eq_true, if_false]
    omega

/-- The scales of a search are scales at which the window has pixels, and room in the image. -/
theorem scaledWindow_of_mem (hw : 0 < window.width.toNat ∧ 0 < window.height.toNat)
    (hi : image.Small) (hs : scalesOf window options image = .ok scales) (h : scale ∈ scales) :
    Visited window options image scale ∧ ScaledWindow window scale := by
  have hv : Visited window options image scale := visited_of_mem_scales hs h
  exact ⟨hv, hv.scaledWindow hw hi⟩

/-- **While all regions stay in the image**, all windows can be judged with queries in the image. -/
theorem searchable_of_stays {p : Pixels} (hc : c.Accepted) (hi : p.size.Small)
    (hv : Visited c.window options p.size scale) (hw : ScaledWindow c.window scale)
    (h : ∀ f ∈ c.features, ∀ r ∈ f.rects,
      Stays c.window options p.size scale f.tilted r.region) :
    Searchable c options ((IntegralImage.ofPixels p).source Float) scale ∧
      ∀ spot ∈ spots c.window options p.size [scale],
        ∀ q ∈ (verdict c ((IntegralImage.ofPixels p).source Float) spot).asked, q.Inside p.size := by
  refine searchable_of_keeps (fun q hq => IntegralImage.source_ofPixels hq)
    hw.horizontal.scale_pos.ne' hv.image_fits ?_
  intro w hmem
  obtain ⟨x, y, hx, hy, hx', hy', rfl⟩ := (mem_windows (stepAt_pos _ _) hv.image_fits).1 hmem
  refine Classifier.accepts_keeps hc ?_
  intro x' y' hpos
  have hgrid := Classifier.position?_gridWindow (c := atScale c scale) hi hx' hy'
  obtain ⟨rfl, rfl⟩ : x = x' ∧ y = y' := by
    have := hgrid.symm.trans hpos
    simpa using this
  refine ⟨⟨hx', hy'⟩, ⟨hx', hy'⟩, ?_⟩
  intro f hf r hr
  exact Classifier.admitted_of_position (hc.inside hf hr) hpos (h f hf r hr x y hx hy hx' hy')

theorem mem_throughFirst {β : Type} {p : β → Bool} {xs : List β} {b : β} (h : b ∈ throughFirst p xs) :
    b ∈ xs := by
  rcases throughFirst_cases (p := p) xs with ⟨-, heq⟩ | ⟨before, a, after, rfl, -, -, heq⟩
  · rwa [heq] at h
  · rw [heq] at h
    simp only [List.mem_append, List.mem_cons] at h ⊢
    tauto

/-- **A search is safe while all regions stay in the image.** -/
theorem safe_of_stays {p : Pixels} (hc : c.Accepted) (hd : d.Uses c) (hi : p.size.Small)
    (hs : d.scales p.size = .ok scales)
    (h : ∀ s ∈ scales, ∀ f ∈ c.features, ∀ r ∈ f.rects,
      Stays c.window d.options p.size s f.tilted r.region) :
    d.Safe ((IntegralImage.ofPixels p).source Float) := by
  have hs' := hs
  rw [hd.scales_eq] at hs'
  have hall : ∀ s ∈ scales, Searchable c d.options ((IntegralImage.ofPixels p).source Float) s ∧
      ∀ spot ∈ spots c.window d.options p.size [s],
        ∀ q ∈ (verdict c ((IntegralImage.ofPixels p).source Float) spot).asked, q.Inside p.size := by
    intro s hmem
    obtain ⟨hv, hw⟩ := scaledWindow_of_mem hc.window_pos hi hs' hmem
    exact searchable_of_stays hc hi hv hw (h s hmem)
  have hsearch : ∀ s ∈ scales, Searchable c d.options _ s := fun s hmem => (hall s hmem).1
  have hinside : ∀ spot ∈ spots c.window d.options p.size scales,
      ∀ q ∈ (verdict c ((IntegralImage.ofPixels p).source Float) spot).asked, q.Inside p.size := by
    intro spot hspot
    obtain ⟨s, hmem, hspot⟩ := List.mem_flatMap.1 hspot
    exact (hall s hmem).2 spot (by rwa [spots, List.flatMap_singleton])
  have hqueries : ∀ ss : List (Float32 × Rect),
      (∀ spot ∈ ss, spot ∈ spots c.window d.options p.size scales) →
      ∀ q ∈ queries c ((IntegralImage.ofPixels p).source Float) ss, q.Inside p.size := by
    intro ss hss q hq
    obtain ⟨spot, hspot, hq⟩ := List.mem_flatMap.1 hq
    exact hinside spot (hss spot hspot) q hq
  cases ho : stopsAtFirst d.options with
  | true =>
    obtain ⟨⟨d', -, hdetect⟩, hasked⟩ := trace_search_single hd hs hsearch ho
    refine ⟨⟨d', _, hdetect⟩, ?_⟩
    rw [hasked]
    exact hqueries _ fun spot => mem_throughFirst
  | false =>
    obtain ⟨⟨d', -, hdetect⟩, hasked⟩ := trace_search_all hd hs hsearch ho
    refine ⟨⟨d', _, hdetect⟩, ?_⟩
    rw [hasked]
    exact hqueries _ fun spot hspot => hspot

/-- **A region that does not stay in the image** is one that a search can be led to: with the cascade
of that region. -/
theorem stays_of_safe {p : Pixels} (hw : 0 < window.width.toNat ∧ 0 < window.height.toNat)
    (hr : r.Inside tilted window) (hi : p.size.Small)
    (hs : scalesOf window options p.size = .ok scales)
    (hsafe : Safe ⟨.ofCascade (stump window tilted r), options⟩
      ((IntegralImage.ofPixels p).source Float)) :
    ∀ s ∈ scales, Stays window options p.size s tilted r := by
  set c := stump window tilted r with hc
  set source := (IntegralImage.ofPixels p).source Float with hsource
  have hd : Uses ⟨.ofCascade c, options⟩ c := ⟨1, rfl⟩
  have hds : Detector.scales ⟨.ofCascade c, options⟩ source.size = .ok scales := by
    rw [hd.scales_eq]; exact hs
  have hrej : Rejects c source := fun s w => stump_rejects _ _
  obtain ⟨⟨d', ds, hdetect⟩, hasked⟩ := hsafe
  -- a search that ends has judged all windows, as none is accepted
  have hsearch : ∀ s ∈ scales, Searchable c options source s := by
    rw [detect_eq_trace] at hdetect
    have hdetect' := hdetect
    unfold search at hdetect'
    rw [hds] at hdetect'
    obtain ⟨res, qs, hres⟩ := Probe.result_of_bind hdetect'
    refine searchable_of_result hrej ?_ (congrArg Trace.result hres)
    intro s hmem
    obtain ⟨hv, hscaled⟩ := scaledWindow_of_mem hw hi hs hmem
    exact ⟨hscaled.horizontal.scale_pos.ne', hv.image_fits⟩
  have hqueries : Detector.asked ⟨.ofCascade c, options⟩ source =
      queries c source (spots window options p.size scales) := by
    cases ho : stopsAtFirst options with
    | true =>
      rw [(trace_search_single hd hds hsearch ho).2, throughFirst_of_not_any (hrej.not_any _)]
      rfl
    | false => exact (trace_search_all hd hds hsearch ho).2
  intro s hmem x y hx hy hx' hy'
  obtain ⟨hv, hscaled⟩ := scaledWindow_of_mem hw hi hs hmem
  have hgrid : (atScale c s).position? p.size (gridWindow (window.scale s) x y) = some (x, y) :=
    Classifier.position?_gridWindow hi hx' hy'
  have hwin : gridWindow (window.scale s) x y ∈
      windows p.size (window.scale s) (stepAt options.stepRatio s) :=
    (mem_windows (stepAt_pos _ _) hv.image_fits).2 ⟨x, y, hx, hy, hx', hy', rfl⟩
  obtain ⟨b, hb⟩ := (hsearch s hmem).judges _ hwin
  have hadm := Classifier.admitted_of_position (P := fun _ => True) (c := c) hr hgrid trivial
  apply hasked
  rw [hqueries]
  exact List.mem_flatMap.2 ⟨(s, gridWindow (window.scale s) x y),
    List.mem_flatMap.2 ⟨s, hmem, List.mem_map.2 ⟨_, hwin, rfl⟩⟩, stump_asks hgrid hadm hb⟩

/-- **Which regions stay in the image**, for windows of fewer than `2 ^ 15` pixels a side: all but the
tilted ones with their topmost corner next to the left border, at a scale below one. -/
theorem stays_iff (hv : Visited window options image scale) (hw : ScaledWindow window scale)
    (hx : (window.scale scale).width.toNat < 2 ^ 15) (hy : (window.scale scale).height.toNat < 2 ^ 15)
    (hr : r.Inside tilted window) (hne : r.Nonempty) :
    Stays window options image scale tilted r ↔
      ¬(tilted = true ∧ r.x = 1 ∧ Float32.lt scale 1 = true) := by
  have hiff := hw.inside_scale_iff hv.fits_window hx hy hr hne
  refine ⟨?_, fun h => Stays.of_inside (hiff.2 h)⟩
  rintro h ⟨rfl, hone, hlt⟩
  -- at the left border of the image nothing is left of the column beside the corner
  have hq := h 0 0 (Nat.dvd_zero _) (Nat.dvd_zero _)
    (by simpa using UInt32.le_iff_toNat_le.1 hv.image_fits.1)
    (by simpa using UInt32.le_iff_toNat_le.1 hv.image_fits.2)
  have hs : singleValue scale < 1 := by
    have := (lt_single_iff hw.horizontal.spec.2.1 one_single.1).1 hlt
    rwa [one_single.2] at this
  have hle : 1 ≤ window.width := by
    rw [← hone]
    simp only [Region.Inside, if_true] at hr
    exact UInt32.le_iff_toNat_le.2 (by omega)
  have hzero := hw.scaledLength_one hv.fits_window hx hs hle
  have hheight := r.scale_height scale
  have hcorner := r.scale_x scale
  rw [hone, hzero] at hcorner
  simp only [Region.queryAt, Query.Inside, if_true] at hq
  omega

/-- All regions of a window stay in the image at a scale. -/
def AllStay (window : Size) (options : Options) (image : Size) (scale : Float32) : Prop :=
  ∀ tilted r, r.Inside tilted window → r.Nonempty → Stays window options image scale tilted r

/-- **At which scales all regions stay in the image.** -/
theorem allStay_iff (hpos : 0 < window.width.toNat ∧ 0 < window.height.toNat)
    (hv : Visited window options image scale) (hw : ScaledWindow window scale)
    (hx : (window.scale scale).width.toNat < 2 ^ 15)
    (hy : (window.scale scale).height.toNat < 2 ^ 15) :
    AllStay window options image scale ↔
      (Float32.lt scale 1 = true → window.width = 1 ∨ window.height = 1) := by
  constructor
  · intro h hlt
    by_contra hone
    push Not at hone
    have hw2 : 2 ≤ window.width.toNat := by
      have : window.width.toNat ≠ 1 := fun h1 => hone.1 (UInt32.toNat_inj.1 h1)
      omega
    have hh2 : 2 ≤ window.height.toNat := by
      have : window.height.toNat ≠ 1 := fun h1 => hone.2 (UInt32.toNat_inj.1 h1)
      omega
    -- the smallest tilted region next to the left border
    have hr : (⟨1, 0, 1, 1⟩ : Region).Inside true window := by
      simp only [Region.Inside, if_true, UInt32.toNat_one, UInt32.toNat_zero]
      omega
    have hne : (⟨1, 0, 1, 1⟩ : Region).Nonempty := ⟨Nat.one_pos, Nat.one_pos⟩
    exact (stays_iff hv hw hx hy hr hne).1 (h true _ hr hne) ⟨rfl, rfl, hlt⟩
  · intro h tilted r hr hne
    refine (stays_iff hv hw hx hy hr hne).2 ?_
    rintro ⟨rfl, hone, hlt⟩
    obtain ⟨hrw, hrh⟩ := hne
    simp only [Region.Inside, if_true, hone, UInt32.toNat_one] at hr
    rcases h hlt with h1 | h1 <;> rw [h1, UInt32.toNat_one] at hr <;> omega

/-- The searches with all cascades for a window are safe, in all images of a size. -/
def AllSafe (window : Size) (options : Options) (image : Size) : Prop :=
  ∀ c : Cascade Float, c.Accepted → c.window = window → ∀ d : Detector, d.Uses c →
    d.options = options → ∀ p : Pixels, p.size = image → d.Safe ((IntegralImage.ofPixels p).source Float)

/-- **When searches are safe.** The searches with all cascades for a window are safe exactly when all
regions of the window stay in the image at all scales. At a scale at which the window has fewer than
`2 ^ 15` pixels a side they do, unless the scale is below one and the window has room for a tilted
region next to its left border. A single cascade is safe as soon as its own regions stay. To merge the
windows that have been found, their neighbors are added up in 32 bits; this overflows if there are
`2 ^ 32` windows in a cluster, and nothing else does. -/
theorem searches_safe_iff (hw : 0 < window.width.toNat ∧ 0 < window.height.toNat)
    (hi : image.Small) (hs : scalesOf window options image = .ok scales) :
    (AllSafe window options image ↔ ∀ s ∈ scales, AllStay window options image s) ∧
    (∀ s ∈ scales, (window.scale s).width.toNat < 2 ^ 15 → (window.scale s).height.toNat < 2 ^ 15 →
      (AllStay window options image s ↔
        (Float32.lt s 1 = true → window.width = 1 ∨ window.height = 1)) ∧
      ∀ tilted r, r.Inside tilted window → r.Nonempty →
        (Stays window options image s tilted r ↔
          ¬(tilted = true ∧ r.x = 1 ∧ Float32.lt s 1 = true))) ∧
    (∀ c : Cascade Float, c.Accepted → c.window = window → ∀ d : Detector, d.Uses c →
      d.options = options →
      (∀ s ∈ scales, ∀ f ∈ c.features, ∀ r ∈ f.rects,
        Stays window options image s f.tilted r.region) →
      ∀ p : Pixels, p.size = image → d.Safe ((IntegralImage.ofPixels p).source Float)) ∧
    ∀ d : Detector, d.options = options → ∀ p : Pixels, p.size = image → ∀ windows,
      (d.inMode .default options.parallel).found ((IntegralImage.ofPixels p).source Float) =
        .ok (.ok windows) → ∀ g : Grouper, g.grouping = options.grouping →
      (g.Fits windows ↔ ∀ cluster ∈ options.grouping.clustersOf windows, cluster.length < 2 ^ 32) := by
  have hown : ∀ c : Cascade Float, c.Accepted → c.window = window → ∀ d : Detector, d.Uses c →
      d.options = options →
      (∀ s ∈ scales, ∀ f ∈ c.features, ∀ r ∈ f.rects,
        Stays window options image s f.tilted r.region) →
      ∀ p : Pixels, p.size = image → d.Safe ((IntegralImage.ofPixels p).source Float) := by
    rintro c hc rfl d hd rfl hstay p rfl
    exact safe_of_stays hc hd hi (by rw [hd.scales_eq]; exact hs) hstay
  refine ⟨⟨?_, ?_⟩,
    fun s hmem hx hy => ⟨?_, ?_⟩, hown, ?_⟩
  · intro hsafe s hmem tilted r hr hne
    have := hsafe (stump window tilted r) (stump_accepted hw hr hne) rfl
      ⟨.ofCascade (stump window tilted r), options⟩ ⟨1, rfl⟩ rfl (blank image) rfl
    exact stays_of_safe (p := blank image) hw hr hi hs this s hmem
  · intro hstay c hc hcw d hd hdo p hp
    refine hown c hc hcw d hd hdo ?_ p hp
    intro s hmem f hf r hr
    subst hcw
    exact hstay s hmem _ _ (hc.inside hf hr) (hc.nonempty hf hr)
  · obtain ⟨hv, hscaled⟩ := scaledWindow_of_mem hw hi hs hmem
    exact allStay_iff hw hv hscaled hx hy
  · intro tilted r hr hne
    obtain ⟨hv, hscaled⟩ := scaledWindow_of_mem hw hi hs hmem
    exact stays_iff hv hscaled hx hy hr hne
  · rintro d rfl p rfl windows hfound g hg
    obtain ⟨found, hwin, hmerged, -⟩ := exists_windows hfound
    have heq : windows = found := hmerged
    rw [fits_windows_iff hi (heq ▸ hwin), hg]

/-- **A search that is not safe.** The scale `1.5` over a factor that is a little greater is a little
less than one. The image has room for the window at this scale, too, as its lengths are cut with some
slack, but the region has none at the left border, as its corner is cut without. -/
theorem search_leaves_image :
    (stump ⟨2, 2⟩ true ⟨1, 0, 1, 1⟩).Accepted ∧
      ({ scalingFactor := 1.5000001 } : Options).check = .ok () ∧
      scalesOf ⟨2, 2⟩ { scalingFactor := 1.5000001 } ⟨3, 3⟩ = .ok [1.5, 0.99999994] ∧
      found ⟨.ofCascade (stump ⟨2, 2⟩ true ⟨1, 0, 1, 1⟩), { scalingFactor := 1.5000001 }⟩
        ((IntegralImage.ofPixels (blank ⟨3, 3⟩)).source Float) = .error .leftOfImage := by
  have hw : 0 < (⟨2, 2⟩ : Size).width.toNat ∧ 0 < (⟨2, 2⟩ : Size).height.toNat := by decide
  have hr : (⟨1, 0, 1, 1⟩ : Region).Inside true ⟨2, 2⟩ := by decide
  have hne : (⟨1, 0, 1, 1⟩ : Region).Nonempty := ⟨by decide, by decide⟩
  exact ⟨stump_accepted hw hr hne, by decide +kernel, by decide +kernel, by decide +kernel⟩

/-- With the factor that is set without choosing one the searches for windows of two pixels a side are
safe in images of three, and with the one that is a little greater than the scale they are not. -/
theorem searches_safe_of_default_factor : AllSafe ⟨2, 2⟩ {} ⟨3, 3⟩ ∧
    ¬AllSafe ⟨2, 2⟩ { scalingFactor := 1.5000001 } ⟨3, 3⟩ := by
  have hw : 0 < (⟨2, 2⟩ : Size).width.toNat ∧ 0 < (⟨2, 2⟩ : Size).height.toNat := by decide
  have hi : (⟨3, 3⟩ : Size).Small := ⟨by decide, by decide⟩
  have hs : scalesOf ⟨2, 2⟩ {} ⟨3, 3⟩ = .ok [1.5, 1.25, 1.0416666] := by decide +kernel
  have hs' : scalesOf ⟨2, 2⟩ { scalingFactor := 1.5000001 } ⟨3, 3⟩ = .ok [1.5, 0.99999994] := by
    decide +kernel
  obtain ⟨hsafe, hscale, -⟩ := searches_safe_iff hw hi hs
  obtain ⟨hsafe', hscale', -⟩ := searches_safe_iff hw hi hs'
  constructor
  · refine hsafe.2 ?_
    intro s hmem
    have hlt : (Float32.lt s 1 = true → (2 : UInt32) = 1 ∨ (2 : UInt32) = 1) ∧
        ((⟨2, 2⟩ : Size).scale s).width.toNat < 2 ^ 15 ∧
        ((⟨2, 2⟩ : Size).scale s).height.toNat < 2 ^ 15 := by
      simp only [List.mem_cons, List.not_mem_nil, or_false] at hmem
      rcases hmem with rfl | rfl | rfl <;> decide +kernel
    exact (hscale s hmem hlt.2.1 hlt.2.2).1.2 hlt.1
  · intro h
    have hstay := hsafe'.1 h 0.99999994 (by simp)
    have := (hscale' 0.99999994 (by simp) (by decide +kernel) (by decide +kernel)).1.1 hstay
      (by decide +kernel)
    revert this
    decide

end Detector

end HaarDetection
