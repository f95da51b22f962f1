import HaarDetection.Proofs.Image.Tables
import HaarDetection.Proofs.Merge.Means
import HaarDetection.Proofs.Search.Modes

/-!
# Where detections lie

A window that is accepted has a position in the image. This holds for every image as a search sees
it, also for one that does not answer all queries, as long as the search ends.

* `Detection.IsWindow`: a detection that stands for a single window of an image.
* `Detector.searchScales_yields`: **what a search finds are windows of the image.**
* `Detector.exists_windows`: what a search reports is merged from windows of the image.
* `Detector.fits_windows_iff`: when they can be merged without an overflow.
* `Detector.detections_inImage`: **which detections lie in the image,** in every mode.
* `Detector.mean_leaves_image`: a mean that does not.
-/

namespace HaarDetection

/-- A detection that stands for a single window of an image. -/
def Detection.IsWindow (d : Detection) (image : Size) : Prop := d.rect.InImage image ∧ d.neighbors = 1

namespace Classifier

variable {α : Type} [Scalar α] {c : Classifier α} {image : Size}

/-- **An accepted window lies in the image.** -/
theorem accepts_yields (w : Rect) : (c.accepts image w).Yields fun b => b = true → w.InImage image := by
  refine Probe.Yields.bind (Q := fun stage => stage = none → w.InImage image) ?_ ?_
  · unfold rejectingStage
    split
    · exact fun h => absurd h (by simp)
    · rename_i x y hpos
      obtain ⟨hl, ht, hr, hb, -⟩ := position?_eq_some hpos
      have hin : w.InImage image := ⟨by omega, by omega, hr, hb⟩
      refine (Probe.Yields.trivial _).bind ?_
      intro deviation _
      refine (Probe.Yields.trivial _).mono fun stage _ _ => hin
  · intro stage h hb
    exact h (Option.isNone_iff_eq_none.1 hb)

theorem isWindow_ofWindow {w : Rect} {s : Float32} (h : w.InImage image) :
    (Detection.ofWindow w s).IsWindow image := ⟨h, rfl⟩

theorem findAll_yields {ws : List Rect} {found : List Detection}
    (hf : ∀ d ∈ found, d.IsWindow image) :
    (c.findAll image ws found).Yields fun ds => ∀ d ∈ ds, d.IsWindow image := by
  induction ws generalizing found with
  | nil => exact fun d hd => hf d (List.mem_reverse.1 hd)
  | cons w ws ih =>
    refine (accepts_yields w).bind ?_
    intro b hb
    split
    · rename_i h
      refine ih ?_
      intro d hd
      rcases List.mem_cons.1 hd with rfl | hd
      · exact isWindow_ofWindow (hb h)
      · exact hf d hd
    · exact ih hf

theorem findByRows_yields {rows : List (List Rect)} {found : List Detection}
    (hf : ∀ d ∈ found, d.IsWindow image) :
    (c.findByRows image rows found).Yields fun ds => ∀ d ∈ ds, d.IsWindow image := by
  induction rows generalizing found with
  | nil => exact hf
  | cons row rows ih =>
    refine (findAll_yields (by simp)).bind fun more hmore => ih ?_
    intro d hd
    rcases List.mem_append.1 hd with hd | hd
    · exact hf d hd
    · exact hmore d hd

theorem findFirst_yields {ws : List Rect} :
    (c.findFirst image ws).Yields fun found => ∀ d ∈ found, d.IsWindow image := by
  induction ws with
  | nil => exact fun d hd => absurd hd (by simp)
  | cons w ws ih =>
    refine (accepts_yields w).bind ?_
    intro b hb
    split
    · rename_i h
      rintro d hd
      obtain rfl := Option.mem_some.1 hd
      exact isWindow_ofWindow (hb h)
    · exact ih

theorem scan_yields {options : Options} {first : Bool} :
    (c.scan image options first).Yields fun ds => ∀ d ∈ ds, d.IsWindow image := by
  unfold scan
  split
  · simp only
    split
    · exact findFirst_yields.bind fun found hf d hd => hf d (by simpa using hd)
    · split
      · exact findByRows_yields (by simp)
      · exact findAll_yields (by simp)
  · exact fun d hd => absurd hd (by simp)

end Classifier

namespace Detector

variable {d : Detector} {image : Source Float} {ds : List Detection}

/-- **What a search finds are windows of the image.** -/
theorem searchScales_yields {options : Options} {size : Size} {scales : List Float32}
    {c : Classifier Float} {found : List Detection} (hf : ∀ e ∈ found, e.IsWindow size) :
    (searchScales options size scales c found).Yields fun r =>
      ∀ ds, r.2 = .ok ds → ∀ e ∈ ds, e.IsWindow size := by
  induction scales generalizing c found with
  | nil => rintro ds ⟨⟩; exact hf
  | cons s rest ih =>
    intro cancelled
    dsimp only
    split
    · rintro ds ⟨⟩
    · refine Classifier.scan_yields.bind ?_
      intro more hmore
      have hall : ∀ e ∈ found ++ more, e.IsWindow size := fun e he => by
        rcases List.mem_append.1 he with he | he
        · exact hf e he
        · exact hmore e he
      split
      · rintro ds ⟨⟩
        exact hall
      · exact ih hall

/-- A search that ends with detections has merged some windows, which is what it finds when it is
not to merge. -/
theorem exists_windows (h : d.found image = .ok (.ok ds)) :
    ∃ windows, (∀ e ∈ windows, e.IsWindow image.size) ∧ ds = merge d.options windows ∧
      (d.options.searchMode ≠ .single →
        (d.inMode .default d.options.parallel).found image = .ok (.ok windows)) := by
  cases hs : d.scales image.size with
  | error e =>
    rw [found, detect_eq_trace, search, hs] at h
    cases h
  | ok scales =>
    rw [found_eq hs] at h
    cases hr : ((searchScales d.options image.size scales d.classifier []).trace
      image.answer).result with
    | error fault => rw [hr] at h; cases h
    | ok r =>
      obtain ⟨c, r⟩ := r
      rw [hr] at h
      cases r with
      | error e => cases h
      | ok windows =>
        have hwin := (searchScales_yields (by simp)).trace hr windows rfl
        refine ⟨windows, hwin, by cases h; rfl, ?_⟩
        intro hmode
        have hs' : (d.inMode .default d.options.parallel).scales image.size = .ok scales := hs
        have hcongr := searchScales_inMode (d := d) hmode d.options.parallel image.size scales
          d.classifier []
        rw [found_eq hs', inMode_classifier, ← hcongr]
        change ((searchScales d.options image.size scales d.classifier []).trace
          image.answer).result.map _ = _
        rw [hr]
        rfl

/-- **When windows can be merged without an overflow.** The areas of two windows of an image of fewer than
`2 ^ 31` pixels a side have a sum of 64 bits, so only the numbers of windows matter. -/
theorem fits_windows_iff {g : Grouper} {windows : List Detection} {size : Size} (hi : size.Small)
    (hwin : ∀ e ∈ windows, e.IsWindow size) :
    g.Fits windows ↔ ∀ cluster ∈ g.grouping.clustersOf windows, cluster.length < 2 ^ 32 := by
  have harea : ∀ e ∈ windows, e.rect.area ≤ 2 ^ 62 := by
    intro e he
    obtain ⟨-, -, hcols, hrows⟩ := inImage_nat (hwin e he).1
    have hwidth : e.rect.width.toNat ≤ 2 ^ 31 := by have := hi.1; omega
    have hheight : e.rect.height.toNat ≤ 2 ^ 31 := by have := hi.2; omega
    exact (Nat.mul_le_mul hwidth hheight).trans (by norm_num)
  rw [Grouper.fits_iff (List.pairwise_of_forall_mem_list fun a ha b hb =>
    (Nat.add_le_add (harea a ha) (harea b hb)).trans_lt (by norm_num))]
  refine forall₂_congr fun cluster hc => ?_
  rw [totalNeighbors_of_one fun e he =>
    (hwin e (List.mem_mergeSort.1 ((clusters_mem cluster hc).2 e he))).2]

theorem keepDisjoint_subset (kept : List Rect) (xs : List Detection) :
    ∀ e ∈ keepDisjoint kept xs, e ∈ xs := by
  induction xs generalizing kept with
  | nil => simp [keepDisjoint]
  | cons x xs ih =>
    intro e he
    unfold keepDisjoint at he
    split at he
    · exact List.mem_cons_of_mem _ (ih kept e he)
    · rcases List.mem_cons.1 he with rfl | he
      · exact List.mem_cons_self
      · exact List.mem_cons_of_mem _ (ih _ e he)

/-- **Which detections lie in the image.** All of them do, unless they are averaged. An averaged one
begins in the image and ends a pixel behind it at most; it lies in the image exactly when the means of
the corners and of the sizes, each rounded on its own, add up to no more than the sides of the image.
The means are exact while a cluster has fewer than `2 ^ 32` windows, so that they are counted right, and
its coordinates add up to no more than `2 ^ 52`. -/
theorem detections_inImage (h : d.found image = .ok (.ok ds)) :
    (d.options.searchMode ≠ .average → ∀ e ∈ ds, e.rect.InImage image.size) ∧
    (d.options.searchMode = .average → ∃ windows,
      (d.inMode .default d.options.parallel).found image = .ok (.ok windows) ∧
      (∀ e ∈ windows, e.rect.InImage image.size) ∧
      (∀ e ∈ ds, ∃ cluster ∈ d.options.grouping.clustersOf windows, e = mergeCluster cluster) ∧
      ∀ cluster ∈ d.options.grouping.clustersOf windows,
        cluster.length < 2 ^ 32 →
        cluster.length * (image.size.width.toNat + 1) ≤ 2 ^ 52 →
        cluster.length * (image.size.height.toNat + 1) ≤ 2 ^ 52 →
        let mean := (mergeCluster cluster).rect
        0 ≤ mean.left ∧ 0 ≤ mean.top ∧ mean.right ≤ image.size.width.toNat + 1 ∧
          mean.bottom ≤ image.size.height.toNat + 1 ∧
          (mean.InImage image.size ↔
            roundedMean (cluster.map fun e => e.rect.left.toNat) +
                roundedMean (cluster.map fun e => e.rect.width.toNat) ≤ image.size.width.toNat ∧
              roundedMean (cluster.map fun e => e.rect.top.toNat) +
                roundedMean (cluster.map fun e => e.rect.height.toNat) ≤
                  image.size.height.toNat)) := by
  obtain ⟨windows, hwin, rfl, hdefault⟩ := exists_windows h
  constructor
  · intro hmode e he
    unfold merge at he
    split at he
    · exact (hwin e he).1
    · exact (hwin e he).1
    · exact (hwin e (keepDisjoint_subset [] windows e he)).1
    · rename_i havg
      exact absurd havg hmode
  · intro hmode
    refine ⟨windows, hdefault (by rw [hmode]; decide), fun e he => (hwin e he).1,
      ?_, ?_⟩
    · intro e he
      simp only [merge, hmode, Grouping.merge, List.mem_map, List.mem_filter] at he
      obtain ⟨cluster, ⟨hc, -⟩, rfl⟩ := he
      exact ⟨cluster, hc, rfl⟩
    · intro cluster hc hcount hw hh
      obtain ⟨hne, hmem⟩ := clusters_mem cluster hc
      exact mergeCluster_inImage_iff hne hcount
        (fun e he => hwin e (List.mem_mergeSort.1 (hmem e he))) hw hh

/-- The slope, as its tables answer. -/
def slope : Source Float := (IntegralImage.ofPixels slopePixels).source Float

/-- The two windows that are found on it have one mean. -/
theorem found_slope : (edges.inMode .average true).found slope =
    .ok (.ok [⟨⟨1, 0, 3, 3⟩, .ofSingle 1.25, 2⟩]) := by
  have hfound : (edges.inMode .default true).found slope =
      .ok (.ok [.ofWindow ⟨0, 0, 3, 3⟩ 1.5, .ofWindow ⟨1, 0, 2, 2⟩ 1]) := by decide +kernel
  rw [found_inMode (by decide), hfound]
  exact congrArg (fun ds => Except.ok (Except.ok ds)) merge_slope

/-- **A mean behind the border.** The corners of the two windows are half a pixel left of what their
mean is rounded to, and so are the sides half a pixel shorter. -/
theorem mean_leaves_image :
    edge.Accepted ∧ (edges.inMode .average true).options.check = .ok () ∧
      ∃ ds, (edges.inMode .average true).found slope = .ok (.ok ds) ∧
        ∃ e ∈ ds, ¬e.rect.InImage slope.size :=
  ⟨edge_accepted, by decide +kernel, _, found_slope, _, List.mem_singleton_self _,
    fun h => absurd h.2.2.1 (by decide +kernel)⟩

/-- The windows on the slope lie in the image, and their mean ends a pixel behind it at most. -/
theorem slope_detections : ∃ windows, (edges.inMode .default true).found slope = .ok (.ok windows) ∧
    (∀ e ∈ windows, e.rect.InImage ⟨3, 3⟩) ∧
    ∀ cluster ∈ (edges.inMode .average true).options.grouping.clustersOf windows,
      cluster.length < 2 ^ 32 → cluster.length * 4 ≤ 2 ^ 52 →
        (mergeCluster cluster).rect.right ≤ 4 := by
  obtain ⟨windows, hwindows, hin, -, hmean⟩ := (detections_inImage found_slope).2 rfl
  exact ⟨windows, hwindows, hin,
    fun cluster hmem hcount hlen => (hmean cluster hmem hcount hlen hlen).2.2.1⟩

end Detector

end HaarDetection
