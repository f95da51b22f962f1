import HaarDetection.Proofs.Search.Cancellation
import HaarDetection.Proofs.Search.Schedules

/-!
# The end of a search

The scales of a schedule can be asked for one by one. However little its factor is above one, there is
none left after `2 ^ 31` of them, and there never is again. A search goes through the scales once.

* `Schedule.request`, `Schedule.pending`, `Schedule.nth`: asking a schedule for one scale after another.
* `Schedule.take_eq_nth`: the leading scales of a schedule are what it gives.
* `Schedule.Ends`: a schedule comes to an end.
* `Schedule.Proper.exists_ends`: **so does every schedule with a factor above one.**
* `Detector.search_pollsUpTo`: how often a search looks whether it has been cancelled.
* `Detector.schedule_proper`: the schedules of a detector.
* `Detector.searches_end`: **every search comes to an end.**
-/

namespace HaarDetection

namespace Schedule

variable {s : Schedule} {k n : ℕ}

/-- **A request for a scale**, when some scale is pending or the schedule has ended: the scale, if its
window is to be searched. -/
def request (s : Schedule) (pending : Option Float32) : Option Float32 :=
  pending.filter fun scale => s.admits scale

/-- What is pending after a request: the next scale, if the schedule has not ended. -/
def resume (s : Schedule) (pending : Option Float32) : Option Float32 :=
  (s.request pending).map s.after

/-- What is pending after `k` requests. -/
def pending (s : Schedule) (k : ℕ) : Option Float32 := s.resume^[k] (some s.start)

/-- What the request after `k` others gives. -/
def nth (s : Schedule) (k : ℕ) : Option Float32 := s.request (s.pending k)

theorem request_of_admits {scale : Float32} (h : s.admits scale = true) :
    s.request (some scale) = some scale := Option.filter_some_pos h

theorem request_of_not_admits {scale : Float32} (h : ¬s.admits scale = true) :
    s.request (some scale) = none := Option.filter_some_neg (by simpa using h)

/-- **A schedule that has ended stays so.** -/
theorem request_resume_none (s : Schedule) (k : ℕ) : s.request (s.resume^[k] none) = none := by
  rw [Function.iterate_fixed (rfl : s.resume none = none)]
  rfl

/-- **The leading scales of a schedule are what it gives** on as many requests. -/
theorem takeFrom_eq_requests (limit : ℕ) (scale : Float32) (found : List Float32) :
    s.takeFrom limit scale found =
      found.reverse ++ (List.range limit).filterMap fun k => s.request (s.resume^[k] (some scale)) := by
  induction limit generalizing scale found with
  | zero => simp [takeFrom]
  | succ limit ih =>
    rw [takeFrom, List.range_succ_eq_map, List.filterMap_cons, List.filterMap_map]
    by_cases hadmits : s.admits scale = true
    · have hnext : s.resume (some scale) = some (s.after scale) := by
        rw [resume, request_of_admits hadmits, Option.map_some]
      rw [if_pos hadmits, ih]
      simp [request_of_admits hadmits, hnext]
    · have hnext : s.resume (some scale) = none := by
        rw [resume, request_of_not_admits hadmits, Option.map_none]
      rw [if_neg hadmits]
      simp [request_of_not_admits hadmits, hnext, request_resume_none]

theorem take_eq_nth (s : Schedule) (limit : ℕ) : s.take limit = (List.range limit).filterMap s.nth :=
  takeFrom_eq_requests limit s.start []

theorem pending_succ (s : Schedule) (k : ℕ) : s.pending (k + 1) = (s.nth k).map s.after :=
  Function.iterate_succ_apply' _ _ _

/-- **The end of a schedule:** the first `n` requests give its first `n` scales, and no later one gives
anything. These are all the scales that there are. -/
structure Ends (s : Schedule) (n : ℕ) : Prop where
  gives : ∀ k < n, s.nth k = some (s.term k)
  ended : ∀ k, n ≤ k → s.nth k = none
  scales_eq : s.scales = (List.range n).map s.term

/-- **A schedule goes on** while the windows are to be searched. -/
theorem pending_eq_some (hall : ∀ k < n, s.admits (s.term k) = true) (hk : k ≤ n) :
    s.pending k = some (s.term k) := by
  induction k with
  | zero => rfl
  | succ k ih =>
    rw [pending_succ, nth, ih (by omega), request_of_admits (hall k hk), Option.map_some, term, term,
      Function.iterate_succ_apply']

/-- A schedule ends at the first window that is not to be searched. -/
theorem ends_of_not_admits (hn : n ≤ UInt32.size) (hall : ∀ k < n, s.admits (s.term k) = true)
    (hstop : ¬s.admits (s.term n) = true) : s.Ends n := by
  have hgives : ∀ k < n, s.nth k = some (s.term k) := by
    intro k hk
    rw [nth, pending_eq_some hall hk.le, request_of_admits (hall k hk)]
  have hended : ∀ k, n ≤ k → s.nth k = none := by
    intro k hk
    induction k, hk using Nat.le_induction with
    | base => rw [nth, pending_eq_some hall le_rfl, request_of_not_admits hstop]
    | succ k _ ih =>
      -- nothing is pending after a request that has given nothing
      rw [nth, pending_succ, ih]
      rfl
  refine ⟨hgives, hended, ?_⟩
  obtain ⟨rest, hsize⟩ := Nat.exists_eq_add_of_le hn
  have hfirst : (List.range n).filterMap s.nth = (List.range n).map s.term := by
    rw [← List.filterMap_eq_map]
    exact List.filterMap_congr fun k hk => hgives k (List.mem_range.1 hk)
  have hlater : ((List.range rest).map (n + ·)).filterMap s.nth = [] := by
    rw [List.filterMap_map, List.filterMap_eq_nil_iff]
    exact fun k _ => hended (n + k) (Nat.le_add_right n k)
  rw [scales, take_eq_nth, hsize, List.range_add, List.filterMap_append, hfirst, hlater, List.append_nil]

/-- **A schedule with a factor above one comes to an end**, after `2 ^ 31` scales at most. -/
theorem Proper.exists_ends (h : s.Proper) : ∃ n ≤ 2 ^ 31, s.Ends n := by
  obtain ⟨stop, hle, hstop⟩ := h.exists_not_admits
  have hex : ∃ k, ¬s.admits (s.term k) = true := ⟨stop, hstop⟩
  have hn : Nat.find hex ≤ 2 ^ 31 := (Nat.find_min' hex hstop).trans hle
  exact ⟨Nat.find hex, hn, ends_of_not_admits (hn.trans (by decide))
    (fun k hk => not_not.1 (Nat.find_min hex hk)) (Nat.find_spec hex)⟩

theorem Ends.length_scales (h : s.Ends n) : s.scales.length = n := by
  rw [h.scales_eq, List.length_map, List.length_range]

/-- **A factor above one** is what a schedule is made with. -/
theorem factor_iff {factor : Float32} : (factor.isFinite && Float32.lt 1 factor) = true ↔
    FiniteSingle factor ∧ 1 < singleValue factor := by
  rw [Bool.and_eq_true, isFinite_single_iff]
  refine and_congr_right fun hf => ?_
  rw [lt_single_iff one_single.1 hf, one_single.2]

theorem Proper.build_eq (h : s.Proper) : build s.base s.min s.max s.factor s.mode = .ok s := by
  rw [build, if_pos (factor_iff.2 ⟨h.factor_finite, h.one_lt_factor⟩)]

end Schedule

/-- Options that are in order have a factor above one. -/
theorem Options.factor_of_check {o : Options} (h : o.check = .ok ()) :
    FiniteSingle o.scalingFactor ∧ 1 < singleValue o.scalingFactor := by
  rw [← Schedule.factor_iff]
  cases hfactor : o.scalingFactor.isFinite && Float32.lt 1 o.scalingFactor with
  | true => rfl
  | false =>
    rw [check, hfactor] at h
    cases h

namespace Detector

variable {c : Cascade Float} {d : Detector} {options : Options} {image : Size} {scales : List Float32}

/-- **A search of some scales goes through them once.** It looks whether it has been cancelled when it
begins a scale, and the scan of the scale does not. -/
theorem searchScales_pollsUpTo (classifier : Classifier Float) (found : List Detection) :
    (searchScales options image scales classifier found).PollsUpTo scales.length := by
  induction scales generalizing classifier found with
  | nil => trivial
  | cons scale rest ih =>
    rw [searchScales]
    intro cancelled
    simp only
    split
    · trivial
    · rw [← Nat.zero_add rest.length]
      refine ((classifier.setScale scale).scan_steady _ _ _).pollsUpTo.bind fun more => ?_
      split
      · trivial
      · exact ih _ _

theorem search_pollsUpTo (hs : d.scales image = .ok scales) :
    (d.search image).PollsUpTo scales.length := by
  rw [search, hs]
  refine Probe.PollsUpTo.bind (n := 0) (searchScales_pollsUpTo d.classifier []) fun _ => ?_
  trivial

/-- **The schedules of a detector** have a factor above one. If the image does not fill the plane, nor do
the windows. -/
theorem schedule_proper (hc : c.Accepted) (hd : d.Uses c) (ho : d.options.check = .ok ())
    (hi : image.width.toNat < 2 ^ 32 - 1 ∨ image.height.toNat < 2 ^ 32 - 1)
    (hs : d.scales image = .ok scales) : (d.schedule image).Proper := by
  obtain ⟨hfinite, hone⟩ := Options.factor_of_check ho
  have hbase : 0 < d.classifier.cascade.window.width.toNat ∧
      0 < d.classifier.cascade.window.height.toNat := by
    rw [hd.window]
    exact hc.window_pos
  obtain ⟨hminw, hminh⟩ := schedule_min_fits d image
  obtain ⟨hmaxw, hmaxh⟩ := image_fits_max hs
  rw [UInt32.le_iff_toNat_le] at hminw hminh hmaxw hmaxh
  exact ⟨hfinite, hone, hbase, ⟨hbase.1.trans_le hminw, hbase.2.trans_le hminh⟩,
    hi.imp hmaxw.trans_lt hmaxh.trans_lt⟩

/-- **Every search comes to an end.** Take sizes with pixels for the window of the cascade and the least
window, a greatest window that does not have the greatest width and height that there are, and a finite
factor above one. In both directions the schedule gives finitely many scales, `2 ^ 31` at most, and from
then on nothing. So there are finitely many scales for every accepted cascade, all options that are in
order, and every image that does not have the greatest width and height. The search of such an image
goes through them once, whatever the image answers, and be it cancelled or not; it has no scale to go
through when there is an error. -/
theorem searches_end :
    (∀ (base min max : Size) (factor : Float32) (mode : ScalingMode),
      0 < base.width.toNat ∧ 0 < base.height.toNat → 0 < min.width.toNat ∧ 0 < min.height.toNat →
      max.width.toNat < 2 ^ 32 - 1 ∨ max.height.toNat < 2 ^ 32 - 1 →
      factor.isFinite = true → Float32.lt 1 factor = true →
      ∃ s, Schedule.build base min max factor mode = .ok s ∧ ∃ n ≤ 2 ^ 31, s.Ends n) ∧
    (∀ (c : Cascade Float) (d : Detector) (image : Size), c.Accepted → d.Uses c →
      d.options.check = .ok () →
      image.width.toNat < 2 ^ 32 - 1 ∨ image.height.toNat < 2 ^ 32 - 1 →
      (∀ e, d.scales image = .error e → d.search image = .done (d, .error e)) ∧
      ∀ scales, d.scales image = .ok scales → scales.length ≤ 2 ^ 31 ∧
        (d.schedule image).Ends scales.length ∧ scales = (d.schedule image).scales ∧
        (d.search image).PollsUpTo scales.length) := by
  constructor
  · intro base min max factor mode hbase hmin hmax hfinite hgt
    obtain ⟨hf, hone⟩ := Schedule.factor_iff.1 (Bool.and_eq_true_iff.2 ⟨hfinite, hgt⟩)
    have hproper : (⟨base, min, max, factor, mode⟩ : Schedule).Proper := ⟨hf, hone, hbase, hmin, hmax⟩
    exact ⟨_, hproper.build_eq, hproper.exists_ends⟩
  · intro c d image hc hd ho hi
    refine ⟨fun e he => by rw [search, he], fun scales hs => ?_⟩
    obtain ⟨n, hn, hends⟩ := (schedule_proper hc hd ho hi hs).exists_ends
    have hlength : scales.length = n := by rw [scales_ok hs, hends.length_scales]
    rw [hlength]
    exact ⟨hn, hends, scales_ok hs, hlength ▸ search_pollsUpTo hs⟩

/-- The least factor above one leads from a pixel to windows of the greatest width, and the search for
edges in the dark looks twice whether it has been cancelled. -/
theorem searches_end_darkness :
    (∃ s, Schedule.build ⟨1, 1⟩ ⟨1, 1⟩ ⟨4294967295, 1⟩ 1.0000001 .smallerToGreater = .ok s ∧
      ∃ n ≤ 2 ^ 31, s.Ends n) ∧
    edge.Accepted ∧ edges.Uses edge ∧ edges.options.check = .ok () ∧
    edges.scales darkness.size = .ok [1.5, 1] ∧ (edges.schedule darkness.size).Ends 2 ∧
    (edges.search darkness.size).PollsUpTo 2 := by
  have hfinite : Float32.isFinite 1.0000001 = true := by decide +kernel
  have hgt : Float32.lt 1 1.0000001 = true := by decide +kernel
  have huses : edges.Uses edge := ⟨1, rfl⟩
  have hcheck : edges.options.check = .ok () := by decide +kernel
  have hscales : edges.scales darkness.size = .ok [1.5, 1] := by decide +kernel
  obtain ⟨hschedule, hdetector⟩ := searches_end
  obtain ⟨-, hends, -, hpolls⟩ :=
    (hdetector edge edges darkness.size edge_accepted huses hcheck (.inl (by decide))).2 _ hscales
  exact ⟨hschedule ⟨1, 1⟩ ⟨1, 1⟩ ⟨4294967295, 1⟩ _ _ (by decide) (by decide) (.inr (by decide)) hfinite
    hgt, edge_accepted, huses, hcheck, hscales, hends, hpolls⟩

end Detector

end HaarDetection
