import HaarDetection.Merge.NonOverlap
import HaarDetection.Proofs.Geometry.Overlap

/-!
# Which detections are kept

Detections are gone through in order, and each one is kept if it shares no pixel with one kept before
it. The places of those that are kept are without any overlap, and no other place can be added to them.

* `nonOverlapping_concat`: **one more detection** at the end of a list.
* `Detection.Overlap`: two detections of a list share a pixel.
* `KeptAt`: **the places of the detections that are kept.**
* `KeptAt.apart`, `KeptAt.dropped`, `KeptAt.maximal`: nothing kept overlaps, and nothing more could be
  kept.
* `nonOverlapping_keeps`: **what is kept** of a list, of what is kept of it, and of its beginning.
-/

namespace HaarDetection

variable {xs ys ds : List Detection} {d : Detection} {places : Finset ℕ} {i j : ℕ}

section Pass

/-- **The second part of a list** is gone through with all that has been kept of the first one. -/
theorem keepDisjoint_append (kept : List Rect) (xs ys : List Detection) :
    keepDisjoint kept (xs ++ ys) = keepDisjoint kept xs ++
      keepDisjoint (((keepDisjoint kept xs).map (·.rect)).reverse ++ kept) ys := by
  induction xs generalizing kept with
  | nil => rfl
  | cons d rest ih =>
    simp only [List.cons_append, keepDisjoint]
    split
    · exact ih kept
    · rw [ih (d.rect :: kept)]
      simp

/-- **One more detection** is kept, if it shares no pixel with one that has been kept. -/
theorem nonOverlapping_concat (xs : List Detection) (d : Detection) :
    nonOverlapping (xs ++ [d]) = nonOverlapping xs ++
      if (nonOverlapping xs).any (·.rect.intersects d.rect) then [] else [d] := by
  rw [nonOverlapping, keepDisjoint_append]
  simp [keepDisjoint, nonOverlapping, Function.comp_def]

/-- A list without any overlap is kept as it is. -/
theorem nonOverlapping_eq_self
    (h : ds.Pairwise fun a b => a.rect.intersects b.rect = false) : nonOverlapping ds = ds := by
  induction ds using List.reverseRecOn with
  | nil => rfl
  | append_singleton xs d ih =>
    obtain ⟨hxs, -, hd⟩ := List.pairwise_append.1 h
    rw [nonOverlapping_concat, ih hxs, if_neg]
    rw [Bool.not_eq_true, List.any_eq_false]
    intro e he
    rw [hd e he d List.mem_cons_self]
    exact Bool.false_ne_true

/-- **Nothing that is kept overlaps.** -/
theorem nonOverlapping_pairwise (ds : List Detection) :
    (nonOverlapping ds).Pairwise fun a b => a.rect.intersects b.rect = false := by
  induction ds using List.reverseRecOn with
  | nil => exact .nil
  | append_singleton xs d ih =>
    rw [nonOverlapping_concat]
    split
    · rwa [List.append_nil]
    · rename_i hapart
      rw [Bool.not_eq_true, List.any_eq_false] at hapart
      refine List.pairwise_append.2 ⟨ih, List.pairwise_singleton _ _, ?_⟩
      intro a ha b hb
      rw [List.mem_singleton.1 hb]
      exact Bool.eq_false_iff.2 (hapart a ha)

end Pass

/-- Do the detections at two places of a list share a pixel? -/
def Detection.Overlap (ds : List Detection) (i j : ℕ) : Prop :=
  ∃ a ∈ ds[i]?, ∃ b ∈ ds[j]?, a.rect.intersects b.rect = true

/-- The detections at some places of a list, in order. -/
def elementsAt (places : Finset ℕ) (ds : List Detection) : List Detection :=
  (ds.zipIdx.filter fun p => p.2 ∈ places).map (·.1)

/-- **The places of the detections that are kept:** a detection is kept if it shares no pixel with one
kept before it, and is dropped otherwise. -/
structure KeptAt (ds : List Detection) (places : Finset ℕ) : Prop where
  lt_length : ∀ i ∈ places, i < ds.length
  elements : nonOverlapping ds = elementsAt places ds
  mem_iff : ∀ i < ds.length, (i ∈ places ↔ ∀ j ∈ places, j < i → ¬Detection.Overlap ds j i)

namespace Detection.Overlap

theorem symm (h : Overlap ds i j) : Overlap ds j i := by
  obtain ⟨a, ha, b, hb, hab⟩ := h
  exact ⟨b, hb, a, ha, by rwa [Rect.intersects_comm]⟩

/-- What is appended does not matter for the places before it. -/
theorem append_iff (ys : List Detection) (hi : i < xs.length) (hj : j < xs.length) :
    Overlap (xs ++ ys) i j ↔ Overlap xs i j := by
  rw [Overlap, Overlap, List.getElem?_append_left hi, List.getElem?_append_left hj]

theorem concat_iff (hi : i < xs.length) :
    Overlap (xs ++ [d]) i xs.length ↔ ∃ a ∈ xs[i]?, a.rect.intersects d.rect = true := by
  rw [Overlap, List.getElem?_append_left hi, List.getElem?_concat_length]
  simp

end Detection.Overlap

section Elements

theorem mem_elementsAt {a : Detection} : a ∈ elementsAt places ds ↔ ∃ i ∈ places, ds[i]? = some a := by
  simp only [elementsAt, List.mem_map, List.mem_filter, decide_eq_true_eq, Prod.exists,
    List.mem_zipIdx_iff_getElem?]
  constructor
  · rintro ⟨b, i, ⟨hget, hi⟩, rfl⟩
    exact ⟨i, hi, hget⟩
  · rintro ⟨i, hi, hget⟩
    exact ⟨a, i, ⟨hget, hi⟩, rfl⟩

theorem elementsAt_sublist (places : Finset ℕ) (ds : List Detection) :
    (elementsAt places ds).Sublist ds := by
  have h := (List.filter_sublist (p := fun p : Detection × ℕ => p.2 ∈ places)
    (l := ds.zipIdx)).map Prod.fst
  rwa [List.zipIdx_map_fst] at h

/-- Only the places in the list matter. -/
theorem elementsAt_congr {places' : Finset ℕ} (h : ∀ i < ds.length, (i ∈ places ↔ i ∈ places')) :
    elementsAt places ds = elementsAt places' ds := by
  unfold elementsAt
  congr 1
  refine List.filter_congr ?_
  rintro ⟨a, i⟩ ha
  obtain ⟨hi, -⟩ := List.getElem?_eq_some_iff.1 (List.mem_zipIdx_iff_getElem?.1 ha)
  simp only [h i hi]

theorem elementsAt_concat (places : Finset ℕ) (xs : List Detection) (d : Detection) :
    elementsAt places (xs ++ [d]) =
      elementsAt places xs ++ if xs.length ∈ places then [d] else [] := by
  unfold elementsAt
  rw [List.zipIdx_append, List.filter_append, List.map_append]
  congr 1
  by_cases hmem : xs.length ∈ places <;> simp [hmem]

end Elements

namespace KeptAt

section Places

variable (h : KeptAt xs places) (d : Detection)
include h

/-- What one more detection overlaps. -/
theorem any_iff : (nonOverlapping xs).any (·.rect.intersects d.rect) = true ↔
    ∃ j ∈ places, Detection.Overlap (xs ++ [d]) j xs.length := by
  rw [List.any_eq_true, h.elements]
  constructor
  · rintro ⟨a, ha, hab⟩
    obtain ⟨j, hj, hget⟩ := mem_elementsAt.1 ha
    exact ⟨j, hj, (Detection.Overlap.concat_iff (h.lt_length j hj)).2 ⟨a, hget, hab⟩⟩
  · rintro ⟨j, hj, hover⟩
    obtain ⟨a, hget, hab⟩ := (Detection.Overlap.concat_iff (h.lt_length j hj)).1 hover
    exact ⟨a, mem_elementsAt.2 ⟨j, hj, hget⟩, hab⟩

/-- What one more detection changes nothing of. -/
theorem mem_iff_concat {places' : Finset ℕ} (hsame : ∀ i < xs.length, (i ∈ places' ↔ i ∈ places))
    (hi : i < xs.length) :
    i ∈ places' ↔ ∀ j ∈ places', j < i → ¬Detection.Overlap (xs ++ [d]) j i := by
  rw [hsame i hi, h.mem_iff i hi]
  refine forall_congr' fun j => ?_
  constructor
  · intro hj hmem hlt
    rw [Detection.Overlap.append_iff _ (hlt.trans hi) hi]
    exact hj ((hsame j (hlt.trans hi)).1 hmem) hlt
  · intro hj hmem hlt
    rw [← Detection.Overlap.append_iff [d] (hlt.trans hi) hi]
    exact hj ((hsame j (hlt.trans hi)).2 hmem) hlt

variable {d}

/-- **A detection that overlaps** one that is kept adds no place. -/
theorem concat_of_any (hany : (nonOverlapping xs).any (·.rect.intersects d.rect) = true) :
    KeptAt (xs ++ [d]) places := by
  have hlast : xs.length ∉ places := fun hmem => lt_irrefl _ (h.lt_length _ hmem)
  refine ⟨?_, ?_, ?_⟩
  · intro i hi
    rw [List.length_append]
    exact Nat.lt_add_right _ (h.lt_length i hi)
  · rw [nonOverlapping_concat, if_pos hany, elementsAt_concat, if_neg hlast, h.elements]
  · intro i hi
    rw [List.length_append, List.length_singleton, Nat.lt_succ_iff_lt_or_eq] at hi
    rcases hi with hi | rfl
    · exact h.mem_iff_concat d (fun _ _ => Iff.rfl) hi
    · obtain ⟨j, hj, hover⟩ := (h.any_iff d).1 hany
      exact iff_of_false hlast fun hall => hall j hj (h.lt_length j hj) hover

/-- **A detection that overlaps nothing** that is kept adds its place. -/
theorem concat_of_not_any (hnone : ¬(nonOverlapping xs).any (·.rect.intersects d.rect) = true) :
    KeptAt (xs ++ [d]) (insert xs.length places) := by
  have hsame : ∀ i < xs.length, (i ∈ insert xs.length places ↔ i ∈ places) := by
    intro i hi
    rw [Finset.mem_insert, or_iff_right hi.ne]
  refine ⟨?_, ?_, ?_⟩
  · intro i hi
    rw [List.length_append, List.length_singleton, Nat.lt_succ_iff_lt_or_eq]
    exact (Finset.mem_insert.1 hi).symm.imp_left (h.lt_length i)
  · rw [nonOverlapping_concat, if_neg hnone, elementsAt_concat, if_pos (Finset.mem_insert_self _ _),
      h.elements, elementsAt_congr hsame]
  · intro i hi
    rw [List.length_append, List.length_singleton, Nat.lt_succ_iff_lt_or_eq] at hi
    rcases hi with hi | rfl
    · exact h.mem_iff_concat d hsame hi
    · refine iff_of_true (Finset.mem_insert_self _ _) ?_
      intro j hj hlt hover
      exact hnone ((h.any_iff d).2 ⟨j, (hsame j hlt).1 hj, hover⟩)

omit h in
/-- **There are such places.** -/
theorem exists_keptAt (ds : List Detection) : ∃ places, KeptAt ds places := by
  induction ds using List.reverseRecOn with
  | nil => exact ⟨∅, by simp, rfl, by simp⟩
  | append_singleton xs d ih =>
    obtain ⟨places, h⟩ := ih
    by_cases hany : (nonOverlapping xs).any (·.rect.intersects d.rect) = true
    · exact ⟨_, h.concat_of_any hany⟩
    · exact ⟨_, h.concat_of_not_any hany⟩

end Places

section Consequences

variable (h : KeptAt ds places)
include h

/-- **No two detections that are kept share a pixel.** -/
theorem apart (hi : i ∈ places) (hj : j ∈ places) (hne : i ≠ j) : ¬Detection.Overlap ds i j := by
  rcases hne.lt_or_gt with hlt | hlt
  · exact (h.mem_iff j (h.lt_length j hj)).1 hj i hi hlt
  · exact fun hover => (h.mem_iff i (h.lt_length i hi)).1 hi j hj hlt hover.symm

/-- **What is dropped** shares a pixel with a detection kept before it. -/
theorem dropped (hi : i < ds.length) (hdrop : i ∉ places) :
    ∃ j ∈ places, j < i ∧ Detection.Overlap ds j i := by
  rw [h.mem_iff i hi] at hdrop
  push Not at hdrop
  exact hdrop

/-- The first detection is kept. -/
theorem zero_mem (hne : ds ≠ []) : 0 ∈ places :=
  (h.mem_iff 0 (List.length_pos_iff.2 hne)).2 fun _ _ hlt => absurd hlt (Nat.not_lt_zero _)

/-- **No larger set of places** is without any overlap. -/
theorem maximal {larger : Finset ℕ} (hsub : places ⊆ larger) (hlt : ∀ i ∈ larger, i < ds.length)
    (hapart : ∀ i ∈ larger, ∀ j ∈ larger, i ≠ j → ¬Detection.Overlap ds i j) : larger = places := by
  refine Finset.Subset.antisymm ?_ hsub
  intro i hi
  by_contra hdrop
  obtain ⟨j, hj, hji, hover⟩ := h.dropped (hlt i hi) hdrop
  exact hapart j (hsub hj) i hi hji.ne hover

end Consequences

end KeptAt

/-- **What is kept.** Of a list of detections those at some places are kept, in order: each one that
shares no pixel with one kept before it. So nothing that is kept overlaps, what is dropped overlaps
something kept before it, the first detection is kept, and no larger set of places is without any
overlap. All of what is kept is kept again, and what is kept of the beginning of a list is the beginning
of what is kept of it. -/
theorem nonOverlapping_keeps (ds : List Detection) :
    (∃ places, KeptAt ds places ∧
      (∀ i ∈ places, ∀ j ∈ places, i ≠ j → ¬Detection.Overlap ds i j) ∧
      (∀ i < ds.length, i ∉ places → ∃ j ∈ places, j < i ∧ Detection.Overlap ds j i) ∧
      (ds ≠ [] → 0 ∈ places) ∧
      ∀ larger : Finset ℕ, places ⊆ larger → (∀ i ∈ larger, i < ds.length) →
        (∀ i ∈ larger, ∀ j ∈ larger, i ≠ j → ¬Detection.Overlap ds i j) → larger = places) ∧
    (nonOverlapping ds).Sublist ds ∧
    ((nonOverlapping ds).Pairwise fun a b => a.rect.intersects b.rect = false) ∧
    nonOverlapping (nonOverlapping ds) = nonOverlapping ds ∧
    ∀ first rest, ds = first ++ rest → nonOverlapping first <+: nonOverlapping ds := by
  obtain ⟨places, h⟩ := KeptAt.exists_keptAt ds
  have hpairwise := nonOverlapping_pairwise ds
  refine ⟨⟨places, h, fun i hi j hj => h.apart hi hj, fun i hi => h.dropped hi, h.zero_mem,
    fun larger => h.maximal⟩, ?_, hpairwise, nonOverlapping_eq_self hpairwise, ?_⟩
  · rw [h.elements]
    exact elementsAt_sublist places ds
  · rintro first rest rfl
    exact ⟨_, (keepDisjoint_append [] first rest).symm⟩

/-- Windows that touch share no pixel. -/
example : nonOverlapping [.ofWindow ⟨0, 0, 24, 24⟩ 1, .ofWindow ⟨10, 10, 24, 24⟩ 1,
      .ofWindow ⟨24, 0, 24, 24⟩ 1, .ofWindow ⟨30, 5, 24, 24⟩ 1] =
    [.ofWindow ⟨0, 0, 24, 24⟩ 1, .ofWindow ⟨24, 0, 24, 24⟩ 1] := by decide

end HaarDetection
