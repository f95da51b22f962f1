import HaarDetection.Proofs.Search.Windows

/-!
# Traces of scans

A search judges windows one after the other. When every window can be judged, its trace is made of
those of the windows.

* `throughFirst`: a list up to the first element with a property.
* `Classifier.verdict`, `Classifier.hits`: what becomes of a window, and which ones are accepted.
* `Classifier.Judges`: all of some windows can be judged.
* `Classifier.trace_findAll`, `trace_findByRows`, `trace_findFirst`: **the three ways to scan.**
* `Classifier.judges_of_findAll`, `judges_of_findByRows`, `judges_of_findFirst`: a scan that has ended
  has judged its windows.
-/

namespace HaarDetection

/-- The elements of a list up to the first one with a property, and with it. -/
def throughFirst {β : Type} (p : β → Bool) : List β → List β
  | [] => []
  | b :: rest => if p b then [b] else b :: throughFirst p rest

section ThroughFirst

variable {β γ : Type} {p : β → Bool}

theorem throughFirst_append (xs ys : List β) :
    throughFirst p (xs ++ ys) = if xs.any p then throughFirst p xs else xs ++ throughFirst p ys := by
  induction xs with
  | nil => rfl
  | cons x xs ih =>
    simp only [List.cons_append, throughFirst, List.any_cons, ih]
    by_cases hx : p x = true
    · simp only [hx, Bool.true_or, if_true]
    · simp only [hx, Bool.false_or, Bool.false_eq_true, if_false]
      split <;> rfl

theorem throughFirst_of_not_any {xs : List β} (h : xs.any p = false) : throughFirst p xs = xs := by
  have := throughFirst_append (p := p) xs []
  rw [List.append_nil, h] at this
  simpa [throughFirst] using this

theorem throughFirst_map {f : γ → β} (xs : List γ) :
    throughFirst p (xs.map f) = (throughFirst (p ∘ f) xs).map f := by
  induction xs with
  | nil => rfl
  | cons x xs ih =>
    simp only [List.map_cons, throughFirst, Function.comp_apply, ih]
    split <;> rfl

/-- Up to the first element with the property, all others lack it. -/
theorem throughFirst_cases (xs : List β) :
    (xs.any p = false ∧ throughFirst p xs = xs) ∨
      ∃ before b after, xs = before ++ b :: after ∧ before.any p = false ∧ p b = true ∧
        throughFirst p xs = before ++ [b] := by
  induction xs with
  | nil => exact .inl ⟨rfl, rfl⟩
  | cons x xs ih =>
    cases hx : p x with
    | true => exact .inr ⟨[], x, xs, rfl, rfl, hx, by simp [throughFirst, hx]⟩
    | false =>
      rcases ih with ⟨hany, heq⟩ | ⟨before, b, after, rfl, hb, hp, heq⟩
      · exact .inl ⟨by simp [hx, hany], by simp [throughFirst, hx, heq]⟩
      · exact .inr ⟨x :: before, b, after, rfl, by simp [hx, hb], hp, by simp [throughFirst, hx, heq]⟩

end ThroughFirst

/-- What a window is judged to be. -/
def Trace.holds (t : Trace Bool) : Bool :=
  match t.result with
  | .ok accepted => accepted
  | .error _ => false

namespace Classifier

variable {α : Type} [Scalar α] (c : Classifier α) (image : Size) (answer : Query → Except Fault α)

/-- **The verdict on a window,** with the queries asked for it. -/
def verdict (window : Rect) : Trace Bool := (c.accepts image window).trace answer

/-- The detections of the accepted ones of some windows. -/
def hits (ws : List Rect) : List Detection :=
  (ws.filter fun w => (c.verdict image answer w).holds).map fun w => .ofWindow w c.scale

/-- All of some windows can be judged. -/
def Judges (ws : List Rect) : Prop :=
  ∀ w ∈ ws, ∃ accepted, (c.verdict image answer w).result = .ok accepted

variable {c image answer}

theorem Judges.trace {ws : List Rect} (h : c.Judges image answer ws) {w : Rect} (hw : w ∈ ws) :
    (c.accepts image w).trace answer =
      ⟨.ok (c.verdict image answer w).holds, (c.verdict image answer w).asked⟩ := by
  obtain ⟨accepted, ha⟩ := h w hw
  have : (c.verdict image answer w).holds = accepted := by rw [Trace.holds, ha]
  rw [this, ← ha]
  rfl

theorem Judges.tail {w : Rect} {ws : List Rect} (h : c.Judges image answer (w :: ws)) :
    c.Judges image answer ws := fun w' hw' => h w' (List.mem_cons_of_mem _ hw')

theorem hits_cons (w : Rect) (ws : List Rect) :
    c.hits image answer (w :: ws) =
      if (c.verdict image answer w).holds then .ofWindow w c.scale :: c.hits image answer ws
      else c.hits image answer ws := by
  simp only [hits, List.filter_cons]
  split <;> rfl

theorem hits_append (ws ws' : List Rect) :
    c.hits image answer (ws ++ ws') = c.hits image answer ws ++ c.hits image answer ws' := by
  simp only [hits, List.filter_append, List.map_append]

/-- **All windows, from first to last.** -/
theorem trace_findAll {ws : List Rect} (h : c.Judges image answer ws) (found : List Detection) :
    (c.findAll image ws found).trace answer =
      ⟨.ok (found.reverse ++ c.hits image answer ws),
        ws.flatMap fun w => (c.verdict image answer w).asked⟩ := by
  -- what has been found so far is kept in reverse
  induction ws generalizing found with
  | nil => simp [findAll, Probe.trace, hits]
  | cons w ws ih =>
    rw [findAll, Probe.trace_bind_of_ok (h.trace List.mem_cons_self), hits_cons]
    cases (c.verdict image answer w).holds with
    | true => simp [ih h.tail]
    | false => simp [ih h.tail]

/-- **All windows, row by row.** -/
theorem trace_findByRows {rows : List (List Rect)} (h : c.Judges image answer rows.flatten)
    (found : List Detection) :
    (c.findByRows image rows found).trace answer =
      ⟨.ok (found ++ c.hits image answer rows.flatten),
        rows.flatten.flatMap fun w => (c.verdict image answer w).asked⟩ := by
  induction rows generalizing found with
  | nil => simp [findByRows, Probe.trace, hits]
  | cons row rows ih =>
    rw [List.flatten_cons] at h ⊢
    have hrow : c.Judges image answer row := fun w hw => h w (List.mem_append_left _ hw)
    have hrest : c.Judges image answer rows.flatten := fun w hw => h w (List.mem_append_right _ hw)
    rw [findByRows, Probe.trace_bind_of_ok (trace_findAll hrow []), ih hrest, hits_append]
    simp

/-- **The windows up to the first accepted one.** -/
theorem trace_findFirst {ws : List Rect} (h : c.Judges image answer ws) :
    (c.findFirst image ws).trace answer =
      ⟨.ok (c.hits image answer ws).head?,
        (throughFirst (fun w => (c.verdict image answer w).holds) ws).flatMap fun w =>
          (c.verdict image answer w).asked⟩ := by
  induction ws with
  | nil => rfl
  | cons w ws ih =>
    rw [findFirst, Probe.trace_bind_of_ok (h.trace List.mem_cons_self), hits_cons, throughFirst]
    cases (c.verdict image answer w).holds with
    | true => simp [Probe.trace]
    | false => simp [ih h.tail]

/-- **A scan that ends with a result** has judged all of its windows. -/
theorem judges_of_findAll {ws : List Rect} {found ds : List Detection}
    (h : ((c.findAll image ws found).trace answer).result = .ok ds) : c.Judges image answer ws := by
  induction ws generalizing found with
  | nil => exact fun w hw => absurd hw List.not_mem_nil
  | cons w ws ih =>
    obtain ⟨b, qs, hb⟩ := Probe.result_of_bind h
    rw [findAll, Probe.trace_bind_of_ok hb] at h
    intro w' hw'
    rcases List.mem_cons.1 hw' with rfl | hw'
    · exact ⟨b, by rw [verdict, hb]⟩
    · split at h <;> exact ih h w' hw'

theorem judges_of_findByRows {rows : List (List Rect)} {found ds : List Detection}
    (h : ((c.findByRows image rows found).trace answer).result = .ok ds) :
    c.Judges image answer rows.flatten := by
  induction rows generalizing found with
  | nil => exact fun w hw => absurd hw List.not_mem_nil
  | cons row rows ih =>
    obtain ⟨more, qs, hmore⟩ := Probe.result_of_bind h
    rw [findByRows, Probe.trace_bind_of_ok hmore] at h
    intro w hw
    rcases List.mem_append.1 hw with hw | hw
    · exact judges_of_findAll (by rw [hmore]) w hw
    · exact ih h w hw

/-- A classifier that accepts no window has to judge all windows to find the first one. -/
theorem judges_of_findFirst (hrej : ∀ w, (c.accepts image w).Yields (· = false)) {ws : List Rect}
    {d : Option Detection} (h : ((c.findFirst image ws).trace answer).result = .ok d) :
    c.Judges image answer ws := by
  induction ws with
  | nil => exact fun w hw => absurd hw List.not_mem_nil
  | cons w ws ih =>
    obtain ⟨b, qs, hb⟩ := Probe.result_of_bind h
    obtain rfl : b = false := (hrej w).trace (by rw [hb])
    rw [findFirst, Probe.trace_bind_of_ok hb] at h
    intro w' hw'
    rcases List.mem_cons.1 hw' with rfl | hw'
    · exact ⟨false, by rw [verdict, hb]⟩
    · exact ih h w' hw'

end Classifier

end HaarDetection
