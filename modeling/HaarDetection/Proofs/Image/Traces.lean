import HaarDetection.Image.Probe

/-!
# Traces of probes

To run a probe tells its result and how many queries it makes. A trace also tells which ones.

* `Probe.trace`: the result of a probe that nobody cancels, and the queries it asks, in order.
* `Probe.run_eq_trace`: a run ends as the trace does.
* `Probe.trace_bind`: the trace of one probe after another.
* `Probe.Keeps`: **what a probe keeps to,** whatever the answers are: it meets no fault, asks only
  certain queries and results only in certain values.
* `Probe.Keeps.trace`: on an image that answers all of these queries, so does the trace.
* `Probe.Yields`: what the results of a probe are, which may meet faults.
* `Probe.Steady`: a probe that cannot be cancelled.
* `Probe.PollsUpTo`: how often a probe looks whether it has been cancelled.
* `Probe.cancelledBy`: a run that is cancelled or not, as one of them.
-/

namespace HaarDetection

/-- What a probe that nobody cancels comes to. -/
structure Trace (β : Type) where
  /-- The result, unless there was a fault. -/
  result : Except Fault β
  /-- The queries asked, in order. -/
  asked : List Query

namespace Trace

variable {β γ : Type}

/-- What comes of going on from a trace. -/
def andThen (t : Trace β) (f : β → Trace γ) : Trace γ :=
  match t.result with
  | .ok b => ⟨(f b).result, t.asked ++ (f b).asked⟩
  | .error fault => ⟨.error fault, t.asked⟩

/-- The trace with something made of its result. -/
def map (g : β → γ) (t : Trace β) : Trace γ := ⟨g <$> t.result, t.asked⟩

theorem andThen_map {δ : Type} (t : Trace β) (g : β → γ) (f : γ → Trace δ) :
    (t.map g).andThen f = t.andThen fun b => f (g b) := by
  obtain ⟨r, qs⟩ := t
  cases r <;> rfl

theorem map_andThen {δ : Type} (t : Trace β) (f : β → Trace γ) (g : γ → δ) :
    (t.andThen f).map g = t.andThen fun b => (f b).map g := by
  obtain ⟨r, qs⟩ := t
  cases r <;> rfl

theorem andThen_cons (t : Trace β) (q : Query) (f : β → Trace γ) :
    andThen ⟨t.result, q :: t.asked⟩ f = ⟨(t.andThen f).result, q :: (t.andThen f).asked⟩ := by
  unfold andThen
  cases t.result <;> rfl

theorem result_of_andThen {t : Trace β} {f : β → Trace γ} {c : γ} (h : (t.andThen f).result = .ok c) :
    ∃ b qs, t = ⟨.ok b, qs⟩ := by
  obtain ⟨r, qs⟩ := t
  cases r with
  | ok b => exact ⟨b, qs, rfl⟩
  | error fault => cases h

theorem mem_andThen {t : Trace β} {f : β → Trace γ} {q : Query} (h : q ∈ t.asked) :
    q ∈ (t.andThen f).asked := by
  unfold andThen
  cases t.result with
  | ok b => exact List.mem_append_left _ h
  | error fault => exact h

end Trace

namespace Probe

variable {α β γ : Type} {answer : Query → Except Fault α}

/-- **The trace of a probe** whose queries are answered by `answer`. -/
def trace (answer : Query → Except Fault α) : Probe α β → Trace β
  | done result => ⟨.ok result, []⟩
  | fail fault => ⟨.error fault, []⟩
  | ask query next =>
    match answer query with
    | .ok value => ⟨(trace answer (next value)).result, query :: (trace answer (next value)).asked⟩
    | .error fault => ⟨.error fault, [query]⟩
  | poll next => trace answer (next false)

theorem runFrom_eq_trace (answer : Query → Except Fault α) (p : Probe α β) (made : Nat) :
    p.runFrom answer (fun _ => false) made =
      ⟨(p.trace answer).result, made + (p.trace answer).asked.length⟩ := by
  induction p generalizing made with
  | done => rfl
  | fail => rfl
  | ask query next ih =>
    simp only [runFrom, trace]
    cases answer query with
    | ok value =>
      simp only [ih, List.length_cons]
      congr 1; omega
    | error fault => rfl
  | poll next ih => exact ih _ _

/-- **A run ends as the trace does**, and has made as many queries as the trace has asked. -/
theorem run_eq_trace (p : Probe α β) (image : Source α) :
    p.run image = ⟨(p.trace image.answer).result, (p.trace image.answer).asked.length⟩ := by
  have := runFrom_eq_trace image.answer p 0
  rwa [Nat.zero_add] at this

/-- **The trace of one probe after another** goes on from the trace of the first one. -/
theorem trace_bind (p : Probe α β) (f : β → Probe α γ) :
    (p.bind f).trace answer = (p.trace answer).andThen fun b => (f b).trace answer := by
  induction p with
  | done => rfl
  | fail => rfl
  | ask query next ih =>
    simp only [bind, trace]
    cases answer query with
    | ok value =>
      simp only [ih]
      exact (Trace.andThen_cons _ _ _).symm
    | error fault => rfl
  | poll next ih => exact ih _

theorem trace_bind_of_ok {p : Probe α β} {b : β} {qs : List Query} (h : p.trace answer = ⟨.ok b, qs⟩)
    (f : β → Probe α γ) :
    (p.bind f).trace answer =
      ⟨((f b).trace answer).result, qs ++ ((f b).trace answer).asked⟩ := by
  rw [trace_bind, h]
  rfl

/-- A probe that has a result although another one follows. -/
theorem result_of_bind {p : Probe α β} {f : β → Probe α γ} {c : γ}
    (h : ((p.bind f).trace answer).result = .ok c) : ∃ b qs, p.trace answer = ⟨.ok b, qs⟩ := by
  rw [trace_bind] at h
  exact Trace.result_of_andThen h

/-- What was asked before is asked by the probe and the one after it, too. -/
theorem mem_asked_bind {p : Probe α β} {f : β → Probe α γ} {q : Query}
    (h : q ∈ (p.trace answer).asked) : q ∈ ((p.bind f).trace answer).asked := by
  rw [trace_bind]
  exact Trace.mem_andThen h

/-- **What a probe keeps to:** no fault, only queries of `P`, only results of `Q`. -/
def Keeps (P : Query → Prop) (Q : β → Prop) : Probe α β → Prop
  | done result => Q result
  | fail _ => False
  | ask query next => P query ∧ ∀ answer, Keeps P Q (next answer)
  | poll next => ∀ cancelled, Keeps P Q (next cancelled)

variable {P : Query → Prop} {Q : β → Prop} {R : γ → Prop}

theorem Keeps.bind {p : Probe α β} {f : β → Probe α γ} (hp : p.Keeps P Q)
    (hf : ∀ b, Q b → (f b).Keeps P R) : (p.bind f).Keeps P R := by
  induction p with
  | done result => exact hf _ hp
  | fail => exact hp.elim
  | ask query next ih => exact ⟨hp.1, fun answer => ih _ (hp.2 answer)⟩
  | poll next ih => exact fun cancelled => ih _ (hp cancelled)

/-- **A probe on an image that answers all queries that it keeps to.** -/
theorem Keeps.trace {p : Probe α β} (hp : p.Keeps P Q) (ha : ∀ q, P q → ∃ v, answer q = .ok v) :
    ∃ b, (p.trace answer).result = .ok b ∧ Q b ∧ ∀ q ∈ (p.trace answer).asked, P q := by
  induction p with
  | done result => exact ⟨result, rfl, hp, by simp [Probe.trace]⟩
  | fail => exact hp.elim
  | ask query next ih =>
    obtain ⟨v, hv⟩ := ha query hp.1
    obtain ⟨b, hb, hQ, hq⟩ := ih v (hp.2 v)
    simp only [Probe.trace, hv]
    exact ⟨b, hb, hQ, by simpa using ⟨hp.1, hq⟩⟩
  | poll next ih => exact ih _ (hp false)

/-- **Whatever the answers are, the result is one of `Q`**, if there is a result. -/
def Yields (Q : β → Prop) : Probe α β → Prop
  | done result => Q result
  | fail _ => True
  | ask _ next => ∀ answer, Yields Q (next answer)
  | poll next => ∀ cancelled, Yields Q (next cancelled)

theorem Yields.bind {p : Probe α β} {f : β → Probe α γ} (hp : p.Yields Q)
    (hf : ∀ b, Q b → (f b).Yields R) : (p.bind f).Yields R := by
  induction p with
  | done result => exact hf _ hp
  | fail => trivial
  | ask query next ih => exact fun answer => ih _ (hp answer)
  | poll next ih => exact fun cancelled => ih _ (hp cancelled)

theorem Yields.mono {Q' : β → Prop} {p : Probe α β} (hp : p.Yields Q) (hQ : ∀ b, Q b → Q' b) :
    p.Yields Q' := by
  have := hp.bind (f := .done) (R := Q') hQ
  rwa [bind_done] at this

theorem Yields.trivial (p : Probe α β) : p.Yields fun _ => True := by
  induction p with
  | done => exact True.intro
  | fail => exact True.intro
  | ask query next ih => exact fun answer => ih _
  | poll next ih => exact fun cancelled => ih _

theorem Yields.trace {p : Probe α β} (hp : p.Yields Q) {b : β}
    (h : (p.trace answer).result = .ok b) : Q b := by
  induction p with
  | done result => cases h; exact hp
  | fail => cases h
  | ask query next ih =>
    simp only [Probe.trace] at h
    cases ha : answer query with
    | ok v => rw [ha] at h; exact ih v (hp v) h
    | error fault => rw [ha] at h; cases h
  | poll next ih => exact ih _ (hp false) h

theorem Yields.runFrom {p : Probe α β} (hp : p.Yields Q) {cancelled : Nat → Bool} {made : Nat} {b : β}
    (h : (p.runFrom answer cancelled made).result = .ok b) : Q b := by
  induction p generalizing made with
  | done result => cases h; exact hp
  | fail => cases h
  | ask query next ih =>
    simp only [Probe.runFrom] at h
    cases ha : answer query with
    | ok v => rw [ha] at h; exact ih v (hp v) h
    | error fault => rw [ha] at h; cases h
  | poll next ih => exact ih _ (hp _) h

/-- **A probe that never looks whether it has been cancelled.** -/
def Steady : Probe α β → Prop
  | done _ => True
  | fail _ => True
  | ask _ next => ∀ answer, Steady (next answer)
  | poll _ => False

theorem Steady.bind {p : Probe α β} {f : β → Probe α γ} (hp : p.Steady) (hf : ∀ b, (f b).Steady) :
    (p.bind f).Steady := by
  induction p with
  | done result => exact hf result
  | fail => trivial
  | ask query next ih => exact fun answer => ih _ (hp answer)
  | poll next => exact hp.elim

/-- **It cannot be cancelled**, and runs as it does when nobody cancels it. -/
theorem Steady.runFrom {p : Probe α β} (hp : p.Steady) (cancelled : Nat → Bool) (made : Nat) :
    p.runFrom answer cancelled made =
      ⟨(p.trace answer).result, made + (p.trace answer).asked.length⟩ := by
  induction p generalizing made with
  | done => rfl
  | fail => rfl
  | ask query next ih =>
    simp only [Probe.runFrom, Probe.trace]
    cases answer query with
    | ok value =>
      simp only [ih value (hp value), List.length_cons]
      congr 1; omega
    | error fault => rfl
  | poll next => exact hp.elim

/-- **A probe that looks at most `n` times whether it has been cancelled**, whatever it is told then and
whatever its queries are answered. -/
def PollsUpTo : Nat → Probe α β → Prop
  | _, done _ => True
  | _, fail _ => True
  | n, ask _ next => ∀ answer, PollsUpTo n (next answer)
  | 0, poll _ => False
  | n + 1, poll next => ∀ cancelled, PollsUpTo n (next cancelled)

theorem PollsUpTo.mono {p : Probe α β} {m n : Nat} (h : p.PollsUpTo m) (hle : m ≤ n) :
    p.PollsUpTo n := by
  induction p generalizing m n with
  | done => trivial
  | fail => trivial
  | ask query next ih => exact fun answer => ih answer (h answer) hle
  | poll next ih =>
    cases m with
    | zero => exact h.elim
    | succ m =>
      obtain ⟨n, rfl⟩ : ∃ k, n = k + 1 := ⟨n - 1, by omega⟩
      exact fun cancelled => ih cancelled (h cancelled) (by omega)

/-- One probe after another looks as often as both of them. -/
theorem PollsUpTo.bind {p : Probe α β} {f : β → Probe α γ} {m n : Nat} (hp : p.PollsUpTo m)
    (hf : ∀ b, (f b).PollsUpTo n) : (p.bind f).PollsUpTo (m + n) := by
  induction p generalizing m with
  | done result => exact (hf result).mono (by omega)
  | fail => trivial
  | ask query next ih => exact fun answer => ih answer (hp answer)
  | poll next ih =>
    cases m with
    | zero => exact hp.elim
    | succ m =>
      rw [Nat.succ_add]
      exact fun cancelled => ih cancelled (hp cancelled)

theorem Steady.pollsUpTo {p : Probe α β} (hp : p.Steady) : p.PollsUpTo 0 := by
  induction p with
  | done => trivial
  | fail => trivial
  | ask query next ih => exact fun answer => ih answer (hp answer)
  | poll next => exact hp.elim

/-- Has a computation been cancelled after some queries, if it is cancelled at a moment or not at
all? -/
def cancelledBy : Option Nat → Nat → Bool
  | none, _ => false
  | some moment, made => moment ≤ made

theorem runUntil_eq (p : Probe α β) (image : Source α) (moment : Option Nat) :
    p.runUntil image moment = p.runFrom image.answer (cancelledBy moment) 0 := by
  cases moment <;> rfl

end Probe

end HaarDetection
