import HaarDetection.Proofs.Json.Lexing

/-!
# Printed values are read back

A value is printed as its tokens, with blanks between them. The tokens are found again, as no number
stands before a character that could belong to it, and they make up the value.

* `Json.WellFormed`: a value whose numbers the grammar allows.
* `Json.tokens`: the tokens of a value.
* `Json.WellFormed.lexed`: **they are the tokens of what is printed.**
* `JsonState.run?_tokens`: **they make up the value.**
* `Json.read?_text`: **what is printed is read back.**
-/

namespace HaarDetection

namespace Json

/-- **A value whose numbers the grammar allows.** -/
inductive WellFormed : Json → Prop
  | null : WellFormed .null
  | bool (b : Bool) : WellFormed (.bool b)
  | number {n : Numeral} : n.WellFormed → WellFormed (.number n)
  | string (text : Option String) : WellFormed (.string text)
  | array {es : List Json} : (∀ e ∈ es, WellFormed e) → WellFormed (.array es)
  | object {ms : List (Option String × Json)} : (∀ m ∈ ms, WellFormed m.2) → WellFormed (.object ms)

mutual

/-- The tokens of a value. -/
def tokens : Json → List Token
  | .null => [.null]
  | .bool b => [.bool b]
  | .number n => [.number n]
  | .string text => [.string text]
  | .array [] => [.openArray, .closeArray]
  | .array (first :: rest) => .openArray :: (tokens first ++ (elementTokens rest ++ [.closeArray]))
  | .object [] => [.openObject, .closeObject]
  | .object ((key, first) :: rest) =>
    .openObject :: .string key :: .colon :: (tokens first ++ (memberTokens rest ++ [.closeObject]))

/-- The tokens of the further elements of an array. -/
def elementTokens : List Json → List Token
  | [] => []
  | e :: rest => .comma :: (tokens e ++ elementTokens rest)

/-- The tokens of the further members of an object. -/
def memberTokens : List (Option String × Json) → List Token
  | [] => []
  | (key, value) :: rest => .comma :: .string key :: .colon :: (tokens value ++ memberTokens rest)

end

end Json

section Printed

variable {cs : List Char} {ts : List Token}

/-- A token of a single character. -/
theorem Lexes.single {c : Char} {t : Token} (hc : Token.isBlank c = false)
    (hread : Token.read? (c :: cs) = some (t, cs)) (h : Lexes cs ts) : Lexes (c :: cs) (t :: ts) :=
  @Lexes.token c [] cs t ts hc hread h

theorem endsNumber_newLine (depth : ℕ) (cs : List Char) : EndsNumber (Json.newLine depth ++ cs) := by
  rintro c ⟨⟩
  decide

theorem endsNumber_cons {c : Char} (hc : Digit.ofChar? c = none ∧ c ≠ '.' ∧ c ≠ 'e' ∧ c ≠ 'E') :
    EndsNumber (c :: cs) := by
  rintro _ ⟨⟩
  exact hc

/-- A value that is printed as its tokens. -/
def Json.Lexed (j : Json) : Prop :=
  ∀ (depth : ℕ) (cs : List Char) (ts : List Token), EndsNumber cs → Lexes cs ts →
    Lexes (j.render depth ++ cs) (j.tokens ++ ts)

variable {depth : ℕ}

theorem endsNumber_renderElements (hcs : EndsNumber cs) (es : List Json) :
    EndsNumber (Json.renderElements depth es ++ cs) := by
  cases es with
  | nil => exact hcs
  | cons e es =>
    rw [Json.renderElements]
    exact endsNumber_cons (by decide)

theorem endsNumber_renderMembers (hcs : EndsNumber cs) (ms : List (Option String × Json)) :
    EndsNumber (Json.renderMembers depth ms ++ cs) := by
  cases ms with
  | nil => exact hcs
  | cons m ms =>
    rw [Json.renderMembers]
    exact endsNumber_cons (by decide)

theorem lexes_renderElements {es : List Json} (hes : ∀ e ∈ es, e.Lexed) (hcs : EndsNumber cs)
    (h : Lexes cs ts) : Lexes (Json.renderElements depth es ++ cs) (Json.elementTokens es ++ ts) := by
  induction es with
  | nil => exact h
  | cons e es ih =>
    obtain ⟨he, hes⟩ := List.forall_mem_cons.1 hes
    simp only [Json.renderElements, Json.elementTokens, List.cons_append, List.append_assoc]
    exact .single rfl rfl (.newLine (he _ _ _ (endsNumber_renderElements hcs es) (ih hes)) depth)

theorem lexes_member {j : Json} (hj : j.Lexed) (key : Option String) (hcs : EndsNumber cs)
    (h : Lexes cs ts) :
    Lexes (Json.newLine depth ++ (Json.quote key ++ ':' :: ' ' :: (j.render depth ++ cs)))
      (.string key :: .colon :: (j.tokens ++ ts)) :=
  .newLine (.quote key (.single rfl rfl (.blank rfl (hj _ _ _ hcs h)))) depth

theorem lexes_renderMembers {ms : List (Option String × Json)} (hms : ∀ m ∈ ms, m.2.Lexed)
    (hcs : EndsNumber cs) (h : Lexes cs ts) :
    Lexes (Json.renderMembers depth ms ++ cs) (Json.memberTokens ms ++ ts) := by
  induction ms with
  | nil => exact h
  | cons m ms ih =>
    obtain ⟨hm, hms⟩ := List.forall_mem_cons.1 hms
    simp only [Json.renderMembers, Json.memberTokens, List.cons_append, List.append_assoc]
    exact .single rfl rfl (lexes_member hm m.1 (endsNumber_renderMembers hcs ms) (ih hms))

/-- **A value is printed as its tokens.** -/
theorem Json.WellFormed.lexed {j : Json} (hj : j.WellFormed) : j.Lexed := by
  induction hj with
  | null => exact fun _ cs ts _ h => @Lexes.token 'n' ['u', 'l', 'l'] cs _ ts rfl rfl h
  | bool b =>
    cases b with
    | true => exact fun _ cs ts _ h => @Lexes.token 't' ['r', 'u', 'e'] cs _ ts rfl rfl h
    | false => exact fun _ cs ts _ h => @Lexes.token 'f' ['a', 'l', 's', 'e'] cs _ ts rfl rfl h
  | number hn => exact fun _ cs ts hcs h => .numeral hn hcs h
  | string text => exact fun _ cs ts _ h => .quote text h
  | @array es _ ih =>
    intro depth cs ts hcs h
    cases es with
    | nil => exact .single rfl rfl (.single rfl rfl h)
    | cons e es =>
      obtain ⟨he, hes⟩ := List.forall_mem_cons.1 ih
      have hend := endsNumber_newLine depth (']' :: cs)
      have hclose : Lexes (newLine depth ++ ']' :: cs) (.closeArray :: ts) :=
        .newLine (.single rfl rfl h) depth
      simp only [render, tokens, List.cons_append, List.append_assoc, List.nil_append]
      exact .single rfl rfl (.newLine (he _ _ _ (endsNumber_renderElements hend es)
        (lexes_renderElements hes hend hclose)) _)
  | @object ms _ ih =>
    intro depth cs ts hcs h
    cases ms with
    | nil => exact .single rfl rfl (.single rfl rfl h)
    | cons m ms =>
      obtain ⟨hm, hms⟩ := List.forall_mem_cons.1 ih
      have hend := endsNumber_newLine depth ('\x7d' :: cs)
      have hclose : Lexes (newLine depth ++ '\x7d' :: cs) (.closeObject :: ts) :=
        .newLine (.single rfl rfl h) depth
      simp only [render, tokens, List.cons_append, List.append_assoc, List.nil_append]
      exact .single rfl rfl (lexes_member hm m.1 (endsNumber_renderMembers hend ms)
        (lexes_renderMembers hms hend hclose))

end Printed

namespace JsonState

variable {frames : List JsonFrame}

/-- The first token of a value begins it where an array may end as well. -/
theorem run?_firstElement (j : Json) (ts : List Token) :
    run? (.atFirstElement frames) (j.tokens ++ ts) =
      run? (.atValue (.array [] :: frames)) (j.tokens ++ ts) := by
  cases j with
  | array es => cases es <;> rfl
  | object ms => cases ms <;> rfl
  | null => rfl
  | bool b => rfl
  | number n => rfl
  | string text => rfl

/-- A value that its tokens make up, wherever it stands. -/
def Reads (j : Json) : Prop :=
  ∀ (frames : List JsonFrame) (ts : List Token),
    run? (.atValue frames) (j.tokens ++ ts) = run? (.behind j frames) ts

theorem run?_elementTokens {es : List Json} (hes : ∀ e ∈ es, Reads e) (value : Json)
    (before : List Json) (ts : List Token) :
    run? (.behind value (.array before :: frames)) (Json.elementTokens es ++ .closeArray :: ts) =
      run? (.behind (.array ((value :: before).reverse ++ es)) frames) ts := by
  induction es generalizing value before with
  | nil => simp [Json.elementTokens, run?, step?]
  | cons e es ih =>
    obtain ⟨he, hes⟩ := List.forall_mem_cons.1 hes
    simp only [Json.elementTokens, List.cons_append, List.append_assoc, run?, step?]
    rw [he, ih hes]
    simp

theorem run?_memberTokens {ms : List (Option String × Json)} (hms : ∀ m ∈ ms, Reads m.2)
    (value : Json) (before : List (Option String × Json)) (key : Option String) (ts : List Token) :
    run? (.behind value (.object before key :: frames)) (Json.memberTokens ms ++ .closeObject :: ts) =
      run? (.behind (.object (((key, value) :: before).reverse ++ ms)) frames) ts := by
  induction ms generalizing value before key with
  | nil => simp [Json.memberTokens, run?, step?]
  | cons m ms ih =>
    obtain ⟨hm, hms⟩ := List.forall_mem_cons.1 hms
    simp only [Json.memberTokens, List.cons_append, List.append_assoc, run?, step?]
    rw [hm, ih hms]
    simp

/-- **The tokens of a value make up the value.** -/
theorem run?_tokens {j : Json} (hj : j.WellFormed) : Reads j := by
  induction hj with
  | null => exact fun _ _ => rfl
  | bool b => exact fun _ _ => rfl
  | number hn => exact fun _ _ => rfl
  | string text => exact fun _ _ => rfl
  | @array es _ ih =>
    intro frames ts
    cases es with
    | nil => rfl
    | cons e es =>
      obtain ⟨he, hes⟩ := List.forall_mem_cons.1 ih
      simp only [Json.tokens, List.cons_append, List.append_assoc, List.nil_append, run?, step?, begin?]
      -- the state behind the bracket would take the end of the array, too
      rw [run?_firstElement, he, run?_elementTokens hes]
      rfl
  | @object ms _ ih =>
    intro frames ts
    cases ms with
    | nil => rfl
    | cons m ms =>
      obtain ⟨hm, hms⟩ := List.forall_mem_cons.1 ih
      simp only [Json.tokens, List.cons_append, List.append_assoc, List.nil_append, run?, step?, begin?]
      rw [hm, run?_memberTokens hms]
      rfl

end JsonState

/-- **What is printed is read back.** -/
theorem Json.read?_text {j : Json} (hj : j.WellFormed) : Json.read? j.text = some j := by
  have hlexes := hj.lexed 0 [] [] nofun .nil
  rw [List.append_nil, List.append_nil] at hlexes
  have hrun := JsonState.run?_tokens hj [] []
  rw [List.append_nil] at hrun
  unfold read? text
  rw [String.toList_ofList, hlexes.readAll?, Option.bind_some]
  unfold ofTokens?
  rw [hrun]
  rfl

end HaarDetection
