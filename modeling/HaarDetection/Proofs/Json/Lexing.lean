import HaarDetection.Json.Printer
import HaarDetection.Proofs.Decimal.Numerals

/-!
# Reading tokens

Numbers and strings are read as what they were printed for. A number ends where no character follows
that could belong to it.

* `Lexes`: the tokens of a text, one after the other.
* `Lexes.readAll?`: they are the tokens that are read.
* `EndsNumber`: what can follow a number.
* `Token.read?_numeral`: **a well-formed numeral is read as it was printed.**
* `Token.read?_quote`: **a string is read as it was printed.**
-/

namespace HaarDetection

/-- **The tokens of a text.** -/
inductive Lexes : List Char → List Token → Prop
  | nil : Lexes [] []
  | blank {c : Char} {cs : List Char} {ts : List Token} :
    Token.isBlank c = true → Lexes cs ts → Lexes (c :: cs) ts
  | token {c : Char} {front cs : List Char} {t : Token} {ts : List Token} :
    Token.isBlank c = false → Token.read? (c :: (front ++ cs)) = some (t, cs) → Lexes cs ts →
      Lexes (c :: (front ++ cs)) (t :: ts)

namespace Lexes

variable {cs : List Char} {ts : List Token}

theorem length_le (h : Lexes cs ts) : ts.length ≤ cs.length := by
  induction h with
  | nil => exact le_rfl
  | blank _ _ ih => exact ih.trans (Nat.le_succ _)
  | token _ _ _ ih =>
    simp only [List.length_cons, List.length_append]
    omega

theorem readUpTo? (h : Lexes cs ts) {limit : ℕ} (hl : ts.length ≤ limit) (found : List Token) :
    Token.readUpTo? limit cs found = some (found.reverse ++ ts) := by
  induction h generalizing limit found with
  | nil => cases limit <;> simp [Token.readUpTo?]
  | blank hc _ ih =>
    -- a blank is passed over before the limit is looked at
    rw [← ih hl]
    cases limit with
    | zero => simp only [Token.readUpTo?, List.all_cons, hc, Bool.true_and]
    | succ limit => simp only [Token.readUpTo?, List.dropWhile_cons, hc, if_true]
  | token hc hread _ ih =>
    cases limit with
    | zero => simp at hl
    | succ limit =>
      simp only [Token.readUpTo?, List.dropWhile_cons, hc, Bool.false_eq_true, if_false, hread]
      rw [ih (Nat.le_of_succ_le_succ hl), List.reverse_cons, List.append_assoc]
      rfl

/-- **They are the tokens that are read.** -/
theorem readAll? (h : Lexes cs ts) : Token.readAll? cs = some ts := h.readUpTo? h.length_le []

theorem newLine (h : Lexes cs ts) (depth : ℕ) : Lexes (Json.newLine depth ++ cs) ts := by
  refine .blank rfl ?_
  induction 2 * depth with
  | zero => exact h
  | succ n ih => exact .blank rfl ih

end Lexes

section Numbers

/-- **What can follow a number.** -/
def EndsNumber (cs : List Char) : Prop :=
  ∀ c ∈ cs.head?, Digit.ofChar? c = none ∧ c ≠ '.' ∧ c ≠ 'e' ∧ c ≠ 'E'

theorem Digit.ofChar?_char (d : Digit) : ofChar? d.char = some d := by
  revert d
  decide

/-- The characters of digits are no signs and no blanks. -/
theorem Digit.char_spec (d : Digit) : d.char ≠ '+' ∧ d.char ≠ '-' ∧ Token.isBlank d.char = false := by
  revert d
  decide

namespace Token

variable {rest : List Char}

theorem takeDigits_map (hrest : ∀ c ∈ rest.head?, Digit.ofChar? c = none) (ds found : List Digit) :
    takeDigits (ds.map Digit.char ++ rest) found = (found.reverse ++ ds, rest) := by
  induction ds generalizing found with
  | nil =>
    cases rest with
    | nil => simp [takeDigits]
    | cons c rest => simp [takeDigits, hrest c rfl]
  | cons d ds ih => simp [takeDigits, Digit.ofChar?_char, ih]

theorem readDigits?_map (hrest : ∀ c ∈ rest.head?, Digit.ofChar? c = none) {ds : List Digit}
    (hne : ds ≠ []) : readDigits? (ds.map Digit.char ++ rest) = some (ds, rest) := by
  simp [readDigits?, takeDigits_map hrest, hne]

theorem readWhole?_map (hrest : ∀ c ∈ rest.head?, Digit.ofChar? c = none) {ds : List Digit}
    (hds : WholeDigits ds) : readWhole? (ds.map Digit.char ++ rest) = some (ds, rest) := by
  have hzero : ¬(ds.head?.map (·.val) = some 0 ∧ ds.length ≠ 1) := by
    rintro ⟨h0, h1⟩
    refine h1 (hds.head ?_)
    cases ds with
    | nil => cases h0
    | cons d ds => exact congrArg some (Fin.ext (Option.some.inj h0))
  simp only [readWhole?, readDigits?_map hrest hds.ne_nil, Option.bind_eq_bind, Option.bind_some]
  rw [if_neg hzero]

/-- The characters of a fraction. -/
def fractionChars : Option (List Digit) → List Char
  | none => []
  | some ds => '.' :: ds.map Digit.char

theorem readFraction?_chars (hrest : ∀ c ∈ rest.head?, Digit.ofChar? c = none ∧ c ≠ '.')
    {fraction : Option (List Digit)} (hne : ∀ ds ∈ fraction, ds ≠ []) :
    readFraction? (fractionChars fraction ++ rest) = some (fraction, rest) := by
  cases fraction with
  | none =>
    simp only [fractionChars, List.nil_append]
    unfold readFraction?
    split
    · exact absurd rfl (hrest '.' rfl).2
    · rfl
  | some ds =>
    have h := readDigits?_map (fun c hc => (hrest c hc).1) (hne ds rfl)
    simp only [fractionChars, List.cons_append, readFraction?, h, Option.map_some]

/-- The characters of the sign of a power of ten. -/
def signChars : PowerSign → List Char
  | .unsigned => []
  | .plus => ['+']
  | .minus => ['-']

/-- The characters of a power of ten. -/
def powerChars : Option (PowerSign × List Digit) → List Char
  | none => []
  | some (sign, ds) => 'e' :: (signChars sign ++ ds.map Digit.char)

theorem readPowerSign_map {ds : List Digit} (hne : ds ≠ []) (sign : PowerSign) :
    readPowerSign (signChars sign ++ ds.map Digit.char ++ rest) = (sign, ds.map Digit.char ++ rest) := by
  cases sign with
  | plus => rfl
  | minus => rfl
  | unsigned =>
    -- the digits have to be looked at, as what begins with a sign would be taken for signed
    cases ds with
    | nil => exact absurd rfl hne
    | cons d ds =>
      simp only [signChars, List.nil_append, List.map_cons, List.cons_append]
      unfold readPowerSign
      split
      · rename_i h
        exact absurd (List.cons.inj h).1 d.char_spec.1
      · rename_i h
        exact absurd (List.cons.inj h).1 d.char_spec.2.1
      · rfl

theorem readPower?_chars (hrest : EndsNumber rest) {power : Option (PowerSign × List Digit)}
    (hne : ∀ p ∈ power, p.2 ≠ []) :
    readPower? (powerChars power ++ rest) = some (power, rest) := by
  cases power with
  | none =>
    simp only [powerChars, List.nil_append]
    unfold readPower?
    split
    · exact absurd rfl (hrest 'e' rfl).2.2.1
    · exact absurd rfl (hrest 'E' rfl).2.2.2
    · rfl
  | some p =>
    obtain ⟨sign, ds⟩ := p
    have hds := hne _ rfl
    simp only [powerChars, List.cons_append, readPower?]
    rw [readPowerSign_map hds, readDigits?_map (fun c hc => (hrest c hc).1) hds]
    rfl

theorem endsNumber_powerChars (hrest : EndsNumber rest) (power : Option (PowerSign × List Digit)) :
    ∀ c ∈ (powerChars power ++ rest).head?, Digit.ofChar? c = none ∧ c ≠ '.' := by
  intro c hc
  cases power with
  | none => exact ⟨(hrest c hc).1, (hrest c hc).2.1⟩
  | some p =>
    obtain rfl : 'e' = c := Option.some.inj hc
    exact ⟨rfl, by decide⟩

theorem not_digit_fractionChars (hrest : ∀ c ∈ rest.head?, Digit.ofChar? c = none ∧ c ≠ '.')
    (fraction : Option (List Digit)) :
    ∀ c ∈ (fractionChars fraction ++ rest).head?, Digit.ofChar? c = none := by
  intro c hc
  cases fraction with
  | none => exact (hrest c hc).1
  | some ds =>
    obtain rfl : '.' = c := Option.some.inj hc
    rfl

/-- A numeral behind its sign. -/
theorem readUnsigned?_chars {n : Numeral} (hn : n.WellFormed) (hrest : EndsNumber rest) :
    readUnsigned? n.negative
      (n.whole.map Digit.char ++ (fractionChars n.fraction ++ (powerChars n.power ++ rest))) =
        some (n, rest) := by
  have hpower := endsNumber_powerChars hrest n.power
  simp only [readUnsigned?, readWhole?_map (not_digit_fractionChars hpower n.fraction) hn.whole,
    readFraction?_chars hpower hn.fraction, readPower?_chars hrest hn.power, Option.bind_eq_bind,
    Option.bind_some]

theorem chars_eq (n : Numeral) : n.chars = (if n.negative then ['-'] else []) ++
    (n.whole.map Digit.char ++ (fractionChars n.fraction ++ powerChars n.power)) := by
  obtain ⟨negative, whole, fraction, power⟩ := n
  cases fraction with
  | none =>
    cases power with
    | none => simp [Numeral.chars, fractionChars, powerChars]
    | some p => cases hp : p.1 <;> simp [Numeral.chars, fractionChars, powerChars, signChars, hp]
  | some ds =>
    cases power with
    | none => simp [Numeral.chars, fractionChars, powerChars]
    | some p => cases hp : p.1 <;> simp [Numeral.chars, fractionChars, powerChars, signChars, hp]

/-- Digits begin no other token. -/
theorem read?_digit (d : Digit) (cs : List Char) : read? (d.char :: cs) =
    (readUnsigned? false (d.char :: cs)).map fun (n, rest) => (.number n, rest) := by
  fin_cases d <;> rfl

/-- **A well-formed numeral is read as it was printed.** -/
theorem read?_numeral {n : Numeral} (hn : n.WellFormed) (hrest : EndsNumber rest) :
    read? (n.chars ++ rest) = some (.number n, rest) := by
  have hread := readUnsigned?_chars hn hrest
  rw [chars_eq]
  simp only [List.append_assoc]
  cases hneg : n.negative with
  | true =>
    rw [hneg] at hread
    simp only [if_true, List.singleton_append, read?, hread, Option.map_some]
  | false =>
    rw [hneg] at hread
    obtain ⟨d, ds, hd⟩ := List.exists_cons_of_ne_nil hn.whole.ne_nil
    simp only [Bool.false_eq_true, if_false, List.nil_append]
    rw [hd] at hread ⊢
    simp only [List.map_cons, List.cons_append] at hread ⊢
    rw [read?_digit, hread]
    rfl

/-- A numeral begins with a sign or a digit. -/
theorem exists_chars_eq_cons {n : Numeral} (hn : n.WellFormed) :
    ∃ c cs, n.chars = c :: cs ∧ isBlank c = false := by
  rw [chars_eq]
  cases n.negative with
  | true => exact ⟨'-', _, rfl, rfl⟩
  | false =>
    obtain ⟨d, ds, hd⟩ := List.exists_cons_of_ne_nil hn.whole.ne_nil
    rw [hd]
    exact ⟨d.char, _, rfl, d.char_spec.2.2⟩

end Token

/-- **A number in a text.** -/
theorem Lexes.numeral {n : Numeral} (hn : n.WellFormed) {cs : List Char} {ts : List Token}
    (hcs : EndsNumber cs) (h : Lexes cs ts) : Lexes (n.chars ++ cs) (.number n :: ts) := by
  obtain ⟨c, front, heq, hc⟩ := Token.exists_chars_eq_cons hn
  have hread := Token.read?_numeral hn hcs
  rw [heq] at hread ⊢
  exact .token hc hread h

end Numbers

section Strings

/-- What a character is printed as in a string: a unit for most control characters, or something that
names the character. -/
def pieceOf (c : Char) : StringPiece :=
  if c.toNat < 0x20 ∧ c ∉ ['\x08', '\x0c', '\n', '\r', '\t'] then .unit c.toNat else .char c

theorem StringPiece.chars?_unit {n : ℕ} (hn : n < 0x20) (rest : List StringPiece) :
    chars? (.unit n :: rest) = (chars? rest).map (Char.ofNat n :: ·) := by
  have hhigh : isHigh n = false := by simp [isHigh]; omega
  have hlow : isLow n = false := by simp [isLow]; omega
  cases rest with
  | nil => simp [chars?, hhigh, hlow]
  | cons p rest => cases p <;> simp [chars?, hhigh, hlow]

/-- The pieces of a text have its characters. -/
theorem StringPiece.chars?_map (cs : List Char) : chars? (cs.map pieceOf) = some cs := by
  induction cs with
  | nil => rfl
  | cons c cs ih =>
    rw [List.map_cons, pieceOf]
    split
    · rename_i h
      rw [chars?_unit h.1, ih, Option.map_some, Char.ofNat_toNat]
    · rw [chars?, ih, Option.map_some]

namespace Token

theorem hexUnit?_hexChar {n : ℕ} (hn : n < 0x20) :
    hexUnit? '0' '0' (Json.hexChar (n / 16)) (Json.hexChar (n % 16)) = some n := by
  have hall : ∀ k : Fin 32, hexUnit? '0' '0' (Json.hexChar (k.val / 16)) (Json.hexChar (k.val % 16)) =
      some k.val := by
    decide
  exact hall ⟨n, hn⟩

/-- A character that is not escaped. -/
theorem readPieces?_char {c : Char} (hquote : c ≠ '"') (hslash : c ≠ '\\') (hc : 0x20 ≤ c.toNat)
    (rest : List Char) (found : List StringPiece) :
    readPieces? (c :: rest) found = readPieces? rest (.char c :: found) := by
  have hplain : ¬(c.toNat < 0x20 ∨ c = '\\') := by
    rintro (h | h)
    · omega
    · exact hslash h
  conv_lhs => unfold readPieces?
  split
  · rename_i h
    cases h
  · rename_i h
    exact absurd (List.cons.inj h).1 hquote
  · rename_i h
    exact absurd (List.cons.inj h).1 hslash
  · rename_i h
    exact absurd (List.cons.inj h).1 hslash
  · rename_i h
    cases h
    rw [if_neg hplain]

theorem readPieces?_quoteChar (c : Char) (rest : List Char) (found : List StringPiece) :
    readPieces? (Json.quoteChar c ++ rest) found = readPieces? rest (pieceOf c :: found) := by
  -- seven characters are named by a letter, other control characters by their code
  by_cases hnamed : c ∈ ['"', '\\', '\x08', '\x0c', '\n', '\r', '\t']
  · simp only [List.mem_cons, List.not_mem_nil, or_false] at hnamed
    rcases hnamed with rfl | rfl | rfl | rfl | rfl | rfl | rfl <;> rfl
  · simp only [List.mem_cons, List.not_mem_nil, or_false, not_or] at hnamed
    obtain ⟨hquote, hslash, h1, h2, h3, h4, h5⟩ := hnamed
    unfold Json.quoteChar
    rw [if_neg hquote, if_neg hslash, if_neg h1, if_neg h2, if_neg h3, if_neg h4, if_neg h5]
    split
    · rename_i hc
      have hpiece : pieceOf c = .unit c.toNat := by simp [pieceOf, hc, h1, h2, h3, h4, h5]
      simp only [List.cons_append, List.nil_append, readPieces?, hexUnit?_hexChar hc, hpiece]
    · rename_i hc
      have hpiece : pieceOf c = .char c := by simp [pieceOf, hc]
      rw [List.singleton_append, readPieces?_char hquote hslash (not_lt.1 hc), hpiece]

theorem readPieces?_text (cs rest : List Char) (found : List StringPiece) :
    readPieces? (cs.flatMap Json.quoteChar ++ '"' :: rest) found =
      some (found.reverse ++ cs.map pieceOf, rest) := by
  induction cs generalizing found with
  | nil => simp [readPieces?]
  | cons c cs ih =>
    rw [List.flatMap_cons, List.append_assoc, readPieces?_quoteChar, ih, List.map_cons,
      List.reverse_cons, List.append_assoc]
    rfl

/-- **A string is read as it was printed.** -/
theorem read?_quote (key : Option String) (rest : List Char) :
    read? (Json.quote key ++ rest) = some (.string key, rest) := by
  cases key with
  | none => rfl
  | some text =>
    simp only [Json.quote, List.cons_append, List.append_assoc, List.nil_append, read?, readString?,
      readPieces?_text, StringPiece.chars?_map, List.reverse_nil, Option.map_some, String.ofList_toList]

end Token

/-- **A string in a text.** -/
theorem Lexes.quote (key : Option String) {cs : List Char} {ts : List Token} (h : Lexes cs ts) :
    Lexes (Json.quote key ++ cs) (.string key :: ts) := by
  have hread := Token.read?_quote key cs
  cases key with
  | none => exact .token rfl hread h
  | some text => exact .token rfl hread h

end Strings

end HaarDetection
