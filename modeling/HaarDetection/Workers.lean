/-!
# Worker threads

The number of threads that scan windows at the same time is decided once for a process: by the
caller, or by the environment variable that names it, or by the machine. Whatever came of the
first attempt is the answer to every later one.

* `readNumber`: the number in the text of the variable.
* `Workers.threadCount`: the number of threads to start, from the caller or the text.
* `Workers.start`: an attempt to start the threads.
-/

namespace HaarDetection

/-- The environment variable with the number of threads. -/
def threadsVariable : String := "CASCADA_THREADS"

/-- What keeps a text from being a number. -/
inductive NumberFlaw
  | empty
  | invalidDigit
  | tooLarge
deriving DecidableEq, Repr

/-- The wording of a flaw. -/
def NumberFlaw.message : NumberFlaw → String
  | .empty => "cannot parse integer from empty string"
  | .invalidDigit => "invalid digit found in string"
  | .tooLarge => "number too large to fit in target type"

/-- A reason why the threads were not started. -/
inductive WorkersError
  /-- The text of the variable is no number. -/
  | setting (text : String) (flaw : NumberFlaw)
  /-- No threads were asked for. -/
  | noThreads
deriving DecidableEq, Repr

/-- The wording of an error. -/
def WorkersError.message : WorkersError → String
  | .setting text flaw => s!"invalid value '{text}' for {threadsVariable}: {flaw.message}"
  | .noThreads => s!"{threadsVariable} must be at least 1"

/-- Is a character blank? These are the characters that Unicode lists as white space. -/
def isBlank (c : Char) : Bool :=
  let n := c.toNat
  (9 ≤ n && n ≤ 13) || n == 0x20 || n == 0x85 || n == 0xA0 || n == 0x1680
    || (0x2000 ≤ n && n ≤ 0x200A) || n == 0x2028 || n == 0x2029 || n == 0x202F || n == 0x205F
    || n == 0x3000

/-- A text without the blanks around it. -/
def trimBlanks (cs : List Char) : List Char :=
  ((cs.dropWhile isBlank).reverse.dropWhile isBlank).reverse

/-- Reads digits behind a number. The first flaw met is reported. -/
def readDigits : List Char → Nat → Except NumberFlaw Nat
  | [], n => .ok n
  | c :: rest, n =>
    if 48 ≤ c.toNat && c.toNat ≤ 57 then
      let m := 10 * n + (c.toNat - 48)
      if m < UInt64.size then readDigits rest m else .error .tooLarge
    else .error .invalidDigit

/-- A number of 64 bits: digits, perhaps behind a plus sign. -/
def readNumber : List Char → Except NumberFlaw Nat
  | [] => .error .empty
  | ['+'] => .error .invalidDigit
  | '+' :: digits => readDigits digits 0
  | digits => readDigits digits 0

/-- The threads of a process: nothing yet, or what came of the first attempt to start them. -/
structure Workers where
  outcome : Option (Except WorkersError Unit)

namespace Workers

/-- The threads before any attempt. -/
def idle : Workers := ⟨none⟩

/-- The number of threads to start, from the caller or from the variable; none leaves it to the
machine. -/
def threadCount (given : Option Nat) (setting : Option String) :
    Except WorkersError (Option Nat) :=
  match given, setting with
  | some count, _ => .ok (some count)
  | none, some text =>
    match readNumber (trimBlanks text.toList) with
    | .ok count => .ok (some count)
    | .error flaw => .error (.setting text flaw)
  | none, none => .ok none

/-- What comes of a first attempt. -/
def attempt (given : Option Nat) (setting : Option String) : Except WorkersError Unit := do
  match ← threadCount given setting with
  | some 0 => .error .noThreads
  | _ => .ok ()

/-- **An attempt to start the threads.** Only the first one decides anything. -/
def start (w : Workers) (given : Option Nat) (setting : Option String) :
    Except WorkersError Unit × Workers :=
  match w.outcome with
  | some outcome => (outcome, w)
  | none =>
    let outcome := attempt given setting
    (outcome, ⟨some outcome⟩)

end Workers

end HaarDetection
