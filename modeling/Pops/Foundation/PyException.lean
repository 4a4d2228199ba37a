import Pops.Foundation.Exception

/-!
# Python code that raises

Python code is modelled like the C++ code of `Exception.lean`, with Python's exception classes: a
function that may raise returns in `Except PyError`, and `if c: raise e` is `raiseIf c e`.

The conversions between integers and texts raise beyond a number of digits that the interpreter
sets; code that converts takes the interpreter as a parameter.

## Main definitions

* `Pops.PyError`, `Raises` — raised exceptions and computations that may raise.
* `Pops.raiseIf` — a guard statement.
* `Pops.Interpreter` — the limit of the conversions between integers and texts.
* `Pops.strDigits`, `intOfDigits` — the conversions.

## Main results

* `Pops.strDigits_eq_ok_iff`, `intOfDigits_eq_ok_iff` — when the conversions return.
-/

namespace Pops

/-- The exception classes that the modelled Python code raises. -/
inductive PyErrorKind
  | typeError
  | valueError
  | keyError
  | runtimeError
  | notImplementedError
  | overflowError
  | zeroDivisionError
  | invalidOperation
  deriving DecidableEq, Repr

/-- A raised exception: its class and its text. -/
structure PyError where
  kind : PyErrorKind
  text : String
  deriving DecidableEq, Repr

/-- A computation that returns a value or raises. -/
abbrev Raises (α : Type*) := Except PyError α

/-- `raise TypeError(text)`. -/
def typeError (text : String) : PyError := ⟨.typeError, text⟩

/-- `raise ValueError(text)`. -/
def valueError (text : String) : PyError := ⟨.valueError, text⟩

/-- `raise NotImplementedError(text)`. -/
def notImplementedError (text : String) : PyError := ⟨.notImplementedError, text⟩

/-- `raise ZeroDivisionError(text)`. -/
def zeroDivisionError (text : String) : PyError := ⟨.zeroDivisionError, text⟩

/-- The guard statement `if c: raise e`. -/
def raiseIf (c : Prop) [Decidable c] (e : PyError) : Raises Unit :=
  if c then .error e else .ok ()

/-- A guard lets the computation pass exactly when its condition is false. -/
@[simp] lemma raiseIf_eq_ok {c : Prop} [Decidable c] {e : PyError} {u : Unit} :
    raiseIf c e = .ok u ↔ ¬ c := by
  unfold raiseIf
  split_ifs with h <;> simp [h]

/-- A guard raises its own exception. -/
lemma raiseIf_eq_error {c : Prop} [Decidable c] {e e' : PyError}
    (h : raiseIf c e = .error e') : e' = e := by
  unfold raiseIf at h
  split_ifs at h with hc
  exact (Except.error.inj h).symm

/-- A sequence raises what its first part raises, or else what its second part raises. -/
lemma bind_eq_error {α β : Type} {x : Raises α} {f : α → Raises β} {e : PyError} :
    (x >>= f) = .error e ↔ x = .error e ∨ ∃ a, x = .ok a ∧ f a = .error e := by
  cases x with
  | error e' => simp [bind, Except.bind]
  | ok a => simp [bind, Except.bind]

/-! ## Integers and texts -/

/-- The number of digits that a conversion between an integer and a text may have, as
`sys.set_int_max_str_digits` accepts it: zero for no limit, else at least 640. -/
class Interpreter where
  maxStrDigits : ℕ
  accepted : maxStrDigits = 0 ∨ 640 ≤ maxStrDigits

/-- The limit that the interpreter starts with. -/
instance cpython : Interpreter where
  maxStrDigits := 4300
  accepted := .inr (by decide)

section Conversions

variable [Interpreter]

/-- A text of so many digits is not converted. -/
def exceedsLimit (digits : ℕ) : Bool :=
  decide (Interpreter.maxStrDigits ≠ 0) && decide (Interpreter.maxStrDigits < digits)

/-- `str(n)` of an integer that is not negative. -/
def strDigits (n : ℕ) : Raises (List Char) := do
  raiseIf (exceedsLimit (Nat.toDigits 10 n).length) (valueError ("Exceeds the limit (" ++
    toString Interpreter.maxStrDigits ++ " digits) for integer string conversion; use " ++
    "sys.set_int_max_str_digits() to increase the limit"))
  return Nat.toDigits 10 n

/-- `int(text)` of a text of digits. -/
def intOfDigits (text : List Char) : Raises ℕ := do
  raiseIf (exceedsLimit text.length) (valueError ("Exceeds the limit (" ++
    toString Interpreter.maxStrDigits ++ " digits) for integer string conversion: value has " ++
    toString text.length ++ " digits; use sys.set_int_max_str_digits() to increase the limit"))
  return Nat.ofDigitChars 10 text 0

/-- A number is within the limit. -/
def WithinLimit (n : ℕ) : Prop := Interpreter.maxStrDigits ≠ 0 → n < 10 ^ Interpreter.maxStrDigits

/-- The digits of a number do not exceed the limit just when the number is within it. -/
lemma exceedsLimit_toDigits (n : ℕ) :
    exceedsLimit (Nat.toDigits 10 n).length = false ↔ WithinLimit n := by
  unfold exceedsLimit WithinLimit
  by_cases hzero : Interpreter.maxStrDigits = 0
  · simp [hzero]
  · have hlength := Nat.length_toDigits_le_iff (n := n) (b := 10) (by decide)
      (Nat.pos_of_ne_zero hzero)
    simp [hzero, ← hlength]

/-- An integer within the limit is spelled. -/
theorem strDigits_eq_ok_iff {n : ℕ} {text : List Char} :
    strDigits n = .ok text ↔ WithinLimit n ∧ text = Nat.toDigits 10 n := by
  simp only [← exceedsLimit_toDigits, strDigits, bind_eq_ok, raiseIf_eq_ok, pure_eq_ok,
    exists_and_left, exists_const, Bool.not_eq_true]
  exact and_congr_right fun _ => eq_comm

/-- The digits of an integer within the limit are read back. -/
theorem intOfDigits_eq_ok_iff {n m : ℕ} :
    intOfDigits (Nat.toDigits 10 n) = .ok m ↔ WithinLimit n ∧ m = n := by
  simp only [← exceedsLimit_toDigits, intOfDigits, bind_eq_ok, raiseIf_eq_ok, pure_eq_ok,
    exists_and_left, exists_const, Bool.not_eq_true, Nat.ofDigitChars_ten_toDigits]
  exact and_congr_right fun _ => eq_comm

/-- Zero is within the limit. -/
lemma withinLimit_zero : WithinLimit 0 := fun _ => by positivity

end Conversions

end Pops
