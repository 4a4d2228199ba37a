import Pops.Core.Identity.ScalarLiteral
import Pops.Foundation.SignificantBits

/-!
# Exact scalar literals as C++ expressions

A literal is spelled as a C++ expression of its target type.  An integer token of C++ has to fit a
signed 64-bit integer, so wider integers are composed of chunks of nine decimal digits; for the
target `pops::Real` they are rounded to one floating token.  A decimal is spelled for `pops::Real`
with its own text, and for other targets as the quotient of its exact ratio.

The text of a decimal with exponent zero is an integer token of any width.

Composed chunks and the operations on decimals convert between integers and texts, and raise beyond
the interpreter's limit of digits.

## Main definitions

* `Pops.Scalar.Token`, `Cpp` — tokens and expressions.
* `Pops.Scalar.Decimal.str` — the text of a decimal.
* `Pops.Scalar.Literal.toCpp` — the expression of a literal.
* `Pops.Scalar.Lowered` — the integer tokens fit, the value is exact, the operands of quotients are
  exact.
* `Pops.Scalar.ArithmeticExact` — the operations on two operands are exact.
* `Pops.Scalar.WideToken` — a decimal that is a wide integer token of `pops::Real`.
* `Pops.Scalar.Operand.Readable` — the coefficient of an operand is within the interpreter's limit.

## Main results

* `Pops.Scalar.isInteger_str_iff` — which decimals are integer tokens.
* `Pops.Scalar.integerChunksCpp_spec` — composed integers are exact and have small tokens.
* `Pops.Scalar.lowered_iff`, `arithmeticExact_iff` — when literals are lowered exactly and when
  operations are exact.
* `Pops.Scalar.exact_scalars_iff` — both together.
-/

namespace Pops

namespace Scalar

/-! ## Texts of numbers -/

/-- `str(value)` of an integer. -/
def intStr (v : ℤ) : List Char :=
  if v < 0 then '-' :: Nat.toDigits 10 v.natAbs else Nat.toDigits 10 v.natAbs

/-- `str(value)` of a decimal: digits with a point, or in scientific notation. -/
def Decimal.str (d : Decimal) : List Char :=
  let int := Nat.toDigits 10 d.coefficient
  let leftdigits := d.exponent + int.length
  let dotplace := if d.exponent ≤ 0 ∧ -6 < leftdigits then leftdigits else 1
  let sign := if d.sign then ['-'] else []
  let mantissa :=
    if dotplace ≤ 0 then '0' :: '.' :: (List.replicate (-dotplace).toNat '0' ++ int)
    else if int.length ≤ dotplace then int ++ List.replicate (dotplace - int.length).toNat '0'
    else int.take dotplace.toNat ++ '.' :: int.drop dotplace.toNat
  let exp :=
    if leftdigits = dotplace then []
    else if leftdigits < dotplace then 'E' :: intStr (leftdigits - dotplace)
    else 'E' :: '+' :: intStr (leftdigits - dotplace)
  sign ++ mantissa ++ exp

/-- A text without a minus sign in front. -/
def unsigned : List Char → List Char
  | '-' :: text => text
  | text => text

/-- A text is an integer token when it has digits only, behind a sign. -/
def isInteger (text : List Char) : Bool := (unsigned text).all Char.isDigit

/-- The number of an integer token; the sign in front is an operator. -/
def integerToken (text : List Char) : Option ℕ :=
  if isInteger text then some (Nat.ofDigitChars 10 (unsigned text) 0) else none

/-! ## Expressions -/

/-- A numeric token: an integer, the `repr` of a float, the text of a decimal, or `-0.0`. -/
inductive Token
  | int (v : ℤ)
  | real (r : ℚ)
  | decimal (d : Decimal)
  | negZero
  deriving DecidableEq, Repr

/-- The text of a token, where `repr` spells a float. -/
def Token.text (repr : ℚ → List Char) : Token → List Char
  | .int v => intStr v
  | .real r => repr r
  | .decimal d => d.str
  | .negZero => ['-', '0', '.', '0']

/-- The number of an integer token; the `repr` of a float has a point or an exponent. -/
def Token.integer : Token → Option ℕ
  | .real _ => none
  | token => integerToken (token.text fun _ => [])

/-- The number that a token spells. -/
def Token.value : Token → ℚ
  | .int v => v
  | .real r => r
  | .decimal d => d.value
  | .negZero => 0

/-- An expression of C++: `T(token)`, `(a + b)`, `(a * b)`, `(a / b)`, `(-a)`. -/
inductive Cpp
  | cast (cppType : String) (token : Token)
  | add (a b : Cpp)
  | mul (a b : Cpp)
  | div (a b : Cpp)
  | neg (a : Cpp)
  deriving DecidableEq, Repr

namespace Cpp

/-- The text of an expression. -/
def text (repr : ℚ → List Char) : Cpp → List Char
  | cast cppType token => cppType.toList ++ '(' :: (token.text repr ++ [')'])
  | add a b => '(' :: (a.text repr ++ [' ', '+', ' '] ++ b.text repr ++ [')'])
  | mul a b => '(' :: (a.text repr ++ [' ', '*', ' '] ++ b.text repr ++ [')'])
  | div a b => '(' :: (a.text repr ++ [' ', '/', ' '] ++ b.text repr ++ [')'])
  | neg a => '(' :: '-' :: (a.text repr ++ [')'])

/-- The tokens of an expression. -/
def tokens : Cpp → List Token
  | cast _ token => [token]
  | add a b => a.tokens ++ b.tokens
  | mul a b => a.tokens ++ b.tokens
  | div a b => a.tokens ++ b.tokens
  | neg a => a.tokens

/-- The numbers of the integer tokens. -/
def integers (e : Cpp) : List ℕ := e.tokens.filterMap Token.integer

/-- The operands of the quotients. -/
def quotients : Cpp → List (Cpp × Cpp)
  | cast _ _ => []
  | add a b => a.quotients ++ b.quotients
  | mul a b => a.quotients ++ b.quotients
  | div a b => (a, b) :: (a.quotients ++ b.quotients)
  | neg a => a.quotients

/-- The value in exact rational arithmetic, if there is no quotient by zero. -/
def eval : Cpp → Option ℚ
  | cast _ token => some token.value
  | add a b => do
    let x ← a.eval
    let y ← b.eval
    return x + y
  | mul a b => do
    let x ← a.eval
    let y ← b.eval
    return x * y
  | div a b => do
    let x ← a.eval
    let y ← b.eval
    if y = 0 then none else some (x / y)
  | neg a => do
    let x ← a.eval
    return -x

end Cpp

/-! ## Lowering -/

/-- `_CPP_SIGNED_INTEGER_MAX`: the largest value of a signed 64-bit integer. -/
def cppSignedIntegerMax : ℤ := 2 ^ 63 - 1

/-- `_BINARY64_EXACT_INTEGER_MAX`: the largest integer up to which every one is a binary64 number.
-/
def binary64ExactIntegerMax : ℤ := 2 ^ 53

/-- Round a number once to a floating token of `pops::Real`. -/
def finiteRealToken (value : ℚ) (description : String) : Raises Token :=
  match SignificantBits.binary64 value with
  | some lowered => .ok (.real lowered)
  | none => .error ⟨.overflowError,
    description ++ " cannot be represented by the finite pops::Real target"⟩

/-- The number of digits of the first chunk. -/
def firstChunk (digits : List Char) : ℕ := if digits.length % 9 = 0 then 9 else digits.length % 9

/-- The digits behind the first chunk, nine at a time. -/
def laterChunks (digits : List Char) (first : ℕ) : List (List Char) :=
  (List.range ((digits.length - first + 8) / 9)).map fun i => (digits.drop (first + 9 * i)).take 9

/-- Append a chunk of nine digits: `((expression * T(1000000000)) + T(chunk))`. -/
def appendChunk (cppType : String) (expression : Cpp) (chunk : List Char) : Cpp :=
  .add (.mul expression (.cast cppType (.int 1000000000)))
    (.cast cppType (.int (Nat.ofDigitChars 10 chunk 0)))

/-- The chunks of a text of digits, composed to one expression. -/
def composeChunks (digits : List Char) (cppType : String) : Cpp :=
  (laterChunks digits (firstChunk digits)).foldl (appendChunk cppType)
    (.cast cppType (.int (Nat.ofDigitChars 10 (digits.take (firstChunk digits)) 0)))

/-- Spell an integer with tokens of at most ten digits. -/
def integerChunksCpp [Interpreter] (value : ℤ) (cppType : String) : Raises Cpp := do
  let digits ← strDigits value.natAbs
  let expression := composeChunks digits cppType
  return if value < 0 then .neg expression else expression

/-- Spell an integer: with one token when it fits, rounded for `pops::Real`, else in chunks. -/
def integerCpp [Interpreter] (value : ℤ) (cppType : String) (boundedReal : Bool) : Raises Cpp :=
  if |value| ≤ cppSignedIntegerMax then .ok (.cast cppType (.int value))
  else if boundedReal then do
    let token ← finiteRealToken value "integer literal"
    return .cast cppType token
  else integerChunksCpp value cppType

/-- Spell a quotient of integers. -/
def rationalCpp [Interpreter] (numerator denominator : ℤ) (cppType : String)
    (boundedReal : Bool) : Raises Cpp :=
  if boundedReal then
    if |numerator| ≤ binary64ExactIntegerMax ∧ |denominator| ≤ binary64ExactIntegerMax then
      .ok (.div (.cast cppType (.int numerator)) (.cast cppType (.int denominator)))
    else do
      let token ← finiteRealToken (numerator / denominator) "rational literal"
      return .cast cppType token
  else if |numerator| ≤ cppSignedIntegerMax ∧ |denominator| ≤ cppSignedIntegerMax then
    .ok (.div (.cast cppType (.int numerator)) (.cast cppType (.int denominator)))
  else do
    let dividend ← integerChunksCpp numerator cppType
    let divisor ← integerChunksCpp denominator cppType
    return .div dividend divisor

/-- `decimal.is_zero() and decimal.is_signed()`. -/
def Decimal.isNegZero (d : Decimal) : Bool := decide (d.coefficient = 0) && d.sign

/-- Spell a decimal: its own text for `pops::Real`, else its exact ratio. -/
def decimalCpp [Interpreter] (d : Decimal) (cppType : String) (boundedReal : Bool) :
    Raises Cpp :=
  if boundedReal then do
    let _ ← finiteRealToken d.value "decimal literal"
    return .cast cppType (if d.isNegZero then .negZero else .decimal d)
  else if d.isNegZero then .ok (.cast cppType .negZero)
  else rationalCpp d.value.num d.value.den cppType false

/-- `self.target or "pops::Real"`. -/
def Literal.cppType (l : Literal) : String := l.target.getD "pops::Real"

/-- `to_cpp()`: the C++ expression of a literal, refused for a unit and for values its type cannot
hold. -/
def Literal.toCpp [Interpreter] (l : Literal) : Raises Cpp := do
  raiseIf (l.unit ≠ none) (typeError
    ("ScalarLiteral.to_cpp cannot lower unit '" ++ l.unit.getD "" ++
      "' without an explicit unit-system conversion; convert the quantity to an unannotated " ++
      "target scalar first"))
  let boundedReal := decide (l.cppType = "pops::Real")
  match l.number with
  | .int v => integerCpp v l.cppType boundedReal
  | .fraction v => rationalCpp v.num v.den l.cppType boundedReal
  | .decimal d => decimalCpp d l.cppType boundedReal

/-! ## What the expression of a literal is to be -/

/-- Both operands of a quotient have a magnitude of at most `2 ^ 53`. -/
def ExactOperands (operands : Cpp × Cpp) : Prop :=
  ∃ x y, operands.1.eval = some x ∧ operands.2.eval = some y ∧ |x| ≤ 2 ^ 53 ∧ |y| ≤ 2 ^ 53

/-- Every integer token fits a signed 64-bit integer; for a target other than `pops::Real` the value
is that of the literal, and for `pops::Real` the operands of quotients are exact. -/
structure Lowered (l : Literal) (e : Cpp) : Prop where
  integers : ∀ n ∈ e.integers, n ≤ 2 ^ 63 - 1
  exact : l.cppType ≠ "pops::Real" → e.eval = some l.number.value
  operands : l.cppType = "pops::Real" → ∀ q ∈ e.quotients, ExactOperands q

/-- An operand of the exact operations: a decimal or an integer. -/
inductive Operand
  | int (v : ℤ)
  | decimal (d : Decimal)
  deriving DecidableEq, Repr

/-- The number of an operand. -/
def Operand.number : Operand → Number
  | .int v => .int v
  | .decimal d => .decimal d

/-- The signed coefficient of a decimal, or the integer. -/
def Operand.coefficient : Operand → ℤ
  | .int v => v
  | .decimal d => if d.sign then -(d.coefficient : ℤ) else d.coefficient

/-- `as_tuple().exponent` of a decimal; an integer has the exponent zero. -/
def Operand.exponent : Operand → ℤ
  | .int _ => 0
  | .decimal d => d.exponent

/-- The coefficient of a decimal operand is within the limit of the interpreter. -/
def Operand.Readable [Interpreter] : Operand → Prop
  | .int _ => True
  | .decimal d => WithinLimit d.coefficient

/-- A number has a finite decimal expansion. -/
def Terminates (q : ℚ) : Prop := ∃ k : ℕ, ∃ n : ℤ, q * 10 ^ k = n

/-- The operations return the exact sum, product and quotient; no quotient is returned just when it
does not terminate. -/
structure ArithmeticExact [Interpreter] (left right : Operand) : Prop where
  add : ∃ d, exactDecimalAdd left.number right.number = .ok d ∧
    d.value = left.number.value + right.number.value
  multiply : ∃ d, exactDecimalMultiply left.number right.number = .ok d ∧
    d.value = left.number.value * right.number.value
  divide : right.number.value ≠ 0 → ∃ r, exactDecimalDivide left.number right.number = .ok r ∧
    (r = none ↔ ¬ Terminates (left.number.value / right.number.value)) ∧
    ∀ d ∈ r, d.value = left.number.value / right.number.value

/-! ## Integer tokens -/

/-- Digits have no sign in front. -/
lemma unsigned_of_digits {text : List Char} (h : ∀ c ∈ text, c.isDigit) :
    unsigned text = text := by
  cases text with
  | nil => rfl
  | cons c rest =>
    have hne : c ≠ '-' := by
      rintro rfl
      exact absurd (h '-' List.mem_cons_self) (by decide)
    unfold unsigned
    split
    · next heq => exact absurd (List.cons.inj heq).1 hne
    · rfl

/-- Removing the sign removes nothing else. -/
lemma mem_unsigned {text : List Char} {c : Char} (hc : c ≠ '-') (h : c ∈ text) :
    c ∈ unsigned text := by
  unfold unsigned
  split
  · exact (List.mem_cons.mp h).resolve_left hc
  · exact h

/-- Digits are digits. -/
lemma digits_isDigit (n : ℕ) : ∀ c ∈ Nat.toDigits 10 n, c.isDigit :=
  fun _ hc => Nat.isDigit_of_mem_toDigits (by decide) (by decide) hc

/-- The digits of a number behind an optional sign are an integer token of the number. -/
lemma integerToken_digits (negative : Bool) (n : ℕ) :
    integerToken ((if negative then ['-'] else []) ++ Nat.toDigits 10 n) = some n := by
  have hunsigned : unsigned ((if negative then ['-'] else []) ++ Nat.toDigits 10 n) =
      Nat.toDigits 10 n := by
    cases negative with
    | false => exact unsigned_of_digits (digits_isDigit n)
    | true => rfl
  unfold integerToken isInteger
  rw [hunsigned, if_pos (List.all_eq_true.mpr (digits_isDigit n)), Nat.ofDigitChars_ten_toDigits]

/-- An integer is spelled with one integer token. -/
@[simp] lemma integer_int (v : ℤ) : (Token.int v).integer = some v.natAbs := by
  show integerToken (intStr v) = some v.natAbs
  unfold intStr
  split_ifs with h
  · exact integerToken_digits true v.natAbs
  · exact integerToken_digits false v.natAbs

/-- A decimal with exponent zero is spelled with its digits. -/
lemma str_of_exponent_zero {d : Decimal} (h : d.exponent = 0) :
    d.str = (if d.sign then ['-'] else []) ++ Nat.toDigits 10 d.coefficient := by
  have hlen := Nat.length_toDigits_pos (b := 10) (n := d.coefficient)
  have hdot : (-6 : ℤ) < (Nat.toDigits 10 d.coefficient).length := by omega
  simp [Decimal.str, h, hdot]

/-- A decimal with another exponent is spelled with a point or an exponent. -/
lemma mem_str_of_exponent_ne {d : Decimal} (h : d.exponent ≠ 0) : '.' ∈ d.str ∨ 'E' ∈ d.str := by
  have hlen := Nat.length_toDigits_pos (b := 10) (n := d.coefficient)
  unfold Decimal.str
  simp only [List.mem_append]
  by_cases hplain : d.exponent ≤ 0 ∧ -6 < d.exponent + (Nat.toDigits 10 d.coefficient).length
  · refine .inl (.inl (.inr ?_))
    simp only [if_pos hplain]
    split_ifs with hzero hfull
    · simp
    · omega
    · simp
  · refine .inr (.inr ?_)
    simp only [if_neg hplain]
    have hne : d.exponent + (Nat.toDigits 10 d.coefficient).length ≠ 1 := by omega
    rw [if_neg hne]
    split_ifs <;> exact List.mem_cons_self

/-- **The text of a decimal is an integer token just when its exponent is zero.** -/
theorem isInteger_str_iff (d : Decimal) : isInteger d.str ↔ d.exponent = 0 := by
  constructor
  · intro h
    by_contra hne
    rcases mem_str_of_exponent_ne hne with hmem | hmem
    · exact absurd (List.all_eq_true.mp h _ (mem_unsigned (by decide) hmem)) (by decide)
    · exact absurd (List.all_eq_true.mp h _ (mem_unsigned (by decide) hmem)) (by decide)
  · intro h
    by_contra hne
    have htoken := integerToken_digits d.sign d.coefficient
    rw [← str_of_exponent_zero h, integerToken, if_neg hne] at htoken
    cases htoken

/-- The integer token of a decimal. -/
lemma integer_decimal (d : Decimal) :
    (Token.decimal d).integer = if d.exponent = 0 then some d.coefficient else none := by
  show integerToken d.str = _
  split_ifs with h
  · rw [str_of_exponent_zero h, integerToken_digits]
  · rw [integerToken, if_neg ((isInteger_str_iff d).not.mpr h)]

/-! ## Chunks -/

/-- Digits spell a number with as many places. -/
lemma ofDigitChars_lt {text : List Char} (h : ∀ c ∈ text, c.isDigit) :
    Nat.ofDigitChars 10 text 0 < 10 ^ text.length := by
  induction text with
  | nil => simp
  | cons c rest ih =>
    rw [List.forall_mem_cons] at h
    have hdigit : 48 ≤ c.toNat ∧ c.toNat ≤ 57 := by
      simpa [Char.isDigit, UInt32.le_iff_toNat_le] using h.1
    have hrest := ih h.2
    rw [Nat.ofDigitChars_cons, Nat.ofDigitChars_eq_ofDigitChars_zero, List.length_cons, pow_succ]
    have hplace : c.toNat - '0'.toNat ≤ 9 := by
      show c.toNat - 48 ≤ 9
      omega
    have hmul : 10 ^ rest.length * (10 * 0 + (c.toNat - '0'.toNat)) ≤ 10 ^ rest.length * 9 :=
      Nat.mul_le_mul_left _ (by omega)
    omega

/-- An expression that is composed of small integers: its value, its tokens and no quotients. -/
structure Composed (e : Cpp) (value : ℚ) : Prop where
  eval : e.eval = some value
  integers : ∀ n ∈ e.integers, n ≤ 2 ^ 63 - 1
  quotients : e.quotients = []

/-- A token that fits. -/
lemma Composed.cast {v : ℤ} (cppType : String) (h : |v| ≤ cppSignedIntegerMax) :
    Composed (.cast cppType (.int v)) v where
  eval := rfl
  integers := by
    intro n hn
    obtain rfl : n = v.natAbs := by
      simpa [Cpp.integers, Cpp.tokens] using hn
    rw [Int.abs_eq_natAbs, cppSignedIntegerMax] at h
    omega
  quotients := rfl

/-- An appended chunk multiplies by a thousand million and adds the chunk. -/
theorem Composed.append {e : Cpp} {n : ℕ} (h : Composed e n) (cppType : String) {chunk : List Char}
    (hlength : chunk.length = 9) (hdigits : ∀ c ∈ chunk, c.isDigit) :
    Composed (appendChunk cppType e chunk) (Nat.ofDigitChars 10 chunk n : ℕ) where
  eval := by
    rw [Nat.ofDigitChars_eq_ofDigitChars_zero, hlength, appendChunk]
    simp only [Cpp.eval, h.eval, Token.value]
    show some _ = some _
    push_cast
    ring_nf
  integers := by
    have hlt := ofDigitChars_lt hdigits
    rw [hlength] at hlt
    intro m hm
    simp only [Cpp.integers, appendChunk, Cpp.tokens, List.filterMap_append, List.mem_append] at hm
    rcases hm with (hm | hm) | hm
    · exact h.integers m hm
    · obtain rfl : m = 1000000000 := by simpa using hm
      decide
    · obtain rfl : m = Nat.ofDigitChars 10 chunk 0 := by simpa using hm
      omega
  quotients := by
    simp [appendChunk, Cpp.quotients, h.quotients]

/-- Appended chunks spell all their digits. -/
lemma Composed.foldl {e : Cpp} {n : ℕ} (h : Composed e n) (cppType : String) :
    ∀ {chunks : List (List Char)}, (∀ chunk ∈ chunks, chunk.length = 9) →
      (∀ chunk ∈ chunks, ∀ c ∈ chunk, c.isDigit) →
      Composed (chunks.foldl (appendChunk cppType) e) (Nat.ofDigitChars 10 chunks.flatten n :
        ℕ) := by
  intro chunks hlength hdigits
  induction chunks generalizing e n with
  | nil => exact h
  | cons chunk rest ih =>
    rw [List.forall_mem_cons] at hlength hdigits
    rw [List.foldl_cons, List.flatten_cons, Nat.ofDigitChars_append]
    exact ih (h.append cppType hlength.1 hdigits.1) hlength.2 hdigits.2

/-- Nine digits at a time are all digits. -/
lemma flatten_chunks {k : ℕ} {digits : List Char} (h : digits.length = 9 * k) :
    ((List.range k).map fun i => (digits.drop (9 * i)).take 9).flatten = digits := by
  induction k generalizing digits with
  | zero =>
    obtain rfl := List.length_eq_zero_iff.mp h
    rfl
  | succ k ih =>
    have hrest := @ih (digits.drop 9) (by rw [List.length_drop]; omega)
    rw [List.range_succ_eq_map, List.map_cons, List.flatten_cons, List.map_map]
    conv_rhs => rw [← List.take_append_drop 9 digits, ← hrest]
    congr 2
    refine List.map_congr_left fun i _ => ?_
    show (digits.drop (9 * (i + 1))).take 9 = ((digits.drop 9).drop (9 * i)).take 9
    rw [List.drop_drop]
    congr 2
    omega

/-- The first chunk leaves a multiple of nine digits. -/
lemma length_sub_firstChunk {digits : List Char} (h : 0 < digits.length) :
    firstChunk digits ≤ digits.length ∧ firstChunk digits ≤ 9 ∧
      digits.length - firstChunk digits = 9 * ((digits.length - firstChunk digits + 8) / 9) := by
  unfold firstChunk
  split_ifs with hmod <;> omega

/-- The chunks behind the first one have nine digits, and are the digits behind it. -/
lemma laterChunks_spec {digits : List Char} (h : 0 < digits.length) :
    (laterChunks digits (firstChunk digits)).flatten = digits.drop (firstChunk digits) ∧
      ∀ chunk ∈ laterChunks digits (firstChunk digits), chunk.length = 9 := by
  obtain ⟨hle, -, hmul⟩ := length_sub_firstChunk h
  have hlength : (digits.drop (firstChunk digits)).length =
      9 * ((digits.length - firstChunk digits + 8) / 9) := by
    rw [List.length_drop]
    exact hmul
  constructor
  · rw [← flatten_chunks hlength]
    unfold laterChunks
    simp only [List.drop_drop]
  · intro chunk hchunk
    obtain ⟨i, hi, rfl⟩ := List.mem_map.mp hchunk
    rw [List.mem_range] at hi
    rw [List.length_take, List.length_drop]
    omega

/-- The composed chunks of a number's digits are exact. -/
lemma composeChunks_spec (n : ℕ) (cppType : String) :
    Composed (composeChunks (Nat.toDigits 10 n) cppType) n := by
  have hdigits := digits_isDigit n
  have hpos : 0 < (Nat.toDigits 10 n).length := Nat.length_toDigits_pos
  set digits := Nat.toDigits 10 n with hdef
  obtain ⟨-, hnine, -⟩ := length_sub_firstChunk hpos
  obtain ⟨hflatten, hlength⟩ := laterChunks_spec hpos
  have hfirst : Nat.ofDigitChars 10 (digits.take (firstChunk digits)) 0 < 10 ^ 9 := by
    refine (ofDigitChars_lt fun c hc => hdigits c (List.mem_of_mem_take hc)).trans_le ?_
    exact Nat.pow_le_pow_right (by decide) ((List.length_take_le _ _).trans hnine)
  have hstart := @Composed.cast (Nat.ofDigitChars 10 (digits.take (firstChunk digits)) 0 : ℕ)
    cppType (by
      rw [abs_of_nonneg (Int.natCast_nonneg _)]
      unfold cppSignedIntegerMax
      omega)
  rw [Int.cast_natCast] at hstart
  have hchunk : ∀ chunk ∈ laterChunks digits (firstChunk digits), ∀ c ∈ chunk, c.isDigit := by
    intro chunk hchunk c hc
    refine hdigits c (List.mem_of_mem_drop (i := firstChunk digits) ?_)
    rw [← hflatten]
    exact List.mem_flatten.mpr ⟨chunk, hchunk, hc⟩
  have hall := hstart.foldl cppType hlength hchunk
  rw [hflatten, ← Nat.ofDigitChars_append, List.take_append_drop, hdef,
    Nat.ofDigitChars_ten_toDigits] at hall
  exact hall

/-- **Composed integers are exact**, and their tokens are small. -/
theorem integerChunksCpp_spec [Interpreter] {value : ℤ} {cppType : String} {e : Cpp}
    (h : integerChunksCpp value cppType = .ok e) : Composed e value := by
  simp only [integerChunksCpp, bind_eq_ok, strDigits_eq_ok_iff, pure_eq_ok] at h
  obtain ⟨_, ⟨-, rfl⟩, rfl⟩ := h
  have hall := composeChunks_spec value.natAbs cppType
  split_ifs with hneg
  · refine ⟨?_, hall.integers, hall.quotients⟩
    rw [Cpp.eval, hall.eval]
    show some _ = some _
    rw [Nat.cast_natAbs, abs_of_neg hneg]
    push_cast
    rw [neg_neg]
  · rw [Nat.cast_natAbs, abs_of_nonneg (not_lt.mp hneg)] at hall
    exact hall

/-! ## Literals -/

/-- A rounded number is one floating token. -/
lemma finiteRealToken_eq_ok {value : ℚ} {description : String} {token : Token} :
    finiteRealToken value description = .ok token ↔
      ∃ r, SignificantBits.binary64 value = some r ∧ token = .real r := by
  unfold finiteRealToken
  cases SignificantBits.binary64 value with
  | none => simp
  | some r => simp [eq_comm]

/-- An expression without integer tokens and quotients. -/
lemma integers_cast {cppType : String} {token : Token} (h : token.integer = none) :
    (Cpp.cast cppType token).integers = [] := by
  simp [Cpp.integers, Cpp.tokens, h]

/-- A spelled integer has fitting tokens and no quotients; where it is not rounded it is exact. -/
lemma integerCpp_spec [Interpreter] {value : ℤ} {cppType : String} {boundedReal : Bool} {e : Cpp}
    (h : integerCpp value cppType boundedReal = .ok e) :
    (∀ n ∈ e.integers, n ≤ 2 ^ 63 - 1) ∧ (boundedReal = false → e.eval = some (value : ℚ)) ∧
      e.quotients = [] := by
  unfold integerCpp at h
  split_ifs at h with hfits hreal
  · obtain rfl := Except.ok.inj h
    have hcomposed := Composed.cast cppType hfits
    exact ⟨hcomposed.integers, fun _ => hcomposed.eval, rfl⟩
  · obtain ⟨token, htoken, hresult⟩ := bind_eq_ok.mp h
    obtain rfl := pure_eq_ok.mp hresult
    obtain ⟨r, -, rfl⟩ := finiteRealToken_eq_ok.mp htoken
    refine ⟨fun n hn => ?_, fun hfalse => absurd (hreal.symm.trans hfalse) (by decide), rfl⟩
    rw [integers_cast rfl] at hn
    cases hn
  · have hcomposed := integerChunksCpp_spec h
    exact ⟨hcomposed.integers, fun _ => hcomposed.eval, hcomposed.quotients⟩

/-- A quotient of composed integers is exact, and its tokens fit. -/
lemma div_spec {a b : Cpp} {x y : ℚ} (ha : Composed a x) (hb : Composed b y) (hy : y ≠ 0) :
    (∀ n ∈ (Cpp.div a b).integers, n ≤ 2 ^ 63 - 1) ∧ (Cpp.div a b).eval = some (x / y) ∧
      (Cpp.div a b).quotients = [(a, b)] := by
  refine ⟨fun n hn => ?_, ?_, ?_⟩
  · simp only [Cpp.integers, Cpp.tokens, List.filterMap_append, List.mem_append] at hn
    rcases hn with hn | hn
    · exact ha.integers n hn
    · exact hb.integers n hn
  · rw [Cpp.eval, ha.eval, hb.eval]
    exact if_neg hy
  · rw [Cpp.quotients, ha.quotients, hb.quotients]
    rfl

/-- A spelled ratio has fitting tokens; it is exact, and for `pops::Real` its operands are. -/
lemma rationalCpp_spec [Interpreter] {numerator denominator : ℤ} {cppType : String}
    {boundedReal : Bool} {e : Cpp} (hdenominator : denominator ≠ 0)
    (h : rationalCpp numerator denominator cppType boundedReal = .ok e) :
    (∀ n ∈ e.integers, n ≤ 2 ^ 63 - 1) ∧
      (boundedReal = false → e.eval = some ((numerator : ℚ) / denominator)) ∧
      (boundedReal = true → ∀ q ∈ e.quotients, ExactOperands q) := by
  have hne : (denominator : ℚ) ≠ 0 := Int.cast_ne_zero.mpr hdenominator
  unfold rationalCpp at h
  split_ifs at h with hreal hexact hfits
  · obtain rfl := Except.ok.inj h
    have hsmall : ∀ v : ℤ, |v| ≤ binary64ExactIntegerMax → |v| ≤ cppSignedIntegerMax := by
      intro v hv
      exact hv.trans (by decide)
    have ha := Composed.cast cppType (hsmall _ hexact.1)
    have hb := Composed.cast cppType (hsmall _ hexact.2)
    obtain ⟨hintegers, -, hquotients⟩ := div_spec ha hb hne
    refine ⟨hintegers, fun hfalse => absurd (hreal.symm.trans hfalse) (by decide), fun _ q hq => ?_⟩
    rw [hquotients] at hq
    obtain rfl := List.mem_singleton.mp hq
    refine ⟨numerator, denominator, ha.eval, hb.eval, ?_, ?_⟩
    · exact_mod_cast hexact.1
    · exact_mod_cast hexact.2
  · obtain ⟨token, htoken, hresult⟩ := bind_eq_ok.mp h
    obtain rfl := pure_eq_ok.mp hresult
    obtain ⟨r, -, rfl⟩ := finiteRealToken_eq_ok.mp htoken
    refine ⟨fun n hn => ?_, fun hfalse => absurd (hreal.symm.trans hfalse) (by decide),
      fun _ q hq => by cases hq⟩
    rw [integers_cast rfl] at hn
    cases hn
  · obtain rfl := Except.ok.inj h
    obtain ⟨hintegers, heval, -⟩ := div_spec (Composed.cast cppType hfits.1)
      (Composed.cast cppType hfits.2) hne
    exact ⟨hintegers, fun _ => heval, fun htrue => absurd htrue hreal⟩
  · simp only [bind_eq_ok, pure_eq_ok] at h
    obtain ⟨dividend, hdividend, divisor, hdivisor, rfl⟩ := h
    obtain ⟨hintegers, heval, -⟩ := div_spec (integerChunksCpp_spec hdividend)
      (integerChunksCpp_spec hdivisor) hne
    exact ⟨hintegers, fun _ => heval, fun htrue => absurd htrue hreal⟩

/-- A decimal that is a wide integer token of `pops::Real`: its exponent is zero, its coefficient
does not fit a signed 64-bit integer, and it is rounded to a finite number. -/
def WideToken (l : Literal) : Prop :=
  l.unit = none ∧ l.cppType = "pops::Real" ∧ ∃ d, l.number = .decimal d ∧ d.exponent = 0 ∧
    2 ^ 63 - 1 < d.coefficient ∧ d.coefficient < 2 ^ 1024 - 2 ^ 970

/-- A decimal with exponent zero is a signed integer. -/
lemma value_of_exponent_zero {d : Decimal} (h : d.exponent = 0) :
    d.value = if d.sign then -(d.coefficient : ℚ) else d.coefficient := by
  rw [Decimal.value, h, zpow_zero, mul_one]

/-- A decimal for `pops::Real` is lowered to its own text, or to `-0.0`. -/
lemma decimalCpp_real [Interpreter] {d : Decimal} {cppType : String} {e : Cpp} :
    decimalCpp d cppType true = .ok e ↔ (SignificantBits.binary64 d.value).isSome ∧
      e = .cast cppType (if d.isNegZero then .negZero else .decimal d) := by
  rw [decimalCpp, if_pos rfl]
  constructor
  · intro h
    obtain ⟨token, htoken, hresult⟩ := bind_eq_ok.mp h
    obtain rfl := pure_eq_ok.mp hresult
    obtain ⟨r, hr, -⟩ := finiteRealToken_eq_ok.mp htoken
    exact ⟨by rw [hr]; rfl, rfl⟩
  · rintro ⟨hfinite, rfl⟩
    obtain ⟨r, hr⟩ := Option.isSome_iff_exists.mp hfinite
    exact bind_eq_ok.mpr ⟨_, finiteRealToken_eq_ok.mpr ⟨r, hr, rfl⟩, rfl⟩

/-- The integer tokens of a decimal for `pops::Real`. -/
lemma integers_decimal (d : Decimal) (cppType : String) :
    (Cpp.cast cppType (if d.isNegZero then .negZero else .decimal d)).integers =
      if d.exponent = 0 ∧ ¬ d.isNegZero then [d.coefficient] else [] := by
  by_cases hzero : d.isNegZero
  · rw [if_pos hzero, if_neg fun h => h.2 hzero]
    rfl
  · rw [if_neg hzero]
    by_cases hexponent : d.exponent = 0
    · rw [if_pos ⟨hexponent, hzero⟩]
      simp [Cpp.integers, Cpp.tokens, integer_decimal, hexponent]
    · rw [if_neg fun h => hexponent h.1]
      exact integers_cast (by rw [integer_decimal, if_neg hexponent])

/-- A decimal for another target has fitting tokens and is exact. -/
lemma decimalCpp_spec [Interpreter] {d : Decimal} {cppType : String} {e : Cpp}
    (h : decimalCpp d cppType false = .ok e) :
    (∀ n ∈ e.integers, n ≤ 2 ^ 63 - 1) ∧ e.eval = some d.value := by
  rw [decimalCpp, if_neg (by decide)] at h
  split_ifs at h with hzero
  · obtain rfl := Except.ok.inj h
    refine ⟨fun n hn => ?_, ?_⟩
    · have hnone : (Cpp.cast cppType .negZero).integers = [] := rfl
      rw [hnone] at hn
      cases hn
    · have hcoefficient : d.coefficient = 0 := by
        have := Bool.and_eq_true_iff.mp hzero
        exact of_decide_eq_true this.1
      rw [Cpp.eval, Token.value, Decimal.value, hcoefficient]
      simp
  · obtain ⟨hintegers, heval, -⟩ := rationalCpp_spec (by exact_mod_cast d.value.den_nz) h
    refine ⟨hintegers, ?_⟩
    rw [heval rfl, Int.cast_natCast, Rat.num_div_den]

/-- **When a literal is lowered exactly**: unless it is a wide integer token of `pops::Real`. -/
theorem lowered_iff [Interpreter] (l : Literal) :
    (∀ e, l.toCpp = .ok e → Lowered l e) ↔ ¬ WideToken l := by
  constructor
  · rintro h ⟨hunit, htype, d, hnumber, hexponent, hwide, hfinite⟩
    have hpos : d.coefficient ≠ 0 := by omega
    have hzero : ¬ d.isNegZero := by
      simp [Decimal.isNegZero, hpos]
    have hsome : (SignificantBits.binary64 d.value).isSome := by
      rw [value_of_exponent_zero hexponent, SignificantBits.binary64_natCast]
      exact hfinite
    have hcpp : l.toCpp = .ok (.cast l.cppType (if d.isNegZero then .negZero else .decimal d)) := by
      unfold Literal.toCpp
      rw [hunit, hnumber, decide_eq_true htype]
      exact decimalCpp_real.mpr ⟨hsome, rfl⟩
    have hmem := (h _ hcpp).integers d.coefficient
    rw [integers_decimal, if_pos ⟨hexponent, hzero⟩] at hmem
    have := hmem List.mem_cons_self
    omega
  · intro hnarrow e h
    obtain ⟨_, hpass, h⟩ := bind_eq_ok.mp h
    have hunit : l.unit = none := not_not.mp (raiseIf_eq_ok.mp hpass)
    have hreal : ∀ {P : Prop}, (decide (l.cppType = "pops::Real") = false → P) →
        l.cppType ≠ "pops::Real" → P := fun hP hne => hP (decide_eq_false hne)
    cases hnumber : l.number with
    | int v =>
      rw [hnumber] at h
      obtain ⟨hintegers, heval, hquotients⟩ := integerCpp_spec h
      refine ⟨hintegers, hreal fun hfalse => ?_, fun _ q hq => ?_⟩
      · rw [heval hfalse, hnumber]
        rfl
      · rw [hquotients] at hq
        cases hq
    | fraction v =>
      rw [hnumber] at h
      obtain ⟨hintegers, heval, hoperands⟩ := rationalCpp_spec (by exact_mod_cast v.den_nz) h
      refine ⟨hintegers, hreal fun hfalse => ?_, fun htype => hoperands (decide_eq_true htype)⟩
      rw [heval hfalse, hnumber, Int.cast_natCast, Rat.num_div_den]
      rfl
    | decimal d =>
      rw [hnumber] at h
      by_cases htype : l.cppType = "pops::Real"
      · simp only [decide_eq_true htype] at h
        obtain ⟨hsome, rfl⟩ := decimalCpp_real.mp h
        refine ⟨fun n hn => ?_, fun hne => absurd htype hne, fun _ q hq => by cases hq⟩
        rw [integers_decimal] at hn
        split_ifs at hn with hinteger
        · obtain rfl := List.mem_singleton.mp hn
          by_contra hwide
          refine hnarrow ⟨hunit, htype, d, hnumber, hinteger.1, not_le.mp hwide, ?_⟩
          rw [value_of_exponent_zero hinteger.1, SignificantBits.binary64_natCast] at hsome
          exact hsome
        · cases hn
      · simp only [decide_eq_false htype] at h
        obtain ⟨hintegers, heval⟩ := decimalCpp_spec h
        refine ⟨hintegers, fun _ => ?_, fun heq => absurd heq htype⟩
        rw [heval, hnumber]
        rfl

/-! ## Operations -/

/-- A removed factor does not divide what is left. -/
lemma stripFactor_not_dvd {p : ℕ} (hp : 1 < p) : ∀ {fuel n : ℕ}, 0 < n → n ≤ fuel →
    ¬ p ∣ (stripFactor p fuel n).2
  | 0, n, hn, hfuel => by omega
  | fuel + 1, n, hn, hfuel => by
    unfold stripFactor
    split_ifs with h
    · have hdvd := Nat.dvd_of_mod_eq_zero h
      have hlt : n / p < n := Nat.div_lt_self hn hp
      exact stripFactor_not_dvd hp (Nat.div_pos (Nat.le_of_dvd hn hdvd) (by omega)) (by omega)
    · exact fun hdvd => h (Nat.mod_eq_zero_of_dvd hdvd)

/-- What is left of a number has no factor two and no factor five. -/
lemma remainingPart_coprime {n : ℕ} (hn : 0 < n) :
    ¬ 2 ∣ remainingPart n ∧ ¬ 5 ∣ remainingPart n ∧ remainingPart n ∣ n := by
  have htwo : 2 ^ powersTwo n * oddPart n = n := stripFactor_mul n n
  have hfive : 5 ^ powersFive n * remainingPart n = oddPart n :=
    stripFactor_mul (oddPart n) (oddPart n)
  have hodd : 0 < oddPart n := Nat.pos_of_ne_zero fun h => by
    rw [h, mul_zero] at htwo
    omega
  have hdvd : remainingPart n ∣ oddPart n := Dvd.intro_left _ hfive
  refine ⟨fun h => ?_, stripFactor_not_dvd (by decide) hodd le_rfl,
    hdvd.trans (Dvd.intro_left _ htwo)⟩
  exact stripFactor_not_dvd (p := 2) (by decide) hn le_rfl (h.trans hdvd)

/-- Nothing is left of a number that divides a power of ten. -/
lemma remainingPart_of_dvd {n k : ℕ} (h : n ∣ 10 ^ k) : remainingPart n = 1 := by
  have hn : 0 < n := Nat.pos_of_dvd_of_pos h (by positivity)
  obtain ⟨htwo, hfive, hdvd⟩ := remainingPart_coprime hn
  by_contra hne
  obtain ⟨p, hp, hpdvd⟩ := Nat.exists_prime_and_dvd hne
  have hten : p ∣ 2 * 5 := hp.dvd_of_dvd_pow (hpdvd.trans (hdvd.trans h))
  rcases hp.dvd_mul.mp hten with hp2 | hp5
  · obtain rfl := (Nat.prime_dvd_prime_iff_eq hp Nat.prime_two).mp hp2
    exact htwo hpdvd
  · obtain rfl := (Nat.prime_dvd_prime_iff_eq hp Nat.prime_five).mp hp5
    exact hfive hpdvd

/-- **A number terminates just when nothing is left of its denominator.** -/
theorem terminates_iff (q : ℚ) : Terminates q ↔ remainingPart q.den = 1 := by
  constructor
  · rintro ⟨k, n, h⟩
    refine remainingPart_of_dvd (k := k) ?_
    have hq : q = n / (10 ^ k : ℕ) := by
      rw [eq_div_iff (by positivity)]
      exact_mod_cast h
    have hden := Rat.den_dvd n ((10 ^ k : ℕ) : ℤ)
    rw [Rat.divInt_eq_div, Int.cast_natCast, ← hq] at hden
    exact Int.natCast_dvd_natCast.mp hden
  · intro h
    have hden := den_eq_powers h
    set i := powersTwo q.den
    set j := powersFive q.den
    refine ⟨max i j, q.num * (2 ^ (max i j - i) * 5 ^ (max i j - j) : ℕ), ?_⟩
    have hpower : 10 ^ max i j = q.den * (2 ^ (max i j - i) * 5 ^ (max i j - j)) := by
      show (2 * 5) ^ max i j = _
      rw [hden, mul_mul_mul_comm, ← pow_add, ← pow_add, Nat.add_sub_of_le (le_max_left i j),
        Nat.add_sub_of_le (le_max_right i j), ← mul_pow]
    have hcast : (10 : ℚ) ^ max i j = (10 ^ max i j : ℕ) := by
      push_cast
      rfl
    rw [hcast, hpower, Nat.cast_mul, ← mul_assoc, Rat.mul_den_eq_num]
    push_cast
    rfl

/-- Powers of two and five are determined by their product. -/
lemma powers_inj {a b i j : ℕ} (h : 2 ^ a * 5 ^ b = 2 ^ i * 5 ^ j) : a = i ∧ b = j := by
  have hcoprime : ∀ m n : ℕ, Nat.Coprime (2 ^ m) (5 ^ n) := fun m n =>
    Nat.Coprime.pow m n (by decide)
  have hdvd : ∀ {a b i j : ℕ}, 2 ^ a * 5 ^ b = 2 ^ i * 5 ^ j → a ≤ i ∧ b ≤ j := by
    intro a b i j h
    constructor
    · refine (Nat.pow_dvd_pow_iff_le_right (by decide)).mp ((hcoprime a j).dvd_of_dvd_mul_right ?_)
      rw [← h]
      exact Dvd.intro _ rfl
    · refine (Nat.pow_dvd_pow_iff_le_right (by decide)).mp
        ((hcoprime i b).symm.dvd_of_dvd_mul_left ?_)
      rw [← h]
      exact Dvd.intro_left _ rfl
  have hle := hdvd h
  have hge := hdvd h.symm
  omega

/-- The parts of an operand are those of the decimal, when its coefficient is readable. -/
lemma decimalParts_operand_iff [Interpreter] {x : Operand} {coefficient exponent : ℤ} :
    decimalParts x.number = .ok (coefficient, exponent) ↔
      x.Readable ∧ coefficient = x.coefficient ∧ exponent = x.exponent := by
  cases x with
  | int v => simp [Operand.number, decimalParts, Operand.Readable, Operand.coefficient,
      Operand.exponent, eq_comm]
  | decimal d =>
    simp only [Operand.number, decimalParts, bind_eq_ok, intOfDigits_eq_ok_iff, pure_eq_ok,
      Prod.mk.injEq, Operand.Readable, Operand.coefficient, Operand.exponent]
    constructor
    · rintro ⟨_, ⟨hlimit, rfl⟩, rfl, rfl⟩
      exact ⟨hlimit, rfl, rfl⟩
    · rintro ⟨hlimit, rfl, rfl⟩
      exact ⟨_, ⟨hlimit, rfl⟩, rfl, rfl⟩

/-- The value of an operand. -/
lemma value_operand (x : Operand) :
    x.number.value = x.coefficient * 10 ^ x.exponent := by
  cases x with
  | int v => simp [Operand.number, Number.value, Operand.coefficient, Operand.exponent]
  | decimal d =>
    show d.value = ((if d.sign then -(d.coefficient : ℤ) else d.coefficient : ℤ) : ℚ) *
      10 ^ d.exponent
    rw [Decimal.value]
    cases d.sign <;> simp

/-- The sum of two operands is returned just when these are readable and it fits. -/
lemma exists_add_iff [Interpreter] (left right : Operand) :
    (∃ d, exactDecimalAdd left.number right.number = .ok d) ↔ left.Readable ∧ right.Readable ∧
      Fits (left.number.value + right.number.value) (min left.exponent right.exponent) := by
  rw [value_operand left, value_operand right, ← scaled_sum, ← exists_decimalFromParts_iff]
  simp only [exactDecimalAdd, bind_eq_ok, Prod.exists, decimalParts_operand_iff]
  constructor
  · rintro ⟨d, _, _, ⟨hleft, rfl, rfl⟩, _, _, ⟨hright, rfl, rfl⟩, h⟩
    exact ⟨hleft, hright, d, h⟩
  · rintro ⟨hleft, hright, d, h⟩
    exact ⟨d, _, _, ⟨hleft, rfl, rfl⟩, _, _, ⟨hright, rfl, rfl⟩, h⟩

/-- The product of two operands is returned just when these are readable and it fits. -/
lemma exists_multiply_iff [Interpreter] (left right : Operand) :
    (∃ d, exactDecimalMultiply left.number right.number = .ok d) ↔
      left.Readable ∧ right.Readable ∧
        Fits (left.number.value * right.number.value) (left.exponent + right.exponent) := by
  rw [value_operand left, value_operand right, ← scaled_product, ← exists_decimalFromParts_iff]
  simp only [exactDecimalMultiply, bind_eq_ok, Prod.exists, decimalParts_operand_iff]
  constructor
  · rintro ⟨d, _, _, ⟨hleft, rfl, rfl⟩, _, _, ⟨hright, rfl, rfl⟩, h⟩
    exact ⟨hleft, hright, d, h⟩
  · rintro ⟨hleft, hright, d, h⟩
    exact ⟨d, _, _, ⟨hleft, rfl, rfl⟩, _, _, ⟨hright, rfl, rfl⟩, h⟩

/-- A quotient by a number other than zero is returned when it fits with the exponent of its
balanced denominator; none is returned just when it does not terminate. -/
lemma exists_divide [Interpreter] {left right : Number} (h : right.value ≠ 0)
    (hfits : ∀ a b : ℕ, (left.value / right.value).den = 2 ^ a * 5 ^ b →
      a = b ∧ Fits (left.value / right.value) (-a)) :
    ∃ r, exactDecimalDivide left right = .ok r ∧
      (r = none ↔ ¬ Terminates (left.value / right.value)) := by
  rw [terminates_iff]
  unfold exactDecimalDivide
  rw [raiseIf, if_neg h, ok_bind]
  set q := left.value / right.value
  by_cases hrest : remainingPart q.den = 1
  · have hden := den_eq_powers hrest
    obtain ⟨hbalanced, hfit⟩ := hfits _ _ hden
    have hvalue : (q.num : ℚ) / (2 ^ powersFive q.den * 5 ^ powersTwo q.den) = q := by
      conv_rhs => rw [← Rat.num_div_den q, hden]
      rw [hbalanced]
      push_cast
      rfl
    have hmade : ∃ d, decimalFromParts
        (q.num * 5 ^ (max (powersTwo q.den) (powersFive q.den) - powersTwo q.den) *
          2 ^ (max (powersTwo q.den) (powersFive q.den) - powersFive q.den))
        (-(max (powersTwo q.den : ℤ) (powersFive q.den))) = .ok d := by
      rw [exists_decimalFromParts_iff, scaled_coefficient, hvalue, ← hbalanced, max_self]
      exact hfit
    obtain ⟨d, hd⟩ := hmade
    refine ⟨some d, ?_, iff_of_false (fun h => by cases h) (not_not.mpr hrest)⟩
    simp only [hrest, ne_eq, not_true_eq_false, if_false]
    rw [Nat.cast_max, hd]
    rfl
  · exact ⟨none, if_pos hrest, iff_of_true rfl hrest⟩

/-- **When operations are exact**: when the operands are readable, the sum, the product and the
quotient fit, and the denominator of the quotient is not a product of different powers of two and
five. -/
theorem arithmeticExact_iff [Interpreter] (left right : Operand) : ArithmeticExact left right ↔
    left.Readable ∧ right.Readable ∧
      Fits (left.number.value + right.number.value) (min left.exponent right.exponent) ∧
      Fits (left.number.value * right.number.value) (left.exponent + right.exponent) ∧
      ∀ a b : ℕ, (left.number.value / right.number.value).den = 2 ^ a * 5 ^ b →
        a = b ∧ Fits (left.number.value / right.number.value) (-a) := by
  constructor
  · intro h
    obtain ⟨sum, hsum, -⟩ := h.add
    obtain ⟨product, hproduct, -⟩ := h.multiply
    obtain ⟨hleft, hright, hsumFits⟩ := (exists_add_iff left right).mp ⟨sum, hsum⟩
    obtain ⟨-, -, hproductFits⟩ := (exists_multiply_iff left right).mp ⟨product, hproduct⟩
    refine ⟨hleft, hright, hsumFits, hproductFits, fun a b hden => ?_⟩
    set q := left.number.value / right.number.value with hq
    have hterminates : remainingPart q.den = 1 := by
      refine remainingPart_of_dvd (k := max a b) ?_
      rw [hden, show (10 : ℕ) = 2 * 5 from rfl, mul_pow]
      exact Nat.mul_dvd_mul (pow_dvd_pow 2 (le_max_left a b)) (pow_dvd_pow 5 (le_max_right a b))
    by_cases hzero : right.number.value = 0
    · -- the quotient by zero is zero here, and its denominator is one
      have hqzero : q = 0 := by rw [hq, hzero, div_zero]
      have hone : q.den = 1 := by rw [hqzero]; rfl
      rw [hone] at hden
      obtain ⟨rfl, rfl⟩ := powers_inj (show 2 ^ 0 * 5 ^ 0 = 2 ^ a * 5 ^ b from hden)
      exact ⟨rfl, by rw [hqzero]; exact fits_zero⟩
    · obtain ⟨r, hr, hnone, hexact⟩ := h.divide hzero
      cases r with
      | none => exact absurd ((terminates_iff q).mpr hterminates) (hnone.mp rfl)
      | some d =>
        have hbalanced := (exactDecimalDivide_eq_iff hr).mp (hexact d rfl)
        obtain ⟨-, -, hfits, -⟩ := value_exactDecimalDivide hr
        rw [← hq] at hbalanced hfits
        obtain ⟨rfl, rfl⟩ := powers_inj (hden.symm.trans (den_eq_powers hterminates))
        refine ⟨hbalanced, ?_⟩
        rw [hexact d rfl, ← hq, ← hbalanced, max_self] at hfits
        exact hfits
  · rintro ⟨hleft, hright, hsumFits, hproductFits, hden⟩
    obtain ⟨sum, hsum⟩ := (exists_add_iff left right).mpr ⟨hleft, hright, hsumFits⟩
    obtain ⟨product, hproduct⟩ :=
      (exists_multiply_iff left right).mpr ⟨hleft, hright, hproductFits⟩
    refine ⟨⟨sum, hsum, value_exactDecimalAdd hsum⟩,
      ⟨product, hproduct, value_exactDecimalMultiply hproduct⟩, fun hzero => ?_⟩
    obtain ⟨r, hr, hnone⟩ := exists_divide hzero hden
    refine ⟨r, hr, hnone, fun d hd => ?_⟩
    rw [Option.mem_def] at hd
    subst hd
    have hterminates := not_not.mp (hnone.not.mp (by simp))
    refine (exactDecimalDivide_eq_iff hr).mpr ?_
    exact (hden _ _ (den_eq_powers ((terminates_iff _).mp hterminates))).1

/-- **Exact scalars.**  Literals are lowered exactly and the operations on decimals and integers
are exact just when the literal is no wide integer token for `pops::Real`, the coefficients of the
operands are readable, the sum, the product and a terminating quotient fit, and the reduced
denominator of the quotient is not a product of different powers of two and five. -/
theorem exact_scalars_iff [Interpreter] (l : Literal) (left right : Operand) :
    ((∀ e, l.toCpp = .ok e → Lowered l e) ∧ ArithmeticExact left right) ↔
      ¬ WideToken l ∧ left.Readable ∧ right.Readable ∧
        Fits (left.number.value + right.number.value) (min left.exponent right.exponent) ∧
        Fits (left.number.value * right.number.value) (left.exponent + right.exponent) ∧
        ∀ a b : ℕ, (left.number.value / right.number.value).den = 2 ^ a * 5 ^ b →
          a = b ∧ Fits (left.number.value / right.number.value) (-a) :=
  and_congr (lowered_iff l) (arithmeticExact_iff left right)

/-- The decimal `123456789012345678901234567890`. -/
def wideDecimal : Decimal := .mk false 123456789012345678901234567890 0

/-- The decimal `123456789012345678901234567890` is lowered to an integer token that does not fit,
the quotient of one and two is not exact, and with the limit that the interpreter starts with the
sum of the decimal `1E+5000` and one is not returned. -/
theorem exact_scalars_not :
    (¬ ∀ e, Literal.toCpp ⟨.decimal wideDecimal, none, none⟩ = .ok e →
      Lowered ⟨.decimal wideDecimal, none, none⟩ e) ∧
    ¬ ArithmeticExact (.int 1) (.int 2) ∧
    ¬ ArithmeticExact (.decimal (.mk false 1 5000)) (.int 1) := by
  refine ⟨fun h => ?_, fun h => ?_, fun h => ?_⟩
  · have hcpp : Literal.toCpp ⟨.decimal wideDecimal, none, none⟩ =
        .ok (.cast "pops::Real" (.decimal wideDecimal)) := by
      decide +kernel
    have hfits := (h _ hcpp).integers 123456789012345678901234567890 (by decide +kernel)
    exact absurd hfits (by decide)
  · obtain ⟨r, hr, -, hexact⟩ := h.divide (by decide +kernel)
    have htenth : exactDecimalDivide (.int 1) (.int 2) = .ok (some (.mk false 2 (-1))) := by
      decide +kernel
    obtain rfl := Except.ok.inj (htenth.symm.trans hr)
    exact absurd (hexact _ rfl) (by decide +kernel)
  · obtain ⟨d, hd, -⟩ := h.add
    have hlimit := ((exists_add_iff _ _).mp ⟨d, hd⟩).2.2.limit (by decide)
    -- the sum has 5001 digits
    have hleft : (Operand.decimal (.mk false 1 5000)).number.value = 10 ^ 5000 := by
      show ((1 : ℕ) : ℚ) * 10 ^ (5000 : ℤ) = 10 ^ 5000
      rw [Nat.cast_one, one_mul]
      exact zpow_natCast _ _
    have hright : (Operand.int 1).number.value = 1 := by
      show ((1 : ℤ) : ℚ) = 1
      exact Int.cast_one
    have hbound : (10 : ℚ) ^ (4300 : ℕ) ≤ 10 ^ 5000 :=
      pow_le_pow_right₀ (by norm_num) (by norm_num)
    rw [hleft, hright, abs_of_pos (by positivity)] at hlimit
    have hlt : (10 : ℚ) ^ 5000 + 1 < 10 ^ (4300 : ℕ) := by
      rw [← zpow_natCast]
      exact hlimit
    exact lt_irrefl _ ((lt_add_one _).trans (hlt.trans_le hbound))

end Scalar

end Pops
