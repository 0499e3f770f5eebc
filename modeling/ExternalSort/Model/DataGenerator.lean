import ExternalSort.Model.Schema
import ExternalSort.Lib.DecimalText
import Mathlib.Data.List.DropRight

/-!
# The data generator

`data_generator.py` writes lines of comma separated fields for the same schema file that the
sorting programs read.  What `choice`, `uniform` and `gauss` return is an argument here
(`Draw`); everything the script computes from it is modelled.

A number drawn is an `int`, or a `float` rounded to two decimals.  The latter is the binary
number next to that decimal fraction, and `Decimal(value)` is exactly this number.  Which one it
is, is a parameter of the script (`toFloat`): `float64` is what Python computes, and `id` takes
the numbers drawn as exact decimal fractions.  Python 2 formats a `float` with twelve
significant digits, and `Decimal.quantize` works with at most 28 digits.
-/

set_option autoImplicit false

namespace ExternalSort.Model

open ExternalSort.Lib

/-- The exceptions that end the script. -/
inductive GeneratorError where
  | typeError
  | invalidOperation
  deriving DecidableEq, Repr

-- named, so that every index into the alphabet refers to one proof
/-- There are letters to draw from. -/
instance neZeroAlphabet : NeZero 36 := ⟨by decide⟩

/-- What the random functions return for one column: `choice(alphabet)` for every character
of a string, as an index, and the result of `uniform` or `gauss`.
SRCLINE: data_generator.py:43-45, data_generator.py:57 -/
structure Draw where
  letters : ℕ → Fin 36
  number : ℚ

/-- A number drawn for a column; a `float` is given by its exact value. -/
inductive Value where
  | int (n : ℤ)
  | float (x : ℚ)
  deriving DecidableEq, Repr

/-- The number itself. -/
def Value.toRat : Value → ℚ
  | .int n => n
  | .float x => x

/-- `int(x)` drops the fraction.
SRCLINE: data_generator.py:43 -/
def truncate (x : ℚ) : ℤ := if 0 ≤ x then ⌊x⌋ else ⌈x⌉

/-- `round(x, 2)`, in hundredths; a half is rounded away from zero.
SRCLINE: data_generator.py:45 -/
def roundHundredths (x : ℚ) : ℤ :=
  if 0 ≤ x then ⌊100 * x + 1 / 2⌋ else -⌊-(100 * x) + 1 / 2⌋

/-- The value of a column; `none` if the name of the distribution is neither `uniform` nor
`normal`.
SRCLINE: data_generator.py:41-45 -/
def drawValue (toFloat : ℚ → ℚ) (draw : Draw) : Distribution → Option Value
  | .uniform _ _ => some (.int (truncate draw.number))
  | .normal _ _ => some (.float (toFloat (roundHundredths draw.number / 100)))
  | .other => none

/-- The sign of a numeral. -/
def minus (x : ℚ) : List Byte := if x < 0 then [45] else []

/-- The power of ten of the first digit of a number. -/
def exponent (x : ℚ) : ℤ := Int.log 10 |x|

/-- The first twelve digits of a number, rounded half to even. -/
def twelveDigits (x : ℚ) : ℕ := (roundHalfEven (|x| / 10 ^ (exponent x - 11))).toNat

/-- The digits behind a point up to the last one that is not zero, but at least one. -/
def fraction (digits : List Byte) : List Byte :=
  let kept := digits.rdropWhile (· = digitByte 0)
  if kept = [] then [digitByte 0] else kept

/-- Scientific notation: the digits up to the last one that is not zero, with a point behind
the first, and the exponent.  It is used for exponents above ten only.  If rounding carried
into a thirteenth digit, the exponent is one more. -/
def scientific (x : ℚ) : List Byte :=
  let digits := decimalNat (twelveDigits x)
  let kept := digits.rdropWhile (· = digitByte 0)
  pointText (kept.take 1) (kept.drop 1) ++
    [101, 43] ++ decimalNat (exponent x + (digits.length - 12)).toNat

/-- `str(value)`: a `float` has twelve significant digits.  Below `1e+11` it is written with a
point and at least one digit behind it.  A value is not below one hundredth, so negative
exponents do not occur.
SRCLINE: data_generator.py:49, data_generator.py:51 -/
def Value.str : Value → List Byte
  | .int n => decimalInt n
  | .float x =>
      let places := 11 - exponent x
      minus x ++
        if (twelveDigits x : ℚ) / 10 ^ places < 10 ^ 11 then
          decimalNat (twelveDigits x / 10 ^ places.toNat) ++
            46 :: fraction (fixedDigits places.toNat (twelveDigits x))
        else scientific x

/-- `s.zfill(width)`: zeros go behind the sign.
SRCLINE: data_generator.py:49 -/
def zfill (s : List Byte) (width : ℤ) : List Byte :=
  let fill := List.replicate (width - s.length).toNat (digitByte 0)
  if s.head? = some 45 then 45 :: (fill ++ s.tail) else fill ++ s

/-- `str(Decimal(value).quantize(Decimal(format_str)))` for a format with `places` digits
behind the point: the exact value, rounded half to even.  The coefficient may not have more
than 28 digits.  A value is not below one hundredth, so scientific notation does not occur.
SRCLINE: data_generator.py:52-53 -/
def quantize (x : ℚ) (places : ℕ) : Except GeneratorError (List Byte) :=
  let coefficient := (roundHalfEven (|x| * 10 ^ places)).toNat
  if coefficient < 10 ^ 28 then
    .ok (minus x ++
      pointText (decimalNat (coefficient / 10 ^ places)) (fixedDigits places coefficient))
  else .error .invalidOperation

/-- The type that is written without a point. -/
def integerType : List Byte := [105, 110, 116, 101, 103, 101, 114]

/-- The field of a value that is not zero.
SRCLINE: data_generator.py:48-53 -/
def formatValue (type : Option (List Byte)) (length : ℤ) (value : Value) :
    Except GeneratorError (List Byte) :=
  if type = some integerType then .ok (zfill value.str length)
  else
    let digitsBeforePoint := (value.str.takeWhile (· ≠ 46)).length
    quantize value.toRat (length - digitsBeforePoint - 1).toNat

/-- `digits + ascii_lowercase`.
SRCLINE: data_generator.py:56 -/
def alphabet (i : Fin 36) : Byte :=
  if (i : ℕ) < 10 then digitByte i else Fin.ofNat 256 (97 + (i - 10))

/-- `record_data` of one column.  A value of zero is not written (`if value:`).
SRCLINE: data_generator.py:35-57 -/
def recordData (toFloat : ℚ → ℚ) (col : JsonAttribute) (draw : Draw) :
    Except GeneratorError (Option (List Byte)) :=
  match col.distribution with
  | some distribution =>
      match drawValue toFloat draw distribution with
      | none => .ok none
      | some value =>
          if value.toRat = 0 then .ok none
          else
            match col.length with
            | none => .error .typeError
            | some length => (formatValue col.type length.toInt value).map some
  | none =>
      match col.length with
      | none => .error .typeError
      | some length =>
          .ok (some ((List.range length.toInt.toNat).map fun i => alphabet (draw.letters i)))

/-- The fields of a record: `None` and empty strings are left out.
SRCLINE: data_generator.py:32-62 -/
def generateRecord (toFloat : ℚ → ℚ) :
    List JsonAttribute → (ℕ → Draw) → Except GeneratorError (List (List Byte))
  | [], _ => .ok []
  | col :: cols, draws => do
      let data ← recordData toFloat col (draws 0)
      let record ← generateRecord toFloat cols fun i => draws (i + 1)
      return (data.filter (· ≠ [])).toList ++ record

/-- The line of a record.
SRCLINE: data_generator.py:28-29 -/
def generateLine (toFloat : ℚ → ℚ) (schema : List JsonAttribute) (draws : ℕ → Draw) :
    Except GeneratorError (List Byte) := do
  let record ← generateRecord toFloat schema draws
  return List.intercalate [44] record ++ [10]

/-- What is in the output file at the end, and the exception that ended the script, if there
was one.  The lines written before it stay.
SRCLINE: data_generator.py:26-29 -/
def generateData (toFloat : ℚ → ℚ) (schema : List JsonAttribute) :
    ℕ → (ℕ → ℕ → Draw) → List Byte × Option GeneratorError
  | 0, _ => ([], none)
  | nrecords + 1, draws =>
      match generateLine toFloat schema (draws 0) with
      | .error e => ([], some e)
      | .ok line =>
          let (lines, e) := generateData toFloat schema nrecords fun i => draws (i + 1)
          (line ++ lines, e)

end ExternalSort.Model
