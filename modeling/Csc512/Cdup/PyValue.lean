import Csc512.Cdup.ExprParser
import Csc512.Lib.Double

/-!
# Values of the interpreter

The values that slots, heap cells and expressions have when a program runs, the errors that a run
can end with, and the texts of numbers, both ways. The values are those of the language in which
the interpreter is written: unbounded integers, doubles, strings, and lists. A list is a reference,
so a value holds its place in a store of lists.
-/

namespace Csc512

/-- Values. -/
inductive Value where
  | none
  | int (n : ℤ)
  | float (x : Double)
  | str (s : Text)
  | list (ref : ℕ)
deriving DecidableEq, Repr

/-- The classes of errors. -/
inductive ErrorType where
  | nameError | keyError | valueError | typeError | indexError | runtimeError | overflowError
  | zeroDivisionError | notImplementedError | stopIteration | recursionError
deriving DecidableEq, Repr

/-- An error. Those that the language itself raises have no message here. -/
structure PyError where
  type : ErrorType
  message : Text := []
deriving DecidableEq, Repr

/-! ### Texts of numbers -/

/-- The decimal digits of an integer. -/
def intText (n : ℤ) : Text := (if n < 0 then ['-'] else []) ++ natText n.natAbs

/-- The hexadecimal digits of an integer. -/
def intHexText (n : ℤ) : Text := (if n < 0 then ['-'] else []) ++ Nat.toDigits 16 n.natAbs

/-- The text of a number with six decimal places. -/
def fixedText (x : Double) : Text :=
  let sign := if x.isNeg then ['-'] else []
  match x with
  | .nan => lit "nan"
  | .inf _ => sign ++ lit "inf"
  | x =>
    let scaled := (roundHalfEven (|x.value?.getD 0| * 1000000)).natAbs
    let places := natText (scaled % 1000000)
    sign ++ natText (scaled / 1000000) ++ '.' :: List.replicate (6 - places.length) '0' ++ places

/-- The power `10 ^ k`. -/
def powTen (k : ℤ) : ℚ := if 0 ≤ k then ((10 ^ k.toNat : ℕ) : ℚ) else mkRat 1 (10 ^ (-k).toNat)

/-- The exponent of the first decimal digit of a positive rational. -/
def firstPlace (q : ℚ) : ℤ :=
  let k := ((natText q.num.natAbs).length : ℤ) - (natText q.den).length
  if powTen k ≤ q then k else k - 1

/-- The number of `n` decimal digits that is closest to a positive rational among those that round
to the same double, with the exponent of its last digit. -/
def decimalOf? (q : ℚ) (n : ℕ) : Option (ℕ × ℤ) :=
  let place := firstPlace q - n + 1
  let below := ⌊q / powTen place⌋
  let nearest := roundHalfEven (q / powTen place)
  let other := if nearest = below then below + 1 else below
  ([nearest, other].find? fun d : ℤ => Double.round (d * powTen place) = .rat q).map
    fun d => (d.natAbs, place)

/-- The shortest text that writes a number. -/
def floatText (x : Double) : Text :=
  let sign := if x.isNeg then ['-'] else []
  match x with
  | .nan => lit "nan"
  | .inf _ => sign ++ lit "inf"
  | x =>
    let q := |x.value?.getD 0|
    if q = 0 then sign ++ lit "0.0"
    else
      let (d, place) := ((List.range' 1 17).findSome? (decimalOf? q)).getD (0, 0)
      let digits := rstripChar '0' (natText d)
      let point : ℤ := (natText d).length + place
      let exponent := natText (point - 1).natAbs
      if -4 < point ∧ point ≤ 0 then
        sign ++ lit "0." ++ List.replicate point.natAbs '0' ++ digits
      else if 0 < point ∧ point ≤ 16 then
        let whole := digits.take point.natAbs
        let rest := digits.drop point.natAbs
        sign ++ whole ++ List.replicate (point.natAbs - whole.length) '0' ++ '.' ::
          (if rest = [] then ['0'] else rest)
      else
        sign ++ digits.take 1 ++ (if digits.length = 1 then [] else '.' :: digits.drop 1) ++
          lit "e" ++ (if point - 1 < 0 then ['-'] else ['+']) ++
          List.replicate (2 - exponent.length) '0' ++ exponent

/-- The text that writes a string. -/
def quoteText (s : Text) : Text :=
  let quote := if '\'' ∈ s ∧ '"' ∉ s then '"' else '\''
  let escape := fun c : Char =>
    if c = '\\' ∨ c = quote then ['\\', c]
    else if c = '\n' then lit "\\n"
    else if c = '\t' then lit "\\t"
    else if c = '\r' then lit "\\r"
    else [c]
  quote :: s.flatMap escape ++ [quote]

/-- The text that writes a value. Lists are written out; `fuel` bounds how deep. -/
def reprText (lists : List (List Value)) : ℕ → Value → Text
  | _, .none => lit "None"
  | _, .int n => intText n
  | _, .float x => floatText x
  | _, .str s => quoteText s
  | 0, .list _ => lit "[...]"
  | fuel + 1, .list ref =>
    '[' :: List.intercalate (lit ", ") ((lists.getD ref []).map (reprText lists fuel)) ++ [']']

/-- The text of a value. -/
def valueText (lists : List (List Value)) : Value → Text
  | .str s => s
  | v => reprText lists (lists.length + 1) v

/-! ### Numbers in texts -/

variable (U : CharTable)

/-- A sign and what follows it. -/
def splitSign (s : Text) : Bool × Text :=
  match s with
  | '-' :: s => (true, s)
  | '+' :: s => (false, s)
  | s => (false, s)

/-- Digits with single underscores between them. -/
def dropUnderscores (s : Text) : Option Text :=
  let groups := s.splitOn '_'
  if groups.any List.isEmpty then none else some groups.flatten

/-- The integer that a text of decimal digits writes. -/
def decimalInt (s : Text) : Option ℤ :=
  let (neg, body) := splitSign (strip s)
  ((dropUnderscores body).bind (intBaseTen U)).map fun n => if neg then -n else n

/-- The integer that a text writes with its base in front. -/
def prefixedInt (s : Text) : Option ℤ :=
  let (neg, body) := splitSign (strip s)
  let based := fun (base : ℕ) (digits : Text) =>
    (dropUnderscores (match digits with
      | '_' :: digits => digits
      | digits => digits)).bind (ofDigits base)
  let n := match asciiDigits U body with
    | '0' :: x :: digits =>
      if x = 'x' ∨ x = 'X' then based 16 digits
      else if x = 'o' ∨ x = 'O' then based 8 digits
      else if x = 'b' ∨ x = 'B' then based 2 digits
      else ((dropUnderscores ('0' :: x :: digits)).bind (ofDigits 10)).filter (· = 0)
    | digits => (dropUnderscores digits).bind (ofDigits 10)
  n.map fun n => if neg then -n else n

/-- The number that a text writes, rounded. -/
def floatOfText (s : Text) : Option Double :=
  let (neg, body) := splitSign (strip s)
  let signed := fun x : Double => if neg then x.neg else x
  let lower := body.map Char.toLower
  if lower = lit "inf" ∨ lower = lit "infinity" then some (signed (.inf false))
  else if lower = lit "nan" then some .nan
  else
    let isExp := fun c => c = 'e' || c = 'E'
    let mantissa := body.takeWhile fun c => !isExp c
    let places := (mantissa.dropWhile (· ≠ '.')).drop 1
    let digits := fun t : Text =>
      if t = [] then some [] else (dropUnderscores t).filter fun t => t.all U.isDecimal
    let exponent := if body.any isExp then decimalInt U (body.drop (mantissa.length + 1)) else some 0
    (digits (mantissa.takeWhile (· ≠ '.'))).bind fun whole =>
    (digits places).bind fun places =>
    exponent.bind fun e =>
    (intBaseTen U (whole ++ places)).map fun n =>
      signed (Double.round ((n : ℚ) * powTen (e - places.length)))

/-! ### Tests -/

example : [Double.round (1 / 10), .rat 100, .round (1 / 100000), .round (10 ^ 22)].map floatText
    = [lit "0.1", lit "100.0", lit "1e-05", lit "1e+22"] := by decide +kernel

example : floatOfText .ascii (lit " -2.5e-1 ") = some (.rat (-1 / 4)) ∧
    prefixedInt .ascii (lit "0x1_F") = some 31 ∧ fixedText (.rat (5 / 2)) = lit "2.500000" := by
  decide +kernel

end Csc512
