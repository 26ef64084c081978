import Mathlib.Algebra.Order.Ring.Nat
import Mathlib.Tactic.Common

/-!
Integers as text, in the format specifications of Python and of C.

Python's specification is parsed into its parts whatever they are; only the
last one, the type, is looked up in a table that depends on what is formatted.
So a letter no integer has is found out by the integer, after a parse that
succeeded. Separators, single characters and the types that convert to a
floating-point number first are a parameter, `other`. Of C there is the
conversion of an unsigned number, padded with zeros.
-/

namespace IntFormat

inductive FormatError
  | invalidSpecifier
  | commaAndUnderscore
  | groupingNotAllowed (c : Char)
  | missingPrecision
  | precisionNotAllowed
  /-- `Unknown format code` -/
  | unknownCode (c : Char)
  deriving DecidableEq

/-- A format specification, taken apart. -/
structure FormatSpec where
  fill : Char
  align : Char
  sign : Char
  alternate : Bool
  width : ℕ
  grouping : Option Char
  precision : Option ℕ
  type : Char
  deriving DecidableEq

def isAlign (c : Char) : Bool := c = '<' || c = '>' || c = '=' || c = '^'

def isSign (c : Char) : Bool := c = ' ' || c = '+' || c = '-'

/-- A fill character and an alignment, an alignment alone, or neither. -/
def parseAlign : List Char → Option Char × Option Char × List Char
  | f :: a :: cs =>
      if isAlign a then (some f, some a, cs)
      else if isAlign f then (none, some f, a :: cs)
      else (none, none, f :: a :: cs)
  | [a] => if isAlign a then (none, some a, []) else (none, none, [a])
  | [] => (none, none, [])

def parseOne (want : Char → Bool) : List Char → Option Char × List Char
  | c :: cs => if want c then (some c, cs) else (none, c :: cs)
  | [] => (none, [])

def parseNumber (cs : List Char) : Option ℕ × List Char :=
  let digits := cs.takeWhile Char.isDigit
  (if digits = [] then none else some (Nat.ofDigitChars 10 digits 0), cs.dropWhile Char.isDigit)

/-- A comma or an underscore, not both. A separator that comes twice is left to
what follows. -/
def parseGrouping (cs : List Char) : Except FormatError (Option Char × List Char) :=
  let (comma, cs) := parseOne (fun c => c = ',') cs
  let (underscore, cs) := parseOne (fun c => c = '_') cs
  if underscore.isSome && (comma.isSome || cs.head? = some ',') then .error .commaAndUnderscore
  else .ok (comma.or underscore, cs)

def parsePrecision (cs : List Char) : Except FormatError (Option ℕ × List Char) :=
  match cs with
  | '.' :: cs =>
      match parseNumber cs with
      | (none, _) => .error .missingPrecision
      | (some n, cs) => .ok (some n, cs)
  | cs => .ok (none, cs)

/-- Separators go with decimal numbers, underscores with the other bases too. -/
def groupingAllowed (sep type : Char) : Bool :=
  type ∈ ['d', 'e', 'f', 'g', 'E', 'G', '%', 'F'] ||
    (sep = '_' && type ∈ ['b', 'o', 'x', 'X'])

/-- `parse_internal_render_format_spec`, with the defaults of an integer: type
`d`, aligned to the right. -/
def parse (spec : List Char) : Except FormatError FormatSpec := do
  let (fill, align, cs) := parseAlign spec
  let (sign, cs) := parseOne isSign cs
  let (alternate, cs) := parseOne (fun c => c = '#') cs
  -- a zero in front of the width fills with zeros, after the sign
  let (zero, cs) := if fill.isNone then parseOne (fun c => c = '0') cs else (none, cs)
  let (width, cs) := parseNumber cs
  let (grouping, cs) ← parseGrouping cs
  let (precision, cs) ← parsePrecision cs
  let type ← match cs with
    | [] => .ok 'd'
    | [c] => .ok c
    | _ => .error .invalidSpecifier
  if grouping.any fun sep => !groupingAllowed sep type then
    .error (.groupingNotAllowed type)
  return {
    fill := (fill.or zero).getD ' '
    align := align.getD (if zero.isSome then '=' else '>')
    sign := sign.getD '-'
    alternate := alternate.isSome
    width := width.getD 0
    grouping := grouping
    precision := precision
    type := type }

/-- The integer types, with the base of each and what `#` puts before it. -/
def integerType : Char → Option (ℕ × List Char)
  | 'd' | 'n' => some (10, [])
  | 'b' => some (2, ['0', 'b'])
  | 'o' => some (8, ['0', 'o'])
  | 'x' => some (16, ['0', 'x'])
  | 'X' => some (16, ['0', 'X'])
  | _ => none

/-- The types an integer has besides: a character, and those of a float. -/
def isOtherType (c : Char) : Bool :=
  c ∈ ['c', 'e', 'E', 'f', 'F', 'g', 'G', '%']

def signOf (f : FormatSpec) (n : ℤ) : List Char :=
  if n < 0 then ['-'] else if f.sign = '-' then [] else [f.sign]

def pad (f : FormatSpec) (lead digits : List Char) : List Char :=
  let missing := f.width - (lead.length + digits.length)
  match f.align with
  | '<' => lead ++ digits ++ List.replicate missing f.fill
  | '=' => lead ++ List.replicate missing f.fill ++ digits
  | '^' => List.replicate (missing / 2) f.fill ++ (lead ++ digits) ++
      List.replicate (missing - missing / 2) f.fill
  | _ => List.replicate missing f.fill ++ (lead ++ digits)

/-- `int.__format__(n, spec)` -/
def format (other : FormatSpec → ℤ → Except FormatError (List Char)) (spec : List Char) (n : ℤ) :
    Except FormatError (List Char) := do
  let f ← parse spec
  match integerType f.type with
  | some (base, mark) =>
      if f.precision.isSome then .error .precisionNotAllowed
      else if f.grouping.isSome then other f n
      else
        let digits := Nat.toDigits base n.natAbs
        return pad f (signOf f n ++ if f.alternate then mark else [])
          (if f.type = 'X' then digits.map Char.toUpper else digits)
  | none => if isOtherType f.type then other f n else .error (.unknownCode f.type)

/-- `printf("%0<width>u", n)` -/
def printfUnsigned (width n : ℕ) : List Char :=
  let digits := Nat.toDigits 10 n
  List.replicate (width - digits.length) '0' ++ digits

section Lemmas

variable {other : FormatSpec → ℤ → Except FormatError (List Char)} {spec : List Char}
  {f : FormatSpec} {n : ℤ}

/-- A letter that is no type of an integer. -/
theorem format_unknownCode (hspec : parse spec = .ok f) (htype : integerType f.type = none)
    (hother : isOtherType f.type = false) :
    format other spec n = .error (.unknownCode f.type) := by
  unfold format
  rw [hspec]
  show (match integerType f.type with
    | some (base, mark) => _
    | none => _) = _
  rw [htype]
  simp [hother]

/-- Zeros before the digits of a number that has no sign. -/
theorem format_decimal {width n : ℕ}
    (hspec : parse spec = .ok ⟨'0', '=', '-', false, width, none, none, 'd'⟩) :
    format other spec n = .ok (printfUnsigned width n) := by
  unfold format
  rw [hspec]
  show Except.ok (pad _ (signOf _ n ++ []) _) = _
  have hsign : signOf ⟨'0', '=', '-', false, width, none, none, 'd'⟩ n = [] := by
    simp [signOf]
  rw [hsign]
  simp [pad, printfUnsigned]

theorem ofDigitChars_printfUnsigned (width n : ℕ) :
    Nat.ofDigitChars 10 (printfUnsigned width n) 0 = n := by
  rw [printfUnsigned, Nat.ofDigitChars_append, Nat.ofDigitChars_replicate_zero, Nat.mul_zero,
    Nat.ofDigitChars_ten_toDigits]

theorem printfUnsigned_injective (width : ℕ) : Function.Injective (printfUnsigned width) := by
  intro n n' h
  rw [← ofDigitChars_printfUnsigned width n, h, ofDigitChars_printfUnsigned]

end Lemmas

end IntFormat
