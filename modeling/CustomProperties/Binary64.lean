import CustomProperties.Text.Basic

/-! # Binary floating-point numbers

Numbers of double precision, read from decimals by rounding to the nearest one and written with
the fewest digits that read back. All arithmetic is on natural numbers.
-/

namespace CustomProperties

/-- A finite number is a multiple of a power of two; zero has a sign. -/
inductive Binary64
  | nan
  | infinite (negative : Bool)
  | finite (negative : Bool) (mantissa : Nat) (exponent : Int)
  deriving DecidableEq, Repr

namespace Binary64

def twoTo (n : Nat) : Nat := Nat.pow 2 n

def tenTo (n : Nat) : Nat := Nat.pow 10 n

/-- The least exponent. -/
def minExponent : Int := -1074

/-- The quotient rounded to the nearest integer, and a half to the even one. -/
def roundDiv (num den : Nat) : Nat :=
  let q := num / den
  let r := num % den
  if 2 * r < den ∨ (2 * r = den ∧ q % 2 = 0) then q else q + 1

/-- The number nearest to a positive quotient. -/
def ofRatio (negative : Bool) (num den : Nat) : Binary64 :=
  let k : Int := num.log2 - den.log2
  let below : Bool := num * twoTo (-k).toNat < den * twoTo k.toNat
  let e : Int := max (k - (if below then 1 else 0) - 52) minExponent
  let m := roundDiv (num * twoTo (-e).toNat) (den * twoTo e.toNat)
  let (m, e) := if m = twoTo 53 then (twoTo 52, e + 1) else (m, e)
  if e > 971 then infinite negative else finite negative m e

/-- The number nearest to `digits * 10 ^ exponent`. -/
def ofDecimal (negative : Bool) (digits : Nat) (exponent : Int) : Binary64 :=
  let magnitude : Int := (Text.ofNat digits).length + exponent
  if digits = 0 ∨ magnitude < -400 then finite negative 0 minExponent
  else if magnitude > 400 then infinite negative
  else ofRatio negative (digits * tenTo exponent.toNat) (tenTo (-exponent).toNat)

/-- The integer that a number is, if it is one. -/
def toInt? : Binary64 → Option Int
  | finite negative mantissa exponent =>
    let num := mantissa * twoTo exponent.toNat
    let den := twoTo (-exponent).toNat
    if num % den = 0 then
      some (if negative then -((num / den : Nat) : Int) else (num / den : Nat))
    else none
  | _ => none

/-- A decimal `digits * 10 ^ exponent`. -/
structure Decimal where
  digits : Nat
  exponent : Int
  deriving DecidableEq, Repr

/-- The scale at which every number and every half gap between neighbours is an integer. -/
def scale : Nat := 1076

/-- The decimal of at most `count` digits that reads back as the number `value`, of which all that
lies from `low` to `high` does (without the ends unless `closed`). All are multiples of
`10 ^ -scale`. -/
def decimalOf? (value low high : Nat) (closed : Bool) (count : Nat) : Option Decimal :=
  let unit := tenTo ((Text.ofNat value).length - count)
  let exponent : Int := (Text.ofNat value).length - count - scale
  let down := value / unit
  let up := down + 1
  let reads (n : Nat) : Bool :=
    if closed then low ≤ n * unit && n * unit ≤ high else low < n * unit && n * unit < high
  let downNearer : Bool :=
    2 * (value % unit) < unit || (2 * (value % unit) == unit && down % 2 == 0)
  if reads down && (downNearer || !reads up) then some ⟨down, exponent⟩
  else if reads up then some ⟨up, exponent⟩
  else none

/-- The shortest decimal that reads back as a positive number. -/
def shortest (mantissa : Nat) (exponent : Int) : Decimal :=
  let unit := twoTo exponent.toNat * tenTo scale / twoTo (-exponent).toNat
  let value := mantissa * unit
  let lowerGap := if mantissa = twoTo 52 ∧ exponent > minExponent then unit / 4 else unit / 2
  let reads := decimalOf? value (value - lowerGap) (value + unit / 2) (mantissa % 2 == 0)
  ((List.range 17).findSome? fun n => reads (n + 1)).getD ⟨value, -scale⟩

/-- Trailing zeros add nothing to a row of digits. -/
def dropZeros (digits : Text) : Text := (digits.reverse.dropWhile (· == '0')).reverse

/-- Digits in positional notation, with a point and a digit on both sides of it; `point` digits
stand before the point. -/
def positional (digits : Text) (point : Int) : Text :=
  if point ≤ 0 then "0." ++ List.replicate (-point).toNat '0' ++ digits
  else
    let point := point.toNat
    let fraction := digits.drop point
    digits.take point ++ List.replicate (point - digits.length) '0' ++ ['.'] ++
      (if fraction.isEmpty then ['0'] else fraction)

/-- Digits with one before the point and an exponent of at least two digits. -/
def scientific (digits : Text) (exponent : Int) : Text :=
  let fraction := digits.drop 1
  let size := Text.ofNat exponent.natAbs
  digits.take 1 ++ (if fraction.isEmpty then [] else '.' :: fraction) ++
    ['e', if exponent < 0 then '-' else '+'] ++ List.replicate (2 - size.length) '0' ++ size

/-- Exponents below -4 and from 16 on are written out. -/
def Decimal.write (d : Decimal) : Text :=
  let digits := Text.ofNat d.digits
  let point : Int := digits.length + d.exponent
  if -4 < point ∧ point ≤ 16 then positional (dropZeros digits) point
  else scientific (dropZeros digits) (point - 1)

def signed (negative : Bool) (t : Text) : Text := if negative then '-' :: t else t

def write : Binary64 → Text
  | nan => "nan"
  | infinite negative => signed negative "inf"
  | finite negative 0 _ => signed negative "0.0"
  | finite negative mantissa exponent => signed negative (shortest mantissa exponent).write

end Binary64

end CustomProperties
