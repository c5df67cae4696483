import InvariantProver.Number.Binary64

/-!
Double-precision numbers as decimal texts: the shortest one that reads back as the same number, and
the one with two places. A grid is the set of multiples of a power of ten; the shortest text comes
from the coarsest grid with a point in the interval of the reals that round to the number.
-/

namespace InvariantProver.Binary64

open Text

def power (base : Nat) : Int → Nat × Nat
  | .ofNat e => (Nat.pow base e, 1)
  | .negSucc e => (1, Nat.pow base (e + 1))

/-- The interval of reals that round to a number, in quarters of its last binary place. -/
structure Interval where
  low : Nat
  middle : Nat
  high : Nat
  closed : Bool

/-- Below a power of two the neighbours are half as far apart as above it. -/
def interval (m : Nat) (e : Int) : Interval where
  low := if m = Nat.pow 2 52 ∧ leastExponent < e then 4 * m - 1 else 4 * m - 2
  middle := 4 * m
  high := 4 * m + 2
  closed := m % 2 = 0

def Interval.contains (i : Interval) (quarters point : Nat → Nat) (c : Nat) : Bool :=
  if i.closed then quarters i.low ≤ point c && point c ≤ quarters i.high
  else quarters i.low < point c && point c < quarters i.high

def nearest? (m : Nat) (e k : Int) : Option Nat :=
  let i := interval m e
  let (binary, binary') := power 2 (e - 2)
  let (decimal, decimal') := power 10 k
  let quarters (n : Nat) := n * binary * decimal'
  let point (c : Nat) := c * decimal * binary'
  let value := quarters i.middle
  let below := value / (decimal * binary')
  let above := below + 1
  match i.contains quarters point below, i.contains quarters point above with
  | true, false => some below
  | false, true => some above
  | false, false => none
  | true, true =>
    let down := value - point below
    let up := point above - value
    if down < up ∨ (down = up ∧ below % 2 = 0) then some below else some above

/-- The count of digits before the point of `m * 2 ^ e`, negative for zeros after the point. -/
def magnitude (m : Nat) (e : Int) : Int :=
  let (binary, binary') := power 2 e
  let n := m * binary
  let guess : Int := (Nat.toDigits 10 n).length - (Nat.toDigits 10 binary').length
  let (decimal, decimal') := power 10 guess
  if n * decimal' < decimal * binary' then guess else guess + 1

/-- The digits of the shortest decimal, without zeros at the end, and the place of its point. -/
def shortest (m : Nat) (e : Int) : List Char × Int :=
  let top := magnitude m e
  let exponent (i : Nat) : Int := top - (i + 1 : Nat)
  let found := (List.range 17).findSome? fun i => (nearest? m e (exponent i)).map (·, exponent i)
  let (c, k) := found.getD (m, e)
  let digits := Nat.toDigits 10 c
  ((digits.reverse.dropWhile (· = '0')).reverse, digits.length + k)

def zeros (n : Int) : List Char := List.replicate n.toNat '0'

def positional (digits : List Char) (point : Int) : List Char :=
  if point ≤ 0 then '0' :: '.' :: zeros (-point) ++ digits
  else if digits.length ≤ point then digits ++ zeros (point - digits.length) ++ ['.', '0']
  else digits.take point.toNat ++ '.' :: digits.drop point.toNat

def scientific (digits : List Char) (point : Int) : List Char :=
  let mantissa := match digits with
    | d :: e :: rest => d :: '.' :: e :: rest
    | short => short
  let exponent := Nat.toDigits 10 (point - 1).natAbs
  let padded := if exponent.length < 2 then '0' :: exponent else exponent
  mantissa ++ 'e' :: (if point < 1 then '-' else '+') :: padded

def magnitudeText (m : Nat) (e : Int) : List Char :=
  if m = 0 then ['0', '.', '0']
  else
    let (digits, point) := shortest m e
    if -4 < point ∧ point ≤ 16 then positional digits point else scientific digits point

def withSign (negative : Bool) (s : String) : String := if negative then "-" ++ s else s

/-- The shortest text that reads back. Numbers from `10⁻⁴` up to `10¹⁶` have no exponent. -/
def text : Binary64 → String
  | finite negative m e => withSign negative (String.ofList (magnitudeText m e))
  | infinite negative => withSign negative "inf"
  | nan => "nan"

def fixedText : Binary64 → String
  | finite negative m e =>
    let (n, d) := scaleDown (100 * m) 1 (-e)
    let cents := roundHalfEven n d
    let places := Nat.toDigits 10 (100 + cents % 100)
    withSign negative (natText (cents / 100) ++ "." ++ String.ofList (places.drop 1))
  | infinite negative => withSign negative "inf"
  | nan => "nan"

end InvariantProver.Binary64
