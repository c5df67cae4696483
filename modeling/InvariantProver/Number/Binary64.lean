import InvariantProver.Number.Fraction

namespace InvariantProver

open Text

inductive Binary64
  | finite (negative : Bool) (mantissa : Nat) (exponent : Int)
  | infinite (negative : Bool)
  | nan
  deriving DecidableEq

namespace Binary64

def leastExponent : Int := -1074

def greatestExponent : Int := 971

def zero (negative : Bool) : Binary64 := finite negative 0 leastExponent

def roundHalfEven (n d : Nat) : Nat :=
  let q := n / d
  let twice := 2 * (n % d)
  if twice < d then q else if d < twice then q + 1 else q + q % 2

def scaleDown (n d : Nat) : Int → Nat × Nat
  | .ofNat e => (n, d * Nat.pow 2 e)
  | .negSucc e => (n * Nat.pow 2 (e + 1), d)

/-- The exponent at which `n / d` has 53 binary digits before the point, but not below the least. -/
def exponentFor (n d : Nat) : Int :=
  let guess : Int := (n.log2 : Int) - d.log2 - 53
  let (n', d') := scaleDown n d guess
  let e := if n' < Nat.pow 2 53 * d' then guess else guess + 1
  max e leastExponent

def ofQuotient (negative : Bool) (n d : Nat) : Binary64 :=
  if n = 0 then zero negative
  else
    let e := exponentFor n d
    let (n', d') := scaleDown n d e
    let m := roundHalfEven n' d'
    let (m, e) := if m = Nat.pow 2 53 then (Nat.pow 2 52, e + 1) else (m, e)
    if greatestExponent < e then infinite negative else finite negative m e

def ofRat (q : Rat) : Binary64 := ofQuotient (q.num < 0) q.num.natAbs q.den

def toRat? : Binary64 → Option Rat
  | finite negative m e =>
    let (n, d) := scaleDown m 1 (-e)
    some (mkRat (signed negative n) d)
  | _ => none

def isNegative : Binary64 → Bool
  | finite negative _ _ => negative
  | infinite negative => negative
  | nan => false

def add (x y : Binary64) : Binary64 :=
  match x, y with
  | nan, _ => nan
  | _, nan => nan
  | infinite a, infinite b => if a = b then infinite a else nan
  | infinite a, _ => infinite a
  | _, infinite b => infinite b
  | finite .., finite .. =>
    match x.toRat?, y.toRat? with
    | some p, some q =>
      if p + q = 0 then zero (x.isNegative && y.isNegative) else ofRat (p + q)
    | _, _ => nan

def isNonpositive : Binary64 → Bool
  | finite negative m _ => negative || m == 0
  | infinite negative => negative
  | nan => false

/-- Decimals so long or so small that rounding them exactly would be a waste keep their sign only. -/
def ofDecimal (negative : Bool) (d : Decimal) : Binary64 :=
  let digits := d.digits
  if digits = 0 then zero negative
  else
    let magnitude : Int := (Nat.toDigits 10 digits).length + d.scale
    if 400 < magnitude then infinite negative
    else if magnitude < -400 then zero negative
    else
      let q := d.toRat
      ofQuotient negative q.num.natAbs q.den

def special? (negative : Bool) (cs : List Char) : Option Binary64 :=
  let word := cs.map Char.toLower
  if word = "inf".toList ∨ word = "infinity".toList then some (infinite negative)
  else if word = "nan".toList then some nan
  else none

def read? (cs : List Char) : Option Binary64 :=
  let (negative, body) := takeSign (trim cs)
  match Decimal.take? body with
  | some (d, []) => some (ofDecimal negative d)
  | some _ => none
  | none => special? negative body

end Binary64

end InvariantProver
