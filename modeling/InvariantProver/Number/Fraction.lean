import InvariantProver.Text.Numeral
import InvariantProver.Text.Quoted

namespace InvariantProver

open Text

structure Decimal where
  whole : List Nat
  places : List Nat
  exponent : Int

namespace Decimal

def digits (d : Decimal) : Nat := digitsValue (d.whole ++ d.places)

def scale (d : Decimal) : Int := d.exponent - d.places.length

def toRat (d : Decimal) : Rat :=
  match d.scale with
  | .ofNat e => ((d.digits * Nat.pow 10 e : Nat) : Int)
  | .negSucc e => mkRat d.digits (Nat.pow 10 (e + 1))

def takePlaces : List Char → List Nat × List Char
  | '.' :: cs => takeDigits cs
  | cs => ([], cs)

/-- The exponent at the front of a text. A mark without digits after it is left in place. -/
def takeExponent (cs : List Char) : Int × List Char :=
  match cs with
  | [] => (0, [])
  | c :: rest =>
    if c = 'e' ∨ c = 'E' then
      let (negative, body) := takeSign rest
      match takeDigits body with
      | ([], _) => (0, cs)
      | (ds, r) => (signed negative (digitsValue ds), r)
    else (0, cs)

def take? (cs : List Char) : Option (Decimal × List Char) :=
  let (whole, r) := takeDigits cs
  let (places, r) := takePlaces r
  if whole.isEmpty && places.isEmpty then none
  else
    let (exponent, r) := takeExponent r
    some (⟨whole, places, exponent⟩, r)

end Decimal

inductive FractionError
  | malformed (text : String)
  | zeroDenominator (numerator : Int)
  deriving DecidableEq

def FractionError.message : FractionError → String
  | malformed text => "Invalid literal for Fraction: " ++ quoted text
  | zeroDenominator n => "Fraction(" ++ intText n ++ ", 0)"

namespace Fraction

def quotient? (cs : List Char) : Option (Nat × Nat) :=
  match takeDigits cs with
  | ([], _) => none
  | (ns, '/' :: r) =>
    match takeDigits r with
    | ([], _) => none
    | (ds, []) => some (digitsValue ns, digitsValue ds)
    | _ => none
  | _ => none

def read (text : String) : Except FractionError Rat :=
  let (negative, body) := takeSign (trim text.toList)
  match quotient? body with
  | some (n, 0) => .error (.zeroDenominator (signed negative n))
  | some (n, d) => .ok (mkRat (signed negative n) d)
  | none =>
    match Decimal.take? body with
    | some (d, []) => .ok (if negative then -d.toRat else d.toRat)
    | _ => .error (.malformed text)

/-- A quotient by zero is reported with the sign of the dividend for its numerator. -/
def divide (a b : Rat) : Except FractionError Rat :=
  if b = 0 then .error (.zeroDenominator a.num.sign) else .ok (a / b)

end Fraction

end InvariantProver
