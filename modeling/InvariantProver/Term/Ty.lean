import InvariantProver.Text.Blank

namespace InvariantProver

inductive Ty
  | bool
  | int
  | rat
  deriving DecidableEq

namespace Ty

def text : Ty → String
  | bool => "bool"
  | int => "int"
  | rat => "rat"

def rank : Ty → Nat
  | bool => 0
  | int => 1
  | rat => 2

def sortName : Ty → String
  | bool => "Bool"
  | int => "Int"
  | rat => "Real"

def isArith (t : Ty) : Bool := t ≠ bool

/-- The type that a script names. Blanks around the name and the case of its letters do not count. -/
def ofName? (name : String) : Option Ty :=
  match String.ofList ((Text.trim name.toList).map Char.toLower) with
  | "bool" => some bool
  | "int" => some int
  | "rat" => some rat
  | "real" => some rat
  | _ => none

def unknownMessage (name : String) : String := "unknown type '" ++ name ++ "'"

theorem ofName?_text (t : Ty) : ofName? t.text = some t := by
  cases t <;> decide

end Ty

end InvariantProver
