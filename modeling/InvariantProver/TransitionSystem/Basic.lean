import InvariantProver.Data.Entries
import InvariantProver.Term.Text
import InvariantProver.Text.Quoted

namespace InvariantProver

open Text

structure SystemData where
  «variables» : List Variable := []
  init : Term := Term.ofBool true
  trans : Term := Term.ofBool true
  properties : Entries String Term := []
  name : String := "system"

inductive Place
  | init
  | trans
  | property (name : String)
  deriving DecidableEq

def Place.text : Place → String
  | init => "init"
  | trans => "trans"
  | property name => "property '" ++ name ++ "'"

def Place.steps : Place → List Int
  | trans => [0, 1]
  | _ => [0]

inductive SystemError
  | notState (name : String)
  | declaredTwice (name : String)
  | notBool (place : Place) (got : Ty)
  | undeclared (place : Place) (name : String)
  | outside (place : Place) (r : Ref)
  deriving DecidableEq

def SystemError.message : SystemError → String
  | notState name => "variable '" ++ name ++ "' is not a state variable"
  | declaredTwice name => "state variable '" ++ name ++ "' declared twice"
  | notBool place got => place.text ++ " must be bool, got '" ++ got.text ++ "'"
  | undeclared place name => place.text ++ " references undeclared variable '" ++ name ++ "'"
  | outside place r =>
    place.text ++ " references '" ++ r.text ++ "' outside steps " ++ listing (place.steps.map intText)

namespace SystemData

def checkVariables (taken : List String) : List Variable → Except SystemError Unit
  | [] => .ok ()
  | v :: vs =>
    if v.role ≠ .state then .error (.notState v.name)
    else if v.name ∈ taken then .error (.declaredTwice v.name)
    else checkVariables (v.name :: taken) vs

def checkRef (vs : List Variable) (place : Place) (r : Ref) : Except SystemError Unit :=
  if r.var ∉ vs then .error (.undeclared place r.var.name)
  else if r.step ∉ place.steps then .error (.outside place r)
  else .ok ()

def checkRefs (vs : List Variable) (place : Place) : List Ref → Except SystemError Unit
  | [] => .ok ()
  | r :: rs => do
    checkRef vs place r
    checkRefs vs place rs

def checkPredicate (vs : List Variable) (place : Place) (t : Term) :
    Except SystemError Unit :=
  if t.ty ≠ .bool then .error (.notBool place t.ty) else checkRefs vs place t.freeRefs

def checkProperties (vs : List Variable) : Entries String Term → Except SystemError Unit
  | [] => .ok ()
  | (name, t) :: rest => do
    checkPredicate vs (.property name) t
    checkProperties vs rest

/-- State variables with distinct names, and predicates that read only them at their steps. -/
def check (d : SystemData) : Except SystemError Unit := do
  checkVariables [] d.variables
  checkPredicate d.variables .init d.init
  checkPredicate d.variables .trans d.trans
  checkProperties d.variables d.properties

end SystemData

structure TransitionSystem extends SystemData where
  valid : toSystemData.check = .ok ()

structure UnknownProperty where
  name : String
  known : List String
  deriving DecidableEq

def UnknownProperty.message (e : UnknownProperty) : String :=
  let known := (e.known.mergeSort fun a b => decide (a ≤ b)).map quoted
  "unknown property '" ++ e.name ++ "' (known: " ++ listing known ++ ")"

namespace TransitionSystem

def ofData (d : SystemData) : Except SystemError TransitionSystem :=
  match h : d.check with
  | .ok () => .ok ⟨d, h⟩
  | .error e => .error e

def find? (s : TransitionSystem) (name : String) : Option Variable := s.variables.find? (·.name = name)

def property (s : TransitionSystem) (name : String) : Except UnknownProperty Term :=
  match Entries.get? name s.properties with
  | some t => .ok t
  | none => .error ⟨name, s.properties.keys⟩

def propertyNames (s : TransitionSystem) : List String := s.properties.keys

def text (s : TransitionSystem) : String :=
  let vs := s.variables.map fun v => "  var " ++ v.name ++ ": " ++ v.ty.text
  let properties := s.properties.map fun (name, t) => "  prop " ++ name ++ ": " ++ t.text
  "\n".intercalate (["system " ++ s.name] ++ vs ++
    ["  init " ++ s.init.text, "  trans " ++ s.trans.text] ++ properties)

end TransitionSystem

end InvariantProver
