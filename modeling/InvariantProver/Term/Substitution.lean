import InvariantProver.Data.Entries
import InvariantProver.Term.Basic

namespace InvariantProver

structure SubstitutionError where
  var : Variable
  got : Ty
  deriving DecidableEq

def SubstitutionError.message (e : SubstitutionError) : String :=
  "cannot substitute '" ++ e.var.name ++ ": " ++ e.var.ty.text ++ "' with a term of type '" ++
    e.got.text ++ "'"

namespace Term

def mapRefs (f : Ref → Term) : Term → Term := fold const f fun op _ args => app op args

def reindex (delta : Int) : Term → Term := mapRefs fun r => ref (r.shift delta)

/-- The term that stands for a reference. A replacement is read at the step of the reference. -/
def replacement (mapping : Entries Variable Term) (r : Ref) : Term :=
  match Entries.get? r.var mapping with
  | some t => t.reindex r.step
  | none => ref r

def checkMapping (mapping : Entries Variable Term) : Except SubstitutionError Unit :=
  match mapping.find? fun entry => entry.2.ty ≠ entry.1.ty with
  | some (var, t) => .error ⟨var, t.ty⟩
  | none => .ok ()

def replaceAll (mapping : Entries Variable Term) : Term → Term := mapRefs (replacement mapping)

/-- Replaces variables by terms of their types. Replacements are not searched again. -/
def substitute (mapping : Entries Variable Term) (t : Term) : Except SubstitutionError Term := do
  checkMapping mapping
  return replaceAll mapping t

end Term

end InvariantProver
