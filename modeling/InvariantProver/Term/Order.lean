import InvariantProver.Term.Basic

namespace InvariantProver

def Role.rank : Role → Nat
  | .binding => 0
  | .state => 1

def Variable.precedes (v w : Variable) : Bool :=
  (compare v.name w.name).then (compare v.ty.rank w.ty.rank) |>.then
    (compare v.role.rank w.role.rank) |>.isLE

def Ref.precedes (r s : Ref) : Bool :=
  (compare r.var.name s.var.name).then (compare r.ty.rank s.ty.rank) |>.then
    (compare r.step s.step) |>.then (compare r.var.role.rank s.var.role.rank) |>.isLE

namespace Term

def sortedRefs (t : Term) : List Ref := t.freeRefs.mergeSort Ref.precedes

def sortedVariables (t : Term) : List Variable := t.freeVariables.mergeSort Variable.precedes

def sortedSteps (t : Term) : List Int := t.steps.mergeSort (· ≤ ·)

end Term

end InvariantProver
