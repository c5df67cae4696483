import InvariantProver.TransitionSystem.Basic
import InvariantProver.TransitionSystem.Scope
import InvariantProver.Term.Substitution

/-!
From a script to a system. Items are read in order; each expression is resolved in the scopes open at
its place, and as soon as it is complete the placeholders of bindings give way to their terms, so the
system knows nothing of scopes.
-/

namespace InvariantProver

inductive BuildFault
  | redeclared (e : Redeclaration)
  | duplicateProperty (name : String)
  | unbound (name : String)
  | noNextForm (name : String)
  | nextReference (place : Place)
  | unknownOperator (symbol : String)
  | unknownType (name : String)
  | operands (symbol : String) (e : TypeError)
  | notBool (place : Place) (got : Ty)
  | literal (e : LiteralError)
  | invalid (e : SystemError)

def BuildFault.message : BuildFault → String
  | redeclared e =>
    let previous := match e.previous with
      | some span => " (previous declaration at " ++ span.text ++ ")"
      | none => ""
    "'" ++ e.name ++ "' is already declared in this scope" ++ previous
  | duplicateProperty name => "property '" ++ name ++ "' is already declared"
  | unbound name => "unknown identifier '" ++ name ++ "'"
  | noNextForm name => "'" ++ name ++ "' is not a state variable and has no next-state form"
  | nextReference place => place.text ++ " cannot reference next-state variables"
  | unknownOperator symbol => "unknown operator '" ++ symbol ++ "'"
  | unknownType name => Ty.unknownMessage name
  | operands _ e => e.message
  | notBool place got => place.text ++ " expression must be bool, got '" ++ got.text ++ "'"
  | literal e => e.message
  | invalid e => e.message

def BuildFault.name? : BuildFault → Option String
  | redeclared e => some e.name
  | duplicateProperty name => some name
  | unbound name => some name
  | noNextForm name => some name
  | unknownOperator symbol => some symbol
  | unknownType name => some name
  | operands symbol _ => some symbol
  | nextReference _ | notBool .. | literal _ | invalid _ => none

structure BuildError where
  fault : BuildFault
  span : Option Span

def Span.label (span : Option Span) (message : String) : String :=
  match span with
  | some s => s.text ++ ": " ++ message
  | none => message

def BuildError.message (e : BuildError) : String := Span.label e.span e.fault.message

inductive Warning
  | renamed (name candidate : String)
  | unusedLet (name : String)
  | unconstrained (name : String)
  deriving DecidableEq

def Warning.message : Warning → String
  | renamed name candidate =>
    "state variable '" ++ name ++ "' clashes with another state variable, renamed to '" ++
      candidate ++ "'"
  | unusedLet name => "unused let binding '" ++ name ++ "'"
  | unconstrained name => "next state of '" ++ name ++ "' is unconstrained"

def Warning.name : Warning → String
  | renamed name _ => name
  | unusedLet name => name
  | unconstrained name => name

structure Diagnostic where
  warning : Warning
  span : Option Span
  deriving DecidableEq

def Diagnostic.text (d : Diagnostic) : String :=
  Span.label d.span ("warning: " ++ d.warning.message)

structure Draft where
  scopes : ScopeStack := {}
  «variables» : List Variable := []
  init : List Term := []
  trans : List Term := []
  properties : Entries String Term := []
  diagnostics : List Diagnostic := []
  renamed : Nat := 0

def ScopeStack.lookup (s : ScopeStack) (name : String) (span : Option Span) :
    Except BuildError Binding :=
  match s.find? name with
  | some b => .ok b
  | none => .error ⟨.unbound name, span⟩

abbrev BuildM := StateT Draft (Except BuildError)

namespace Build

def fail {α : Type} (fault : BuildFault) (span : Span) : BuildM α :=
  throw ⟨fault, some span⟩

def checked {ε α : Type} (fault : ε → BuildFault) (span : Span) : Except ε α → BuildM α
  | .ok a => pure a
  | .error e => fail (fault e) span

def warn (warning : Warning) (span : Option Span) : BuildM Unit :=
  modify fun d => { d with diagnostics := d.diagnostics ++ [⟨warning, span⟩] }

def enter : BuildM Unit := modify fun d => { d with scopes := d.scopes.push }

def unusedLets (scope : Scope) : List Diagnostic :=
  (scope.filter fun b => b.isLet && !b.used).map fun b => ⟨.unusedLet b.name, b.span⟩

def reportUnused : BuildM Unit :=
  modify fun d => { d with diagnostics := d.diagnostics ++ unusedLets d.scopes.current }

def leave : BuildM Unit := do
  reportUnused
  modify fun d => { d with scopes := (d.scopes.pop?.map Prod.snd).getD {} }

def closed (t : Term) : BuildM Term := do
  return t.replaceAll (← get).scopes.visibleLets

def checkUndeclared (name : String) (span : Span) : BuildM Unit := do
  checked .redeclared span ((← get).scopes.checkUndeclared name)

def declare (b : Binding) (span : Span) : BuildM Unit := do
  let scopes ← checked .redeclared span ((← get).scopes.declare b)
  modify fun d => { d with scopes := scopes }

def resolve (ident : String) (next : Bool) (span : Span) : BuildM Term := do
  let fault := if next then BuildFault.noNextForm ident else .unbound ident
  match (← get).scopes.find? ident with
  | none => fail fault span
  | some b =>
    if next && b.isLet then fail fault span
    else
      modify fun d => { d with scopes := d.scopes.markUsed ident }
      return .ref ⟨b.var, if next then 1 else 0⟩

mutual

def expr : Expr → BuildM Term
  | .literal value span => checked .literal span value.term
  | .name ident next span => resolve ident next span
  | .apply symbol args span =>
    match Op.ofName? symbol with
    | none => fail (.unknownOperator symbol) span
    | some op => do
      let args ← exprs args
      checked (.operands symbol) span (Term.apply op args)
  | .letIn bindings body _ => do
    enter
    binders bindings
    let body ← expr body
    let body ← closed body
    leave
    return body

def exprs : List Expr → BuildM (List Term)
  | [] => return []
  | e :: es => do
    let t ← expr e
    let ts ← exprs es
    return t :: ts

def binder : Binder → BuildM Unit
  | .mk name value span => do
    checkUndeclared name span
    let value ← expr value
    let value ← closed value
    declare ⟨name, ⟨name, value.ty, .binding⟩, some value, some span, false⟩ span

def binders : List Binder → BuildM Unit
  | [] => return ()
  | b :: bs => do
    binder b
    binders bs

end

def formula (place : Place) (e : Expr) : BuildM Term := do
  let t ← closed (← expr e)
  if t.ty ≠ .bool then fail (.notBool place t.ty) e.span else return t

def stateFormula (place : Place) (e : Expr) : BuildM Term := do
  let t ← formula place e
  if t.refs.any (·.step ≠ 0) then fail (.nextReference place) e.span else return t

def candidate (name : String) (n : Nat) : String := name ++ "#" ++ Text.natText n

/-- The first number from `n` on whose candidate is free. Among more numbers than taken names there
is one, so `fuel` is at least the count of those. -/
def firstFree (taken : List String) (name : String) : Nat → Nat → Nat
  | 0, n => n
  | fuel + 1, n => if candidate name n ∈ taken then firstFree taken name fuel (n + 1) else n

def stateName (name : String) (span : Span) : BuildM String := do
  let d ← get
  let taken := d.variables.map Variable.name
  if name ∉ taken then return name
  let n := firstFree taken name taken.length (d.renamed + 1)
  modify fun d => { d with renamed := n }
  warn (.renamed name (candidate name n)) (some span)
  return candidate name n

def stateVariable (ty : Ty) (span : Span) (name : String) : BuildM Unit := do
  checkUndeclared name span
  let var : Variable := ⟨← stateName name span, ty, .state⟩
  declare ⟨name, var, none, some span, false⟩ span
  modify fun d => { d with «variables» := d.variables ++ [var] }

def initial (e : Expr) : BuildM Unit := do
  let t ← stateFormula .init e
  modify fun d => { d with init := d.init ++ [t] }

def transition (e : Expr) : BuildM Unit := do
  let t ← formula .trans e
  modify fun d => { d with trans := d.trans ++ [t] }

def property (name : String) (e : Expr) (span : Span) : BuildM Unit := do
  if name ∈ (← get).properties.keys then fail (.duplicateProperty name) span
  let t ← stateFormula (.property name) e
  modify fun d => { d with properties := d.properties.put name t }

mutual

def item : Item → BuildM Unit
  | .vars names typeName span =>
    match Ty.ofName? typeName with
    | none => fail (.unknownType typeName) span
    | some ty => names.forM (stateVariable ty span)
  | .binding b => binder b
  | .init es => es.forM initial
  | .trans es => es.forM transition
  | .property name e span => property name e span
  | .block is => do
    enter
    items is
    leave

def items : List Item → BuildM Unit
  | [] => return ()
  | i :: is => do
    item i
    items is

end

def unconstrained (vs : List Variable) (trans : Term) : List Diagnostic :=
  (vs.filter fun v => Ref.mk v 1 ∉ trans.refs).map fun v => ⟨.unconstrained v.name, none⟩

def script (s : Script) : BuildM Unit := do
  items s.items
  reportUnused

end Build

structure Built where
  system : TransitionSystem
  diagnostics : List Diagnostic

def Built.warningsFor (b : Built) (name : String) : List Diagnostic :=
  b.diagnostics.filter (·.warning.name = name)

def Draft.finish (d : Draft) (name : String) : SystemData where
  «variables» := d.variables
  init := Term.allOf d.init
  trans := Term.allOf d.trans
  properties := d.properties
  name := name

def Script.build (s : Script) : Except BuildError Built := do
  let (_, d) ← (Build.script s).run {}
  let data := d.finish s.name
  match TransitionSystem.ofData data with
  | .ok system =>
    return ⟨system, d.diagnostics ++ Build.unconstrained data.variables data.trans⟩
  | .error e => throw ⟨.invalid e, none⟩

end InvariantProver
