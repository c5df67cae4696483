import InvariantProver.Data.Entries
import InvariantProver.TransitionSystem.Script

namespace InvariantProver

structure Binding where
  name : String
  var : Variable
  value : Option Term := none
  span : Option Span := none
  used : Bool := false
  deriving DecidableEq

def Binding.isLet (b : Binding) : Bool := b.value.isSome

abbrev Scope := List Binding

namespace Scope

def find? (scope : Scope) (name : String) : Option Binding := List.find? (·.name = name) scope

def contains (scope : Scope) (name : String) : Bool := (scope.find? name).isSome

def markUsed (scope : Scope) (name : String) : Scope :=
  scope.map fun b => if b.name = name then { b with used := true } else b

end Scope

structure ScopeStack where
  current : Scope := []
  outer : List Scope := []

structure Redeclaration where
  name : String
  previous : Option Span
  deriving DecidableEq

namespace ScopeStack

def scopes (s : ScopeStack) : List Scope := s.current :: s.outer

def depth (s : ScopeStack) : Nat := s.scopes.length

def push (s : ScopeStack) : ScopeStack := ⟨[], s.scopes⟩

/-- The scope that is left and the stack around it. The outermost scope is never left. -/
def pop? (s : ScopeStack) : Option (Scope × ScopeStack) :=
  match s.outer with
  | [] => none
  | around :: outer => some (s.current, ⟨around, outer⟩)

def outermostMessage : String := "cannot pop the top-level scope"

def checkUndeclared (s : ScopeStack) (name : String) : Except Redeclaration Unit :=
  match s.current.find? name with
  | some b => .error ⟨name, b.span⟩
  | none => .ok ()

def declare (s : ScopeStack) (b : Binding) : Except Redeclaration ScopeStack := do
  s.checkUndeclared b.name
  return { s with current := s.current ++ [b] }

def find? (s : ScopeStack) (name : String) : Option Binding :=
  s.scopes.findSome? (Scope.find? · name)

def markIn (name : String) : List Scope → List Scope
  | [] => []
  | scope :: rest =>
    if scope.contains name then scope.markUsed name :: rest else scope :: markIn name rest

def markUsed (s : ScopeStack) (name : String) : ScopeStack :=
  if s.current.contains name then { s with current := s.current.markUsed name }
  else { s with outer := markIn name s.outer }

/-- The terms of all visible placeholders. Of equal placeholders the innermost one has its say. -/
def visibleLets (s : ScopeStack) : Entries Variable Term :=
  Entries.ofList (s.scopes.reverse.flatten.filterMap fun b => b.value.map (b.var, ·))

end ScopeStack

end InvariantProver
