import InvariantProver.Proofs.Term.Typing
import InvariantProver.TransitionSystem.Building

/-!
Scripts by lexical scope. A name means its innermost binding at its place, each declaration of a state
variable makes a variable of its own, and a binding means its right side read where it stands. The
sites of a script are the places at which something is asked of it.
-/

namespace InvariantProver

/-- Two states in succession. Variables go by the number of their declaration. -/
structure Moment where
  current : Nat → Except EvalError Scalar
  next : Nat → Except EvalError Scalar

/-- What an expression means: its type if there is one, whether it looks at the next state, and its
value at a moment. -/
structure Meaning where
  ty? : Option Ty
  next : Bool
  value : Moment → Except EvalError Scalar

inductive Named
  | state (number : Nat) (ty? : Option Ty)
  | binding (meaning : Meaning)

abbrev Context := List (String × Named)

def Literal.scalar? : Literal → Option Scalar
  | bool b => some (.bool b)
  | int i => some (.int i)
  | rat q => some (.rat q)
  | text s => (Fraction.read s).toOption.map .rat
  | float x => (Fraction.read x.text).toOption.map .rat
  | none => Option.none

namespace Meaning

def unknown : Meaning := ⟨none, false, fun _ => .error .missingOperand⟩

def literal (l : Literal) : Meaning :=
  match l.scalar? with
  | some s => ⟨some s.ty, false, fun _ => .ok s⟩
  | none => unknown

def name (next : Bool) : Option Named → Meaning
  | some (.state number ty?) => ⟨ty?, next, fun m => if next then m.next number else m.current number⟩
  | some (.binding r) => r
  | none => unknown

def apply (op? : Option Op) (args : List Meaning) : Meaning :=
  match op? with
  | some op =>
    { ty? := (args.mapM ty?).map op.resultTy
      next := args.any next
      value := fun m => collect (args.map fun r => r.value m) >>= op.apply }
  | none => unknown

def conjunction (meanings : List Meaning) : Meaning := apply (some .and) meanings

end Meaning

mutual

def Expr.meaning (ctx : Context) : Expr → Meaning
  | .literal l _ => .literal l
  | .name ident next _ => .name next (ctx.lookup ident)
  | .apply symbol args _ => .apply (Op.ofName? symbol) (Expr.meanings ctx args)
  | .letIn bindings body _ => body.meaning (Binder.extendAll ctx bindings)

def Expr.meanings (ctx : Context) : List Expr → List Meaning
  | [] => []
  | e :: es => e.meaning ctx :: Expr.meanings ctx es

def Binder.extend (ctx : Context) : Binder → Context
  | .mk name value _ => (name, .binding (value.meaning ctx)) :: ctx

def Binder.extendAll (ctx : Context) : List Binder → Context
  | [] => ctx
  | b :: bs => Binder.extendAll (b.extend ctx) bs

end

def Binder.name : Binder → String
  | .mk name _ _ => name

inductive Site
  | typeName (name : String)
  | declaration (taken : List String) (name : String)
  | literal (l : Literal)
  | name (next : Bool) (found : Option Named)
  | apply (symbol : String) (args : List Meaning)
  | predicate (place : Place) (meaning : Meaning)
  | property (taken : List String) (name : String)

namespace Site

def predicate? (place : Place) : Site → Option Meaning
  | predicate p r => if p = place then some r else none
  | _ => none

def property? : Site → Option (String × Meaning)
  | predicate (.property p) r => some (p, r)
  | _ => none

end Site

mutual

def Expr.sites (ctx : Context) : Expr → List Site
  | .literal l _ => [.literal l]
  | .name ident next _ => [.name next (ctx.lookup ident)]
  | .apply symbol args _ => .apply symbol (Expr.meanings ctx args) :: Expr.sitesAll ctx args
  | .letIn bindings body _ =>
    Binder.sitesAll ctx [] bindings ++ body.sites (Binder.extendAll ctx bindings)

def Expr.sitesAll (ctx : Context) : List Expr → List Site
  | [] => []
  | e :: es => e.sites ctx ++ Expr.sitesAll ctx es

def Binder.sites (ctx : Context) (taken : List String) : Binder → List Site
  | .mk name value _ => .declaration taken name :: value.sites ctx

def Binder.sitesAll (ctx : Context) (taken : List String) : List Binder → List Site
  | [] => []
  | b :: bs => b.sites ctx taken ++ Binder.sitesAll (b.extend ctx) (b.name :: taken) bs

end

structure Position where
  ctx : Context := []
  scope : List String := []
  declared : List (Option Ty) := []
  properties : List String := []

namespace Position

def state (p : Position) (ty? : Option Ty) (name : String) : Position :=
  { p with
    ctx := (name, .state p.declared.length ty?) :: p.ctx
    scope := name :: p.scope
    declared := p.declared ++ [ty?] }

def bind (p : Position) (b : Binder) : Position :=
  { p with ctx := b.extend p.ctx, scope := b.name :: p.scope }

def states (ty? : Option Ty) : Position → List String → List Site × Position
  | p, [] => ([], p)
  | p, name :: names =>
    let (sites, q) := states ty? (p.state ty? name) names
    (.declaration p.scope name :: sites, q)

def predicate (p : Position) (place : Place) (e : Expr) : List Site :=
  e.sites p.ctx ++ [.predicate place (e.meaning p.ctx)]

end Position

mutual

def Item.walk (p : Position) : Item → List Site × Position
  | .vars names typeName _ =>
    let (sites, q) := p.states (Ty.ofName? typeName) names
    (.typeName typeName :: sites, q)
  | .binding b => (b.sites p.ctx p.scope, p.bind b)
  | .init es => (es.flatMap (p.predicate .init), p)
  | .trans es => (es.flatMap (p.predicate .trans), p)
  | .property name e _ =>
    (.property p.properties name :: p.predicate (.property name) e,
      { p with properties := p.properties ++ [name] })
  | .block items =>
    let (sites, q) := Item.walkAll { p with scope := [] } items
    (sites, { q with ctx := p.ctx, scope := p.scope })

def Item.walkAll (p : Position) : List Item → List Site × Position
  | [] => ([], p)
  | i :: is =>
    let (sites, q) := i.walk p
    let (sites', q') := Item.walkAll q is
    (sites ++ sites', q')

end

namespace Script

def sites (s : Script) : List Site := (Item.walkAll {} s.items).1

def declared (s : Script) : List (Option Ty) := (Item.walkAll {} s.items).2.declared

def predicates (s : Script) (place : Place) : List Meaning := s.sites.filterMap (Site.predicate? place)

def properties (s : Script) : List (String × Meaning) := s.sites.filterMap Site.property?

end Script

end InvariantProver
