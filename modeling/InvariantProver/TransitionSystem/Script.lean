import InvariantProver.Term.Literal

namespace InvariantProver

structure Span where
  line : Int := 0
  column : Int := 0
  deriving DecidableEq

def Span.text (s : Span) : String := Text.intText s.line ++ ":" ++ Text.intText s.column

mutual

inductive Expr
  | literal (value : Literal) (span : Span)
  | name (ident : String) (next : Bool) (span : Span)
  | apply (op : String) (args : List Expr) (span : Span)
  /-- An expression under bindings. Each binding is visible in those after it and in the body. -/
  | letIn (bindings : List Binder) (body : Expr) (span : Span)

inductive Binder
  | mk (name : String) (value : Expr) (span : Span)

end

instance : Inhabited Expr := ⟨.literal .none {}⟩

instance : Inhabited Binder := ⟨.mk "" default {}⟩

def Expr.span : Expr → Span
  | literal _ span => span
  | name _ _ span => span
  | apply _ _ span => span
  | letIn _ _ span => span

inductive Item
  | vars (names : List String) (ty : String) (span : Span)
  | binding (binder : Binder)
  | init (exprs : List Expr)
  | trans (exprs : List Expr)
  | property (name : String) (expr : Expr) (span : Span)
  | block (items : List Item)

instance : Inhabited Item := ⟨.block []⟩

structure Script where
  items : List Item
  name : String := "system"

end InvariantProver
