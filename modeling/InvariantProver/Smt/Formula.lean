import InvariantProver.Term.Coercion
import InvariantProver.Term.Text

/-!
Expressions of a solver that works in memory. Its arithmetic, relations and implications have two
operands, so longer lists are nested or joined by conjunction. A comparison of something with a
numeral on its right puts the numeral first.
-/

namespace InvariantProver

/-- The inner nodes of an expression. Division is of rational and `idiv` of whole numbers. -/
inductive Head
  | add
  | sub
  | mul
  | div
  | idiv
  | mod
  | toReal
  | eq
  | ge
  | le
  | gt
  | lt
  | and
  | or
  | not
  | implies
  | ite
  deriving DecidableEq

inductive Formula
  | literal (value : Scalar)
  | symbol (name : String) (ty : Ty)
  | node (head : Head) (args : List Formula)

structure NoValue where
  symbol : String
  deriving DecidableEq

def NoValue.message (e : NoValue) : String := "unsupported model value " ++ e.symbol

namespace Head

def text : Head → String
  | add => "+"
  | sub => "-"
  | mul => "*"
  | div => "/"
  | idiv => "div"
  | mod => "mod"
  | toReal => "to_real"
  | eq => "="
  | ge => ">="
  | le => "<="
  | gt => ">"
  | lt => "<"
  | and => "and"
  | or => "or"
  | not => "not"
  | implies => "=>"
  | ite => "if"

def flipped : Head → Head
  | ge => le
  | le => ge
  | gt => lt
  | lt => gt
  | head => head

end Head

namespace Formula

mutual

def fold {α : Type} (onLiteral : Scalar → α) (onSymbol : String → Ty → α)
    (onNode : Head → List α → α) : Formula → α
  | literal value => onLiteral value
  | symbol name ty => onSymbol name ty
  | node head args => onNode head (foldArgs onLiteral onSymbol onNode args)

def foldArgs {α : Type} (onLiteral : Scalar → α) (onSymbol : String → Ty → α)
    (onNode : Head → List α → α) : List Formula → List α
  | [] => []
  | e :: es => fold onLiteral onSymbol onNode e :: foldArgs onLiteral onSymbol onNode es

end

theorem foldArgs_eq_map {α : Type} (onLiteral : Scalar → α) (onSymbol : String → Ty → α)
    (onNode : Head → List α → α) (es : List Formula) :
    foldArgs onLiteral onSymbol onNode es = es.map (fold onLiteral onSymbol onNode) := by
  induction es with
  | nil => rfl
  | cons e es ih => rw [foldArgs, ih, List.map_cons]

def isNumeral : Formula → Bool
  | literal (.int _) => true
  | literal (.rat _) => true
  | _ => false

def compare (head : Head) (a b : Formula) : Formula :=
  if b.isNumeral && !a.isNumeral then node head.flipped [b, a] else node head [a, b]

def links (rel : Formula → Formula → Formula) : List Formula → List Formula
  | a :: b :: rest => rel a b :: links rel (b :: rest)
  | _ => []

def chain (rel : Formula → Formula → Formula) (args : List Formula) : Formula :=
  match links rel args with
  | [only] => only
  | pairs => node .and pairs

def joined (head : Head) : List Formula → Formula
  | [] => node head []
  | first :: rest => rest.foldl (fun a b => node head [a, b]) first

def implication : List Formula → Formula
  | [] => node .implies []
  | [conclusion] => conclusion
  | hypothesis :: rest => node .implies [hypothesis, implication rest]

/-- The expression for an operator. Whole operands of a quotient are converted. -/
def ofApp (op : Op) (operandTy : Option Ty) (args : List Formula) : Formula :=
  match op with
  | .ite => node .ite args
  | .not => node .not args
  | .and => node .and args
  | .or => node .or args
  | .implies => implication args
  | .eq => chain (compare .eq) args
  | .ge => chain (compare .ge) args
  | .le => chain (compare .le) args
  | .gt => chain (compare .gt) args
  | .lt => chain (compare .lt) args
  | .add => joined .add args
  | .sub =>
    match args with
    | [a] => node .sub [a]
    | _ => joined .sub args
  | .mul => joined .mul args
  | .div => node .div (if operandTy = some .int then args.map fun a => node .toReal [a] else args)
  | .idiv => node .idiv args
  | .mod => node .mod args

def ofRef (r : Ref) : Formula := symbol r.text r.ty

def ofTerm : Term → Formula :=
  Term.fold literal ofRef fun op args formulas => ofApp op (args.head?.map Term.ty) formulas

def ofValue? (ty : Ty) (v : Value) : Option Formula := (v.coerce? ty).map literal

def value : Formula → Except NoValue Scalar
  | literal value => .ok value
  | symbol name _ => .error ⟨name⟩
  | node head _ => .error ⟨head.text⟩

end Formula

end InvariantProver
