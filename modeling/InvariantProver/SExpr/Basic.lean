import InvariantProver.Text.Quoted
import InvariantProver.Term.Text

namespace InvariantProver

inductive SExpr
  | atom (text : String)
  | list (items : List SExpr)
  deriving Inhabited

namespace SExpr

mutual

def fold {α : Type} (onAtom : String → α) (onList : List α → α) : SExpr → α
  | atom text => onAtom text
  | list items => onList (foldItems onAtom onList items)

def foldItems {α : Type} (onAtom : String → α) (onList : List α → α) : List SExpr → List α
  | [] => []
  | e :: es => fold onAtom onList e :: foldItems onAtom onList es

end

theorem foldItems_eq_map {α : Type} (onAtom : String → α) (onList : List α → α) (es : List SExpr) :
    foldItems onAtom onList es = es.map (fold onAtom onList) := by
  induction es with
  | nil => rfl
  | cons e es ih => rw [foldItems, ih, List.map_cons]

@[simp] theorem fold_atom {α : Type} (onAtom : String → α) (onList : List α → α) (text : String) :
    fold onAtom onList (atom text) = onAtom text := by rw [fold]

@[simp] theorem fold_list {α : Type} (onAtom : String → α) (onList : List α → α)
    (items : List SExpr) :
    fold onAtom onList (list items) = onList (items.map (fold onAtom onList)) := by
  rw [fold, foldItems_eq_map]

/-- The plain text. Atoms are written without quotes of any kind. -/
def render : SExpr → String := fold id Text.parenthesized

def shown : SExpr → String := fold Text.quoted Text.listing

def isAtom : SExpr → Bool
  | atom _ => true
  | list _ => false

end SExpr

end InvariantProver
