import InvariantProver.Term.Evaluation

/-!
Operators on values that may be irrational. An irrational value counts as true and is equal only to
the one with the same text and approximation. It has neither order nor arithmetic, so an operator
fails as soon as it needs them; a sum or product of one value is that value, whatever it is. On exact
values the operators are those of terms (`Op.applyValues_exact`).
-/

namespace InvariantProver

theorem Scalar.truth_bool (b : Bool) : (Scalar.bool b).truth = b := rfl

namespace Value

def scalar? : Value → Option Scalar
  | exact s => some s
  | algebraic .. => none

def truth : Value → Bool
  | exact s => s.truth
  | algebraic .. => true

def same : Value → Value → Bool
  | exact a, exact b => a.same b
  | v, w => v = w

end Value

namespace Op

def isDivision : Op → Bool
  | div | idiv | mod => true
  | _ => false

def relates (op : Op) : List Value → Except EvalError Bool
  | v :: w :: rest =>
    match v, w with
    | .exact a, .exact b => if Scalar.compare op a b then relates op (w :: rest) else .ok false
    | _, _ => .error (.irrationalOperand op)
  | _ => .ok true

/-- Arithmetic with an irrational operand. A divisor is looked at before it divides. -/
def applyIrrational (op : Op) (args : List Value) : Except EvalError Value :=
  if op.isDivision then
    match args with
    | [_, .exact b] =>
      if b.toRat = 0 then (op.apply [b, b]).map .exact else .error (.irrationalOperand op)
    | [_, _] => .error (.irrationalOperand op)
    | _ => .error (.operandCount args.length)
  else
    match args with
    | [v] => if op = sub then .error (.irrationalOperand op) else .ok v
    | _ => .error (.irrationalOperand op)

def applyValues (op : Op) (args : List Value) : Except EvalError Value :=
  match op with
  | ite => choose Value.truth args
  | not | and | or | implies => (op.apply (args.map fun v => .bool v.truth)).map .exact
  | eq =>
    match args with
    | [] => .ok (.exact (.bool true))
    | v :: vs => .ok (.exact (.bool (vs.all v.same)))
  | ge | le | gt | lt => (op.relates args).map fun b => .exact (.bool b)
  | add | sub | mul | div | idiv | mod =>
    match args.mapM Value.scalar? with
    | some scalars => (op.apply scalars).map .exact
    | none => op.applyIrrational args

theorem mapM_scalar?_exact (args : List Scalar) :
    (args.map Value.exact).mapM Value.scalar? = some args := by
  induction args with
  | nil => rfl
  | cons a as ih => simp [List.mapM_cons, Value.scalar?, ih]

theorem choose_exact (args : List Scalar) :
    choose Value.truth (args.map Value.exact) = (choose Scalar.truth args).map .exact := by
  match args with
  | [] => rfl
  | [_] => rfl
  | [a, b] => cases h : a.truth <;> simp [choose, Value.truth, h, Except.map]
  | a :: b :: c :: rest => cases h : a.truth <;> simp [choose, Value.truth, h, Except.map]

theorem relates_exact (op : Op) (args : List Scalar) :
    op.relates (args.map Value.exact) = .ok (chain (Scalar.compare op) args) := by
  match args with
  | [] => rfl
  | [_] => rfl
  | a :: b :: rest =>
    have ih := relates_exact op (b :: rest)
    simp only [List.map_cons] at ih ⊢
    cases h : Scalar.compare op a b <;> simp [relates, chain, h, ih]

theorem implication_truth (args : List Scalar) :
    implication (args.map fun a => .bool a.truth) = implication args := by
  match args with
  | [] => rfl
  | [a] => simp [implication, Scalar.truth_bool]
  | a :: b :: rest =>
    have ih := implication_truth (b :: rest)
    simp only [List.map_cons] at ih ⊢
    simp [implication, ih, Scalar.truth_bool]

theorem applyValues_exact (op : Op) (args : List Scalar) :
    op.applyValues (args.map .exact) = (op.apply args).map .exact := by
  have truths : (args.map Value.exact).map (fun v => Scalar.bool v.truth) =
      args.map fun a => .bool a.truth := by simp [Value.truth]
  cases op with
  | ite => exact choose_exact args
  | implies => simp only [applyValues, truths, apply, implication_truth]
  | not => cases args <;> simp [applyValues, apply, Value.truth, Scalar.truth_bool, Except.map]
  | and => simp [applyValues, apply, Value.truth, Scalar.truth_bool, Except.map, Function.comp_def]
  | or => simp [applyValues, apply, Value.truth, Scalar.truth_bool, Except.map, Function.comp_def]
  | eq => cases args <;> simp [applyValues, apply, Value.same, Except.map, Function.comp_def]
  | ge | le | gt | lt => simp only [applyValues, relates_exact, apply]; rfl
  | add | sub | mul | div | idiv | mod => simp only [applyValues, mapM_scalar?_exact]

end Op

end InvariantProver
