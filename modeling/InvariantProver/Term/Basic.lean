import InvariantProver.Term.Operator

/-!
Terms: constants, references to variables at a step, and applications of operators. Every traversal
is an instance of `Term.fold`, and every property of all terms follows by `Term.induct`.
-/

namespace InvariantProver

inductive Role
  | state
  | binding
  deriving DecidableEq

structure Variable where
  name : String
  ty : Ty
  role : Role := .state
  deriving DecidableEq

/-- A variable at a step. In a system step 0 is the current and step 1 the next state. -/
structure Ref where
  var : Variable
  step : Int := 0
  deriving DecidableEq

namespace Ref

def ty (r : Ref) : Ty := r.var.ty

def text (r : Ref) : String := r.var.name ++ "@" ++ Text.intText r.step

def shift (r : Ref) (delta : Int) : Ref := { r with step := r.step + delta }

end Ref

inductive Scalar
  | bool (b : Bool)
  | int (i : Int)
  | rat (q : Rat)
  deriving DecidableEq

def Scalar.ty : Scalar → Ty
  | bool _ => .bool
  | int _ => .int
  | rat _ => .rat

inductive Value
  | exact (s : Scalar)
  | algebraic (text : String) (approx? : Option Rat)
  deriving DecidableEq

def Value.isExact : Value → Bool
  | exact _ => true
  | algebraic .. => false

inductive Term
  | const (value : Scalar)
  | ref (r : Ref)
  | app (op : Op) (args : List Term)

instance : Inhabited Term := ⟨.const (.bool true)⟩

namespace Term

def ofBool (b : Bool) : Term := const (.bool b)

mutual

/-- Replaces the constructors of a term by functions. Operands come before and after replacement. -/
def fold {α : Type} (onConst : Scalar → α) (onRef : Ref → α) (onApp : Op → List Term → List α → α) :
    Term → α
  | const value => onConst value
  | ref r => onRef r
  | app op args => onApp op args (foldArgs onConst onRef onApp args)

def foldArgs {α : Type} (onConst : Scalar → α) (onRef : Ref → α)
    (onApp : Op → List Term → List α → α) : List Term → List α
  | [] => []
  | t :: ts => fold onConst onRef onApp t :: foldArgs onConst onRef onApp ts

end

theorem foldArgs_eq_map {α : Type} (onConst : Scalar → α) (onRef : Ref → α)
    (onApp : Op → List Term → List α → α) (ts : List Term) :
    foldArgs onConst onRef onApp ts = ts.map (fold onConst onRef onApp) := by
  induction ts with
  | nil => rfl
  | cons t ts ih => rw [foldArgs, ih, List.map_cons]

section
variable {α : Type} (onConst : Scalar → α) (onRef : Ref → α) (onApp : Op → List Term → List α → α)

@[simp] theorem fold_const (value : Scalar) :
    fold onConst onRef onApp (const value) = onConst value := by rw [fold]

@[simp] theorem fold_ref (r : Ref) : fold onConst onRef onApp (ref r) = onRef r := by rw [fold]

@[simp] theorem fold_app (op : Op) (args : List Term) :
    fold onConst onRef onApp (app op args) =
      onApp op args (args.map (fold onConst onRef onApp)) := by
  rw [fold, foldArgs_eq_map]

end

mutual

theorem induct {motive : Term → Prop} (const : ∀ value, motive (.const value))
    (ref : ∀ r, motive (.ref r))
    (app : ∀ op args, (∀ t ∈ args, motive t) → motive (.app op args)) : ∀ t, motive t
  | .const value => const value
  | .ref r => ref r
  | .app op args => app op args (inductArgs const ref app args)

theorem inductArgs {motive : Term → Prop} (const : ∀ value, motive (.const value))
    (ref : ∀ r, motive (.ref r))
    (app : ∀ op args, (∀ t ∈ args, motive t) → motive (.app op args)) :
    ∀ ts : List Term, ∀ t ∈ ts, motive t
  | [], _, h => nomatch h
  | u :: us, t, h =>
    match List.mem_cons.mp h with
    | .inl e => e ▸ induct const ref app u
    | .inr h => inductArgs const ref app us t h

end

mutual

def decEq : (s t : Term) → Decidable (s = t)
  | const a, const b => decidable_of_iff (a = b) (by simp)
  | ref a, ref b => decidable_of_iff (a = b) (by simp)
  | app f as, app g bs =>
    match decEqArgs as bs with
    | isTrue h => decidable_of_iff (f = g) (by simp [h])
    | isFalse h => isFalse (by simp [h])
  | const _, ref _ => isFalse (by simp)
  | const _, app .. => isFalse (by simp)
  | ref _, const _ => isFalse (by simp)
  | ref _, app .. => isFalse (by simp)
  | app .., const _ => isFalse (by simp)
  | app .., ref _ => isFalse (by simp)

def decEqArgs : (ss ts : List Term) → Decidable (ss = ts)
  | [], [] => isTrue rfl
  | s :: ss, t :: ts =>
    match decEq s t with
    | isTrue h =>
      match decEqArgs ss ts with
      | isTrue h' => isTrue (by rw [h, h'])
      | isFalse h' => isFalse (by simp [h'])
    | isFalse h => isFalse (by simp [h])
  | [], _ :: _ => isFalse (by simp)
  | _ :: _, [] => isFalse (by simp)

end

instance : DecidableEq Term := decEq

def ty : Term → Ty := fold Scalar.ty Ref.ty fun op _ tys => op.resultTy tys

def isTyped : Term → Bool :=
  fold (fun _ => true) (fun _ => true) fun op args typed =>
    typed.all id && (op.typeCheck (args.map ty)).isOk

def size : Term → Nat := fold (fun _ => 1) (fun _ => 1) fun _ _ sizes => sizes.foldl (· + ·) 1

def refs : Term → List Ref := fold (fun _ => []) (fun r => [r]) fun _ _ lists => lists.flatten

def freeRefs (t : Term) : List Ref := t.refs.eraseDups

def freeVariables (t : Term) : List Variable := (t.refs.map Ref.var).eraseDups

def steps (t : Term) : List Int := (t.refs.map Ref.step).eraseDups

end Term

end InvariantProver
