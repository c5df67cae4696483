import InvariantProver.Data.Entries
import InvariantProver.Session.Error

/-!
Sessions: incremental conversations with a solver. A session keeps the books on declarations, scopes
and models and enforces the rules; its back end does the rest. A rejected operation changes nothing
and does not reach the back end.
-/

namespace InvariantProver

inductive Answer
  | sat
  | unsat
  | unknown (reason : Option String)
  deriving DecidableEq

def Answer.text : Answer → String
  | sat => "sat"
  | unsat => "unsat"
  | unknown _ => "unknown"

def Ty.openValue : Ty → Value
  | bool => .exact (.bool false)
  | int => .exact (.int 0)
  | rat => .exact (.rat 0)

def Variable.symbolAt (v : Variable) (step : Int) : String := v.name ++ "@" ++ Text.intText step

def cancelledReason : String := "cancelled"

structure Link (σ : Type) where
  backend : σ
  interrupted : Bool := false
  /-- How often the session's own back end has asked to cancel the whole attempt. -/
  cancels : Nat := 0
  /-- A check has waited until an interruption came from elsewhere. -/
  waited : Bool := false

/-- An operation of a back end. What it has done stays done if it fails. -/
abbrev Hook (σ : Type) := ExceptT SessionError (StateM (Link σ))

class Backend (σ : Type) where
  start : Hook σ Unit := pure ()
  declare : Ref → Hook σ Unit
  assert : Term → Hook σ Unit
  push : Hook σ Unit
  pop : Hook σ Unit
  check : Hook σ Answer
  values : List Ref → Hook σ (Entries Ref Value)
  interrupt : σ → σ
  close : Hook σ Unit

structure Session (σ : Type) where
  name : String
  /-- The step variables declared in each open scope, the innermost first. -/
  scopes : List (List Ref) := [[]]
  hasModel : Bool := false
  closed : Bool := false
  checks : Nat := 0
  reason : Option String := none
  link : Link σ

abbrev SessionM (σ : Type) := ExceptT SessionError (StateM (Session σ))

namespace Session

variable {σ : Type}

def interrupted (s : Session σ) : Bool := s.link.interrupted

def isDeclared (s : Session σ) (r : Ref) : Bool := s.scopes.any (r ∈ ·)

def depth (s : Session σ) : Nat := s.scopes.length - 1

def addDeclared (s : Session σ) (r : Ref) : Session σ :=
  match s.scopes with
  | [] => { s with scopes := [[r]] }
  | scope :: outer => { s with scopes := (r :: scope) :: outer }

def reject {α : Type} (m : Misuse) : SessionM σ α := throw (.misuse m)

def checkOpen : SessionM σ Unit := do
  let s ← get
  if s.closed then reject (.closed s.name)

def dropModel : SessionM σ Unit := modify fun s => { s with hasModel := false }

def hook {α : Type} (h : Hook σ α) : SessionM σ α := fun s =>
  let (result, link) := h.run s.link
  (result, { s with link := link })

variable [Backend σ]

def start : SessionM σ Unit := hook Backend.start

def declare (v : Variable) (step : Int) : SessionM σ Unit := do
  checkOpen
  if step < 0 then reject (.negativeStep v step)
  let r : Ref := ⟨v, step⟩
  if (← get).isDeclared r then reject (.alreadyDeclared r)
  modify fun s => { s.addDeclared r with hasModel := false }
  hook (Backend.declare r)

def assert (t : Term) : SessionM σ Unit := do
  checkOpen
  if t.ty ≠ .bool then reject (.notBool t)
  let s ← get
  match t.refs.find? fun r => !s.isDeclared r with
  | some r => reject (.undeclaredAssertion r)
  | none =>
    dropModel
    hook (Backend.assert t)

def push : SessionM σ Unit := do
  checkOpen
  modify fun s => { s with scopes := [] :: s.scopes, hasModel := false }
  hook Backend.push

def pop : SessionM σ Unit := do
  checkOpen
  match (← get).scopes with
  | _ :: scope :: outer =>
    modify fun s => { s with scopes := scope :: outer, hasModel := false }
    hook Backend.pop
  | _ => reject .unmatchedPop

def setReason (reason : Option String) : SessionM σ Unit := modify fun s => { s with reason := reason }

def cancelledAnswer : SessionM σ Answer := do
  setReason (some cancelledReason)
  return .unknown (some cancelledReason)

/-- Asks whether the assertions can be satisfied. A session that is interrupted before or during the
check does not know. -/
def check : SessionM σ Answer := do
  checkOpen
  dropModel
  if (← get).interrupted then cancelledAnswer
  else
    setReason none
    let answer ← hook Backend.check
    modify fun s => { s with checks := s.checks + 1 }
    if (← get).interrupted then cancelledAnswer
    else
      match answer with
      | .sat => modify fun s => { s with hasModel := true }
      | .unsat => pure ()
      | .unknown reason => setReason reason
      return answer

def values (refs : List Ref) : SessionM σ (Entries Ref Value) := do
  checkOpen
  let s ← get
  if !s.hasModel then reject .noModel
  match refs.find? fun r => !s.isDeclared r with
  | some r => reject (.undeclaredValue r)
  | none => hook (Backend.values refs)

def interrupt (s : Session σ) : Session σ :=
  let link := { s.link with interrupted := true }
  if s.closed then { s with link := link }
  else { s with link := { link with backend := Backend.interrupt link.backend } }

def close : SessionM σ Unit := do
  if !(← get).closed then
    modify fun s => { s with closed := true }
    hook Backend.close

end Session

end InvariantProver
