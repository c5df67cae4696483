import InvariantProver.SExpr.Basic
import InvariantProver.SExpr.Token
import InvariantProver.Text.Numeral

namespace InvariantProver

open Text

inductive ReadError
  | unreadable (position : Nat) (window : String)
  | unbalanced (text : String)
  | incomplete (text : String)
  | notOne (count : Nat) (text : String)
  deriving DecidableEq

def ReadError.message : ReadError → String
  | unreadable position window =>
    "cannot read solver output at " ++ natText position ++ ": " ++ quoted window
  | unbalanced text => "unbalanced ')' in solver output: " ++ quoted text
  | incomplete text => "incomplete solver output: " ++ quoted text
  | notOne count text =>
    "expected one S-expression, got " ++ natText count ++ ": " ++ quoted text

/-- The tokens of a text. A failure shows the place and the twenty characters from there. -/
def Token.ofText (text : String) : Except ReadError (List Token) :=
  let cs := trimRight text.toList
  match scan cs with
  | .ok tokens => .ok tokens
  | .error rest =>
    .error (.unreadable (cs.length - rest.length) (String.ofList (rest.take 20)))

namespace SExpr

inductive Imbalance
  | extraClosing
  | missingClosing
  deriving DecidableEq

/-- Reads tokens into the items of the innermost open list, last first, and those around it. -/
def build (outer : List (List SExpr)) (items : List SExpr) :
    List Token → Except Imbalance (List SExpr)
  | [] => if outer.isEmpty then .ok items.reverse else .error .missingClosing
  | .atom text :: tokens => build outer (atom text :: items) tokens
  | .opening :: tokens => build (items :: outer) [] tokens
  | .closing :: tokens =>
    match outer with
    | [] => .error .extraClosing
    | around :: outer => build outer (list items.reverse :: around) tokens

def ofTokens (tokens : List Token) : Except Imbalance (List SExpr) := build [] [] tokens

def parse (text : String) : Except ReadError (List SExpr) := do
  match ofTokens (← Token.ofText text) with
  | .ok exprs => return exprs
  | .error .extraClosing => throw (.unbalanced text)
  | .error .missingClosing => throw (.incomplete text)

def parseOne (text : String) : Except ReadError SExpr := do
  match ← parse text with
  | [expr] => return expr
  | exprs => throw (.notOne exprs.length text)

end SExpr

end InvariantProver
