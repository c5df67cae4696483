import InvariantProver.Text.Blank
import InvariantProver.Text.Digit

namespace InvariantProver.Text

def natText (n : Nat) : String := n.repr

def intText : Int → String
  | .ofNat n => natText n
  | .negSucc n => "-" ++ natText (n + 1)

/-- An underscore in front of a digit parts two digits and is left out. -/
def skipMark : List Char → List Char
  | '_' :: c :: cs => if (digitValue? c).isSome then c :: cs else '_' :: c :: cs
  | cs => cs

theorem length_skipMark_le (cs : List Char) : (skipMark cs).length ≤ cs.length := by
  unfold skipMark
  split
  · split <;> simp
  · exact Nat.le_refl _

def takeDigits : List Char → List Nat × List Char
  | [] => ([], [])
  | c :: cs =>
    match digitValue? c with
    | none => ([], c :: cs)
    | some d =>
      let (ds, rest) := takeDigits (skipMark cs)
      (d :: ds, rest)
termination_by cs => cs.length
decreasing_by
  have := length_skipMark_le cs
  simp only [List.length_cons]
  omega

def digitsValue (ds : List Nat) : Nat := ds.foldl (fun n d => 10 * n + d) 0

def takeSign : List Char → Bool × List Char
  | '-' :: cs => (true, cs)
  | '+' :: cs => (false, cs)
  | cs => (false, cs)

def signed (negative : Bool) (n : Nat) : Int := if negative then -n else n

def readInt? (cs : List Char) : Option Int :=
  let (negative, body) := takeSign (trim cs)
  match takeDigits body with
  | ([], _) => none
  | (ds, []) => some (signed negative (digitsValue ds))
  | _ => none

end InvariantProver.Text
