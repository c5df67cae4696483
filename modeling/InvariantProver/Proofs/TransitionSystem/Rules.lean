import InvariantProver.Proofs.Number.Readable
import InvariantProver.Proofs.TransitionSystem.Lexical

namespace InvariantProver

inductive Rule
  | typeNames
  | declaredOnce
  | reached
  | nextForms
  | operators
  | operands
  | literals
  | truthValues
  | steps
  | propertyNames
  deriving DecidableEq

/-- Literals that have a value: truth values, whole numbers, and what denotes a finite rational. -/
def Literal.HasValue : Literal → Prop
  | bool _ | int _ | rat _ => True
  | text s => ∃ q, Fraction.read s = .ok q
  | float x => x.IsFinite
  | none => False

namespace Site

inductive Breaks : Rule → Site → Prop
  | typeName {name : String} (h : Ty.ofName? name = none) : Breaks .typeNames (.typeName name)
  | declaration {taken : List String} {name : String} (h : name ∈ taken) :
    Breaks .declaredOnce (.declaration taken name)
  | unreached {next : Bool} : Breaks .reached (.name next none)
  | nextForm {found : Option Named} (h : ∀ i ty?, found ≠ some (.state i ty?)) :
    Breaks .nextForms (.name true found)
  | operator {symbol : String} {args : List Meaning} (h : Op.ofName? symbol = none) :
    Breaks .operators (.apply symbol args)
  | operands {symbol : String} {args : List Meaning} {op : Op} {tys : List Ty}
    (hop : Op.ofName? symbol = some op) (htys : args.map Meaning.ty? = tys.map some)
    (h : ∀ t, ¬ op.Takes tys t) : Breaks .operands (.apply symbol args)
  | literal {l : Literal} (h : ¬ l.HasValue) : Breaks .literals (.literal l)
  | truthValue {place : Place} {r : Meaning} {t : Ty} (hty : r.ty? = some t) (h : t ≠ .bool) :
    Breaks .truthValues (.predicate place r)
  | steps {place : Place} {r : Meaning} (hplace : place ≠ .trans) (h : r.next = true) :
    Breaks .steps (.predicate place r)
  | property {taken : List String} {name : String} (h : name ∈ taken) :
    Breaks .propertyNames (.property taken name)

def Sound (site : Site) : Prop := ∀ rule, ¬ site.Breaks rule

end Site

def Script.WellFormed (s : Script) : Prop := ∀ site ∈ s.sites, site.Sound

/-- The rule that a script breaks when its build fails so. No script is at fault for an invalid
system. -/
def BuildFault.rule? : BuildFault → Option Rule
  | redeclared _ => some .declaredOnce
  | duplicateProperty _ => some .propertyNames
  | unbound _ => some .reached
  | noNextForm _ => some .nextForms
  | nextReference _ => some .steps
  | unknownOperator _ => some .operators
  | unknownType _ => some .typeNames
  | operands .. => some .operands
  | notBool .. => some .truthValues
  | literal _ => some .literals
  | invalid _ => none

namespace Literal

theorem fraction_cases (l : Literal) (written : String) :
    (∃ q, Fraction.read written = .ok q ∧ l.fraction written = .ok (.const (.rat q))) ∨
      (¬ (∃ q, Fraction.read written = .ok q) ∧ ∃ e, l.fraction written = .error e) := by
  unfold fraction
  cases Fraction.read written with
  | ok q => exact .inl ⟨q, rfl, rfl⟩
  | error e => exact .inr ⟨fun ⟨_, h⟩ => (nomatch h), _, rfl⟩

theorem term_cases (l : Literal) :
    (l.HasValue ∧ ∃ value, l.scalar? = some value ∧ l.term = .ok (.const value)) ∨
      (¬ l.HasValue ∧ ∃ e, l.term = .error e) := by
  cases l with
  | bool b => exact .inl ⟨trivial, _, rfl, rfl⟩
  | int i => exact .inl ⟨trivial, _, rfl, rfl⟩
  | rat q => exact .inl ⟨trivial, _, rfl, rfl⟩
  | text s =>
    rcases fraction_cases (text s) s with ⟨q, hread, hterm⟩ | ⟨hread, hterm⟩
    · exact .inl ⟨⟨q, hread⟩, .rat q, by rw [scalar?, hread]; rfl, hterm⟩
    · exact .inr ⟨hread, hterm⟩
  | float x =>
    rcases fraction_cases (float x) x.text with ⟨q, hread, hterm⟩ | ⟨hread, hterm⟩
    · exact .inl ⟨x.read_text.mp ⟨q, hread⟩, .rat q, by rw [scalar?, hread]; rfl, hterm⟩
    · exact .inr ⟨fun h => hread (x.read_text.mpr h), hterm⟩
  | none => exact .inr ⟨id, _, rfl⟩

end Literal

end InvariantProver
