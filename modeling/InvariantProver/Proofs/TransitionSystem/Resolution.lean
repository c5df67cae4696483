import InvariantProver.TransitionSystem.Building

/-!
Scripts read for the declarations that their names resolve to. A name resolves to the innermost
declaration of its place, and each binding is a declaration of its own, whatever name, span and term
it has.
-/

namespace InvariantProver

structure LetDeclaration where
  name : String
  span : Span
  number : Nat
  deriving DecidableEq

abbrev Names := List (String × Option LetDeclaration)

structure Survey where
  lets : List LetDeclaration := []
  used : List LetDeclaration := []
  declared : List (String × Span) := []

namespace Survey

def use (r : Survey) (l? : Option LetDeclaration) : Survey := { r with used := r.used ++ l?.toList }

def nextLet (r : Survey) (name : String) (span : Span) : LetDeclaration := ⟨name, span, r.lets.length⟩

def complete (r : Survey) (name : String) (span : Span) : Survey :=
  { r with lets := r.lets ++ [r.nextLet name span] }

def state (r : Survey) (name : String) (span : Span) : Survey :=
  { r with declared := r.declared ++ [(name, span)] }

end Survey

mutual

def Expr.survey (names : Names) (r : Survey) : Expr → Survey
  | .literal _ _ => r
  | .name ident _ _ => r.use (names.lookup ident).join
  | .apply _ args _ => Expr.surveyAll names r args
  | .letIn bindings body _ =>
    let (inner, r) := Binder.surveyAll names r bindings
    body.survey inner r

def Expr.surveyAll (names : Names) (r : Survey) : List Expr → Survey
  | [] => r
  | e :: es => Expr.surveyAll names (e.survey names r) es

def Binder.survey (names : Names) (r : Survey) : Binder → Names × Survey
  | .mk name value span =>
    let r := value.survey names r
    ((name, some (r.nextLet name span)) :: names, r.complete name span)

def Binder.surveyAll (names : Names) (r : Survey) : List Binder → Names × Survey
  | [] => (names, r)
  | b :: bs =>
    let (names, r) := b.survey names r
    Binder.surveyAll names r bs

end

mutual

def Item.survey (names : Names) (r : Survey) : Item → Names × Survey
  | .vars declared _ span =>
    ((declared.map (·, none)).reverse ++ names, declared.foldl (·.state · span) r)
  | .binding b => b.survey names r
  | .init es | .trans es => (names, Expr.surveyAll names r es)
  | .property _ e _ => (names, e.survey names r)
  | .block items => (names, (Item.surveyAll names r items).2)

def Item.surveyAll (names : Names) (r : Survey) : List Item → Names × Survey
  | [] => (names, r)
  | i :: is =>
    let (names, r) := i.survey names r
    Item.surveyAll names r is

end

def Script.survey (s : Script) : Survey := (Item.surveyAll [] {} s.items).2

/-! ### What there is to report -/

def LetDeclaration.unused (l : LetDeclaration) : Diagnostic := ⟨.unusedLet l.name, some l.span⟩

def Survey.unusedLets (r : Survey) : List LetDeclaration := r.lets.filter (· ∉ r.used)

def IsVariableOf (decl : String × Span) (v : Variable) : Prop :=
  v.name = decl.1 ∨ ∃ n, v.name = Build.candidate decl.1 n

def renaming? (decl : String × Span) (v : Variable) : Option Diagnostic :=
  if v.name = decl.1 then none else some ⟨.renamed decl.1 v.name, some decl.2⟩

def Survey.renamings (r : Survey) (vs : List Variable) : List Diagnostic :=
  (r.declared.zip vs).filterMap fun (decl, v) => renaming? decl v

end InvariantProver
