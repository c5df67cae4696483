import InvariantProver.Proofs.SExpr.Lexemes
import InvariantProver.Proofs.Smt.Meaning
import InvariantProver.Smt.Command
import Mathlib.Data.List.Nodup
import Mathlib.Data.List.TakeWhile

/-!
Scripts as solvers read them: which symbols are declared in the scopes that the commands so far leave open,
and which commands are legal there. The texts of commands about variables with names of their own are read as
what they say, unless a name has a bar in it. The declaration of such a name never is.
-/

namespace InvariantProver

open Text

namespace SExpr

mutual

/-- The symbols in an expression. What comes first in a list is a function of the theories. -/
def symbols : SExpr → List String
  | atom text => if (Smt.literal? text).isSome then [] else [text]
  | list (atom _ :: args) => symbolsOfAll args
  | list es => symbolsOfAll es

def symbolsOfAll : List SExpr → List String
  | [] => []
  | e :: es => symbols e ++ symbolsOfAll es

end

theorem symbolsOfAll_eq (es : List SExpr) : symbolsOfAll es = es.flatMap symbols := by
  induction es with
  | nil => rfl
  | cons e es ih => rw [symbolsOfAll, ih, List.flatMap_cons]

theorem symbols_app (f : String) (args : List SExpr) :
    symbols (list (atom f :: args)) = args.flatMap symbols := by
  rw [symbols, symbolsOfAll_eq]

theorem symbols_literal {text : String} {value : Scalar} (h : Smt.literal? text = some value) :
    symbols (atom text) = [] := by
  rw [symbols, h]
  rfl

theorem symbols_text (r : Ref) : symbols (atom r.text) = [r.text] := by
  rw [symbols, Smt.literal?_text]
  rfl

theorem symbols_scalar (value : Scalar) : value.sexpr.symbols = [] := by
  have hsigned : ∀ {body : SExpr} (negative : Bool), body.symbols = [] →
      (Scalar.signedExpr negative body).symbols = [] := by
    intro body negative hbody
    cases negative with
    | false => exact hbody
    | true => simpa [Scalar.signedExpr, symbols_app] using hbody
  have hdecimal : ∀ n, symbols (atom (Scalar.decimalText n)) = [] := fun n =>
    symbols_literal (Smt.literal?_decimalText n)
  cases value with
  | bool b => cases b <;> rfl
  | int i => exact hsigned _ (symbols_literal (Smt.literal?_natText _))
  | rat q =>
    refine hsigned _ ?_
    split
    · exact hdecimal _
    · simp [symbols_app, hdecimal]

theorem symbols_term (t : Term) : t.sexpr.symbols = t.refs.map Ref.text := by
  induction t using Term.induct with
  | const value =>
    rw [Term.sexpr, Term.fold_const, symbols_scalar]
    simp [Term.refs]
  | ref r =>
    rw [Term.sexpr, Term.fold_ref, symbols_text]
    simp [Term.refs]
  | app op args ih =>
    have hconverted : ∀ e : SExpr, (Term.converted e).symbols = e.symbols := by
      intro e
      simp [Term.converted, symbols_app]
    have hargs : (args.map Term.sexpr).flatMap symbols = args.flatMap fun a => a.refs.map Ref.text := by
      rw [List.flatMap_map]
      exact List.flatMap_congr ih
    rw [Term.sexpr_app, symbols_app, Term.refs_app, List.map_flatMap, ← hargs]
    cases Term.converts op args with
    | false => rfl
    | true => simp [List.flatMap_map, hconverted]

end SExpr

namespace Smt

structure Stage where
  scopes : List (Entries String Ty) := [[]]
  /-- Nothing has been declared, asserted, opened or closed since the last check. -/
  checked : Bool := false
  deriving DecidableEq

namespace Stage

def sort? (stage : Stage) (symbol : String) : Option Ty := Entries.get? symbol stage.scopes.flatten

def knows (stage : Stage) (symbols : List String) : Bool :=
  symbols.all fun symbol => (stage.sort? symbol).isSome

def declare (symbol : String) (ty : Ty) (stage : Stage) : Option Stage :=
  match stage.scopes with
  | [] => none
  | scope :: outer =>
    if (stage.sort? symbol).isSome then none else some { scopes := ((symbol, ty) :: scope) :: outer }

def pop (stage : Stage) : Option Stage :=
  match stage.scopes with
  | _ :: scope :: outer => some { scopes := scope :: outer }
  | _ => none

def after (stage : Stage) : SExpr → Option Stage
  | .list [.atom "set-option", .atom _, .atom _] => some stage
  | .list [.atom "declare-const", .atom symbol, .atom sort] =>
    ([Ty.bool, .int, .rat].find? (·.sortName = sort)).bind fun ty => stage.declare symbol ty
  | .list [.atom "assert", e] =>
    if stage.knows e.symbols then some { stage with checked := false } else none
  | .list [.atom "push", .atom "1"] => some { scopes := [] :: stage.scopes }
  | .list [.atom "pop", .atom "1"] => stage.pop
  | .list [.atom "check-sat"] => some { stage with checked := true }
  | .list [.atom "get-value", .list (e :: es)] =>
    if stage.checked && stage.knows (SExpr.symbolsOfAll (e :: es)) then some stage else none
  | .list [.atom "get-info", .atom ":reason-unknown"] => if stage.checked then some stage else none
  | _ => none

end Stage

def named : SExpr → List String
  | .list [.atom "declare-const", .atom symbol, _] => [symbol]
  | .list [.atom "assert", e] => e.symbols
  | .list [.atom "get-value", .list es] => SExpr.symbolsOfAll es
  | _ => []

end Smt

namespace Command

def refs : Command → List Ref
  | declare r => [r]
  | assert t => t.refs
  | getValue refs => refs
  | _ => []

def sexpr : Command → SExpr
  | setOption name value => .list [.atom "set-option", .atom (":" ++ name), .atom value]
  | declare r => .list [.atom "declare-const", .atom r.text, .atom r.ty.sortName]
  | assert t => .list [.atom "assert", t.sexpr]
  | push => .list [.atom "push", .atom "1"]
  | pop => .list [.atom "pop", .atom "1"]
  | checkSat => .list [.atom "check-sat"]
  | getValue refs => .list [.atom "get-value", .list (refs.map fun r => .atom r.text)]
  | reasonUnknown => .list [.atom "get-info", .atom ":reason-unknown"]
  | exit => .list [.atom "exit"]

/-- Options are named and set by plain words, and values are asked for of some reference at least. -/
def Worded : Command → Prop
  | setOption name value => isWord (":" ++ name) ∧ isWord value
  | getValue refs => refs ≠ []
  | _ => True

end Command

namespace SExpr

theorem spelledBy_word {word : String} (h : isWord word = true) : (atom word).SpelledBy word := by
  rw [isWord, Bool.and_eq_true, List.all_eq_true] at h
  exact spelledBy_plain (of_decide_eq_true h.1) h.2

theorem spelledBy_words (word : String) (words : List String) (h : ∀ w ∈ word :: words, isWord w = true) :
    (list (atom word :: words.map atom)).SpelledBy (parenthesized (word :: words)) := by
  have hall : (list (atom word :: words.map atom)).SpelledBy (parenthesized (word :: words.map id)) :=
    spelledBy_parenthesized (spelledBy_word (h word (by simp))) words fun w hw =>
      spelledBy_word (h w (List.mem_cons_of_mem word hw))
  rwa [List.map_id] at hall

theorem spelledBy_keyword {word text : String} {e : SExpr} (hword : isWord word = true)
    (h : e.SpelledBy text) : (list [atom word, e]).SpelledBy (parenthesized [word, text]) := by
  have hpart : ∀ part ∈ [(e, text)], part.1.SpelledBy part.2 := by simpa using h
  exact spelledBy_parenthesized (spelledBy_word hword) [(e, text)] hpart

theorem spelledBy_refs {refs : List Ref} (hne : refs ≠ []) (h : ∀ r ∈ refs, '|' ∉ r.var.name.toList) :
    (list (refs.map fun r => atom r.text)).SpelledBy (parenthesized (refs.map Ref.smt)) := by
  obtain ⟨r, refs, rfl⟩ := List.exists_cons_of_ne_nil hne
  have hsymbol : ∀ r' ∈ r :: refs, (atom r'.text).SpelledBy r'.smt := fun r' hr' =>
    spelledBy_barred (Ref.not_mem_text (h r' hr'))
  exact spelledBy_parenthesized (hsymbol r (by simp)) refs fun r' hr' =>
    hsymbol r' (List.mem_cons_of_mem r hr')

end SExpr

namespace Command

theorem spelledBy_sexpr {c : Command} (hworded : c.Worded) (hbars : ∀ r ∈ c.refs, '|' ∉ r.var.name.toList) :
    c.sexpr.SpelledBy c.text := by
  cases c with
  | setOption name value =>
    refine SExpr.spelledBy_words _ [":" ++ name, value] fun w hw => ?_
    simp only [List.mem_cons, List.not_mem_nil, or_false] at hw
    rcases hw with rfl | rfl | rfl
    · decide
    · exact hworded.1
    · exact hworded.2
  | declare r =>
    have hsort : (SExpr.atom r.ty.sortName).SpelledBy r.ty.sortName :=
      SExpr.spelledBy_word (by cases r.ty <;> decide)
    have hparts : ∀ part ∈ [(SExpr.atom r.text, r.smt), (SExpr.atom r.ty.sortName, r.ty.sortName)],
        part.1.SpelledBy part.2 := by
      simp only [List.mem_cons, List.not_mem_nil, or_false]
      rintro part (rfl | rfl)
      · exact SExpr.spelledBy_barred (Ref.not_mem_text (hbars r (by simp [refs])))
      · exact hsort
    exact SExpr.spelledBy_parenthesized (SExpr.spelledBy_word (by decide)) _ hparts
  | assert t => exact SExpr.spelledBy_keyword (by decide) (Term.spelledBy_sexpr hbars)
  | getValue refs => exact SExpr.spelledBy_keyword (by decide) (SExpr.spelledBy_refs hworded hbars)
  | push => exact SExpr.spelledBy_words "push" ["1"] (by decide)
  | pop => exact SExpr.spelledBy_words "pop" ["1"] (by decide)
  | checkSat => exact SExpr.spelledBy_words "check-sat" [] (by decide)
  | reasonUnknown =>
    exact SExpr.spelledBy_words "get-info" [":reason-unknown"] (by decide)
  | exit => exact SExpr.spelledBy_words "exit" [] (by decide)

/-- A solver reads a command as what it says: its text is one expression, which is legal where it comes, and
the symbols in it are those of its references, declared with the sorts of their variables. -/
def Legal (c : Command) (stage stage' : Smt.Stage) : Prop :=
  ∃ e, SExpr.parseOne c.text = .ok e ∧ stage.after e = some stage' ∧
    Smt.named e = c.refs.map Ref.text ∧ ∀ r ∈ c.refs, stage'.sort? r.text = some r.ty

theorem named_sexpr (c : Command) : Smt.named c.sexpr = c.refs.map Ref.text := by
  cases c with
  | assert t => exact SExpr.symbols_term t
  | getValue refs =>
    have hsymbols : ∀ rs : List Ref, (rs.map fun r => SExpr.atom r.text).flatMap SExpr.symbols =
        rs.map Ref.text := by
      intro rs
      rw [List.flatMap_map, List.map_eq_flatMap]
      exact List.flatMap_congr fun r _ => SExpr.symbols_text r
    exact (SExpr.symbolsOfAll_eq _).trans (hsymbols refs)
  | _ => rfl

end Command

section

variable {vs : List Variable} {scopes : List (List Ref)} {stage : Smt.Stage}

theorem Ref.eq_of_text (hnames : (vs.map Variable.name).Nodup) {r r' : Ref} (hr : r.var ∈ vs)
    (hr' : r'.var ∈ vs) (h : r.text = r'.text) : r = r' := by
  obtain ⟨hname, hstep⟩ := Ref.text_injective h
  have hvar : r.var = r'.var := List.inj_on_of_nodup_map hnames hr hr' hname
  cases r
  cases r'
  exact congrArg₂ Ref.mk hvar hstep

theorem Ref.eq_of_smt (hnames : (vs.map Variable.name).Nodup) {r r' : Ref} (hr : r.var ∈ vs)
    (hr' : r'.var ∈ vs) (h : r.smt = r'.smt) : r = r' := by
  refine Ref.eq_of_text hnames hr hr' (String.toList_inj.mp ?_)
  simpa [Ref.smt] using congrArg String.toList h

theorem get?_symbol {rs : List Ref} {r : Ref} (h : ∀ r' ∈ rs, r'.text = r.text → r' = r) :
    Entries.get? r.text (rs.map fun r' => (r'.text, r'.ty)) = if r ∈ rs then some r.ty else none := by
  induction rs with
  | nil => rfl
  | cons r' rs ih =>
    rw [List.map_cons, Entries.get?]
    by_cases htext : r'.text = r.text
    · obtain rfl := h r' (by simp) htext
      simp
    · have hne : r ≠ r' := fun he => htext (congrArg Ref.text he.symm)
      rw [if_neg htext, ih fun r'' hr'' => h r'' (List.mem_cons_of_mem r' hr'')]
      simp [hne]

namespace Smt.Stage

structure Has (vs : List Variable) (scopes : List (List Ref)) (stage : Stage) : Prop where
  declared : stage.scopes = scopes.map fun scope => scope.map fun r => (r.text, r.ty)
  mem : ∀ scope ∈ scopes, ∀ r ∈ scope, r.var ∈ vs

theorem Has.sort? (hnames : (vs.map Variable.name).Nodup) (h : stage.Has vs scopes) {r : Ref}
    (hr : r.var ∈ vs) : stage.sort? r.text = if ∃ scope ∈ scopes, r ∈ scope then some r.ty else none := by
  have hsymbols : stage.scopes.flatten = scopes.flatten.map fun r => (r.text, r.ty) := by
    rw [h.declared, ← List.map_flatten]
  rw [Stage.sort?, hsymbols, get?_symbol]
  · simp [List.mem_flatten]
  · intro r' hr' htext
    obtain ⟨scope, hscope, hmem⟩ := List.mem_flatten.mp hr'
    exact Ref.eq_of_text hnames (h.mem scope hscope r' hmem) hr htext

theorem Has.sort?_declared (hnames : (vs.map Variable.name).Nodup) (h : stage.Has vs scopes) {r : Ref}
    (hr : ∃ scope ∈ scopes, r ∈ scope) : stage.sort? r.text = some r.ty := by
  obtain ⟨scope, hscope, hmem⟩ := hr
  rw [h.sort? hnames (h.mem scope hscope r hmem), if_pos ⟨scope, hscope, hmem⟩]

theorem Has.knows (hnames : (vs.map Variable.name).Nodup) (h : stage.Has vs scopes) {rs : List Ref}
    (hrs : ∀ r ∈ rs, ∃ scope ∈ scopes, r ∈ scope) : stage.knows (rs.map Ref.text) = true := by
  refine List.all_eq_true.mpr fun symbol hsymbol => ?_
  obtain ⟨r, hr, rfl⟩ := List.mem_map.mp hsymbol
  rw [h.sort?_declared hnames (hrs r hr)]
  rfl

end Smt.Stage

namespace Command

variable {c : Command} {stage' : Smt.Stage} (hnames : (vs.map Variable.name).Nodup)
  (hbars : ∀ v ∈ vs, '|' ∉ v.name.toList)

theorem legal_of_after (hworded : c.Worded) (hbars : ∀ r ∈ c.refs, '|' ∉ r.var.name.toList)
    (hafter : stage.after c.sexpr = some stage') (hsorts : ∀ r ∈ c.refs, stage'.sort? r.text = some r.ty) :
    c.Legal stage stage' :=
  ⟨c.sexpr, SExpr.parseOne_of_spelledBy (spelledBy_sexpr hworded hbars), hafter, named_sexpr c, hsorts⟩

theorem legal_of_no_refs (hworded : c.Worded) (hrefs : c.refs = [])
    (hafter : stage.after c.sexpr = some stage') : c.Legal stage stage' :=
  legal_of_after hworded (by simp [hrefs]) hafter (by simp [hrefs])

include hnames hbars

theorem legal_of_declared (hworded : c.Worded) (h : stage.Has vs scopes)
    (hrefs : ∀ r ∈ c.refs, ∃ scope ∈ scopes, r ∈ scope) (hafter : stage.after c.sexpr = some stage')
    (hsame : stage'.scopes = stage.scopes) : c.Legal stage stage' := by
  refine legal_of_after hworded (fun r hr => ?_) hafter fun r hr => ?_
  · obtain ⟨scope, hscope, hmem⟩ := hrefs r hr
    exact hbars r.var (h.mem scope hscope r hmem)
  · have h' : stage'.Has vs scopes := ⟨hsame.trans h.declared, h.mem⟩
    exact h'.sort?_declared hnames (hrefs r hr)

theorem legal_declare {scope : List Ref} {outer : List (List Ref)} {r : Ref}
    (h : stage.Has vs (scope :: outer)) (hr : r.var ∈ vs) (hfresh : ∀ scope' ∈ scope :: outer, r ∉ scope') :
    ∃ stage', (declare r).Legal stage stage' ∧ stage'.Has vs ((r :: scope) :: outer) := by
  have hnone : stage.sort? r.text = none := by
    rw [h.sort? hnames hr, if_neg]
    rintro ⟨scope', hscope', hmem⟩
    exact hfresh scope' hscope' hmem
  have hsort : [Ty.bool, .int, .rat].find? (·.sortName = r.ty.sortName) = some r.ty := by
    cases r.ty <;> decide
  have hhas : Smt.Stage.Has vs ((r :: scope) :: outer)
      { scopes := ((r.text, r.ty) :: scope.map fun r => (r.text, r.ty)) ::
          outer.map fun scope => scope.map fun r => (r.text, r.ty) } := by
    refine ⟨rfl, fun scope' hscope' r' hr' => ?_⟩
    rcases List.mem_cons.mp hscope' with rfl | hscope'
    · rcases List.mem_cons.mp hr' with rfl | hr'
      · exact hr
      · exact h.mem scope (by simp) r' hr'
    · exact h.mem scope' (List.mem_cons_of_mem scope hscope') r' hr'
  have hscopes := h.declared
  rw [List.map_cons] at hscopes
  refine ⟨_, legal_of_after trivial (by simpa [refs] using hbars r.var hr) ?_ ?_, hhas⟩
  · simp only [sexpr, Smt.Stage.after, hsort, Option.bind_some, Smt.Stage.declare, hscopes, hnone]
    rfl
  · intro r' hr'
    obtain rfl := List.mem_singleton.mp hr'
    exact hhas.sort?_declared hnames ⟨_, List.mem_cons_self, List.mem_cons_self⟩

theorem legal_assert (h : stage.Has vs scopes) {t : Term}
    (hrefs : ∀ r ∈ t.refs, ∃ scope ∈ scopes, r ∈ scope) :
    (assert t).Legal stage { stage with checked := false } := by
  refine legal_of_declared hnames hbars trivial h hrefs ?_ rfl
  simp only [sexpr, Smt.Stage.after, SExpr.symbols_term]
  exact if_pos (h.knows hnames hrefs)

theorem legal_getValue (h : stage.Has vs scopes) (hchecked : stage.checked = true) {rs : List Ref}
    (hne : rs ≠ []) (hrefs : ∀ r ∈ rs, ∃ scope ∈ scopes, r ∈ scope) :
    (getValue rs).Legal stage stage := by
  refine legal_of_declared hnames hbars hne h hrefs ?_ rfl
  have hnamed := named_sexpr (getValue rs)
  obtain ⟨r, rs, rfl⟩ := List.exists_cons_of_ne_nil hne
  simp only [sexpr, Smt.named, List.map_cons] at hnamed
  simp only [sexpr, Smt.Stage.after, List.map_cons, hnamed, hchecked, Bool.true_and]
  exact if_pos (h.knows hnames hrefs)

omit hnames hbars

theorem legal_push (stage : Smt.Stage) : push.Legal stage { scopes := [] :: stage.scopes } :=
  legal_of_no_refs trivial rfl rfl

theorem legal_pop {scope scope' : List Ref} {outer : List (List Ref)}
    (h : stage.Has vs (scope :: scope' :: outer)) :
    pop.Legal stage { scopes := stage.scopes.tail } := by
  refine legal_of_no_refs trivial rfl ?_
  simp only [sexpr, Smt.Stage.after, Smt.Stage.pop, h.declared]
  rfl

theorem legal_checkSat (stage : Smt.Stage) : checkSat.Legal stage { stage with checked := true } :=
  legal_of_no_refs trivial rfl rfl

theorem legal_reasonUnknown (hchecked : stage.checked = true) : reasonUnknown.Legal stage stage :=
  legal_of_no_refs trivial rfl (by simp [sexpr, Smt.Stage.after, hchecked])

theorem legal_setOption {name value : String} (h : isWord (":" ++ name) = true ∧ isWord value = true)
    (stage : Smt.Stage) : (setOption name value).Legal stage stage :=
  legal_of_no_refs h rfl rfl

end Command

end

/-! ### Names with bars -/

namespace SExpr

theorem build_bottom {tokens : List Token} {outer : List (List SExpr)} {items es : List SExpr}
    (h : build outer items tokens = .ok es) :
    ∃ more, es = ((items :: outer).getLast (by simp)).reverse ++ more := by
  induction tokens generalizing outer items with
  | nil =>
    cases outer with
    | nil => exact ⟨[], by simpa [build] using h.symm⟩
    | cons around outer => simp [build] at h
  | cons token tokens ih =>
    cases token with
    | atom text =>
      obtain ⟨more, rfl⟩ := ih h
      cases outer with
      | nil => exact ⟨atom text :: more, by simp⟩
      | cons around outer => exact ⟨more, rfl⟩
    | opening =>
      have hopened : build (items :: outer) [] tokens = .ok es := h
      obtain ⟨more, hmore⟩ := ih hopened
      exact ⟨more, hmore⟩
    | closing =>
      cases outer with
      | nil => simp [build] at h
      | cons around outer =>
        obtain ⟨more, rfl⟩ := ih h
        cases outer with
        | nil => exact ⟨list items.reverse :: more, by simp⟩
        | cons around' outer => exact ⟨more, rfl⟩

theorem build_first {tokens : List Token} {outer : List (List SExpr)} {items es : List SExpr}
    (h : build (outer ++ [[]]) items tokens = .ok es) :
    ∃ more rest, es = list (((items :: outer).getLast (by simp)).reverse ++ more) :: rest := by
  induction tokens generalizing outer items with
  | nil =>
    have hopen : (outer ++ [[]]).isEmpty = false := by cases outer <;> rfl
    simp [build] at h
  | cons token tokens ih =>
    cases token with
    | atom text =>
      obtain ⟨more, rest, rfl⟩ := ih h
      cases outer with
      | nil => exact ⟨atom text :: more, rest, by simp⟩
      | cons around outer => exact ⟨more, rest, rfl⟩
    | opening =>
      have hopened : build ((items :: outer) ++ [[]]) [] tokens = .ok es := h
      obtain ⟨more, rest, hmore⟩ := ih hopened
      exact ⟨more, rest, hmore⟩
    | closing =>
      cases outer with
      | nil =>
        have hclosed : build [] [list items.reverse] tokens = .ok es := h
        obtain ⟨rest, rfl⟩ := build_bottom hclosed
        exact ⟨[], rest, by simp⟩
      | cons around outer =>
        obtain ⟨more, rest, rfl⟩ := ih h
        cases outer with
        | nil => exact ⟨list items.reverse :: more, rest, by simp⟩
        | cons around' outer => exact ⟨more, rest, rfl⟩

theorem parseOne_eq_ok {text : String} {e : SExpr} (h : parseOne text = .ok e) :
    ∃ tokens, Token.scan (trimRight text.toList) = .ok tokens ∧ ofTokens tokens = .ok [e] := by
  unfold parseOne at h
  obtain ⟨es, hparse, hone⟩ := except_bind_eq_ok.mp h
  obtain ⟨tokens, htokens, hbuild⟩ := parse_eq_ok hparse
  refine ⟨tokens, ?_, ?_⟩
  · unfold Token.ofText at htokens
    dsimp only at htokens
    split at htokens
    · next hscan => exact Except.ok.inj htokens ▸ hscan
    · cases htokens
  · split at hone
    · obtain rfl := Except.ok.inj hone
      exact hbuild
    · cases hone

theorem takeBarred?_of_mem {cs : List Char} (h : '|' ∈ cs) :
    ∃ first later, Token.takeBarred? cs = some (first, later) ∧ '|' ∉ first := by
  cases htaken : Token.takeBarred? cs with
  | none => exact absurd h (Token.not_mem_of_takeBarred? htaken)
  | some taken => exact ⟨taken.1, taken.2, rfl, (Token.eq_of_takeBarred? htaken).2⟩

theorem scan_symbol {word : String} {cs : List Char} {tokens : List Token} (hword : isWord word = true)
    (h : Token.scan ('(' :: (word.toList ++ ' ' :: '|' :: cs)) = .ok tokens) (hbar : '|' ∈ cs) :
    ∃ first more, tokens = .opening :: .atom word :: .atom first :: more ∧ '|' ∉ first.toList := by
  obtain ⟨first, later, htaken, hfirst⟩ := takeBarred?_of_mem hbar
  have hlexeme : Token.lexemeAt '|' cs = some (some (.atom (String.ofList first)), later) := by
    rw [Token.lexemeAt, if_neg (by decide), if_neg (by decide), if_neg (by decide), if_neg (by decide),
      if_pos rfl, htaken]
    rfl
  have hblank : ∀ c ∈ [' '], isBlank c = true := by
    intro c hc
    obtain rfl := List.mem_singleton.mp hc
    decide
  have hsymbol : Token.scan (' ' :: '|' :: cs) = (Token.scan later).map ([.atom (String.ofList first)] ++ ·) :=
    Token.scan_lexeme hblank (by decide) hlexeme
  have hends : Token.EndsAtom (' ' :: '|' :: cs) := Token.endsAtom_cons (by decide)
  have hopening := (spelledBy_word hword).tokens.opening [] (' ' :: '|' :: cs) (by simp) hends
  rw [List.nil_append, List.cons_append, h, hsymbol] at hopening
  obtain ⟨more, hmore, rfl⟩ := except_map_eq_ok.mp hopening.symm
  obtain ⟨more, -, rfl⟩ := except_map_eq_ok.mp hmore
  exact ⟨String.ofList first, more, by simp, by rwa [String.toList_ofList]⟩

end SExpr

namespace Command

/-- Of a symbol with bars in it, a declaration shows what comes before the first of them. -/
theorem declare_reads {r : Ref} {e : SExpr} (h : SExpr.parseOne (declare r).text = .ok e) :
    ∃ first rest, e = .list (.atom "declare-const" :: .atom first :: rest) ∧ '|' ∉ first.toList := by
  obtain ⟨tokens, hscan, hbuild⟩ := SExpr.parseOne_eq_ok h
  obtain ⟨cs, htext, hbar⟩ : ∃ cs, (declare r).text.toList =
      '(' :: ("declare-const".toList ++ ' ' :: '|' :: (cs ++ [')'])) ∧ '|' ∈ cs := by
    refine ⟨r.text.toList ++ '|' :: ' ' :: r.ty.sortName.toList, ?_, by simp⟩
    rw [text, SExpr.toList_parenthesized]
    simp [Ref.smt]
  have htrim : trimRight (declare r).text.toList = (declare r).text.toList := by
    have hblank : isBlank ')' = false := by decide
    simp [trimRight, htext, hblank]
  rw [htrim, htext] at hscan
  obtain ⟨first, more, rfl, hfirst⟩ :=
    SExpr.scan_symbol (by decide) hscan (List.mem_append_left [')'] hbar)
  have hread : SExpr.build ([] ++ [[]]) [.atom first, .atom "declare-const"] more = .ok [e] := hbuild
  obtain ⟨items, rest, hitems⟩ := SExpr.build_first hread
  obtain ⟨rfl, -⟩ := List.cons.inj hitems
  exact ⟨first, items, rfl, hfirst⟩

theorem not_mem_of_legal_declare {r : Ref} {stage stage' : Smt.Stage} (h : (declare r).Legal stage stage') :
    '|' ∉ r.var.name.toList := by
  obtain ⟨e, hparse, -, hnamed, -⟩ := h
  obtain ⟨first, rest, rfl, hfirst⟩ := declare_reads hparse
  have htext : first = r.text := by
    cases rest with
    | nil => cases hnamed
    | cons item rest =>
      cases rest with
      | nil => exact (List.cons.inj hnamed).1
      | cons => cases hnamed
  rw [htext, Ref.toList_text] at hfirst
  exact fun hbar => hfirst (List.mem_append_left _ hbar)

end Command

end InvariantProver
