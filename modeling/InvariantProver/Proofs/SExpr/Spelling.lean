import InvariantProver.Proofs.Text.Trimming
import InvariantProver.SExpr.Reader

namespace InvariantProver

open Text

namespace Token

theorem scan_nil : scan [] = .ok [] := by
  rw [scan]
  rfl

theorem scan_of_lexeme {cs rest : List Char} {token? : Option Token}
    (h : lexeme? cs = some (token?, rest)) :
    scan cs = (scan rest).map (token?.toList ++ ·) := by
  have hne : ¬ cs.isEmpty = true := by
    cases cs with
    | nil => simp [lexeme?, trimLeft] at h
    | cons c cs => simp
  rw [scan, if_neg hne]
  split
  · next hnone =>
    rw [h] at hnone
    cases hnone
  · next hsome =>
    rw [h] at hsome
    obtain ⟨rfl, rfl⟩ := Prod.mk.inj (Option.some.inj hsome)
    rfl

def EndsAtom (cs : List Char) : Prop := ∀ c ∈ cs.head?, isPlain c = false

theorem endsAtom_cons {c : Char} {cs : List Char} (h : isPlain c = false) : EndsAtom (c :: cs) := by
  intro d hd
  rwa [← Option.some.inj hd]

/-- The characters give these tokens, whatever blanks are before them and whatever follows them that
does not go on with an atom. -/
def Spells (cs : List Char) (tokens : List Token) : Prop :=
  ∀ blanks rest, (∀ c ∈ blanks, isBlank c = true) → EndsAtom rest →
    scan (blanks ++ cs ++ rest) = (scan rest).map (tokens ++ ·)

theorem Spells.append {cs ds : List Char} {tokens tokens' : List Token} (h : Spells cs tokens)
    (h' : Spells ds tokens') (hds : ∀ rest, EndsAtom rest → EndsAtom (ds ++ rest)) :
    Spells (cs ++ ds) (tokens ++ tokens') := by
  intro blanks rest hblanks hrest
  have hlater := h' [] rest (by simp) hrest
  rw [List.nil_append] at hlater
  rw [← List.append_assoc, List.append_assoc _ ds, h blanks _ hblanks (hds rest hrest), hlater]
  cases scan rest with
  | error cs => rfl
  | ok more => simp [Except.map]

theorem Spells.blank {cs : List Char} {tokens : List Token} (h : Spells cs tokens) :
    Spells (' ' :: cs) tokens := by
  intro blanks rest hblanks hrest
  have hmore : ∀ c ∈ blanks ++ [' '], isBlank c = true := by
    intro c hc
    rcases List.mem_append.mp hc with hc | hc
    · exact hblanks c hc
    · obtain rfl := List.mem_singleton.mp hc
      decide
  simpa using h (blanks ++ [' ']) rest hmore hrest

theorem scan_lexeme {blanks cs rest : List Char} {c : Char} {token : Token}
    (hblanks : ∀ c ∈ blanks, isBlank c = true) (hc : isBlank c = false)
    (h : lexemeAt c cs = some (some token, rest)) :
    scan (blanks ++ c :: cs) = (scan rest).map ([token] ++ ·) := by
  have htrim : trimLeft (blanks ++ c :: cs) = c :: cs := by
    rw [trimLeft_append hblanks, trimLeft_of_first hc]
  have hlexeme : lexeme? (blanks ++ c :: cs) = some (some token, rest) := by
    simp only [lexeme?, htrim]
    exact h
  exact scan_of_lexeme hlexeme

theorem spells_lexeme {c : Char} {cs : List Char} {token : Token} (hc : isBlank c = false)
    (h : ∀ rest, EndsAtom rest → lexemeAt c (cs ++ rest) = some (some token, rest)) :
    Spells (c :: cs) [token] := by
  intro blanks rest hblanks hrest
  rw [List.append_assoc, List.cons_append]
  exact scan_lexeme hblanks hc (h rest hrest)

theorem Spells.opening {cs : List Char} {tokens : List Token} (h : Spells cs tokens) :
    Spells ('(' :: cs) (opening :: tokens) := by
  intro blanks rest hblanks hrest
  have hlexeme : lexemeAt '(' (cs ++ rest) = some (some Token.opening, cs ++ rest) := by
    simp [lexemeAt]
  have hlater := h [] rest (by simp) hrest
  rw [List.nil_append] at hlater
  rw [List.append_assoc, List.cons_append, scan_lexeme hblanks (by decide) hlexeme, hlater]
  cases scan rest with
  | error cs => rfl
  | ok more => simp [Except.map]

theorem spells_closing : Spells [')'] [closing] :=
  spells_lexeme (by decide) fun _ _ => by simp [lexemeAt]

theorem isBlank_of_isPlain {c : Char} (h : isPlain c = true) : isBlank c = false := by
  simp only [isPlain, Bool.and_eq_true, Bool.not_eq_true'] at h
  exact h.1.1.1.1.1

theorem spells_plain {c : Char} {cs : List Char} (h : ∀ d ∈ c :: cs, isPlain d = true) :
    Spells (c :: cs) [atom (String.ofList (c :: cs))] := by
  have hc := h c (by simp)
  have hcs : ∀ d ∈ cs, isPlain d = true := fun d hd => h d (List.mem_cons_of_mem c hd)
  apply spells_lexeme (isBlank_of_isPlain hc)
  intro rest hrest
  have hstop : rest.takeWhile isPlain = [] ∧ rest.dropWhile isPlain = rest := by
    cases rest with
    | nil => exact ⟨rfl, rfl⟩
    | cons d ds =>
      have hd := hrest d (by simp)
      exact ⟨List.takeWhile_cons_of_neg (by simp [hd]), List.dropWhile_cons_of_neg (by simp [hd])⟩
  simp only [isPlain, Bool.and_eq_true, decide_eq_true_eq] at hc
  obtain ⟨⟨⟨⟨⟨-, hopening⟩, hclosing⟩, hbar⟩, hquote⟩, hsemicolon⟩ := hc
  rw [lexemeAt, if_neg hsemicolon, if_neg hopening, if_neg hclosing, if_neg hquote, if_neg hbar,
    List.takeWhile_append_of_pos hcs, List.dropWhile_append_of_pos hcs, hstop.1, hstop.2,
    List.append_nil]
  rfl

theorem spells_barred {cs : List Char} (h : '|' ∉ cs) :
    Spells ('|' :: (cs ++ ['|'])) [atom (String.ofList cs)] := by
  have hcs : ∀ d ∈ cs, decide (d ≠ '|') = true := by
    intro d hd
    have hne : d ≠ '|' := fun he => h (he ▸ hd)
    exact decide_eq_true hne
  apply spells_lexeme (by decide)
  intro rest _
  have htaken : takeBarred? (cs ++ ['|'] ++ rest) = some (cs, rest) := by
    unfold takeBarred?
    rw [List.append_assoc, List.dropWhile_append_of_pos hcs, List.takeWhile_append_of_pos hcs]
    simp
  rw [lexemeAt, if_neg (by decide), if_neg (by decide), if_neg (by decide), if_neg (by decide),
    if_pos rfl, htaken]
  rfl

end Token

namespace SExpr

def tokens : SExpr → List Token :=
  fold (fun text => [.atom text]) fun items => .opening :: items.flatten ++ [.closing]

@[simp] theorem tokens_atom (text : String) : (atom text).tokens = [.atom text] := by
  simp [tokens]

@[simp] theorem tokens_list (items : List SExpr) :
    (list items).tokens = .opening :: (items.flatMap tokens ++ [.closing]) := by
  simp [tokens, List.flatMap_def]

mutual

theorem build_tokens (outer : List (List SExpr)) (items : List SExpr) (more : List Token) :
    ∀ e : SExpr, build outer items (e.tokens ++ more) = build outer (e :: items) more
  | atom text => by rw [tokens_atom, List.singleton_append, build]
  | list es => by
    rw [tokens_list, List.cons_append, build, List.append_assoc,
      build_flatMap_tokens (items :: outer) [] _ es, List.singleton_append, build]
    simp

theorem build_flatMap_tokens (outer : List (List SExpr)) (items : List SExpr) (more : List Token) :
    ∀ es : List SExpr,
      build outer items (es.flatMap tokens ++ more) = build outer (es.reverse ++ items) more
  | [] => rfl
  | e :: es => by
    rw [List.flatMap_cons, List.append_assoc, build_tokens outer items _ e,
      build_flatMap_tokens outer (e :: items) more es]
    simp

end

theorem ofTokens_flatMap_tokens (es : List SExpr) : ofTokens (es.flatMap tokens) = .ok es := by
  have h := build_flatMap_tokens [] [] [] es
  rw [List.append_nil, List.append_nil] at h
  rw [ofTokens, h, build]
  simp

theorem ofTokens_tokens (e : SExpr) : ofTokens e.tokens = .ok [e] := by
  have h := ofTokens_flatMap_tokens [e]
  rwa [List.flatMap_singleton] at h

structure SpelledBy (e : SExpr) (text : String) : Prop where
  tokens : Token.Spells text.toList e.tokens
  last : ∃ cs c, text.toList = cs ++ [c] ∧ isBlank c = false

theorem parse_of_ofText {text : String} {tokens : List Token} (h : Token.ofText text = .ok tokens) :
    parse text = match ofTokens tokens with
      | .ok exprs => .ok exprs
      | .error .extraClosing => .error (.unbalanced text)
      | .error .missingClosing => .error (.incomplete text) := by
  simp only [parse, h, bind, Except.bind]
  cases ofTokens tokens with
  | ok exprs => rfl
  | error e => cases e <;> rfl

theorem parse_eq_ok {text : String} {es : List SExpr} (h : parse text = .ok es) :
    ∃ tokens, Token.ofText text = .ok tokens ∧ ofTokens tokens = .ok es := by
  cases htokens : Token.ofText text with
  | error e =>
    simp only [parse, htokens] at h
    cases h
  | ok tokens =>
    rw [parse_of_ofText htokens] at h
    refine ⟨tokens, rfl, ?_⟩
    split at h
    · next hall => rw [hall, Except.ok.inj h]
    · cases h
    · cases h

theorem parseOne_of_ofText {e : SExpr} {text : String} (h : Token.ofText text = .ok e.tokens) :
    parseOne text = .ok e := by
  rw [parseOne, parse_of_ofText h, ofTokens_tokens]
  rfl

theorem parseOne_of_scan {e : SExpr} {text : String} (hscan : Token.scan text.toList = .ok e.tokens)
    (hlast : ∃ cs c, text.toList = cs ++ [c] ∧ isBlank c = false) : parseOne text = .ok e := by
  apply parseOne_of_ofText
  simp only [Token.ofText, trimRight_of_last hlast, hscan]

theorem parseOne_of_spelledBy {e : SExpr} {text : String} (h : e.SpelledBy text) :
    parseOne text = .ok e := by
  refine parseOne_of_scan ?_ h.last
  have hwhole := h.tokens [] [] (by simp) (by simp [Token.EndsAtom])
  rw [List.append_nil, List.nil_append, Token.scan_nil] at hwhole
  simpa [Except.map] using hwhole

theorem spelledBy_plain {text : String} (hne : text ≠ "")
    (h : ∀ c ∈ text.toList, Token.isPlain c = true) : (atom text).SpelledBy text := by
  have hlist : text.toList ≠ [] := fun hnil => hne (String.toList_eq_nil_iff.mp hnil)
  constructor
  · obtain ⟨c, cs, hcs⟩ := List.exists_cons_of_ne_nil hlist
    rw [hcs] at h
    have hspells := Token.spells_plain h
    rwa [← hcs, String.ofList_toList] at hspells
  · refine ⟨_, _, (List.dropLast_concat_getLast hlist).symm, ?_⟩
    exact Token.isBlank_of_isPlain (h _ (List.getLast_mem hlist))

theorem spelledBy_barred {name : String} (h : '|' ∉ name.toList) :
    (atom name).SpelledBy ("|" ++ name ++ "|") := by
  have htext : ("|" ++ name ++ "|").toList = '|' :: (name.toList ++ ['|']) := by simp
  constructor
  · have hspells := Token.spells_barred h
    rwa [String.ofList_toList, ← htext] at hspells
  · exact ⟨'|' :: name.toList, '|', htext, by decide⟩

theorem toList_parenthesized (part : String) (parts : List String) :
    (parenthesized (part :: parts)).toList =
      '(' :: (part.toList ++ ((parts.flatMap fun part => ' ' :: part.toList) ++ [')'])) := by
  have hrest : ∀ (part : String) (parts : List String), (" ".intercalate (part :: parts)).toList =
      part.toList ++ parts.flatMap fun part => ' ' :: part.toList := by
    intro part parts
    induction parts generalizing part with
    | nil => simp
    | cons next parts ih =>
      rw [String.intercalate_cons_cons, String.toList_append, ih]
      simp
  simp [parenthesized, hrest]

section

variable {α : Type} {expr : α → SExpr} {text : α → String}

theorem spells_items (xs : List α) (h : ∀ x ∈ xs, (expr x).SpelledBy (text x)) :
    Token.Spells (((xs.map text).flatMap fun part => ' ' :: part.toList) ++ [')'])
      ((xs.map expr).flatMap tokens ++ [.closing]) := by
  induction xs with
  | nil => exact Token.spells_closing
  | cons x xs ih =>
    have hx := h x (by simp)
    have hxs := ih fun y hy => h y (List.mem_cons_of_mem x hy)
    simp only [List.map_cons, List.flatMap_cons, List.append_assoc]
    apply Token.Spells.append hx.tokens.blank hxs
    intro rest _
    cases xs with
    | nil => exact Token.endsAtom_cons (by decide)
    | cons y ys => exact Token.endsAtom_cons (by decide)

theorem spelledBy_parenthesized {e : SExpr} {part : String} (he : e.SpelledBy part) (xs : List α)
    (h : ∀ x ∈ xs, (expr x).SpelledBy (text x)) :
    (list (e :: xs.map expr)).SpelledBy (parenthesized (part :: xs.map text)) := by
  have htext := toList_parenthesized part (xs.map text)
  have hitems : Token.Spells
      (part.toList ++ (((xs.map text).flatMap fun part => ' ' :: part.toList) ++ [')']))
      (e.tokens ++ ((xs.map expr).flatMap tokens ++ [.closing])) := by
    apply Token.Spells.append he.tokens (spells_items xs h)
    intro rest _
    cases xs with
    | nil => exact Token.endsAtom_cons (by decide)
    | cons x xs => exact Token.endsAtom_cons (by decide)
  constructor
  · rw [htext, tokens_list, List.flatMap_cons, List.append_assoc]
    exact hitems.opening
  · refine ⟨'(' :: (part.toList ++ (xs.map text).flatMap fun part => ' ' :: part.toList), ')', ?_,
      by decide⟩
    rw [htext]
    simp

end

end SExpr

end InvariantProver
