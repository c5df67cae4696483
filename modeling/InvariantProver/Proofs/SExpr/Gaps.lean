import InvariantProver.Proofs.SExpr.Layout

namespace InvariantProver

open Text

namespace Token

inductive Gap : List Char → Prop
  | nil : Gap []
  | blank {c : Char} {gap : List Char} : isBlank c = true → Gap gap → Gap (c :: gap)
  | comment {body gap : List Char} : '\n' ∉ body → Gap gap → Gap (';' :: (body ++ '\n' :: gap))

def Apart (cs : List Char) : Prop := ∃ c ∈ cs.head?, isBlank c = true ∨ c = ';'

inductive Laid : List Token → List Char → Prop
  | done {gap : List Char} : Gap gap → Laid [] gap
  | next {token : Token} {tokens : List Token} {gap cs rest : List Char} :
    Gap gap → Spelled token cs →
    (∀ text text', token = atom text → tokens.head? = some (atom text') → Apart rest) →
    Laid tokens rest → Laid (token :: tokens) (gap ++ (cs ++ rest))

section

variable {token : Token} {tokens : List Token} {cs ds gap blanks body rest : List Char}

theorem Gap.of_blanks (h : ∀ c ∈ blanks, isBlank c = true) : Gap blanks := by
  induction blanks with
  | nil => exact .nil
  | cons c blanks ih => exact .blank (h c (by simp)) (ih fun d hd => h d (List.mem_cons_of_mem c hd))

theorem Gap.append (h : Gap gap) (h' : Gap ds) : Gap (gap ++ ds) := by
  induction h with
  | nil => exact h'
  | blank hc _ ih => exact .blank hc ih
  | comment hbody _ ih =>
    rw [List.cons_append, List.append_assoc]
    exact .comment hbody ih

theorem scan_comment (hbody : '\n' ∉ body) (hrest : ∀ c ∈ rest.head?, c = '\n') :
    scan (';' :: (body ++ rest)) = scan rest := by
  have hinside : ∀ c ∈ body, decide (c ≠ '\n') = true := by
    intro c hc
    exact decide_eq_true fun heq => hbody (heq ▸ hc)
  have hstop : rest.dropWhile (· ≠ '\n') = rest := by
    cases rest with
    | nil => rfl
    | cons c rest => exact List.dropWhile_cons_of_neg (by simp [hrest c rfl])
  have hlexeme : lexeme? (';' :: (body ++ rest)) = some (none, rest) := by
    have htrim : trimLeft (';' :: (body ++ rest)) = ';' :: (body ++ rest) := trimLeft_of_first (by decide)
    simp only [lexeme?, htrim, lexemeAt, if_true]
    rw [List.dropWhile_append_of_pos hinside, hstop]
  rw [scan_of_lexeme hlexeme]
  cases scan rest <;> rfl

theorem scan_blanks (hblanks : ∀ c ∈ blanks, isBlank c = true) (hcs : cs ≠ [])
    (h : scan cs = .ok tokens) : scan (blanks ++ cs) = .ok tokens := by
  have hsame : lexeme? (blanks ++ cs) = lexeme? cs := by
    simp only [lexeme?, trimLeft_append hblanks]
  cases hlexeme : lexeme? cs with
  | none =>
    rw [scan, if_neg (by simp [hcs])] at h
    split at h
    · cases h
    · next hsome => cases hlexeme.symm.trans hsome
  | some lexeme =>
    obtain ⟨token?, rest⟩ := lexeme
    rw [scan_of_lexeme hlexeme] at h
    rw [scan_of_lexeme (hsame.trans hlexeme), h]

theorem scan_blank {c : Char} (hc : isBlank c = true) (hcs : cs ≠ []) (h : scan cs = .ok tokens) :
    scan (c :: cs) = .ok tokens := by
  have hblanks : ∀ d ∈ [c], isBlank d = true := by simpa using hc
  exact scan_blanks hblanks hcs h

theorem Gap.scan_append (h : Gap gap) (hcs : cs ≠ []) (hscan : scan cs = .ok tokens) :
    scan (gap ++ cs) = .ok tokens := by
  induction h with
  | nil => exact hscan
  | blank hc _ ih => exact scan_blank hc (by simp [hcs]) ih
  | @comment body gap hbody _ ih =>
    rw [List.cons_append, List.append_assoc, scan_comment hbody (by simp)]
    exact scan_blank (by decide) (by simp [hcs]) ih

theorem Gap.scan_trimRight (h : Gap gap) : scan (trimRight gap) = .ok [] := by
  induction h with
  | nil => exact scan_nil
  | @blank c gap hc _ ih =>
    rw [← List.singleton_append, trimRight_append]
    split
    · simpa [trimRight, hc] using scan_nil
    · next hmore => exact scan_blank hc hmore ih
  | @comment body gap hbody _ ih =>
    rw [List.append_cons, ← List.cons_append, trimRight_append]
    split
    · have hlast : trimRight (';' :: (body ++ ['\n'])) = ';' :: trimRight body := by
        have hsplit : ';' :: (body ++ ['\n']) = [';'] ++ (body ++ ['\n']) := rfl
        have hbody' : trimRight (body ++ ['\n']) = trimRight body := by
          rw [trimRight_append, if_pos (by decide)]
        rw [hsplit, trimRight_append, hbody']
        split
        · next hnil => rw [hnil]; rfl
        · rfl
      have hcomment : scan (';' :: (trimRight body ++ [])) = scan [] :=
        scan_comment (fun hmem => hbody ((trimRight_initial body).subset hmem)) (by simp)
      rw [List.append_nil] at hcomment
      rw [hlast, hcomment, scan_nil]
    · next hmore =>
      rw [List.cons_append, List.append_assoc, scan_comment hbody (by simp)]
      exact scan_blank (by decide) hmore ih

theorem Stops.of_initial (h : Stops cs) (hds : ds <+: cs) : Stops ds := by
  cases ds with
  | nil => exact ⟨by simp [EndsAtom], by simp⟩
  | cons d ds =>
    obtain ⟨rest, rfl⟩ := hds
    exact h

theorem Apart.stops (h : Apart cs) : Stops cs := by
  obtain ⟨c, hc, hfirst⟩ := h
  have hc' : isPlain c = false ∧ c ≠ '"' := by
    rcases hfirst with hblank | rfl
    · refine ⟨by simp [isPlain, hblank], ?_⟩
      rintro rfl
      exact absurd hblank (by decide)
    · decide
  rw [Option.mem_def] at hc
  constructor
  · intro d hd
    obtain rfl := Option.some.inj (hc.symm.trans hd)
    exact hc'.1
  · rw [hc]
    simpa using hc'.2

theorem Laid.stops (h : Laid tokens cs) (hapart : ∀ text, tokens.head? = some (atom text) → Apart cs) :
    Stops cs := by
  have hgap : ∀ {gap rest : List Char}, Gap gap → Stops rest → Stops (gap ++ rest) := by
    intro gap rest hgap hrest
    cases hgap with
    | nil => exact hrest
    | blank hc _ => exact Apart.stops ⟨_, rfl, .inl hc⟩
    | comment _ _ => exact Apart.stops ⟨_, rfl, .inr rfl⟩
  cases h with
  | done h =>
    have hnil : Stops [] := ⟨by simp [EndsAtom], by simp⟩
    simpa using hgap h hnil
  | @next token _ _ cs _ h hspelled _ _ =>
    cases hspelled with
    | opening => exact hgap h ⟨endsAtom_cons (by decide), by simp⟩
    | closing => exact hgap h ⟨endsAtom_cons (by decide), by simp⟩
    | _ => exact (hapart _ rfl).stops

theorem Laid.scan_trimRight (h : Laid tokens cs) : scan (trimRight cs) = .ok tokens := by
  induction h with
  | done hgap => exact hgap.scan_trimRight
  | @next token tokens gap cs rest hgap hspelled hapart hlaid ih =>
    obtain ⟨c, ds, hfirst, -⟩ := hspelled.first
    have hne : cs ++ trimRight rest ≠ [] := by simp [hfirst]
    have htrim : trimRight (gap ++ (cs ++ rest)) = gap ++ (cs ++ trimRight rest) := by
      have hlast : trimRight (cs ++ rest) = cs ++ trimRight rest := by
        rw [trimRight_append]
        split
        · next hnil => rw [hnil, List.append_nil, trimRight_of_last hspelled.last]
        · rfl
      rw [trimRight_append, hlast, if_neg hne]
    have hstops : ∀ text, token = atom text → Stops (trimRight rest) := fun text htext =>
      (hlaid.stops (hapart text · htext)).of_initial (trimRight_initial rest)
    have hscan : scan ([] ++ cs ++ trimRight rest) = (scan (trimRight rest)).map ([token] ++ ·) :=
      scan_spelled hspelled (by simp) hstops
    rw [List.nil_append, ih] at hscan
    rw [htrim]
    exact hgap.scan_append hne hscan

theorem Laid.after_gap (h : Laid tokens cs) (hgap : Gap gap) : Laid tokens (gap ++ cs) := by
  cases h with
  | done h => exact .done (hgap.append h)
  | next h hspelled hapart hlaid =>
    rw [← List.append_assoc]
    exact .next (hgap.append h) hspelled hapart hlaid

theorem Spelled.first_of_atom {text : String} (h : Spelled (atom text) cs) :
    ∃ c ds, cs = c :: ds ∧ isBlank c = false ∧ c ≠ '(' ∧ c ≠ ')' := by
  cases h with
  | plain hplain =>
    have hc := hplain _ List.mem_cons_self
    refine ⟨_, _, rfl, isBlank_of_isPlain hc, ?_, ?_⟩ <;> rintro rfl <;> exact absurd hc (by decide)
  | barred _ => exact ⟨_, _, rfl, by decide, by decide, by decide⟩
  | quoted _ => exact ⟨_, _, rfl, by decide, by decide, by decide⟩

theorem Written.laid (h : Written tokens cs) : Laid tokens cs := by
  induction h with
  | @one token cs hspelled =>
    have hlaid : Laid [token] ([] ++ (cs ++ [])) := .next .nil hspelled (by simp) (.done .nil)
    simpa using hlaid
  | @cons token tokens cs gap ds hspelled hgap hparted hwritten ih =>
    have hapart : ∀ text text', token = atom text → tokens.head? = some (atom text') →
        Apart (gap ++ ds) := by
      intro text text' htext hnext
      cases gap with
      | cons c gap => exact ⟨c, rfl, .inl (hgap c (by simp))⟩
      | nil =>
        obtain ⟨later, rfl⟩ := List.head?_eq_some_iff.mp hnext
        obtain ⟨es, rest, rfl, hspelled'⟩ := hwritten.front
        obtain ⟨c, es, rfl, hblank, hopening, hclosing⟩ := hspelled'.first_of_atom
        rcases hparted text htext c rfl with hc | hc | hc
        · rw [hc] at hblank
          cases hblank
        · exact absurd hc hopening
        · exact absurd hc hclosing
    have hlaid : Laid (token :: tokens) ([] ++ (cs ++ (gap ++ ds))) :=
      .next .nil hspelled hapart (ih.after_gap (.of_blanks hgap))
    exact hlaid

end

def Bare (text : String) : Prop := text ≠ "" ∧ ∀ c ∈ text.toList, isPlain c = true

theorem Bare.spelled {text : String} (h : Bare text) : Spelled (atom text) text.toList := by
  obtain ⟨hne, hplain⟩ := h
  obtain ⟨c, cs, hcs⟩ := List.exists_cons_of_ne_nil fun hnil => hne (String.toList_eq_nil_iff.mp hnil)
  rw [hcs] at hplain
  have hspelled := Spelled.plain hplain
  rwa [← hcs, String.ofList_toList] at hspelled

end Token

namespace SExpr

variable {e : SExpr} {text : String}

theorem parse_of_laid {es : List SExpr} (h : Token.Laid (es.flatMap tokens) text.toList) :
    parse text = .ok es := by
  have htokens : Token.ofText text = .ok (es.flatMap tokens) := by
    simp only [Token.ofText, h.scan_trimRight]
  rw [parse_of_ofText htokens, ofTokens_flatMap_tokens]

theorem parseOne_of_written (h : Token.Written e.tokens text.toList) : parseOne text = .ok e := by
  have hlaid : Token.Laid ([e].flatMap tokens) text.toList := by
    rw [List.flatMap_singleton]
    exact h.laid
  rw [parseOne, parse_of_laid hlaid]
  rfl

mutual

theorem written_render : ∀ e : SExpr, (∀ text, .atom text ∈ e.tokens → Token.Bare text) →
    Token.Written e.tokens e.render.toList
  | atom text, h => by
    rw [render, fold_atom, tokens_atom]
    exact .one (h text (by simp)).spelled
  | list items, h => by
    have hitems := written_renders items fun e he text htext => h text (by
      rw [tokens_list]
      simp only [List.mem_cons, List.mem_append, List.mem_flatMap]
      exact .inr (.inl ⟨e, he, htext⟩))
    rw [render, fold_list]
    cases items with
    | nil =>
      have hempty : Token.Written [.opening, .closing] (['('] ++ ([] ++ [')'])) :=
        .cons .opening (by simp) (by simp) (.one .closing)
      exact hempty
    | cons e es =>
      have hlist := written_parenthesized id render e es hitems
      rwa [List.map_id] at hlist

theorem written_renders : ∀ es : List SExpr,
    (∀ e ∈ es, ∀ text, .atom text ∈ e.tokens → Token.Bare text) →
      ∀ e ∈ es, Token.Written e.tokens e.render.toList
  | [], _, _, he => absurd he List.not_mem_nil
  | e :: es, h, e', he' => by
    rcases List.mem_cons.mp he' with heq | hmem
    · rw [heq]
      exact written_render e (h e (by simp))
    · exact written_renders es (fun d hd => h d (List.mem_cons_of_mem e hd)) e' hmem

end

/-- Whatever layout expressions are written in, and however their atoms are spelled, the reader finds
them. The plain text of an expression is such a layout if all its atoms can be written as they are. -/
theorem inverts_every_layout :
    (∀ (es : List SExpr) (text : String), Token.Laid (es.flatMap tokens) text.toList →
      parse text = .ok es) ∧
    ∀ e : SExpr, (∀ text, .atom text ∈ e.tokens → Token.Bare text) → parse e.render = .ok [e] := by
  refine ⟨fun es text h => parse_of_laid h, fun e h => ?_⟩
  apply parse_of_laid
  rw [List.flatMap_singleton]
  exact (written_render e h).laid

/-- Parentheses as atoms, comments in two gaps, and a quote within quotes. -/
def crowdedText : String := "\"(\" |)|; two atoms\n(a \"say \"\"hi\"\"\") ; one list\n"

def crowdedItems : List SExpr := [atom "(", atom ")", list [atom "a", atom "say \"hi\""]]

theorem laid_crowded : Token.Laid (crowdedItems.flatMap tokens) crowdedText.toList := by
  have htokens : crowdedItems.flatMap tokens =
      [.atom (String.ofList ['(']), .atom (String.ofList [')']), .opening, .atom (String.ofList ['a']),
        .atom (String.ofList "say \"hi\"".toList), .closing] := by
    simp [crowdedItems]
  rw [htokens]
  have hbetween : Token.Gap "; two atoms\n".toList :=
    .comment (show '\n' ∉ " two atoms".toList by decide) .nil
  have hafter : Token.Gap " ; one list\n".toList :=
    .blank (by decide) (.comment (show '\n' ∉ " one list".toList by decide) .nil)
  have hbarred : Token.Spelled (.atom (String.ofList [')'])) "|)|".toList := .barred (by decide)
  have hplain : Token.Spelled (.atom (String.ofList ['a'])) "a".toList :=
    .plain (List.all_eq_true.mp (by decide))
  have hlaid := Token.Laid.next .nil (.quoted ['(']) (fun _ _ _ _ => ⟨' ', rfl, .inl rfl⟩) <|
    .next (.blank rfl .nil) hbarred (fun _ _ _ h => by simp at h) <|
    .next hbetween .opening (fun _ _ h => by simp at h) <|
    .next .nil hplain (fun _ _ _ _ => ⟨' ', rfl, .inl rfl⟩) <|
    .next (.blank rfl .nil) (.quoted "say \"hi\"".toList) (fun _ _ _ h => by simp at h) <|
    .next .nil .closing (fun _ _ h => by simp at h) (.done hafter)
  exact hlaid

theorem inverts_crowded_layout :
    parse crowdedText = .ok crowdedItems ∧
      parse (list [atom "-", list [atom "f", list []]]).render =
        .ok [list [atom "-", list [atom "f", list []]]] := by
  refine ⟨inverts_every_layout.1 _ _ laid_crowded, inverts_every_layout.2 _ ?_⟩
  intro text htext
  have hwords : text = "-" ∨ text = "f" := by simpa using htext
  rcases hwords with rfl | rfl <;> exact ⟨by decide, List.all_eq_true.mp (by decide)⟩

end SExpr

end InvariantProver
