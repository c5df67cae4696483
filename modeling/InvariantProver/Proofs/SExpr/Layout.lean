import InvariantProver.Proofs.SExpr.Spelling
import InvariantProver.SExpr.Balance

namespace InvariantProver

open Text

namespace Token

def doubled (cs : List Char) : List Char := cs.flatMap fun c => if c = '"' then ['"', '"'] else [c]

inductive Spelled : Token → List Char → Prop
  | opening : Spelled opening ['(']
  | closing : Spelled closing [')']
  | plain {c : Char} {cs : List Char} :
    (∀ d ∈ c :: cs, isPlain d = true) → Spelled (atom (String.ofList (c :: cs))) (c :: cs)
  | barred {cs : List Char} : '|' ∉ cs → Spelled (atom (String.ofList cs)) ('|' :: (cs ++ ['|']))
  | quoted (cs : List Char) : Spelled (atom (String.ofList cs)) ('"' :: (doubled cs ++ ['"']))

def Parted (cs : List Char) : Prop := ∀ c ∈ cs.head?, isBlank c = true ∨ c = '(' ∨ c = ')'

/-- A text of tokens in a row. Only after a parenthesis there is no need to part it from the next
token. -/
inductive Written : List Token → List Char → Prop
  | one {token : Token} {cs : List Char} : Spelled token cs → Written [token] cs
  | cons {token : Token} {tokens : List Token} {cs gap ds : List Char} :
    Spelled token cs → (∀ c ∈ gap, isBlank c = true) →
    (∀ text, token = atom text → Parted (gap ++ ds)) → Written tokens ds →
    Written (token :: tokens) (cs ++ (gap ++ ds))

def Stops (cs : List Char) : Prop := EndsAtom cs ∧ cs.head? ≠ some '"'

theorem parted_of_blanks {gap : List Char} (ds : List Char) (hne : gap ≠ [])
    (h : ∀ c ∈ gap, isBlank c = true) : Parted (gap ++ ds) := by
  intro c hc
  obtain ⟨d, gap, rfl⟩ := List.exists_cons_of_ne_nil hne
  obtain rfl : d = c := by simpa using hc
  exact .inl (h d (by simp))

theorem takeQuoted?_doubled (cs : List Char) {rest : List Char} (hrest : rest.head? ≠ some '"') :
    takeQuoted? (doubled cs ++ '"' :: rest) = some (cs, rest) := by
  induction cs with
  | nil =>
    cases rest with
    | nil => rfl
    | cons d ds =>
      have hd : d ≠ '"' := by simpa using hrest
      simp [doubled, takeQuoted?, hd]
  | cons c cs ih =>
    have hcons : doubled (c :: cs) = (if c = '"' then ['"', '"'] else [c]) ++ doubled cs := rfl
    by_cases hc : c = '"'
    · subst hc
      simp [hcons, takeQuoted?, ih]
    · simp [hcons, hc, takeQuoted?, ih]

theorem scan_spelled {token : Token} {cs blanks rest : List Char} (h : Spelled token cs)
    (hblanks : ∀ c ∈ blanks, isBlank c = true) (hrest : ∀ text, token = atom text → Stops rest) :
    scan (blanks ++ cs ++ rest) = (scan rest).map ([token] ++ ·) := by
  cases h with
  | opening =>
    rw [List.append_assoc, List.singleton_append, scan_lexeme hblanks (by decide)]
    simp [lexemeAt]
  | closing =>
    rw [List.append_assoc, List.singleton_append, scan_lexeme hblanks (by decide)]
    simp [lexemeAt]
  | plain hplain => exact spells_plain hplain blanks rest hblanks (hrest _ rfl).1
  | barred hbar => exact spells_barred hbar blanks rest hblanks (hrest _ rfl).1
  | quoted content =>
    have hlexeme : lexemeAt '"' (doubled content ++ ['"'] ++ rest) =
        some (some (atom (String.ofList content)), rest) := by
      rw [List.append_assoc, List.singleton_append, lexemeAt, if_neg (by decide), if_neg (by decide),
        if_neg (by decide), if_pos rfl, takeQuoted?_doubled content (hrest _ rfl).2]
      rfl
    rw [List.append_assoc, List.cons_append]
    exact scan_lexeme hblanks (by decide) hlexeme

section

variable {token : Token} {tokens more : List Token} {cs ds gap blanks rest : List Char}

theorem Spelled.first (h : Spelled token cs) :
    ∃ c ds, cs = c :: ds ∧ isBlank c = false ∧ c ≠ ';' := by
  cases h with
  | opening => exact ⟨_, _, rfl, by decide, by decide⟩
  | closing => exact ⟨_, _, rfl, by decide, by decide⟩
  | plain hplain =>
    have hfirst := hplain _ List.mem_cons_self
    refine ⟨_, _, rfl, isBlank_of_isPlain hfirst, ?_⟩
    rintro rfl
    exact absurd hfirst (by decide)
  | barred _ => exact ⟨_, _, rfl, by decide, by decide⟩
  | quoted _ => exact ⟨_, _, rfl, by decide, by decide⟩

theorem Spelled.last (h : Spelled token cs) : ∃ ds c, cs = ds ++ [c] ∧ isBlank c = false := by
  cases h with
  | opening => exact ⟨[], _, rfl, by decide⟩
  | closing => exact ⟨[], _, rfl, by decide⟩
  | @plain c cs hplain =>
    have hne : c :: cs ≠ [] := by simp
    refine ⟨_, _, (List.dropLast_concat_getLast hne).symm, ?_⟩
    exact isBlank_of_isPlain (hplain _ (List.getLast_mem hne))
  | @barred cs _ => exact ⟨'|' :: cs, '|', rfl, by decide⟩
  | quoted cs => exact ⟨'"' :: doubled cs, '"', rfl, by decide⟩

theorem Written.front (h : Written (token :: tokens) cs) :
    ∃ ds rest, cs = ds ++ rest ∧ Spelled token ds := by
  cases h with
  | one hspelled => exact ⟨cs, [], (List.append_nil cs).symm, hspelled⟩
  | cons hspelled _ _ _ => exact ⟨_, _, rfl, hspelled⟩

theorem Written.first (h : Written tokens cs) :
    ∃ c ds, cs = c :: ds ∧ isBlank c = false ∧ c ≠ ';' := by
  have hne : tokens ≠ [] := by
    rintro rfl
    cases h
  obtain ⟨token, tokens, rfl⟩ := List.exists_cons_of_ne_nil hne
  obtain ⟨ds, rest, rfl, hspelled⟩ := h.front
  obtain ⟨c, es, rfl, hc⟩ := hspelled.first
  exact ⟨c, es ++ rest, rfl, hc⟩

theorem Written.last (h : Written tokens cs) : ∃ ds c, cs = ds ++ [c] ∧ isBlank c = false := by
  induction h with
  | one hspelled => exact hspelled.last
  | cons _ _ _ _ ih =>
    obtain ⟨ds, c, rfl, hc⟩ := ih
    exact ⟨_, c, by rw [← List.append_assoc, ← List.append_assoc], hc⟩

theorem Written.append (h : Written tokens cs) (hgap : ∀ c ∈ gap, isBlank c = true)
    (hparted : Parted (gap ++ ds)) (hmore : Written more ds) :
    Written (tokens ++ more) (cs ++ (gap ++ ds)) := by
  induction h with
  | one hspelled => exact .cons hspelled hgap (fun _ _ => hparted) hmore
  | @cons token tokens cs gap' ds' hspelled hgap' hparted' hwritten ih =>
    have hassoc : cs ++ (gap' ++ ds') ++ (gap ++ ds) = cs ++ (gap' ++ (ds' ++ (gap ++ ds))) := by simp
    rw [hassoc, List.cons_append]
    refine .cons hspelled hgap' (fun text htext => ?_) ih
    obtain ⟨c, ds'', rfl, -⟩ := hwritten.first
    intro d hd
    refine hparted' text htext d ?_
    cases gap' <;> simpa using hd

theorem Written.blank (h : Written tokens cs) (hmore : Written more ds) :
    Written (tokens ++ more) (cs ++ ' ' :: ds) := by
  have hgap : ∀ c ∈ [' '], isBlank c = true := by
    intro c hc
    obtain rfl := List.mem_singleton.mp hc
    rfl
  exact h.append hgap (parted_of_blanks ds (by simp) hgap) hmore

theorem Written.enclosed (h : Written tokens cs) :
    Written (opening :: (tokens ++ [closing])) ('(' :: (cs ++ [')'])) := by
  have hnone : ∀ c ∈ ([] : List Char), isBlank c = true := by simp
  have hclosed : Written (tokens ++ [closing]) (cs ++ ([] ++ [')'])) :=
    h.append hnone (by simp [Parted]) (.one .closing)
  have hopened : Written (opening :: (tokens ++ [closing])) (['('] ++ ([] ++ (cs ++ ([] ++ [')'])))) :=
    .cons .opening hnone (by simp) hclosed
  simpa using hopened

theorem Spelled.first_letter {c : Char} (h : Spelled token (c :: cs)) (hc : isPlain c = true) :
    ∃ text, token = atom text ∧ text.toList.head? = some c := by
  generalize hcs : c :: cs = spelling at h
  cases h with
  | plain _ => exact ⟨_, rfl, by simp [← hcs]⟩
  | _ =>
    obtain ⟨rfl, -⟩ := List.cons.inj hcs
    exact absurd hc (by decide)

theorem Written.first_letter {c : Char} (h : Written (token :: tokens) (c :: cs))
    (hc : isPlain c = true) : ∃ text, token = atom text ∧ text.toList.head? = some c := by
  obtain ⟨ds, rest, hcs, hspelled⟩ := h.front
  obtain ⟨d, es, rfl, -⟩ := hspelled.first
  obtain ⟨rfl, -⟩ := List.cons.inj hcs
  exact hspelled.first_letter hc

theorem Written.not_error (h : Written (opening :: token :: tokens) cs)
    (htoken : ∀ text, token = atom text → text.toList.head? ≠ some 'e') :
    "(error".toList.isPrefixOf cs = false := by
  have herror : "(error".toList = '(' :: 'e' :: "rror".toList := by decide
  rw [← Bool.not_eq_true, List.isPrefixOf_iff_prefix, herror]
  rintro ⟨rest, htext⟩
  cases h with
  | @cons _ _ _ gap ds hspelled hgap _ hwritten =>
    cases hspelled
    have hletter : 'e' :: ("rror".toList ++ rest) = gap ++ ds := (List.cons.inj htext).2
    cases gap with
    | nil =>
      rw [List.nil_append] at hletter
      obtain ⟨text, htoken', hhead⟩ := (hletter ▸ hwritten).first_letter (by decide)
      exact htoken text htoken' hhead
    | cons c gap =>
      obtain ⟨rfl, -⟩ := List.cons.inj hletter
      exact absurd (hgap 'e' (by simp)) (by decide)

theorem trim_written (h : Written tokens cs) : trim cs = cs := by
  obtain ⟨c, ds, hfirst, hc, -⟩ := h.first
  have hnone : ∀ c ∈ ([] : List Char), isBlank c = true := by simp
  simpa using trim_around hnone hnone ⟨c, ds, hfirst, hc⟩ h.last

end

def rise : Token → Int
  | opening => 1
  | closing => -1
  | atom _ => 0

def depth : List Token → Int
  | [] => 0
  | token :: tokens => token.rise + depth tokens

@[simp] theorem depth_nil : depth [] = 0 := rfl

@[simp] theorem depth_cons (token : Token) (tokens : List Token) :
    depth (token :: tokens) = token.rise + depth tokens := rfl

@[simp] theorem depth_append (tokens more : List Token) :
    depth (tokens ++ more) = depth tokens + depth more := by
  induction tokens with
  | nil => exact (Int.zero_add _).symm
  | cons token tokens ih => rw [List.cons_append, depth_cons, depth_cons, ih, Int.add_assoc]

structure Nested (tokens : List Token) : Prop where
  whole : depth tokens = 0
  beginning : ∀ first later, tokens = first ++ later → 0 ≤ depth first

theorem Nested.nil : Nested [] where
  whole := rfl
  beginning first later h := by
    obtain ⟨rfl, -⟩ := List.append_eq_nil_iff.mp h.symm
    exact Int.le_refl 0

theorem Nested.append {tokens more : List Token} (h : Nested tokens) (h' : Nested more) :
    Nested (tokens ++ more) where
  whole := by rw [depth_append, h.whole, h'.whole, Int.zero_add]
  beginning first later hsplit := by
    rcases List.append_eq_append_iff.mp hsplit with ⟨rest, rfl, hrest⟩ | ⟨rest, rfl, hrest⟩
    · rw [depth_append, h.whole, Int.zero_add]
      exact h'.beginning _ _ hrest
    · exact h.beginning _ _ rfl

theorem Nested.within {tokens first later : List Token} (h : Nested tokens)
    (hsplit : opening :: (tokens ++ [closing]) = first ++ later) (hfirst : first ≠ [])
    (hlater : later ≠ []) : 0 < depth first := by
  obtain ⟨token, first, rfl⟩ := List.exists_cons_of_ne_nil hfirst
  rw [List.cons_append] at hsplit
  obtain ⟨rfl, htail⟩ := List.cons.inj hsplit
  obtain ⟨later, last, rfl⟩ : ∃ ts t, later = ts ++ [t] :=
    ⟨_, _, (List.dropLast_concat_getLast hlater).symm⟩
  rw [← List.append_assoc] at htail
  have hbeginning := h.beginning first later (List.append_inj_left' htail rfl)
  simp only [depth_cons, rise]
  omega

theorem Nested.enclosed {tokens : List Token} (h : Nested tokens) :
    Nested (opening :: (tokens ++ [closing])) := by
  have hwhole : depth (opening :: (tokens ++ [closing])) = 0 := by
    simp only [depth_cons, depth_append, h.whole, rise, depth_nil]
    rfl
  refine ⟨hwhole, fun first later hsplit => ?_⟩
  by_cases hfirst : first = []
  · subst hfirst
    exact Int.le_refl 0
  by_cases hlater : later = []
  · subst hlater
    rw [List.append_nil] at hsplit
    exact Int.le_of_eq (hsplit ▸ hwhole).symm
  · exact Int.le_of_lt (h.within hsplit hfirst hlater)

end Token

namespace SExpr

mutual

theorem nested_tokens : ∀ e : SExpr, Token.Nested e.tokens
  | atom text => by
    refine ⟨by simp [Token.rise], fun first later h => ?_⟩
    rw [tokens_atom] at h
    rcases List.append_eq_cons_iff.mp h.symm with ⟨rfl, -⟩ | ⟨rest, rfl, hrest⟩
    · exact Int.le_refl 0
    · obtain ⟨rfl, -⟩ := List.append_eq_nil_iff.mp hrest.symm
      simp [Token.rise]
  | list es => by
    rw [tokens_list]
    exact (nested_flatMap_tokens es).enclosed

theorem nested_flatMap_tokens : ∀ es : List SExpr, Token.Nested (es.flatMap tokens)
  | [] => .nil
  | e :: es => (nested_tokens e).append (nested_flatMap_tokens es)

end

theorem depth_of_incomplete {e : SExpr} {first later : List Token} (h : e.tokens = first ++ later)
    (hfirst : first ≠ []) (hlater : later ≠ []) : 0 < Token.depth first := by
  cases e with
  | atom text =>
    rw [tokens_atom] at h
    rcases List.append_eq_cons_iff.mp h.symm with ⟨rfl, -⟩ | ⟨rest, rfl, hrest⟩
    · exact absurd rfl hfirst
    · obtain ⟨-, rfl⟩ := List.append_eq_nil_iff.mp hrest.symm
      exact absurd rfl hlater
  | list es =>
    rw [tokens_list] at h
    exact (nested_flatMap_tokens es).within h hfirst hlater

end SExpr

namespace Balance

open Token

def outside (depth : Int) (seen : Bool) : Balance := ⟨depth, seen, false, false⟩

section

variable {depth : Int} {seen : Bool} {token : Token} {tokens : List Token} {cs gap : List Char}

theorem step_blank {c : Char} (h : isBlank c = true) (b : Balance) : step b c = b := by
  have hmarks : c ≠ '"' ∧ c ≠ '|' ∧ c ≠ '(' ∧ c ≠ ')' := by
    refine ⟨?_, ?_, ?_, ?_⟩ <;> rintro rfl <;> exact absurd h (by decide)
  obtain ⟨depth, seen, quoted, barred⟩ := b
  cases quoted <;> cases barred <;> simp [step, hmarks, h]

theorem foldl_blanks (h : ∀ c ∈ gap, isBlank c = true) (b : Balance) : gap.foldl step b = b := by
  induction gap with
  | nil => rfl
  | cons c gap ih =>
    rw [List.foldl_cons, step_blank (h c (by simp))]
    exact ih fun d hd => h d (List.mem_cons_of_mem c hd)

theorem step_plain {c : Char} (h : isPlain c = true) :
    step (outside depth seen) c = outside depth true := by
  have hmarks : c ≠ '"' ∧ c ≠ '|' ∧ c ≠ '(' ∧ c ≠ ')' := by
    refine ⟨?_, ?_, ?_, ?_⟩ <;> rintro rfl <;> exact absurd h (by decide)
  simp [step, outside, hmarks, isBlank_of_isPlain h]

theorem foldl_plain (h : ∀ c ∈ cs, isPlain c = true) :
    cs.foldl step (outside depth true) = outside depth true := by
  induction cs with
  | nil => rfl
  | cons c cs ih =>
    rw [List.foldl_cons, step_plain (h c (by simp))]
    exact ih fun d hd => h d (List.mem_cons_of_mem c hd)

theorem foldl_barred (h : '|' ∉ cs) :
    cs.foldl step ⟨depth, seen, false, true⟩ = ⟨depth, seen, false, true⟩ := by
  induction cs with
  | nil => rfl
  | cons c cs ih =>
    have hc : c ≠ '|' := fun hc => h (hc ▸ List.mem_cons_self)
    have hstep : step ⟨depth, seen, false, true⟩ c = ⟨depth, seen, false, true⟩ := by
      simp [step, hc]
    rw [List.foldl_cons, hstep]
    exact ih fun hmem => h (List.mem_cons_of_mem c hmem)

theorem foldl_quoted (h : '"' ∉ cs) :
    cs.foldl step ⟨depth, seen, true, false⟩ = ⟨depth, seen, true, false⟩ := by
  induction cs with
  | nil => rfl
  | cons c cs ih =>
    have hc : c ≠ '"' := fun hc => h (hc ▸ List.mem_cons_self)
    have hstep : step ⟨depth, seen, true, false⟩ c = ⟨depth, seen, true, false⟩ := by
      simp [step, hc]
    rw [List.foldl_cons, hstep]
    exact ih fun hmem => h (List.mem_cons_of_mem c hmem)

theorem foldl_doubled (cs : List Char) :
    (doubled cs).foldl step ⟨depth, true, true, false⟩ = ⟨depth, true, true, false⟩ := by
  induction cs with
  | nil => rfl
  | cons c cs ih =>
    have hcons : doubled (c :: cs) = (if c = '"' then ['"', '"'] else [c]) ++ doubled cs := rfl
    rw [hcons, List.foldl_append]
    by_cases hc : c = '"'
    · simp [hc, step, ih]
    · simp [hc, step, ih]

theorem step_bar : step (outside depth seen) '|' = ⟨depth, true, false, true⟩ := by simp [step, outside]

theorem step_quote : step (outside depth seen) '"' = ⟨depth, true, true, false⟩ := by simp [step, outside]

theorem foldl_spelled (h : Spelled token cs) : cs.foldl step (outside depth seen) =
    outside (depth + token.rise) (seen || decide (token ≠ .closing)) := by
  cases h with
  | opening => simp [step, outside, rise]
  | closing => simp [step, outside, rise, Int.sub_eq_add_neg]
  | plain hplain =>
    rw [List.foldl_cons, step_plain (hplain _ List.mem_cons_self),
      foldl_plain fun d hd => hplain d (List.mem_cons_of_mem _ hd)]
    simp [rise]
  | barred hbar =>
    rw [List.foldl_cons, List.foldl_append, step_bar, foldl_barred hbar]
    simp [step, outside, rise]
  | quoted content =>
    rw [List.foldl_cons, List.foldl_append, step_quote, foldl_doubled]
    simp [step, outside, rise]

theorem foldl_written (h : Written tokens cs) : cs.foldl step (outside depth seen) =
    outside (depth + Token.depth tokens) (seen || tokens.any fun token => decide (token ≠ .closing)) := by
  induction h generalizing depth seen with
  | one hspelled => simp [foldl_spelled hspelled]
  | cons hspelled hgap _ _ ih =>
    rw [List.foldl_append, List.foldl_append, foldl_spelled hspelled, foldl_blanks hgap, ih]
    simp [Int.add_assoc, Bool.or_assoc]

end

end Balance

namespace SExpr

variable {e : SExpr} {text : String}

theorem isComplete_of_written (h : Token.Written e.tokens text.toList) : isComplete text = true := by
  have hseen : (e.tokens.any fun token => decide (token ≠ .closing)) = true := by
    cases e with
    | atom text => simp
    | list items => simp
  rw [isComplete, Balance.ofText]
  change (text.toList.foldl Balance.step (Balance.outside 0 false)).isClosed = true
  rw [Balance.foldl_written h, e.nested_tokens.whole, hseen]
  decide

theorem isComplete_of_incomplete {first later : List Token} (he : e.tokens = first ++ later)
    (hlater : later ≠ []) (h : Token.Written first text.toList) : isComplete text = false := by
  have hfirst : first ≠ [] := by
    rintro rfl
    cases h
  have hdepth := depth_of_incomplete he hfirst hlater
  rw [isComplete, Balance.ofText]
  change (text.toList.foldl Balance.step (Balance.outside 0 false)).isClosed = false
  rw [Balance.foldl_written h]
  simp [Balance.isClosed, Balance.outside]
  omega

theorem written_parenthesized {α : Type} (expr : α → SExpr) (text : α → String) (x : α)
    (xs : List α) (h : ∀ y ∈ x :: xs, Token.Written (expr y).tokens (text y).toList) :
    Token.Written (list ((x :: xs).map expr)).tokens (parenthesized ((x :: xs).map text)).toList := by
  have hitems : Token.Written (((x :: xs).map expr).flatMap tokens)
      ((text x).toList ++ (xs.map text).flatMap fun part => ' ' :: part.toList) := by
    induction xs generalizing x with
    | nil => simpa using h x (by simp)
    | cons y ys ih =>
      have hrest := ih y fun z hz => h z (List.mem_cons_of_mem x hz)
      exact (h x (by simp)).blank hrest
  have htext := toList_parenthesized (text x) (xs.map text)
  rw [← List.append_assoc, ← List.map_cons] at htext
  rw [htext, tokens_list]
  exact hitems.enclosed

end SExpr

end InvariantProver
