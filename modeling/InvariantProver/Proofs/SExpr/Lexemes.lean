import InvariantProver.Proofs.SExpr.Gaps

namespace InvariantProver

open Text

namespace Token

variable {tokens : List Token} {cs rest left blanks body content : List Char} {c : Char}
  {token? : Option Token}

theorem doubled_cons (c : Char) (cs : List Char) :
    doubled (c :: cs) = (if c = '"' then ['"', '"'] else [c]) ++ doubled cs := rfl

/-- Also where the reader takes the first of two quotes for the last one. -/
theorem eq_doubled_of_takeQuoted? (h : takeQuoted? cs = some (content, rest)) :
    cs = doubled content ++ '"' :: rest := by
  fun_induction takeQuoted? cs generalizing content rest with
  | case1 => cases h
  | case2 cs content' rest' htaken ih =>
    obtain ⟨rfl, rfl⟩ := Prod.mk.inj (Option.some.inj h)
    rw [doubled_cons, if_pos rfl, List.append_assoc, ← ih htaken]
    rfl
  | case3 cs htaken ih =>
    obtain ⟨rfl, rfl⟩ := Prod.mk.inj (Option.some.inj h)
    rfl
  | case4 cs _ =>
    obtain ⟨rfl, rfl⟩ := Prod.mk.inj (Option.some.inj h)
    rfl
  | case5 c cs _ hc ih =>
    obtain ⟨⟨content', rest'⟩, htaken, htail⟩ := Option.map_eq_some_iff.mp h
    obtain ⟨rfl, rfl⟩ := Prod.mk.inj htail
    rw [doubled_cons, if_neg hc, List.append_assoc, ← ih htaken]
    rfl

theorem not_mem_of_takeQuoted? (h : takeQuoted? cs = none) : '"' ∉ cs := by
  fun_induction takeQuoted? cs with
  | case1 => simp
  | case2 | case3 | case4 => cases h
  | case5 c cs _ hc ih =>
    rw [List.mem_cons, not_or]
    exact ⟨fun heq => hc heq.symm, ih (Option.map_eq_none_iff.mp h)⟩

theorem not_mem_takeWhile (c : Char) (cs : List Char) : c ∉ cs.takeWhile (· ≠ c) := by
  intro hmem
  simpa using List.mem_takeWhile_imp hmem

theorem eq_of_takeBarred? (h : takeBarred? cs = some (content, rest)) :
    cs = content ++ '|' :: rest ∧ '|' ∉ content := by
  unfold takeBarred? at h
  split at h
  · cases h
  · next c rest' hdrop =>
    obtain ⟨rfl, rfl⟩ := Prod.mk.inj (Option.some.inj h)
    have hfirst : decide (c ≠ '|') = false := head?_dropWhile (by rw [hdrop]; rfl)
    obtain rfl : c = '|' := by simpa using hfirst
    refine ⟨?_, not_mem_takeWhile '|' cs⟩
    rw [← hdrop, List.takeWhile_append_dropWhile]

theorem not_mem_of_takeBarred? (h : takeBarred? cs = none) : '|' ∉ cs := by
  unfold takeBarred? at h
  split at h
  · next hdrop =>
    intro hmem
    simpa using List.dropWhile_eq_nil_iff.mp hdrop _ hmem
  · cases h

inductive Lexeme : Option Token → List Char → List Char → Prop
  | comment {body rest : List Char} :
    '\n' ∉ body → (∀ c ∈ rest.head?, c = '\n') → Lexeme none (';' :: body) rest
  | token {token : Token} {cs : List Char} (rest : List Char) :
    Spelled token cs → Lexeme (some token) cs rest

inductive Lexed : List Token → List Char → List Char → Prop
  | done {left : List Char} : Lexed [] left left
  | next {token? : Option Token} {tokens : List Token} {blanks cs rest left : List Char} :
    (∀ c ∈ blanks, isBlank c = true) → Lexeme token? cs rest → Lexed tokens rest left →
    Lexed (token?.toList ++ tokens) (blanks ++ (cs ++ rest)) left

theorem Lexeme.first (h : Lexeme token? cs rest) : ∃ c ds, cs = c :: ds ∧ isBlank c = false := by
  cases h with
  | comment => exact ⟨_, _, rfl, by decide⟩
  | token _ hspelled =>
    obtain ⟨c, ds, hfirst, hc, -⟩ := hspelled.first
    exact ⟨c, ds, hfirst, hc⟩

theorem lexeme_of_lexemeAt (hc : isBlank c = false) (h : lexemeAt c cs = some (token?, rest)) :
    ∃ used, c :: cs = used ++ rest ∧ Lexeme token? used rest := by
  unfold lexemeAt at h
  split at h
  · next hsemicolon =>
    obtain ⟨rfl, rfl⟩ := Prod.mk.inj (Option.some.inj h)
    refine ⟨';' :: cs.takeWhile (· ≠ '\n'), ?_, .comment (not_mem_takeWhile '\n' cs) fun d hd => ?_⟩
    · rw [hsemicolon, List.cons_append, List.takeWhile_append_dropWhile]
    · simpa using head?_dropWhile hd
  split at h
  · next hopening =>
    obtain ⟨rfl, rfl⟩ := Prod.mk.inj (Option.some.inj h)
    exact ⟨['('], by rw [hopening]; rfl, .token _ .opening⟩
  split at h
  · next hclosing =>
    obtain ⟨rfl, rfl⟩ := Prod.mk.inj (Option.some.inj h)
    exact ⟨[')'], by rw [hclosing]; rfl, .token _ .closing⟩
  split at h
  · next hquote =>
    obtain ⟨⟨content, rest'⟩, htaken, hatom⟩ := Option.map_eq_some_iff.mp h
    obtain ⟨rfl, rfl⟩ := Prod.mk.inj hatom
    refine ⟨'"' :: (doubled content ++ ['"']), ?_, .token _ (.quoted content)⟩
    rw [hquote, eq_doubled_of_takeQuoted? htaken]
    simp
  split at h
  · next hbar =>
    obtain ⟨⟨content, rest'⟩, htaken, hatom⟩ := Option.map_eq_some_iff.mp h
    obtain ⟨rfl, rfl⟩ := Prod.mk.inj hatom
    obtain ⟨hcs, hcontent⟩ := eq_of_takeBarred? htaken
    refine ⟨'|' :: (content ++ ['|']), ?_, .token _ (.barred hcontent)⟩
    rw [hbar, hcs]
    simp
  · next hsemicolon hopening hclosing hquote hbar =>
    obtain ⟨rfl, rfl⟩ := Prod.mk.inj (Option.some.inj h)
    have hplain : ∀ d ∈ c :: cs.takeWhile isPlain, isPlain d = true := by
      intro d hd
      rcases List.mem_cons.mp hd with rfl | hd
      · simp [isPlain, hc, hsemicolon, hopening, hclosing, hquote, hbar]
      · exact List.mem_takeWhile_imp hd
    refine ⟨c :: cs.takeWhile isPlain, ?_, .token _ (.plain hplain)⟩
    rw [List.cons_append, List.takeWhile_append_dropWhile]

theorem unended_of_lexemeAt (h : lexemeAt c cs = none) : (c = '"' ∨ c = '|') ∧ c ∉ cs := by
  unfold lexemeAt at h
  split at h
  · cases h
  split at h
  · cases h
  split at h
  · cases h
  split at h
  · next hquote =>
    subst hquote
    exact ⟨.inl rfl, not_mem_of_takeQuoted? (Option.map_eq_none_iff.mp h)⟩
  split at h
  · next hbar =>
    subst hbar
    exact ⟨.inr rfl, not_mem_of_takeBarred? (Option.map_eq_none_iff.mp h)⟩
  · cases h

theorem lexeme_of_lexeme? (h : lexeme? cs = some (token?, rest)) :
    ∃ blanks used, (∀ c ∈ blanks, isBlank c = true) ∧ cs = blanks ++ (used ++ rest) ∧
      Lexeme token? used rest := by
  obtain ⟨blanks, hblanks, hcs⟩ := blanks_trimLeft cs
  unfold lexeme? at h
  split at h
  · cases h
  · next c ds htrim =>
    have hfirst : c ∈ (cs.dropWhile isBlank).head? := by
      rw [← trimLeft, htrim]
      rfl
    obtain ⟨used, hused, hlexeme⟩ := lexeme_of_lexemeAt (head?_dropWhile hfirst) h
    exact ⟨blanks, used, hblanks, by rw [← hused, ← htrim, ← hcs], hlexeme⟩

theorem unended_of_lexeme? (h : lexeme? cs = none) :
    (∀ c ∈ cs, isBlank c = true) ∨ ∃ blanks c body, (∀ c ∈ blanks, isBlank c = true) ∧
      cs = blanks ++ c :: body ∧ (c = '"' ∨ c = '|') ∧ c ∉ body := by
  obtain ⟨blanks, hblanks, hcs⟩ := blanks_trimLeft cs
  unfold lexeme? at h
  split at h
  · next htrim =>
    rw [htrim, List.append_nil] at hcs
    exact .inl (hcs ▸ hblanks)
  · next c body htrim =>
    rw [htrim] at hcs
    exact .inr ⟨blanks, c, body, hblanks, hcs, unended_of_lexemeAt h⟩

theorem scan_cases (cs : List Char) :
    (∃ tokens, scan cs = .ok tokens ∧ Lexed tokens cs []) ∨
      ∃ tokens left, scan cs = .error left ∧ left ≠ [] ∧ lexeme? left = none ∧ Lexed tokens cs left := by
  fun_induction scan cs with
  | case1 cs hnil =>
    obtain rfl := List.isEmpty_iff.mp hnil
    exact .inl ⟨[], rfl, .done⟩
  | case2 cs hne hnone =>
    exact .inr ⟨[], cs, rfl, fun hnil => hne (List.isEmpty_iff.mpr hnil), hnone, .done⟩
  | case3 cs _ token? rest hlexeme _ ih =>
    obtain ⟨blanks, used, hblanks, hcs, hused⟩ := lexeme_of_lexeme? hlexeme
    rcases ih with ⟨tokens, hscan, hlexed⟩ | ⟨tokens, left, hscan, hleft, hnone, hlexed⟩
    · refine .inl ⟨token?.toList ++ tokens, by rw [hscan]; rfl, ?_⟩
      rw [hcs]
      exact .next hblanks hused hlexed
    · refine .inr ⟨token?.toList ++ tokens, left, by rw [hscan]; rfl, hleft, hnone, ?_⟩
      rw [hcs]
      exact .next hblanks hused hlexed

theorem Lexed.suffix (h : Lexed tokens cs left) : left <:+ cs := by
  induction h with
  | done => exact List.suffix_rfl
  | next _ _ _ ih => exact ih.trans ((List.suffix_append _ _).trans (List.suffix_append _ _))

end Token

end InvariantProver
