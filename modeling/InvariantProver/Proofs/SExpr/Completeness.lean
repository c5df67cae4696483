import InvariantProver.Proofs.SExpr.Lexemes

/-!
The test for whole responses beside the reader. The reader skips comments and the test does not, so that
a parenthesis in a comment is counted. On a text without its comments the two agree, and on a text as it
is if no comment of it holds a parenthesis, a double quote or a bar.
-/

namespace InvariantProver

open Text

inductive Region
  | outside
  | quotes
  | bars
  | comment
  deriving DecidableEq

namespace Region

def after (region : Region) (c : Char) : Region :=
  match region with
  | outside => if c = '"' then quotes else if c = '|' then bars else if c = ';' then comment else outside
  | quotes => if c = '"' then outside else quotes
  | bars => if c = '|' then outside else bars
  | comment => if c = '\n' then outside else comment

def uncommented : Region → List Char → List Char
  | _, [] => []
  | region, c :: cs =>
    if region.after c = comment then (region.after c).uncommented cs
    else c :: (region.after c).uncommented cs

def commented : Region → List Char → List Char
  | _, [] => []
  | region, c :: cs =>
    if region.after c = comment then c :: (region.after c).commented cs else (region.after c).commented cs

def afterAll (region : Region) (cs : List Char) : Region := cs.foldl after region

def Between (region : Region) (cs : List Char) : Prop :=
  region = outside ∨ region = comment ∧ ∀ c ∈ cs.head?, c = '\n'

section

variable {region : Region} {cs ds blanks rest body : List Char} {c : Char} {token : Token}

theorem uncommented_append (region : Region) (cs ds : List Char) :
    region.uncommented (cs ++ ds) = region.uncommented cs ++ (region.afterAll cs).uncommented ds := by
  induction cs generalizing region with
  | nil => rfl
  | cons c cs ih =>
    rw [List.cons_append, uncommented, uncommented, ih]
    split <;> rfl

theorem afterAll_append (region : Region) (cs ds : List Char) :
    region.afterAll (cs ++ ds) = (region.afterAll cs).afterAll ds := List.foldl_append

theorem uncommented_sublist (region : Region) (cs : List Char) : (region.uncommented cs).Sublist cs := by
  induction cs generalizing region with
  | nil => exact .slnil
  | cons c cs ih =>
    rw [uncommented]
    split
    · exact (ih _).cons c
    · exact (ih _).cons_cons c

structure Crosses (region : Region) (cs : List Char) (next : Region) : Prop where
  uncommented : region.uncommented cs = cs
  afterAll : region.afterAll cs = next

theorem Crosses.nil : Crosses region [] region := ⟨rfl, rfl⟩

theorem Crosses.cons {next : Region} (h : Crosses (region.after c) cs next) (hc : region.after c ≠ comment) :
    Crosses region (c :: cs) next := by
  refine ⟨?_, h.afterAll⟩
  rw [Region.uncommented, if_neg hc, h.uncommented]

theorem Crosses.append {next last : Region} (h : Crosses region cs next) (h' : Crosses next ds last) :
    Crosses region (cs ++ ds) last := by
  constructor
  · rw [uncommented_append, h.uncommented, h.afterAll, h'.uncommented]
  · rw [afterAll_append, h.afterAll, h'.afterAll]

theorem Crosses.stay (hcs : ∀ c ∈ cs, region.after c = region) (hregion : region ≠ comment) :
    Crosses region cs region := by
  induction cs with
  | nil => exact .nil
  | cons c cs ih =>
    have hc := hcs c (by simp)
    refine .cons ?_ (hc.symm ▸ hregion)
    rw [hc]
    exact ih fun d hd => hcs d (List.mem_cons_of_mem c hd)

theorem after_outside (hquote : c ≠ '"') (hbar : c ≠ '|') (hsemicolon : c ≠ ';') :
    after outside c = outside := by simp [after, hquote, hbar, hsemicolon]

theorem after_blank (h : isBlank c = true) : after outside c = outside := by
  refine after_outside ?_ ?_ ?_ <;> rintro rfl <;> exact absurd h (by decide)

theorem after_plain (h : Token.isPlain c = true) : after outside c = outside := by
  refine after_outside ?_ ?_ ?_ <;> rintro rfl <;> exact absurd h (by decide)

theorem crosses_doubled (cs : List Char) : Crosses quotes (Token.doubled cs) quotes := by
  induction cs with
  | nil => exact .nil
  | cons c cs ih =>
    rw [Token.doubled_cons]
    split
    · exact .cons (.cons ih (by decide)) (by decide)
    · next hc =>
      have hstay : after quotes c = quotes := by simp [after, hc]
      exact .cons (hstay.symm ▸ ih) (hstay.symm ▸ by decide)

theorem crosses_quotes (h : '"' ∉ cs) : Crosses quotes cs quotes := by
  refine .stay (fun c hc => ?_) (by decide)
  have hne : c ≠ '"' := fun heq => h (heq ▸ hc)
  simp [after, hne]

theorem crosses_bars (h : '|' ∉ cs) : Crosses bars cs bars := by
  refine .stay (fun c hc => ?_) (by decide)
  have hne : c ≠ '|' := fun heq => h (heq ▸ hc)
  simp [after, hne]

theorem crosses_spelled (h : Token.Spelled token cs) : Crosses outside cs outside := by
  cases h with
  | opening => exact .cons .nil (by decide)
  | closing => exact .cons .nil (by decide)
  | plain hplain => exact .stay (fun c hc => after_plain (hplain c hc)) (by decide)
  | barred hbar => exact .cons (.append (crosses_bars hbar) (.cons .nil (by decide))) (by decide)
  | quoted cs => exact .cons (.append (crosses_doubled cs) (.cons .nil (by decide))) (by decide)

theorem Between.crosses_blanks (h : Between region (blanks ++ c :: rest))
    (hblanks : ∀ c ∈ blanks, isBlank c = true) (hc : isBlank c = false) : Crosses region blanks outside := by
  rcases h with rfl | ⟨rfl, hfirst⟩
  · exact .stay (fun d hd => after_blank (hblanks d hd)) (by decide)
  · cases blanks with
    | nil =>
      obtain rfl : c = '\n' := hfirst c rfl
      cases hc
    | cons d blanks =>
      obtain rfl : d = '\n' := hfirst d rfl
      refine .cons (.stay (fun d hd => after_blank ?_) (by decide)) (by decide)
      exact hblanks d (List.mem_cons_of_mem _ hd)

theorem uncommented_comment (h : '\n' ∉ body) :
    uncommented outside (';' :: body) = [] ∧ afterAll outside (';' :: body) = comment := by
  have hinside : uncommented comment body = [] ∧ afterAll comment body = comment := by
    induction body with
    | nil => exact ⟨rfl, rfl⟩
    | cons c body ih =>
      rw [List.mem_cons, not_or] at h
      have hc : after comment c = comment := by simp [after, Ne.symm h.1]
      obtain ⟨hbody, hlast⟩ := ih h.2
      refine ⟨by rw [uncommented, if_pos hc, hc, hbody], ?_⟩
      rw [afterAll, List.foldl_cons, hc]
      exact hlast
  exact hinside

theorem uncommented_lexed {tokens : List Token} {left : List Char} (h : Token.Lexed tokens cs left)
    (hregion : Between region cs) : ∃ next, Between next left ∧ ∀ depth seen,
      (region.uncommented cs).foldl Balance.step (Balance.outside depth seen) =
        (next.uncommented left).foldl Balance.step (Balance.outside (depth + Token.depth tokens)
          (seen || tokens.any fun token => decide (token ≠ .closing))) := by
  induction h generalizing region with
  | done => exact ⟨region, hregion, fun depth seen => by simp⟩
  | @next token? tokens blanks cs rest left hblanks hlexeme _ ih =>
    obtain ⟨c, ds, hfirst, hc⟩ := hlexeme.first
    have hcross : Crosses region blanks outside := by
      have hregion' : Between region (blanks ++ c :: (ds ++ rest)) := by rwa [hfirst] at hregion
      exact hregion'.crosses_blanks hblanks hc
    cases hlexeme with
    | comment hbody hrest =>
      obtain ⟨next, hnext, hfold⟩ := ih (.inr ⟨rfl, hrest⟩)
      obtain ⟨hnone, hlast⟩ := uncommented_comment hbody
      refine ⟨next, hnext, fun depth seen => ?_⟩
      rw [uncommented_append, hcross.uncommented, hcross.afterAll, uncommented_append, hnone, hlast,
        List.nil_append, List.foldl_append, Balance.foldl_blanks hblanks, hfold]
      simp
    | @token token _ _ hspelled =>
      obtain ⟨next, hnext, hfold⟩ := ih (.inl rfl)
      have hcross' := crosses_spelled hspelled
      refine ⟨next, hnext, fun depth seen => ?_⟩
      rw [uncommented_append, hcross.uncommented, hcross.afterAll, uncommented_append, hcross'.uncommented,
        hcross'.afterAll, List.foldl_append, Balance.foldl_blanks hblanks, List.foldl_append,
        Balance.foldl_spelled hspelled, hfold]
      simp [Int.add_assoc, Bool.or_assoc]

theorem unended_lexed {left : List Char} (hleft : left ≠ []) (hnone : Token.lexeme? left = none)
    (hlast : ∀ c ∈ left.getLast?, isBlank c = false) (hregion : Between region left) (depth : Int)
    (seen : Bool) :
    ((region.uncommented left).foldl Balance.step (Balance.outside depth seen)).quoted = true ∨
      ((region.uncommented left).foldl Balance.step (Balance.outside depth seen)).barred = true := by
  rcases Token.unended_of_lexeme? hnone with hblank | ⟨blanks, c, body, hblanks, rfl, hc, hbody⟩
  · have hseen := hlast _ (List.getLast?_eq_some_getLast hleft)
    rw [hblank _ (List.getLast_mem hleft)] at hseen
    cases hseen
  · have hcross := hregion.crosses_blanks hblanks (by rcases hc with rfl | rfl <;> decide)
    rw [uncommented_append, hcross.uncommented, hcross.afterAll, List.foldl_append,
      Balance.foldl_blanks hblanks]
    rcases hc with rfl | rfl
    · have hopen : Crosses outside ('"' :: body) quotes := .cons (crosses_quotes hbody) (by decide)
      rw [hopen.uncommented, List.foldl_cons, Balance.step_quote, Balance.foldl_quoted hbody]
      exact .inl rfl
    · have hopen : Crosses outside ('|' :: body) bars := .cons (crosses_bars hbody) (by decide)
      rw [hopen.uncommented, List.foldl_cons, Balance.step_bar, Balance.foldl_barred hbody]
      exact .inr rfl

end

end Region

namespace SExpr

open Region (outside)

def uncommented (text : String) : String := String.ofList (outside.uncommented text.toList)

theorem ofText_uncommented (text : String) :
    (∃ tokens, Token.ofText text = .ok tokens ∧ Balance.ofText (uncommented text) =
      Balance.outside (Token.depth tokens) (tokens.any fun token => decide (token ≠ .closing))) ∨
    (∃ e, Token.ofText text = .error e) ∧ ((Balance.ofText (uncommented text)).quoted = true ∨
      (Balance.ofText (uncommented text)).barred = true) := by
  have hfold : Balance.ofText (uncommented text) = (outside.uncommented (trimRight text.toList)).foldl
      Balance.step (Balance.outside 0 false) := by
    obtain ⟨blanks, hblanks, htext⟩ := trimRight_blanks text.toList
    have hparts := Region.uncommented_append outside (trimRight text.toList) blanks
    rw [← htext] at hparts
    rw [Balance.ofText, uncommented, String.toList_ofList, hparts, List.foldl_append]
    exact Balance.foldl_blanks (fun c hc => hblanks c ((Region.uncommented_sublist _ _).subset hc)) _
  rw [hfold]
  rcases Token.scan_cases (trimRight text.toList) with
    ⟨tokens, hscan, hlexed⟩ | ⟨tokens, left, hscan, hleft, hnone, hlexed⟩
  · obtain ⟨next, -, hall⟩ := Region.uncommented_lexed hlexed (.inl rfl)
    refine .inl ⟨tokens, by simp only [Token.ofText, hscan], ?_⟩
    rw [hall]
    simp [Region.uncommented]
  · obtain ⟨next, hnext, hall⟩ := Region.uncommented_lexed hlexed (.inl rfl)
    refine .inr ⟨by simp [Token.ofText, hscan], ?_⟩
    rw [hall]
    refine Region.unended_lexed hleft hnone (fun c hc => ?_) hnext _ _
    have hlast : c ∈ (trimRight text.toList).getLast? := by
      obtain ⟨read, hread⟩ := hlexed.suffix
      rw [← hread, List.getLast?_append, hc]
      rfl
    exact last_trimRight hlast

theorem depth_of_build (outer : List (List SExpr)) (items : List SExpr) {tokens : List Token} :
    (∀ es, build outer items tokens = .ok es → (outer.length : Int) + Token.depth tokens = 0) ∧
      (build outer items tokens = .error .missingClosing → 0 < (outer.length : Int) + Token.depth tokens) := by
  induction tokens generalizing outer items with
  | nil =>
    rw [build]
    cases outer with
    | nil => simp
    | cons around outer => simp
  | cons token tokens ih =>
    cases token with
    | atom text =>
      rw [build, Token.depth_cons, Token.rise, Int.zero_add]
      exact ih outer (atom text :: items)
    | opening =>
      obtain ⟨hwhole, hmissing⟩ := ih (items :: outer) []
      rw [List.length_cons] at hwhole hmissing
      rw [build, Token.depth_cons, Token.rise]
      refine ⟨fun es h => ?_, fun h => ?_⟩
      · have := hwhole es h
        omega
      · have := hmissing h
        omega
    | closing =>
      cases outer with
      | nil => simp [build]
      | cons around outer =>
        obtain ⟨hwhole, hmissing⟩ := ih outer (list items.reverse :: around)
        rw [build, Token.depth_cons, Token.rise, List.length_cons]
        refine ⟨fun es h => ?_, fun h => ?_⟩
        · have := hwhole es h
          omega
        · have := hmissing h
          omega

theorem any_of_ofTokens {tokens : List Token} {es : List SExpr} (h : ofTokens tokens = .ok es) (hes : es ≠ []) :
    (tokens.any fun token => decide (token ≠ .closing)) = true := by
  cases tokens with
  | nil => exact absurd (Except.ok.inj h).symm hes
  | cons token tokens =>
    cases token with
    | closing => cases h
    | _ => simp

end SExpr

namespace Balance

open Region (outside comment)

def isMark (c : Char) : Bool := c = '(' || c = ')' || c = '"' || c = '|'

structure Sees (b b' : Balance) : Prop where
  depth : b.depth = b'.depth
  quoted : b.quoted = b'.quoted
  barred : b.barred = b'.barred
  seen : b'.seen = true → b.seen = true

structure Fits (region : Region) (b : Balance) : Prop where
  quoted : b.quoted = decide (region = .quotes)
  barred : b.barred = decide (region = .bars)

variable {region : Region} {b b' : Balance} {c : Char} {cs : List Char}

theorem fits_iff (hquotes : region ≠ .quotes) (hbars : region ≠ .bars) :
    Fits region b ↔ b.quoted = false ∧ b.barred = false :=
  ⟨fun h => ⟨by simpa [hquotes] using h.quoted, by simpa [hbars] using h.barred⟩,
    fun h => ⟨by simpa [hquotes] using h.1, by simpa [hbars] using h.2⟩⟩

theorem step_unquoted (h : b.quoted = false ∧ b.barred = false) (hquote : c ≠ '"') (hbar : c ≠ '|') :
    (b.step c).quoted = false ∧ (b.step c).barred = false := by
  simp only [step, h, hquote, hbar, Bool.false_eq_true, if_false]
  split
  · exact ⟨rfl, rfl⟩
  split <;> exact ⟨rfl, rfl⟩

theorem Fits.step (h : Fits region b) (hc : region.after c = comment → isMark c = false) :
    Fits (region.after c) (b.step c) := by
  cases region with
  | quotes =>
    have hquoted : b.quoted = true := h.quoted
    have hbarred : b.barred = false := h.barred
    by_cases hquote : c = '"' <;> constructor <;> simp [Region.after, Balance.step, hquoted, hbarred, hquote]
  | bars =>
    have hquoted : b.quoted = false := h.quoted
    have hbarred : b.barred = true := h.barred
    by_cases hbar : c = '|' <;> constructor <;> simp [Region.after, Balance.step, hquoted, hbarred, hbar]
  | comment =>
    have hmarks : c ≠ '"' ∧ c ≠ '|' := by
      constructor <;> rintro rfl <;> exact absurd (hc rfl) (by decide)
    have hstep := step_unquoted ((fits_iff (by decide) (by decide)).mp h) hmarks.1 hmarks.2
    rw [Region.after]
    split
    · exact (fits_iff (by decide) (by decide)).mpr hstep
    · exact (fits_iff (by decide) (by decide)).mpr hstep
  | outside =>
    have houtside := (fits_iff (by decide) (by decide)).mp h
    rw [Region.after]
    split
    · next hquote => constructor <;> simp [Balance.step, houtside, hquote]
    split
    · next hbar => constructor <;> simp [Balance.step, houtside, hbar]
    · next hquote hbar =>
      have hstep := step_unquoted houtside hquote hbar
      split
      · exact (fits_iff (by decide) (by decide)).mpr hstep
      · exact (fits_iff (by decide) (by decide)).mpr hstep

theorem Sees.step (h : Sees b b') (c : Char) : Sees (b.step c) (b'.step c) := by
  obtain ⟨depth, seen, quoted, barred⟩ := b
  obtain ⟨depth', seen', quoted', barred'⟩ := b'
  obtain ⟨hdepth, hquoted, hbarred, hseen⟩ := h
  obtain rfl : depth = depth' := hdepth
  obtain rfl : quoted = quoted' := hquoted
  obtain rfl : barred = barred' := hbarred
  unfold Balance.step
  dsimp only at hseen ⊢
  split
  · exact ⟨rfl, rfl, rfl, hseen⟩
  split
  · exact ⟨rfl, rfl, rfl, hseen⟩
  split
  · exact ⟨rfl, rfl, rfl, id⟩
  split
  · exact ⟨rfl, rfl, rfl, id⟩
  split
  · exact ⟨rfl, rfl, rfl, id⟩
  split
  · exact ⟨rfl, rfl, rfl, hseen⟩
  · refine ⟨rfl, rfl, rfl, ?_⟩
    simp only [Bool.or_eq_true]
    exact Or.imp_left hseen

theorem Sees.step_comment (h : Sees b b') (hfits : Fits region b) (hc : region.after c = comment)
    (hmark : isMark c = false) : Sees (b.step c) b' := by
  have houtside : b.quoted = false ∧ b.barred = false := by
    cases region with
    | quotes =>
      simp only [Region.after] at hc
      split at hc <;> cases hc
    | bars =>
      simp only [Region.after] at hc
      split at hc <;> cases hc
    | _ => exact (fits_iff (by decide) (by decide)).mp hfits
  simp only [isMark, Bool.or_eq_false_iff, decide_eq_false_iff_not] at hmark
  obtain ⟨⟨⟨hopening, hclosing⟩, hquote⟩, hbar⟩ := hmark
  simp only [Balance.step, houtside, hopening, hclosing, hquote, hbar, Bool.false_eq_true, if_false]
  refine ⟨h.depth, houtside.1 ▸ h.quoted, houtside.2 ▸ h.barred, fun hseen => ?_⟩
  simp [h.seen hseen]

theorem sees_uncommented (hsees : Sees b b') (hfits : Fits region b)
    (h : ∀ c ∈ region.commented cs, isMark c = false) :
    Sees (cs.foldl step b) ((region.uncommented cs).foldl step b') := by
  induction cs generalizing region b b' with
  | nil => exact hsees
  | cons c cs ih =>
    rw [Region.commented] at h
    rw [Region.uncommented, List.foldl_cons]
    by_cases hc : region.after c = comment
    · rw [if_pos hc] at h ⊢
      have hmark := h c (by simp)
      exact ih (hsees.step_comment hfits hc hmark) (hfits.step fun _ => hmark)
        fun d hd => h d (List.mem_cons_of_mem c hd)
    · rw [if_neg hc] at h ⊢
      exact ih (hsees.step c) (hfits.step fun hcomment => absurd hcomment hc) h

end Balance

namespace SExpr

open Region (outside)

variable {text : String}

def comments (text : String) : List Char := outside.commented text.toList

def Agrees (text : String) (complete : Bool) : Prop :=
  ((∃ es, es ≠ [] ∧ parse text = .ok es) → complete = true) ∧
    (complete = true → (∃ es, parse text = .ok es) ∨ parse text = .error (.unbalanced text))

theorem readable_of_closed {b : Balance} (hb : b.Sees (Balance.ofText (uncommented text)))
    (hclosed : b.isClosed = true) :
    (∃ es, parse text = .ok es) ∨ parse text = .error (.unbalanced text) := by
  simp only [Balance.isClosed, Bool.and_eq_true, Bool.not_eq_true', decide_eq_true_eq] at hclosed
  obtain ⟨⟨⟨-, hdepth⟩, hquoted⟩, hbarred⟩ := hclosed
  rw [hb.depth] at hdepth
  rw [hb.quoted] at hquoted
  rw [hb.barred] at hbarred
  rcases ofText_uncommented text with ⟨tokens, htokens, hbalance⟩ | ⟨-, hopen | hopen⟩
  · rw [parse_of_ofText htokens]
    split
    · exact .inl ⟨_, rfl⟩
    · exact .inr rfl
    · next hmissing =>
      have hdeep := (depth_of_build [] []).2 hmissing
      rw [hbalance] at hdepth
      simp [Balance.outside] at hdepth hdeep
      omega
  · rw [hopen] at hquoted
    cases hquoted
  · rw [hopen] at hbarred
    cases hbarred

theorem closed_of_read {b : Balance} (hb : b.Sees (Balance.ofText (uncommented text))) {es : List SExpr}
    (hes : es ≠ []) (hparse : parse text = .ok es) : b.isClosed = true := by
  obtain ⟨tokens, htokens, hbuild⟩ := parse_eq_ok hparse
  rcases ofText_uncommented text with ⟨tokens', htokens', hbalance⟩ | ⟨⟨e, he⟩, -⟩
  · obtain rfl := Except.ok.inj (htokens.symm.trans htokens')
    rw [hbalance] at hb
    have hseen : b.seen = true := hb.seen (any_of_ofTokens hbuild hes)
    have hdepth : b.depth = 0 := by
      have hwhole := (depth_of_build [] []).1 es hbuild
      rw [hb.depth]
      simpa [Balance.outside] using hwhole
    have hquoted : b.quoted = false := hb.quoted
    have hbarred : b.barred = false := hb.barred
    simp [Balance.isClosed, hseen, hdepth, hquoted, hbarred]
  · rw [htokens] at he
    cases he

theorem agrees_of_sees {b : Balance} (hb : b.Sees (Balance.ofText (uncommented text))) :
    Agrees text b.isClosed :=
  ⟨fun ⟨_, hes, hparse⟩ => closed_of_read hb hes hparse, readable_of_closed hb⟩

/-- Without its comments, a text is complete by the test as the reader finds it; and so it is as it stands if
no comment holds a parenthesis, a double quote or a bar. -/
theorem complete_as_read (text : String) : Agrees text (isComplete (uncommented text)) ∧
    ((∀ c ∈ comments text, Balance.isMark c = false) → Agrees text (isComplete text)) := by
  refine ⟨agrees_of_sees ⟨rfl, rfl, rfl, id⟩, fun h => agrees_of_sees ?_⟩
  rw [Balance.ofText, Balance.ofText, uncommented, String.toList_ofList]
  have hfits : Balance.Fits outside (Balance.outside 0 false) := ⟨rfl, rfl⟩
  exact Balance.sees_uncommented ⟨rfl, rfl, rfl, id⟩ hfits h

theorem complete_as_read_answer :
    Agrees "((|a)b| \"(\") ; two values\n)" (isComplete "((|a)b| \"(\") ; two values\n)") := by
  refine (complete_as_read _).2 fun c hc => ?_
  have hmarks : (comments "((|a)b| \"(\") ; two values\n)").all (!Balance.isMark ·) = true := by decide
  simpa using List.all_eq_true.mp hmarks c hc

/-- A parenthesis in a comment makes a whole response incomplete, and an incomplete one whole. -/
theorem misled_by_comments :
    parse "a ; (" = .ok [atom "a"] ∧ isComplete "a ; (" = false ∧
      parse "( ; )" = .error (.incomplete "( ; )") ∧ isComplete "( ; )" = true ∧
      ¬ ∀ text, Agrees text (isComplete text) := by
  have hread : parse "a ; (" = .ok [atom "a"] := by
    have htokens : Token.ofText "a ; (" = .ok [.atom "a"] := by decide +kernel
    rw [parse_of_ofText htokens]
    rfl
  have hmissing : parse "( ; )" = .error (.incomplete "( ; )") := by
    have htokens : Token.ofText "( ; )" = .ok [.opening] := by decide +kernel
    rw [parse_of_ofText htokens]
    rfl
  have hopen : isComplete "a ; (" = false := by decide
  refine ⟨hread, hopen, hmissing, by decide, fun hall => ?_⟩
  have hcomplete := (hall "a ; (").1 ⟨_, by simp, hread⟩
  rw [hopen] at hcomplete
  cases hcomplete

end SExpr

end InvariantProver
