import InvariantProver.Proofs.SExpr.Gaps
import InvariantProver.Solver.Peer

namespace InvariantProver.Peer

open Text

def Noise (line : Line) : Prop := ∃ s, line = .text s ∧ content? s = none

def Quiet (lines : List Line) : Prop := ∀ line ∈ lines, Noise line

def Says (word : String) (lines : List Line) : Prop :=
  ∃ before s after, lines = before ++ .text s :: after ∧ content? s = some word ∧ Quiet before ∧
    Quiet after

inductive Lays : List Token → List Line → Prop
  | nil : Lays [] []
  | noise {tokens : List Token} {line : Line} {lines : List Line} :
    Noise line → Lays tokens lines → Lays tokens (line :: lines)
  | line {first tokens : List Token} {s text : String} {lines : List Line} :
    content? s = some text → Token.Written first text.toList → Lays tokens lines →
    Lays (first ++ tokens) (.text s :: lines)

def Skipped (line : Line) : Prop := ∃ blanks cs, (∀ c ∈ blanks, isBlank c = true) ∧
  (cs = [] ∨ ∃ body, cs = ';' :: body) ∧ line = .text (String.ofList (blanks ++ cs))

def Bears (tokens : List Token) (cs : List Char) (line : Line) : Prop :=
  Token.Written tokens cs ∧ ∃ before after, (∀ c ∈ before, isBlank c = true) ∧
    (∀ c ∈ after, isBlank c = true) ∧ line = .text (String.ofList (before ++ (cs ++ after)))

/-- The lines hold these tokens, none of which goes over the end of its line, and the last line is one with
tokens. Put together with one space for every end of a line, they give the text. -/
inductive Spread : List Token → List Char → List Line → Prop
  | last {tokens : List Token} {cs : List Char} {line : Line} :
    Bears tokens cs line → Spread tokens cs [line]
  | line {first tokens : List Token} {cs ds : List Char} {line : Line} {lines : List Line} :
    Bears first cs line → Spread tokens ds lines → Spread (first ++ tokens) (cs ++ ' ' :: ds) (line :: lines)
  | skip {tokens : List Token} {cs : List Char} {line : Line} {lines : List Line} :
    Skipped line → Spread tokens cs lines → Spread tokens cs (line :: lines)

variable {e : SExpr} {line : Line} {lines more : List Line} {tokens : List Token} {cs : List Char}

theorem quiet_nil : Quiet [] := by simp [Quiet]

theorem Quiet.append (h : Quiet lines) (h' : Quiet more) : Quiet (lines ++ more) := by
  intro line hline
  rcases List.mem_append.mp hline with hline | hline
  · exact h line hline
  · exact h' line hline

theorem read_of_gather {p : Peer} {reading : Reading} (h : gather none p.unread = (reading, more)) :
    p.read = (reading, { p with unread := more }) := by
  rw [read, h]

theorem gather_quiet {text? : Option String} (h : Quiet lines) :
    gather text? (lines ++ more) = gather text? more := by
  induction lines with
  | nil => rfl
  | cons line lines ih =>
    obtain ⟨s, rfl, hs⟩ := h line (by simp)
    rw [List.cons_append, gather, hs]
    exact ih fun line hline => h line (List.mem_cons_of_mem _ hline)

theorem gather_of_quiet (h : Quiet lines) : gather none lines = (.ended, []) := by
  have hgather : gather none (lines ++ []) = gather none [] := gather_quiet h
  rwa [List.append_nil] at hgather

def joined : Option String → String → String
  | none, line => line
  | some text, line => text ++ " " ++ line

theorem gather_line {text? : Option String} {s line : String} (h : content? s = some line) :
    gather text? (.text s :: lines) =
      if SExpr.isComplete (joined text? line) then (.response (joined text? line), lines)
      else gather (some (joined text? line)) lines := by
  rw [gather, h]
  cases text? <;> rfl

theorem gather_says {word : String} (h : Says word lines) (hword : SExpr.isComplete word = true) :
    ∃ rest, gather none lines = (.response word, rest) ∧ Quiet rest := by
  obtain ⟨before, s, after, rfl, hs, hbefore, hafter⟩ := h
  refine ⟨after, ?_, hafter⟩
  rw [gather_quiet hbefore, gather_line hs]
  exact if_pos hword

theorem Lays.quiet (h : Lays [] lines) : Quiet lines := by
  generalize hnil : [] = tokens at h
  induction h with
  | nil => exact quiet_nil
  | @noise _ line lines hline _ ih =>
    intro other hother
    rcases List.mem_cons.mp hother with rfl | hother
    · exact hline
    · exact ih hnil other hother
  | line _ hwritten _ _ =>
    obtain ⟨rfl, -⟩ := List.append_eq_nil_iff.mp hnil.symm
    cases hwritten

theorem Skipped.text (h : Skipped line) : ∃ s, line = .text s :=
  have ⟨_, _, _, _, hline⟩ := h
  ⟨_, hline⟩

theorem Bears.text (h : Bears tokens cs line) : ∃ s, line = .text s :=
  have ⟨_, _, _, _, _, hline⟩ := h
  ⟨_, hline⟩

theorem content?_eq (s : String) (h : trim s.toList = cs) (hne : cs ≠ []) (hcomment : cs.head? ≠ some ';') :
    content? s = some (String.ofList cs) := by
  unfold content?
  rw [h]
  split
  · exact absurd rfl hne
  · exact absurd rfl hcomment
  · rfl

theorem Skipped.content? {s : String} (h : Skipped (.text s)) : content? s = none := by
  obtain ⟨blanks, cs, hblanks, hcs, heq⟩ := h
  obtain rfl := Line.text.inj heq
  unfold Peer.content?
  rw [String.toList_ofList, trim, trimLeft_append hblanks]
  rcases hcs with rfl | ⟨body, rfl⟩
  · rfl
  · have hfirst : trimRight (trimLeft (';' :: body)) = ';' :: trimRight body := by
      rw [trimLeft_of_first (by decide), ← List.singleton_append, trimRight_append]
      split
      · next hnil => rw [hnil]; rfl
      · rfl
    rw [hfirst]
    rfl

theorem Bears.content? {s : String} (h : Bears tokens cs (.text s)) : content? s = some (String.ofList cs) := by
  obtain ⟨hwritten, before, after, hbefore, hafter, heq⟩ := h
  obtain rfl := Line.text.inj heq
  obtain ⟨c, ds, hfirst, hblank, hcomment⟩ := hwritten.first
  refine content?_eq _ ?_ (by simp [hfirst]) (by simp [hfirst, hcomment])
  rw [String.toList_ofList]
  exact trim_around hbefore hafter ⟨c, ds, hfirst, hblank⟩ hwritten.last

def Holds : Option String → List Token → Prop
  | none, tokens => tokens = []
  | some text, tokens => Token.Written tokens text.toList

theorem Holds.next {text? : Option String} {tokens first : List Token} (h : Holds text? tokens)
    (hcs : Token.Written first cs) :
    Token.Written (tokens ++ first) (joined text? (String.ofList cs)).toList := by
  cases text? with
  | none =>
    obtain rfl : tokens = [] := h
    rwa [joined, String.toList_ofList]
  | some text =>
    have hgap : (joined (some text) (String.ofList cs)).toList = text.toList ++ ' ' :: cs := by
      simp [joined]
    rw [hgap]
    exact Token.Written.blank h hcs

theorem Spread.ne_nil (h : Spread tokens cs lines) : tokens ≠ [] := by
  induction h with
  | last hbears =>
    rintro rfl
    cases hbears.1
  | line _ _ ih => exact List.append_ne_nil_of_right_ne_nil _ ih
  | skip _ _ ih => exact ih

theorem joined_joined (text? : Option String) (cs ds : List Char) :
    joined (some (joined text? (String.ofList cs))) (String.ofList ds) =
      joined text? (String.ofList (cs ++ ' ' :: ds)) := by
  rw [← String.toList_inj]
  cases text? <;> simp [joined]

theorem gather_spread {text? : Option String} {first later : List Token} (more : List Line)
    (h : Spread later cs lines) (he : e.tokens = first ++ later) (hfirst : Holds text? first) :
    gather text? (lines ++ more) = (.response (joined text? (String.ofList cs)), more) ∧
      Token.Written e.tokens (joined text? (String.ofList cs)).toList := by
  induction h generalizing text? first with
  | last hbears =>
    obtain ⟨s, rfl⟩ := hbears.text
    have hnow := hfirst.next hbears.1
    rw [← he] at hnow
    refine ⟨?_, hnow⟩
    rw [List.singleton_append, gather_line hbears.content?, if_pos (SExpr.isComplete_of_written hnow)]
  | @line next tokens cs ds _ lines hbears hspread ih =>
    obtain ⟨s, rfl⟩ := hbears.text
    have hnow := hfirst.next hbears.1
    rw [← List.append_assoc] at he
    have hopen := SExpr.isComplete_of_incomplete he hspread.ne_nil hnow
    rw [List.cons_append, gather_line hbears.content?, if_neg (by simp [hopen]), ← joined_joined]
    exact ih he hnow
  | skip hskipped _ ih =>
    obtain ⟨s, rfl⟩ := hskipped.text
    rw [List.cons_append, gather, hskipped.content?]
    exact ih he hfirst

theorem gather_framed (more : List Line) (h : Spread e.tokens cs lines) :
    gather none (lines ++ more) = (.response (String.ofList cs), more) ∧ Token.Written e.tokens cs := by
  have hgather := gather_spread more h (List.nil_append _).symm (show Holds none [] from rfl)
  rwa [joined, String.toList_ofList] at hgather

theorem noise_of_skipped (h : Skipped line) : Noise line := by
  obtain ⟨s, rfl⟩ := h.text
  exact ⟨s, rfl, h.content?⟩

theorem skipped_of_noise (h : Noise line) : Skipped line := by
  obtain ⟨s, rfl, hs⟩ := h
  obtain ⟨before, after, hbefore, hafter, htext⟩ := trim_parts s.toList
  unfold content? at hs
  split at hs
  · next hnil =>
    rw [hnil, List.nil_append] at htext
    have hblanks : ∀ c ∈ before ++ after, isBlank c = true := by
      intro c hc
      rcases List.mem_append.mp hc with hc | hc
      · exact hbefore c hc
      · exact hafter c hc
    refine ⟨before ++ after, [], hblanks, .inl rfl, ?_⟩
    rw [List.append_nil, ← htext, String.ofList_toList]
  · next body hcomment =>
    rw [hcomment, List.cons_append] at htext
    refine ⟨before, ';' :: (body ++ after), hbefore, .inr ⟨_, rfl⟩, ?_⟩
    rw [← htext, String.ofList_toList]
  · cases hs

theorem bears_of_content? {s text : String} (h : content? s = some text)
    (hwritten : Token.Written tokens text.toList) : Bears tokens text.toList (.text s) := by
  obtain ⟨before, after, hbefore, hafter, htext⟩ := trim_parts s.toList
  have htrim : trim s.toList = text.toList := by
    unfold content? at h
    split at h
    · cases h
    · cases h
    · rw [← Option.some.inj h, String.toList_ofList]
  rw [htrim] at htext
  exact ⟨hwritten, before, after, hbefore, hafter, by rw [← htext, String.ofList_toList]⟩

theorem Lays.spread (h : Lays tokens lines) (hne : tokens ≠ []) :
    ∃ cs block rest, lines = block ++ rest ∧ Spread tokens cs block ∧ Quiet rest := by
  induction h with
  | nil => exact absurd rfl hne
  | @noise _ line _ hline _ ih =>
    obtain ⟨cs, block, rest, rfl, hspread, hrest⟩ := ih hne
    exact ⟨cs, line :: block, rest, rfl, .skip (skipped_of_noise hline) hspread, hrest⟩
  | @line first tokens s text lines hs hwritten hlays ih =>
    have hbears := bears_of_content? hs hwritten
    by_cases htokens : tokens = []
    · subst htokens
      rw [List.append_nil]
      exact ⟨_, [.text s], lines, rfl, .last hbears, hlays.quiet⟩
    · obtain ⟨cs, block, rest, rfl, hspread, hrest⟩ := ih htokens
      exact ⟨_, .text s :: block, rest, rfl, .line hbears hspread, hrest⟩

theorem gather_response (h : Lays e.tokens more) (hquiet : Quiet lines) :
    ∃ text rest, gather none (lines ++ more) = (.response text, rest) ∧ Quiet rest ∧
      Token.Written e.tokens text.toList := by
  have hne : e.tokens ≠ [] := by
    cases e with
    | atom text => simp
    | list items => simp
  obtain ⟨cs, block, rest, rfl, hspread, hrest⟩ := h.spread hne
  obtain ⟨hgather, hwritten⟩ := gather_framed rest hspread
  refine ⟨String.ofList cs, rest, ?_, hrest, by rwa [String.toList_ofList]⟩
  rw [gather_quiet hquiet, hgather]

theorem content?_written {tokens : List Token} {text : String}
    (h : Token.Written tokens text.toList) : content? text = some text := by
  obtain ⟨c, cs, hfirst, -, hc⟩ := h.first
  have hcontent := content?_eq text (Token.trim_written h) (by simp [hfirst]) (by simp [hfirst, hc])
  rwa [String.ofList_toList] at hcontent

theorem lays_one {tokens : List Token} {text : String} (h : Token.Written tokens text.toList) :
    Lays tokens [.text text] := by
  have hlays := Lays.line (content?_written h) h .nil
  rwa [List.append_nil] at hlays

end InvariantProver.Peer
