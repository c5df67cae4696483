import InvariantProver.Text.Blank

/-!
Tokens of S-expressions: parentheses, and atoms in three spellings. A plain atom ends at a blank, a
parenthesis, a bar, a double quote or a semicolon; one between bars holds anything but a bar; one
between double quotes holds a double quote wherever two of them are written. Blanks and comments
part tokens.
-/

namespace InvariantProver

inductive Token
  | opening
  | closing
  | atom (text : String)
  deriving DecidableEq

namespace Token

open Text

def isPlain (c : Char) : Bool :=
  !isBlank c && c ≠ '(' && c ≠ ')' && c ≠ '|' && c ≠ '"' && c ≠ ';'

/-- The content of a quoted atom after its first quote, and the rest after its last. Two quotes stand
for one as long as a last quote remains. -/
def takeQuoted? : List Char → Option (List Char × List Char)
  | [] => none
  | '"' :: '"' :: cs =>
    match takeQuoted? cs with
    | some (content, rest) => some ('"' :: content, rest)
    | none => some ([], '"' :: cs)
  | c :: cs =>
    if c = '"' then some ([], cs)
    else (takeQuoted? cs).map fun (content, rest) => (c :: content, rest)

def takeBarred? (cs : List Char) : Option (List Char × List Char) :=
  match cs.dropWhile (· ≠ '|') with
  | [] => none
  | _ :: rest => some (cs.takeWhile (· ≠ '|'), rest)

def atomOf (spelled : List Char × List Char) : Option Token × List Char :=
  (some (atom (String.ofList spelled.1)), spelled.2)

def lexemeAt (c : Char) (cs : List Char) : Option (Option Token × List Char) :=
  if c = ';' then some (none, cs.dropWhile (· ≠ '\n'))
  else if c = '(' then some (some opening, cs)
  else if c = ')' then some (some closing, cs)
  else if c = '"' then (takeQuoted? cs).map atomOf
  else if c = '|' then (takeBarred? cs).map atomOf
  else some (atomOf (c :: cs.takeWhile isPlain, cs.dropWhile isPlain))

def lexeme? (cs : List Char) : Option (Option Token × List Char) :=
  match trimLeft cs with
  | [] => none
  | c :: rest => lexemeAt c rest

theorem length_takeQuoted? {cs : List Char} {r : List Char × List Char}
    (h : takeQuoted? cs = some r) : r.2.length < cs.length := by
  fun_induction takeQuoted? cs generalizing r with
  | case1 => simp at h
  | case2 cs content rest hr ih =>
    obtain rfl := Option.some.inj h
    have := ih hr
    simp only [List.length_cons] at this ⊢
    omega
  | case3 cs hr ih =>
    obtain rfl := Option.some.inj h
    simp
  | case4 cs hc =>
    obtain rfl := Option.some.inj h
    simp
  | case5 c cs hc hq ih =>
    obtain ⟨⟨content, rest⟩, hr, rfl⟩ := Option.map_eq_some_iff.1 h
    have := ih hr
    simp only [List.length_cons] at this ⊢
    omega

theorem length_takeBarred? {cs : List Char} {r : List Char × List Char}
    (h : takeBarred? cs = some r) : r.2.length < cs.length := by
  unfold takeBarred? at h
  split at h
  · simp at h
  · rename_i c rest hd
    obtain rfl := Option.some.inj h
    have hl := (List.dropWhile_sublist (l := cs) (fun x => decide (x ≠ '|'))).length_le
    rw [hd, List.length_cons] at hl
    exact hl

theorem length_lexemeAt {c : Char} {cs : List Char} {r : Option Token × List Char}
    (h : lexemeAt c cs = some r) : r.2.length ≤ cs.length := by
  unfold lexemeAt at h
  split at h
  · obtain rfl := Option.some.inj h
    exact (List.dropWhile_sublist _).length_le
  split at h
  · obtain rfl := Option.some.inj h
    exact Nat.le_refl _
  split at h
  · obtain rfl := Option.some.inj h
    exact Nat.le_refl _
  split at h
  · obtain ⟨p, hp, rfl⟩ := Option.map_eq_some_iff.1 h
    exact Nat.le_of_lt (length_takeQuoted? hp)
  split at h
  · obtain ⟨p, hp, rfl⟩ := Option.map_eq_some_iff.1 h
    exact Nat.le_of_lt (length_takeBarred? hp)
  · obtain rfl := Option.some.inj h
    exact (List.dropWhile_sublist _).length_le

theorem length_lexeme? {cs : List Char} {r : Option Token × List Char}
    (h : lexeme? cs = some r) : r.2.length < cs.length := by
  unfold lexeme? at h
  split at h
  · simp at h
  · rename_i c rest ht
    have hl : (trimLeft cs).length ≤ cs.length := (List.dropWhile_sublist _).length_le
    rw [ht, List.length_cons] at hl
    have := length_lexemeAt h
    omega

def scan (cs : List Char) : Except (List Char) (List Token) :=
  if cs.isEmpty then .ok []
  else
    match h : lexeme? cs with
    | none => .error cs
    | some (token?, rest) =>
      have := length_lexeme? h
      (scan rest).map (token?.toList ++ ·)
termination_by cs.length

end Token

end InvariantProver
