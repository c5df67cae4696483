import InvariantProver.Text.Blank
import Mathlib.Data.List.TakeWhile

namespace InvariantProver.Text

variable {cs ds blanks : List Char} {c : Char}

theorem head?_dropWhile {p : Char → Bool} (h : c ∈ (cs.dropWhile p).head?) : p c = false := by
  have hfirst := List.head?_dropWhile_not p cs
  rw [Option.mem_def.mp h] at hfirst
  exact hfirst

theorem blanks_trimLeft (cs : List Char) :
    ∃ blanks, (∀ c ∈ blanks, isBlank c = true) ∧ cs = blanks ++ trimLeft cs :=
  ⟨cs.takeWhile isBlank, fun _ hc => List.mem_takeWhile_imp hc, List.takeWhile_append_dropWhile.symm⟩

theorem trimLeft_append (hblanks : ∀ c ∈ blanks, isBlank c = true) :
    trimLeft (blanks ++ cs) = trimLeft cs :=
  List.dropWhile_append_of_pos hblanks

theorem trimLeft_of_first (h : isBlank c = false) : trimLeft (c :: cs) = c :: cs :=
  List.dropWhile_cons_of_neg (by simp [h])

theorem trimRight_blanks (cs : List Char) :
    ∃ blanks, (∀ c ∈ blanks, isBlank c = true) ∧ cs = trimRight cs ++ blanks := by
  refine ⟨(cs.reverse.takeWhile isBlank).reverse, fun c hc => ?_, ?_⟩
  · exact List.mem_takeWhile_imp (List.mem_reverse.mp hc)
  · rw [trimRight, ← List.reverse_append, List.takeWhile_append_dropWhile, List.reverse_reverse]

theorem trimRight_append (cs ds : List Char) :
    trimRight (cs ++ ds) = if trimRight ds = [] then trimRight cs else cs ++ trimRight ds := by
  simp only [trimRight, List.reverse_append, List.dropWhile_append, List.reverse_eq_nil_iff,
    List.isEmpty_iff]
  split
  · rfl
  · simp

theorem trimRight_eq_nil (hblanks : ∀ c ∈ blanks, isBlank c = true) : trimRight blanks = [] := by
  rw [trimRight, List.reverse_eq_nil_iff, List.dropWhile_eq_nil_iff]
  exact fun c hc => hblanks c (List.mem_reverse.mp hc)

theorem trimRight_of_last (h : ∃ ds c, cs = ds ++ [c] ∧ isBlank c = false) : trimRight cs = cs := by
  obtain ⟨ds, c, rfl, hc⟩ := h
  simp [trimRight, hc]

theorem trimRight_initial (cs : List Char) : trimRight cs <+: cs := by
  obtain ⟨blanks, -, hcs⟩ := trimRight_blanks cs
  exact ⟨blanks, hcs.symm⟩

theorem last_trimRight (h : c ∈ (trimRight cs).getLast?) : isBlank c = false := by
  rw [trimRight, List.getLast?_reverse] at h
  exact head?_dropWhile h

theorem trim_parts (cs : List Char) : ∃ before after, (∀ c ∈ before, isBlank c = true) ∧
    (∀ c ∈ after, isBlank c = true) ∧ cs = before ++ (trim cs ++ after) := by
  obtain ⟨before, hbefore, hleft⟩ := blanks_trimLeft cs
  obtain ⟨after, hafter, hright⟩ := trimRight_blanks (trimLeft cs)
  exact ⟨before, after, hbefore, hafter, by rw [trim, ← hright, ← hleft]⟩

theorem trim_around {before after : List Char} (hbefore : ∀ c ∈ before, isBlank c = true)
    (hafter : ∀ c ∈ after, isBlank c = true) (hfirst : ∃ c ds, cs = c :: ds ∧ isBlank c = false)
    (hlast : ∃ ds c, cs = ds ++ [c] ∧ isBlank c = false) : trim (before ++ (cs ++ after)) = cs := by
  obtain ⟨c, ds, hcs, hc⟩ := hfirst
  rw [trim, trimLeft_append hbefore, hcs, List.cons_append, trimLeft_of_first hc, ← List.cons_append, ← hcs,
    trimRight_append, if_pos (trimRight_eq_nil hafter), trimRight_of_last hlast]

end InvariantProver.Text
