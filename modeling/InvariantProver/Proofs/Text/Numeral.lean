import InvariantProver.Text.Numeral
import Mathlib.Data.List.Basic

namespace InvariantProver.Text

theorem toList_natText (n : Nat) : (natText n).toList = Nat.toDigits 10 n := by
  rw [natText, Nat.repr_eq_ofList_toDigits, String.toList_ofList]

theorem isDigit_of_mem_natText {n : Nat} {c : Char} (h : c ∈ (natText n).toList) :
    c.isDigit = true := by
  rw [toList_natText] at h
  exact Nat.isDigit_of_mem_toDigits (by decide) (by decide) h

theorem natText_ne_empty (n : Nat) : natText n ≠ "" := Nat.repr_ne_empty

theorem natText_injective {m n : Nat} (h : natText m = natText n) : m = n := by
  have hdigits : Nat.toDigits 10 m = Nat.toDigits 10 n := by
    rw [← toList_natText, ← toList_natText, h]
  rw [← Nat.ofDigitChars_ten_toDigits (n := m), hdigits, Nat.ofDigitChars_ten_toDigits]

theorem eq_zero_of_head?_natText {n : Nat} (h : (natText n).toList.head? = some '0') : n = 0 := by
  rw [toList_natText] at h
  induction n using Nat.strongRecOn with
  | ind n ih =>
    rw [Nat.toDigits_eq_if (by decide)] at h
    split at h
    · next hlt =>
      have hdigits : ∀ m < 10, Nat.digitChar m = '0' → m = 0 := by decide
      exact hdigits n hlt (Option.some.inj h)
    · next hge =>
      rw [List.head?_append_of_ne_nil _ Nat.toDigits_ne_nil] at h
      have hquotient := ih (n / 10) (by omega) h
      omega

theorem mem_intText {i : Int} {c : Char} (h : c ∈ (intText i).toList) : c = '-' ∨ c.isDigit = true := by
  cases i with
  | ofNat n => exact .inr (isDigit_of_mem_natText h)
  | negSucc n =>
    rw [intText, String.toList_append] at h
    rcases List.mem_append.mp h with hsign | hdigit
    · exact .inl (List.mem_singleton.mp hsign)
    · exact .inr (isDigit_of_mem_natText hdigit)

theorem intText_ne_empty (i : Int) : intText i ≠ "" := by
  cases i with
  | ofNat n => exact natText_ne_empty n
  | negSucc n =>
    intro hempty
    have hlist := congrArg String.toList hempty
    simp [intText] at hlist

theorem intText_ne_natText (m n : Nat) : intText (.negSucc m) ≠ natText n := by
  intro h
  have hsign : '-' ∈ (natText n).toList := by
    rw [← h, intText, String.toList_append]
    exact List.mem_append_left _ (by decide)
  exact absurd (isDigit_of_mem_natText hsign) (by decide)

theorem intText_injective {i j : Int} (h : intText i = intText j) : i = j := by
  cases i with
  | ofNat m =>
    cases j with
    | ofNat n => rw [natText_injective h]
    | negSucc n => exact absurd h.symm (intText_ne_natText n m)
  | negSucc m =>
    cases j with
    | ofNat n => exact absurd h (intText_ne_natText m n)
    | negSucc n =>
      have hsuffix : natText (m + 1) = natText (n + 1) := String.append_right_inj "-" |>.mp h
      rw [Nat.succ.inj (natText_injective hsuffix)]

end InvariantProver.Text
