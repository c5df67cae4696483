import InvariantProver.Proofs.SExpr.Values

namespace InvariantProver

open Text

namespace Scalar

def ownExpr : Scalar → SExpr
  | rat q =>
    signedExpr (q.num < 0) (.list [.atom "/", .atom (natText q.num.natAbs), .atom (natText q.den)])
  | value => value.sexpr

theorem negated_text (body : String) : "(- " ++ body ++ ")" = signedText true body := by
  rw [← String.toList_inj, signedText, if_pos rfl, SExpr.toList_parenthesized]
  simp

theorem text_int (i : Int) : (int i).text = (int i).smt := by
  cases i with
  | ofNat n => rfl
  | negSucc n =>
    have hneg : decide (Int.negSucc n < 0) = true := decide_eq_true (Int.negSucc_lt_zero n)
    rw [smt, hneg]
    exact negated_text (natText (n + 1))

theorem text_rat (q : Rat) : (rat q).text =
    signedText (q.num < 0) (parenthesized ["/", natText q.num.natAbs, natText q.den]) := by
  have hquotient : "(/ " ++ natText q.num.natAbs ++ " " ++ natText q.den ++ ")" =
      parenthesized ["/", natText q.num.natAbs, natText q.den] := by
    rw [← String.toList_inj, SExpr.toList_parenthesized]
    simp
  rw [text, hquotient]
  by_cases hneg : q.num < 0
  · rw [if_pos hneg, negated_text, decide_eq_true hneg]
  · rw [if_neg hneg, decide_eq_false hneg]
    rfl

end Scalar

namespace SExpr

theorem spelledBy_ownExpr (value : Scalar) : value.ownExpr.SpelledBy value.text := by
  cases value with
  | bool b =>
    cases b with
    | false => exact spelledBy_sexpr (.bool false)
    | true => exact spelledBy_sexpr (.bool true)
  | int i =>
    rw [Scalar.text_int]
    exact spelledBy_sexpr (.int i)
  | rat q =>
    have hslash : (atom "/").SpelledBy "/" := spelledBy_plain (by decide) (List.all_eq_true.mp (by decide))
    have hparts : ∀ n ∈ [q.num.natAbs, q.den], (atom (natText n)).SpelledBy (natText n) :=
      fun n _ => spelledBy_natText n
    rw [Scalar.text_rat]
    apply spelledBy_signed
    exact spelledBy_parenthesized hslash _ hparts

theorem prints_ownExpr (value : Scalar) : value.ownExpr.Prints value.ty (.exact value) := by
  cases value with
  | bool b => exact prints_sexpr (.bool b)
  | int i => exact prints_sexpr (.int i)
  | rat q =>
    have hnumeral : ∀ n : Nat, (atom (natText n)).Denotes n := fun n => .numeral (Smt.numeral?_natText n)
    have hden : ((q.den : Nat) : Rat) ≠ 0 := by exact_mod_cast q.den_nz
    apply denotes_rat
    exact .divided (hnumeral _) (hnumeral _) hden

def Yields (text : String) (ty : Ty) (v : Value) : Prop :=
  ∃ e, parseOne text = .ok e ∧ e.value ty = .ok v

theorem value_rat_of_amounts {e : SExpr} {q : Rat} (h : e.Amounts q) :
    e.value .rat = .ok (.exact (.rat q)) := by
  simp [value, rootObject?_of_amounts h, number_of_amounts h, bind, Except.bind, pure, Except.pure]

theorem value_int_of_amounts {e : SExpr} {q : Rat} (h : e.Amounts q) :
    e.value .int = if q.den = 1 then .ok (.exact (.int q.num)) else .error (.notInt e) := by
  simp only [value, number_of_amounts h, bind, Except.bind]
  split <;> rfl

theorem integral_iff (q : Rat) : q.den = 1 ↔ ∃ i : Int, q = i := by
  constructor
  · intro hden
    exact ⟨q.num, ((Rat.den_eq_one_iff q).mp hden).symm⟩
  · rintro ⟨i, rfl⟩
    exact Rat.den_intCast i

/-- Every value is read back from its text in either notation. Every expression that is built from decimals
by negation, conversion and division by numbers other than zero is read as what it amounts to, but where a
whole number is expected and it amounts to none. -/
theorem values_survive :
    (∀ value : Scalar, Yields (value.smtAs value.ty) value.ty (.exact value) ∧
      Yields (Value.exact value).text value.ty (.exact value)) ∧
    ∀ e q, Amounts e q →
      e.value .rat = .ok (.exact (.rat q)) ∧
      (∀ i : Int, q = i → e.value .int = .ok (.exact (.int i))) ∧
      ((∀ i : Int, q ≠ i) → e.value .int = .error (.notInt e)) := by
  refine ⟨fun value => ⟨?_, ?_⟩, fun e q hq => ⟨value_rat_of_amounts hq, ?_, ?_⟩⟩
  · rw [Scalar.smtAs_ty]
    exact ⟨value.sexpr, parseOne_of_spelledBy (spelledBy_sexpr value), value_of_prints (prints_sexpr value)⟩
  · exact ⟨value.ownExpr, parseOne_of_spelledBy (spelledBy_ownExpr value),
      value_of_prints (prints_ownExpr value)⟩
  · rintro i rfl
    exact value_int_of_amounts hq
  · intro hnone
    have hden : q.den ≠ 1 := fun hden => by
      obtain ⟨i, hi⟩ := (integral_iff q).mp hden
      exact hnone i hi
    rw [value_int_of_amounts hq, if_neg hden]

/-- `(- (/ 1.50 (to_real 06)))` -/
def negativeQuarter : SExpr :=
  list [atom "-", list [atom "/", atom "1.50", list [atom "to_real", atom "06"]]]

theorem amounts_six : (atom "06").Amounts 6 := by
  have hdigits : Digits ['0', '6'] := by simp [Digits]
  have hsix := Amounts.whole hdigits (by simp)
  have hvalue : Nat.ofDigitChars 10 ['0', '6'] 0 = 6 := by decide
  rwa [hvalue] at hsix

theorem amounts_negativeQuarter : negativeQuarter.Amounts (-1 / 4) := by
  have hwhole : Digits ['1'] := by simp [Digits]
  have hplaces : Digits ['5', '0'] := by simp [Digits]
  have hdividend := Amounts.decimal hwhole (by simp) hplaces (by simp)
  have hquarter := (hdividend.divided amounts_six.converted (by norm_num)).negated
  have hone : Nat.ofDigitChars 10 ['1'] 0 = 1 := by decide
  have hfifty : Nat.ofDigitChars 10 ['5', '0'] 0 = 50 := by decide
  have hvalue : -(Decimal.ofDigits ['1'] ['5', '0'] / 6) = -1 / 4 := by
    norm_num [Decimal.ofDigits, hone, hfifty]
  rwa [hvalue] at hquarter

theorem negativeQuarter_survives :
    negativeQuarter.Amounts (-1 / 4) ∧
      negativeQuarter.value .rat = .ok (.exact (.rat (-1 / 4))) ∧
      negativeQuarter.value .int = .error (.notInt negativeQuarter) ∧
      (atom "06").value .int = .ok (.exact (.int 6)) := by
  obtain ⟨hrat, -, hint⟩ := values_survive.2 negativeQuarter _ amounts_negativeQuarter
  refine ⟨amounts_negativeQuarter, hrat, hint fun i hi => ?_, ?_⟩
  · have hfour : 4 * (i : Rat) = -1 := by
      rw [← hi]
      norm_num
    have hfour' : 4 * i = -1 := by exact_mod_cast hfour
    omega
  · exact (values_survive.2 _ _ amounts_six).2.1 6 (by norm_num)

end SExpr

end InvariantProver
