import InvariantProver.SExpr.Value

namespace InvariantProver

open Text

def Value.HasTy : Value → Ty → Prop
  | .exact s, ty => s.ty = ty
  | .algebraic _ _, ty => ty = .rat

instance : (v : Value) → (ty : Ty) → Decidable (v.HasTy ty)
  | .exact s, ty => inferInstanceAs (Decidable (s.ty = ty))
  | .algebraic _ _, ty => inferInstanceAs (Decidable (ty = .rat))

def ValueError.isArithmetic : ValueError → Bool
  | fraction _ => true
  | _ => false

namespace SExpr

/-- On the way to the number that an expression stands for there is a division by zero, and before it nothing
that is no number. -/
inductive DividesByZero : SExpr → Prop
  | ratio {text : String} {n : Nat} : Fraction.quotient? (takeSign (trim text.toList)).2 = some (n, 0) →
      DividesByZero (.atom text)
  | unary {head : String} {e : SExpr} : head = "-" ∨ head = "to_real" → DividesByZero e →
      DividesByZero (.list [.atom head, e])
  | dividend {e e' : SExpr} : DividesByZero e → DividesByZero (.list [.atom "/", e, e'])
  | divisor {e e' : SExpr} {q : Rat} : number e = .ok q → DividesByZero e' →
      DividesByZero (.list [.atom "/", e, e'])
  | zero {e e' : SExpr} {q : Rat} : number e = .ok q → number e' = .ok 0 →
      DividesByZero (.list [.atom "/", e, e'])

def Accounts (e : SExpr) : Except ValueError Rat → Prop
  | .ok _ | .error (.notNumber _) => ¬ e.DividesByZero
  | .error (.fraction (.zeroDenominator _)) => e.DividesByZero
  | .error _ => False

section

variable {e e' : SExpr} {r : Except ValueError Rat}

theorem divides_atom_iff (text : String) : (atom text).DividesByZero ↔
    ∃ n, Fraction.quotient? (takeSign (trim text.toList)).2 = some (n, 0) := by
  constructor
  · intro h
    cases h with
    | ratio h => exact ⟨_, h⟩
  · rintro ⟨n, h⟩
    exact .ratio h

theorem divides_unary_iff {head : String} (hhead : head = "-" ∨ head = "to_real") :
    (list [atom head, e]).DividesByZero ↔ e.DividesByZero := by
  constructor
  · intro h
    cases h with
    | unary _ h => exact h
  · exact .unary hhead

theorem accounts_numeral (text : String) : Accounts (.atom text) (numeral text) := by
  have hdivides := divides_atom_iff text
  rcases hsign : takeSign (trim text.toList) with ⟨negative, body⟩
  rw [hsign] at hdivides
  cases hquotient : Fraction.quotient? body with
  | none =>
    have hnot : ¬ (atom text).DividesByZero := by simp [hdivides, hquotient]
    simp only [numeral, Fraction.read, hsign, hquotient]
    rcases Decimal.take? body with _ | ⟨d, _ | ⟨c, cs⟩⟩ <;> exact hnot
  | some parts =>
    obtain ⟨n, d⟩ := parts
    cases d with
    | zero =>
      simp only [numeral, Fraction.read, hsign, hquotient]
      exact hdivides.mpr ⟨n, hquotient⟩
    | succ d =>
      have hnot : ¬ (atom text).DividesByZero := by simp [hdivides, hquotient]
      simp only [numeral, Fraction.read, hsign, hquotient]
      exact hnot

theorem divides_quotient_iff : (list [atom "/", e, e']).DividesByZero ↔
    e.DividesByZero ∨ ∃ q, number e = .ok q ∧ (e'.DividesByZero ∨ number e' = .ok 0) := by
  constructor
  · intro h
    cases h with
    | dividend h => exact .inl h
    | divisor hq h => exact .inr ⟨_, hq, .inl h⟩
    | zero hq hzero => exact .inr ⟨_, hq, .inr hzero⟩
  · rintro (h | ⟨q, hq, h | hzero⟩)
    · exact .dividend h
    · exact .divisor hq h
    · exact .zero hq hzero

theorem accounts_error {fault : ValueError} (hdivides : e'.DividesByZero ↔ e.DividesByZero)
    (h : e.Accounts (.error fault)) : e'.Accounts (.error fault) := by
  cases fault with
  | fraction fault =>
    cases fault with
    | zeroDenominator n => exact hdivides.mpr h
    | malformed text => exact h.elim
  | notNumber got => exact fun h' => h (hdivides.mp h')
  | notBool got => exact h.elim
  | notInt got => exact h.elim

theorem accounts_map (f : Rat → Rat) (hdivides : e'.DividesByZero ↔ e.DividesByZero)
    (h : e.Accounts r) : e'.Accounts (f <$> r) := by
  cases r with
  | ok q => exact fun h' => h (hdivides.mp h')
  | error fault => exact accounts_error hdivides h

theorem accounts_quotient (h : e.Accounts (number e)) (h' : e'.Accounts (number e')) :
    (list [atom "/", e, e']).Accounts (do quotient (← number e) (← number e')) := by
  cases hdividend : number e with
  | error fault =>
    rw [hdividend] at h
    apply accounts_error _ h
    simp [divides_quotient_iff, hdividend]
  | ok q =>
    rw [hdividend] at h
    have hwhole : (list [atom "/", e, e']).DividesByZero ↔ e'.DividesByZero ∨ number e' = .ok 0 := by
      have hnot : ¬ e.DividesByZero := h
      simp [divides_quotient_iff, hdividend, hnot]
    cases hdivisor : number e' with
    | error fault =>
      rw [hdivisor] at h'
      apply accounts_error _ h'
      simp [hwhole, hdivisor]
    | ok q' =>
      rw [hdivisor] at h'
      have hnot : ¬ e'.DividesByZero := h'
      simp only [bind, Except.bind, quotient, Fraction.divide]
      split
      · next hzero =>
        rw [hzero] at hdivisor
        exact hwhole.mpr (.inr hdivisor)
      · next hzero =>
        have hnonzero : ¬ (list [atom "/", e, e']).DividesByZero := by simp [hwhole, hnot, hdivisor, hzero]
        exact hnonzero

theorem accounts_number (e : SExpr) : Accounts e (number e) := by
  induction e using number.induct with
  | case1 text => exact accounts_numeral text
  | case2 e ih =>
    rw [number, if_pos rfl]
    exact accounts_map (- ·) (divides_unary_iff (.inl rfl)) ih
  | case3 e hminus ih =>
    rw [number, if_neg hminus, if_pos rfl]
    simpa using accounts_map id (divides_unary_iff (.inr rfl)) ih
  | case4 head e hminus hreal =>
    rw [number, if_neg hminus, if_neg hreal]
    intro h
    cases h with
    | unary hhead _ => exact hhead.elim hminus hreal
  | case5 e e' ih ih' =>
    rw [number, if_pos rfl]
    exact accounts_quotient ih ih'
  | case6 head e e' hslash =>
    rw [number, if_neg hslash]
    intro h
    cases h <;> exact hslash rfl
  | case7 e hatom hunary hbinary =>
    have hnumber : number e = .error (.notNumber e) := by
      unfold number
      split <;> simp_all
    rw [hnumber]
    intro h
    cases h <;> simp_all

theorem rootObject?_of_divides (h : e.DividesByZero) : rootObject? e = none := by
  cases h with
  | ratio _ => rfl
  | unary hhead _ => rcases hhead with rfl | rfl <;> rfl
  | dividend _ => rfl
  | divisor _ _ => rfl
  | zero _ _ => rfl

theorem number_of_divides (h : e.DividesByZero) : ∃ n, number e = .error (.fraction (.zeroDenominator n)) := by
  have haccounts := accounts_number e
  generalize number e = r at haccounts
  match r with
  | .ok _ | .error (.notNumber _) => exact absurd h haccounts
  | .error (.fraction (.zeroDenominator n)) => exact ⟨n, rfl⟩

theorem number_of_not_divides (h : ¬ e.DividesByZero) :
    (∃ q, number e = .ok q) ∨ ∃ got, number e = .error (.notNumber got) := by
  have haccounts := accounts_number e
  generalize number e = r at haccounts
  match r with
  | .ok q => exact .inl ⟨q, rfl⟩
  | .error (.notNumber got) => exact .inr ⟨got, rfl⟩
  | .error (.fraction (.zeroDenominator n)) => exact absurd haccounts h

theorem value_of_divides {ty : Ty} (hty : ty ≠ .bool) (h : e.DividesByZero) :
    ∃ n, e.value ty = .error (.fraction (.zeroDenominator n)) := by
  obtain ⟨n, hn⟩ := number_of_divides h
  refine ⟨n, ?_⟩
  cases ty with
  | bool => exact absurd rfl hty
  | int => simp [value, hn, bind, Except.bind]
  | rat => simp [value, rootObject?_of_divides h, hn, bind, Except.bind]

def Reported (ty : Ty) : Except ValueError Value → Prop
  | .ok v => v.HasTy ty
  | .error fault => fault.isArithmetic = false

instance (ty : Ty) : (r : Except ValueError Value) → Decidable (Reported ty r)
  | .ok v => inferInstanceAs (Decidable (v.HasTy ty))
  | .error fault => inferInstanceAs (Decidable (fault.isArithmetic = false))

theorem reported_bool (e : SExpr) : Reported .bool (e.value .bool) := by
  simp only [value, boolValue]
  split <;> rfl

theorem reported_int (h : ¬ e.DividesByZero) : Reported .int (e.value .int) := by
  rcases number_of_not_divides h with ⟨q, hq⟩ | ⟨got, hgot⟩
  · simp only [value, hq, bind, Except.bind]
    split <;> rfl
  · simp only [value, hgot, bind, Except.bind]
    rfl

theorem reported_rat (h : ¬ e.DividesByZero) : Reported .rat (e.value .rat) := by
  unfold value
  cases rootObject? e with
  | some text => rfl
  | none =>
    rcases number_of_not_divides h with ⟨q, hq⟩ | ⟨got, hgot⟩
    · simp only [hq, bind, Except.bind]
      rfl
    · simp only [hgot, bind, Except.bind]
      rfl

def Faults (e : SExpr) (ty : Ty) : Prop := ty ≠ .bool ∧ e.DividesByZero

theorem reported_of_not_faults {ty : Ty} (h : ¬ e.Faults ty) : Reported ty (e.value ty) := by
  cases ty with
  | bool => exact reported_bool e
  | int => exact reported_int fun hdivides => h ⟨by decide, hdivides⟩
  | rat => exact reported_rat fun hdivides => h ⟨by decide, hdivides⟩

end

end SExpr

end InvariantProver
