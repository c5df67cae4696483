import InvariantProver.Proofs.Smt.Operators
import InvariantProver.Proofs.Term.Shift
import InvariantProver.Term.Irrational

/-!
Evaluation by the standard of the language of solvers. The standard gives a term a value if all its
references have one and it divides by nothing that is zero; evaluation gives the same value, and in all
other cases it names what stands in the way (`evaluates_by_standard`).
-/

namespace InvariantProver

namespace Scalar

theorem toRat_inj {a b : Scalar} (h : a.ty = b.ty) : a.toRat = b.toRat ↔ a = b := by
  cases a with
  | bool p =>
    cases b with
    | bool q => cases p <;> cases q <;> decide
    | int | rat => cases h
  | int i =>
    cases b with
    | int j => simp [toRat]
    | bool | rat => cases h
  | rat p =>
    cases b with
    | rat q => simp [toRat]
    | bool | int => cases h

end Scalar

theorem ediv_emod_of_euclid {i j q r : Int} (h : i = j * q + r) (hr : 0 ≤ r) (hlt : r < j.natAbs) :
    i / j = q ∧ i % j = r := by
  rcases Int.lt_trichotomy j 0 with hneg | rfl | hpos
  · exact (Int.ediv_emod_unique' hneg).mpr ⟨by omega, hr, by omega⟩
  · omega
  · exact (Int.ediv_emod_unique hpos).mpr ⟨by omega, hr, by omega⟩

namespace Op

def extension? : Op → Option Smt.Extension
  | and | or | add | sub | mul => some .left
  | implies => some .right
  | eq | ge | le | gt | lt => some .chain
  | _ => none

def Orders {α : Type} [LE α] [LT α] : Op → α → α → Prop
  | ge, a, b => b ≤ a
  | le, a, b => a ≤ b
  | gt, a, b => b < a
  | lt, a, b => a < b
  | _, _, _ => False

def combined? {α : Type} [Add α] [Sub α] [Mul α] : Op → α → α → Option α
  | add, a, b => some (a + b)
  | sub, a, b => some (a - b)
  | mul, a, b => some (a * b)
  | _, _, _ => none

inductive Unary : Op → Scalar → Scalar → Prop
  | negation (p : Bool) : Unary not (.bool p) (.bool !p)
  | opposite (i : Int) : Unary sub (.int i) (.int (-i))
  | ratOpposite (p : Rat) : Unary sub (.rat p) (.rat (-p))
  | alone {op : Op} (v : Scalar) : op.Collapses → (op ≠ add → v.ty = .bool) → Unary op v v

/-- Functions of two arguments. A whole quotient is the one that leaves a remainder which is not negative
and less than the divisor without its sign. Nothing is divided by zero. -/
inductive Binary : Op → Scalar → Scalar → Scalar → Prop
  | implication (p q : Bool) : Binary implies (.bool p) (.bool q) (.bool (!p || q))
  | conjunction (p q : Bool) : Binary and (.bool p) (.bool q) (.bool (p && q))
  | disjunction (p q : Bool) : Binary or (.bool p) (.bool q) (.bool (p || q))
  | equality {a b : Scalar} : a.ty = b.ty → Binary eq a b (.bool (a = b))
  | order {op : Op} {i j : Int} {p : Bool} : op.isRelation = true → (p = true ↔ op.Orders i j) →
    Binary op (.int i) (.int j) (.bool p)
  | ratOrder {op : Op} {p q : Rat} {b : Bool} : op.isRelation = true → (b = true ↔ op.Orders p q) →
    Binary op (.rat p) (.rat q) (.bool b)
  | arith {op : Op} {i j k : Int} : op.combined? i j = some k → Binary op (.int i) (.int j) (.int k)
  | ratArith {op : Op} {p q r : Rat} : op.combined? p q = some r →
    Binary op (.rat p) (.rat q) (.rat r)
  | quotient {i j : Int} : j ≠ 0 → Binary div (.int i) (.int j) (.rat (i / j))
  | ratQuotient {p q : Rat} : q ≠ 0 → Binary div (.rat p) (.rat q) (.rat (p / q))
  | whole {i j q r : Int} : i = j * q + r → 0 ≤ r → r < j.natAbs →
    Binary idiv (.int i) (.int j) (.int q)
  | remainder {i j q r : Int} : i = j * q + r → 0 ≤ r → r < j.natAbs →
    Binary mod (.int i) (.int j) (.int r)

inductive Standard : Op → List Scalar → Scalar → Prop
  | choice (p : Bool) (a b : Scalar) : Standard ite [.bool p, a, b] (if p then a else b)
  | unary {op : Op} {a v : Scalar} : op.Unary a v → Standard op [a] v
  | binary {op : Op} {a b v : Scalar} : op.Binary a b v → Standard op [a, b] v
  | left {op : Op} {a b c d v : Scalar} {rest : List Scalar} : op.extension? = some .left →
    op.Binary a b c → Standard op (c :: d :: rest) v → Standard op (a :: b :: d :: rest) v
  | right {op : Op} {a b c v w : Scalar} {rest : List Scalar} : op.extension? = some .right →
    Standard op (b :: c :: rest) v → op.Binary a v w → Standard op (a :: b :: c :: rest) w
  | chain {op : Op} {a b c : Scalar} {rest : List Scalar} {p q : Bool} : op.extension? = some .chain →
    op.Binary a b (.bool p) → Standard op (b :: c :: rest) (.bool q) →
    Standard op (a :: b :: c :: rest) (.bool (p && q))

/-! ### Operators have the values of the standard -/

theorem apply_order {op : Op} (hop : op.isRelation = true) {a b : Scalar} {p : Bool}
    (h : p = true ↔ op.Orders a.toRat b.toRat) : op.apply [a, b] = .ok (.bool p) := by
  cases op with
  | ge | le | gt | lt =>
    simp only [apply, chain, Bool.and_true, Except.ok.injEq, Scalar.bool.injEq]
    rw [Bool.eq_iff_iff, h]
    simp [Scalar.compare, Orders]
  | _ => cases hop

theorem apply_of_unary {op : Op} {a v : Scalar} (h : op.Unary a v) : op.apply [a] = .ok v := by
  cases h with
  | negation | opposite | ratOpposite => rfl
  | alone v hop hbool =>
    rcases hop with rfl | rfl | rfl
    · rfl
    · obtain ⟨p, rfl⟩ := Smt.eq_bool_of_ty (hbool (by decide))
      simp [apply, Scalar.truth]
    · obtain ⟨p, rfl⟩ := Smt.eq_bool_of_ty (hbool (by decide))
      simp [apply, Scalar.truth]

theorem apply_of_binary {op : Op} {a b v : Scalar} (h : op.Binary a b v) : op.apply [a, b] = .ok v := by
  cases h with
  | implication p q => rfl
  | conjunction p q => simp [apply, Scalar.truth]
  | disjunction p q => simp [apply, Scalar.truth]
  | equality hty => simp [apply, Scalar.same, Scalar.toRat_inj hty]
  | @order op i j p hop h =>
    apply apply_order hop
    rw [h]
    cases op with
    | ge | le => exact Rat.intCast_le_intCast.symm
    | gt | lt => exact Rat.intCast_lt_intCast.symm
    | _ => cases hop
  | ratOrder hop h => exact apply_order hop h
  | @arith op i j k h =>
    cases op with
    | add | sub | mul =>
      rw [← Option.some.inj h]
      rfl
    | _ => cases h
  | @ratArith op p q r h =>
    cases op with
    | add | sub | mul =>
      rw [← Option.some.inj h]
      rfl
    | _ => cases h
  | quotient hj => simp [apply, divide, Scalar.toRat, hj]
  | ratQuotient hq => simp [apply, divide, Scalar.toRat, hq]
  | @whole i j q r h hr hlt =>
    have hj : j ≠ 0 := by omega
    simp [apply, divide, Scalar.toRat, hj, Scalar.idiv, Scalar.toInt?, (ediv_emod_of_euclid h hr hlt).1]
  | @remainder i j q r h hr hlt =>
    have hj : j ≠ 0 := by omega
    simp [apply, divide, Scalar.toRat, hj, Scalar.mod, Scalar.arith, Scalar.toInt?,
      (ediv_emod_of_euclid h hr hlt).2]

theorem apply_left {op : Op} (hop : op.extension? = some .left) {a b c : Scalar}
    (h : op.apply [a, b] = .ok c) (d : Scalar) (rest : List Scalar) :
    op.apply (a :: b :: d :: rest) = op.apply (c :: d :: rest) := by
  cases op with
  | and | or =>
    rw [← Except.ok.inj h]
    simp [apply, Scalar.truth_bool, Bool.and_assoc, Bool.or_assoc]
  | add | sub | mul =>
    rw [← Except.ok.inj h]
    rfl
  | _ => cases hop

theorem apply_chain {op : Op} (hop : op.extension? = some .chain) {a b : Scalar} {p q : Bool}
    (h : op.apply [a, b] = .ok (.bool p)) (c : Scalar) (rest : List Scalar)
    (hrest : op.apply (b :: c :: rest) = .ok (.bool q)) :
    op.apply (a :: b :: c :: rest) = .ok (.bool (p && q)) := by
  cases op with
  | eq =>
    have hall (a : Scalar) (vs : List Scalar) :
        eq.apply (a :: vs) = .ok (.bool (chain Scalar.same (a :: vs))) := by
      rw [Smt.chain_same]
      rfl
    rw [hall] at h hrest ⊢
    simp only [Except.ok.injEq, Scalar.bool.injEq] at h hrest ⊢
    rw [← h, ← hrest]
    simp [chain]
  | ge | le | gt | lt =>
    simp only [apply, Except.ok.injEq, Scalar.bool.injEq] at h hrest ⊢
    rw [← h, ← hrest]
    simp [chain]
  | _ => cases hop

theorem apply_of_standard {op : Op} {vs : List Scalar} {v : Scalar} (h : op.Standard vs v) :
    op.apply vs = .ok v := by
  induction h with
  | choice p a b => cases p <;> rfl
  | unary h => exact apply_of_unary h
  | binary h => exact apply_of_binary h
  | left hop h _ ih => rw [apply_left hop (apply_of_binary h), ih]
  | @right op a b c v w rest hop _ h ih =>
    cases op with
    | implies =>
      obtain ⟨q, hq, rfl⟩ := except_map_eq_ok.mp ih
      cases h with
      | implication p q =>
        have hall : implication (.bool p :: b :: c :: rest) = .ok (!p || q) := by
          rw [implication, hq]
          · rfl
          · simp
        rw [apply, hall]
        rfl
    | _ => cases hop
  | chain hop h _ ih => exact apply_chain hop (apply_of_binary h) _ _ ih

/-! ### The standard has values where nothing is divided by zero -/

section

variable {op : Op} {t : Ty} {a b : Scalar}

theorem exists_left (hop : op.extension? = some .left)
    (hbinary : ∀ a b, a.ty = t → b.ty = t → ∃ c, op.Binary a b c ∧ c.ty = t) {rest : List Scalar}
    (hvs : ∀ v ∈ a :: b :: rest, v.ty = t) : ∃ v, op.Standard (a :: b :: rest) v := by
  obtain ⟨c, hc, hty⟩ := hbinary a b (hvs a (by simp)) (hvs b (by simp))
  induction rest generalizing a b c with
  | nil => exact ⟨c, .binary hc⟩
  | cons d rest ih =>
    have hd := hvs d (by simp)
    obtain ⟨e, he, hety⟩ := hbinary c d hty hd
    have hrest : ∀ v ∈ c :: d :: rest, v.ty = t := by
      intro v hv
      rcases List.mem_cons.mp hv with rfl | hv
      · exact hty
      · exact hvs v (by simp [List.mem_cons.mp hv])
    obtain ⟨v, hv⟩ := ih hrest e he hety
    exact ⟨v, .left hop hc hv⟩

theorem exists_chain (hop : op.extension? = some .chain)
    (hbinary : ∀ a b, a.ty = t → b.ty = t → ∃ p, op.Binary a b (.bool p)) {rest : List Scalar}
    (hvs : ∀ v ∈ a :: b :: rest, v.ty = t) : ∃ p, op.Standard (a :: b :: rest) (.bool p) := by
  obtain ⟨p, hp⟩ := hbinary a b (hvs a (by simp)) (hvs b (by simp))
  induction rest generalizing a b p with
  | nil => exact ⟨p, .binary hp⟩
  | cons c rest ih =>
    obtain ⟨q, hq⟩ := hbinary b c (hvs b (by simp)) (hvs c (by simp))
    obtain ⟨w, hw⟩ := ih (fun v hv => hvs v (List.mem_cons_of_mem a hv)) q hq
    exact ⟨p && w, .chain hop hp hw⟩

theorem exists_implication {rest : List Scalar} (hvs : ∀ v ∈ a :: b :: rest, v.ty = .bool) :
    ∃ p, implies.Standard (a :: b :: rest) (.bool p) := by
  obtain ⟨p, rfl⟩ := Smt.eq_bool_of_ty (hvs a (by simp))
  induction rest generalizing p b with
  | nil =>
    obtain ⟨q, rfl⟩ := Smt.eq_bool_of_ty (hvs b (by simp))
    exact ⟨!p || q, .binary (.implication p q)⟩
  | cons c rest ih =>
    obtain ⟨q, rfl⟩ := Smt.eq_bool_of_ty (hvs b (by simp))
    obtain ⟨w, hw⟩ := ih q fun v hv => hvs v (List.mem_cons_of_mem _ hv)
    exact ⟨!p || w, .right rfl hw (.implication p w)⟩

theorem exists_junction (hop : op = and ∨ op = or) (a b : Scalar) (ha : a.ty = .bool)
    (hb : b.ty = .bool) : ∃ c, op.Binary a b c ∧ c.ty = .bool := by
  obtain ⟨p, rfl⟩ := Smt.eq_bool_of_ty ha
  obtain ⟨q, rfl⟩ := Smt.eq_bool_of_ty hb
  rcases hop with rfl | rfl
  · exact ⟨_, .conjunction p q, rfl⟩
  · exact ⟨_, .disjunction p q, rfl⟩

theorem exists_arith (hop : op = add ∨ op = sub ∨ op = mul) (ht : t ≠ .bool) (a b : Scalar)
    (ha : a.ty = t) (hb : b.ty = t) : ∃ c, op.Binary a b c ∧ c.ty = t := by
  subst ha
  cases a with
  | bool p => exact absurd rfl ht
  | int i =>
    cases b with
    | int j => rcases hop with rfl | rfl | rfl <;> exact ⟨_, .arith rfl, rfl⟩
    | bool | rat => cases hb
  | rat p =>
    cases b with
    | rat q => rcases hop with rfl | rfl | rfl <;> exact ⟨_, .ratArith rfl, rfl⟩
    | bool | int => cases hb

theorem exists_order (hop : op.isRelation = true) (ht : t ≠ .bool) (a b : Scalar) (ha : a.ty = t)
    (hb : b.ty = t) : ∃ p, op.Binary a b (.bool p) := by
  classical
  subst ha
  cases a with
  | bool p => exact absurd rfl ht
  | int i =>
    cases b with
    | int j => exact ⟨decide (op.Orders i j), .order hop (by simp)⟩
    | bool | rat => cases hb
  | rat p =>
    cases b with
    | rat q => exact ⟨decide (op.Orders p q), .ratOrder hop (by simp)⟩
    | bool | int => cases hb

end

def DividesByZero (op : Op) (vs : List Scalar) : Prop :=
  op.isDivision = true ∧ ∃ a b, vs = [a, b] ∧ b.toRat = 0

theorem exists_junctions {op : Op} {vs : List Scalar} (hop : op = and ∨ op = or) (hne : vs ≠ [])
    (hvs : ∀ v ∈ vs, v.ty = .bool) : ∃ v, op.Standard vs v := by
  match vs with
  | [] => exact absurd rfl hne
  | [a] => exact ⟨a, .unary (.alone a (.inr hop) fun _ => hvs a (by simp))⟩
  | a :: b :: rest =>
    have hleft : op.extension? = some .left := by rcases hop with rfl | rfl <;> rfl
    exact exists_left hleft (exists_junction hop) hvs

theorem exists_sum {op : Op} {vs : List Scalar} {t : Ty} (hop : op = add ∨ op = sub) (ht : t ≠ .bool)
    (hne : vs ≠ []) (hvs : ∀ v ∈ vs, v.ty = t) : ∃ v, op.Standard vs v := by
  match vs with
  | [] => exact absurd rfl hne
  | [a] =>
    have ha : a.ty ≠ .bool := hvs a (by simp) ▸ ht
    rcases hop with rfl | rfl
    · exact ⟨a, .unary (.alone a (.inl rfl) (by simp))⟩
    · cases a with
      | bool p => exact absurd rfl ha
      | int i => exact ⟨_, .unary (.opposite i)⟩
      | rat p => exact ⟨_, .unary (.ratOpposite p)⟩
  | a :: b :: rest =>
    have hleft : op.extension? = some .left := by rcases hop with rfl | rfl <;> rfl
    have harith : op = add ∨ op = sub ∨ op = mul := by rcases hop with h | h <;> simp [h]
    exact exists_left hleft (exists_arith harith ht) hvs

theorem exists_quotient {a b : Scalar} (ha : a.ty ≠ .bool) (hb : b.ty = a.ty) (hne : b.toRat ≠ 0) :
    ∃ v, div.Standard [a, b] v := by
  cases a with
  | bool p => exact absurd rfl ha
  | int i =>
    cases b with
    | int j => exact ⟨_, .binary (.quotient (by simpa [Scalar.toRat] using hne))⟩
    | bool | rat => cases hb
  | rat p =>
    cases b with
    | rat q => exact ⟨_, .binary (.ratQuotient hne)⟩
    | bool | int => cases hb

theorem exists_whole {op : Op} (hop : op = idiv ∨ op = mod) (i : Int) {j : Int} (hj : j ≠ 0) :
    ∃ v, op.Standard [.int i, .int j] v := by
  have heuclid : i = j * (i / j) + i % j := (Int.mul_ediv_add_emod i j).symm
  have hlt : i % j < j.natAbs := Int.emod_lt i hj
  rcases hop with rfl | rfl
  · exact ⟨_, .binary (.whole heuclid (Int.emod_nonneg i hj) hlt)⟩
  · exact ⟨_, .binary (.remainder heuclid (Int.emod_nonneg i hj) hlt)⟩

theorem exists_standard {op : Op} {vs : List Scalar} {t : Ty} (h : op.Takes (vs.map Scalar.ty) t)
    (hzero : ¬ op.DividesByZero vs) : ∃ v, op.Standard vs v := by
  generalize htys : vs.map Scalar.ty = tys at h
  have hvs : ∀ {n u}, tys = .replicate n u → ∀ v ∈ vs, v.ty = u := fun h => ty_of_mem (htys.trans h)
  have hne : tys ≠ [] → vs ≠ [] := by
    rintro htys' rfl
    exact htys' htys.symm
  cases h with
  | choice t =>
    obtain ⟨p, onTrue, onFalse, rfl, -⟩ := Smt.choice_of_map_ty htys
    exact ⟨_, .choice p onTrue onFalse⟩
  | negation =>
    obtain ⟨p, rfl⟩ := Smt.bool_of_map_ty htys
    exact ⟨_, .unary (.negation p)⟩
  | junction hop hn => exact exists_junctions hop (hne (by simp; omega)) (hvs rfl)
  | implication hn =>
    obtain ⟨a, b, rest, rfl⟩ := Smt.two_of_map_ty htys hn
    obtain ⟨p, hp⟩ := exists_implication (hvs rfl)
    exact ⟨_, hp⟩
  | equality t hn =>
    obtain ⟨a, b, rest, rfl⟩ := Smt.two_of_map_ty htys hn
    have hbinary : ∀ a b : Scalar, a.ty = t → b.ty = t → ∃ p, Op.eq.Binary a b (.bool p) :=
      fun a b ha hb => ⟨_, .equality (ha.trans hb.symm)⟩
    obtain ⟨p, hp⟩ := exists_chain rfl hbinary (hvs rfl)
    exact ⟨_, hp⟩
  | relation hop ht hn =>
    obtain ⟨a, b, rest, rfl⟩ := Smt.two_of_map_ty htys hn
    have hchain : op.extension? = some .chain := by cases op <;> first | rfl | cases hop
    obtain ⟨p, hp⟩ := exists_chain hchain (exists_order hop ht) (hvs rfl)
    exact ⟨_, hp⟩
  | sum hop ht hn => exact exists_sum hop ht (hne (by simp; omega)) (hvs rfl)
  | product ht hn =>
    obtain ⟨a, b, rest, rfl⟩ := Smt.two_of_map_ty htys hn
    exact exists_left rfl (exists_arith (.inr (.inr rfl)) ht) (hvs rfl)
  | quotient ht =>
    simp only [List.map_eq_cons_iff, List.map_eq_nil_iff] at htys
    obtain ⟨a, _, rfl, ha, b, _, rfl, hb, rfl⟩ := htys
    exact exists_quotient (ha ▸ ht) (hb.trans ha.symm) fun h => hzero ⟨rfl, a, b, rfl, h⟩
  | whole hop =>
    simp only [List.map_eq_cons_iff, List.map_eq_nil_iff] at htys
    obtain ⟨a, _, rfl, ha, b, _, rfl, hb, rfl⟩ := htys
    obtain ⟨i, j, rfl, rfl⟩ := Smt.ints_of_map_ty (a := a) (b := b) (by simp [ha, hb])
    apply exists_whole hop i
    rintro rfl
    exact hzero ⟨by rcases hop with rfl | rfl <;> rfl, _, _, rfl, by simp [Scalar.toRat]⟩

def zeroFailure : Op → EvalError
  | div => .divisionByZero
  | op => .zeroDivisor op

theorem apply_zero {op : Op} {vs : List Scalar} (h : op.DividesByZero vs) :
    op.apply vs = .error op.zeroFailure := by
  obtain ⟨hop, a, b, rfl, hb⟩ := h
  cases op with
  | div | idiv | mod => simp [apply, divide, hb, zeroFailure]
  | _ => cases hop

section

variable {op : Op} {vs : List Scalar} {t : Ty} (h : op.Takes (vs.map Scalar.ty) t)
include h

theorem apply_eq_ok_iff {v : Scalar} : op.apply vs = .ok v ↔ op.Standard vs v := by
  refine ⟨fun hv => ?_, apply_of_standard⟩
  have hzero : ¬ op.DividesByZero vs := by
    intro hzero
    rw [apply_zero hzero] at hv
    cases hv
  obtain ⟨w, hw⟩ := exists_standard h hzero
  obtain rfl := Except.ok.inj (hv.symm.trans (apply_of_standard hw))
  exact hw

theorem apply_eq_error {e : EvalError} (he : op.apply vs = .error e) :
    op.DividesByZero vs ∧ e = op.zeroFailure := by
  by_cases hzero : op.DividesByZero vs
  · exact ⟨hzero, (Except.error.inj ((apply_zero hzero).symm.trans he)).symm⟩
  · obtain ⟨v, hv⟩ := exists_standard h hzero
    rw [apply_of_standard hv] at he
    cases he

end

end Op

/-! ### Terms -/

namespace Term

inductive Valued (env : Valuation) : Term → Scalar → Prop
  | const (v : Scalar) : Valued env (.const v) v
  | ref {r : Ref} {v : Scalar} : env r = some (.exact v) → Valued env (.ref r) v
  | app {op : Op} {args : List Term} {vs : List Scalar} {v : Scalar} :
    List.Forall₂ (Valued env) args vs → op.Standard vs v → Valued env (.app op args) v

inductive Occurs (u : Term) : Term → Prop
  | here : Occurs u u
  | inside {op : Op} {args : List Term} {t : Term} : t ∈ args → Occurs u t → Occurs u (.app op args)

def DividesByZero (env : Valuation) (op : Op) (t : Term) : Prop :=
  op.isDivision = true ∧ ∃ a b v, Occurs (.app op [a, b]) t ∧ b.evaluate env = .ok v ∧ v.toRat = 0

end Term

inductive EvalError.Names (env : Valuation) (t : Term) : EvalError → Prop
  | noValue {r : Ref} : r ∈ t.refs → env r = none → Names env t (.noValue r)
  | irrational {r : Ref} {text : String} {approx? : Option Rat} : r ∈ t.refs →
    env r = some (.algebraic text approx?) → Names env t (.irrational r text)
  | divisionByZero : t.DividesByZero env .div → Names env t .divisionByZero
  | zeroDivisor {op : Op} : op = .idiv ∨ op = .mod → t.DividesByZero env op →
    Names env t (.zeroDivisor op)

namespace Term

variable {env : Valuation} {t : Term}

theorem DividesByZero.inside {op op' : Op} {args : List Term} (ht : t ∈ args)
    (h : t.DividesByZero env op) : (app op' args).DividesByZero env op := by
  obtain ⟨hop, a, b, v, hoccurs, hb, hv⟩ := h
  exact ⟨hop, a, b, v, .inside ht hoccurs, hb, hv⟩

theorem names_inside {op : Op} {args : List Term} {e : EvalError} (ht : t ∈ args) (h : e.Names env t) :
    e.Names env (app op args) := by
  cases h with
  | noValue hr henv => exact .noValue (refs_of_mem ht _ hr) henv
  | irrational hr henv => exact .irrational (refs_of_mem ht _ hr) henv
  | divisionByZero h => exact .divisionByZero (h.inside ht)
  | zeroDivisor hop h => exact .zeroDivisor hop (h.inside ht)

theorem exact_eq_ok_iff {r : Ref} {v : Scalar} : env.exact r = .ok v ↔ env r = some (.exact v) := by
  unfold Valuation.exact
  rcases env r with _ | w | _ <;> simp

theorem evaluate_of_valued {v : Scalar} (h : t.Valued env v) : t.evaluate env = .ok v := by
  induction t using Term.induct generalizing v with
  | const value =>
    cases h
    simp [evaluate]
  | ref r =>
    obtain _ | hr := h
    simpa [evaluate] using exact_eq_ok_iff.mpr hr
  | app op args ih =>
    obtain _ | _ | ⟨hargs, hv⟩ := h
    have hall := (List.forall₂_and_left _ _).mpr ⟨ih, hargs⟩
    have hvalues := collect_eq_ok_iff.mpr (hall.imp fun t v h => h.1 h.2)
    rw [evaluate_app, hvalues]
    exact Op.apply_of_standard hv

theorem exact_of_evaluate {v : Scalar} (h : t.evaluate env = .ok v) :
    (∀ r ∈ t.refs, ∃ v, env r = some (.exact v)) ∧ ∀ op, ¬ t.DividesByZero env op := by
  induction t using Term.induct generalizing v with
  | const value =>
    refine ⟨by simp [refs], ?_⟩
    rintro op ⟨-, a, b, w, ⟨⟩, -⟩
  | ref r =>
    refine ⟨?_, ?_⟩
    · intro r' hr'
      obtain rfl : r' = r := by simpa [refs] using hr'
      exact ⟨v, exact_eq_ok_iff.mp (by simpa [evaluate] using h)⟩
    · rintro op ⟨-, a, b, w, ⟨⟩, -⟩
  | app op args ih =>
    rw [evaluate_app] at h
    obtain ⟨vs, hvs, hv⟩ := except_bind_eq_ok.mp h
    have hargs := collect_eq_ok_iff.mp hvs
    have hvalue : ∀ t ∈ args, ∃ v, t.evaluate env = .ok v := by
      intro t ht
      obtain ⟨v, -, hv⟩ := exists_of_forall₂ hargs ht
      exact ⟨v, hv⟩
    refine ⟨fun r hr => ?_, ?_⟩
    · rw [refs_app] at hr
      obtain ⟨t, ht, hr⟩ := List.mem_flatMap.mp hr
      obtain ⟨v, hv⟩ := hvalue t ht
      exact (ih t ht hv).1 r hr
    · rintro op' ⟨hop, a, b, w, hoccurs, hb, hw⟩
      obtain _ | ⟨ht, hoccurs⟩ := hoccurs
      · -- the term itself is the division
        obtain _ | ⟨ha, hrest⟩ := hargs
        obtain _ | ⟨hb', hnil⟩ := hrest
        obtain rfl := Except.ok.inj (hb.symm.trans hb')
        cases hnil
        rw [Op.apply_zero ⟨hop, _, _, rfl, hw⟩] at hv
        cases hv
      · obtain ⟨v, hv⟩ := hvalue _ ht
        exact (ih _ ht hv).2 op' ⟨hop, a, b, w, hoccurs, hb, hw⟩

theorem takes_of_collect {op : Op} {args : List Term} {vs : List Scalar}
    (ht : (app op args).isTyped = true)
    (henv : ∀ r ∈ (app op args).refs, ∀ v, env r = some (.exact v) → v.ty = r.ty)
    (hvs : collect (args.map (evaluate env)) = .ok vs) : op.Takes (vs.map Scalar.ty) (app op args).ty := by
  obtain ⟨hargs, htakes⟩ := isTyped_app.mp ht
  rwa [map_of_collect hvs fun t ht v hv => ty_of_evaluate (hargs t ht)
    (fun r hr w hw => henv r (refs_of_mem ht r hr) w (exact_eq_ok_iff.mp hw)) hv]

section

variable (ht : t.isTyped = true) (henv : ∀ r ∈ t.refs, ∀ v, env r = some (.exact v) → v.ty = r.ty)
include ht henv

theorem valued_of_evaluate {v : Scalar} (h : t.evaluate env = .ok v) : t.Valued env v := by
  induction t using Term.induct generalizing v with
  | const value =>
    obtain rfl : value = v := by simpa [evaluate] using h
    exact .const value
  | ref r => exact .ref (exact_eq_ok_iff.mp (by simpa [evaluate] using h))
  | app op args ih =>
    rw [evaluate_app] at h
    obtain ⟨vs, hvs, hv⟩ := except_bind_eq_ok.mp h
    have hvalued : ∀ t ∈ args, ∀ v, t.evaluate env = .ok v → t.Valued env v := fun t hmem v hv =>
      ih t hmem ((isTyped_app.mp ht).1 t hmem) (fun r hr => henv r (refs_of_mem hmem r hr)) hv
    have hall := (List.forall₂_and_left _ _).mpr ⟨hvalued, collect_eq_ok_iff.mp hvs⟩
    have htakes := takes_of_collect ht henv hvs
    exact .app (hall.imp fun t v h => h.1 v h.2) ((Op.apply_eq_ok_iff htakes).mp hv)

theorem names_of_evaluate {e : EvalError} (h : t.evaluate env = .error e) : e.Names env t := by
  induction t using Term.induct with
  | const value => simp [evaluate] at h
  | ref r =>
    have hr : r ∈ (ref r).refs := by simp [refs]
    simp only [evaluate, fold_ref, Valuation.exact] at h
    split at h
    · next hnone => exact Except.error.inj h ▸ .noValue hr hnone
    · next hsome => exact Except.error.inj h ▸ .irrational hr hsome
    · cases h
  | app op args ih =>
    rw [evaluate_app] at h
    cases hvs : collect (args.map (evaluate env)) with
    | error e' =>
      rw [hvs] at h
      obtain rfl := Except.error.inj h
      obtain ⟨t, hmem, he⟩ := exists_error_of_collect hvs
      refine names_inside hmem (ih t hmem ((isTyped_app.mp ht).1 t hmem) ?_ he)
      exact fun r hr => henv r (refs_of_mem hmem r hr)
    | ok vs =>
      rw [hvs] at h
      obtain ⟨⟨hop, x, y, rfl, hy⟩, rfl⟩ := Op.apply_eq_error (takes_of_collect ht henv hvs) h
      obtain ⟨a, b, rfl, -, hb⟩ := eq_pair_of_collect hvs
      have hzero : (app op [a, b]).DividesByZero env op := ⟨hop, a, b, y, .here, hb, hy⟩
      cases op with
      | div => exact .divisionByZero hzero
      | idiv => exact .zeroDivisor (.inl rfl) hzero
      | mod => exact .zeroDivisor (.inr rfl) hzero
      | _ => cases hop

/-- A typed term under values of the right types has the value that the standard gives it, or one of its
references has no exact value, or it divides by zero, and then that is what the failure says. Other
references do not count. -/
theorem evaluates_by_standard :
    ((∃ v, t.evaluate env = .ok v) ↔
      (∀ r ∈ t.refs, ∃ v, env r = some (.exact v)) ∧ ∀ op, ¬ t.DividesByZero env op) ∧
    (∀ v, t.evaluate env = .ok v ↔ t.Valued env v) ∧ (∀ v, t.evaluate env = .ok v → v.ty = t.ty) ∧
    (∀ e, t.evaluate env = .error e → e.Names env t) ∧
    ∀ env' : Valuation, (∀ r ∈ t.freeRefs, env' r = env r) → t.evaluate env' = t.evaluate env := by
  refine ⟨⟨fun ⟨v, hv⟩ => exact_of_evaluate hv, fun ⟨hexact, hzero⟩ => ?_⟩,
    fun v => ⟨valued_of_evaluate ht henv, evaluate_of_valued⟩,
    fun v hv => ty_of_evaluate ht (fun r hr w hw => henv r hr w (exact_eq_ok_iff.mp hw)) hv,
    fun e he => names_of_evaluate ht henv he,
    fun env' h => evaluate_of_agree fun r hr => h r (List.mem_eraseDups.mpr hr)⟩
  cases hvalue : t.evaluate env with
  | ok v => exact ⟨v, rfl⟩
  | error e =>
    cases names_of_evaluate ht henv hvalue with
    | noValue hr hnone =>
      obtain ⟨v, hv⟩ := hexact _ hr
      cases hnone.symm.trans hv
    | irrational hr hsome =>
      obtain ⟨v, hv⟩ := hexact _ hr
      cases hsome.symm.trans hv
    | divisionByZero h => exact absurd h (hzero _)
    | zeroDivisor _ h => exact absurd h (hzero _)

end

def quotientIfLess : Term :=
  .app .ite [.app .lt [.app .idiv [.ref ⟨⟨"x", .int, .state⟩, 0⟩, .ref ⟨⟨"y", .int, .state⟩, 0⟩],
      .app .mod [.ref ⟨⟨"x", .int, .state⟩, 0⟩, .ref ⟨⟨"y", .int, .state⟩, 0⟩]],
    .app .div [.ref ⟨⟨"x", .int, .state⟩, 0⟩, .ref ⟨⟨"y", .int, .state⟩, 0⟩], .const (.rat 0)]

def sevenBy (y : Int) : Valuation := fun r => some (.exact (.int (if r.var.name = "x" then 7 else y)))

/-- The whole quotient of 7 and -2 is -3 and leaves 1; by 0 nothing is divided, though only a condition
asks for it. -/
theorem quotientIfLess_by_standard :
    quotientIfLess.Valued (sevenBy (-2)) (.rat (-7 / 2)) ∧
      ¬ ∃ v, quotientIfLess.evaluate (sevenBy 0) = .ok v := by
  have htyped : quotientIfLess.isTyped = true := by decide +kernel
  have hints : ∀ y, ∀ r ∈ quotientIfLess.refs, ∀ v, sevenBy y r = some (.exact v) → v.ty = r.ty := by
    intro y r hr v hv
    obtain rfl := Value.exact.inj (Option.some.inj hv)
    have hall : ∀ r ∈ quotientIfLess.refs, r.ty = .int := by decide +kernel
    exact (hall r hr).symm
  obtain ⟨-, hvalued, -⟩ := evaluates_by_standard htyped (hints (-2))
  obtain ⟨hiff, -⟩ := evaluates_by_standard htyped (hints 0)
  refine ⟨(hvalued _).mp (by decide +kernel), fun h => (hiff.mp h).2 .idiv ?_⟩
  have hoccurs : Occurs (.app .idiv _) quotientIfLess :=
    .inside List.mem_cons_self (.inside List.mem_cons_self .here)
  exact ⟨rfl, _, _, .int 0, hoccurs, by decide +kernel, rfl⟩

end Term

end InvariantProver
