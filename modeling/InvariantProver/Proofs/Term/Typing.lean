import InvariantProver.Proofs.Data.Checked
import InvariantProver.Proofs.Term.Connectives

namespace InvariantProver

namespace Op

inductive Takes : Op → List Ty → Ty → Prop
  | choice (t : Ty) : Takes ite [.bool, t, t] t
  | negation : Takes not [.bool] .bool
  | junction {op : Op} {n : Nat} (hop : op = and ∨ op = or) (hn : 1 ≤ n) :
    Takes op (.replicate n .bool) .bool
  | implication {n : Nat} (hn : 2 ≤ n) : Takes implies (.replicate n .bool) .bool
  | equality (t : Ty) {n : Nat} (hn : 2 ≤ n) : Takes eq (.replicate n t) .bool
  | relation {op : Op} {t : Ty} {n : Nat} (hop : op.isRelation = true) (ht : t ≠ .bool) (hn : 2 ≤ n) :
    Takes op (.replicate n t) .bool
  | sum {op : Op} {t : Ty} {n : Nat} (hop : op = add ∨ op = sub) (ht : t ≠ .bool) (hn : 1 ≤ n) :
    Takes op (.replicate n t) t
  | product {t : Ty} {n : Nat} (ht : t ≠ .bool) (hn : 2 ≤ n) : Takes mul (.replicate n t) t
  | quotient {t : Ty} (ht : t ≠ .bool) : Takes div [t, t] .rat
  | whole {op : Op} (hop : op = idiv ∨ op = mod) : Takes op [.int, .int] .int

def Collapses (op : Op) : Prop := op = add ∨ op = and ∨ op = or

theorem checkArity_eq_ok {op : Op} {n : Nat} :
    op.checkArity n = .ok () ↔ op.minArity ≤ n ∧ op.maxArity?.any (· < n) = false := by
  unfold checkArity
  split
  · simp
    omega
  · split <;> simp_all

theorem eq_replicate {tys : List Ty} {t : Ty} (h : ∀ u ∈ tys, u = t) :
    tys = .replicate tys.length t :=
  List.eq_replicate_iff.mpr ⟨rfl, h⟩

theorem checkConnective_eq_ok {op : Op} {tys : List Ty} {t : Ty} :
    op.checkConnective tys = .ok t ↔ tys = .replicate tys.length .bool ∧ t = .bool := by
  unfold checkConnective
  split
  · next other hother =>
    have hne := List.find?_some hother
    have hmem := List.mem_of_find?_eq_some hother
    constructor
    · simp
    · rintro ⟨htys, -⟩
      rw [htys] at hmem
      simp [List.eq_of_mem_replicate hmem] at hne
  · next hnone =>
    have hall : ∀ u ∈ tys, u = .bool := by simpa using hnone
    constructor
    · intro h
      exact ⟨eq_replicate hall, (Except.ok.inj h).symm⟩
    · rintro ⟨-, rfl⟩
      rfl

theorem checkUniform_eq_ok {op : Op} {tys : List Ty} {t : Ty} :
    op.checkUniform tys = .ok t ↔ tys ≠ [] ∧ tys = .replicate tys.length t := by
  cases tys with
  | nil => simp [checkUniform]
  | cons first rest =>
    simp only [checkUniform, List.length_cons, List.replicate_succ, List.cons.injEq]
    split
    · next other hother =>
      have hne := List.find?_some hother
      have hmem := List.mem_of_find?_eq_some hother
      constructor
      · simp
      · rintro ⟨-, rfl, hrest⟩
        rw [hrest] at hmem
        simp [List.eq_of_mem_replicate hmem] at hne
    · next hnone =>
      have hall : ∀ u ∈ rest, u = first := by simpa using hnone
      constructor
      · intro h
        obtain rfl := Except.ok.inj h
        exact ⟨by simp, rfl, eq_replicate hall⟩
      · rintro ⟨-, rfl, -⟩
        rfl

theorem checkChoice_eq_ok {tys : List Ty} {t : Ty} :
    checkChoice tys = .ok t ↔ tys = [.bool, t, t] := by
  unfold checkChoice
  split
  · next condition onTrue onFalse =>
    by_cases hcondition : condition = .bool <;> by_cases hbranches : onTrue = onFalse <;>
      simp_all
    intro h
    exact Ne.symm (h ▸ hbranches)
  · next hne =>
    constructor
    · simp
    · intro h
      exact absurd h (hne _ _ _)

theorem checkArith_eq_ok {op : Op} {t : Ty} :
    op.checkArith t = .ok () ↔ t ≠ .bool ∧ (op = idiv ∨ op = mod → t = .int) := by
  unfold checkArith
  by_cases hbool : t = .bool <;> by_cases hint : t = .int <;> simp_all

theorem typeCheck_choice {tys : List Ty} {t : Ty} :
    ite.typeCheck tys = .ok t ↔ tys = [.bool, t, t] := by
  rw [typeCheck, except_bind_eq_ok]
  constructor
  · rintro ⟨⟨⟩, -, h⟩
    exact checkChoice_eq_ok.mp h
  · rintro rfl
    exact ⟨(), checkArity_eq_ok.mpr (by simp [minArity, maxArity?]), checkChoice_eq_ok.mpr rfl⟩

theorem typeCheck_connective {op : Op} (hop : op.isConnective = true) {tys : List Ty} {t : Ty} :
    op.typeCheck tys = .ok t ↔
      op.checkArity tys.length = .ok () ∧ tys = .replicate tys.length .bool ∧ t = .bool := by
  have hite : op ≠ ite := by
    rintro rfl
    cases hop
  rw [typeCheck, except_bind_eq_ok, if_neg hite, if_pos hop, checkConnective_eq_ok]
  constructor
  · rintro ⟨⟨⟩, h⟩
    exact h
  · intro h
    exact ⟨(), h⟩

theorem typeCheck_eq {tys : List Ty} {t : Ty} :
    eq.typeCheck tys = .ok t ↔
      2 ≤ tys.length ∧ (∃ u, tys = .replicate tys.length u) ∧ t = .bool := by
  rw [typeCheck, except_bind_eq_ok]
  constructor
  · rintro ⟨⟨⟩, harity, h⟩
    obtain ⟨u, hu, ht⟩ := except_bind_eq_ok.mp h
    exact ⟨(checkArity_eq_ok.mp harity).1, ⟨u, (checkUniform_eq_ok.mp hu).2⟩, (Except.ok.inj ht).symm⟩
  · rintro ⟨hn, ⟨u, hu⟩, rfl⟩
    refine ⟨(), checkArity_eq_ok.mpr ⟨hn, rfl⟩, except_bind_eq_ok.mpr ⟨u, ?_, rfl⟩⟩
    refine checkUniform_eq_ok.mpr ⟨?_, hu⟩
    rintro rfl
    simp at hn

theorem typeCheck_arith {op : Op} (hite : op ≠ ite) (hconnective : op.isConnective = false)
    (heq : op ≠ eq) {tys : List Ty} {t : Ty} :
    op.typeCheck tys = .ok t ↔ op.checkArity tys.length = .ok () ∧
      ∃ u, tys = .replicate tys.length u ∧ op.checkArith u = .ok () ∧ t = op.arithResult u := by
  have hne : op.checkArity tys.length = .ok () → tys ≠ [] := by
    rintro harity rfl
    have hmin := (checkArity_eq_ok.mp harity).1
    cases op <;> simp [minArity] at hmin
  rw [typeCheck, except_bind_eq_ok, if_neg hite, hconnective]
  simp only [if_neg Bool.false_ne_true, if_neg heq]
  constructor
  · rintro ⟨⟨⟩, harity, h⟩
    obtain ⟨u, hu, h⟩ := except_bind_eq_ok.mp h
    obtain ⟨⟨⟩, harith, ht⟩ := except_bind_eq_ok.mp h
    exact ⟨harity, u, (checkUniform_eq_ok.mp hu).2, harith, (Except.ok.inj ht).symm⟩
  · rintro ⟨harity, u, hu, harith, rfl⟩
    refine ⟨(), harity, except_bind_eq_ok.mpr ⟨u, checkUniform_eq_ok.mpr ⟨hne harity, hu⟩, ?_⟩⟩
    exact except_bind_eq_ok.mpr ⟨(), harith, rfl⟩

theorem takes_of_arith {op : Op} (hite : op ≠ ite) (hconnective : op.isConnective = false)
    (heq : op ≠ eq) {n : Nat} {t : Ty} (harity : op.checkArity n = .ok ())
    (harith : op.checkArith t = .ok ()) : op.Takes (.replicate n t) (op.arithResult t) := by
  obtain ⟨hmin, hmax⟩ := checkArity_eq_ok.mp harity
  obtain ⟨hbool, hint⟩ := checkArith_eq_ok.mp harith
  -- divisions are the operators with two operands and no more
  have htwo : op.minArity = 2 → op.maxArity? = some 2 → n = 2 := by
    intro hlow hhigh
    rw [hhigh, Option.any_some, decide_eq_false_iff_not] at hmax
    omega
  cases op with
  | ite => exact absurd rfl hite
  | eq => exact absurd rfl heq
  | implies | not | and | or => cases hconnective
  | add => exact .sum (.inl rfl) hbool hmin
  | sub => exact .sum (.inr rfl) hbool hmin
  | mul => exact .product hbool hmin
  | ge | le | gt | lt => exact .relation rfl hbool hmin
  | div =>
    rw [htwo rfl rfl]
    exact .quotient hbool
  | idiv =>
    rw [htwo rfl rfl, hint (.inl rfl)]
    exact .whole (.inl rfl)
  | mod =>
    rw [htwo rfl rfl, hint (.inr rfl)]
    exact .whole (.inr rfl)

theorem takes_of_typeCheck {op : Op} {tys : List Ty} {t : Ty} (h : op.typeCheck tys = .ok t) :
    op.Takes tys t := by
  cases op with
  | ite =>
    obtain rfl := typeCheck_choice.mp h
    exact .choice t
  | not =>
    obtain ⟨harity, htys, rfl⟩ := (typeCheck_connective rfl).mp h
    have hone : tys.length = 1 := by
      simp only [checkArity_eq_ok, minArity, maxArity?, Option.any_some, decide_eq_false_iff_not]
        at harity
      omega
    rw [htys, hone]
    exact .negation
  | and =>
    obtain ⟨harity, htys, rfl⟩ := (typeCheck_connective rfl).mp h
    rw [htys]
    exact .junction (.inl rfl) (checkArity_eq_ok.mp harity).1
  | or =>
    obtain ⟨harity, htys, rfl⟩ := (typeCheck_connective rfl).mp h
    rw [htys]
    exact .junction (.inr rfl) (checkArity_eq_ok.mp harity).1
  | implies =>
    obtain ⟨harity, htys, rfl⟩ := (typeCheck_connective rfl).mp h
    rw [htys]
    exact .implication (checkArity_eq_ok.mp harity).1
  | eq =>
    obtain ⟨hn, ⟨u, hu⟩, rfl⟩ := typeCheck_eq.mp h
    rw [hu]
    exact .equality u hn
  | _ =>
    obtain ⟨harity, u, hu, harith, rfl⟩ := (typeCheck_arith (by decide) rfl (by decide)).mp h
    rw [hu]
    exact takes_of_arith (by decide) rfl (by decide) harity harith

theorem typeCheck_replicate {op : Op} (hop : op.isConnective = true) {n : Nat}
    (harity : op.checkArity n = .ok ()) : op.typeCheck (.replicate n .bool) = .ok .bool :=
  (typeCheck_connective hop).mpr ⟨by simpa using harity, by simp, rfl⟩

theorem typeCheck_replicate_arith {op : Op} (hite : op ≠ ite)
    (hconnective : op.isConnective = false) (heq : op ≠ eq) {n : Nat} {t : Ty}
    (harity : op.checkArity n = .ok ()) (harith : op.checkArith t = .ok ()) :
    op.typeCheck (.replicate n t) = .ok (op.arithResult t) :=
  (typeCheck_arith hite hconnective heq).mpr ⟨by simpa using harity, t, by simp, harith, rfl⟩

theorem typeCheck_of_takes {op : Op} {tys : List Ty} {t : Ty} (h : op.Takes tys t) :
    op.typeCheck tys = .ok t := by
  cases h with
  | choice => exact typeCheck_choice.mpr rfl
  | negation => rfl
  | junction hop hn =>
    rcases hop with rfl | rfl
    · exact typeCheck_replicate rfl (checkArity_eq_ok.mpr ⟨hn, rfl⟩)
    · exact typeCheck_replicate rfl (checkArity_eq_ok.mpr ⟨hn, rfl⟩)
  | implication hn => exact typeCheck_replicate rfl (checkArity_eq_ok.mpr ⟨hn, rfl⟩)
  | equality t hn => exact typeCheck_eq.mpr ⟨by simpa using hn, ⟨t, by simp⟩, rfl⟩
  | relation hop ht hn =>
    cases op with
    | ge | le | gt | lt =>
      exact typeCheck_replicate_arith (by decide) rfl (by decide) (checkArity_eq_ok.mpr ⟨hn, rfl⟩)
        (checkArith_eq_ok.mpr ⟨ht, by simp⟩)
    | _ => cases hop
  | sum hop ht hn =>
    rcases hop with rfl | rfl
    · exact typeCheck_replicate_arith (by decide) rfl (by decide)
        (checkArity_eq_ok.mpr ⟨hn, rfl⟩) (checkArith_eq_ok.mpr ⟨ht, by simp⟩)
    · exact typeCheck_replicate_arith (by decide) rfl (by decide)
        (checkArity_eq_ok.mpr ⟨hn, rfl⟩) (checkArith_eq_ok.mpr ⟨ht, by simp⟩)
  | product ht hn =>
    exact typeCheck_replicate_arith (by decide) rfl (by decide) (checkArity_eq_ok.mpr ⟨hn, rfl⟩)
      (checkArith_eq_ok.mpr ⟨ht, by simp⟩)
  | quotient ht =>
    have hcount : div.checkArity 2 = .ok () := rfl
    exact typeCheck_replicate_arith (by decide) rfl (by decide) hcount
      (checkArith_eq_ok.mpr ⟨ht, by simp⟩)
  | whole hop => rcases hop with rfl | rfl <;> rfl

theorem typeCheck_eq_ok {op : Op} {tys : List Ty} {t : Ty} :
    op.typeCheck tys = .ok t ↔ op.Takes tys t :=
  ⟨takes_of_typeCheck, typeCheck_of_takes⟩

theorem eq_of_singleton_eq {u t : Ty} {n : Nat} (h : [u] = .replicate n t) : u = t :=
  (List.eq_replicate_iff.mp h).2 u (by simp)

theorem takes_sub {u t : Ty} (h : sub.Takes [u] t) : t = u ∧ u ≠ .bool := by
  generalize htys : [u] = tys at h
  cases h with
  | sum _ ht =>
    obtain rfl := eq_of_singleton_eq htys
    exact ⟨rfl, ht⟩
  | junction hop | whole hop => simp at hop
  | relation hop => cases hop

theorem takes_one {op : Op} (hop : op.Collapses) {u t : Ty} (h : op.Takes [u] t) :
    t = u ∧ (op ≠ add → u = .bool) := by
  generalize htys : [u] = tys at h
  cases h with
  | sum hsum =>
    obtain rfl := eq_of_singleton_eq htys
    refine ⟨rfl, fun hne => ?_⟩
    rcases hop with rfl | rfl | rfl
    · exact absurd rfl hne
    · simp at hsum
    · simp at hsum
  | junction =>
    obtain rfl := eq_of_singleton_eq htys
    exact ⟨rfl, fun _ => rfl⟩
  | relation hrelation => rcases hop with rfl | rfl | rfl <;> cases hrelation
  | choice | negation | implication | equality | product | quotient => simp [Collapses] at hop
  | whole hwhole => simp at htys

theorem resultTy_of_takes {op : Op} {tys : List Ty} {t : Ty} (h : op.Takes tys t) :
    op.resultTy tys = t := by
  -- a list that repeats a type has it in front
  have hhead : ∀ {n : Nat} {u : Ty}, 1 ≤ n → (List.replicate n u).headD .bool = u := by
    intro n u hn
    obtain ⟨m, rfl⟩ : ∃ m, n = m + 1 := ⟨n - 1, by omega⟩
    rfl
  cases h with
  | choice | negation | implication | equality | quotient => rfl
  | junction hop => rcases hop with rfl | rfl <;> rfl
  | relation hop => cases op <;> first | rfl | cases hop
  | sum hop ht hn => rcases hop with rfl | rfl <;> exact hhead hn
  | product ht hn => exact hhead (by omega)
  | whole hop => rcases hop with rfl | rfl <;> rfl

theorem ty_arith {onInt : Int → Int → Int} {onRat : Rat → Rat → Rat} {a b : Scalar} {t : Ty}
    (ht : t ≠ .bool) (ha : a.ty = t) (hb : b.ty = t) : (Scalar.arith onInt onRat a b).ty = t := by
  subst ha
  cases a <;> cases b <;> first | rfl | simp [Scalar.ty] at ht hb

theorem ty_neg {a : Scalar} (h : a.ty ≠ .bool) : a.neg.ty = a.ty := by
  cases a with
  | bool b => exact absurd rfl h
  | int i => rfl
  | rat q => rfl

theorem ty_accumulate {step : Scalar → Scalar → Scalar} {vs : List Scalar} {t : Ty} {v : Scalar}
    (hstep : ∀ a b, a.ty = t → b.ty = t → (step a b).ty = t) (hvs : ∀ a ∈ vs, a.ty = t)
    (hv : accumulate step vs = .ok v) : v.ty = t := by
  cases vs with
  | nil => cases hv
  | cons first rest =>
    obtain rfl := Except.ok.inj hv
    have hfirst := hvs first (by simp)
    have hrest : ∀ a ∈ rest, a.ty = t := fun a ha => hvs a (List.mem_cons_of_mem first ha)
    clear hvs hv
    induction rest generalizing first with
    | nil => exact hfirst
    | cons a rest ih =>
      apply ih
      · exact hstep first a hfirst (hrest a (by simp))
      · exact fun b hb => hrest b (List.mem_cons_of_mem a hb)

theorem divide_eq_ok {e : EvalError} {quotient : Scalar → Scalar → Scalar} {vs : List Scalar}
    {v : Scalar} (h : divide e quotient vs = .ok v) :
    ∃ a b, vs = [a, b] ∧ b.toRat ≠ 0 ∧ v = quotient a b := by
  unfold divide at h
  split at h
  · next a b =>
    split at h
    · cases h
    · next hb => exact ⟨a, b, rfl, hb, (Except.ok.inj h).symm⟩
  · cases h

theorem ty_of_mem {vs : List Scalar} {n : Nat} {t : Ty} (h : vs.map Scalar.ty = .replicate n t) :
    ∀ v ∈ vs, v.ty = t := by
  intro v hv
  have hmem : v.ty ∈ vs.map Scalar.ty := List.mem_map.mpr ⟨v, hv, rfl⟩
  rw [h] at hmem
  exact List.eq_of_mem_replicate hmem

theorem ty_of_apply {op : Op} {vs : List Scalar} {t : Ty} {v : Scalar}
    (h : op.Takes (vs.map Scalar.ty) t) (hv : op.apply vs = .ok v) : v.ty = t := by
  generalize htys : vs.map Scalar.ty = tys at h
  cases h with
  | choice =>
    simp only [List.map_eq_cons_iff, List.map_eq_nil_iff] at htys
    obtain ⟨condition, _, rfl, -, onTrue, _, rfl, htrue, onFalse, _, rfl, hfalse, rfl⟩ := htys
    simp only [apply, choose] at hv
    split at hv
    · rwa [← Except.ok.inj hv]
    · rwa [← Except.ok.inj hv]
  | negation =>
    simp only [List.map_eq_cons_iff, List.map_eq_nil_iff] at htys
    obtain ⟨a, _, rfl, -, rfl⟩ := htys
    rw [← Except.ok.inj hv]
    rfl
  | junction hop =>
    rcases hop with rfl | rfl
    · rw [← Except.ok.inj hv]
      rfl
    · rw [← Except.ok.inj hv]
      rfl
  | implication =>
    obtain ⟨b, -, rfl⟩ := except_map_eq_ok.mp hv
    rfl
  | equality =>
    rw [← Except.ok.inj hv]
    rfl
  | relation hop =>
    cases op with
    | ge | le | gt | lt =>
      rw [← Except.ok.inj hv]
      rfl
    | _ => cases hop
  | sum hop ht hn =>
    have hvs := ty_of_mem htys
    rcases hop with rfl | rfl
    · exact ty_accumulate (fun a b ha hb => ty_arith ht ha hb) hvs hv
    · simp only [apply] at hv
      split at hv
      · next a =>
        have ha := hvs a (by simp)
        rwa [← Except.ok.inj hv, ty_neg (ha ▸ ht)]
      · exact ty_accumulate (fun a b ha hb => ty_arith ht ha hb) hvs hv
  | product ht =>
    exact ty_accumulate (fun a b ha hb => ty_arith ht ha hb) (ty_of_mem htys) hv
  | quotient ht =>
    obtain ⟨a, b, -, -, rfl⟩ := divide_eq_ok hv
    rfl
  | whole hop =>
    rcases hop with rfl | rfl
    · obtain ⟨a, b, rfl, -, rfl⟩ := divide_eq_ok hv
      cases a <;> cases b <;> rfl
    · obtain ⟨a, b, rfl, -, rfl⟩ := divide_eq_ok hv
      simp only [List.map_cons, List.map_nil, List.cons.injEq, and_true] at htys
      exact ty_arith (by decide) htys.1 htys.2

end Op

namespace Term

@[simp] theorem ty_const (value : Scalar) : (const value).ty = value.ty := by simp [ty]

@[simp] theorem ty_ref (r : Ref) : (ref r).ty = r.ty := by simp [ty]

theorem ty_app (op : Op) (args : List Term) : (app op args).ty = op.resultTy (args.map ty) := by
  simp [ty]

theorem isTyped_app {op : Op} {args : List Term} :
    (app op args).isTyped = true ↔
      (∀ t ∈ args, t.isTyped = true) ∧ op.Takes (args.map ty) (app op args).ty := by
  have hok : (op.typeCheck (args.map ty)).isOk = true ↔ op.Takes (args.map ty) (app op args).ty := by
    rw [← Op.typeCheck_eq_ok]
    constructor
    · intro h
      cases hcheck : op.typeCheck (args.map ty) with
      | error e => rw [hcheck] at h; cases h
      | ok t => rw [ty_app, Op.resultTy_of_takes (Op.typeCheck_eq_ok.mp hcheck)]
    · intro h
      rw [h]
      rfl
  rw [isTyped, fold_app, Bool.and_eq_true, hok]
  simp

theorem evaluate_app (env : Valuation) (op : Op) (args : List Term) :
    (app op args).evaluate env = (collect (args.map (evaluate env)) >>= op.apply) := by
  rw [evaluate, fold_app]

theorem refs_of_mem {op : Op} {args : List Term} {t : Term} (ht : t ∈ args) :
    ∀ r ∈ t.refs, r ∈ (app op args).refs := by
  intro r hr
  rw [refs_app]
  exact List.mem_flatMap.mpr ⟨t, ht, hr⟩

theorem ty_of_evaluate {env : Valuation} {t : Term} {v : Scalar} (ht : t.isTyped = true)
    (henv : ∀ r ∈ t.refs, ∀ v, env.exact r = .ok v → v.ty = r.ty) (hv : t.evaluate env = .ok v) :
    v.ty = t.ty := by
  induction t using Term.induct generalizing v with
  | const value =>
    simp only [evaluate, fold_const] at hv
    rw [← Except.ok.inj hv, ty_const]
  | ref r =>
    simp only [evaluate, fold_ref] at hv
    rw [henv r (by simp [refs]) v hv, ty_ref]
  | app op args ih =>
    obtain ⟨hargs, htakes⟩ := isTyped_app.mp ht
    rw [evaluate_app] at hv
    obtain ⟨vs, hvs, hv⟩ := except_bind_eq_ok.mp hv
    have htys : vs.map Scalar.ty = args.map ty := by
      apply map_of_collect hvs
      intro t ht w hw
      exact ih t ht (hargs t ht) (fun r hr => henv r (refs_of_mem ht r hr)) hw
    rw [← htys] at htakes
    exact Op.ty_of_apply htakes hv

end Term

end InvariantProver
