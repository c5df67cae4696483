import InvariantProver.Proofs.Smt.Theory

namespace InvariantProver.Smt

namespace Theory

variable {α : Type} {T : Theory α} {f : String}

theorem ne_ite {e : Extension} (h : extension? f = some e) : f ≠ "ite" := by
  rintro rfl
  cases h

theorem apply_left (h : extension? f = some .left) (a b : α) (rest : List α) :
    T.apply f (a :: b :: rest) = (b :: rest).foldlM (T.binary f) a := by
  cases rest with
  | nil => simp [apply]
  | cons c rest => simp only [apply, if_neg (ne_ite h), h]

theorem apply_right (h : extension? f = some .right) (a b : α) (rest : List α) :
    T.apply f (a :: b :: rest) = T.right f (a :: b :: rest) := by
  cases rest with
  | nil => simp [apply, right]
  | cons c rest => simp only [apply, if_neg (ne_ite h), h]

theorem apply_chain (h : extension? f = some .chain) (a b : α) (rest : List α) :
    T.apply f (a :: b :: rest) = T.chain f (a :: b :: rest) := by
  cases rest with
  | nil => rfl
  | cons c rest => simp only [apply, if_neg (ne_ite h), h]

end Theory

theorem extension?_relation {op : Op} (hop : op.isRelation = true) :
    extension? op.symbol = some .chain := by
  cases op with
  | ge | le | gt | lt => rfl
  | _ => cases hop

/-! ### Sorts -/

section

variable {f : String} {t : Ty}

theorem sorts_left (hf : extension? f = some .left) (h : sorts.binary f t t = some t) (n : Nat) :
    sorts.apply f (.replicate (n + 2) t) = some t := by
  rw [List.replicate_succ, List.replicate_succ, Theory.apply_left hf, ← List.replicate_succ]
  generalize n + 1 = m
  induction m with
  | zero => rfl
  | succ m ih =>
    rw [List.replicate_succ, List.foldlM_cons, h]
    exact ih

theorem sorts_right (hf : extension? f = some .right) (h : sorts.binary f t t = some t) (n : Nat) :
    sorts.apply f (.replicate (n + 2) t) = some t := by
  rw [List.replicate_succ, List.replicate_succ, Theory.apply_right hf]
  induction n with
  | zero => exact h
  | succ n ih =>
    rw [List.replicate_succ, Theory.right, ih]
    exact h

theorem sorts_chain (hf : extension? f = some .chain) (h : sorts.binary f t t = some .bool) (n : Nat) :
    sorts.apply f (.replicate (n + 2) t) = some .bool := by
  rw [List.replicate_succ, List.replicate_succ, Theory.apply_chain hf]
  induction n with
  | zero => exact h
  | succ n ih =>
    rw [List.replicate_succ, Theory.chain, h, ih]
    rfl

theorem sorts_relation {op : Op} (hop : op.isRelation = true) (ht : t ≠ .bool) :
    sorts.binary op.symbol t t = some .bool := by
  cases op with
  | ge | le | gt | lt => cases t <;> first | rfl | exact absurd rfl ht
  | _ => cases hop

theorem sorts_arith {op : Op} (hop : op = .add ∨ op = .sub ∨ op = .mul) (ht : t ≠ .bool) :
    sorts.binary op.symbol t t = some t := by
  rcases hop with rfl | rfl | rfl <;> cases t <;> first | rfl | exact absurd rfl ht

end

theorem sorts_apply {op : Op} {tys : List Ty} {t : Ty} (h : op.Takes tys t)
    (hone : op.Collapses → tys.length ≠ 1) (hdiv : op = .div → .int ∉ tys) :
    sorts.apply op.symbol tys = some t := by
  cases h with
  | choice t => simp [Theory.apply, Op.symbol, sorts]
  | negation => rfl
  | @junction _ n hop hn =>
    have hne : n ≠ 1 := by simpa using hone (.inr hop)
    obtain ⟨m, rfl⟩ := Nat.exists_eq_add_of_le' (show 2 ≤ n by omega)
    rcases hop with rfl | rfl
    · exact sorts_left rfl rfl m
    · exact sorts_left rfl rfl m
  | implication hn =>
    obtain ⟨m, rfl⟩ := Nat.exists_eq_add_of_le' hn
    exact sorts_right rfl rfl m
  | equality t hn =>
    obtain ⟨m, rfl⟩ := Nat.exists_eq_add_of_le' hn
    exact sorts_chain rfl (by cases t <;> rfl) m
  | relation hop ht hn =>
    obtain ⟨m, rfl⟩ := Nat.exists_eq_add_of_le' hn
    exact sorts_chain (extension?_relation hop) (sorts_relation hop ht) m
  | @sum op t n hop ht hn =>
    rcases hop with rfl | rfl
    · have hne : n ≠ 1 := by simpa using hone (.inl rfl)
      obtain ⟨m, rfl⟩ := Nat.exists_eq_add_of_le' (show 2 ≤ n by omega)
      exact sorts_left rfl (sorts_arith (.inl rfl) ht) m
    · rcases Nat.lt_or_ge n 2 with hlt | hge
      · obtain rfl : n = 1 := by omega
        cases t with
        | bool => exact absurd rfl ht
        | int => rfl
        | rat => rfl
      · obtain ⟨m, rfl⟩ := Nat.exists_eq_add_of_le' hge
        exact sorts_left rfl (sorts_arith (.inr (.inl rfl)) ht) m
  | product ht hn =>
    obtain ⟨m, rfl⟩ := Nat.exists_eq_add_of_le' hn
    exact sorts_left rfl (sorts_arith (.inr (.inr rfl)) ht) m
  | @quotient t ht =>
    cases t with
    | bool => exact absurd rfl ht
    | int => exact absurd (by simp) (hdiv rfl)
    | rat => rfl
  | whole hop => rcases hop with rfl | rfl <;> rfl

/-! ### Values -/

section

variable {z : ZeroReading} {f : String}

theorem values_left {g : Scalar → Scalar → Scalar} {t : Ty} (hf : extension? f = some .left)
    (h : ∀ a b, a.ty = t → b.ty = t → (values z).binary f a b = some (g a b) ∧ (g a b).ty = t)
    {a b : Scalar} {rest : List Scalar} (hvs : ∀ v ∈ a :: b :: rest, v.ty = t) :
    (values z).apply f (a :: b :: rest) = some ((b :: rest).foldl g a) := by
  rw [Theory.apply_left hf]
  generalize b :: rest = vs at hvs
  induction vs generalizing a with
  | nil => rfl
  | cons b vs ih =>
    obtain ⟨hvalue, hty⟩ := h a b (hvs a (by simp)) (hvs b (by simp))
    rw [List.foldlM_cons, hvalue, List.foldl_cons]
    apply ih
    intro v hv
    rcases List.mem_cons.mp hv with rfl | hv
    · exact hty
    · exact hvs v (by simp [hv])

theorem values_chain {rel : Scalar → Scalar → Bool} {t : Ty} (hf : extension? f = some .chain)
    (h : ∀ a b, a.ty = t → b.ty = t → (values z).binary f a b = some (.bool (rel a b)))
    {a b : Scalar} {rest : List Scalar} (hvs : ∀ v ∈ a :: b :: rest, v.ty = t) :
    (values z).apply f (a :: b :: rest) = some (.bool (Op.chain rel (a :: b :: rest))) := by
  rw [Theory.apply_chain hf]
  induction rest generalizing a b with
  | nil => simp [Theory.chain, Op.chain, h a b (hvs a (by simp)) (hvs b (by simp))]
  | cons c rest ih =>
    have hrest := ih fun v hv => hvs v (List.mem_cons_of_mem a hv)
    rw [Theory.chain, h a b (hvs a (by simp)) (hvs b (by simp)), hrest]
    rfl

theorem eq_bool_of_ty {a : Scalar} (h : a.ty = .bool) : ∃ p, a = .bool p := by
  cases a with
  | bool p => exact ⟨p, rfl⟩
  | int | rat => cases h

theorem values_right {vs : List Scalar} {b : Bool} (hvs : ∀ v ∈ vs, v.ty = .bool)
    (h : Op.implication vs = .ok b) : (values z).right "=>" vs = some (.bool b) := by
  induction vs generalizing b with
  | nil => cases h
  | cons a vs ih =>
    obtain ⟨p, rfl⟩ := eq_bool_of_ty (hvs a (by simp))
    cases vs with
    | nil =>
      rw [← Except.ok.inj h]
      rfl
    | cons c rest =>
      obtain ⟨q, hq, hb⟩ := except_bind_eq_ok.mp h
      rw [Theory.right, ih (fun v hv => hvs v (List.mem_cons_of_mem _ hv)) hq, ← Except.ok.inj hb]
      rfl

theorem answer_congr {p q : Prop} [Decidable p] [Decidable q] (h : p ↔ q) :
    some (Scalar.bool (decide p)) = some (Scalar.bool (decide q)) := by
  rw [decide_eq_decide.mpr h]

theorem binary_eq {a b : Scalar} {t : Ty} (ha : a.ty = t) (hb : b.ty = t) :
    (values z).binary "=" a b = some (.bool (a.same b)) := by
  subst ha
  cases a with
  | bool p =>
    cases b with
    | bool q => cases p <;> cases q <;> rfl
    | int | rat => cases hb
  | int i =>
    cases b with
    | int j => simp [values, ints, Scalar.same, Scalar.toRat]
    | bool | rat => cases hb
  | rat p =>
    cases b with
    | rat q => exact answer_congr Iff.rfl
    | bool | int => cases hb

theorem binary_relation {op : Op} (hop : op.isRelation = true) {a b : Scalar} {t : Ty}
    (ht : t ≠ .bool) (ha : a.ty = t) (hb : b.ty = t) :
    (values z).binary op.symbol a b = some (.bool (Scalar.compare op a b)) := by
  subst ha
  cases a with
  | bool p => exact absurd rfl ht
  | int i =>
    cases b with
    | int j =>
      cases op with
      | ge | le => exact answer_congr Rat.intCast_le_intCast.symm
      | gt | lt => exact answer_congr Rat.intCast_lt_intCast.symm
      | _ => cases hop
    | bool | rat => cases hb
  | rat p =>
    cases b with
    | rat q =>
      cases op with
      | ge | le | gt | lt =>
        exact answer_congr Iff.rfl
      | _ => cases hop
    | bool | int => cases hb

theorem chain_same (a : Scalar) (rest : List Scalar) :
    Op.chain Scalar.same (a :: rest) = rest.all a.same := by
  induction rest generalizing a with
  | nil => rfl
  | cons b rest ih =>
    rw [Op.chain, ih, List.all_cons]
    by_cases hab : a.toRat = b.toRat
    · have hsame : a.same = b.same := by
        funext c
        simp [Scalar.same, hab]
      rw [hsame]
    · simp [Scalar.same, hab]

theorem foldl_and (a : Bool) (vs : List Scalar) :
    vs.foldl (fun p q => Scalar.bool (p.truth && q.truth)) (.bool a) =
      Scalar.bool (a && vs.all Scalar.truth) := by
  induction vs generalizing a with
  | nil => simp
  | cons b vs ih =>
    change vs.foldl _ (Scalar.bool (a && b.truth)) = _
    rw [ih, List.all_cons, Bool.and_assoc]

theorem foldl_or (a : Bool) (vs : List Scalar) :
    vs.foldl (fun p q => Scalar.bool (p.truth || q.truth)) (.bool a) =
      Scalar.bool (a || vs.any Scalar.truth) := by
  induction vs generalizing a with
  | nil => simp
  | cons b vs ih =>
    change vs.foldl _ (Scalar.bool (a || b.truth)) = _
    rw [ih, List.any_cons, Bool.or_assoc]

theorem two_of_map_ty {vs : List Scalar} {n : Nat} {t : Ty}
    (h : vs.map Scalar.ty = .replicate n t) (hn : 2 ≤ n) : ∃ a b rest, vs = a :: b :: rest := by
  have hlength : vs.length = n := by simpa using congrArg List.length h
  match vs with
  | [] | [_] =>
    simp at hlength
    omega
  | a :: b :: rest => exact ⟨a, b, rest, rfl⟩

theorem binary_arith {op : Op} {g : Scalar → Scalar → Scalar}
    (hop : op = .add ∧ g = .add ∨ op = .sub ∧ g = .sub ∨ op = .mul ∧ g = .mul) {a b : Scalar} {t : Ty}
    (ht : t ≠ .bool) (ha : a.ty = t) (hb : b.ty = t) :
    (values z).binary op.symbol a b = some (g a b) ∧ (g a b).ty = t := by
  have hvalue : (values z).binary op.symbol a b = some (g a b) := by
    subst ha
    cases a <;> cases b <;> first | exact absurd rfl ht | cases hb; done | skip
    all_goals rcases hop with ⟨rfl, rfl⟩ | ⟨rfl, rfl⟩ | ⟨rfl, rfl⟩ <;> rfl
  refine ⟨hvalue, ?_⟩
  rcases hop with ⟨-, rfl⟩ | ⟨-, rfl⟩ | ⟨-, rfl⟩
  all_goals exact Op.ty_arith ht ha hb

theorem binary_bools {g : Bool → Bool → Bool} (hg : ∀ p q, bools f p q = some (g p q)) {a b : Scalar}
    (ha : a.ty = .bool) (hb : b.ty = .bool) :
    (values z).binary f a b = some (.bool (g a.truth b.truth)) ∧
      (Scalar.bool (g a.truth b.truth)).ty = .bool := by
  obtain ⟨p, rfl⟩ := eq_bool_of_ty ha
  obtain ⟨q, rfl⟩ := eq_bool_of_ty hb
  exact ⟨congrArg (Option.map Scalar.bool) (hg p q), rfl⟩

theorem binary_div (p : Rat) {q : Rat} (hq : q ≠ 0) :
    (values z).binary "/" (.rat p) (.rat q) = some (.rat (p / q)) := by
  change some (Scalar.rat (if q = 0 then z.div p else p / q)) = _
  rw [if_neg hq]

theorem binary_idiv (i : Int) {j : Int} (hj : j ≠ 0) :
    (values z).binary "div" (.int i) (.int j) = some (.int (i / j)) := by
  change some (Scalar.int (if j = 0 then z.idiv i else i / j)) = _
  rw [if_neg hj]

theorem binary_mod (i : Int) {j : Int} (hj : j ≠ 0) :
    (values z).binary "mod" (.int i) (.int j) = some (.int (i % j)) := by
  change some (Scalar.int (if j = 0 then z.mod i else i % j)) = _
  rw [if_neg hj]

theorem values_neg {a : Scalar} (h : a.ty ≠ .bool) : (values z).apply "-" [a] = some a.neg := by
  cases a with
  | bool p => exact absurd rfl h
  | int i => rfl
  | rat q => rfl

theorem values_ite (b : Bool) {onTrue onFalse : Scalar} (h : onTrue.ty = onFalse.ty) :
    (values z).apply "ite" [.bool b, onTrue, onFalse] = some (if b then onTrue else onFalse) := by
  simp only [Theory.apply, values, if_pos h]
  rfl

theorem values_and {a b : Scalar} {rest : List Scalar} (hvs : ∀ v ∈ a :: b :: rest, v.ty = .bool) :
    (values z).apply "and" (a :: b :: rest) = some (.bool ((a :: b :: rest).all Scalar.truth)) := by
  obtain ⟨p, rfl⟩ := eq_bool_of_ty (hvs a (by simp))
  refine (values_left rfl (fun _ _ => binary_bools (g := and) fun _ _ => rfl) hvs).trans ?_
  rw [foldl_and]
  rfl

theorem values_or {a b : Scalar} {rest : List Scalar} (hvs : ∀ v ∈ a :: b :: rest, v.ty = .bool) :
    (values z).apply "or" (a :: b :: rest) = some (.bool ((a :: b :: rest).any Scalar.truth)) := by
  obtain ⟨p, rfl⟩ := eq_bool_of_ty (hvs a (by simp))
  refine (values_left rfl (fun _ _ => binary_bools (g := or) fun _ _ => rfl) hvs).trans ?_
  rw [foldl_or]
  rfl

theorem values_arith {op : Op} {g : Scalar → Scalar → Scalar}
    (hop : op = .add ∧ g = .add ∨ op = .sub ∧ g = .sub ∨ op = .mul ∧ g = .mul) {t : Ty} (ht : t ≠ .bool)
    {a b : Scalar} {rest : List Scalar} (hvs : ∀ v ∈ a :: b :: rest, v.ty = t) :
    (values z).apply op.symbol (a :: b :: rest) = some ((b :: rest).foldl g a) := by
  have hextension : extension? op.symbol = some .left := by
    rcases hop with ⟨rfl, -⟩ | ⟨rfl, -⟩ | ⟨rfl, -⟩ <;> rfl
  exact values_left hextension (fun _ _ => binary_arith hop ht) hvs

/-! ### Values of what an operator takes -/

theorem choice_of_map_ty {vs : List Scalar} {t : Ty} (h : vs.map Scalar.ty = [.bool, t, t]) :
    ∃ b onTrue onFalse, vs = [.bool b, onTrue, onFalse] ∧ onTrue.ty = onFalse.ty := by
  simp only [List.map_eq_cons_iff, List.map_eq_nil_iff] at h
  obtain ⟨condition, _, rfl, hcondition, onTrue, _, rfl, htrue, onFalse, _, rfl, hfalse, rfl⟩ := h
  obtain ⟨b, rfl⟩ := eq_bool_of_ty hcondition
  exact ⟨b, onTrue, onFalse, rfl, htrue.trans hfalse.symm⟩

theorem bool_of_map_ty {vs : List Scalar} (h : vs.map Scalar.ty = [.bool]) : ∃ p, vs = [.bool p] := by
  simp only [List.map_eq_cons_iff, List.map_eq_nil_iff] at h
  obtain ⟨a, _, rfl, ha, rfl⟩ := h
  obtain ⟨p, rfl⟩ := eq_bool_of_ty ha
  exact ⟨p, rfl⟩

theorem ints_of_map_ty {a b : Scalar} (h : [a, b].map Scalar.ty = [.int, .int]) :
    ∃ i j, a = .int i ∧ b = .int j := by
  cases a <;> cases b <;> first | exact ⟨_, _, rfl, rfl⟩ | simp [Scalar.ty] at h

section

variable {op : Op} {vs : List Scalar} {t : Ty} {n : Nat} {v : Scalar}

theorem values_choice (htys : vs.map Scalar.ty = [.bool, t, t]) (hv : Op.ite.apply vs = .ok v) :
    (values z).apply "ite" vs = some v := by
  obtain ⟨b, onTrue, onFalse, rfl, hty⟩ := choice_of_map_ty htys
  refine (values_ite b hty).trans ?_
  cases b with
  | true => exact congrArg some (Except.ok.inj hv)
  | false => exact congrArg some (Except.ok.inj hv)

theorem values_negation (htys : vs.map Scalar.ty = [.bool]) (hv : Op.not.apply vs = .ok v) :
    (values z).apply "not" vs = some v := by
  obtain ⟨p, rfl⟩ := bool_of_map_ty htys
  exact congrArg some (Except.ok.inj hv)

theorem values_junction (hop : op = .and ∨ op = .or) (htys : vs.map Scalar.ty = .replicate n .bool)
    (hn : 2 ≤ n) (hv : op.apply vs = .ok v) : (values z).apply op.symbol vs = some v := by
  obtain ⟨a, b, rest, rfl⟩ := two_of_map_ty htys hn
  rcases hop with rfl | rfl
  · rw [← Except.ok.inj hv]
    exact values_and (Op.ty_of_mem htys)
  · rw [← Except.ok.inj hv]
    exact values_or (Op.ty_of_mem htys)

theorem values_implication (htys : vs.map Scalar.ty = .replicate n .bool) (hn : 2 ≤ n)
    (hv : Op.implies.apply vs = .ok v) : (values z).apply "=>" vs = some v := by
  obtain ⟨a, b, rest, rfl⟩ := two_of_map_ty htys hn
  obtain ⟨p, hp, rfl⟩ := except_map_eq_ok.mp hv
  exact (Theory.apply_right rfl a b rest).trans (values_right (Op.ty_of_mem htys) hp)

theorem values_equality (htys : vs.map Scalar.ty = .replicate n t) (hn : 2 ≤ n)
    (hv : Op.eq.apply vs = .ok v) : (values z).apply "=" vs = some v := by
  obtain ⟨a, b, rest, rfl⟩ := two_of_map_ty htys hn
  rw [← Except.ok.inj hv]
  refine (values_chain rfl (fun _ _ => binary_eq) (Op.ty_of_mem htys)).trans ?_
  rw [chain_same]
  rfl

theorem values_order (hop : op.isRelation = true) (ht : t ≠ .bool)
    (htys : vs.map Scalar.ty = .replicate n t) (hn : 2 ≤ n) (hv : op.apply vs = .ok v) :
    (values z).apply op.symbol vs = some v := by
  obtain ⟨a, b, rest, rfl⟩ := two_of_map_ty htys hn
  have hvalue : op.apply (a :: b :: rest) =
      .ok (.bool (Op.chain (Scalar.compare op) (a :: b :: rest))) := by
    cases op <;> first | cases hop; done | rfl
  rw [← Except.ok.inj (hvalue.symm.trans hv)]
  exact values_chain (extension?_relation hop) (fun _ _ => binary_relation hop ht) (Op.ty_of_mem htys)

/-- A difference of one operand is its opposite, a sum of one operand is none here. -/
theorem values_sum (hop : op = .add ∨ op = .sub) (ht : t ≠ .bool) (htys : vs.map Scalar.ty = .replicate n t)
    (hn : 1 ≤ n) (hone : op = .add → n ≠ 1) (hv : op.apply vs = .ok v) :
    (values z).apply op.symbol vs = some v := by
  have hvs := Op.ty_of_mem htys
  rcases Nat.lt_or_ge n 2 with hlt | hge
  · obtain rfl : n = 1 := by omega
    obtain ⟨a, rfl⟩ : ∃ a, vs = [a] := List.length_eq_one_iff.mp (by simpa using congrArg List.length htys)
    rcases hop with rfl | rfl
    · exact absurd rfl (hone rfl)
    · rw [← Except.ok.inj hv]
      apply values_neg
      rwa [hvs a (List.mem_singleton_self a)]
  · obtain ⟨a, b, rest, rfl⟩ := two_of_map_ty htys hge
    rcases hop with rfl | rfl
    · rw [← Except.ok.inj hv]
      exact values_arith (.inl ⟨rfl, rfl⟩) ht hvs
    · rw [← Except.ok.inj hv]
      exact values_arith (.inr (.inl ⟨rfl, rfl⟩)) ht hvs

theorem values_product (ht : t ≠ .bool) (htys : vs.map Scalar.ty = .replicate n t) (hn : 2 ≤ n)
    (hv : Op.mul.apply vs = .ok v) : (values z).apply "*" vs = some v := by
  obtain ⟨a, b, rest, rfl⟩ := two_of_map_ty htys hn
  rw [← Except.ok.inj hv]
  exact values_arith (.inr (.inr ⟨rfl, rfl⟩)) ht (Op.ty_of_mem htys)

theorem values_ratio (htys : vs.map Scalar.ty = [.rat, .rat]) (hv : Op.div.apply vs = .ok v) :
    (values z).apply "/" vs = some v := by
  obtain ⟨a, b, rfl, hb, rfl⟩ := Op.divide_eq_ok hv
  simp only [List.map_cons, List.map_nil, List.cons.injEq, and_true] at htys
  obtain ⟨ha, hb'⟩ := htys
  cases a with
  | rat p =>
    cases b with
    | rat q => exact binary_div p hb
    | bool | int => cases hb'
  | bool | int => cases ha

theorem values_whole (hop : op = .idiv ∨ op = .mod) (htys : vs.map Scalar.ty = [.int, .int])
    (hv : op.apply vs = .ok v) : (values z).apply op.symbol vs = some v := by
  rcases hop with rfl | rfl
  · obtain ⟨a, b, rfl, hb, rfl⟩ := Op.divide_eq_ok hv
    obtain ⟨i, j, rfl, rfl⟩ := ints_of_map_ty htys
    exact binary_idiv i (by simpa [Scalar.toRat] using hb)
  · obtain ⟨a, b, rfl, hb, rfl⟩ := Op.divide_eq_ok hv
    obtain ⟨i, j, rfl, rfl⟩ := ints_of_map_ty htys
    exact binary_mod i (by simpa [Scalar.toRat] using hb)

theorem values_apply (h : op.Takes (vs.map Scalar.ty) t) (hone : op.Collapses → vs.length ≠ 1)
    (hdiv : op = .div → .int ∉ vs.map Scalar.ty) (hv : op.apply vs = .ok v) :
    (values z).apply op.symbol vs = some v := by
  generalize htys : vs.map Scalar.ty = tys at h
  have hlength : vs.length = tys.length := by rw [← htys, List.length_map]
  cases h with
  | choice t => exact values_choice htys hv
  | negation => exact values_negation htys hv
  | @junction _ n hop hn =>
    have hne : vs.length ≠ 1 := hone (.inr hop)
    rw [hlength, List.length_replicate] at hne
    exact values_junction hop htys (by omega) hv
  | implication hn => exact values_implication htys hn hv
  | equality t hn => exact values_equality htys hn hv
  | relation hop ht hn => exact values_order hop ht htys hn hv
  | sum hop ht hn =>
    rw [List.length_replicate] at hlength
    exact values_sum hop ht htys hn (fun hadd => hlength ▸ hone (.inl hadd)) hv
  | product ht hn => exact values_product ht htys hn hv
  | @quotient t ht =>
    cases t with
    | bool => exact absurd rfl ht
    | int => exact absurd (by simp [htys]) (hdiv rfl)
    | rat => exact values_ratio htys hv
  | whole hop => exact values_whole hop htys hv

end

end

end InvariantProver.Smt
