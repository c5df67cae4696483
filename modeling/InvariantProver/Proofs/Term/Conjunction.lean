import InvariantProver.Proofs.Term.Building

namespace InvariantProver

theorem Scalar.opposite_eq_neg {value : Scalar} (h : value.ty ≠ .bool) : value.opposite = value.neg := by
  cases value with
  | bool b => exact absurd rfl h
  | int i => rfl
  | rat q => rfl

namespace Op

inductive Joins : Op → Bool → (Bool → Bool → Bool) → Prop
  | and : Joins and true (· && ·)
  | or : Joins or false (· || ·)

section

variable {op : Op} {neutral : Bool} {join : Bool → Bool → Bool}

theorem Joins.neutral_left (h : op.Joins neutral join) (b : Bool) : join neutral b = b := by
  cases h <;> rfl

theorem Joins.apply_cons (h : op.Joins neutral join) (v : Scalar) (vs : List Scalar) :
    op.apply (v :: vs) = (op.apply vs).map fun w => .bool (join v.truth w.truth) := by
  cases h <;> rfl

theorem Joins.truth_apply (h : op.Joins neutral join) (vs : List Scalar) :
    (op.apply vs).map (fun w => .bool w.truth) = op.apply vs := by
  cases h <;> rfl

end

end Op

namespace Term

variable {ts : List Term}

theorem allOf_cases (ts : List Term) :
    (ts.filter (· ≠ ofBool true) = [] ∧ allOf ts = ofBool true) ∨
      (ts.filter (· ≠ ofBool true) ≠ [] ∧
        allOf ts = simplified .and (ts.filter (· ≠ ofBool true))) := by
  unfold allOf joined
  split
  · next hnil => exact .inl ⟨hnil, rfl⟩
  · next hne => exact .inr ⟨hne, rfl⟩

theorem refs_simplified_and (ts : List Term) : (simplified .and ts).refs = ts.flatMap refs := by
  rcases simplified_cases .and ts with ⟨h, -⟩ | ⟨_, hop, -⟩ | ⟨t, -, rfl, h⟩
  · rw [h, refs_app]
  · cases hop
  · rw [h]
    simp

theorem refs_allOf (ts : List Term) : (allOf ts).refs = ts.flatMap refs := by
  have hfilter : (ts.filter (· ≠ ofBool true)).flatMap refs = ts.flatMap refs := by
    induction ts with
    | nil => rfl
    | cons t ts ih =>
      by_cases ht : t = ofBool true
      · rw [List.filter_cons_of_neg (by simpa using ht), ih, List.flatMap_cons, ht]
        simp [ofBool, refs]
      · rw [List.filter_cons_of_pos (by simpa using ht), List.flatMap_cons, List.flatMap_cons, ih]
  rcases allOf_cases ts with ⟨hnil, h⟩ | ⟨-, h⟩
  · rw [h, ← hfilter, hnil]
    simp [ofBool, refs]
  · rw [h, refs_simplified_and, hfilter]

theorem takes_joined {op : Op} {neutral : Bool} {join : Bool → Bool → Bool}
    (hop : op.Joins neutral join) (hne : ts ≠ []) (h : ∀ t ∈ ts, t.ty = .bool) :
    op.Takes (ts.map ty) .bool := by
  have htys : ts.map ty = .replicate ts.length .bool :=
    List.eq_replicate_iff.mpr ⟨by simp, by simpa using h⟩
  have hjunction : op = .and ∨ op = .or := by
    cases hop with
    | and => exact .inl rfl
    | or => exact .inr rfl
  rw [htys]
  exact .junction hjunction (List.length_pos_iff.mpr hne)

theorem typed_allOf (h : ∀ t ∈ ts, t.ty = .bool ∧ t.isTyped = true) :
    (allOf ts).ty = .bool ∧ (allOf ts).isTyped = true := by
  rcases allOf_cases ts with ⟨-, hall⟩ | ⟨hne, hall⟩
  · rw [hall]
    exact ⟨ty_const _, by simp [ofBool, isTyped]⟩
  · have hkept : ∀ t ∈ ts.filter (· ≠ ofBool true), t.ty = .bool ∧ t.isTyped = true :=
      fun t ht => h t (List.mem_filter.mp ht).1
    rw [hall]
    rcases simplified_cases .and (ts.filter (· ≠ ofBool true)) with
      ⟨hs, -⟩ | ⟨_, hop, -⟩ | ⟨t, -, hone, hs⟩
    · rw [hs]
      refine ⟨ty_connective rfl _, isTyped_app.mpr ⟨fun t ht => (hkept t ht).2, ?_⟩⟩
      rw [ty_connective rfl]
      exact takes_joined .and hne fun t ht => (hkept t ht).1
    · cases hop
    · rw [hs]
      exact hkept t (hone ▸ List.mem_singleton_self t)

section

variable {env : Valuation}

theorem evaluate_app_singleton {op : Op} (hop : op.Collapses) {t : Term}
    (h : ∀ v, t.evaluate env = .ok v → op ≠ .add → v.ty = .bool) :
    (app op [t]).evaluate env = t.evaluate env := by
  rw [evaluate_app]
  cases hv : t.evaluate env with
  | error e =>
    simp only [List.map_cons, collect, hv]
    rfl
  | ok v =>
    have hvalue : op.apply [v] = .ok v := by
      rcases hop with rfl | hop
      · rfl
      · have hbool := h v hv (by rcases hop with rfl | rfl <;> decide)
        cases v with
        | bool b => rcases hop with rfl | rfl <;> cases b <;> rfl
        | int | rat => cases hbool
    simp only [List.map_cons, List.map_nil, collect, hv]
    exact hvalue

theorem evaluate_and (ts : List Term) :
    (app .and ts).evaluate env =
      (collect (ts.map (evaluate env))).map fun vs => .bool (vs.all Scalar.truth) := by
  rw [evaluate_app]
  cases collect (ts.map (evaluate env)) <;> rfl

theorem evaluate_or (ts : List Term) :
    (app .or ts).evaluate env =
      (collect (ts.map (evaluate env))).map fun vs => .bool (vs.any Scalar.truth) := by
  rw [evaluate_app]
  cases collect (ts.map (evaluate env)) <;> rfl

section

variable {op : Op} {neutral : Bool} {join : Bool → Bool → Bool} (hop : op.Joins neutral join)
include hop

theorem evaluate_joined_cons (t : Term) (ts : List Term) :
    (app op (t :: ts)).evaluate env = t.evaluate env >>= fun v =>
      ((app op ts).evaluate env).map fun w => .bool (join v.truth w.truth) := by
  rw [evaluate_app, evaluate_app, List.map_cons, collect]
  cases t.evaluate env with
  | error e => rfl
  | ok v =>
    cases collect (ts.map (evaluate env)) with
    | error e => rfl
    | ok vs => exact hop.apply_cons v vs

theorem truth_evaluate_joined (ts : List Term) :
    ((app op ts).evaluate env).map (fun w => .bool w.truth) = (app op ts).evaluate env := by
  rw [evaluate_app]
  cases collect (ts.map (evaluate env)) with
  | error e => rfl
  | ok vs => exact hop.truth_apply vs

theorem evaluate_joined_filter (ts : List Term) :
    (app op (ts.filter (· ≠ ofBool neutral))).evaluate env = (app op ts).evaluate env := by
  induction ts with
  | nil => rfl
  | cons t ts ih =>
    by_cases ht : t = ofBool neutral
    · have hneutral : t.evaluate env = .ok (.bool neutral) := by rw [ht, ofBool, evaluate, fold_const]
      rw [List.filter_cons_of_neg (by simpa using ht), ih, evaluate_joined_cons hop, hneutral,
        except_bind_ok, Scalar.truth]
      simp only [hop.neutral_left]
      exact (truth_evaluate_joined hop ts).symm
    · rw [List.filter_cons_of_pos (by simpa using ht), evaluate_joined_cons hop,
        evaluate_joined_cons hop, ih]

end

theorem evaluate_allOf (h : ∀ t ∈ ts, ∀ v, t.evaluate env = .ok v → v.ty = .bool) :
    (allOf ts).evaluate env = (app .and ts).evaluate env := by
  rw [← evaluate_joined_filter .and]
  rcases allOf_cases ts with ⟨hnil, hall⟩ | ⟨-, hall⟩
  · rw [hall, hnil]
    simp [ofBool, evaluate]
    rfl
  · rw [hall]
    rcases simplified_cases .and (ts.filter (· ≠ ofBool true)) with
      ⟨hs, -⟩ | ⟨_, hop, -⟩ | ⟨t, -, hone, hs⟩
    · rw [hs]
    · cases hop
    · have ht : t ∈ ts := (List.mem_filter.mp (hone ▸ List.mem_singleton_self t)).1
      rw [hs, hone, evaluate_app_singleton (.inr (.inl rfl)) fun v hv _ => h t ht v hv]

end

end Term

end InvariantProver
