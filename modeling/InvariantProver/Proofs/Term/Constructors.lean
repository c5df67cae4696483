import InvariantProver.Proofs.Term.Conjunction

namespace InvariantProver

/-- The truth-valued references of a term have truth values, or none at all. -/
def Valuation.KeepsTruth (env : Valuation) (t : Term) : Prop :=
  ∀ r ∈ t.refs, r.ty = .bool → ∀ v, env.exact r = .ok v → v.ty = .bool

theorem Op.truth_of_apply {op : Op} {vs : List Scalar} {tys : List Ty} {v : Scalar}
    (h : op.Takes tys .bool) (hvs : List.Forall₂ (fun t v => t = .bool → v.ty = .bool) tys vs)
    (hv : op.apply vs = .ok v) : v.ty = .bool := by
  cases h with
  | choice =>
    obtain _ | ⟨-, _ | ⟨htrue, _ | ⟨hfalse, _ | _⟩⟩⟩ := hvs
    simp only [apply, choose] at hv
    split at hv
    · rw [← Except.ok.inj hv]
      exact htrue rfl
    · rw [← Except.ok.inj hv]
      exact hfalse rfl
  | negation =>
    obtain _ | ⟨-, _ | _⟩ := hvs
    rw [← Except.ok.inj hv]
    rfl
  | junction hop =>
    rcases hop with rfl | rfl
    · rw [← Except.ok.inj hv]
      rfl
    · rw [← Except.ok.inj hv]
      rfl
  | implication =>
    obtain ⟨b, -, rfl⟩ := except_map_eq_ok.mp hv
    rfl
  | equality =>
    rw [← Except.ok.inj hv]
    rfl
  | relation hop =>
    cases op with
    | ge | le | gt | lt =>
      rw [← Except.ok.inj hv]
      rfl
    | _ => cases hop
  | sum _ ht | product ht => exact absurd rfl ht

namespace Term

section

variable {env : Valuation} {t : Term} {ts : List Term} {v : Scalar}

theorem truth_of_evaluate (ht : t.isTyped = true) (henv : env.KeepsTruth t) (hty : t.ty = .bool)
    (hv : t.evaluate env = .ok v) : v.ty = .bool := by
  induction t using Term.induct generalizing v with
  | const value =>
    simp only [evaluate, fold_const] at hv
    rwa [← Except.ok.inj hv, ← ty_const]
  | ref r =>
    simp only [evaluate, fold_ref] at hv
    exact henv r (by simp [refs]) (ty_ref r ▸ hty) v hv
  | app op args ih =>
    obtain ⟨hargs, htakes⟩ := isTyped_app.mp ht
    rw [hty] at htakes
    rw [evaluate_app] at hv
    obtain ⟨vs, hvs, hv⟩ := except_bind_eq_ok.mp hv
    refine Op.truth_of_apply htakes (List.forall₂_map_left_iff.mpr ?_) hv
    have hall := (List.forall₂_and_left args vs).mpr ⟨fun a ha => ha, collect_eq_ok_iff.mp hvs⟩
    refine hall.imp fun a w h hbool => ?_
    obtain ⟨ha, hw⟩ := h
    exact ih a ha (hargs a ha) (fun r hr => henv r (refs_of_mem ha r hr)) hbool hw

/-! ### Applications -/

theorem map_apply (op : Op) (args : List Term) {β : Type} (f : Term → β) :
    (apply op args).map f = (node op args).map fun _ => f (simplified op args) := by
  rw [apply, node]
  cases op.typeCheck (args.map ty) <;> rfl

theorem node_eq_ok {op : Op} {args : List Term} {u : Term} (h : node op args = .ok u) :
    u = app op args ∧ op.Takes (args.map ty) u.ty := by
  obtain ⟨result, hresult, hu⟩ := except_bind_eq_ok.mp h
  obtain rfl := Except.ok.inj hu
  have htakes := Op.typeCheck_eq_ok.mp hresult
  rw [ty_app, Op.resultTy_of_takes htakes]
  exact ⟨rfl, htakes⟩

theorem except_map_congr {ε α β : Type} {x : Except ε α} {f g : α → β}
    (h : ∀ a, x = .ok a → f a = g a) : x.map f = x.map g := by
  cases x with
  | error e => rfl
  | ok a => exact congrArg Except.ok (h a rfl)

section

variable {op : Op} {args : List Term} {result : Ty} (h : op.Takes (args.map ty) result)
include h

theorem ty_simplified : (simplified op args).ty = result := by
  rcases simplified_cases op args with ⟨hs, -⟩ | ⟨value, rfl, rfl, hs⟩ | ⟨a, hop, rfl, hs⟩
  · rw [hs, ty_app, Op.resultTy_of_takes h]
  · obtain ⟨rfl, hne⟩ := Op.takes_sub h
    rw [ty_const] at hne
    rw [hs, ty_const, ty_const, Scalar.opposite_eq_neg hne, Op.ty_neg hne]
  · rw [hs]
    exact (Op.takes_one hop h).1.symm

theorem evaluate_simplified (hone : op = .and ∨ op = .or → args.length = 1 →
      ∀ a ∈ args, a.isTyped = true ∧ env.KeepsTruth a) :
    (simplified op args).evaluate env = (app op args).evaluate env := by
  rcases simplified_cases op args with ⟨hs, -⟩ | ⟨value, rfl, rfl, hs⟩ | ⟨a, hop, rfl, hs⟩
  · rw [hs]
  · have hne := (Op.takes_sub h).2
    rw [ty_const] at hne
    rw [hs, Scalar.opposite_eq_neg hne, evaluate_app]
    simp only [List.map_cons, List.map_nil, evaluate, fold_const]
    rfl
  · rw [hs, evaluate_app_singleton hop]
    intro v hv hne
    obtain ⟨htyped, henv⟩ := hone (hop.resolve_left hne) rfl a List.mem_cons_self
    exact truth_of_evaluate htyped henv ((Op.takes_one hop h).2 hne) hv

end

/-! ### Conjunctions and disjunctions -/

section

variable {op : Op} {neutral : Bool} {join : Bool → Bool → Bool} (hop : op.Joins neutral join)
include hop

theorem bool_of_takes {tys : List Ty} {t : Ty} (h : op.Takes tys t) : ∀ u ∈ tys, u = .bool := by
  cases h with
  | junction => exact fun u hu => List.eq_of_mem_replicate hu
  | relation hrelation => cases hop <;> cases hrelation
  | sum hsum | whole hsum => cases hop <;> simp at hsum
  | choice | negation | implication | equality | product | quotient => cases hop

theorem apply_joined_isOk_iff (hne : ts ≠ []) :
    (∃ u, apply op ts = .ok u) ↔ ∀ t ∈ ts, t.ty = .bool := by
  constructor
  · rintro ⟨u, hu⟩ t ht
    obtain ⟨result, hresult, -⟩ := except_bind_eq_ok.mp hu
    exact bool_of_takes hop (Op.typeCheck_eq_ok.mp hresult) t.ty (List.mem_map_of_mem ht)
  · intro hbool
    exact ⟨_, apply_of_typeCheck (Op.typeCheck_eq_ok.mpr (takes_joined hop hne hbool))⟩

theorem junction_isOk_iff (ts : List Term) :
    (∃ u, junction op neutral ts = .ok u) ↔ ∀ t ∈ ts, t.ty = .bool := by
  have hkept : (∀ t ∈ ts.filter (· ≠ ofBool neutral), t.ty = .bool) ↔ ∀ t ∈ ts, t.ty = .bool := by
    refine ⟨fun h t ht => ?_, fun h t ht => h t (List.mem_filter.mp ht).1⟩
    by_cases hneutral : t = ofBool neutral
    · rw [hneutral, ofBool, ty_const]
      rfl
    · exact h t (List.mem_filter.mpr ⟨ht, by simpa using hneutral⟩)
  rw [← hkept, junction]
  split
  · next hnil =>
    rw [hnil]
    exact ⟨fun _ => List.forall_mem_nil _, fun _ => ⟨_, rfl⟩⟩
  · next hne => exact apply_joined_isOk_iff hop fun hnil => hne hnil

theorem evaluate_joined_singleton (t : Term) :
    (app op [t]).evaluate env = (t.evaluate env).map fun v => .bool v.truth := by
  rw [evaluate_joined_cons hop]
  cases t.evaluate env with
  | error e => rfl
  | ok v => cases hop <;> simp [evaluate_app, collect, Op.apply, Except.map, except_bind_ok, Scalar.truth]

theorem joined_error_iff (ts : List Term) :
    (∃ e, (app op ts).evaluate env = .error e) ↔ ∃ t ∈ ts, ∃ e, t.evaluate env = .error e := by
  induction ts with
  | nil => cases hop <;> simp [evaluate_app, collect, Op.apply, except_bind_ok]
  | cons t ts ih =>
    rw [evaluate_joined_cons hop, List.exists_mem_cons_iff, ← ih]
    cases t.evaluate env with
    | error e => exact ⟨fun _ => .inl ⟨e, rfl⟩, fun _ => ⟨e, rfl⟩⟩
    | ok v => cases (app op ts).evaluate env <;> simp [except_bind_ok, Except.map]

/-- A junction is the connective of all its terms, of which it is itself one if it drops the others. -/
theorem junction_of_bool (hbool : ∀ t ∈ ts, t.ty = .bool) :
    ∃ u, junction op neutral ts = .ok u ∧ u.ty = .bool ∧ ∀ env : Valuation,
      (u.evaluate env).map (fun v => .bool v.truth) = (app op ts).evaluate env ∧
      ((∀ t ∈ ts, t.isTyped = true ∧ env.KeepsTruth t) →
        u.evaluate env = (app op ts).evaluate env) := by
  unfold junction
  split
  · next hnil =>
    have hempty : ∀ env : Valuation, (app op ts).evaluate env = .ok (.bool neutral) := by
      intro env
      rw [← evaluate_joined_filter hop, hnil]
      cases hop <;> rfl
    have hvalue : ∀ env : Valuation, (ofBool neutral).evaluate env = .ok (.bool neutral) := by
      intro env
      rw [ofBool, evaluate, fold_const]
    refine ⟨ofBool neutral, rfl, ty_const _, fun env => ?_⟩
    rw [hempty, hvalue]
    exact ⟨rfl, fun _ => rfl⟩
  · next hne =>
    have hkept : ∀ t ∈ ts.filter (· ≠ ofBool neutral), t ∈ ts := fun t ht => (List.mem_filter.mp ht).1
    have htakes := takes_joined hop (fun hnil => hne hnil) fun t ht => hbool t (hkept t ht)
    refine ⟨_, apply_of_typeCheck (Op.typeCheck_eq_ok.mpr htakes), ?_, fun env => ?_⟩
    · exact ty_simplified htakes
    · rw [← evaluate_joined_filter hop]
      refine ⟨?_, fun hall => evaluate_simplified htakes fun _ _ a ha => hall a (hkept a ha)⟩
      rcases simplified_cases op (ts.filter (· ≠ ofBool neutral)) with
        ⟨hs, -⟩ | ⟨_, rfl, -⟩ | ⟨a, -, hone, hs⟩
      · rw [hs, truth_evaluate_joined hop]
      · cases hop
      · rw [hs, hone, evaluate_joined_singleton hop]

theorem junction_fails_iff {u : Term} (hbool : ∀ t ∈ ts, t.ty = .bool)
    (hu : junction op neutral ts = .ok u) (env : Valuation) :
    (∃ e, u.evaluate env = .error e) ↔ ∃ t ∈ ts, ∃ e, t.evaluate env = .error e := by
  obtain ⟨u', hu', -, hvalue⟩ := junction_of_bool hop hbool
  obtain rfl := Except.ok.inj (hu.symm.trans hu')
  rw [← joined_error_iff hop, ← (hvalue env).1]
  cases u.evaluate env <;> simp [Except.map]

end

end

/-! ### All constructors -/

def sense (env : Valuation) (built : Except TypeError Term) :
    Except TypeError (Ty × Except EvalError Scalar) :=
  built.map fun t => (t.ty, t.evaluate env)

theorem sense_apply {op : Op} {args : List Term} {env : Valuation}
    (hone : op = .and ∨ op = .or → args.length = 1 →
      ∀ a ∈ args, a.isTyped = true ∧ env.KeepsTruth a) :
    sense env (apply op args) = sense env (node op args) := by
  unfold sense
  rw [map_apply]
  refine except_map_congr fun u hu => ?_
  obtain ⟨rfl, htakes⟩ := node_eq_ok hu
  rw [ty_simplified htakes, evaluate_simplified htakes hone]

theorem sense_negate (env : Valuation) (t : Term) :
    sense env t.negate = sense env (node .not [t]) := by
  unfold negate
  split
  · next b =>
    refine congrArg Except.ok (Prod.ext ?_ ?_)
    · change (ofBool !b).ty = (app .not [ofBool b]).ty
      rw [ofBool, ty_const, ty_connective rfl]
      rfl
    · change (ofBool !b).evaluate env = (app .not [ofBool b]).evaluate env
      rw [evaluate_app]
      simp only [List.map_cons, List.map_nil, ofBool, evaluate, fold_const]
      rfl
  · exact sense_apply fun hop => by simp at hop

/-- A term is made of others by a verdict on their values. Where the references have the values that
their types ask for it has that verdict as its value, and elsewhere a value that counts as it. -/
structure Combines (verdict : List Scalar → Bool) (ts : List Term) (u : Term) : Prop where
  ty : u.ty = .bool
  truth : ∀ env : Valuation, (u.evaluate env).map (fun v => Scalar.bool v.truth) =
    (collect (ts.map (evaluate env))).map fun vs => .bool (verdict vs)
  fails : ∀ env : Valuation, (∃ e, u.evaluate env = .error e) ↔ ∃ t ∈ ts, ∃ e, t.evaluate env = .error e
  value : ∀ env : Valuation, (∀ t ∈ ts, t.isTyped = true ∧ env.KeepsTruth t) →
    u.evaluate env = (collect (ts.map (evaluate env))).map fun vs => .bool (verdict vs)

theorem combines_junction {op : Op} {neutral : Bool} {join : Bool → Bool → Bool}
    (hop : op.Joins neutral join) {verdict : List Scalar → Bool}
    (hverdict : ∀ env (ts : List Term), (app op ts).evaluate env =
      (collect (ts.map (evaluate env))).map fun vs => .bool (verdict vs))
    {ts : List Term} (hbool : ∀ t ∈ ts, t.ty = .bool) :
    ∃ u, junction op neutral ts = .ok u ∧ Combines verdict ts u := by
  obtain ⟨u, hu, hty, hvalue⟩ := junction_of_bool hop hbool
  refine ⟨u, hu, hty, fun env => ?_, junction_fails_iff hop hbool hu, fun env hall => ?_⟩
  · rw [← hverdict]
    exact (hvalue env).1
  · rw [← hverdict]
    exact (hvalue env).2 hall

/-- The constructors of terms build what the plain applications are: they fail alike, and what they
build has the same type and the same results under all values. Only a conjunction or disjunction of
one term differs from the plain one, where its term is no truth value; the plain one gives what that
value counts as. -/
theorem constructors_keep_meaning :
    (∀ (op : Op) (args : List Term), (apply op args).map ty = (node op args).map ty) ∧
    (∀ (op : Op) (args : List Term) (env : Valuation),
      (op = .and ∨ op = .or → args.length = 1 →
        ∀ a ∈ args, a.isTyped = true ∧ env.KeepsTruth a) →
      sense env (apply op args) = sense env (node op args)) ∧
    (∀ (op : Op) (t : Term) (env : Valuation), op = .and ∨ op = .or → t.ty = .bool →
      apply op [t] = .ok t ∧ node op [t] = .ok (app op [t]) ∧
        (app op [t]).evaluate env = (t.evaluate env).map fun v => .bool v.truth) ∧
    (∀ (t : Term) (env : Valuation), sense env t.negate = sense env (node .not [t])) ∧
    (∀ a b : Term, implies a b = node .implies [a, b] ∧ equal a b = node .eq [a, b]) ∧
    ∀ ts : List Term,
      ((∃ u, conj ts = .ok u) ↔ ∀ t ∈ ts, t.ty = .bool) ∧
      ((∃ u, disj ts = .ok u) ↔ ∀ t ∈ ts, t.ty = .bool) ∧
      ((∀ t ∈ ts, t.ty = .bool) →
        (∃ u, conj ts = .ok u ∧ Combines (List.all · Scalar.truth) ts u) ∧
        ∃ u, disj ts = .ok u ∧ Combines (List.any · Scalar.truth) ts u) := by
  refine ⟨fun op args => ?_, fun op args env hone => sense_apply hone, fun op t env hop hty => ?_,
    fun t env => sense_negate env t, fun a b => ⟨rfl, rfl⟩, fun ts => ⟨?_, ?_, fun hbool => ⟨?_, ?_⟩⟩⟩
  · rw [map_apply]
    refine except_map_congr fun u hu => ?_
    obtain ⟨rfl, htakes⟩ := node_eq_ok hu
    exact ty_simplified htakes
  · have hcheck : op.typeCheck ([t].map ty) = .ok .bool := by
      rw [List.map_singleton, hty]
      rcases hop with rfl | rfl <;> rfl
    refine ⟨?_, ?_, ?_⟩
    · rw [apply_of_typeCheck hcheck]
      rcases hop with rfl | rfl <;> rfl
    · rw [node, hcheck]
      rfl
    · rcases hop with rfl | rfl
      · exact evaluate_joined_singleton .and t
      · exact evaluate_joined_singleton .or t
  · exact junction_isOk_iff .and ts
  · exact junction_isOk_iff .or ts
  · exact combines_junction .and (fun _ ts => evaluate_and ts) hbool
  · exact combines_junction .or (fun _ ts => evaluate_or ts) hbool

def switch : Term := .ref ⟨⟨"on", .bool, .state⟩, 0⟩

theorem conjunction_of_number :
    ¬ ∀ (op : Op) (args : List Term) (env : Valuation),
      sense env (apply op args) = sense env (node op args) := by
  intro hall
  have hswitch := hall .and [switch] fun _ => some (.exact (.int 5))
  have hbuilt : sense (fun _ => some (.exact (.int 5))) (apply .and [switch]) =
      .ok (.bool, .ok (.int 5)) := by decide +kernel
  have hplain : sense (fun _ => some (.exact (.int 5))) (node .and [switch]) =
      .ok (.bool, .ok (.bool true)) := by decide +kernel
  rw [hbuilt, hplain] at hswitch
  exact absurd hswitch (by decide)

theorem switch_and_constants : conj [ofBool true, switch, ofBool true] = .ok switch ∧
    ∀ b : Bool, switch.evaluate (fun _ => some (.exact (.bool b))) = .ok (.bool b) ∧
      sense (fun _ => some (.exact (.bool b))) (apply .and [switch]) =
        sense (fun _ => some (.exact (.bool b))) (node .and [switch]) := by
  obtain ⟨-, happly, -, -, -, hjunctions⟩ := constructors_keep_meaning
  have hbool : ∀ t ∈ [ofBool true, switch, ofBool true], t.ty = .bool := by decide +kernel
  obtain ⟨-, -, hcombine⟩ := hjunctions [ofBool true, switch, ofBool true]
  obtain ⟨⟨u, hu, hcombines⟩, -⟩ := hcombine hbool
  have hconj : conj [ofBool true, switch, ofBool true] = .ok switch := by decide +kernel
  obtain rfl := Except.ok.inj (hu.symm.trans hconj)
  have hkeeps : ∀ b, ∀ t : Term, t.isTyped = true →
      t.isTyped = true ∧ Valuation.KeepsTruth (fun _ => some (.exact (.bool b))) t := by
    refine fun b t ht => ⟨ht, fun r _ _ v hv => ?_⟩
    rw [← Except.ok.inj hv]
    rfl
  refine ⟨hconj, fun b => ⟨?_, happly .and [switch] _ fun _ _ a ha => ?_⟩⟩
  · rw [hcombines.value _ fun t ht => hkeeps b t ?_]
    · cases b <;> decide +kernel
    · revert t
      decide +kernel
  · obtain rfl := List.mem_singleton.mp ha
    exact hkeeps b switch (by decide +kernel)

end Term

end InvariantProver
