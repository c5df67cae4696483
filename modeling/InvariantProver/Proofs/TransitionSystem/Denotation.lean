import InvariantProver.Proofs.Term.Conjunction
import InvariantProver.Proofs.TransitionSystem.Lexical

namespace InvariantProver

structure Moment.Describes (m : Moment) (vs : List Variable) (env : Valuation) : Prop where
  current : ∀ (i : Nat) v, vs[i]? = some v → env.exact ⟨v, 0⟩ = m.current i
  next : ∀ (i : Nat) v, vs[i]? = some v → env.exact ⟨v, 1⟩ = m.next i
  typed : ∀ v ∈ vs, ∀ step : Int, step = 0 ∨ step = 1 → ∀ w, env.exact ⟨v, step⟩ = .ok w → w.ty = v.ty

namespace Term

def Local (vs : List Variable) (t : Term) : Prop :=
  ∀ r ∈ t.refs, r.var ∈ vs ∧ r.var.role = .state ∧ (r.step = 0 ∨ r.step = 1)

structure Denotes (vs : List Variable) (t : Term) (r : Meaning) : Prop where
  typed : t.isTyped = true
  refs : t.Local vs
  ty : r.ty? = some t.ty
  next : r.next = t.refs.any (·.step ≠ 0)
  current : r.next = false → ∀ m m' : Moment, m.current = m'.current → r.value m = r.value m'
  value : ∀ m env, m.Describes vs env → t.evaluate env = r.value m

theorem ty_of_local {vs : List Variable} {t : Term} {m : Moment} {env : Valuation} {v : Scalar}
    (htyped : t.isTyped = true) (hrefs : t.Local vs) (hm : m.Describes vs env)
    (hv : t.evaluate env = .ok v) : v.ty = t.ty := by
  apply ty_of_evaluate htyped _ hv
  intro r hr w hw
  obtain ⟨hvar, -, hstep⟩ := hrefs r hr
  exact hm.typed r.var hvar r.step hstep w hw

theorem Denotes.append {vs : List Variable} {t : Term} {r : Meaning} (h : t.Denotes vs r)
    (ws : List Variable) : t.Denotes (vs ++ ws) r where
  typed := h.typed
  refs r hr := by
    obtain ⟨hvar, hrest⟩ := h.refs r hr
    exact ⟨List.mem_append_left ws hvar, hrest⟩
  ty := h.ty
  next := h.next
  current := h.current
  value m env hm := by
    have hbefore : ∀ (i : Nat) v, vs[i]? = some v → (vs ++ ws)[i]? = some v := by
      intro i v hv
      obtain ⟨hlt, -⟩ := List.getElem?_eq_some_iff.mp hv
      rwa [List.getElem?_append_left hlt]
    exact h.value m env
      { current := fun i v hv => hm.current i v (hbefore i v hv)
        next := fun i v hv => hm.next i v (hbefore i v hv)
        typed := fun v hv => hm.typed v (List.mem_append_left ws hv) }

section

variable {vs : List Variable}

theorem denotes_const (value : Scalar) :
    (const value).Denotes vs ⟨some value.ty, false, fun _ => .ok value⟩ where
  typed := by simp [isTyped]
  refs r hr := by simp [refs] at hr
  ty := by rw [ty_const]
  next := by simp [refs]
  current _ _ _ _ := rfl
  value m env _ := by simp [evaluate]

theorem denotes_ref {v : Variable} {i : Nat} (hv : vs[i]? = some v) (hrole : v.role = .state)
    (next : Bool) :
    (ref ⟨v, if next then 1 else 0⟩).Denotes vs (.name next (some (.state i (some v.ty)))) where
  typed := by simp [isTyped]
  refs r hr := by
    obtain rfl : r = _ := by simpa [refs] using hr
    refine ⟨List.mem_of_getElem? hv, hrole, ?_⟩
    cases next with
    | false => exact .inl rfl
    | true => exact .inr rfl
  ty := by
    rw [ty_ref]
    rfl
  next := by cases next <;> simp [refs, Meaning.name]
  current hnext m m' hm := by
    obtain rfl : next = false := hnext
    exact congrFun hm i
  value m env hm := by
    rw [evaluate, fold_ref]
    cases next with
    | false => exact hm.current i v hv
    | true => exact hm.next i v hv

theorem denotes_app {op : Op} {ts : List Term} {rs : List Meaning} {t : Ty}
    (h : List.Forall₂ (Denotes vs) ts rs) (htakes : op.Takes (ts.map ty) t) :
    (app op ts).Denotes vs (.apply (some op) rs) where
  typed := by
    refine isTyped_app.mpr ⟨fun u hu => ?_, ?_⟩
    · obtain ⟨r, -, hr⟩ := exists_of_forall₂ h hu
      exact hr.typed
    · rwa [ty_app, Op.resultTy_of_takes htakes]
  refs r hr := by
    rw [refs_app] at hr
    obtain ⟨u, hu, hr⟩ := List.mem_flatMap.mp hr
    obtain ⟨_, -, hu⟩ := exists_of_forall₂ h hu
    exact hu.refs r hr
  ty := by
    have htys : rs.mapM Meaning.ty? = some (ts.map ty) := by
      clear htakes
      induction h with
      | nil => rfl
      | cons hfirst _ ih =>
        rw [List.mapM_cons, hfirst.ty, ih]
        rfl
    rw [ty_app, Meaning.apply, htys]
    rfl
  next := by
    have hnext : rs.map Meaning.next = ts.map fun t => t.refs.any (·.step ≠ 0) :=
      (map_eq_of_forall₂ h fun _ _ _ ht => ht.next.symm).symm
    have hany : (rs.map Meaning.next).any id = rs.any Meaning.next := by
      rw [List.any_map]
      rfl
    rw [refs_app, List.any_flatMap]
    change rs.any Meaning.next = _
    rw [← hany, hnext, List.any_map]
    rfl
  current hnext m m' hm := by
    have hvalues : rs.map (fun r => r.value m) = rs.map fun r => r.value m' := by
      refine List.map_congr_left fun r hr => ?_
      obtain ⟨u, -, hu⟩ := exists_of_forall₂ h.flip hr
      exact hu.current (by simpa using List.any_eq_false.mp hnext r hr) m m' hm
    change collect _ >>= _ = collect _ >>= _
    rw [hvalues]
  value m env hm := by
    have hvalues : ts.map (evaluate env) = rs.map fun r => r.value m :=
      map_eq_of_forall₂ h fun _ _ _ ht => ht.value m env hm
    rw [evaluate_app, hvalues]
    rfl

theorem denotes_simplified {op : Op} {ts : List Term} {r : Meaning} {t : Ty}
    (h : (app op ts).Denotes vs r) (htakes : op.Takes (ts.map ty) t) :
    (simplified op ts).Denotes vs r := by
  have hty := h.ty
  rw [ty_app, Op.resultTy_of_takes htakes] at hty
  rcases simplified_cases op ts with ⟨hs, -⟩ | ⟨value, rfl, rfl, hs⟩ | ⟨u, hop, rfl, hs⟩
  · rwa [hs]
  · obtain ⟨rfl, hne⟩ := Op.takes_sub htakes
    rw [ty_const] at hty hne
    rw [hs, Scalar.opposite_eq_neg hne]
    refine ⟨by simp [isTyped], fun r hr => by simp [refs] at hr, ?_, ?_, h.current, ?_⟩
    · rw [ty_const, Op.ty_neg hne, hty]
    · rw [h.next, refs_app]
      simp [refs]
    · intro m env hm
      rw [← h.value m env hm, evaluate_app]
      simp [evaluate]
      rfl
  · obtain ⟨rfl, hjunction⟩ := Op.takes_one hop htakes
    have hrefs : (app op [u]).refs = u.refs := by
      rw [refs_app]
      simp
    have htyped := (isTyped_app.mp h.typed).1 u (by simp)
    have hlocal : u.Local vs := fun r hr => h.refs r (by rwa [hrefs])
    rw [hs]
    refine ⟨htyped, hlocal, hty, by rw [h.next, hrefs], h.current, fun m env hm => ?_⟩
    rw [← h.value m env hm, evaluate_app_singleton hop]
    exact fun v hv hne => (ty_of_local htyped hlocal hm hv).trans (hjunction hne)

theorem denotes_allOf {ts : List Term} {rs : List Meaning} (h : List.Forall₂ (Denotes vs) ts rs)
    (hbool : ∀ t ∈ ts, t.ty = .bool) : (allOf ts).Denotes vs (.conjunction rs) := by
  unfold Meaning.conjunction
  cases h with
  | nil => exact denotes_const (.bool true)
  | @cons t r ts rs hfirst hrest =>
    have hall := List.Forall₂.cons hfirst hrest
    have happ := denotes_app hall (takes_joined .and (by simp) hbool)
    have htyped : ∀ u ∈ t :: ts, u.ty = .bool ∧ u.isTyped = true := fun u hu => by
      obtain ⟨_, -, hdenotes⟩ := exists_of_forall₂ hall hu
      exact ⟨hbool u hu, hdenotes.typed⟩
    have hrefs : (allOf (t :: ts)).refs = (app .and (t :: ts)).refs := by
      rw [refs_allOf, refs_app]
    obtain ⟨hty, hisTyped⟩ := typed_allOf htyped
    refine ⟨hisTyped, fun r hr => happ.refs r (hrefs ▸ hr), ?_, hrefs ▸ happ.next, happ.current, ?_⟩
    · rw [happ.ty, hty, ty_connective rfl]
    · intro m env hm
      rw [← happ.value m env hm]
      refine evaluate_allOf fun u hu v hv => ?_
      obtain ⟨_, -, hdenotes⟩ := exists_of_forall₂ hall hu
      rw [← hbool u hu]
      exact ty_of_local hdenotes.typed hdenotes.refs hm hv

end

end Term

end InvariantProver
