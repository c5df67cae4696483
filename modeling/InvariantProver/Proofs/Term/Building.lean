import InvariantProver.Proofs.Data.Pairs
import InvariantProver.Proofs.Term.Typing

namespace InvariantProver

namespace Term

inductive Built : Term → Prop
  | const (value : Scalar) : Built (const value)
  | ref (r : Ref) : Built (ref r)
  | apply {op : Op} {args : List Term} {t : Term} (hargs : ∀ a ∈ args, Built a)
    (h : Term.apply op args = .ok t) : Built t
  | substitute {mapping : Entries Variable Term} {t u : Term} (ht : Built t)
    (hmapping : ∀ entry ∈ mapping, Built entry.2) (h : t.substitute mapping = .ok u) : Built u
  | reindex {t : Term} (ht : Built t) (delta : Int) : Built (t.reindex delta)

inductive Formed : Term → Prop
  | const (value : Scalar) : Formed (const value)
  | ref (r : Ref) : Formed (ref r)
  | app {op : Op} {args : List Term} {t : Ty} (hargs : ∀ a ∈ args, Formed a)
    (htakes : op.Takes (args.map ty) t) (hone : op.Collapses → args.length ≠ 1) :
    Formed (app op args)

theorem mapRefs_app (f : Ref → Term) (op : Op) (args : List Term) :
    (app op args).mapRefs f = app op (args.map (mapRefs f)) := by
  simp [mapRefs]

theorem ty_mapRefs {f : Ref → Term} (hf : ∀ r, (f r).ty = r.ty) (t : Term) :
    (t.mapRefs f).ty = t.ty := by
  induction t using Term.induct with
  | const value => simp [mapRefs]
  | ref r => simp [mapRefs, hf]
  | app op args ih =>
    rw [mapRefs_app, ty_app, ty_app, List.map_map]
    congr 1
    exact List.map_congr_left ih

theorem map_ty_map {f : Term → Term} {args : List Term} (h : ∀ a ∈ args, (f a).ty = a.ty) :
    (args.map f).map ty = args.map ty := by
  rw [List.map_map]
  exact List.map_congr_left h

theorem mapRefs_eq_self {f : Ref → Term} {t : Term} (h : ∀ r ∈ t.refs, f r = ref r) :
    t.mapRefs f = t := by
  induction t using Term.induct with
  | const value => simp [mapRefs]
  | ref r => simpa [mapRefs, refs] using h
  | app op args ih =>
    have hargs : args.map (mapRefs f) = args := by
      refine (List.map_congr_left fun a ha => ih a ha fun r hr => ?_).trans (List.map_id args)
      apply h r
      rw [refs_app]
      exact List.mem_flatMap.mpr ⟨a, ha, hr⟩
    rw [mapRefs_app, hargs]

theorem reindex_zero (t : Term) : t.reindex 0 = t := by
  refine mapRefs_eq_self fun r _ => ?_
  simp [Ref.shift]

theorem Formed.mapRefs {f : Ref → Term} (hty : ∀ r, (f r).ty = r.ty) (hf : ∀ r, Formed (f r))
    {t : Term} (h : Formed t) : Formed (t.mapRefs f) := by
  induction h with
  | const value =>
    simp only [Term.mapRefs, fold_const]
    exact .const value
  | ref r =>
    simp only [Term.mapRefs, fold_ref]
    exact hf r
  | @app op args t hargs htakes hone ih =>
    rw [mapRefs_app]
    have htys := map_ty_map fun a (_ : a ∈ args) => ty_mapRefs hty a
    refine .app ?_ (htys ▸ htakes) (by simpa using hone)
    intro a ha
    obtain ⟨b, hb, rfl⟩ := List.mem_map.mp ha
    exact ih b hb

theorem ty_shift (r : Ref) (delta : Int) : (Term.ref (r.shift delta)).ty = r.ty := by
  rw [ty_ref]
  rfl

theorem Formed.reindex {t : Term} (h : Formed t) (delta : Int) : Formed (t.reindex delta) :=
  h.mapRefs (fun r => ty_shift r delta) fun _ => .ref _

theorem ty_of_checkMapping {mapping : Entries Variable Term} (h : checkMapping mapping = .ok ()) :
    ∀ entry ∈ mapping, entry.2.ty = entry.1.ty := by
  unfold checkMapping at h
  split at h
  · cases h
  · next hnone => simpa using hnone

section

variable {mapping : Entries Variable Term}

theorem ty_replacement (h : ∀ v t, Entries.get? v mapping = some t → t.ty = v.ty) (r : Ref) :
    (replacement mapping r).ty = r.ty := by
  unfold replacement
  split
  · next t ht =>
    rw [ty_reindex]
    exact h _ _ ht
  · exact ty_ref r

theorem ty_replaceAll (h : ∀ v t, Entries.get? v mapping = some t → t.ty = v.ty) (t : Term) :
    (t.replaceAll mapping).ty = t.ty :=
  ty_mapRefs (ty_replacement h) t

theorem formed_replacement (h : ∀ entry ∈ mapping, Formed entry.2) (r : Ref) :
    Formed (replacement mapping r) := by
  unfold replacement
  split
  · next t ht => exact (h _ (Entries.mem_of_get? ht)).reindex r.step
  · exact .ref r

end

theorem simplified_cases (op : Op) (args : List Term) :
    (simplified op args = app op args ∧ (op.Collapses → args.length ≠ 1)) ∨
      (∃ value, op = .sub ∧ args = [const value] ∧ simplified op args = const value.opposite) ∨
      ∃ t, op.Collapses ∧ args = [t] ∧ simplified op args = t := by
  unfold simplified
  split
  · next value => exact .inr (.inl ⟨value, rfl, rfl, rfl⟩)
  · next t => exact .inr (.inr ⟨t, .inl rfl, rfl, rfl⟩)
  · next t => exact .inr (.inr ⟨t, .inr (.inl rfl), rfl, rfl⟩)
  · next t => exact .inr (.inr ⟨t, .inr (.inr rfl), rfl, rfl⟩)
  · next hadd hand hor =>
    refine .inl ⟨rfl, fun hop hone => ?_⟩
    obtain ⟨t, rfl⟩ := List.length_eq_one_iff.mp hone
    rcases hop with rfl | rfl | rfl
    · exact hadd t rfl rfl
    · exact hand t rfl rfl
    · exact hor t rfl rfl

theorem formed_simplified {op : Op} {args : List Term} {t : Ty} (hargs : ∀ a ∈ args, Formed a)
    (htakes : op.Takes (args.map ty) t) : Formed (simplified op args) := by
  rcases simplified_cases op args with ⟨h, hone⟩ | ⟨value, -, -, h⟩ | ⟨a, -, rfl, h⟩
  · rw [h]
    exact .app hargs htakes hone
  · rw [h]
    exact .const _
  · rw [h]
    exact hargs a (by simp)

theorem formed_of_built {t : Term} (h : Built t) : Formed t := by
  induction h with
  | const value => exact .const value
  | ref r => exact .ref r
  | apply hargs h ih =>
    unfold Term.apply at h
    obtain ⟨ty, hty, ht⟩ := except_bind_eq_ok.mp h
    rw [← Except.ok.inj ht]
    exact formed_simplified ih (Op.typeCheck_eq_ok.mp hty)
  | substitute ht hmapping h ih ihmapping =>
    unfold Term.substitute at h
    obtain ⟨⟨⟩, hcheck, hu⟩ := except_bind_eq_ok.mp h
    rw [← Except.ok.inj hu]
    refine ih.mapRefs (ty_replacement fun v t hv => ?_) (formed_replacement ihmapping)
    exact ty_of_checkMapping hcheck _ (Entries.mem_of_get? hv)
  | reindex ht delta ih => exact ih.reindex delta

theorem isTyped_of_formed {t : Term} (h : Formed t) : t.isTyped = true := by
  induction h with
  | const value => simp [isTyped]
  | ref r => simp [isTyped]
  | app hargs htakes hone ih =>
    refine isTyped_app.mpr ⟨ih, ?_⟩
    rwa [ty_app, Op.resultTy_of_takes htakes]

end Term

end InvariantProver
