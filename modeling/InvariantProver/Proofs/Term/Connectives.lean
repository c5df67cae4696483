import InvariantProver.Proofs.Term.Meaning

namespace InvariantProver.Term

section

variable {z : ZeroReading} {a : Assignment}

@[simp] theorem holds_ofBool (b : Bool) : (ofBool b).Holds z a ↔ b = true := by
  simp [Holds, ofBool, Scalar.truth]

theorem holds_not (t : Term) : (app .not [t]).Holds z a ↔ ¬ t.Holds z a := by
  simp [Holds, Op.total, Op.apply, Scalar.truth]

theorem holds_and (ts : List Term) : (app .and ts).Holds z a ↔ ∀ t ∈ ts, t.Holds z a := by
  simp [Holds, Op.total, Op.apply, Scalar.truth]

end

theorem apply_eq_ok {op : Op} {args : List Term} {t : Term} (h : apply op args = .ok t) :
    t = simplified op args := by
  unfold apply at h
  cases hc : op.typeCheck (args.map ty) with
  | error e => simp [hc, bind, Except.bind] at h
  | ok result =>
    simp only [hc, bind, Except.bind, pure, Except.pure, Except.ok.injEq] at h
    exact h.symm

theorem apply_of_typeCheck {op : Op} {args : List Term} {result : Ty}
    (h : op.typeCheck (args.map ty) = .ok result) : apply op args = .ok (simplified op args) := by
  simp [apply, h, bind, Except.bind, pure, Except.pure]

theorem ty_connective {op : Op} (h : op.isConnective = true) (args : List Term) :
    (app op args).ty = .bool := by
  cases op <;> simp_all [ty, Op.resultTy, Op.isConnective]

theorem refs_app (op : Op) (args : List Term) : (app op args).refs = args.flatMap refs := by
  simp [refs, List.flatMap_def]

theorem negate_eq_ok {t u : Term} (h : t.negate = .ok u) :
    (∃ b, t = ofBool b ∧ u = ofBool !b) ∨ u = app .not [t] := by
  unfold negate at h
  split at h
  · next b =>
    obtain rfl := Except.ok.inj h
    exact .inl ⟨b, rfl, rfl⟩
  · exact .inr (apply_eq_ok h)

theorem holds_negate {z : ZeroReading} {a : Assignment} {t u : Term} (h : t.negate = .ok u) :
    u.Holds z a ↔ ¬ t.Holds z a := by
  obtain ⟨b, rfl, rfl⟩ | rfl := negate_eq_ok h
  · cases b <;> simp
  · exact holds_not t

theorem negate_of_bool {t : Term} (h : t.ty = .bool) :
    ∃ u, t.negate = .ok u ∧ u.ty = .bool ∧ ∀ r ∈ u.refs, r ∈ t.refs := by
  by_cases hb : ∃ b, t = ofBool b
  · obtain ⟨b, rfl⟩ := hb
    exact ⟨ofBool !b, rfl, by simp [ofBool, ty, Scalar.ty], by simp [ofBool, refs]⟩
  · refine ⟨app .not [t], ?_, ty_connective rfl _, by simp [refs_app]⟩
    have hc : Op.not.typeCheck ([t].map ty) = .ok .bool := by
      simp [Op.typeCheck, Op.checkArity, Op.minArity, Op.maxArity?, Op.isConnective,
        Op.checkConnective, h, bind, Except.bind]
    unfold negate
    split
    · next b => exact absurd ⟨b, rfl⟩ hb
    · exact apply_of_typeCheck hc

theorem holds_simplified_and {z : ZeroReading} {a : Assignment} (ts : List Term) :
    (simplified .and ts).Holds z a ↔ ∀ t ∈ ts, t.Holds z a := by
  match ts with
  | [] => exact holds_and []
  | [t] => simp [simplified]
  | t :: u :: us => exact holds_and (t :: u :: us)

theorem holds_conj {z : ZeroReading} {a : Assignment} {ts : List Term} {u : Term}
    (h : conj ts = .ok u) : u.Holds z a ↔ ∀ t ∈ ts, t.Holds z a := by
  have hf : (∀ t ∈ ts.filter (· ≠ ofBool true), t.Holds z a) ↔ ∀ t ∈ ts, t.Holds z a := by
    constructor
    · intro hall t ht
      by_cases he : t = ofBool true
      · simp [he]
      · exact hall t (by simp [ht, he])
    · intro hall t ht
      exact hall t (List.mem_filter.mp ht).1
  rw [← hf]
  unfold conj junction at h
  split at h
  · next hnil =>
    obtain rfl := Except.ok.inj h
    rw [hnil]
    simp
  · rw [apply_eq_ok h]
    exact holds_simplified_and _

theorem conj_of_bool {ts : List Term} (h : ∀ t ∈ ts, t.ty = .bool) :
    ∃ u, conj ts = .ok u ∧ u.ty = .bool ∧ ∀ r ∈ u.refs, ∃ t ∈ ts, r ∈ t.refs := by
  unfold conj junction
  split
  · exact ⟨ofBool true, rfl, by simp [ofBool, ty, Scalar.ty], by simp [ofBool, refs]⟩
  · next hne =>
    have hmem : ∀ t ∈ ts.filter (· ≠ ofBool true), t ∈ ts := fun t ht => (List.mem_filter.mp ht).1
    generalize ts.filter (· ≠ ofBool true) = args at hne hmem
    have hfind : (args.map ty).find? (· ≠ .bool) = none := by
      rw [List.find?_eq_none]
      simp only [List.mem_map]
      rintro _ ⟨t, ht, rfl⟩
      simp [h t (hmem t ht)]
    have hbool : Op.and.checkConnective (args.map ty) = .ok .bool := by
      simp only [Op.checkConnective, hfind]
    have hlen : ¬ args.length < 1 := by
      have := List.length_pos_iff.mpr hne
      omega
    have hc : Op.and.typeCheck (args.map ty) = .ok .bool := by
      simp [Op.typeCheck, Op.checkArity, Op.minArity, Op.maxArity?, Op.isConnective, hbool, hlen,
        bind, Except.bind]
    refine ⟨simplified .and args, apply_of_typeCheck hc, ?_⟩
    cases args with
    | nil => exact absurd rfl hne
    | cons t rest =>
      cases rest with
      | nil =>
        have ht := hmem t (List.mem_singleton_self t)
        exact ⟨h t ht, fun r hr => ⟨t, ht, hr⟩⟩
      | cons u us =>
        refine ⟨ty_connective rfl _, fun r hr => ?_⟩
        obtain ⟨v, hv, hr⟩ := List.mem_flatMap.mp (refs_app .and _ ▸ hr)
        exact ⟨v, hmem v hv, hr⟩

end InvariantProver.Term
