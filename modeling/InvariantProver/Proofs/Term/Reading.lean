import InvariantProver.Proofs.Term.Typing

namespace InvariantProver.Term

variable {look look' : Ref → Except EvalError Scalar}
  {apply apply' : Op → List Scalar → Except EvalError Scalar} {t : Term} {v : Scalar}

def read (look : Ref → Except EvalError Scalar) (apply : Op → List Scalar → Except EvalError Scalar) :
    Term → Except EvalError Scalar :=
  fold .ok look fun op _ results => do apply op (← collect results)

theorem evaluate_eq_read (env : Valuation) (t : Term) : t.evaluate env = t.read env.exact Op.apply := rfl

theorem read_app (op : Op) (args : List Term) :
    (app op args).read look apply = (collect (args.map (read look apply)) >>= apply op) := by
  rw [read, fold_app]

theorem read_app_eq_ok {op : Op} {args : List Term} :
    (app op args).read look apply = .ok v ↔
      ∃ vs, List.Forall₂ (fun t v => t.read look apply = .ok v) args vs ∧ apply op vs = .ok v := by
  rw [read_app, except_bind_eq_ok]
  exact exists_congr fun vs => and_congr_left fun _ => collect_eq_ok_iff

theorem read_of_agree (hlook : ∀ r v, look r = .ok v → look' r = .ok v)
    (happly : ∀ op vs v, apply op vs = .ok v → apply' op vs = .ok v)
    (h : t.read look apply = .ok v) : t.read look' apply' = .ok v := by
  induction t using Term.induct generalizing v with
  | const value => simpa [read] using h
  | ref r =>
    simp only [read, fold_ref] at h ⊢
    exact hlook r v h
  | app op args ih =>
    obtain ⟨vs, hargs, hv⟩ := read_app_eq_ok.mp h
    have hall := (List.forall₂_and_left args vs).mpr ⟨fun t ht w hw => @ih t ht w hw, hargs⟩
    exact read_app_eq_ok.mpr ⟨vs, hall.imp fun t w ht => ht.1 w ht.2, happly op vs v hv⟩

theorem look_of_read (h : t.read look apply = .ok v) : ∀ r ∈ t.refs, ∃ w, look r = .ok w := by
  induction t using Term.induct generalizing v with
  | const value => simp [refs]
  | ref r =>
    intro r' hr'
    obtain rfl : r' = r := by simpa [refs] using hr'
    exact ⟨v, by simpa [read] using h⟩
  | app op args ih =>
    obtain ⟨vs, hargs, -⟩ := read_app_eq_ok.mp h
    intro r hr
    rw [refs_app] at hr
    obtain ⟨t, ht, hr⟩ := List.mem_flatMap.mp hr
    obtain ⟨w, -, hw⟩ := exists_of_forall₂ hargs ht
    exact ih t ht hw r hr

end InvariantProver.Term
