import InvariantProver.Proofs.Term.Typing

namespace InvariantProver

def EvalError.shift (delta : Int) : EvalError → EvalError
  | noValue r => noValue (r.shift delta)
  | irrational r text => irrational (r.shift delta) text
  | divisionByZero => divisionByZero
  | zeroDivisor op => zeroDivisor op
  | missingOperand => missingOperand
  | operandCount got => operandCount got
  | irrationalOperand op => irrationalOperand op

def Valuation.shift (env : Valuation) (delta : Int) : Valuation := fun r => env (r.shift delta)

namespace Op

theorem mapError_implication {f : EvalError → EvalError} (hf : f .missingOperand = .missingOperand) :
    ∀ args, (implication args).mapError f = implication args
  | [] => congrArg Except.error hf
  | [_] => rfl
  | hypothesis :: conclusion :: rest => by
    have ih := mapError_implication hf (conclusion :: rest)
    rw [implication]
    · cases himplied : implication (conclusion :: rest) with
      | error e =>
        rw [himplied] at ih
        exact ih
      | ok b => rfl
    · simp

theorem mapError_divide {f : EvalError → EvalError} {failure : EvalError}
    {quotient : Scalar → Scalar → Scalar} (hfailure : f failure = failure)
    (hcount : ∀ n, f (.operandCount n) = .operandCount n) (args : List Scalar) :
    (divide failure quotient args).mapError f = divide failure quotient args := by
  unfold divide
  split
  · split
    · exact congrArg Except.error hfailure
    · rfl
  · exact congrArg Except.error (hcount _)

theorem mapError_apply (delta : Int) (op : Op) (args : List Scalar) :
    (op.apply args).mapError (·.shift delta) = op.apply args := by
  cases op with
  | ite =>
    simp only [apply, choose]
    split
    · split
      · rfl
      · split <;> rfl
    · rfl
  | not => rcases args with _ | ⟨a, rest⟩ <;> rfl
  | and | or | eq | ge | le | gt | lt => rfl
  | implies =>
    have himplied := mapError_implication (f := (·.shift delta)) rfl args
    simp only [apply]
    cases hb : implication args with
    | error e =>
      rw [hb] at himplied
      exact congrArg (Except.map Scalar.bool) himplied
    | ok b => rfl
  | add | mul => rcases args with _ | ⟨a, rest⟩ <;> rfl
  | sub => rcases args with _ | ⟨a, _ | ⟨b, rest⟩⟩ <;> rfl
  | div | idiv | mod => exact mapError_divide rfl (fun _ => rfl) args

end Op

namespace Term

theorem evaluate_of_agree {env env' : Valuation} {t : Term} (h : ∀ r ∈ t.refs, env r = env' r) :
    t.evaluate env = t.evaluate env' := by
  induction t using Term.induct with
  | const value => simp [evaluate]
  | ref r => simp [evaluate, Valuation.exact, h r (by simp [refs])]
  | app op args ih =>
    rw [evaluate_app, evaluate_app]
    congr 2
    exact List.map_congr_left fun t ht => ih t ht fun r hr => h r (refs_of_mem ht r hr)

theorem evaluate_reindex (env : Valuation) (delta : Int) (t : Term) :
    (t.reindex delta).evaluate env = (t.evaluate (env.shift delta)).mapError (·.shift delta) := by
  induction t using Term.induct with
  | const value =>
    simp only [reindex, mapRefs, evaluate, fold_const]
    rfl
  | ref r =>
    simp only [reindex, mapRefs, evaluate, fold_ref, Valuation.exact, Valuation.shift]
    split <;> rfl
  | app op args ih =>
    have hargs : collect ((args.map (reindex delta)).map (evaluate env)) =
        (collect (args.map (evaluate (env.shift delta)))).mapError (·.shift delta) := by
      rw [collect_mapError, List.map_map, List.map_map]
      congr 1
      exact List.map_congr_left ih
    rw [reindex_app, evaluate_app, evaluate_app, hargs]
    cases collect (args.map (evaluate (env.shift delta))) with
    | error e => rfl
    | ok values => exact (Op.mapError_apply delta op values).symm

theorem evaluate_reindex_eq_ok {env : Valuation} {delta : Int} {t : Term} {value : Scalar} :
    (t.reindex delta).evaluate env = .ok value ↔ t.evaluate (env.shift delta) = .ok value := by
  rw [evaluate_reindex, except_mapError_eq_ok]

end Term

end InvariantProver
