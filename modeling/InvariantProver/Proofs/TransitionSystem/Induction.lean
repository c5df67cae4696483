import InvariantProver.Proofs.TransitionSystem.Execution

namespace InvariantProver.TransitionSystem

variable {z : ZeroReading} {s : TransitionSystem}

/-- A chain of transitions leaves a predicate in its last state, after states in which all that is
assumed is true. The chain may start anywhere. -/
def Escapes (z : ZeroReading) (s : TransitionSystem) (assumed : List Term) (p : Term) (k : Nat) :
    Prop :=
  ∃ π, s.Chain z π k ∧ (∀ i < k, ∀ t ∈ assumed, t.TrueIn z (π i)) ∧ ¬ p.TrueIn z (π k)

theorem not_violates_of_induction {p : Term} {assumed : List Term} {k : Nat}
    (hassumed : ∀ t ∈ assumed, t = p ∨ s.Invariant z t)
    (base : ∀ n < k, ¬ s.Violates z p n) (step : ¬ s.Escapes z assumed p k) (n : Nat) :
    ¬ s.Violates z p n := by
  induction n using Nat.strongRecOn with
  | ind n ih =>
    by_cases hn : n < k
    · exact base n hn
    rintro ⟨π, hπ, hp⟩
    -- the last states of the execution are a chain for the induction step
    apply step
    refine ⟨fun i => π (n - k + i), fun i hi => ?_, fun i hi t ht => ?_, ?_⟩
    · simpa only [Nat.add_assoc] using hπ.chain (n - k + i) (by omega)
    · have hearlier : n - k + i < n := by omega
      rcases hassumed t ht with rfl | hinv
      · refine Classical.byContradiction fun hfalse => ?_
        exact ih _ hearlier ⟨π, hπ.mono (by omega), hfalse⟩
      · exact hinv.holds _ (hπ.reachable _ (by omega))
    · simpa only [show n - k + k = n by omega] using hp

theorem invariant_of_not_violates {p : Term} (steps : ∀ r ∈ p.refs, r.step = 0)
    (h : ∀ n, ¬ s.Violates z p n) : s.Invariant z p :=
  ⟨steps, reachable_true_iff.mpr h⟩

end InvariantProver.TransitionSystem
