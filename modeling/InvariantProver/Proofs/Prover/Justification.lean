import InvariantProver.Proofs.Prover.Checks
import InvariantProver.Proofs.Prover.Finishing

namespace InvariantProver

open Session

/-- What a system has to be like for a result. The trace of a counterexample is a record of an
execution only if the values it was made of are exact. -/
def ProofResult.Justified (z : ZeroReading) (s : TransitionSystem) (exact : Prop) (r : ProofResult) :
    Prop :=
  ∃ p, s.property r.property = .ok p ∧
    match r.verdict with
    | .proved => s.Invariant z p
    | .falsified t => ∃ d : Nat, r.depth = d ∧ (∀ n < d, ¬ s.Violates z p n) ∧
        (exact → ∃ π, s.Execution z π d ∧ ¬ p.TrueIn z (π d) ∧ t.Records s π d)
    | .unknown _ => ∀ n : Nat, n ≤ r.depth → ¬ s.Violates z p n

theorem ProofResult.holds_iff {r : ProofResult} : r.holds = true ↔ r.verdict = .proved := by
  unfold holds
  cases r.verdict <;> simp

theorem ProofResult.isFalsified_iff {r : ProofResult} :
    r.isFalsified = true ↔ ∃ t, r.verdict = .falsified t := by
  unfold isFalsified
  cases r.verdict <;> simp

theorem ProofResult.isUnknown_iff {r : ProofResult} :
    r.isUnknown = true ↔ ∃ reason, r.verdict = .unknown reason := by
  unfold isUnknown
  cases r.verdict <;> simp

section

variable {name reason solver : String} {depth : Int}

@[simp] theorem ProofResult.isCancelled_falsified (trace : Trace) :
    (falsified name trace solver).isCancelled = false := rfl

@[simp] theorem ProofResult.isCancelled_proved : (proved name depth solver).isCancelled = false := rfl

@[simp] theorem ProofResult.isCancelled_unknown_iff :
    (unknown name reason depth solver).isCancelled = true ↔ reason = cancelledReason := by
  simp [isCancelled, unknown]

@[simp] theorem ProofResult.isCancelled_exhausted :
    (unknown name depthExhaustedReason depth solver).isCancelled = false := by
  rw [← Bool.not_eq_true, isCancelled_unknown_iff]
  decide

end

namespace Attempt

variable {σ : Type}

def Clear (z : ZeroReading) (s : TransitionSystem) (n : Nat) (name : String) : Prop :=
  ∃ p, s.property name = .ok p ∧ ∀ m < n, ¬ s.Violates z p m

structure Sound (z : ZeroReading) (s : TransitionSystem) (exact : Prop) (n : Nat) (a : Attempt σ) :
    Prop where
  pending : ∀ name ∈ a.pending, Clear z s n name
  results : ∀ name r, Entries.get? name a.results = some r → r.property = name ∧ r.Justified z s exact
  proved : ∀ name ∈ a.proved, ∃ p, s.property name = .ok p ∧ s.Invariant z p

section

variable {z : ZeroReading} {s : TransitionSystem} {exact : Prop} {n m : Nat} {a : Attempt σ}

theorem Sound.finishAll {rs : List ProofResult} (h : Sound z s exact n a)
    (hrs : ∀ r ∈ rs, r.Justified z s exact)
    (hpending : ∀ name ∈ (a.finishAll rs).pending, Clear z s m name) :
    Sound z s exact m (a.finishAll rs) := by
  refine ⟨hpending, fun name r hr => ?_, fun name hname => ?_⟩
  · rcases get?_results_finishAll rs a name with ⟨-, hsame⟩ | ⟨r', hr', hproperty, hsome⟩
    · exact h.results name r (hsame ▸ hr)
    · obtain rfl := Option.some.inj (hsome.symm.trans hr)
      exact ⟨hproperty, hrs r' hr'⟩
  · rcases mem_proved_finishAll hname with hold | ⟨r, hr, rfl, hholds⟩
    · exact h.proved name hold
    · obtain ⟨p, hp, hr⟩ := hrs r hr
      rw [ProofResult.holds_iff.mp hholds] at hr
      exact ⟨p, hp, hr⟩

theorem Sound.giveUp {reason : String} {depth : Int} (h : Sound z s exact n a) (hdepth : depth < n) :
    Sound z s exact n (a.giveUp reason depth) := by
  refine h.finishAll ?_ ?_
  · intro r hr
    obtain ⟨name, hname, rfl⟩ := List.mem_map.mp hr
    obtain ⟨p, hp, hclear⟩ := h.pending name hname
    refine ⟨p, hp, fun m hm => hclear m ?_⟩
    change (m : Int) ≤ depth at hm
    omega
  · intro name hname
    refine h.pending name (List.count_pos_iff.mp ?_)
    have hpos := List.count_pos_iff.mpr hname
    rw [count_pending_finishAll] at hpos
    omega

theorem Sound.lemmas (h : Sound z s exact n a) (hsystem : a.system = s) :
    ∀ t ∈ a.lemmas, s.Invariant z t := by
  intro t ht
  obtain ⟨name, hname, hproperty⟩ := property_of_mem_lemmas ht
  obtain ⟨p, hp, hinvariant⟩ := h.proved name hname
  rw [hsystem, hp] at hproperty
  obtain rfl := Except.ok.inj hproperty
  exact hinvariant

section

variable {base step : Engine σ} {b : Outcome Trace} {o : Outcome Unit} {hypotheses : List Term}
  {name : String} {r : ProofResult}

theorem justified_of_decide? (hclear : Clear z s n name) (hb : BaseCase.Supports z s exact n name b)
    (ho : InductionStep.Supports z s hypotheses (n + 1) name o)
    (hinvariant : ∀ t ∈ hypotheses, s.Invariant z t) (h : decide? name base step b o = some r) :
    r.Justified z s exact := by
  obtain ⟨p, hp, hclear⟩ := hclear
  obtain ⟨p', hp', hbdepth, hb⟩ := hb
  obtain rfl := Except.ok.inj (hp.symm.trans hp')
  obtain ⟨p', hp', hodepth, ho⟩ := ho
  obtain rfl := Except.ok.inj (hp.symm.trans hp')
  unfold decide? at h
  cases hbfinding : b.finding with
  | found t =>
    rw [hbfinding] at h hb
    obtain rfl := Option.some.inj h
    exact ⟨p, hp, n, hb.1, hclear, hb.2⟩
  | unknown reason =>
    rw [hbfinding] at h
    obtain rfl := Option.some.inj h
    refine ⟨p, hp, fun m hm => hclear m ?_⟩
    change (m : Int) ≤ b.depth - 1 at hm
    omega
  | nothing =>
    rw [hbfinding] at h hb
    have hthrough : ∀ m < n + 1, ¬ s.Violates z p m := by
      intro m hm
      by_cases hmn : m < n
      · exact hclear m hmn
      · obtain rfl : m = n := by omega
        exact hb
    cases hofinding : o.finding with
    | found w =>
      rw [hofinding] at h
      cases h
    | unknown reason =>
      rw [hofinding] at h
      obtain rfl := Option.some.inj h
      refine ⟨p, hp, fun m hm => hthrough m ?_⟩
      change (m : Int) ≤ b.depth at hm
      omega
    | nothing =>
      rw [hofinding] at h
      obtain rfl := Option.some.inj h
      have hsteps : ∀ r ∈ p.refs, r.step = 0 :=
        fun r hr => (TransitionSystem.refs_property hp r hr).2
      refine ⟨p, hp, TransitionSystem.invariant_of_not_violates hsteps ?_⟩
      refine TransitionSystem.not_violates_of_induction ?_ hthrough (ho hofinding)
      intro t ht
      rcases List.mem_cons.mp ht with rfl | ht
      · exact .inl rfl
      · exact .inr (hinvariant t (List.mem_filter.mp ht).1)

theorem clear_of_decide?_none (hclear : Clear z s n name) (hb : BaseCase.Supports z s exact n name b)
    (h : decide? name base step b o = none) : Clear z s (n + 1) name := by
  obtain ⟨p, hp, hclear⟩ := hclear
  obtain ⟨p', hp', -, hb⟩ := hb
  obtain rfl := Except.ok.inj (hp.symm.trans hp')
  refine ⟨p, hp, fun m hm => ?_⟩
  unfold decide? at h
  split at h
  · cases h
  · cases h
  · cases h
  · cases h
  · next hbfinding hofinding =>
    rw [hbfinding] at hb
    by_cases hmn : m < n
    · exact hclear m hmn
    · obtain rfl : m = n := by omega
      exact hb

theorem Sound.decideRound {bs : Entries String (Outcome Trace)} {os : Entries String (Outcome Unit)}
    (h : Sound z s exact n a) (hsystem : a.system = s)
    (hb : ∀ name ∈ a.pending, ∃ b, Entries.get? name bs = some b ∧ BaseCase.Supports z s exact n name b)
    (ho : ∀ name ∈ a.pending, ∃ o, Entries.get? name os = some o ∧
      InductionStep.Supports z s a.lemmas (n + 1) name o) :
    Sound z s exact (n + 1) (a.decideRound bs os) := by
  have hwarned : Sound z s exact n { a with warnings := a.warnings ++ a.replayWarnings bs } :=
    ⟨h.pending, h.results, h.proved⟩
  refine hwarned.finishAll (fun r hr => ?_) (fun name hname => ?_)
  · obtain ⟨name, hname, hdecision⟩ := mem_decisions_iff.mp hr
    obtain ⟨b, hget, hb⟩ := hb name hname
    obtain ⟨o, hget', ho⟩ := ho name hname
    simp only [decision, hget, hget', Option.bind_eq_bind, Option.bind_some] at hdecision
    exact justified_of_decide? (h.pending name hname) hb ho (h.lemmas hsystem) hdecision
  · obtain ⟨hname, hdecision⟩ := mem_pending_decideRound.mp hname
    obtain ⟨b, hget, hb⟩ := hb name hname
    obtain ⟨o, hget', -⟩ := ho name hname
    simp only [decision, hget, hget', Option.bind_eq_bind, Option.bind_some] at hdecision
    exact clear_of_decide?_none (h.pending name hname) hb hdecision

end

end

end Attempt

end InvariantProver
