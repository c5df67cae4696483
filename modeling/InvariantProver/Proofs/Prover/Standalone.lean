import InvariantProver.Proofs.Prover.Calls
import InvariantProver.Proofs.Prover.Soundness

namespace InvariantProver.InductionStep

open Session Engine Engines

variable {σ : Type}

theorem finding_of_verdict? {name : String} {b t : Engine σ} {bound : Option Int} {o : Outcome Unit}
    {r : ProofResult} (h : verdict? name b t bound o = some r) (hproved : r.verdict = .proved) :
    o.finding = .nothing := by
  unfold verdict? at h
  cases hfinding : o.finding with
  | nothing => rfl
  | unknown reason =>
    rw [hfinding] at h
    obtain rfl := Option.some.inj h
    cases hproved
  | found w =>
    rw [hfinding] at h
    dsimp only at h
    split at h
    · obtain rfl := Option.some.inj h
      cases hproved
    · cases h

variable [Backend σ] {z : ZeroReading} {course : Course} {base step : Session σ}
  {s : TransitionSystem} {name : String} {bound : Option Int} {hypotheses : List Term} {fuel n : Nat}
  {e e' : Engines σ} {r : ProofResult}

theorem aligned_of_depths (h : e.Working course base step s) (hdepths : e.base.depth = e.step.depth - 1) :
    ∃ n, Aligned course base step s n e := by
  obtain ⟨⟨hbase, hbasePlaced⟩, hstep, hstepPlaced⟩ := h
  unfold Engine.depth at hdepths
  refine ⟨e.base.placed - 1, ⟨hbase, ?_⟩, hstep, ?_⟩
  · omega
  · omega

def Rests (z : ZeroReading) (s : TransitionSystem) (hypotheses : List Term) (p : Term) (n : Nat) :
    Prop :=
  ∃ k, (∀ m, n ≤ m → m < k → ¬ s.Violates z p m) ∧
    ¬ s.Escapes z (p :: hypotheses.filter (· ≠ p)) p k

theorem loop_cases (hs : outcome (loop name bound hypotheses (fuel + 1)) e = (.ok (some r), e')) :
    ∃ b e₁, outcome (onBase (BaseCase.check name)) e = (.ok b, e₁) ∧
      ((∃ t, b.finding = .found t ∧ r = .falsified name t e₁.base.session.name) ∨
        (∃ reason, b.finding = .unknown reason ∧
          r = .unknown name reason (e₁.base.depth - 1) e₁.base.session.name) ∨
        b.finding = .nothing ∧ ∃ o e₂, outcome (onStep (check hypotheses name)) e₁ = (.ok o, e₂) ∧
          (verdict? name e₁.base e₂.step bound o = some r ∨
            verdict? name e₁.base e₂.step bound o = none ∧ ∃ e₃, outcome advanceBoth e₂ = (.ok (), e₃) ∧
              outcome (loop name bound hypotheses fuel) e₃ = (.ok (some r), e'))) := by
  unfold loop at hs
  obtain ⟨b, e₁, hb, hs⟩ := outcome_bind_ok.mp hs
  refine ⟨b, e₁, hb, ?_⟩
  rw [outcome_bind_of_ok (outcome_get _)] at hs
  cases hfinding : b.finding with
  | found t =>
    rw [hfinding] at hs
    obtain ⟨hr, -⟩ := outcome_pure_ok.mp hs
    exact .inl ⟨t, rfl, (Option.some.inj hr).symm⟩
  | unknown reason =>
    rw [hfinding] at hs
    obtain ⟨hr, -⟩ := outcome_pure_ok.mp hs
    exact .inr (.inl ⟨reason, rfl, (Option.some.inj hr).symm⟩)
  | nothing =>
    rw [hfinding] at hs
    obtain ⟨o, e₂, ho, hs⟩ := outcome_bind_ok.mp hs
    refine .inr (.inr ⟨rfl, o, e₂, ho, ?_⟩)
    rw [outcome_bind_of_ok (outcome_get _)] at hs
    cases hverdict : verdict? name e₁.base e₂.step bound o with
    | some r' =>
      rw [hverdict] at hs
      obtain ⟨hr, -⟩ := outcome_pure_ok.mp hs
      exact .inl hr
    | none =>
      rw [hverdict] at hs
      obtain ⟨⟨⟩, e₃, hadvance, hs⟩ := outcome_bind_ok.mp hs
      exact .inr ⟨rfl, e₃, hadvance, hs⟩

theorem rests_of_loop (hbase : Truthful course z base) (hstep : Truthful course z step)
    (hsteps : ∀ t ∈ hypotheses, ∀ r ∈ t.refs, r.step = 0) (h : Aligned course base step s n e)
    (hs : outcome (loop name bound hypotheses fuel) e = (.ok (some r), e'))
    (hproved : r.verdict = .proved) :
    ∃ p, s.property name = .ok p ∧ Rests z s hypotheses p n := by
  -- a turn of the loop checks the depth where the engines stand, the rest those after it
  induction fuel generalizing e n with
  | zero =>
    obtain ⟨hr, -⟩ := outcome_pure_ok.mp hs
    cases hr
  | succ fuel ih =>
    obtain ⟨b, e₁, hb, ⟨t, -, rfl⟩ | ⟨reason, -, rfl⟩ | ⟨hfinding, o, e₂, ho, hrest⟩⟩ := loop_cases hs
    · cases hproved
    · cases hproved
    obtain ⟨h₁, p, hp, -, hclear⟩ := h.check_base hbase hb
    rw [hfinding] at hclear
    obtain ⟨h₂, p', hp', -, hescapes⟩ := h₁.check_step hstep hsteps ho
    obtain rfl := Except.ok.inj (hp.symm.trans hp')
    rcases hrest with hverdict | ⟨-, e₃, hadvance, hs⟩
    · refine ⟨p, hp, n + 1, fun m hle hlt => ?_, hescapes (finding_of_verdict? hverdict hproved)⟩
      obtain rfl : m = n := by omega
      exact hclear
    · obtain ⟨⟨⟩, e₄, hadvanceBase, hadvanceStep⟩ := outcome_bind_ok.mp hadvance
      obtain ⟨b', hb', rfl⟩ := onBase_eq hadvanceBase
      obtain ⟨t', ht', rfl⟩ := onStep_eq hadvanceStep
      have h₃ := h₂.advance hbase.scopes hstep.scopes hb' ht'
      obtain ⟨p', hp', k, hclear', hk⟩ := ih h₃ hs
      obtain rfl := Except.ok.inj (hp.symm.trans hp')
      refine ⟨p, hp, k, fun m hle hlt => ?_, hk⟩
      rcases Nat.eq_or_lt_of_le hle with rfl | hlater
      · exact hclear
      · exact hclear' m hlater hlt

theorem run_eq_ok (hs : outcome (run name bound hypotheses fuel) e = (.ok (some r), e')) :
    e.base.depth = e.step.depth - 1 ∧
      outcome (loop name bound hypotheses fuel) e = (.ok (some r), e') := by
  unfold run at hs
  obtain ⟨p, e₁, hproperty, hs⟩ := outcome_bind_ok.mp hs
  obtain ⟨base₁, hp, rfl⟩ := onBase_eq hproperty
  obtain ⟨-, rfl⟩ := property_eq_ok.mp hp
  rw [outcome_bind_of_ok (outcome_get _)] at hs
  split at hs
  · obtain ⟨u, e₂, hthrow, -⟩ := outcome_bind_ok.mp hs
    cases hthrow
  · next hdepths => exact ⟨Decidable.not_not.mp hdepths, hs⟩

theorem rests_of_run (hbase : Truthful course z base) (hstep : Truthful course z step)
    (hsteps : ∀ t ∈ hypotheses, ∀ r ∈ t.refs, r.step = 0) (h : e.Working course base step s)
    (hs : outcome (run name bound hypotheses fuel) e = (.ok (some r), e'))
    (hproved : r.verdict = .proved) :
    ∃ p n, s.property name = .ok p ∧ e.base.depth = (n : Nat) ∧ Rests z s hypotheses p n := by
  obtain ⟨hdepths, hloop⟩ := run_eq_ok hs
  obtain ⟨n, haligned⟩ := aligned_of_depths h hdepths
  obtain ⟨p, hp, hrests⟩ := rests_of_loop hbase hstep hsteps haligned hloop hproved
  exact ⟨p, n, hp, haligned.depth, hrests⟩

theorem Rests.reachable_iff {p : Term} (h : Rests z s hypotheses p n)
    (hhypotheses : ∀ t ∈ hypotheses, s.Invariant z t) :
    (∀ x, s.Reachable z x → p.TrueIn z x) ↔ ∀ m < n, ¬ s.Violates z p m := by
  obtain ⟨k, hclear, hescapes⟩ := h
  rw [TransitionSystem.reachable_true_iff]
  constructor
  · intro hnever m _
    exact hnever m
  · intro hbefore
    refine TransitionSystem.not_violates_of_induction (fun t ht => ?_) (fun m hm => ?_) hescapes
    · rcases List.mem_cons.mp ht with rfl | ht
      · exact .inl rfl
      · exact .inr (hhypotheses t (List.mem_filter.mp ht).1)
    · by_cases hmn : m < n
      · exact hbefore m hmn
      · exact hclear m (by omega) hm

def Checked (e : Engines σ) (calls : List Call) (name : String) (n : Nat) : Prop :=
  ∃ earlier names later outcomes o e', calls = earlier ++ .checkBase names :: later ∧
    (e.after earlier).base.depth = n ∧
    outcome (BaseCase.checkAll names) (e.after earlier).base = (.ok outcomes, e') ∧
    Entries.get? name outcomes = some o ∧ o.finding = .nothing

theorem not_violates_of_checked {calls : List Call} (hbase : Truthful .any z base)
    (hstep : step.scopes = [[]]) (h : e.Working .any base step s) (hchecked : Checked e calls name n) :
    ∃ p, s.property name = .ok p ∧ ¬ s.Violates z p n := by
  obtain ⟨earlier, names, later, outcomes, o, e₁, -, hdepth, hs, ho, hnothing⟩ := hchecked
  have hworking := h.after hbase.scopes hstep earlier
  have hplaced : (e.after earlier).base.placed = n + 1 := by
    have hpositive := hworking.base.2
    unfold Engine.depth at hdepth
    omega
  obtain ⟨-, hsupports⟩ := BaseCase.supports_of_checkAll hbase ⟨hworking.base.1, hplaced⟩ hs
  obtain ⟨p, hp, -, hclear⟩ := hsupports name o ho
  rw [hnothing] at hclear
  exact ⟨p, hp, hclear⟩

section

variable (hbase : Truthful .any z base) (hstep : Truthful .any z step)
  (hstart : outcome Engines.start (Engines.new s base step) = (.ok (), e)) (calls : List Call)
  (hhypotheses : ∀ t ∈ hypotheses, s.Invariant z t)
  (hs : outcome (run name bound hypotheses fuel) (e.after calls) = (.ok (some r), e'))
  (hproved : r.verdict = .proved)
include hbase hstep hstart hhypotheses hs hproved

theorem rests_of_calls :
    ∃ p n, s.property name = .ok p ∧ (e.after calls).base.depth = (n : Nat) ∧
      Rests z s hypotheses p n := by
  have hworking : e.Working .any base step s :=
    working_start hbase.scopes hstep.scopes hbase.isOpen hstep.isOpen hstart
  have hworking' := hworking.after hbase.scopes hstep.scopes calls
  exact rests_of_run hbase hstep (fun t ht => (hhypotheses t ht).steps) hworking' hs hproved

theorem reachable_of_checked
    (hchecked : ∀ n : Nat, n < (e.after calls).base.depth → Checked e calls name n) :
    ∃ p, s.property name = .ok p ∧ ∀ x, s.Reachable z x → p.TrueIn z x := by
  obtain ⟨p, n, hp, hdepth, hrests⟩ := rests_of_calls hbase hstep hstart calls hhypotheses hs hproved
  have hworking : e.Working .any base step s :=
    working_start hbase.scopes hstep.scopes hbase.isOpen hstep.isOpen hstart
  refine ⟨p, hp, (hrests.reachable_iff hhypotheses).mpr fun m hm => ?_⟩
  obtain ⟨p', hp', hclear⟩ := not_violates_of_checked hbase hstep.scopes hworking (hchecked m (by omega))
  obtain rfl := Except.ok.inj (hp.symm.trans hp')
  exact hclear

/-- After any calls, a property that is proved is true in all states that can be reached exactly if
it is not violated at a depth before that of the base case. -/
theorem reachable_iff_of_proved :
    ∃ p, s.property name = .ok p ∧ ((∀ x, s.Reachable z x → p.TrueIn z x) ↔
      ∀ n : Nat, n < (e.after calls).base.depth → ¬ s.Violates z p n) := by
  obtain ⟨p, n, hp, hdepth, hrests⟩ := rests_of_calls hbase hstep hstart calls hhypotheses hs hproved
  refine ⟨p, hp, ?_⟩
  rw [hrests.reachable_iff hhypotheses, hdepth]
  constructor
  · intro h m hm
    exact h m (by omega)
  · intro h m hm
    exact h m (by omega)

end

def proves (m : EnginesM σ (Option ProofResult)) (e : Engines σ) : Bool :=
  match (outcome m e).1 with
  | .ok (some r) => r.holds
  | _ => false

omit [Backend σ] in
theorem proves_iff {m : EnginesM σ (Option ProofResult)} :
    proves m e = true ↔ ∃ r e', outcome m e = (.ok (some r), e') ∧ r.verdict = .proved := by
  unfold proves
  rcases outcome m e with ⟨_ | _ | r, e'⟩
  · simp
  · simp
  · simp [ProofResult.holds_iff]

section

open Attempt

def exhaustiveEngines (s : TransitionSystem) : Engines Memory :=
  (outcome Engines.start (Engines.new s (exhaustiveSessions .base) (exhaustiveSessions .step))).2

theorem start_exhaustiveEngines {s : TransitionSystem}
    (h : (outcome Engines.start
      (Engines.new s (exhaustiveSessions .base) (exhaustiveSessions .step))).1.isOk = true) :
    outcome Engines.start (Engines.new s (exhaustiveSessions .base) (exhaustiveSessions .step)) =
      (.ok (), exhaustiveEngines s) := outcome_of_isOk h

theorem second_flag_after_first :
    (∀ x, flags.Reachable zeroReading x → (flag "first" 0).TrueIn zeroReading x) ∧
      ((∀ x, flags.Reachable zeroReading x → (flag "second" 0).TrueIn zeroReading x) ↔
        ¬ flags.Violates zeroReading (flag "second" 0) 0) := by
  have hstart := start_exhaustiveEngines (s := flags) (by decide +kernel)
  have hfirst : proves (run "first" none [] 1) (exhaustiveEngines flags) = true := by decide +kernel
  obtain ⟨r, e, hr, hproved⟩ := proves_iff.mp hfirst
  obtain ⟨p, hp, hiff⟩ := reachable_iff_of_proved (truthful_exhaustiveSessions .base)
    (truthful_exhaustiveSessions .step) hstart [] (by simp) hr hproved
  obtain rfl : flag "first" 0 = p := Except.ok.inj hp
  have hinvariant : flags.Invariant zeroReading (flag "first" 0) := by
    refine ⟨fun r hr => (TransitionSystem.refs_property hp r hr).2, hiff.mpr fun n hn => ?_⟩
    have hdepth : (Engines.after (exhaustiveEngines flags) []).base.depth = 0 := by decide +kernel
    omega
  have hsecond : proves (run "second" none [flag "first" 0] 1) ((exhaustiveEngines flags).after
      [.run "first" none [] 1, .advanceBase, .advanceStep]) = true := by decide +kernel
  obtain ⟨r', e', hr', hproved'⟩ := proves_iff.mp hsecond
  obtain ⟨q, hq, hiff'⟩ := reachable_iff_of_proved (truthful_exhaustiveSessions .base)
    (truthful_exhaustiveSessions .step) hstart [.run "first" none [] 1, .advanceBase, .advanceStep]
    (by simpa using hinvariant) hr' hproved'
  obtain rfl : flag "second" 0 = q := Except.ok.inj hq
  have hdepth' : ((exhaustiveEngines flags).after
      [.run "first" none [] 1, .advanceBase, .advanceStep]).base.depth = 1 := by decide +kernel
  rw [hdepth'] at hiff'
  refine ⟨hinvariant.holds, hiff'.trans ⟨fun h => h 0 (by omega), fun h n hn => ?_⟩⟩
  obtain rfl : n = 0 := by omega
  exact h

/-- A flag that is down at first and up from then on. -/
def latch : TransitionSystem where
  «variables» := [⟨"up", .bool, .state⟩]
  init := .app .not [flag "up" 0]
  trans := flag "up" 1
  properties := [("up", flag "up" 0)]
  name := "latch"
  valid := rfl

def allDown : State := (Assignment.ofTruths []).stateAt 0

/-- A run that starts after a step without checks proves that the flag is always up, but it is not. -/
theorem latch_proved :
    Truthful .any zeroReading (exhaustiveSessions .base) ∧
      Truthful .any zeroReading (exhaustiveSessions .step) ∧ ∃ e r e' p x,
        outcome Engines.start (Engines.new latch (exhaustiveSessions .base) (exhaustiveSessions .step)) =
          (.ok (), e) ∧
        outcome (run "up" none [] 1) (e.after [.advanceBase, .advanceStep]) = (.ok (some r), e') ∧
        r.verdict = .proved ∧ latch.property "up" = .ok p ∧ latch.Reachable zeroReading x ∧
        ¬ p.TrueIn zeroReading x := by
  have hproves : proves (run "up" none [] 1)
      ((exhaustiveEngines latch).after [.advanceBase, .advanceStep]) = true := by decide +kernel
  obtain ⟨r, e', hr, hproved⟩ := proves_iff.mp hproves
  refine ⟨truthful_exhaustiveSessions .base, truthful_exhaustiveSessions .step, exhaustiveEngines latch,
    r, e', flag "up" 0, allDown, start_exhaustiveEngines (by decide +kernel), hr, hproved, rfl, ?_, ?_⟩
  · refine .initial ?_
    unfold TransitionSystem.Initial Term.TrueIn Term.Holds
    decide +kernel
  · unfold Term.TrueIn Term.Holds
    decide +kernel

end

end InvariantProver.InductionStep
