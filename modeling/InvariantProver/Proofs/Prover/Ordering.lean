import InvariantProver.Proofs.Prover.Saying
import Mathlib.Data.List.Basic
import Mathlib.Data.List.Forall2

/-!
The order of properties in an attempt. Two attempts on the same properties in different orders, over
sessions that speak for the same oracles, go through the same rounds: they have the same proofs in the
same order whenever a round begins, ask the same about each property, and come to the same results.
-/

namespace InvariantProver

open Session Engine

def Act.query (ts : List Term) : List Act := push :: (ts.map assert ++ [check, pop])

section

variable {σ : Type} [Backend σ] {s : TransitionSystem} {e e' : Engine σ} {hypotheses : List Term} {k : Nat}

def InductionStep.asks (s : TransitionSystem) (hypotheses : List Term) (k : Nat) (name : String) :
    List Term :=
  match s.property name with
  | .ok p => Task.step.terms hypotheses p k
  | .error _ => []

theorem InductionStep.checkAll_asks {names : List String} {os : Entries String (Outcome Unit)}
    (hsystem : e.system = s) (hplaced : e.placed = k + 1)
    (hnames : ∀ name ∈ names, ∃ p, s.property name = .ok p)
    (hhypotheses : ∀ t ∈ hypotheses, ∃ name, s.property name = .ok t)
    (hs : outcome (checkAll hypotheses names) e = (.ok os, e')) :
    e'.session = e.session.converse (names.flatMap fun name => Act.query (asks s hypotheses k name)) := by
  obtain ⟨-, asked, hasked, hsaid⟩ := checkAll_said hsystem hplaced hnames hhypotheses hs
  have hall : List.Forall₂ (fun name acts => Act.query (asks s hypotheses k name) = acts) names asked := by
    refine hasked.imp fun name acts hacts => ?_
    obtain ⟨p, ts, hp, hquestion, rfl⟩ := hacts
    unfold asks
    rw [hp]
    exact congrArg Act.query (Task.terms_eq hquestion)
  rw [← List.forall₂_map_left_iff, List.forall₂_eq_eq_eq] at hall
  rw [hsaid, List.flatMap_def, hall]

end

namespace Attempt

variable {σ : Type}

structure Shuffled (a b : Attempt σ) : Prop where
  pending : a.pending.Perm b.pending
  proved : a.proved = b.proved
  results : ∀ name, Entries.get? name a.results = Entries.get? name b.results

section

variable {a b : Attempt σ} {rs rs' : List ProofResult} {bs bs' : Entries String (Outcome Trace)}
  {os os' : Entries String (Outcome Unit)}

theorem Shuffled.finishAll (h : Shuffled a b) (hperm : rs.Perm rs')
    (hholds : rs.filter ProofResult.holds = rs'.filter ProofResult.holds)
    (hone : ∀ r ∈ rs, ∀ r' ∈ rs, r.property = r'.property → r = r') :
    Shuffled (a.finishAll rs) (b.finishAll rs') := by
  refine ⟨List.perm_iff_count.mpr fun name => ?_, ?_, fun name => ?_⟩
  · rw [count_pending_finishAll, count_pending_finishAll, h.pending.count_eq,
      (hperm.map ProofResult.property).count_eq]
  · rw [proved_finishAll, proved_finishAll, h.proved, hholds]
  · rcases get?_results_finishAll rs a name with ⟨hnone, hsame⟩ | ⟨r, hr, hname, hsome⟩
    · rcases get?_results_finishAll rs' b name with ⟨-, hsame'⟩ | ⟨r', hr', hname', -⟩
      · rw [hsame, hsame', h.results]
      · exact absurd hname' (hnone r' (hperm.mem_iff.mpr hr'))
    · rcases get?_results_finishAll rs' b name with ⟨hnone', -⟩ | ⟨r', hr', hname', hsome'⟩
      · exact absurd hname (hnone' r (hperm.mem_iff.mp hr))
      · rw [hsome, hsome', hone r hr r' (hperm.mem_iff.mpr hr') (hname.trans hname'.symm)]

theorem decisions_unique {r r' : ProofResult} (hr : r ∈ a.decisions bs os) (hr' : r' ∈ a.decisions bs os)
    (hname : r.property = r'.property) : r = r' := by
  obtain ⟨name, -, hdecision⟩ := mem_decisions_iff.mp hr
  obtain ⟨name', -, hdecision'⟩ := mem_decisions_iff.mp hr'
  rw [property_of_decision hdecision, property_of_decision hdecision'] at hname
  rw [hname, hdecision'] at hdecision
  exact (Option.some.inj hdecision).symm

theorem pairwise_holds_decisions :
    ((a.decisions bs os).filter ProofResult.holds).Pairwise fun r s => r.property ≤ s.property := by
  rw [decisions_eq, List.filter_append, List.filter_filter]
  have hnone : ∀ rs : List ProofResult,
      rs.filter (fun r => r.holds && (not ∘ ProofResult.holds) r) = [] := by simp
  rw [hnone, List.nil_append]
  refine List.Pairwise.filter _ ?_
  refine (List.pairwise_mergeSort (fun r s t hrs hst => ?_) (fun r s => ?_) _).imp of_decide_eq_true
  · exact decide_eq_true (String.le_trans (of_decide_eq_true hrs) (of_decide_eq_true hst))
  · simpa using String.le_total r.property s.property

theorem Shuffled.decideRound (h : Shuffled a b)
    (hsame : ∀ name ∈ a.pending, a.decision bs os name = b.decision bs' os' name) :
    Shuffled (a.decideRound bs os) (b.decideRound bs' os') := by
  have hperm : (a.decisions bs os).Perm (b.decisions bs' os') := by
    refine decisions_perm.trans (.trans ?_ decisions_perm.symm)
    rw [List.filterMap_congr hsame]
    exact h.pending.filterMap _
  have hwarned : Shuffled { a with warnings := a.warnings ++ a.replayWarnings bs }
      { b with warnings := b.warnings ++ b.replayWarnings bs' } := ⟨h.pending, h.proved, h.results⟩
  refine hwarned.finishAll hperm ?_ fun r hr r' hr' => decisions_unique hr hr'
  refine List.Perm.eq_of_pairwise (fun r r' hr hr' hle hge => ?_) pairwise_holds_decisions
    pairwise_holds_decisions (hperm.filter _)
  exact decisions_unique (List.mem_filter.mp hr).1 (hperm.mem_iff.mpr (List.mem_filter.mp hr').1)
    (String.le_antisymm hle hge)

theorem Shuffled.giveUp (h : Shuffled a b)
    (hsolver : a.engines.base.session.name = b.engines.base.session.name) (reason : String) (depth : Int) :
    Shuffled (a.giveUp reason depth) (b.giveUp reason depth) := by
  unfold Attempt.giveUp
  rw [← hsolver]
  refine h.finishAll (h.pending.map _) ?_ fun r hr r' hr' hname => ?_
  · rw [filter_holds_unknown, filter_holds_unknown]
  · obtain ⟨name, -, rfl⟩ := List.mem_map.mp hr
    obtain ⟨name', -, rfl⟩ := List.mem_map.mp hr'
    obtain rfl : name = name' := hname
    rfl

end

variable [Backend σ] {oracles : Task → Oracle} {sessions : Task → Session σ} {s : TransitionSystem}
  {c : Config} {names names' : List String} {n fuel : Nat} {a b : Attempt σ}

structure SameRound (sessions : Task → Session σ) (s : TransitionSystem) (c : Config)
    (names names' : List String) (n : Nat) (a b : Attempt σ) : Prop where
  left : Deciding sessions s c names n a
  right : Deciding sessions s c names' n b
  shuffled : Shuffled a b

theorem SameRound.lemmas (h : SameRound sessions s c names names' n a b) : a.lemmas = b.lemmas := by
  unfold Attempt.lemmas
  rw [h.left.system, h.right.system, h.left.config, h.right.config, h.shuffled.proved]

section

variable (hs : ∀ task, Speaks (oracles task) (sessions task))
  (hknown : ∀ name ∈ names, ∃ p, s.property name = .ok p)
  (hknown' : ∀ name ∈ names', ∃ p, s.property name = .ok p)
include hs hknown hknown'

theorem SameRound.round (h : SameRound sessions s c names names' n a b) :
    ∃ finished m a' b', outcome Attempt.round a = (.ok finished, a') ∧
      outcome Attempt.round b = (.ok finished, b') ∧ SameRound sessions s c names names' m a' b' ∧
      (finished = false → m = n + 1) := by
  have hw (task : Task) : Willing (sessions task) := (hs task).toWilling
  obtain ⟨bs, os, engines, hchecks, -, hleft, hall⟩ := h.left.checks_forecast hs hknown
  obtain ⟨bs', os', engines', hchecks', -, hright, hall'⟩ := h.right.checks_forecast hs hknown'
  rw [h.left.round_of_checks (hw .base) (hw .step) hchecks hleft,
    h.right.round_of_checks (hw .base) (hw .step) hchecks' hright]
  have hshuffled : Shuffled { a with engines := engines } { b with engines := engines' } :=
    ⟨h.shuffled.pending, h.shuffled.proved, h.shuffled.results⟩
  have hsame : ∀ name ∈ a.pending, decision { a with engines := engines } bs os name =
      decision { b with engines := engines' } bs' os' name := by
    intro name hname
    obtain ⟨p, hp⟩ := hknown name (h.left.pending name hname)
    obtain ⟨hb, ho⟩ := hall name hname p hp
    obtain ⟨hb', ho'⟩ := hall' name (h.shuffled.pending.mem_iff.mp hname) p hp
    rw [← h.lemmas] at ho'
    have hbase : engines.base.session.name = engines'.base.session.name :=
      hleft.base.1.name.trans hright.base.1.name.symm
    have hstep : engines.step.session.name = engines'.step.session.name :=
      hleft.step.1.name.trans hright.step.1.name.symm
    simp only [decision, hb, ho, hb', ho', Option.bind_eq_bind, Option.bind_some]
    unfold decide?
    rw [hbase, hstep]
  have hnext : SameRound sessions s c names names' n
      (Attempt.decideRound bs os { a with engines := engines })
      (Attempt.decideRound bs' os' { b with engines := engines' }) :=
    ⟨hleft.decideRound bs os, hright.decideRound bs' os', hshuffled.decideRound hsame⟩
  generalize Attempt.decideRound bs os { a with engines := engines } = a₁ at hnext
  generalize Attempt.decideRound bs' os' { b with engines := engines' } = b₁ at hnext
  have hempty : a₁.pending = [] ↔ b₁.pending = [] := by
    rw [← List.length_eq_zero_iff, hnext.shuffled.pending.length_eq, List.length_eq_zero_iff]
  rcases hnext.left.concludes (hw .base) (hw .step) with
    ⟨hnil, ha⟩ | ⟨hopen, hlast, ha⟩ | ⟨hopen, hgoing, engines₁, ha, hleft₁⟩
  · rcases hnext.right.concludes (hw .base) (hw .step) with ⟨-, hb⟩ | ⟨hopen, -⟩ | ⟨hopen, -⟩
    · exact ⟨true, n, _, _, ha, hb, hnext, by simp⟩
    · exact absurd (hempty.mp hnil) hopen
    · exact absurd (hempty.mp hnil) hopen
  · rcases hnext.right.concludes (hw .base) (hw .step) with ⟨hnil, -⟩ | ⟨-, -, hb⟩ | ⟨-, hgoing, -⟩
    · exact absurd (hempty.mpr hnil) hopen
    · refine ⟨true, n, _, _, ha, hb, ⟨hnext.left.giveUp, hnext.right.giveUp, ?_⟩, by simp⟩
      exact hnext.shuffled.giveUp (hnext.left.base.1.name.trans hnext.right.base.1.name.symm) _ _
    · rw [hlast] at hgoing
      cases hgoing
  · rcases hnext.right.concludes (hw .base) (hw .step) with
      ⟨hnil, -⟩ | ⟨-, hlast, -⟩ | ⟨-, -, engines₂, hb, hright₁⟩
    · exact absurd (hempty.mpr hnil) hopen
    · rw [hlast] at hgoing
      cases hgoing
    · refine ⟨false, n + 1, _, _, ha, hb, ⟨hleft₁, hright₁, ?_⟩, fun _ => rfl⟩
      exact ⟨hnext.shuffled.pending, hnext.shuffled.proved, hnext.shuffled.results⟩

theorem SameRound.rounds (h : SameRound sessions s c names names' n a b) (fuel : Nat) :
    ∃ finished m a' b', outcome (Attempt.rounds fuel) a = (.ok finished, a') ∧
      outcome (Attempt.rounds fuel) b = (.ok finished, b') ∧ SameRound sessions s c names names' m a' b' := by
  induction fuel generalizing n a b with
  | zero => exact ⟨false, n, a, b, rfl, rfl, h⟩
  | succ fuel ih =>
    obtain ⟨finished, m, a₁, b₁, ha, hb, h₁, hm⟩ := h.round hs hknown hknown'
    unfold Attempt.rounds
    rw [outcome_bind_of_ok ha, outcome_bind_of_ok hb]
    cases finished with
    | true => exact ⟨true, m, a₁, b₁, rfl, rfl, h₁⟩
    | false => exact ih h₁

theorem SameRound.reaches {a' : Attempt σ} (h : SameRound sessions s c names names' 0 a b)
    (hreaches : Reaches a n a') : ∃ b', Reaches b n b' ∧ SameRound sessions s c names names' n a' b' := by
  induction hreaches with
  | start => exact ⟨b, .start, h⟩
  | @next n a₁ a₂ _ hround ih =>
    obtain ⟨b₁, hreaches, h₁⟩ := ih
    obtain ⟨finished, m, a₃, b₂, ha, hb, h₂, hm⟩ := h₁.round hs hknown hknown'
    obtain ⟨hfinished, rfl⟩ := Prod.mk.inj (hround.symm.trans ha)
    obtain rfl := Except.ok.inj hfinished
    obtain rfl := hm rfl
    exact ⟨b₂, .next hreaches hb, h₂⟩

end

theorem SameRound.begun (hw : ∀ task, Willing (sessions task)) (hperm : names.Perm names') :
    SameRound sessions s c names names' 0 ((new s c false sessions).begun names)
      ((new s c false sessions).begun names') := by
  obtain ⟨-, -, -, -, -, -, -, hleft, hbegun⟩ := begun_returns hw s c names
  obtain ⟨-, -, -, -, -, -, -, hright, hbegun'⟩ := begun_returns hw s c names'
  refine ⟨hleft, hright, ?_⟩
  rw [hbegun, hbegun']
  exact ⟨hperm, rfl, fun _ => rfl⟩

/-- What the induction step is asked in a round: each query is put, in a scope of its own, to a session
that has the assertions in force. -/
structure StepQueries (s₀ : Session σ) (inForce : List Term) (asks : String → List Term) (a : Attempt σ) :
    Prop where
  holding : Holding .unbroken s₀ inForce a.engines.step.session
  said : (outcome (InductionStep.checkAll a.lemmas a.pending) a.engines.step).2.session =
    a.engines.step.session.converse (a.pending.flatMap fun name => Act.query (asks name))

theorem Deciding.stepQueries (hs : ∀ task, Speaks (oracles task) (sessions task))
    (hknown : ∀ name ∈ names, ∃ p, s.property name = .ok p) (h : Deciding sessions s c names n a) :
    a.StepQueries (sessions .step) (Task.step.asserted s (n + 2)) (InductionStep.asks s a.lemmas (n + 1)) := by
  constructor
  · obtain ⟨⟨frames, scope, hcalm, hactive, -⟩, -⟩ := h.step.1
    exact ⟨frames, hcalm.opened, by rw [hactive, h.step.2]⟩
  · obtain ⟨-, os, engines, -, hos, -⟩ := h.checks_forecast hs hknown
    rw [hos]
    exact InductionStep.checkAll_asks h.step.1.system h.step.2
      (fun name hname => hknown name (h.pending name hname)) h.property_of_lemma hos

omit [Backend σ] in
theorem Shuffled.resultsFor (h : Shuffled a b) (hperm : names.Perm names') (name : String) :
    Entries.get? name (a.resultsFor names) = Entries.get? name (b.resultsFor names') := by
  rw [get?_resultsFor_eq, get?_resultsFor_eq, h.results]
  exact if_congr hperm.mem_iff rfl rfl

theorem report_of_run {results : Option (Entries String ProofResult)}
    (h : (outcome (run names fuel) a).1 = .ok results) (name : String) :
    a.report names fuel name = results.bind (Entries.get? name) := by
  unfold report
  rw [h]
  cases results <;> rfl

theorem report_eq_none (h : ∀ results, (outcome (run names fuel) a).1 ≠ .ok results) (name : String) :
    a.report names fuel name = none := by
  refine Option.eq_none_iff_forall_ne_some.mpr fun r hr => ?_
  obtain ⟨results, a', hs, -⟩ := report_eq_some.mp hr
  exact h _ (congrArg Prod.fst hs)

theorem run_shuffled (hs : ∀ task, Speaks (oracles task) (sessions task)) (hperm : names.Perm names')
    (hknown : ∀ name ∈ names, ∃ p, s.property name = .ok p) (fuel : Nat) :
    ∃ results results', (outcome (run names fuel) (new s c false sessions)).1 = .ok results ∧
      (outcome (run names' fuel) (new s c false sessions)).1 = .ok results' ∧
      results.isSome = results'.isSome ∧
      ∀ name, results.bind (Entries.get? name) = results'.bind (Entries.get? name) := by
  by_cases hempty : names = []
  · subst hempty
    obtain rfl := hperm.nil_eq
    exact ⟨some [], some [], rfl, rfl, rfl, fun _ => rfl⟩
  have hempty' : names' ≠ [] := fun h => hempty (List.perm_nil.mp (h ▸ hperm))
  have hknown' : ∀ name ∈ names', ∃ p, s.property name = .ok p :=
    fun name hname => hknown name (hperm.mem_iff.mpr hname)
  have hw (task : Task) : Willing (sessions task) := (hs task).toWilling
  obtain ⟨finished, m, a', b', ha, hb, hrounds⟩ := (SameRound.begun hw hperm).rounds hs hknown hknown' fuel
  refine ⟨_, _, run_of_rounds hw hempty hknown ha hrounds.left,
    run_of_rounds hw hempty' hknown' hb hrounds.right, ?_, fun name => ?_⟩
  · cases finished <;> rfl
  · cases finished with
    | true => exact hrounds.shuffled.resultsFor hperm name
    | false => rfl

/-- The order of the properties does not matter: an attempt returns in either order or in none, with
the same results, and each of its rounds asks the induction step the same about each property. -/
theorem order_irrelevant (hs : ∀ task, Speaks (oracles task) (sessions task)) (hperm : names.Perm names') :
    (∀ fuel,
      ((∃ results, (outcome (run names fuel) (new s c false sessions)).1 = .ok (some results)) ↔
        ∃ results, (outcome (run names' fuel) (new s c false sessions)).1 = .ok (some results)) ∧
      ∀ name, (new s c false sessions).report names fuel name =
        (new s c false sessions).report names' fuel name) ∧
    ((∀ name ∈ names, ∃ p, s.property name = .ok p) → ∀ n a,
      Reaches ((new s c false sessions).begun names) n a →
        ∃ b, Reaches ((new s c false sessions).begun names') n b ∧ a.pending.Perm b.pending ∧
          ∃ inForce asks, a.StepQueries (sessions .step) inForce asks ∧
            b.StepQueries (sessions .step) inForce asks) := by
  refine ⟨fun fuel => ?_, fun hknown n a hreaches => ?_⟩
  · by_cases hknown : ∀ name ∈ names, ∃ p, s.property name = .ok p
    · obtain ⟨results, results', hrun, hrun', hreturns, hsame⟩ := run_shuffled (c := c) hs hperm hknown fuel
      refine ⟨?_, fun name => by rw [report_of_run hrun, report_of_run hrun', hsame]⟩
      rw [hrun, hrun']
      cases results <;> cases results' <;> simp_all
    · -- an unknown name is refused wherever it stands
      have hfails : ∀ results, (outcome (run names fuel) (new s c false sessions)).1 ≠ .ok results :=
        fun _ h => hknown (known_of_run h)
      have hfails' : ∀ results, (outcome (run names' fuel) (new s c false sessions)).1 ≠ .ok results :=
        fun _ h => hknown fun name hname => known_of_run h name (hperm.mem_iff.mp hname)
      refine ⟨⟨?_, ?_⟩, fun name => by rw [report_eq_none hfails, report_eq_none hfails']⟩
      · rintro ⟨results, h⟩
        exact absurd h (hfails _)
      · rintro ⟨results, h⟩
        exact absurd h (hfails' _)
  · have hknown' : ∀ name ∈ names', ∃ p, s.property name = .ok p :=
      fun name hname => hknown name (hperm.mem_iff.mpr hname)
    obtain ⟨b, hreaches', h⟩ :=
      (SameRound.begun (fun task => (hs task).toWilling) hperm).reaches hs hknown hknown' hreaches
    refine ⟨b, hreaches', h.shuffled.pending, _, _, h.left.stepQueries hs hknown, ?_⟩
    rw [h.lemmas]
    exact h.right.stepQueries hs hknown'

theorem second_flag_proved_either_way :
    ∃ r b, (new flags ⟨{}, rfl⟩ false exhaustiveSessions).report ["second", "first"] 2 "second" = some r ∧
      (new flags ⟨{}, rfl⟩ false exhaustiveSessions).report ["first", "second"] 2 "second" = some r ∧
      r.depth = 2 ∧
      Reaches ((new flags ⟨{}, rfl⟩ false exhaustiveSessions).begun ["first", "second"]) 1 b ∧
      ∃ inForce asks, b.StepQueries (exhaustiveSessions .step) inForce asks := by
  have hreport : ((new flags ⟨{}, rfl⟩ false exhaustiveSessions).report ["second", "first"] 2
      "second").any (fun r => r.depth = 2) = true := by decide +kernel
  have hround : ((outcome Attempt.round
      ((new flags ⟨{}, rfl⟩ false exhaustiveSessions).begun ["second", "first"])).1.toOption.any not) =
        true := by decide +kernel
  obtain ⟨r, hr, hdepth⟩ := (Option.any_eq_true _ _).mp hreport
  have hknown : ∀ name ∈ ["second", "first"], ∃ p, flags.property name = .ok p := by
    intro name hname
    rcases List.mem_cons.mp hname with rfl | hname
    · exact ⟨_, rfl⟩
    · obtain rfl := List.mem_singleton.mp hname
      exact ⟨_, rfl⟩
  obtain ⟨hreturns, hrounds⟩ := order_irrelevant (c := ⟨{}, rfl⟩) speaks_exhaustiveSessions
    (List.Perm.swap "first" "second" [])
  rcases hgoes : outcome Attempt.round
      ((new flags ⟨{}, rfl⟩ false exhaustiveSessions).begun ["second", "first"]) with ⟨error | _ | _, a⟩
  · rw [hgoes] at hround
    cases hround
  · obtain ⟨b, hreaches, -, inForce, asks, -, hqueries⟩ := hrounds hknown 1 a (.next .start hgoes)
    refine ⟨r, b, hr, ?_, of_decide_eq_true hdepth, hreaches, inForce, asks, hqueries⟩
    rw [← (hreturns 2).2 "second", hr]
  · rw [hgoes] at hround
    cases hround

end Attempt

end InvariantProver
