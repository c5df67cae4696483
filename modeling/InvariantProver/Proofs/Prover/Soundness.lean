import InvariantProver.Proofs.Prover.Rounds
import InvariantProver.Proofs.Session.Exhaustion

namespace InvariantProver.Attempt

open Session Engine

variable {σ : Type}

section

variable {sessions : Task → Session σ} {s : TransitionSystem} {task : Task} {a a' : Attempt σ}

theorem forM_property_eq_ok {names : List String} {u : PUnit}
    (hs : outcome (names.forM fun name => do let _ ← onEngine .base (Engine.property name)) a =
      (.ok u, a')) :
    a' = a ∧ ∀ name ∈ names, ∃ p, a.engines.base.system.property name = .ok p := by
  induction names generalizing a with
  | nil =>
    obtain ⟨-, rfl⟩ := outcome_pure_ok.mp hs
    exact ⟨rfl, by simp⟩
  | cons name names ih =>
    obtain ⟨⟨⟩, a₁, hfirst, hrest⟩ := outcome_bind_ok.mp hs
    obtain ⟨p, a₂, hone, hpure⟩ := outcome_bind_ok.mp hfirst
    obtain ⟨-, rfl⟩ := outcome_pure_ok.mp hpure
    obtain ⟨e, hproperty, rfl⟩ := onEngine_eq_ok hone
    obtain ⟨hp, rfl⟩ := property_eq_ok.mp hproperty
    obtain ⟨rfl, hall⟩ := ih hrest
    refine ⟨rfl, fun name' hname => ?_⟩
    rcases List.mem_cons.mp hname with rfl | hname
    · exact ⟨p, hp⟩
    · exact hall name' hname

theorem get?_resultsFor {names : List String} {name : String} {r : ProofResult}
    (h : Entries.get? name (a.resultsFor names) = some r) : Entries.get? name a.results = some r := by
  obtain ⟨name', -, hmem⟩ := List.mem_filterMap.mp (Entries.mem_of_get?_ofList h)
  obtain ⟨r', hr', heq⟩ := Option.map_eq_some_iff.mp hmem
  obtain ⟨rfl, rfl⟩ := Prod.mk.inj heq
  exact hr'

variable [Backend σ]

theorem openSession_eq_ok (hopen : (sessions task).closed = false)
    (hnew : a.engines.get task = ⟨s, task, sessions task, 0⟩)
    (hs : outcome (openSession task) a = (.ok (), a')) :
    ∃ e, e.Standing .unbroken (sessions task) s task (· = 0) ∧
      a' = { a with engines := a.engines.set e task, opened := a.opened ++ [task] } := by
  rcases hstart : outcome Session.start (a.engines.get task).session with ⟨fault | ⟨⟩, t⟩
  · rw [outcome_openSession_error hstart] at hs
    cases hs
  · rw [outcome_openSession_ok hstart] at hs
    obtain ⟨-, rfl⟩ := Prod.mk.inj hs
    refine ⟨_, ?_, rfl⟩
    rw [hnew] at hstart ⊢
    have htalk : outcome (talk Session.start) ⟨s, task, sessions task, 0⟩ = (.ok (), ⟨s, task, t, 0⟩) := by
      rw [outcome_talk, hstart]
      rfl
    obtain ⟨hfollows, hplaced⟩ := Follows.start hopen htalk
    split
    · exact ⟨hfollows.interrupt 1, hplaced⟩
    · exact ⟨hfollows, hplaced⟩

theorem withSession_eq_ok {α : Type} {m : AttemptM σ α} {x : α}
    (hs : outcome (withSession task m) a = (.ok x, a')) :
    ∃ a₁ a₂, outcome (openSession task) a = (.ok (), a₁) ∧ outcome m a₁ = (.ok x, a₂) ∧
      a' = { a₂ with engines := a'.engines } := by
  obtain ⟨⟨⟩, a₁, hopened, hs⟩ := outcome_bind_ok.mp hs
  obtain ⟨a₂, hm, hclose⟩ := outcome_ensuring_ok.mp hs
  obtain ⟨e, -, rfl⟩ := onEngine_eq_ok hclose
  exact ⟨a₁, a₂, hopened, hm, rfl⟩

end

def report [Backend σ] (a : Attempt σ) (names : List String) (fuel : Nat) (name : String) :
    Option ProofResult :=
  match (outcome (run names fuel) a).1 with
  | .ok (some results) => Entries.get? name results
  | _ => none

section

variable [Backend σ] {z : ZeroReading} {s : TransitionSystem} {c : Config} {cancelled : Bool}
  {sessions : Task → Session σ} {names : List String} {fuel : Nat}
  {results : Entries String ProofResult} {name : String} {r : ProofResult}

theorem report_eq_some {a : Attempt σ} :
    a.report names fuel name = some r ↔
      ∃ results a', outcome (run names fuel) a = (.ok (some results), a') ∧
        Entries.get? name results = some r := by
  unfold report
  rcases outcome (run names fuel) a with ⟨_ | _ | results, a'⟩
  · simp
  · simp
  · simp

theorem run_eq_ok {a' : Attempt σ} (hbase : Truthful .unbroken z (sessions .base))
    (hstep : Truthful .unbroken z (sessions .step)) (hnames : names ≠ [])
    (hs : outcome (run names fuel) (new s c cancelled sessions) = (.ok (some results), a')) :
    (∀ name ∈ names, ∃ p, s.property name = .ok p) ∧
      ∃ a₁ a₂, Running sessions s 0 a₁ ∧ a₁.pending = names ∧ a₁.results = [] ∧ a₁.proved = [] ∧
        outcome (rounds fuel) a₁ = (.ok true, a₂) ∧ results = a₂.resultsFor names := by
  obtain ⟨⟨⟩, a₁, hproperties, hs⟩ := outcome_bind_ok.mp hs
  obtain ⟨rfl, hknown⟩ := forM_property_eq_ok hproperties
  have hnonempty : ¬ names.isEmpty = true := by simpa using hnames
  rw [outcome_ite, if_neg hnonempty, outcome_bind_of_ok (outcome_modify _ _)] at hs
  obtain ⟨finished, a₂, hsessions, hs⟩ := outcome_bind_ok.mp hs
  rw [outcome_bind_of_ok (outcome_get _)] at hs
  obtain ⟨hresults, rfl⟩ := outcome_pure_ok.mp hs
  split at hresults
  case isFalse => cases hresults
  next hfinished =>
  obtain rfl := Option.some.inj hresults
  rw [hfinished] at hsessions
  obtain ⟨a₃, a₄, hopenBase, hinner, ha₂⟩ := withSession_eq_ok hsessions
  obtain ⟨a₅, a₆, hopenStep, hbody, ha₄⟩ := withSession_eq_ok hinner
  obtain ⟨base₀, hbase₀, rfl⟩ := openSession_eq_ok (s := s) hbase.isOpen rfl hopenBase
  obtain ⟨step₀, hstep₀, rfl⟩ := openSession_eq_ok (s := s) hstep.isOpen rfl hopenStep
  obtain ⟨⟨⟩, a₇, hstartBase, hbody⟩ := outcome_bind_ok.mp hbody
  obtain ⟨⟨⟩, a₈, hstartStep, hrounds⟩ := outcome_bind_ok.mp hbody
  obtain ⟨base, hadvance, rfl⟩ := onEngine_eq_ok hstartBase
  obtain ⟨step, hstart, rfl⟩ := onEngine_eq_ok hstartStep
  obtain ⟨⟨⟩, step₁, hadvance₁, hadvance₂⟩ := outcome_bind_ok.mp hstart
  have hbaseNow := hbase₀.advance hbase.scopes hadvance
  have hstepNow := (hstep₀.advance hstep.scopes hadvance₁).advance hstep.scopes hadvance₂
  refine ⟨hknown, _, a₆, ⟨rfl, hbaseNow, hstepNow⟩, rfl, rfl, rfl, hrounds, ?_⟩
  rw [ha₂, ha₄]
  rfl

theorem justified_of_report (hbase : Truthful .unbroken z (sessions .base))
    (hstep : Truthful .unbroken z (sessions .step))
    (h : (new s c cancelled sessions).report names fuel name = some r) :
    r.property = name ∧ r.Justified z s (GivesModels .unbroken z (sessions .base)) := by
  obtain ⟨results, a', hs, hr⟩ := report_eq_some.mp h
  by_cases hnames : names = []
  · subst hnames
    obtain ⟨hresults, -⟩ := outcome_pure_ok.mp hs
    obtain rfl := Option.some.inj hresults
    cases hr
  obtain ⟨hknown, a₁, a₂, hrunning, hpending, hresults, hproved, hrounds, rfl⟩ :=
    run_eq_ok hbase hstep hnames hs
  have hsound : Sound z s (GivesModels .unbroken z (sessions .base)) 0 a₁ := by
    refine ⟨fun name hname => ?_, fun name r hr => ?_, fun name hname => ?_⟩
    · obtain ⟨p, hp⟩ := hknown name (hpending ▸ hname)
      exact ⟨p, hp, fun m hm => absurd hm (Nat.not_lt_zero m)⟩
    · rw [hresults] at hr
      cases hr
    · rw [hproved] at hname
      cases hname
  obtain ⟨m, hsound⟩ := hsound.rounds hbase hstep hrunning hrounds
  exact hsound.results name r (get?_resultsFor hr)

/-- A property that an attempt reports as proved is true in every state that can be reached, also if
its proof rests on properties that the attempt has proved before. -/
theorem reachable_of_proved (hbase : Truthful .unbroken z (sessions .base))
    (hstep : Truthful .unbroken z (sessions .step))
    (h : (new s c cancelled sessions).report names fuel name = some r)
    (hproved : r.verdict = .proved) :
    ∃ p, s.property name = .ok p ∧ ∀ x, s.Reachable z x → p.TrueIn z x := by
  obtain ⟨rfl, p, hp, hjustified⟩ := justified_of_report hbase hstep h
  rw [hproved] at hjustified
  exact ⟨p, hp, hjustified.holds⟩

end

def flag (name : String) (step : Int) : Term := .ref ⟨⟨name, .bool, .state⟩, step⟩

/-- Three flags that are up at first. One stays up, one stays up as long as the first does, and one
does what it likes. -/
def flags : TransitionSystem where
  «variables» := ["first", "second", "third"].map fun name => ⟨name, .bool, .state⟩
  init := .app .and [flag "first" 0, flag "second" 0, flag "third" 0]
  trans := .app .and [.app .implies [flag "first" 0, flag "first" 1],
    .app .implies [flag "first" 0, .app .implies [flag "second" 0, flag "second" 1]]]
  properties := ["first", "second", "third"].map fun name => (name, flag name 0)
  name := "flags"
  valid := rfl

def zeroReading : ZeroReading := ⟨fun _ => 0, fun _ => 0, fun _ => 0⟩

def exhaustiveSessions (_ : Task) : Session Memory :=
  Memory.session "exhaustive" (.exhaustive zeroReading)

theorem truthful_exhaustiveSessions {course : Course} (task : Task) :
    Truthful course zeroReading (exhaustiveSessions task) :=
  Memory.truthful_session fun _ => Oracle.unsatisfiable_of_exhaustive

theorem second_flag_proved :
    ∃ r p, (new flags ⟨{}, rfl⟩ false exhaustiveSessions).report ["second", "first"] 2 "second" =
        some r ∧ r.depth = 2 ∧ flags.property "second" = .ok p ∧
      ∀ x, flags.Reachable zeroReading x → p.TrueIn zeroReading x := by
  have hreport : ((new flags ⟨{}, rfl⟩ false exhaustiveSessions).report ["second", "first"] 2
      "second").any (fun r => r.holds && r.depth = 2) = true := by decide +kernel
  obtain ⟨r, hr, hproved⟩ := (Option.any_eq_true _ _).mp hreport
  rw [Bool.and_eq_true, ProofResult.holds_iff, decide_eq_true_eq] at hproved
  obtain ⟨p, hp, hholds⟩ := reachable_of_proved (truthful_exhaustiveSessions .base)
    (truthful_exhaustiveSessions .step) hr hproved.1
  exact ⟨r, p, hr, hproved.2, hp, hholds⟩

section

variable [Backend σ] {z : ZeroReading} {s : TransitionSystem} {c : Config} {cancelled : Bool}
  {sessions : Task → Session σ} {names : List String} {fuel : Nat} {name : String} {r : ProofResult}

/-- A counterexample of an attempt is an execution to a violation that no shorter one reaches, and an
unknown outcome at a depth means that there is no violation up to it. -/
theorem violations_of_report (hbase : Truthful .unbroken z (sessions .base))
    (hstep : Truthful .unbroken z (sessions .step))
    (hmodels : GivesModels .unbroken z (sessions .base))
    (h : (new s c cancelled sessions).report names fuel name = some r) :
    ∃ p, s.property name = .ok p ∧
      (∀ t, r.verdict = .falsified t →
        ∃ (π : Nat → State) (d : Nat), r.depth = d ∧ t.Records s π d ∧ s.Execution z π d ∧
          ¬ p.TrueIn z (π d) ∧ ∀ n < d, ¬ s.Violates z p n) ∧
      ∀ reason, r.verdict = .unknown reason → ∀ n : Nat, n ≤ r.depth → ¬ s.Violates z p n := by
  obtain ⟨rfl, p, hp, hjustified⟩ := justified_of_report hbase hstep h
  refine ⟨p, hp, fun t ht => ?_, fun reason hreason => ?_⟩
  · rw [ht] at hjustified
    obtain ⟨d, hd, hleast, hrecorded⟩ := hjustified
    obtain ⟨π, hexecution, hviolated, hrecords⟩ := hrecorded hmodels
    exact ⟨π, d, hd, hrecords, hexecution, hviolated, hleast⟩
  · rw [hreason] at hjustified
    exact hjustified

end

theorem givesModels_exhaustiveSessions (task : Task) :
    GivesModels .unbroken zeroReading (exhaustiveSessions task) :=
  Memory.givesModels_session fun _ => Oracle.model_of_exhaustive

theorem other_flags_unknown_or_falsified :
    (∃ p, flags.property "second" = .ok p ∧ ¬ flags.Violates zeroReading p 1) ∧
      ∃ p, flags.property "third" = .ok p ∧ flags.Violates zeroReading p 1 ∧
        ¬ flags.Violates zeroReading p 0 := by
  have hsecond : ((new flags ⟨{ depthBound := some 1 }, rfl⟩ false exhaustiveSessions).report
      ["second", "third"] 2 "second").any (fun r => r.isUnknown && r.depth = 1) = true := by
    decide +kernel
  have hthird : ((new flags ⟨{ depthBound := some 1 }, rfl⟩ false exhaustiveSessions).report
      ["second", "third"] 2 "third").any (fun r => r.isFalsified && r.depth = 1) = true := by
    decide +kernel
  obtain ⟨r, hr, hunknown⟩ := (Option.any_eq_true _ _).mp hsecond
  obtain ⟨r', hr', hfalsified⟩ := (Option.any_eq_true _ _).mp hthird
  rw [Bool.and_eq_true, ProofResult.isUnknown_iff, decide_eq_true_eq] at hunknown
  rw [Bool.and_eq_true, ProofResult.isFalsified_iff, decide_eq_true_eq] at hfalsified
  obtain ⟨⟨reason, hreason⟩, hdepth⟩ := hunknown
  obtain ⟨⟨t, ht⟩, hdepth'⟩ := hfalsified
  obtain ⟨p, hp, -, hclear⟩ := violations_of_report (truthful_exhaustiveSessions .base)
    (truthful_exhaustiveSessions .step) (givesModels_exhaustiveSessions .base) hr
  obtain ⟨p', hp', hviolated, -⟩ := violations_of_report (truthful_exhaustiveSessions .base)
    (truthful_exhaustiveSessions .step) (givesModels_exhaustiveSessions .base) hr'
  obtain ⟨π, d, hd, -, hexecution, hends, hleast⟩ := hviolated t ht
  obtain rfl : d = 1 := by omega
  refine ⟨⟨p, hp, hclear reason hreason 1 (by omega)⟩, p', hp', ⟨π, hexecution, hends⟩, ?_⟩
  exact hleast 0 (by omega)

end InvariantProver.Attempt
