import InvariantProver.Proofs.Prover.Agreement
import InvariantProver.Proofs.Prover.Cancellation
import InvariantProver.Proofs.Session.Speaking

namespace InvariantProver

open Session

def Opinion.finding {α : Type} (o : Opinion) (depth : Int) (witness : α) : Finding α :=
  match o.answer with
  | .sat => .found witness
  | .unsat => .nothing
  | .unknown reason => .unknown (inconclusiveReason reason depth)

def Opinion.trace (o : Opinion) (s : TransitionSystem) (n : Nat) : Trace where
  depth := n
  states := (List.range (n + 1)).map fun (i : Nat) =>
    s.variables.map fun v => (v.name, Memory.valueOf o ⟨v, i⟩)
  violation := n

def Task.terms (task : Task) (hypotheses : List Term) (p : Term) (d : Nat) : List Term :=
  (task.question hypotheses p d).filterMap Except.toOption

def Task.inquiry (task : Task) (s : TransitionSystem) (hypotheses : List Term) (p : Term) (d : Nat) :
    List Term :=
  task.asserted s (d + 1) ++ task.terms hypotheses p d

theorem Task.terms_eq {task : Task} {hypotheses ts : List Term} {p : Term} {d : Nat}
    (h : task.question hypotheses p d = ts.map .ok) : task.terms hypotheses p d = ts := by
  rw [terms, h, List.filterMap_map]
  exact List.filterMap_some

theorem Task.inquiry_eq {task : Task} {s : TransitionSystem} {hypotheses ts : List Term} {p : Term}
    {d : Nat} (h : task.question hypotheses p d = ts.map .ok) :
    task.inquiry s hypotheses p d = task.asserted s (d + 1) ++ ts := by
  rw [inquiry, terms_eq h]

namespace Engine

variable {σ α : Type} [Backend σ] {oracle : Oracle} {s₀ : Session σ} {s : TransitionSystem}
  {task : Task} {e : Engine σ}

theorem Ready.name (h : e.Ready s₀ s task) : e.session.name = s₀.name := by
  obtain ⟨⟨frames, scope, hcalm, -⟩, -⟩ := h
  exact hcalm.opened.reached.name

theorem Ready.query_speaks (read : EngineM σ α) {ts : List Term} {w : α} (hs₀ : Speaks oracle s₀)
    (h : e.Ready s₀ s task) (hts : ∀ t ∈ ts, s.Covers e.placed t)
    (hread : ∀ {t frames scopes}, Calm s₀ frames scopes t → t.hasModel = true →
      active frames = Task.asserted task s e.placed ++ ts →
      (∀ r : Ref, r.var ∈ s.variables → 0 ≤ r.step → r.step < e.placed → ∃ scope ∈ scopes, r ∈ scope) →
      ∃ t', outcome read { e with session := t } = (.ok w, { e with session := t' }) ∧
        Calm s₀ frames scopes t') :
    ∃ e', outcome (Engine.query (ts.map .ok) read) e =
        (.ok ⟨e.depth, (oracle (Task.asserted task s e.placed ++ ts)).finding e.depth w⟩, e') ∧
      e'.Ready s₀ s task ∧ e'.placed = e.placed := by
  suffices hreports : ∃ o e', outcome (Engine.query (ts.map .ok) read) e = (.ok o, e') ∧
      e'.Ready s₀ s task ∧ e'.placed = e.placed ∧
      o = ⟨e.depth, (oracle (Task.asserted task s e.placed ++ ts)).finding e.depth w⟩ by
    obtain ⟨o, e', hs, hready, hplaced, rfl⟩ := hreports
    exact ⟨e', hs, hready, hplaced⟩
  refine h.query_reports hs₀.toWilling hts
    fun {t t' a frames scopes} hcalm hactive hcheck hcalm' hdeclared => ?_
  have ha : (oracle (Task.asserted task s e.placed ++ ts)).answer = a := by
    rw [← hactive]
    exact (hs₀.answers hcalm.opened.reached hcheck hcalm'.interrupted).symm
  unfold Opinion.finding
  rw [ha]
  cases a with
  | sat =>
    obtain ⟨t'', hw, h'⟩ := hread hcalm' (hasModel_of_check hcheck) hactive hdeclared
    exact ⟨_, t'', outcome_bind_ok.mpr ⟨w, _, hw, rfl⟩, h', rfl⟩
  | unsat => exact ⟨_, t', rfl, hcalm', rfl⟩
  | unknown reason =>
    refine ⟨_, t', ?_, hcalm', rfl⟩
    change outcome (get >>= _) _ = _
    rw [outcome_bind_of_ok (outcome_get _)]
    simp only [reason_of_check hcheck]
    rfl

end Engine

namespace BaseCase

open Engine

variable {σ : Type} [Backend σ] {oracle : Oracle} {s₀ : Session σ} {s : TransitionSystem}
  {e : Engine σ} {name : String} {p : Term} {n : Nat}

def forecast (oracle : Oracle) (s : TransitionSystem) (p : Term) (n : Nat) : Outcome Trace :=
  let o := oracle (Task.base.inquiry s [] p n)
  ⟨n, o.finding n (o.trace s n)⟩

theorem trace_speaks {t : Session σ} {frames : List (List Term)} {scopes : List (List Ref)}
    (hs₀ : Speaks oracle s₀) (hcalm : Calm s₀ frames scopes t) (hmodel : t.hasModel = true)
    (hsystem : e.system = s) (hplaced : e.placed = n + 1)
    (hdeclared : ∀ r : Ref, r.var ∈ s.variables → 0 ≤ r.step → r.step < e.placed →
      ∃ scope ∈ scopes, r ∈ scope) :
    ∃ t', outcome trace { e with session := t } =
        (.ok ((oracle (active frames)).trace s n), { e with session := t' }) ∧
      Calm s₀ frames scopes t' := by
  subst hsystem
  have hall : ∀ r ∈ e.system.refsBelow e.placed, ∃ scope ∈ scopes, r ∈ scope := by
    intro r hr
    obtain ⟨hvar, hpos, hlt⟩ := TransitionSystem.mem_refsBelow.mp hr
    exact hdeclared r hvar hpos hlt
  obtain ⟨entries, t', hvalues, hcalm', hentries⟩ := hcalm.values_eq hs₀ hmodel hall
  have htraced : traced { e with session := t } entries =
      .ok ((oracle (active frames)).trace e.system n) := by
    have hdepth : Engine.depth { e with session := t } = n := depth_of_placed hplaced
    rw [traced, snapshots_eq_ok hentries, hdepth, hplaced]
    rfl
  refine ⟨t', ?_, hcalm'⟩
  rw [outcome_trace (e := { e with session := t }) hvalues]
  exact congrArg (·, _) htraced

theorem check_forecast (hs₀ : Speaks oracle s₀) (h : e.Ready s₀ s .base) (hplaced : e.placed = n + 1)
    (hp : s.property name = .ok p) :
    ∃ e', outcome (check name) e = (.ok (forecast oracle s p n), e') ∧ e'.Ready s₀ s .base ∧
      e'.placed = n + 1 := by
  obtain ⟨q, hq, hcovers⟩ := TransitionSystem.covers_negate hp n
  have hinquiry : Task.base.inquiry s [] p n = Task.base.asserted s (n + 1) ++ [q] :=
    Task.inquiry_eq (congrArg (fun t => [t]) hq)
  have hts : ∀ t ∈ [q], s.Covers e.placed t := by
    rw [hplaced]
    simpa using hcovers
  obtain ⟨e', hquery, hready, hplaced'⟩ := h.query_speaks trace hs₀ hts
    fun {t frames scopes} hcalm hmodel hactive hdeclared => by
      obtain ⟨t', hs, hcalm'⟩ := trace_speaks hs₀ hcalm hmodel h.system hplaced hdeclared
      rw [hactive] at hs
      exact ⟨t', hs, hcalm'⟩
  have hdepth := depth_of_placed hplaced
  refine ⟨e', ?_, hready, hplaced'.trans hplaced⟩
  unfold check
  rw [outcome_bind_of_ok (property_eq_ok.mpr ⟨h.system ▸ hp, rfl⟩), outcome_bind_of_ok (outcome_get e),
    hdepth, hq]
  rw [hplaced, hdepth] at hquery
  rw [forecast, hinquiry]
  exact hquery

end BaseCase

namespace InductionStep

open Engine

variable {σ : Type} [Backend σ] {oracle : Oracle} {s₀ : Session σ} {s : TransitionSystem}
  {e : Engine σ} {name : String} {p : Term} {k : Nat} {hypotheses : List Term}

def forecast (oracle : Oracle) (s : TransitionSystem) (hypotheses : List Term) (p : Term) (k : Nat) :
    Outcome Unit :=
  ⟨k, (oracle (Task.step.inquiry s hypotheses p k)).finding k ()⟩

theorem check_forecast (hs₀ : Speaks oracle s₀) (h : e.Ready s₀ s .step) (hplaced : e.placed = k + 1)
    (hp : s.property name = .ok p) (hhypotheses : ∀ t ∈ hypotheses, ∃ name, s.property name = .ok t) :
    ∃ e', outcome (check hypotheses name) e = (.ok (forecast oracle s hypotheses p k), e') ∧
      e'.Ready s₀ s .step ∧ e'.placed = k + 1 := by
  obtain ⟨u, q, hu, hq, hquestion, hcovers⟩ := question_eq hp hhypotheses k
  obtain ⟨e', hquery, hready, hplaced'⟩ := h.query_speaks (pure ()) (w := ()) hs₀
    (by rwa [hplaced]) fun hcalm _ _ _ => ⟨_, rfl, hcalm⟩
  have hdepth := depth_of_placed hplaced
  refine ⟨e', ?_, hready, hplaced'.trans hplaced⟩
  unfold check
  rw [outcome_bind_of_ok (property_eq_ok.mpr ⟨h.system ▸ hp, rfl⟩), outcome_bind_of_ok (outcome_get e),
    hdepth]
  simp only [hu, hq]
  rw [hplaced, hdepth] at hquery
  rw [forecast, Task.inquiry_eq hquestion]
  exact hquery

end InductionStep

namespace Attempt

open Engine

variable {σ : Type} [Backend σ] {oracles : Task → Oracle} {sessions : Task → Session σ}
  {s : TransitionSystem} {c : Config} {names : List String} {n : Nat} {a : Attempt σ}

theorem Deciding.checks_forecast (hs : ∀ task, Speaks (oracles task) (sessions task))
    (h : Deciding sessions s c names n a) (hnames : ∀ other ∈ names, ∃ q, s.property other = .ok q) :
    ∃ bs os engines, outcome Attempt.checks a = (.ok (bs, os), { a with engines := engines }) ∧
      outcome (InductionStep.checkAll a.lemmas a.pending) a.engines.step = (.ok os, engines.step) ∧
      Deciding sessions s c names n { a with engines := engines } ∧
      ∀ name ∈ a.pending, ∀ p, s.property name = .ok p →
        Entries.get? name bs = some (BaseCase.forecast (oracles .base) s p n) ∧
        Entries.get? name os = some (InductionStep.forecast (oracles .step) s a.lemmas p (n + 1)) := by
  obtain ⟨bs, os, engines, hchecks, hos, h', hall⟩ := h.checks_settle (hs .base).toWilling (hs .step).toWilling
    hnames
    (fun name p hp e he hplaced => by
      obtain ⟨e', hcheck, he'⟩ := BaseCase.check_forecast (hs .base) he hplaced hp
      exact ⟨_, e', hcheck, he', rfl⟩)
    (fun name p hp e he hplaced => by
      obtain ⟨e', hcheck, he'⟩ := InductionStep.check_forecast (hs .step) he hplaced hp h.property_of_lemma
      exact ⟨_, e', hcheck, he', rfl⟩)
  refine ⟨bs, os, engines, hchecks, hos, h', fun name hname p hp => ?_⟩
  obtain ⟨⟨b, hb, hbForecast⟩, o, ho, hoForecast⟩ := hall name hname p hp
  exact ⟨hbForecast ▸ hb, hoForecast ▸ ho⟩

section

variable (hw : ∀ task, Willing (sessions task))
include hw

theorem begun_returns (s : TransitionSystem) (c : Config) (names : List String) :
    ∃ a₁ a₂ a₃, outcome (openSession .base) { new s c false sessions with pending := names } = (.ok (), a₁) ∧
      outcome (openSession .step) a₁ = (.ok (), a₂) ∧
      outcome (onEngine .base BaseCase.start) a₂ = (.ok (), a₃) ∧
      outcome (onEngine .step InductionStep.start) a₃ =
        (.ok (), (new s c false sessions).begun names) ∧
      Deciding sessions s c names 0 ((new s c false sessions).begun names) ∧
      (new s c false sessions).begun names =
        { new s c false sessions with
          pending := names
          engines := ((new s c false sessions).begun names).engines
          opened := ((new s c false sessions).begun names).opened } := by
  obtain ⟨a₁, a₂, a₃, a₄, hopenBase, hopenStep, hstartBase, hstartStep, ha₄, hbaseReady, hstepReady⟩ :=
    start_returns (a := { new s c false sessions with pending := names }) (hw .base) (hw .step) rfl rfl rfl
  have hbegun : (new s c false sessions).begun names = a₄ := by
    unfold begun prepare
    rw [outcome_bind_of_ok hopenBase, outcome_bind_of_ok hopenStep, outcome_bind_of_ok hstartBase,
      hstartStep]
  rw [hbegun]
  refine ⟨a₁, a₂, a₃, hopenBase, hopenStep, hstartBase, hstartStep,
    ⟨?_, ?_, ?_, hbaseReady, hstepReady, ?_, ?_⟩, ha₄⟩ <;> rw [ha₄]
  · rfl
  · rfl
  · rfl
  · exact fun _ => id
  · rintro name ⟨⟩

theorem run_of_rounds {fuel m : Nat} {finished : Bool} {a' : Attempt σ} (hnames : names ≠ [])
    (hknown : ∀ name ∈ names, ∃ p, s.property name = .ok p)
    (hrounds : outcome (rounds fuel) ((new s c false sessions).begun names) = (.ok finished, a'))
    (h' : Deciding sessions s c names m a') :
    (outcome (run names fuel) (new s c false sessions)).1 =
      .ok (if finished then some (a'.resultsFor names) else none) := by
  obtain ⟨a₁, a₂, a₃, hopenBase, hopenStep, hstartBase, hstartStep, -⟩ := begun_returns hw s c names
  obtain ⟨step, hcloseStep⟩ := closeSession_returns (a := a') (hw .step) h'.step.1
  obtain ⟨base, hcloseBase⟩ := closeSession_returns (hw .base)
    (a := { a' with engines := a'.engines.set step .step }) h'.base.1
  have hsessions := withSession_returns hopenBase
    (withSession_returns (m := do
      onEngine .base BaseCase.start
      onEngine .step InductionStep.start
      rounds fuel) hopenStep
      (by rw [outcome_bind_of_ok hstartBase, outcome_bind_of_ok hstartStep, hrounds]) hcloseStep)
    hcloseBase
  have hnonempty : ¬ names.isEmpty = true := by simpa using hnames
  unfold run
  rw [outcome_bind_of_ok (forM_property_returns (a := new s c false sessions) hknown), outcome_ite,
    if_neg hnonempty, outcome_bind_of_ok (outcome_modify _ _), outcome_bind_of_ok hsessions]
  cases finished <;> rfl

end

section

variable {s : TransitionSystem} {c : Config} {cancelled : Bool} {names : List String} {fuel : Nat}

theorem known_of_run {results : Option (Entries String ProofResult)}
    (h : (outcome (run names fuel) (new s c cancelled sessions)).1 = .ok results) : Known s names := by
  obtain ⟨a', hs⟩ : ∃ a', outcome (run names fuel) (new s c cancelled sessions) = (.ok results, a') :=
    ⟨_, Prod.ext h rfl⟩
  obtain ⟨_, a₁, hproperties, -⟩ := outcome_bind_ok.mp hs
  exact (forM_property_eq_ok hproperties).2

theorem books_begun (a : Attempt σ) (names : List String) :
    (a.begun names).pending = names ∧ (a.begun names).results = a.results := by
  have honEngine {α : Type} (task : Task) (m : EngineM σ α) :
      Keeps .any (fun b : Attempt σ => b.pending = names ∧ b.results = a.results) (onEngine task m) := by
    intro b b' r hb hs _
    rw [outcome_onEngine] at hs
    obtain ⟨-, rfl⟩ := Prod.mk.inj hs
    exact hb
  have hopen (task : Task) :
      Keeps .any (fun b : Attempt σ => b.pending = names ∧ b.results = a.results) (openSession task) :=
    .bind (honEngine _ _) fun _ => .bind (.modify fun _ h => h) fun _ => .bind .get fun _ =>
      .ite (honEngine _ _) (.pure _)
  have hprepare : Keeps .any (fun b : Attempt σ => b.pending = names ∧ b.results = a.results) prepare :=
    .bind (hopen .base) fun _ => .bind (hopen .step) fun _ => .bind (honEngine _ _) fun _ => honEngine _ _
  exact hprepare (s := { a with pending := names }) ⟨rfl, rfl⟩ rfl trivial

theorem rounds_of_run {results : Entries String ProofResult} {a' : Attempt σ} (hnames : names ≠ [])
    (hs : outcome (run names fuel) (new s c cancelled sessions) = (.ok (some results), a')) :
    ∃ a₁, outcome (rounds fuel) ((new s c cancelled sessions).begun names) = (.ok true, a₁) ∧
      results = a₁.resultsFor names := by
  obtain ⟨⟨⟩, a₁, hproperties, hs⟩ := outcome_bind_ok.mp hs
  obtain ⟨rfl, -⟩ := forM_property_eq_ok hproperties
  have hnonempty : ¬ names.isEmpty = true := by simpa using hnames
  rw [outcome_ite, if_neg hnonempty, outcome_bind_of_ok (outcome_modify _ _)] at hs
  obtain ⟨finished, a₂, hsessions, hs⟩ := outcome_bind_ok.mp hs
  rw [outcome_bind_of_ok (outcome_get _)] at hs
  obtain ⟨hresults, rfl⟩ := outcome_pure_ok.mp hs
  split at hresults
  case isFalse => cases hresults
  next hfinished =>
  obtain rfl := Option.some.inj hresults
  rw [hfinished] at hsessions
  obtain ⟨a₃, a₄, hopenBase, hinner, ha₂⟩ := withSession_eq_ok hsessions
  obtain ⟨a₅, a₆, hopenStep, hbody, ha₄⟩ := withSession_eq_ok hinner
  obtain ⟨⟨⟩, a₇, hstartBase, hbody⟩ := outcome_bind_ok.mp hbody
  obtain ⟨⟨⟩, a₈, hstartStep, hrounds⟩ := outcome_bind_ok.mp hbody
  refine ⟨a₆, ?_, ?_⟩
  · unfold begun prepare
    rw [outcome_bind_of_ok hopenBase, outcome_bind_of_ok hopenStep, outcome_bind_of_ok hstartBase,
      hstartStep]
    exact hrounds
  · rw [ha₂, ha₄]
    rfl

end

theorem speaks_exhaustiveSessions (task : Task) :
    Speaks (.exhaustive zeroReading) (exhaustiveSessions task) :=
  Memory.speaks_session "exhaustive" _

end Attempt

end InvariantProver
