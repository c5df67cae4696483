import InvariantProver.Proofs.Data.Checked
import InvariantProver.Proofs.Prover.Queries
import InvariantProver.Proofs.TransitionSystem.Induction
import InvariantProver.Prover.InductionStep

namespace InvariantProver

open Session

section

variable {z : ZeroReading} {s : TransitionSystem} {n : Nat} {p q : Term}

theorem satisfiable_base_iff (hp : ∀ r ∈ p.refs, r.step = 0) (hq : (p.reindex n).negate = .ok q) :
    Satisfiable z (Task.base.asserted s (n + 1) ++ [q]) ↔ s.Violates z p n := by
  have hlast (a : Assignment) : q.Holds z a ↔ ¬ p.TrueIn z (a.stateAt n) := by
    rw [Term.holds_negate hq, Term.holds_reindex_iff_trueIn hp]
  constructor
  · rintro ⟨a, ha⟩
    rw [List.forall_mem_append, holds_asserted_iff, List.forall_mem_singleton] at ha
    obtain ⟨⟨hinitial, hchain⟩, hviolated⟩ := ha
    exact ⟨a.stateAt, ⟨hinitial rfl, hchain⟩, (hlast a).mp hviolated⟩
  · rintro ⟨π, hπ, hviolated⟩
    have hpath : (Assignment.ofPath π).stateAt = π := funext (Assignment.stateAt_ofPath π)
    refine ⟨.ofPath π, ?_⟩
    rw [List.forall_mem_append, holds_asserted_iff, List.forall_mem_singleton, hlast, hpath]
    exact ⟨⟨fun _ => hπ.initial, hπ.chain⟩, hviolated⟩

theorem holds_assumed_iff {assumed : List Term} (h : ∀ t ∈ assumed, ∀ r ∈ t.refs, r.step = 0)
    (a : Assignment) :
    (∀ t ∈ InductionStep.assumed assumed n, t.Holds z a) ↔
      ∀ i < n, ∀ t ∈ assumed, t.TrueIn z (a.stateAt i) := by
  simp only [InductionStep.assumed, List.mem_flatMap, List.mem_map, List.mem_range, Int.toNat_natCast]
  constructor
  · intro hall i hi t ht
    exact (Term.holds_reindex_iff_trueIn (h t ht) a i).mp (hall _ ⟨i, hi, t, ht, rfl⟩)
  · rintro hall _ ⟨i, hi, t, ht, rfl⟩
    exact (Term.holds_reindex_iff_trueIn (h t ht) a i).mpr (hall i hi t ht)

theorem satisfiable_step_iff {assumed : List Term} {u : Term}
    (hassumed : ∀ t ∈ assumed, ∀ r ∈ t.refs, r.step = 0) (hp : ∀ r ∈ p.refs, r.step = 0)
    (hu : Term.conj (InductionStep.assumed assumed n) = .ok u)
    (hq : (p.reindex n).negate = .ok q) :
    Satisfiable z (Task.step.asserted s (n + 1) ++ [u, q]) ↔ s.Escapes z assumed p n := by
  have hlast (a : Assignment) : q.Holds z a ↔ ¬ p.TrueIn z (a.stateAt n) := by
    rw [Term.holds_negate hq, Term.holds_reindex_iff_trueIn hp]
  have hbefore (a : Assignment) :
      u.Holds z a ↔ ∀ i < n, ∀ t ∈ assumed, t.TrueIn z (a.stateAt i) := by
    rw [Term.holds_conj hu, holds_assumed_iff hassumed]
  constructor
  · rintro ⟨a, ha⟩
    rw [List.forall_mem_append, holds_asserted_iff, List.forall_mem_cons,
      List.forall_mem_singleton] at ha
    obtain ⟨⟨-, hchain⟩, hheld, hviolated⟩ := ha
    exact ⟨a.stateAt, hchain, (hbefore a).mp hheld, (hlast a).mp hviolated⟩
  · rintro ⟨π, hchain, hheld, hviolated⟩
    have hpath : (Assignment.ofPath π).stateAt = π := funext (Assignment.stateAt_ofPath π)
    refine ⟨.ofPath π, ?_⟩
    rw [List.forall_mem_append, holds_asserted_iff, List.forall_mem_cons, List.forall_mem_singleton,
      hlast, hbefore, hpath]
    exact ⟨⟨by simp, hchain⟩, hheld, hviolated⟩

end

def State.snapshot (x : State) (s : TransitionSystem) : Snapshot :=
  s.variables.map fun v => (v.name, .exact (x.value v))

structure Trace.Records (t : Trace) (s : TransitionSystem) (π : Nat → State) (n : Nat) : Prop where
  depth : t.depth = n
  states : t.states = (List.range (n + 1)).map fun i => (π i).snapshot s
  violation : t.violation = n

section

variable {σ α : Type} [Backend σ]

def Engine.Asked (course : Course) (s₀ : Session σ) (active : List Term) (read : EngineM σ α)
    (e : Engine σ) (o : Outcome α) : Prop :=
  ∃ a t t', Holding course s₀ active t ∧ outcome Session.check t = (.ok a, t') ∧
    a.Reports read { e with session := t' } o.finding

variable {course : Course} {s₀ : Session σ} {z : ZeroReading} {active : List Term}
  {read : EngineM σ α} {e e' : Engine σ} {o : Outcome α}

theorem Engine.Asked.unsat (h : Asked course s₀ active read e o) (hs₀ : Truthful course z s₀)
    (ho : o.finding = .nothing) : ¬ Satisfiable z active := by
  obtain ⟨a, t, t', ⟨frames, hopen, rfl⟩, hcheck, hreports⟩ := h
  rw [ho] at hreports
  cases a with
  | unsat => exact hs₀.unsat hopen.reached hcheck
  | sat => exact hreports.elim
  | unknown reason => exact hreports.elim

theorem Engine.Asked.found (h : Asked course s₀ active read e o) (hscopes : s₀.scopes = [[]]) {w : α}
    (ho : o.finding = .found w) :
    ∃ t e', Holding course s₀ active t ∧ outcome read { e with session := t } = (.ok w, e') := by
  obtain ⟨a, t, t', ⟨frames, hopen, hactive⟩, hcheck, hreports⟩ := h
  rw [ho] at hreports
  cases a with
  | sat =>
    obtain ⟨e', hread⟩ := hreports
    exact ⟨t', e', ⟨frames, hopen.check hscopes hcheck (course.allows_ok _), hactive⟩, hread⟩
  | unsat => exact hreports.elim
  | unknown reason => exact hreports.elim

omit [Backend σ] in
theorem Engine.property_eq_ok {name : String} {p : Term} :
    outcome (Engine.property name) e = (.ok p, e') ↔ e.system.property name = .ok p ∧ e = e' := by
  unfold Engine.property
  rw [outcome_bind_of_ok (outcome_get e)]
  cases e.system.property name <;> simp

omit [Backend σ] in
theorem Engine.keeps_property {I : Engine σ → Prop} (name : String) :
    Keeps course I (Engine.property name) := by
  refine .bind .get fun e => ?_
  cases e.system.property name with
  | ok p => exact .pure p
  | error error => exact .throw _

namespace BaseCase

open Engine

variable {s : TransitionSystem} {task : Task} {P : Nat → Prop} {n : Nat} {name : String}

section

variable (hscopes : s₀.scopes = [[]])
include hscopes

theorem keeps_trace (e₀ : Engine σ) (frames : List (List Term)) :
    Keeps course (e₀.WithSession (OpenWith course s₀ frames)) trace :=
  .bind .get fun _ => .bind (keeps_talk (OpenWith.keeps_values hscopes _ frames)) fun _ =>
    .bind (.liftM _) fun _ => .pure _

theorem keeps_check (name : String) :
    Keeps course (Engine.Standing course s₀ s task P) (check name) :=
  .keeps fun e₀ ts => .bind (keeps_property name) fun _ => .bind .get fun _ =>
    keeps_query hscopes (keeps_trace hscopes e₀) _ ts

theorem keeps_checkAll (names : List String) :
    Keeps course (Engine.Standing course s₀ s task P) (checkAll names) :=
  keeps_queryAll (keeps_check hscopes) names

end

theorem check_ok {o : Outcome Trace} (h : e.Standing course s₀ s .base (· = n + 1))
    (hs : outcome (check name) e = (.ok o, e')) :
    ∃ p q, s.property name = .ok p ∧ (p.reindex n).negate = .ok q ∧ o.depth = n ∧
      Asked course s₀ (Task.base.asserted s (n + 1) ++ [q]) trace e o := by
  obtain ⟨⟨hsession, rfl, -⟩, hplaced⟩ := h
  have hdepth := depth_of_placed hplaced
  obtain ⟨p, e₁, hproperty, hs⟩ := outcome_bind_ok.mp hs
  obtain ⟨hp, rfl⟩ := property_eq_ok.mp hproperty
  rw [outcome_bind_of_ok (outcome_get _)] at hs
  obtain ⟨ts, a, t, t', hterms, hholding, hcheck, hout, hreports⟩ := query_ok hsession hs
  obtain ⟨q, rfl, hq⟩ := List.map_eq_singleton_iff.mp hterms.symm
  rw [hdepth] at hq hout
  rw [hplaced] at hholding
  exact ⟨p, q, hp, hq.symm, hout, a, t, t', hholding, hcheck, hreports⟩

theorem valueOf_eq_ok {values : Entries Ref Value} {r : Ref} {v : Value}
    (h : Entries.get? r values = some v) : valueOf values r = .ok (r.var.name, v) := by
  rw [valueOf, h]

theorem valueOf_eq_error {values : Entries Ref Value} {r : Ref} {error : ProofError}
    (h : valueOf values r = .error error) :
    error = .missingValue r ∧ Entries.get? r values = none := by
  unfold valueOf at h
  split at h
  · cases h
  · next hnone => exact ⟨(Except.error.inj h).symm, hnone⟩

theorem snapshots_eq_ok {values : Entries Ref Value} {f : Ref → Value}
    (h : ∀ r ∈ s.refsBelow n, Entries.get? r values = some (f r)) :
    collect ((List.range n).map (snapshot s values)) =
      .ok ((List.range n).map fun (i : Nat) => s.variables.map fun v => (v.name, f ⟨v, i⟩)) := by
  refine collect_map_of_ok fun i hi => ?_
  have hrefs : ∀ r ∈ s.refsAt i, valueOf values r = .ok (r.var.name, f r) := fun r hr =>
    valueOf_eq_ok (h r (List.mem_flatten.mpr ⟨_, List.mem_map.mpr ⟨i, hi, rfl⟩, hr⟩))
  rw [snapshot, collect_map_of_ok hrefs, TransitionSystem.refsAt, List.map_map]
  rfl

theorem snapshots_eq_error {values : Entries Ref Value} {error : ProofError}
    (h : collect ((List.range n).map (snapshot s values)) = .error error) :
    ∃ r ∈ s.refsBelow n, error = .missingValue r ∧ Entries.get? r values = none := by
  obtain ⟨i, hi, hsnapshot⟩ := exists_error_of_collect h
  obtain ⟨r, hr, hvalue⟩ := exists_error_of_collect hsnapshot
  exact ⟨r, List.mem_flatten.mpr ⟨_, List.mem_map.mpr ⟨i, hi, rfl⟩, hr⟩, valueOf_eq_error hvalue⟩

theorem snapshots_complete {values : Entries Ref Value} {states : List Snapshot}
    (h : collect ((List.range n).map (snapshot s values)) = .ok states) :
    ∀ r ∈ s.refsBelow n, ∃ v, Entries.get? r values = some v := by
  intro r hr
  obtain ⟨_, hstep, hr⟩ := List.mem_flatten.mp hr
  obtain ⟨i, hi, rfl⟩ := List.mem_map.mp hstep
  obtain ⟨state, -, hsnapshot⟩ := exists_of_forall₂ (collect_eq_ok_iff.mp h) hi
  obtain ⟨entry, -, hvalue⟩ := exists_of_forall₂ (collect_eq_ok_iff.mp hsnapshot) hr
  unfold valueOf at hvalue
  split at hvalue
  · next v hv => exact ⟨v, hv⟩
  · cases hvalue

def traced (e : Engine σ) (values : Entries Ref Value) : Except ProofError Trace :=
  (collect ((List.range e.placed).map (snapshot e.system values))).map fun states =>
    ⟨e.depth, states, e.depth⟩

theorem outcome_trace {q : Except SessionError (Entries Ref Value)} {t : Session σ}
    (h : outcome (Session.values (e.system.refsBelow e.placed)) e.session = (q, t)) :
    outcome trace e = (q.mapError .session >>= traced e, { e with session := t }) := by
  unfold trace
  rw [outcome_bind_of_ok (outcome_get e), outcome_bind, outcome_talk, h]
  cases q with
  | error error => rfl
  | ok values =>
    change outcome (liftM (collect _) >>= _) _ = (traced e values, _)
    rw [outcome_bind, outcome_liftM, traced]
    cases collect ((List.range e.placed).map (snapshot e.system values)) <;> rfl

omit [Backend σ] in
theorem traced_eq_ok {values : Entries Ref Value} {w : Trace} (h : traced e values = .ok w) :
    ∀ r ∈ e.system.refsBelow e.placed, ∃ v, Entries.get? r values = some v := by
  obtain ⟨states, hstates, -⟩ := except_map_eq_ok.mp h
  exact snapshots_complete hstates

omit [Backend σ] in
theorem traced_eq_error {values : Entries Ref Value} {error : ProofError}
    (h : traced e values = .error error) :
    ∃ r ∈ e.system.refsBelow e.placed, error = .missingValue r ∧ Entries.get? r values = none := by
  unfold traced at h
  cases hstates : collect ((List.range e.placed).map (snapshot e.system values)) with
  | ok states =>
    rw [hstates] at h
    cases h
  | error error' =>
    rw [hstates] at h
    obtain rfl := Except.error.inj h
    exact snapshots_eq_error hstates

theorem trace_eq_ok {w : Trace} (hs : outcome trace e = (.ok w, e')) :
    ∃ values t states, outcome (Session.values (e.system.refsBelow e.placed)) e.session = (.ok values, t) ∧
      collect ((List.range e.placed).map (snapshot e.system values)) = .ok states ∧
      w = ⟨e.depth, states, e.depth⟩ ∧ e' = { e with session := t } := by
  rcases hvalues : outcome (Session.values (e.system.refsBelow e.placed)) e.session with ⟨q, t⟩
  rw [outcome_trace hvalues] at hs
  obtain ⟨hw, rfl⟩ := Prod.mk.inj hs
  cases q with
  | error error => cases hw
  | ok values =>
    obtain ⟨states, hstates, rfl⟩ := except_map_eq_ok.mp hw
    exact ⟨values, t, states, rfl, hstates, rfl, rfl⟩

theorem trace_records {t : Trace} (hmodels : GivesModels course z s₀)
    (h : Holding course s₀ active e.session) (hplaced : e.placed = n + 1)
    (hs : outcome trace e = (.ok t, e')) :
    ∃ a : Assignment, (∀ u ∈ active, u.Holds z a) ∧ t.Records e.system a.stateAt n := by
  obtain ⟨frames, hopen, rfl⟩ := h
  obtain ⟨values, s', states, hvalues, hstates, rfl, -⟩ := trace_eq_ok hs
  obtain ⟨a, hholds, hexact⟩ := hmodels hopen.reached hvalues
  have hdepth := depth_of_placed hplaced
  rw [snapshots_eq_ok hexact, hplaced] at hstates
  exact ⟨a, hholds, hdepth, (Except.ok.inj hstates).symm, hdepth⟩

theorem depth_trace {t : Trace} (hs : outcome trace e = (.ok t, e')) : t.depth = e.depth := by
  obtain ⟨values, s', states, -, -, rfl, -⟩ := trace_eq_ok hs
  rfl

/-- What the system has to be like for an outcome of the base case. The trace of a counterexample
records an execution only if the values it was made of are exact. -/
def Supports (z : ZeroReading) (s : TransitionSystem) (exact : Prop) (n : Nat) (name : String)
    (o : Outcome Trace) : Prop :=
  ∃ p, s.property name = .ok p ∧ o.depth = n ∧
    match o.finding with
    | .nothing => ¬ s.Violates z p n
    | .found t => t.depth = n ∧
        (exact → ∃ π, s.Execution z π n ∧ ¬ p.TrueIn z (π n) ∧ t.Records s π n)
    | .unknown _ => True

theorem supports_of_check {o : Outcome Trace} (hs₀ : Truthful course z s₀)
    (h : e.Standing course s₀ s .base (· = n + 1)) (hs : outcome (check name) e = (.ok o, e')) :
    Supports z s (GivesModels course z s₀) n name o := by
  obtain ⟨p, q, hp, hq, hdepth, hasked⟩ := check_ok h hs
  have hsteps : ∀ r ∈ p.refs, r.step = 0 := fun r hr => (TransitionSystem.refs_property hp r hr).2
  refine ⟨p, hp, hdepth, ?_⟩
  cases hfinding : o.finding with
  | nothing =>
    intro hviolates
    exact hasked.unsat hs₀ hfinding ((satisfiable_base_iff hsteps hq).mpr hviolates)
  | unknown reason => trivial
  | found t =>
    obtain ⟨t', e'', hholding, htrace⟩ := hasked.found hs₀.scopes hfinding
    have hplaced : e.placed = n + 1 := h.2
    have hlast := depth_of_placed hplaced
    refine ⟨(depth_trace htrace).trans hlast, fun hmodels => ?_⟩
    obtain ⟨a, ha, hrecords⟩ := trace_records (e := { e with session := t' }) hmodels hholding hplaced htrace
    rw [List.forall_mem_append, holds_asserted_iff, List.forall_mem_singleton, Term.holds_negate hq,
      Term.holds_reindex_iff_trueIn hsteps] at ha
    obtain ⟨⟨hinitial, hchain⟩, hviolated⟩ := ha
    exact ⟨a.stateAt, ⟨hinitial rfl, hchain⟩, hviolated, h.1.system ▸ hrecords⟩

theorem supports_of_checkAll {names : List String} {outcomes : Entries String (Outcome Trace)}
    (hs₀ : Truthful course z s₀) (h : e.Standing course s₀ s .base (· = n + 1))
    (hs : outcome (checkAll names) e = (.ok outcomes, e')) :
    (∀ name ∈ names, ∃ o, Entries.get? name outcomes = some o) ∧
      ∀ name o, Entries.get? name outcomes = some o →
        Supports z s (GivesModels course z s₀) n name o := by
  obtain ⟨hall, hasked⟩ := queryAll_ok (keeps_check hs₀.scopes) h hs
  refine ⟨hall, fun name o ho => ?_⟩
  obtain ⟨e₁, e₂, h₁, hcheck⟩ := hasked name o ho
  exact supports_of_check hs₀ h₁ hcheck

end BaseCase

namespace InductionStep

open Engine

variable {s : TransitionSystem} {task : Task} {P : Nat → Prop} {k : Nat} {name : String}
  {hypotheses : List Term}

theorem keeps_check (hscopes : s₀.scopes = [[]]) (hypotheses : List Term) (name : String) :
    Keeps course (Engine.Standing course s₀ s task P) (check hypotheses name) :=
  .keeps fun _ ts => .bind (keeps_property name) fun _ => .bind .get fun _ =>
    keeps_query hscopes (fun _ => .pure ()) _ ts

theorem keeps_checkAll (hscopes : s₀.scopes = [[]]) (hypotheses : List Term) (names : List String) :
    Keeps course (Engine.Standing course s₀ s task P) (checkAll hypotheses names) :=
  keeps_queryAll (keeps_check hscopes hypotheses) names

theorem check_ok {o : Outcome Unit} (h : e.Standing course s₀ s .step (· = k + 1))
    (hs : outcome (check hypotheses name) e = (.ok o, e')) :
    ∃ p u q, s.property name = .ok p ∧
      Term.conj (assumed (p :: hypotheses.filter (· ≠ p)) k) = .ok u ∧
      (p.reindex k).negate = .ok q ∧ o.depth = k ∧
      Asked course s₀ (Task.step.asserted s (k + 1) ++ [u, q]) (pure ()) e o := by
  obtain ⟨⟨hsession, rfl, -⟩, hplaced⟩ := h
  have hdepth := depth_of_placed hplaced
  obtain ⟨p, e₁, hproperty, hs⟩ := outcome_bind_ok.mp hs
  obtain ⟨hp, rfl⟩ := property_eq_ok.mp hproperty
  rw [outcome_bind_of_ok (outcome_get _)] at hs
  obtain ⟨ts, a, t, t', hterms, hholding, hcheck, hout, hreports⟩ := query_ok hsession hs
  obtain ⟨u, _, rfl, hu, hrest⟩ := List.map_eq_cons_iff.mp hterms.symm
  obtain ⟨q, rfl, hq⟩ := List.map_eq_singleton_iff.mp hrest
  rw [hdepth] at hu hq hout
  rw [hplaced] at hholding
  exact ⟨p, u, q, hp, hu.symm, hq.symm, hout, a, t, t', hholding, hcheck, hreports⟩

def Supports (z : ZeroReading) (s : TransitionSystem) (hypotheses : List Term) (k : Nat)
    (name : String) (o : Outcome Unit) : Prop :=
  ∃ p, s.property name = .ok p ∧ o.depth = k ∧
    (o.finding = .nothing → ¬ s.Escapes z (p :: hypotheses.filter (· ≠ p)) p k)

theorem steps_of_assumed {p : Term} (hp : s.property name = .ok p)
    (hypotheses_steps : ∀ t ∈ hypotheses, ∀ r ∈ t.refs, r.step = 0) :
    ∀ t ∈ p :: hypotheses.filter (· ≠ p), ∀ r ∈ t.refs, r.step = 0 := by
  intro t ht
  rcases List.mem_cons.mp ht with rfl | ht
  · exact fun r hr => (TransitionSystem.refs_property hp r hr).2
  · exact hypotheses_steps t (List.mem_filter.mp ht).1

theorem supports_of_check {o : Outcome Unit} (hs₀ : Truthful course z s₀)
    (h : e.Standing course s₀ s .step (· = k + 1)) (hsteps : ∀ t ∈ hypotheses, ∀ r ∈ t.refs, r.step = 0)
    (hs : outcome (check hypotheses name) e = (.ok o, e')) :
    Supports z s hypotheses k name o := by
  obtain ⟨p, u, q, hp, hu, hq, hdepth, hasked⟩ := check_ok h hs
  refine ⟨p, hp, hdepth, fun hnothing hescapes => ?_⟩
  have hassumed := steps_of_assumed hp hsteps
  have hsatisfiable := (satisfiable_step_iff hassumed (hassumed p (by simp)) hu hq).mpr hescapes
  exact hasked.unsat hs₀ hnothing hsatisfiable

theorem supports_of_checkAll {names : List String} {outcomes : Entries String (Outcome Unit)}
    (hs₀ : Truthful course z s₀) (h : e.Standing course s₀ s .step (· = k + 1))
    (hsteps : ∀ t ∈ hypotheses, ∀ r ∈ t.refs, r.step = 0)
    (hs : outcome (checkAll hypotheses names) e = (.ok outcomes, e')) :
    (∀ name ∈ names, ∃ o, Entries.get? name outcomes = some o) ∧
      ∀ name o, Entries.get? name outcomes = some o → Supports z s hypotheses k name o := by
  obtain ⟨hall, hasked⟩ := queryAll_ok (keeps_check hs₀.scopes hypotheses) h hs
  refine ⟨hall, fun name o ho => ?_⟩
  obtain ⟨e₁, e₂, h₁, hcheck⟩ := hasked name o ho
  exact supports_of_check hs₀ h₁ hsteps hcheck

end InductionStep

end

end InvariantProver
