import InvariantProver.Proofs.Prover.Saying
import InvariantProver.Proofs.Prover.Strikes
import Mathlib.Logic.Relation

namespace InvariantProver

open Session

theorem inconclusiveReason_eq_cancelledReason_iff {reason : Option String} {depth : Int} :
    inconclusiveReason reason depth = cancelledReason ↔ reason = some cancelledReason := by
  have hother (text : String) :
      "solver inconclusive at depth " ++ Text.intText depth ++ text ≠ cancelledReason := by
    intro h
    have hfirst := congrArg (fun text => text.toList.head?) h
    simp [cancelledReason] at hfirst
  unfold inconclusiveReason
  cases reason with
  | none => simpa using hother ""
  | some text =>
    dsimp only
    split
    · next htext => simp [htext]
    · next htext =>
      split
      · simpa [htext] using hother ""
      · simpa [htext, String.append_assoc] using hother (": " ++ text)

def Answer.Tells {α : Type} (depth : Int) : Answer → Finding α → Prop
  | .sat, .found _ => True
  | .unsat, .nothing => True
  | .unknown q, .unknown reason => reason = inconclusiveReason q depth
  | _, _ => False

section

variable {α : Type} {a : Answer} {f : Finding α} {depth : Int}

theorem Answer.Tells.cancelled_iff (h : a.Tells depth f) :
    f = .unknown cancelledReason ↔ a = .unknown (some cancelledReason) := by
  cases a with
  | sat => cases f <;> simp_all [Answer.Tells]
  | unsat => cases f <;> simp_all [Answer.Tells]
  | unknown q =>
    cases f with
    | unknown reason =>
      obtain rfl : reason = inconclusiveReason q depth := h
      simp [inconclusiveReason_eq_cancelledReason_iff]
    | found w => exact h.elim
    | nothing => exact h.elim

theorem Answer.Tells.nothing_iff (h : a.Tells depth f) : f = .nothing ↔ a = .unsat := by
  cases a <;> cases f <;> simp_all [Answer.Tells]

end

namespace Session

variable {σ : Type} [Backend σ] {s s' : Session σ} {a : Answer}

def Disturbed (s : Session σ) : Prop :=
  s.interrupted = true ∨ (outcome Backend.check s.link).2.interrupted = true

def Denies (s : Session σ) : Prop := (outcome check s).1 = .ok .unsat

def Aborts (s : Session σ) : Prop :=
  s.Disturbed ∨ (outcome Backend.check s.link).1 = .ok (.unknown (some cancelledReason))

theorem aborts_iff (hs : outcome check s = (.ok a, s')) :
    s.Aborts ↔ a = .unknown (some cancelledReason) := by
  rw [outcome_check] at hs
  split at hs
  · cases (Prod.mk.inj hs).1
  split at hs
  · next hinterrupted =>
    obtain ⟨ha, -⟩ := Prod.mk.inj hs
    exact ⟨fun _ => (Except.ok.inj ha).symm, fun _ => .inl (.inl hinterrupted)⟩
  next hcalm =>
  split at hs
  · cases (Prod.mk.inj hs).1
  next a₁ link hcheck =>
  split at hs
  · next hinterrupted =>
    obtain ⟨ha, -⟩ := Prod.mk.inj hs
    exact ⟨fun _ => (Except.ok.inj ha).symm, fun _ => .inl (.inr (by rwa [hcheck]))⟩
  · next hcalm' =>
    obtain ⟨ha, -⟩ := Prod.mk.inj hs
    obtain rfl := Except.ok.inj ha
    simp [Aborts, Disturbed, hcalm, hcheck, hcalm']

end Session

namespace Engine

variable {σ α : Type} [Backend σ] {task : Task} {hypotheses : List Term} {name : String}
  {e e' : Engine σ} {o : Outcome α} {f : Finding α}

def ChecksIn (task : Task) (hypotheses : List Term) (name : String) (P : Session σ → Prop) (e : Engine σ) :
    Prop :=
  ∃ p ts, e.system.property name = .ok p ∧ task.question hypotheses p e.depth = ts.map .ok ∧
    P (e.session.posed ts)

def FoundByCheck (task : Task) (hypotheses : List Term) (name : String) (e : Engine σ) (f : Finding α) : Prop :=
  ∃ p ts a s', e.system.property name = .ok p ∧ task.question hypotheses p e.depth = ts.map .ok ∧
    outcome Session.check (e.session.posed ts) = (.ok a, s') ∧ a.Tells e.depth f

theorem FoundByCheck.checksIn_iff {P : Session σ → Prop} (h : FoundByCheck task hypotheses name e f) :
    ∃ a s s', outcome Session.check s = (.ok a, s') ∧ a.Tells e.depth f ∧
      (ChecksIn task hypotheses name P e ↔ P s) := by
  obtain ⟨p, ts, a, s', hp, hts, hcheck, htells⟩ := h
  refine ⟨a, _, s', hcheck, htells, ?_, fun hP => ⟨p, ts, hp, hts, hP⟩⟩
  rintro ⟨p', ts', hp', hts', hP⟩
  obtain rfl := Except.ok.inj (hp'.symm.trans hp)
  obtain rfl := List.map_injective_iff.mpr (fun _ _ => Except.ok.inj) (hts'.symm.trans hts)
  exact hP

theorem FoundByCheck.cancelled_iff (h : FoundByCheck task hypotheses name e f) :
    f = .unknown cancelledReason ↔ ChecksIn task hypotheses name Session.Aborts e := by
  obtain ⟨a, s, s', hcheck, htells, hchecks⟩ := h.checksIn_iff (P := Session.Aborts)
  rw [hchecks, htells.cancelled_iff, aborts_iff hcheck]

theorem FoundByCheck.nothing_iff (h : FoundByCheck task hypotheses name e f) :
    f = .nothing ↔ ChecksIn task hypotheses name Session.Denies e := by
  obtain ⟨a, s, s', hcheck, htells, hchecks⟩ := h.checksIn_iff (P := Session.Denies)
  rw [hchecks, htells.nothing_iff, Session.Denies, hcheck, Except.ok.injEq]

theorem typed_of_asserts {terms : List (Except TypeError Term)} {u : PUnit}
    (hs : outcome (terms.forM fun t => do talk (Session.assert (← typed t))) e = (.ok u, e')) :
    ∃ ts : List Term, terms = ts.map .ok := by
  induction terms generalizing e with
  | nil => exact ⟨[], rfl⟩
  | cons term terms ih =>
    obtain ⟨_, e₁, hone, hrest⟩ := outcome_bind_ok.mp hs
    obtain ⟨t, e₂, htyped, -⟩ := outcome_bind_ok.mp hone
    obtain ⟨rfl, -⟩ := typed_eq_ok htyped
    obtain ⟨ts, rfl⟩ := ih hrest
    exact ⟨t :: ts, rfl⟩

omit [Backend σ] in
theorem reported_tells {depth : Int} {read : EngineM σ α} {a : Answer}
    (hreason : ∀ q, a = .unknown q → e.session.reason = q)
    (h : outcome (reported depth read a) e = (.ok o, e')) : a.Tells depth o.finding := by
  cases a with
  | sat =>
    obtain ⟨w, e₁, -, hpure⟩ := outcome_bind_ok.mp h
    obtain ⟨rfl, -⟩ := outcome_pure_ok.mp hpure
    trivial
  | unsat =>
    obtain ⟨rfl, -⟩ := outcome_pure_ok.mp h
    trivial
  | unknown q =>
    change outcome (get >>= _) e = _ at h
    rw [outcome_bind_of_ok (outcome_get _), hreason q rfl] at h
    obtain ⟨rfl, -⟩ := outcome_pure_ok.mp h
    rfl

theorem foundByCheck_of_query {p : Term} {read : EngineM σ α} (hp : e.system.property name = .ok p)
    (hs : outcome (query (task.question hypotheses p e.depth) read) e = (.ok o, e')) :
    FoundByCheck task hypotheses name e o.finding := by
  rw [query_eq, outcome_bind_of_ok (outcome_get e)] at hs
  obtain ⟨_, e₁, hpush, hs⟩ := outcome_bind_ok.mp hs
  obtain ⟨s₁, hpushed, rfl⟩ := talk_eq_ok hpush
  obtain ⟨e₂, hasked, -⟩ := outcome_ensuring_ok.mp hs
  obtain ⟨_, e₃, hasserts, hasked⟩ := outcome_bind_ok.mp hasked
  obtain ⟨ts, hts⟩ := typed_of_asserts hasserts
  rw [hts, asserts_typed] at hasserts
  obtain rfl := talks_said .assert (fun _ => rfl) hasserts
  obtain ⟨a, e₄, hcheck, hreported⟩ := outcome_bind_ok.mp hasked
  obtain ⟨s₄, hchecked, rfl⟩ := talk_eq_ok hcheck
  refine ⟨p, ts, a, s₄, hp, hts, ?_, reported_tells ?_ hreported⟩
  · rw [Session.posed, ← List.singleton_append, converse_append, converse_single .push rfl hpushed]
    exact hchecked
  · rintro q rfl
    exact reason_of_check hchecked

/-- The turn of a name when several are checked, which is the last one if the name is there more than
once. -/
def Turn (one : String → EngineM σ (Outcome α)) (names : List String) (name : String)
    (e e₁ : Engine σ) : Prop :=
  ∃ before after outcomes, names = before ++ name :: after ∧ name ∉ after ∧
    outcome (queryAll one before) e = (.ok outcomes, e₁)

omit [Backend σ] in
theorem keys_of_mapM_one {one : String → EngineM σ (Outcome α)} {names : List String}
    {pairs : List (String × Outcome α)}
    (hs : outcome (names.mapM fun name => do return (name, ← one name)) e = (.ok pairs, e')) :
    pairs.map Prod.fst = names := by
  have hkeeps : ∀ name, Keeps .any (fun _ => True) (one name) := fun _ _ _ _ _ _ _ => trivial
  exact (mapM_one_ok hkeeps trivial hs).1

omit [Backend σ] in
theorem turn_of_queryAll {one : String → EngineM σ (Outcome α)} {names : List String}
    {outcomes : Entries String (Outcome α)} (hname : name ∈ names)
    (hs : outcome (queryAll one names) e = (.ok outcomes, e')) :
    ∃ e₁ o e₂, Turn one names name e e₁ ∧ outcome (one name) e₁ = (.ok o, e₂) ∧
      Entries.get? name outcomes = some o := by
  -- read backwards, the names begin with those that come after the last turn of this one
  obtain ⟨after, before, hsplit, hlast⟩ := List.eq_append_cons_of_mem (List.mem_reverse.mpr hname)
  have hnames : names = before.reverse ++ name :: after.reverse := by
    rw [← List.reverse_reverse names, hsplit, List.reverse_append, List.reverse_cons,
      List.append_assoc, List.singleton_append]
  obtain ⟨pairs, e₁, hpairs, hpure⟩ := outcome_bind_ok.mp hs
  obtain ⟨rfl, rfl⟩ := outcome_pure_ok.mp hpure
  rw [hnames, List.mapM_append, List.mapM_cons] at hpairs
  obtain ⟨firsts, e₂, hfirsts, hpairs⟩ := outcome_bind_ok.mp hpairs
  obtain ⟨rest, e₃, hrest, hpure⟩ := outcome_bind_ok.mp hpairs
  obtain ⟨rfl, rfl⟩ := outcome_pure_ok.mp hpure
  obtain ⟨pair, e₄, hpair, hrest⟩ := outcome_bind_ok.mp hrest
  obtain ⟨o, e₅, hone, hpure⟩ := outcome_bind_ok.mp hpair
  obtain ⟨rfl, rfl⟩ := outcome_pure_ok.mp hpure
  obtain ⟨lasts, e₆, hlasts, hpure⟩ := outcome_bind_ok.mp hrest
  obtain ⟨rfl, rfl⟩ := outcome_pure_ok.mp hpure
  refine ⟨e₂, o, e₅, ⟨before.reverse, after.reverse, Entries.ofList firsts, hnames, by simpa using hlast,
    ?_⟩, hone, ?_⟩
  · exact outcome_bind_ok.mpr ⟨firsts, e₂, hfirsts, rfl⟩
  · apply Entries.get?_ofList_last
    rw [keys_of_mapM_one hlasts]
    simpa using hlast

end Engine

section

variable {σ : Type} [Backend σ] {name : String} {hypotheses : List Term} {bound : Option Int}
  {fuel : Nat} {r : ProofResult}

/-- The check on which the result of a property hangs is aborted: that of the base case, or that of the
induction step if the base case is clear. -/
def Engines.Abort (hypotheses : List Term) (name : String) (e : Engines σ) : Prop :=
  e.base.ChecksIn .base [] name Session.Aborts ∨
    e.base.ChecksIn .base [] name Session.Denies ∧ e.step.ChecksIn .step hypotheses name Session.Aborts

theorem Engines.abort_iff {e : Engines σ} {b : Outcome Trace} {o : Outcome Unit}
    (hb : e.base.FoundByCheck .base [] name b.finding) (ho : e.step.FoundByCheck .step hypotheses name o.finding) :
    e.Abort hypotheses name ↔ b.finding = .unknown cancelledReason ∨
      b.finding = .nothing ∧ o.finding = .unknown cancelledReason := by
  rw [hb.cancelled_iff, hb.nothing_iff, ho.cancelled_iff]
  rfl

namespace BaseCase

open Engine

variable {e e' : Engine σ}

theorem foundByCheck_of_check {o : Outcome Trace} (hs : outcome (check name) e = (.ok o, e')) :
    e.FoundByCheck .base [] name o.finding := by
  obtain ⟨p, e₁, hproperty, hs⟩ := outcome_bind_ok.mp hs
  obtain ⟨hp, rfl⟩ := property_eq_ok.mp hproperty
  rw [outcome_bind_of_ok (outcome_get _)] at hs
  exact foundByCheck_of_query hp hs

def Onward (name : String) (bound : Option Int) (e e' : Engine σ) : Prop :=
  ∃ o e₁, outcome (check name) e = (.ok o, e₁) ∧ o.finding = .nothing ∧
    bound.any (· ≤ e₁.depth) = false ∧ outcome advance e₁ = (.ok (), e')

theorem run_cases (hs : outcome (run name bound (fuel + 1)) e = (.ok (some r), e')) :
    ∃ o e₁, outcome (check name) e = (.ok o, e₁) ∧
      ((∃ t, o.finding = .found t ∧ r = .falsified name t e₁.session.name) ∨
        (∃ reason, o.finding = .unknown reason ∧
          r = .unknown name reason (e₁.depth - 1) e₁.session.name) ∨
        o.finding = .nothing ∧ (r = .unknown name depthExhaustedReason e₁.depth e₁.session.name ∨
          ∃ e₂, Onward name bound e e₂ ∧ outcome (run name bound fuel) e₂ = (.ok (some r), e'))) := by
  unfold run at hs
  obtain ⟨o, e₁, hcheck, hs⟩ := outcome_bind_ok.mp hs
  refine ⟨o, e₁, hcheck, ?_⟩
  rw [outcome_bind_of_ok (outcome_get _)] at hs
  cases hfinding : o.finding with
  | found t =>
    rw [hfinding] at hs
    obtain ⟨hr, -⟩ := outcome_pure_ok.mp hs
    exact .inl ⟨t, rfl, (Option.some.inj hr).symm⟩
  | unknown reason =>
    rw [hfinding] at hs
    obtain ⟨hr, -⟩ := outcome_pure_ok.mp hs
    exact .inr (.inl ⟨reason, rfl, (Option.some.inj hr).symm⟩)
  | nothing =>
    refine .inr (.inr ⟨rfl, ?_⟩)
    rw [hfinding] at hs
    dsimp only at hs
    rw [outcome_ite] at hs
    split at hs
    · obtain ⟨hr, -⟩ := outcome_pure_ok.mp hs
      exact .inl (Option.some.inj hr).symm
    · next hbound =>
      obtain ⟨⟨⟩, e₂, hadvance, hs⟩ := outcome_bind_ok.mp hs
      exact .inr ⟨e₂, ⟨o, e₁, hcheck, hfinding, (Bool.not_eq_true _).mp hbound, hadvance⟩, hs⟩

theorem isCancelled_iff_of_run (hs : outcome (run name bound fuel) e = (.ok (some r), e')) :
    ∃ e₁, Relation.ReflTransGen (Onward name bound) e e₁ ∧
      (r.isCancelled = true ↔ e₁.ChecksIn .base [] name Session.Aborts) := by
  induction fuel generalizing e with
  | zero =>
    obtain ⟨hr, -⟩ := outcome_pure_ok.mp hs
    cases hr
  | succ fuel ih =>
    obtain ⟨o, e₁, hcheck, hrest⟩ := run_cases hs
    have hcancelled := (foundByCheck_of_check hcheck).cancelled_iff
    rcases hrest with ⟨t, hfinding, rfl⟩ | ⟨reason, hfinding, rfl⟩ | ⟨hfinding, rfl | ⟨e₂, honward, hs⟩⟩
    · exact ⟨e, .refl, by simp [← hcancelled, hfinding]⟩
    · exact ⟨e, .refl, by simp [← hcancelled, hfinding]⟩
    · exact ⟨e, .refl, by simp [← hcancelled, hfinding]⟩
    · obtain ⟨e₃, hreaches, hr⟩ := ih hs
      exact ⟨e₃, .head honward hreaches, hr⟩

end BaseCase

namespace InductionStep

open Engine Engines

theorem foundByCheck_of_check {e e' : Engine σ} {o : Outcome Unit}
    (hs : outcome (check hypotheses name) e = (.ok o, e')) :
    e.FoundByCheck .step hypotheses name o.finding := by
  obtain ⟨p, e₁, hproperty, hs⟩ := outcome_bind_ok.mp hs
  obtain ⟨hp, rfl⟩ := property_eq_ok.mp hproperty
  rw [outcome_bind_of_ok (outcome_get _)] at hs
  exact foundByCheck_of_query hp hs

omit [Backend σ] in
theorem isCancelled_of_verdict? {base step : Engine σ} {o : Outcome Unit}
    (h : verdict? name base step bound o = some r) :
    r.isCancelled = true ↔ o.finding = .unknown cancelledReason := by
  unfold verdict? at h
  cases hfinding : o.finding with
  | nothing =>
    rw [hfinding] at h
    obtain rfl := Option.some.inj h
    simp
  | unknown reason =>
    rw [hfinding] at h
    obtain rfl := Option.some.inj h
    simp
  | found w =>
    rw [hfinding] at h
    dsimp only at h
    split at h
    · obtain rfl := Option.some.inj h
      simp
    · cases h

variable {e e' : Engines σ}

def Onward (name : String) (bound : Option Int) (hypotheses : List Term) (e e' : Engines σ) : Prop :=
  ∃ b e₁ o e₂, outcome (onBase (BaseCase.check name)) e = (.ok b, e₁) ∧ b.finding = .nothing ∧
    outcome (onStep (check hypotheses name)) e₁ = (.ok o, e₂) ∧
    verdict? name e₁.base e₂.step bound o = none ∧ outcome advanceBoth e₂ = (.ok (), e')

theorem isCancelled_iff_of_loop
    (hs : outcome (loop name bound hypotheses fuel) e = (.ok (some r), e')) :
    ∃ e₁, Relation.ReflTransGen (Onward name bound hypotheses) e e₁ ∧
      (r.isCancelled = true ↔ e₁.Abort hypotheses name) := by
  induction fuel generalizing e with
  | zero =>
    obtain ⟨hr, -⟩ := outcome_pure_ok.mp hs
    cases hr
  | succ fuel ih =>
    obtain ⟨b, e₁, hbase, hrest⟩ := loop_cases hs
    obtain ⟨base, hb, rfl⟩ := onBase_eq hbase
    have hbfound := BaseCase.foundByCheck_of_check hb
    rcases hrest with ⟨t, hfinding, rfl⟩ | ⟨reason, hfinding, rfl⟩ | ⟨hfinding, o, e₂, hstep, hrest⟩
    · exact ⟨e, .refl, by simp [Abort, ← hbfound.cancelled_iff, ← hbfound.nothing_iff, hfinding]⟩
    · exact ⟨e, .refl, by simp [Abort, ← hbfound.cancelled_iff, ← hbfound.nothing_iff, hfinding]⟩
    rcases hrest with hverdict | ⟨hverdict, e₃, hadvance, hs⟩
    · obtain ⟨step, ho, rfl⟩ := onStep_eq hstep
      refine ⟨e, .refl, ?_⟩
      rw [abort_iff hbfound (foundByCheck_of_check ho), hfinding, isCancelled_of_verdict? hverdict]
      simp
    · obtain ⟨e₄, hreaches, hr⟩ := ih hs
      exact ⟨e₄, .head ⟨b, _, o, e₂, hbase, hfinding, hstep, hverdict, hadvance⟩ hreaches, hr⟩

end InductionStep

end

namespace Attempt

open Engine
open InductionStep (latch)

variable {σ : Type} [Backend σ] {a a' b : Attempt σ} {names : List String} {name : String}
  {r : ProofResult} {n fuel : Nat}

omit [Backend σ] in
theorem isCancelled_of_verdict? {bs : Entries String (Outcome Trace)}
    {os : Entries String (Outcome Unit)} {ob : Outcome Trace} {o : Outcome Unit}
    (hob : Entries.get? name bs = some ob) (ho : Entries.get? name os = some o)
    (h : a.verdict? bs os name = some r) :
    r.isCancelled = true ↔ ob.finding = .unknown cancelledReason ∨
      ob.finding = .nothing ∧ o.finding = .unknown cancelledReason := by
  simp only [verdict?, decision, hob, ho, Option.bind_eq_bind, Option.bind_some] at h
  unfold decide? at h
  split at h
  · next hfinding =>
    obtain rfl := Option.some.inj h
    simp [hfinding]
  · next hfinding =>
    obtain rfl := Option.some.inj h
    simp [hfinding]
  · next hfinding hfinding' =>
    obtain rfl := Option.some.inj h
    simp [hfinding, hfinding']
  · next hfinding hfinding' =>
    obtain rfl := Option.some.inj h
    simp [hfinding, hfinding']
  · next hfinding hfinding' =>
    rw [Option.none_or, exhausted?] at h
    split at h
    · obtain rfl := Option.some.inj h
      simp [hfinding, hfinding']
    · cases h

theorem Finishes.isCancelled_iff (h : b.Finishes name r) :
    ∃ e : Engines σ, Turn BaseCase.check b.pending name b.engines.base e.base ∧
      Turn (InductionStep.check b.lemmas) b.pending name b.engines.step e.step ∧
      (r.isCancelled = true ↔ e.Abort b.lemmas name) := by
  obtain ⟨bs, os, b', -, hchecks, -, hname, hverdict⟩ := h
  obtain ⟨base, step, hbs, hos, -⟩ := checks_eq_ok hchecks
  obtain ⟨e, ob, _, hturn, hcheck, hob⟩ := turn_of_queryAll hname hbs
  obtain ⟨t, o, _, hturn', hcheck', ho⟩ := turn_of_queryAll hname hos
  refine ⟨⟨e, t⟩, hturn, hturn', ?_⟩
  rw [Engines.abort_iff (BaseCase.foundByCheck_of_check hcheck) (InductionStep.foundByCheck_of_check hcheck'),
    isCancelled_of_verdict? hob ho hverdict]

theorem Finishes.not_stops (h : b.Finishes name r) : ¬ b.Stops := by
  obtain ⟨bs, os, b', hgoing, hchecks, hgoing', -⟩ := h
  rintro (hstopped | hstopped)
  · rw [hgoing] at hstopped
    cases hstopped
  · rw [hchecks, hgoing'] at hstopped
    cases hstopped

/-- A result is reported as cancelled if its attempt is called off while the name is open, or else
exactly if the check on which it hangs is aborted, by an interruption or in the words of the solver. -/
theorem cancelled_iff_called_off_or_aborted :
    (∀ (s : TransitionSystem) (c : Config) (cancelled : Bool) (sessions : Task → Session σ)
      (names : List String) (fuel : Nat) (results : Entries String ProofResult) (a' : Attempt σ)
      (name : String) (r : ProofResult),
      outcome (run names fuel) (new s c cancelled sessions) = (.ok (some results), a') →
      Entries.get? name results = some r →
      ∃ n b, n < fuel ∧ Reaches ((new s c cancelled sessions).begun names) n b ∧ name ∈ b.pending ∧
        (b.Stops ∧ r.isCancelled = true ∨
          ¬ b.Stops ∧ ∃ e : Engines σ, Turn BaseCase.check b.pending name b.engines.base e.base ∧
            Turn (InductionStep.check b.lemmas) b.pending name b.engines.step e.step ∧
            (r.isCancelled = true ↔ e.Abort b.lemmas name))) ∧
    (∀ (name : String) (bound : Option Int) (fuel : Nat) (e e' : Engine σ) (r : ProofResult),
      outcome (BaseCase.run name bound fuel) e = (.ok (some r), e') →
      ∃ e₁, Relation.ReflTransGen (BaseCase.Onward name bound) e e₁ ∧
        (r.isCancelled = true ↔ e₁.ChecksIn .base [] name Session.Aborts)) ∧
    ∀ (name : String) (bound : Option Int) (hypotheses : List Term) (fuel : Nat) (e e' : Engines σ)
      (r : ProofResult),
      outcome (InductionStep.run name bound hypotheses fuel) e = (.ok (some r), e') →
      ∃ e₁, Relation.ReflTransGen (InductionStep.Onward name bound hypotheses) e e₁ ∧
        (r.isCancelled = true ↔ e₁.Abort hypotheses name) := by
  refine ⟨fun s c cancelled sessions names fuel results a' name r hs hr => ?_,
    fun name bound fuel e e' r hs => BaseCase.isCancelled_iff_of_run hs,
    fun name bound hypotheses fuel e e' r hs =>
      InductionStep.isCancelled_iff_of_loop (InductionStep.run_eq_ok hs).2⟩
  by_cases hnames : names = []
  · subst hnames
    obtain rfl := Option.some.inj (Except.ok.inj (congrArg Prod.fst hs))
    cases hr
  obtain ⟨a₁, hrounds, rfl⟩ := rounds_of_run hnames hs
  have hopen : name ∈ ((new s c cancelled sessions).begun names).pending := by
    rw [(books_begun _ names).1]
    by_contra hother
    rw [get?_resultsFor_eq, if_neg hother] at hr
    cases hr
  obtain ⟨n, b, r', hn, hreaches, hopen', hr', hends⟩ := finished_or_called_off hopen hrounds
  obtain rfl := Option.some.inj (hr'.symm.trans (get?_resultsFor hr))
  refine ⟨n, b, hn, hreaches, hopen', ?_⟩
  rcases hends with hfinishes | hcalled
  · exact .inr ⟨hfinishes.not_stops, hfinishes.isCancelled_iff⟩
  · exact .inl hcalled

def wearyOracle (reason : String) : Task → Oracle
  | .base => fun _ => { answer := .unknown (some reason) }
  | .step => fun _ => { answer := .unsat }

def wearySessions (reason : String) (task : Task) : Session Pipe :=
  withCvc5.pipe (Solver.ofName "cvc5") { react := (wearyOracle reason task).printer }

theorem latch_unknown_to_solver :
    ∃ results a' r b, outcome (run ["up"] 1) (new latch withCvc5 false (wearySessions "timeout")) =
        (.ok (some results), a') ∧
      Entries.get? "up" results = some r ∧ r.isUnknown = true ∧
      Reaches ((new latch withCvc5 false (wearySessions "timeout")).begun ["up"]) 0 b ∧
      ∃ e : Engines Pipe, Turn BaseCase.check b.pending "up" b.engines.base e.base ∧
        ¬ e.Abort b.lemmas "up" := by
  have hends : ((new latch withCvc5 false (wearySessions "timeout")).report ["up"] 1 "up").any
      (fun r => r.isUnknown && !r.isCancelled) = true := by decide +kernel
  obtain ⟨r, hr, hreason⟩ := (Option.any_eq_true _ _).mp hends
  obtain ⟨hunknown, hopen⟩ : r.isUnknown = true ∧ r.isCancelled = false := by simpa using hreason
  obtain ⟨results, a', hs, hget⟩ := report_eq_some.mp hr
  obtain ⟨n, b, hn, hreaches, -, ⟨-, hcancelled⟩ | ⟨-, e, hturn, -, habort⟩⟩ :=
    cancelled_iff_called_off_or_aborted.1 latch withCvc5 false (wearySessions "timeout") ["up"] 1 results
      a' "up" r hs hget
  · rw [hopen] at hcancelled
    cases hcancelled
  · obtain rfl : n = 0 := by omega
    refine ⟨results, a', r, b, hs, hget, hunknown, hreaches, e, hturn, ?_⟩
    rw [← habort, hopen]
    simp

/-- Nobody has cancelled the attempt or interrupted a session, and nothing has waited. -/
theorem latch_cancelled_by_solver :
    (∀ m, withCvc5.place m = .ok (.external (Solver.ofName "cvc5"))) ∧
      ∃ results a', outcome (run ["up"] 1) (new latch withCvc5 false (wearySessions "cancelled")) =
          (.ok (some results), a') ∧
        (Entries.get? "up" results).any ProofResult.isCancelled = true ∧ a'.isStopped = false ∧
        ∀ task, (a'.engines.link task).interrupted = false ∧ (a'.engines.link task).waited = false := by
  have hends : ((outcome (run ["up"] 1) (new latch withCvc5 false
      (wearySessions "cancelled"))).1.toOption.join.any fun results =>
        (Entries.get? "up" results).any ProofResult.isCancelled) = true := by decide +kernel
  have hcalm : (outcome (run ["up"] 1) (new latch withCvc5 false
      (wearySessions "cancelled"))).2.isStopped = false ∧ ∀ task ∈ [Task.base, .step],
        ((outcome (run ["up"] 1) (new latch withCvc5 false
          (wearySessions "cancelled"))).2.engines.link task).interrupted = false ∧
        ((outcome (run ["up"] 1) (new latch withCvc5 false
          (wearySessions "cancelled"))).2.engines.link task).waited = false := by decide +kernel
  rcases hrun : outcome (run ["up"] 1) (new latch withCvc5 false (wearySessions "cancelled")) with
    ⟨error | _ | results, a'⟩
  · rw [hrun] at hends
    cases hends
  · rw [hrun] at hends
    cases hends
  · rw [hrun] at hends hcalm
    refine ⟨place_withCvc5, results, a', rfl, hends, hcalm.1, fun task => hcalm.2 task ?_⟩
    cases task <;> simp

end Attempt

end InvariantProver
