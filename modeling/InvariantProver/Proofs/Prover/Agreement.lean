import InvariantProver.Proofs.Prover.Progress
import InvariantProver.Proofs.Session.Conversation
import InvariantProver.Prover.InductionStep
import Mathlib.Data.List.Induction

namespace InvariantProver

open Session

namespace Task

def part (task : Task) (u : Unrolling) : List Term :=
  match task with
  | base => u.assertions
  | step => u.trans

def question (task : Task) (hypotheses : List Term) (p : Term) (d : Int) :
    List (Except TypeError Term) :=
  match task with
  | base => [(p.reindex d).negate]
  | step =>
    [Term.conj (InductionStep.assumed (p :: hypotheses.filter (· ≠ p)) d), (p.reindex d).negate]

def placing (task : Task) (s : TransitionSystem) (i : Nat) : List Act :=
  (s.variables.map fun v => .declare v i) ++ (task.assumptions s i).map .assert

def reading (task : Task) (s : TransitionSystem) (d : Nat) : List Act :=
  match task with
  | base => [.values (s.unrolling d).refs]
  | step => []

theorem asserted_eq_part (task : Task) (s : TransitionSystem) (d : Nat) :
    task.asserted s (d + 1) = task.part (s.unrolling d) := by
  induction d with
  | zero => cases task <;> rfl
  | succ d ih =>
    have hlast : task.assumptions s (d + 1) = [s.transAt d] := by cases task <;> rfl
    rw [asserted_succ, ih, hlast]
    cases task <;>
      simp [part, Unrolling.assertions, TransitionSystem.unrolling, List.range_succ]

end Task

inductive Engine.Call
  | advance
  | check (hypotheses : List Term) (names : List String)

namespace Engine.Call

def names : Call → List String
  | advance => []
  | check _ names => names

def hypotheses : Call → List Term
  | advance => []
  | check hypotheses _ => hypotheses

def isAdvance : Call → Bool
  | advance => true
  | check .. => false

def Suits (s : TransitionSystem) (call : Call) : Prop :=
  ∀ t ∈ call.hypotheses, ∃ name, s.property name = .ok t

end Engine.Call

namespace Task

variable {σ : Type} [Backend σ]

def new (task : Task) (s : TransitionSystem) (session : Session σ) : Engine σ :=
  match task with
  | base => BaseCase.new s session
  | step => InductionStep.new s session

def start : Task → EngineM σ Unit
  | base => BaseCase.start
  | step => InductionStep.start

def perform (task : Task) (call : Engine.Call) : EngineM σ Unit :=
  match call, task with
  | .advance, _ => Engine.advance
  | .check _ names, base => do let _ ← BaseCase.checkAll names
  | .check hypotheses names, step => do let _ ← InductionStep.checkAll hypotheses names

def engine (task : Task) (s : TransitionSystem) (session : Session σ) (calls : List Engine.Call) :
    Engine σ :=
  calls.foldl (fun e call => (outcome (task.perform call) e).2)
    (outcome task.start (task.new s session)).2

end Task

section

variable {σ : Type} [Backend σ]

def Session.Gives (t : Session σ) (refs : List Ref) : Prop :=
  ∃ entries, (outcome (values refs) t).1 = .ok entries ∧ ∀ r ∈ refs, ∃ v, Entries.get? r entries = some v

namespace Task

def reads (task : Task) (s : TransitionSystem) (d : Nat) : Except SessionError Answer → List Act
  | .ok .sat => task.reading s d
  | _ => []

theorem isQuestion_of_reads {task : Task} {s : TransitionSystem} {d : Nat} (r : Except SessionError Answer) :
    ∀ act ∈ task.reads s d r, act.isQuestion = true := by
  unfold reads
  split
  · cases task <;> simp [reading, Act.isQuestion]
  · simp

def query (task : Task) (s : TransitionSystem) (d : Nat) (ts : List Term) (t : Session σ) : List Act :=
  Act.inquiry ts (task.reads s d (outcome Session.check (t.posed ts)).1)

/-- A session answers the check, and if the base case wants to read a model, it gives all values. -/
def Answers (task : Task) (s : TransitionSystem) (d : Nat) (t : Session σ) : Prop :=
  ∃ a t', outcome Session.check t = (.ok a, t') ∧
    (a = .sat → task = .base → t'.Gives (s.unrolling d).refs)

/-- The operations of a query about one property, and whether it comes to an outcome. -/
inductive Queries (task : Task) (s : TransitionSystem) (hypotheses : List Term) (d : Nat)
    (t : Session σ) (name : String) : List Act → Bool → Prop
  | unknown {e : UnknownProperty} : s.property name = .error e →
      Queries task s hypotheses d t name [] false
  | known {p : Term} {ts : List Term} {done : Bool} : s.property name = .ok p →
      task.question hypotheses p d = ts.map .ok → (done = true ↔ task.Answers s d (t.posed ts)) →
      Queries task s hypotheses d t name (task.query s d ts t) done

/-- Queries about properties in turn, up to the first that does not come to an outcome. -/
inductive QueriesInTurn (task : Task) (s : TransitionSystem) (hypotheses : List Term) (d : Nat) :
    Session σ → List String → List Act → Bool → Prop
  | done {t : Session σ} : QueriesInTurn task s hypotheses d t [] [] true
  | fails {t : Session σ} {name : String} {names : List String} {acts : List Act} :
      task.Queries s hypotheses d t name acts false →
      QueriesInTurn task s hypotheses d t (name :: names) acts false
  | next {t : Session σ} {name : String} {names : List String} {acts more : List Act} {done : Bool} :
      task.Queries s hypotheses d t name acts true →
      QueriesInTurn task s hypotheses d (t.converse acts) names more done →
      QueriesInTurn task s hypotheses d t (name :: names) (acts ++ more) done

/-- The operations of a call on an engine at depth `d`, and whether it comes to its end. -/
def Makes (task : Task) (s : TransitionSystem) (d : Nat) (t : Session σ) (acts : List Act) (done : Bool) :
    Engine.Call → Prop
  | .advance => acts = task.placing s (d + 1) ∧ done = true
  | .check hypotheses names => task.QueriesInTurn s hypotheses d t names acts done

end Task

end

namespace Engine

variable {σ α β : Type} [Backend σ] {s₀ : Session σ} {s : TransitionSystem} {task : Task} {n : Nat}
  {acts : List Act} {e e' : Engine σ}

structure Settled (s₀ : Session σ) (s : TransitionSystem) (task : Task) (n : Nat) (acts : List Act)
    (e : Engine σ) : Prop where
  session : ∃ scope, Steady s₀ acts [scope] e.session ∧ Declared s n scope
  frames : Act.framesOf acts = [task.asserted s n]
  system : e.system = s
  task : e.task = task
  placed : e.placed = n

theorem framesOf_declares (vs : List Variable) (step : Int) (acts : List Act) :
    Act.framesOf (acts ++ vs.map fun v => .declare v step) = Act.framesOf acts := by
  induction vs generalizing acts with
  | nil => rw [List.map_nil, List.append_nil]
  | cons v vs ih =>
    rw [List.map_cons, List.append_cons, ih, Act.framesOf_concat]
    rfl

theorem declares_steady (hd : Dependable s₀) {vs : List Variable} (hnodup : vs.Nodup) {step : Nat}
    {scope : List Ref} (h : Steady s₀ acts [scope] e.session)
    (hfresh : ∀ v ∈ vs, (⟨v, step⟩ : Ref) ∉ scope) :
    ∃ t, outcome (vs.forM fun v => talk (Session.declare v step)) e = (.ok (), { e with session := t }) ∧
      ∃ scope', Steady s₀ (acts ++ vs.map fun v => .declare v step) [scope'] t ∧
        Added scope vs step scope' := by
  refine talks_return (I := fun before t => ∃ scope',
    Steady s₀ (acts ++ before.map fun v => .declare v step) [scope'] t ∧
      Added scope before step scope') ?_ ⟨scope, by rwa [List.map_nil, List.append_nil], by simp [Added]⟩
  rintro before v after s rfl ⟨scope', h, hadded⟩
  have hnew := hadded.fresh hnodup (hfresh v (by simp))
  obtain ⟨t, hs, h'⟩ := h.declare hd (by simpa using hnew)
  exact ⟨t, hs, _, by rwa [List.map_append, ← List.append_assoc], hadded.concat v⟩

theorem asserts_steady (hd : Dependable s₀) {ts : List Term} {scopes : List (List Ref)}
    (h : Steady s₀ acts scopes e.session)
    (hts : ∀ t ∈ ts, t.ty = .bool ∧ ∀ r ∈ t.refs, ∃ scope ∈ scopes, r ∈ scope) :
    ∃ t, outcome (ts.forM fun t => talk (Session.assert t)) e = (.ok (), { e with session := t }) ∧
      Steady s₀ (acts ++ ts.map .assert) scopes t := by
  refine talks_return (I := fun before t => Steady s₀ (acts ++ before.map .assert) scopes t) ?_
    (by rwa [List.map_nil, List.append_nil])
  rintro before p after s rfl h
  obtain ⟨hty, hrefs⟩ := hts p (by simp)
  obtain ⟨t, hs, h'⟩ := h.assert hd hty hrefs
  exact ⟨t, hs, by rwa [List.map_append, ← List.append_assoc]⟩

theorem Settled.advance (hd : Dependable s₀) (h : Settled s₀ s task n acts e) :
    ∃ e', outcome Engine.advance e = (.ok (), e') ∧
      Settled s₀ s task (n + 1) (acts ++ task.placing s n) e' := by
  obtain ⟨⟨scope, hsteady, hscope⟩, hframes, rfl, rfl, rfl⟩ := h
  obtain ⟨t, hdeclares, scope', hsteady', hscope'⟩ :=
    declares_steady hd e.system.nodup_variables hsteady fun v _ => hscope.fresh v
  have hall : Declared e.system (e.placed + 1) scope' := hscope.succ hscope'
  have hcovers : ∀ u ∈ e.task.assumptions e.system e.placed,
      u.ty = .bool ∧ ∀ r ∈ u.refs, ∃ scope ∈ [scope'], r ∈ scope :=
    fun u hu => (covers_assumptions u hu).declared (hall.exists_scope (by simp))
  obtain ⟨t', hasserts, hsteady''⟩ := asserts_steady (e := { e with session := t }) hd hsteady' hcovers
  have hs : outcome Engine.advance e =
      (.ok (), { e with session := t', placed := e.placed + 1 }) := by
    unfold Engine.advance
    rw [outcome_bind_of_ok (outcome_get e), outcome_bind_of_ok hdeclares, outcome_bind_of_ok hasserts]
    rfl
  refine ⟨_, hs, ⟨scope', by rwa [List.append_assoc] at hsteady'', hall⟩, ?_, rfl, rfl, rfl⟩
  have hdeclared := (framesOf_declares e.system.variables e.placed acts).trans hframes
  rw [Task.placing, ← List.append_assoc, Act.framesOf_asserts _ hdeclared, Task.asserted_succ]

def Obeys (r : Except ProofError α) : Prop := ∀ m, r ≠ .error (.session (.misuse m))

theorem Obeys.ok (a : α) : Obeys (.ok a) := by simp [Obeys]

theorem Obeys.error {error : ProofError} (h : Obeys (.error error : Except ProofError α)) :
    Obeys (.error error : Except ProofError β) := by
  rintro m hm
  cases hm
  exact h m rfl

theorem obeys_of_session {error : SessionError}
    (h : ∀ m, (.error error : Except SessionError α) ≠ .error (.misuse m)) :
    Obeys (.error (.session error) : Except ProofError β) := by
  rintro m hm
  cases hm
  exact h m rfl

theorem Obeys.map {r : Except ProofError α} (h : Obeys r) (f : α → β) : Obeys (r.map f) := by
  cases r with
  | ok a => exact .ok _
  | error error => exact h.error

theorem isOk_map (r : Except ProofError α) (f : α → β) : (r.map f).isOk = r.isOk := by
  cases r <;> rfl

def Moves (s₀ : Session σ) (acts : List Act) (scopes : List (List Ref)) (e e' : Engine σ) : Prop :=
  ∃ t, e' = { e with session := t } ∧ Steady s₀ acts scopes t

def Reads (s₀ : Session σ) (s : TransitionSystem) (task : Task) (d : Nat) (e : Engine σ)
    (read : EngineM σ α) : Prop :=
  ∀ ⦃acts scopes t r e'⦄, Steady s₀ acts scopes t → t.hasModel = true →
    (∀ r ∈ (s.unrolling d).refs, ∃ scope ∈ scopes, r ∈ scope) →
    outcome read { e with session := t } = (r, e') →
    Moves s₀ (acts ++ task.reading s d) scopes e e' ∧ Obeys r ∧
      (r.isOk = true ↔ (task = .base → t.Gives (s.unrolling d).refs))

section

variable {read : EngineM σ α} {t : Session σ} {scopes : List (List Ref)}
  {r : Except ProofError (Outcome α)} {d : Nat}

theorem reported_steady {a : Answer} (hread : Reads s₀ s task d e read) (h : Steady s₀ acts scopes t)
    (hmodel : a = .sat → t.hasModel = true)
    (hdeclared : ∀ r ∈ (s.unrolling d).refs, ∃ scope ∈ scopes, r ∈ scope) {depth : Int}
    (hs : outcome (reported depth read a) { e with session := t } = (r, e')) :
    Moves s₀ (acts ++ task.reads s d (.ok a)) scopes e e' ∧ Obeys r ∧
      (r.isOk = true ↔ (a = .sat → task = .base → t.Gives (s.unrolling d).refs)) := by
  have hquiet : Steady s₀ (acts ++ []) scopes t := by rwa [List.append_nil]
  cases a with
  | sat =>
    change outcome (read >>= _) _ = _ at hs
    rw [outcome_bind] at hs
    rcases hr : outcome read { e with session := t } with ⟨error | w, e₁⟩
    · obtain ⟨hmoves, hobeys, hok⟩ := hread h (hmodel rfl) hdeclared hr
      rw [hr] at hs
      obtain ⟨rfl, rfl⟩ := Prod.mk.inj hs
      exact ⟨hmoves, hobeys.error, hok.trans ⟨fun h _ => h, fun h => h rfl⟩⟩
    · obtain ⟨hmoves, -, hok⟩ := hread h (hmodel rfl) hdeclared hr
      rw [hr] at hs
      obtain ⟨rfl, rfl⟩ := Prod.mk.inj hs
      exact ⟨hmoves, .ok _, hok.trans ⟨fun h _ => h, fun h => h rfl⟩⟩
  | unsat =>
    obtain ⟨rfl, rfl⟩ := Prod.mk.inj hs
    exact ⟨⟨t, rfl, hquiet⟩, .ok _, fun _ => nofun, fun _ => rfl⟩
  | unknown reason =>
    obtain ⟨rfl, rfl⟩ := Prod.mk.inj hs
    exact ⟨⟨t, rfl, hquiet⟩, .ok _, fun _ => nofun, fun _ => rfl⟩

theorem asked_steady {ts : List Term} (hd : Dependable s₀) (hread : Reads s₀ s task d e read)
    (h : Steady s₀ acts scopes t)
    (hts : ∀ t ∈ ts, t.ty = .bool ∧ ∀ r ∈ t.refs, ∃ scope ∈ scopes, r ∈ scope)
    (hdeclared : ∀ r ∈ (s.unrolling d).refs, ∃ scope ∈ scopes, r ∈ scope) {depth : Int}
    (hs : outcome (asked depth (ts.map .ok) read) { e with session := t } = (r, e')) :
    ∃ t₁, t₁ = s₀.converse (acts ++ ts.map .assert) ∧
      Moves s₀ (acts ++ ts.map .assert ++ [.check] ++ task.reads s d (outcome Session.check t₁).1)
        scopes e e' ∧
      Obeys r ∧ (r.isOk = true ↔ task.Answers s d t₁) := by
  obtain ⟨t₁, hasserts, h₁⟩ := asserts_steady (e := { e with session := t }) hd h hts
  refine ⟨t₁, h₁.said, ?_⟩
  rcases hcheck : outcome Session.check t₁ with ⟨answer, t₂⟩
  obtain ⟨h₂, hobeys⟩ := h₁.check hd hcheck
  unfold asked at hs
  rw [asserts_typed, outcome_bind_of_ok hasserts, outcome_bind, outcome_talk, hcheck] at hs
  unfold Task.Answers
  rw [hcheck]
  cases answer with
  | error error =>
    obtain ⟨rfl, rfl⟩ := Prod.mk.inj hs
    have hnothing : task.reads s d (.error error) = [] := rfl
    refine ⟨⟨t₂, rfl, by rwa [hnothing, List.append_nil]⟩, obeys_of_session hobeys, nofun, ?_⟩
    rintro ⟨a, t', ⟨⟩, -⟩
  | ok a =>
    have hmodel : a = .sat → t₂.hasModel = true := by
      rintro rfl
      exact hasModel_of_check hcheck
    obtain ⟨hmoves, hobeys', hok⟩ := reported_steady hread h₂ hmodel hdeclared hs
    refine ⟨hmoves, hobeys', hok.trans ⟨fun h => ⟨a, t₂, rfl, h⟩, ?_⟩⟩
    rintro ⟨a', t', heq, h⟩
    obtain ⟨ha, rfl⟩ := Prod.mk.inj heq
    obtain rfl := Except.ok.inj ha
    exact h

end

theorem Settled.query {d : Nat} {read : EngineM σ α} {ts : List Term} {r : Except ProofError (Outcome α)}
    (hd : Dependable s₀) (h : Settled s₀ s task (d + 1) acts e) (hts : ∀ t ∈ ts, s.Covers (d + 1 : Nat) t)
    (hread : Reads s₀ s task d e read) (hs : outcome (Engine.query (ts.map .ok) read) e = (r, e')) :
    Settled s₀ s task (d + 1) (acts ++ task.query s d ts e.session) e' ∧ Obeys r ∧
      (r.isOk = true ↔ task.Answers s d (e.session.posed ts)) := by
  obtain ⟨⟨scope, hsteady, hscope⟩, hframes, hsystem, htask, hplaced⟩ := h
  have hdeclared : ∀ r : Ref, r.var ∈ s.variables → 0 ≤ r.step → r.step < (d + 1 : Nat) →
      ∃ scope' ∈ [[], scope], r ∈ scope' := hscope.exists_scope (by simp)
  have hrefs : ∀ r ∈ (s.unrolling d).refs, ∃ scope' ∈ [[], scope], r ∈ scope' := by
    intro r hr
    obtain ⟨hvar, hpos, hlt⟩ := TransitionSystem.mem_refs_unrolling.mp hr
    exact hdeclared r hvar hpos hlt
  obtain ⟨t₁, hpush, h₁⟩ := hsteady.push hd
  rcases hasked : outcome (asked e.depth (ts.map .ok) read) { e with session := t₁ } with ⟨r₁, e₁⟩
  obtain ⟨t₂, hposed, ⟨t₃, rfl, h₃⟩, hobeys, hok⟩ :=
    asked_steady hd hread h₁ (fun t ht => (hts t ht).declared hdeclared) hrefs hasked
  have hsame : t₂ = e.session.posed ts := by
    rw [hposed, Session.posed, hsteady.said, ← converse_append, List.append_assoc]
    rfl
  subst hsame
  obtain ⟨t₄, hpop, h₄⟩ := h₃.pop (by simp) hd
  rw [query_eq, outcome_bind_of_ok (outcome_get e), outcome_bind_of_ok (outcome_talk_ok hpush),
    outcome_ensuring, hasked, outcome_talk_ok hpop] at hs
  obtain ⟨rfl, rfl⟩ := Prod.mk.inj hs
  refine ⟨⟨⟨scope, ?_, hscope⟩, ?_, hsystem, htask, hplaced⟩, hobeys, hok⟩
  · rw [Task.query, Act.inquiry]
    simpa only [List.append_assoc, List.cons_append, List.nil_append] using h₄
  · exact Act.framesOf_inquiry hframes ts (Task.isQuestion_of_reads _)

def Inquires (s₀ : Session σ) (s : TransitionSystem) (task : Task) (hypotheses : List Term) (d : Nat)
    (name : String) (m : EngineM σ α) : Prop :=
  ∀ ⦃acts e r e'⦄, Settled s₀ s task (d + 1) acts e → outcome m e = (r, e') →
    ∃ more, Settled s₀ s task (d + 1) (acts ++ more) e' ∧
      task.Queries s hypotheses d e.session name more r.isOk ∧ Obeys r

section

variable {hypotheses : List Term} {d : Nat} {name : String}

theorem inquires_of_known {ask : Term → EngineM σ (Outcome α)}
    (h : ∀ p, s.property name = .ok p → ∃ ts, task.question hypotheses p d = ts.map .ok ∧
      ∀ ⦃acts e r e'⦄, Settled s₀ s task (d + 1) acts e → outcome (ask p) e = (r, e') →
        Settled s₀ s task (d + 1) (acts ++ task.query s d ts e.session) e' ∧ Obeys r ∧
          (r.isOk = true ↔ task.Answers s d (e.session.posed ts))) :
    Inquires s₀ s task hypotheses d name (Engine.property name >>= ask) := by
  intro acts e r e' hsettled hs
  cases hp : s.property name with
  | ok p =>
    have hproperty : outcome (Engine.property name) e = (.ok p, e) :=
      property_eq_ok.mpr ⟨hsettled.system ▸ hp, rfl⟩
    rw [outcome_bind_of_ok hproperty] at hs
    obtain ⟨ts, hquestion, hask⟩ := h p hp
    obtain ⟨hsettled', hobeys, hok⟩ := hask hsettled hs
    exact ⟨_, hsettled', .known hp hquestion hok, hobeys⟩
  | error error =>
    have hproperty : outcome (Engine.property name) e = (.error (.unknownProperty error), e) := by
      unfold Engine.property
      rw [outcome_bind_of_ok (outcome_get e), hsettled.system, hp]
      rfl
    rw [outcome_bind, hproperty] at hs
    obtain ⟨rfl, rfl⟩ := Prod.mk.inj hs
    exact ⟨[], by rwa [List.append_nil], .unknown hp, by simp [Obeys]⟩

theorem Settled.queryAll {one : String → EngineM σ (Outcome α)} {names : List String}
    {r : Except ProofError (Entries String (Outcome α))} (h : Settled s₀ s task (d + 1) acts e)
    (hone : ∀ name ∈ names, Inquires s₀ s task hypotheses d name (one name))
    (hs : outcome (Engine.queryAll one names) e = (r, e')) :
    ∃ more, Settled s₀ s task (d + 1) (acts ++ more) e' ∧
      task.QueriesInTurn s hypotheses d e.session names more r.isOk ∧ Obeys r := by
  suffices hpairs : ∀ {q e'}, outcome (names.mapM fun name => do return (name, ← one name)) e = (q, e') →
      ∃ more, Settled s₀ s task (d + 1) (acts ++ more) e' ∧
        task.QueriesInTurn s hypotheses d e.session names more q.isOk ∧ Obeys q by
    rcases hq : outcome (names.mapM fun name => do return (name, ← one name)) e with ⟨q, e₁⟩
    obtain ⟨more, hsettled, hqueries, hobeys⟩ := hpairs hq
    obtain ⟨rfl, rfl⟩ : q.map Entries.ofList = r ∧ e₁ = e' := by
      have hmap : Engine.queryAll one names =
          Entries.ofList <$> names.mapM fun name => do return (name, ← one name) := rfl
      rw [hmap, outcome_map, hq] at hs
      exact Prod.mk.inj hs
    exact ⟨more, hsettled, by rwa [isOk_map], hobeys.map _⟩
  clear hs
  induction names generalizing acts e with
  | nil =>
    intro q e' hs
    rw [List.mapM_nil] at hs
    obtain ⟨rfl, rfl⟩ := Prod.mk.inj hs
    exact ⟨[], by rwa [List.append_nil], .done, .ok _⟩
  | cons name names ih =>
    intro q e' hs
    rcases hfirst : outcome (one name) e with ⟨r₁, e₁⟩
    obtain ⟨first, h₁, hqueries, hobeys⟩ := hone name (by simp) h hfirst
    have hpair : outcome (do return (name, ← one name) : EngineM σ _) e = (r₁.map (name, ·), e₁) := by
      change outcome ((name, ·) <$> one name) e = _
      rw [outcome_map, hfirst]
    rw [List.mapM_cons, outcome_bind, hpair] at hs
    cases r₁ with
    | error error =>
      obtain ⟨rfl, rfl⟩ := Prod.mk.inj hs
      exact ⟨first, h₁, .fails hqueries, hobeys.error⟩
    | ok o =>
      rcases hrest : outcome (names.mapM fun name => do return (name, ← one name)) e₁ with ⟨q₁, e₂⟩
      obtain ⟨more, h₂, hqueries', hobeys'⟩ :=
        ih h₁ (fun name' hname => hone name' (List.mem_cons_of_mem name hname)) hrest
      have hconverse : e₁.session = e.session.converse first := by
        obtain ⟨_, hsteady, -⟩ := h.session
        obtain ⟨_, hsteady', -⟩ := h₁.session
        rw [hsteady'.said, converse_append, ← hsteady.said]
      have hall : q = q₁.map ((name, o) :: ·) ∧ e' = e₂ := by
        change outcome (((name, o) :: ·) <$> names.mapM fun name => do return (name, ← one name)) e₁ = _ at hs
        rw [outcome_map, hrest] at hs
        exact ⟨(Prod.mk.inj hs).1.symm, (Prod.mk.inj hs).2.symm⟩
      obtain ⟨rfl, rfl⟩ := hall
      refine ⟨first ++ more, by rwa [← List.append_assoc], ?_, hobeys'.map _⟩
      rw [isOk_map]
      exact .next hqueries (hconverse ▸ hqueries')

end

end Engine

def InQuestion (s : TransitionSystem) (task : Task) (hypotheses : List Term) (names : List String)
    (d : Nat) (active : List Term) : Prop :=
  ∃ name ∈ names, ∃ p ts, s.property name = .ok p ∧ task.question hypotheses p d = ts.map .ok ∧
    active = task.part (s.unrolling d) ++ ts

namespace Task

variable {σ : Type} [Backend σ] {s : TransitionSystem} {task : Task} {hypotheses : List Term} {d : Nat}
  {t : Session σ} {name : String} {names : List String} {acts more : List Act} {done : Bool}

theorem Queries.framesOf (h : task.Queries s hypotheses d t name more done)
    (hframes : Act.framesOf acts = [task.asserted s (d + 1)]) :
    Act.framesOf (acts ++ more) = [task.asserted s (d + 1)] := by
  cases h with
  | unknown hp => rwa [List.append_nil]
  | known hp hquestion hdone => exact Act.framesOf_inquiry hframes _ (isQuestion_of_reads _)

theorem Queries.checksAt (h : task.Queries s hypotheses d t name more done) (hname : name ∈ names)
    (hframes : Act.framesOf acts = [task.asserted s (d + 1)]) :
    Act.ChecksAt (InQuestion s task hypotheses names d) acts more := by
  cases h with
  | unknown hp => exact .nil
  | known hp hquestion hdone =>
    refine .inquiry hframes (isQuestion_of_reads _) ⟨name, hname, _, _, hp, hquestion, ?_⟩
    rw [asserted_eq_part]

theorem QueriesInTurn.checksAt (h : task.QueriesInTurn s hypotheses d t names more done)
    (hframes : Act.framesOf acts = [task.asserted s (d + 1)]) :
    Act.ChecksAt (InQuestion s task hypotheses names d) acts more := by
  suffices hall : ∀ others, (∀ name ∈ names, name ∈ others) →
      Act.ChecksAt (InQuestion s task hypotheses others d) acts more from hall names fun _ => id
  induction h generalizing acts with
  | done => exact fun _ _ => .nil
  | fails hqueries => exact fun others hnames => hqueries.checksAt (hnames _ (by simp)) hframes
  | next hqueries _ ih =>
    intro others hnames
    refine .append (hqueries.checksAt (hnames _ (by simp)) hframes) ?_
    exact ih (hqueries.framesOf hframes) others fun name hname => hnames name (List.mem_cons_of_mem _ hname)

end Task

namespace BaseCase

open Engine

variable {σ : Type} [Backend σ] {s₀ : Session σ} {s : TransitionSystem} {d : Nat}

theorem reads_trace (hd : Dependable s₀) {e : Engine σ} (hsystem : e.system = s)
    (hplaced : e.placed = d + 1) : Reads s₀ s .base d e trace := by
  intro acts scopes t r e' h hmodel hdeclared hs
  subst hsystem
  have hrefs : (e.system.unrolling d).refs = e.system.refsBelow e.placed := by
    rw [hplaced, TransitionSystem.refs_unrolling]
  rcases hvalues : outcome (Session.values (e.system.unrolling d).refs) t with ⟨q, t'⟩
  obtain ⟨h', hobeys⟩ := h.values hd hmodel hdeclared hvalues
  have htrace := outcome_trace (e := { e with session := t }) (hrefs ▸ hvalues)
  rw [htrace] at hs
  obtain ⟨rfl, rfl⟩ := Prod.mk.inj hs
  refine ⟨⟨t', rfl, h'⟩, ?_⟩
  unfold Session.Gives
  rw [hvalues]
  cases q with
  | error error => exact ⟨obeys_of_session hobeys, nofun, by rintro h; obtain ⟨_, ⟨⟩, -⟩ := h rfl⟩
  | ok values =>
    cases htraced : traced { e with session := t } values with
    | ok w =>
      refine ⟨?_, fun _ _ => ⟨values, rfl, hrefs ▸ traced_eq_ok htraced⟩, fun _ => ?_⟩
      · change Obeys (traced _ values)
        rw [htraced]
        exact .ok _
      · change (traced _ values).isOk = true
        rw [htraced]
        rfl
    | error error =>
      obtain ⟨r, hr, rfl, hmissing⟩ := traced_eq_error htraced
      change Obeys (traced _ values) ∧ ((traced _ values).isOk = true ↔ _)
      rw [htraced]
      refine ⟨by simp [Obeys], nofun, fun h => ?_⟩
      obtain ⟨_, heq, hall⟩ := h rfl
      obtain rfl := Except.ok.inj heq
      obtain ⟨v, hv⟩ := hall r (hrefs ▸ hr)
      rw [hmissing] at hv
      cases hv

theorem inquires_check (hd : Dependable s₀) (hypotheses : List Term) (name : String) :
    Inquires s₀ s .base hypotheses d name (check name) := by
  refine inquires_of_known fun p hp => ?_
  obtain ⟨q, hq, hcovers⟩ := TransitionSystem.covers_negate hp d
  refine ⟨[q], congrArg (fun t => [t]) hq, fun acts e r e' h hs => ?_⟩
  rw [outcome_bind_of_ok (outcome_get e), depth_of_placed h.placed, hq] at hs
  have hall : ∀ t ∈ [q], s.Covers (d + 1 : Nat) t := by simpa using hcovers
  exact h.query hd hall (reads_trace hd h.system h.placed) hs

end BaseCase

namespace InductionStep

open Engine

variable {σ : Type} [Backend σ] {s₀ : Session σ} {s : TransitionSystem} {name : String} {p : Term}
  {hypotheses : List Term}

theorem question_eq (hp : s.property name = .ok p)
    (hhypotheses : ∀ t ∈ hypotheses, ∃ name, s.property name = .ok t) (k : Nat) :
    ∃ u q, Term.conj (assumed (p :: hypotheses.filter (· ≠ p)) k) = .ok u ∧
      (p.reindex k).negate = .ok q ∧ Task.step.question hypotheses p k = [u, q].map .ok ∧
      ∀ t ∈ [u, q], s.Covers (k + 1 : Nat) t := by
  obtain ⟨u, hu, hucovers⟩ := covers_assumed (property_of_assumed hp hhypotheses) k
  obtain ⟨q, hq, hqcovers⟩ := TransitionSystem.covers_negate hp k
  refine ⟨u, q, hu, hq, ?_, ?_⟩
  · rw [Task.question, hu, hq]
    rfl
  · intro t ht
    rcases List.mem_cons.mp ht with rfl | ht
    · exact hucovers
    · obtain rfl := List.mem_singleton.mp ht
      exact hqcovers

theorem inquires_check (hd : Dependable s₀)
    (hhypotheses : ∀ t ∈ hypotheses, ∃ name, s.property name = .ok t) (d : Nat) (name : String) :
    Inquires s₀ s .step hypotheses d name (check hypotheses name) := by
  refine inquires_of_known fun p hp => ?_
  obtain ⟨u, q, hu, hq, hquestion, hcovers⟩ := question_eq hp hhypotheses d
  refine ⟨[u, q], hquestion, fun acts e r e' h hs => ?_⟩
  have hreads : Reads s₀ s .step d e (pure () : EngineM σ Unit) := by
    intro acts scopes t r e' h _ _ hs
    obtain ⟨rfl, rfl⟩ := Prod.mk.inj hs
    exact ⟨⟨t, rfl, by rwa [Task.reading, List.append_nil]⟩, .ok (), fun _ => nofun, fun _ => rfl⟩
  rw [outcome_bind_of_ok (outcome_get e), depth_of_placed h.placed] at hs
  simp only [hu, hq] at hs
  exact h.query hd hcovers hreads hs

end InductionStep

namespace Engine

variable {σ : Type} [Backend σ] {s₀ : Session σ} {s : TransitionSystem} {task : Task} {d : Nat}
  {acts : List Act} {e : Engine σ}

theorem Settled.call (hd : Dependable s₀) (h : Settled s₀ s task (d + 1) acts e) {call : Call}
    (hcall : call.Suits s) {r : Except ProofError Unit} {e' : Engine σ}
    (hs : outcome (task.perform call) e = (r, e')) :
    ∃ more, Settled s₀ s task (d + 1 + if call.isAdvance then 1 else 0) (acts ++ more) e' ∧
      task.Makes s d e.session more r.isOk call ∧
      Act.ChecksAt (InQuestion s task call.hypotheses call.names d) acts more ∧ Obeys r := by
  cases call with
  | advance =>
    obtain ⟨e₁, hadvance, hsettled⟩ := h.advance hd
    obtain ⟨rfl, rfl⟩ := Prod.mk.inj (hadvance.symm.trans hs)
    exact ⟨_, hsettled, ⟨rfl, rfl⟩, .of_not_mem (by simp [Task.placing]), .ok ()⟩
  | check hypotheses names =>
    cases task with
    | base =>
      change outcome ((fun _ => ()) <$> BaseCase.checkAll names) e = _ at hs
      rw [outcome_map] at hs
      obtain ⟨rfl, rfl⟩ := Prod.mk.inj hs
      obtain ⟨more, h', hqueries, hobeys⟩ :=
        h.queryAll (fun name _ => BaseCase.inquires_check hd hypotheses name) rfl
      exact ⟨more, h', by rwa [isOk_map], hqueries.checksAt h.frames, hobeys.map _⟩
    | step =>
      change outcome ((fun _ => ()) <$> InductionStep.checkAll hypotheses names) e = _ at hs
      rw [outcome_map] at hs
      obtain ⟨rfl, rfl⟩ := Prod.mk.inj hs
      obtain ⟨more, h', hqueries, hobeys⟩ :=
        h.queryAll (fun name _ => InductionStep.inquires_check hd hcall d name) rfl
      exact ⟨more, h', by rwa [isOk_map], hqueries.checksAt h.frames, hobeys.map _⟩

end Engine

end InvariantProver
