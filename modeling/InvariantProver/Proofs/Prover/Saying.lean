import InvariantProver.Proofs.Prover.Forecast
import InvariantProver.Proofs.Session.Conversation

namespace InvariantProver

open Session

def Task.AsksAbout (task : Task) (s : TransitionSystem) (hypotheses : List Term) (d : Nat)
    (name : String) (acts : List Act) : Prop :=
  ∃ p ts reads, s.property name = .ok p ∧ task.question hypotheses p d = ts.map .ok ∧
    (∀ act ∈ reads, act.isQuestion = true) ∧ acts = Act.inquiry ts reads

namespace Session

variable {σ α : Type} [Backend σ] {s s' : Session σ}

theorem converse_single {op : SessionM σ α} {reply : α → Reply} {r : Except SessionError α} (act : Act)
    (hact : perform act = reply <$> op) (hs : outcome op s = (r, s')) : s.converse [act] = s' := by
  change (outcome (perform act) s).2 = s'
  rw [hact, outcome_map, hs]

theorem converse_interrupts (s : Session σ) (times : Nat) :
    (List.range times).foldl (fun s _ => s.interrupt) s =
      s.converse (List.replicate times .interrupt) := by
  induction times with
  | zero => rfl
  | succ times ih =>
    rw [List.range_succ, List.foldl_append, ih, List.replicate_succ', converse_append]
    rfl

end Session

namespace Engine

variable {σ α : Type} [Backend σ] {e e' : Engine σ}

theorem talks_said {ι : Type} {op : ι → SessionM σ Unit} (act : ι → Act)
    (hact : ∀ x, perform (act x) = (fun _ => .done) <$> op x) {xs : List ι} {u : PUnit}
    (hs : outcome (xs.forM fun x => talk (op x)) e = (.ok u, e')) :
    e' = { e with session := e.session.converse (xs.map act) } := by
  induction xs generalizing e with
  | nil =>
    obtain ⟨-, rfl⟩ := outcome_pure_ok.mp hs
    rfl
  | cons x xs ih =>
    obtain ⟨_, e₁, hone, hrest⟩ := outcome_bind_ok.mp hs
    obtain ⟨s₁, hdone, rfl⟩ := talk_eq_ok hone
    obtain rfl := ih hrest
    rw [List.map_cons, ← List.singleton_append, converse_append, converse_single _ (hact x) hdone]

theorem advance_said {u : Unit} (hs : outcome advance e = (.ok u, e')) :
    e' = { e with
      session := e.session.converse (e.task.placing e.system e.placed)
      placed := e.placed + 1 } := by
  unfold advance at hs
  rw [outcome_bind_of_ok (outcome_get e)] at hs
  obtain ⟨_, e₁, hdeclares, hs⟩ := outcome_bind_ok.mp hs
  obtain rfl := talks_said (fun v => .declare v e.placed) (fun _ => rfl) hdeclares
  obtain ⟨_, e₂, hasserts, hs⟩ := outcome_bind_ok.mp hs
  obtain rfl := talks_said .assert (fun _ => rfl) hasserts
  obtain ⟨-, rfl⟩ := Prod.mk.inj hs
  rw [Task.placing, converse_append]

theorem query_said {read : EngineM σ α} (ts : List Term) {o : Outcome α} {R : List Act → Prop}
    (hread : ∀ e w e', outcome read e = (.ok w, e') →
      ∃ reads, R reads ∧ e' = { e with session := e.session.converse reads })
    (hs : outcome (query (ts.map .ok) read) e = (.ok o, e')) :
    ∃ reads, (reads = [] ∨ R reads) ∧
      e' = { e with session := e.session.converse (Act.inquiry ts reads) } := by
  rw [query_eq, outcome_bind_of_ok (outcome_get e)] at hs
  obtain ⟨_, e₁, hpush, hs⟩ := outcome_bind_ok.mp hs
  obtain ⟨s₁, hpushed, rfl⟩ := talk_eq_ok hpush
  obtain ⟨e₂, hasked, hpop⟩ := outcome_ensuring_ok.mp hs
  unfold asked at hasked
  rw [asserts_typed] at hasked
  obtain ⟨_, e₃, hasserts, hasked⟩ := outcome_bind_ok.mp hasked
  obtain rfl := talks_said .assert (fun _ => rfl) hasserts
  obtain ⟨a, e₄, hcheck, hreported⟩ := outcome_bind_ok.mp hasked
  obtain ⟨s₄, hchecked, rfl⟩ := talk_eq_ok hcheck
  obtain ⟨reads, hreads, rfl⟩ : ∃ reads, (reads = [] ∨ R reads) ∧
      e₂ = ⟨e.system, e.task, s₄.converse reads, e.placed⟩ := by
    cases a with
    | sat =>
      obtain ⟨w, e₅, hw, hdone⟩ := outcome_bind_ok.mp hreported
      obtain ⟨reads, hreads, rfl⟩ := hread _ w e₅ hw
      obtain ⟨-, rfl⟩ := Prod.mk.inj hdone
      exact ⟨reads, .inr hreads, rfl⟩
    | unsat =>
      obtain ⟨-, rfl⟩ := Prod.mk.inj hreported
      exact ⟨[], .inl rfl, rfl⟩
    | unknown reason =>
      obtain ⟨-, rfl⟩ := Prod.mk.inj hreported
      exact ⟨[], .inl rfl, rfl⟩
  obtain ⟨s₅, hpopped, rfl⟩ := talk_eq_ok hpop
  refine ⟨reads, hreads, ?_⟩
  have hacts : Act.inquiry ts reads = [.push] ++ (ts.map .assert ++ ([.check] ++ (reads ++ [.pop]))) := rfl
  rw [hacts, converse_append, converse_append, converse_append, converse_append,
    converse_single .push rfl hpushed, converse_single .check rfl hchecked,
    converse_single .pop rfl hpopped]

theorem queryAll_said {I : Engine σ → Prop} {one : String → EngineM σ (Outcome α)}
    {A : String → List Act → Prop} {names : List String} {os : Entries String (Outcome α)}
    (hone : ∀ name ∈ names, ∀ e o e', I e → outcome (one name) e = (.ok o, e') →
      I e' ∧ ∃ acts, A name acts ∧ e'.session = e.session.converse acts)
    (he : I e) (hs : outcome (queryAll one names) e = (.ok os, e')) :
    I e' ∧ ∃ asked, List.Forall₂ A names asked ∧ e'.session = e.session.converse asked.flatten := by
  obtain ⟨pairs, e₁, hpairs, hpure⟩ := outcome_bind_ok.mp hs
  obtain ⟨-, rfl⟩ := outcome_pure_ok.mp hpure
  clear hs hpure
  induction names generalizing e pairs with
  | nil =>
    rw [List.mapM_nil] at hpairs
    obtain ⟨-, rfl⟩ := outcome_pure_ok.mp hpairs
    exact ⟨he, [], .nil, rfl⟩
  | cons name names ih =>
    rw [List.mapM_cons] at hpairs
    obtain ⟨_, e₂, hpair, hrest⟩ := outcome_bind_ok.mp hpairs
    obtain ⟨o, e₃, hchecked, hpure⟩ := outcome_bind_ok.mp hpair
    obtain ⟨-, rfl⟩ := outcome_pure_ok.mp hpure
    obtain ⟨pairs', e₄, hothers, hpure⟩ := outcome_bind_ok.mp hrest
    obtain ⟨-, rfl⟩ := outcome_pure_ok.mp hpure
    obtain ⟨he₂, acts, hacts, hsaid⟩ := hone name (by simp) e o _ he hchecked
    obtain ⟨he₁, asked, hasked, hrest⟩ :=
      ih (fun name' hname => hone name' (List.mem_cons_of_mem name hname)) he₂ pairs' hothers
    refine ⟨he₁, acts :: asked, .cons hacts hasked, ?_⟩
    rw [hrest, List.flatten_cons, converse_append, hsaid]

end Engine

section

variable {σ : Type} [Backend σ] {s : TransitionSystem} {e e' : Engine σ} {name : String}
  {names : List String} {hypotheses : List Term} {n : Nat}

namespace BaseCase

open Engine

theorem trace_said {w : Trace} (hs : outcome trace e = (.ok w, e')) :
    ∃ reads, (∀ act ∈ reads, act.isQuestion = true) ∧
      e' = { e with session := e.session.converse reads } := by
  obtain ⟨values, t, states, hvalues, -, -, rfl⟩ := trace_eq_ok hs
  obtain rfl : e.session.converse [.values _] = t := converse_single _ rfl hvalues
  refine ⟨_, ?_, rfl⟩
  simp [Act.isQuestion]

theorem check_said {p : Term} {o : Outcome Trace} (hsystem : e.system = s) (hplaced : e.placed = n + 1)
    (hp : s.property name = .ok p) (hs : outcome (check name) e = (.ok o, e')) :
    (e'.system = s ∧ e'.placed = n + 1) ∧
      ∃ acts, Task.base.AsksAbout s hypotheses n name acts ∧ e'.session = e.session.converse acts := by
  obtain ⟨q, hq, -⟩ := TransitionSystem.covers_negate hp n
  unfold check at hs
  rw [outcome_bind_of_ok (property_eq_ok.mpr ⟨hsystem ▸ hp, rfl⟩), outcome_bind_of_ok (outcome_get e),
    depth_of_placed hplaced, hq] at hs
  obtain ⟨reads, hreads, rfl⟩ := query_said [q]
    (R := fun reads => ∀ act ∈ reads, act.isQuestion = true) (fun e w e' hs => trace_said hs) hs
  refine ⟨⟨hsystem, hplaced⟩, _, ⟨p, [q], reads, hp, congrArg (fun t => [t]) hq, ?_, rfl⟩, rfl⟩
  rcases hreads with rfl | hreads
  · simp
  · exact hreads

theorem checkAll_said {bs : Entries String (Outcome Trace)} (hsystem : e.system = s)
    (hplaced : e.placed = n + 1) (hnames : ∀ name ∈ names, ∃ p, s.property name = .ok p)
    (hs : outcome (checkAll names) e = (.ok bs, e')) :
    (e'.system = s ∧ e'.placed = n + 1) ∧
      ∃ asked, List.Forall₂ (Task.base.AsksAbout s hypotheses n) names asked ∧
        e'.session = e.session.converse asked.flatten :=
  queryAll_said (I := fun e => e.system = s ∧ e.placed = n + 1)
    (fun name hname e₁ o e₂ he₁ hone => by
      obtain ⟨p, hp⟩ := hnames name hname
      exact check_said he₁.1 he₁.2 hp hone) ⟨hsystem, hplaced⟩ hs

end BaseCase

namespace InductionStep

open Engine

theorem check_said {p : Term} {o : Outcome Unit} (hsystem : e.system = s) (hplaced : e.placed = n + 1)
    (hp : s.property name = .ok p) (hhypotheses : ∀ t ∈ hypotheses, ∃ name, s.property name = .ok t)
    (hs : outcome (check hypotheses name) e = (.ok o, e')) :
    (e'.system = s ∧ e'.placed = n + 1) ∧
      ∃ ts, Task.step.question hypotheses p n = ts.map .ok ∧
        e'.session = e.session.converse (Act.inquiry ts []) := by
  obtain ⟨u, q, hu, hq, hquestion, -⟩ := question_eq hp hhypotheses n
  unfold check at hs
  rw [outcome_bind_of_ok (property_eq_ok.mpr ⟨hsystem ▸ hp, rfl⟩), outcome_bind_of_ok (outcome_get e),
    depth_of_placed hplaced] at hs
  simp only [hu, hq] at hs
  obtain ⟨reads, hreads, rfl⟩ := query_said [u, q] (R := (· = [])) (fun e w e' hs => by
    obtain ⟨-, rfl⟩ := Prod.mk.inj hs
    exact ⟨[], rfl, rfl⟩) hs
  obtain rfl : reads = [] := hreads.elim id id
  exact ⟨⟨hsystem, hplaced⟩, [u, q], hquestion, rfl⟩

theorem checkAll_said {os : Entries String (Outcome Unit)} (hsystem : e.system = s)
    (hplaced : e.placed = n + 1) (hnames : ∀ name ∈ names, ∃ p, s.property name = .ok p)
    (hhypotheses : ∀ t ∈ hypotheses, ∃ name, s.property name = .ok t)
    (hs : outcome (checkAll hypotheses names) e = (.ok os, e')) :
    (e'.system = s ∧ e'.placed = n + 1) ∧
      ∃ asked, List.Forall₂ (fun name acts => ∃ p ts, s.property name = .ok p ∧
          Task.step.question hypotheses p n = ts.map .ok ∧ acts = Act.inquiry ts []) names asked ∧
        e'.session = e.session.converse asked.flatten :=
  queryAll_said (I := fun e => e.system = s ∧ e.placed = n + 1)
    (fun name hname e₁ o e₂ he₁ hone => by
      obtain ⟨p, hp⟩ := hnames name hname
      obtain ⟨he₂, ts, hts, hsaid⟩ := check_said he₁.1 he₁.2 hp hhypotheses hone
      exact ⟨he₂, _, ⟨p, ts, hp, hts, rfl⟩, hsaid⟩) ⟨hsystem, hplaced⟩ hs

end InductionStep

end

end InvariantProver
