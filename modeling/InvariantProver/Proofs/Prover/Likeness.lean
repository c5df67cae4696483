import InvariantProver.Proofs.Data.Alike
import InvariantProver.Proofs.Prover.Progress
import InvariantProver.Proofs.Prover.Rounds

namespace InvariantProver

variable {σ τ : Type} [Backend σ] [Backend τ]

/-- Sessions of two kinds which, once started, return the same from all operations over some
variables, and which nothing interrupts. -/
structure Session.Twins (vs : List Variable) (fresh R : Session σ → Session τ → Prop) : Prop where
  new : ∀ ⦃s t⦄, fresh s t → s.link.cancels = 0 ∧ t.link.cancels = 0
  start : ∀ ⦃s t⦄, fresh s t → ∃ s' t', outcome start s = (.ok (), s') ∧
    outcome start t = (.ok (), t') ∧ R s' t'
  declare : ∀ v ∈ vs, ∀ step, Alike R (declare v step) (declare v step)
  assert : ∀ t, Alike R (Session.assert t) (Session.assert t)
  push : Alike R push push
  pop : Alike R pop pop
  check : Alike R check check
  values : ∀ refs, Alike R (values refs) (values refs)
  reason : ∀ ⦃s t⦄, R s t → s.reason = t.reason
  calm : ∀ ⦃s t⦄, R s t → (s.link.cancels = 0 ∧ s.link.waited = false) ∧
    t.link.cancels = 0 ∧ t.link.waited = false
  close : ∀ ⦃s t⦄, R s t → ∃ s' t', outcome close s = (.ok (), s') ∧ outcome close t = (.ok (), t')

namespace Engine

open Session

structure Like (s : TransitionSystem) (R : Session σ → Session τ → Prop) (e : Engine σ)
    (e' : Engine τ) : Prop where
  left : e.system = s
  right : e'.system = s
  task : e.task = e'.task
  placed : e.placed = e'.placed
  session : R e.session e'.session

variable {s : TransitionSystem} {fresh R : Session σ → Session τ → Prop} {α : Type}

omit [Backend σ] [Backend τ] in
theorem Like.depth {e : Engine σ} {e' : Engine τ} (h : Like s R e e') : e.depth = e'.depth := by
  simp [Engine.depth, h.placed]

omit [Backend σ] [Backend τ] in
theorem alike_talk {m : SessionM σ α} {n : SessionM τ α} (h : Alike R m n) :
    Alike (Like s R) (talk m) (talk n) := by
  intro e e' he
  obtain ⟨r, t, t', hs, ht, hR⟩ := h _ _ he.session
  exact ⟨r.mapError .session, { e with session := t }, { e' with session := t' },
    by rw [outcome_talk, hs], by rw [outcome_talk, ht], he.left, he.right, he.task, he.placed, hR⟩

omit [Backend σ] [Backend τ] in
theorem alike_property (name : String) : Alike (Like s R) (property name) (property name) := by
  refine .get_bind fun e e' he => ?_
  rw [he.left, he.right]
  cases s.property name with
  | ok p => exact .pure he p
  | error error => exact .throw he _

omit [Backend σ] [Backend τ] in
theorem alike_typed (t : Except TypeError Term) :
    Alike (Like s R) (typed t : EngineM σ Term) (typed t : EngineM τ Term) := by
  cases t with
  | ok t => exact .pure t
  | error e => exact .throw _

omit [Backend σ] [Backend τ] in
theorem alike_queryAll {one : String → EngineM σ (Outcome α)} {one' : String → EngineM τ (Outcome α)}
    (h : ∀ name, Alike (Like s R) (one name) (one' name)) (names : List String) :
    Alike (Like s R) (queryAll one names) (queryAll one' names) :=
  .bind (.mapM names fun name _ => .bind (h name) fun _ => .pure _) fun _ => .pure _

variable (ht : Twins s.variables fresh R)
include ht

theorem alike_advance : Alike (Like s R) (advance : EngineM σ Unit) (advance : EngineM τ Unit) := by
  refine .get_bind fun e e' he => ?_
  rw [he.left, he.right, he.task, he.placed]
  have hdeclared := Alike.forM (R := Like s R) (ε := ProofError) s.variables fun v hv =>
    alike_talk (s := s) (ht.declare v hv e'.placed)
  refine EndsAlike.bind (hdeclared e e' he) fun _ => .bind (.forM _ fun t _ => ?_) fun _ => ?_
  · exact alike_talk (ht.assert t)
  · refine .modify fun e e' he => ⟨he.left, he.right, he.task, ?_, he.session⟩
    dsimp only
    rw [he.placed]

theorem alike_query {terms : List (Except TypeError Term)} {read : EngineM σ α} {read' : EngineM τ α}
    (hread : Alike (Like s R) read read') : Alike (Like s R) (query terms read) (query terms read') := by
  rw [query_eq, query_eq]
  refine .get_bind fun e e' he => ?_
  rw [he.depth]
  refine EndsAlike.bind (alike_talk ht.push e e' he) fun _ => .ensuring ?_ (alike_talk ht.pop)
  refine .bind (.forM _ fun t _ => .bind (alike_typed t) fun t => alike_talk (ht.assert t)) fun _ =>
    .bind (alike_talk ht.check) fun a => ?_
  cases a with
  | sat => exact .bind hread fun w => .pure _
  | unsat => exact .pure _
  | unknown reason =>
    refine .get_bind fun e e' he => ?_
    rw [ht.reason he.session]
    exact .pure he _

end Engine

open Session Engine

section

variable {s : TransitionSystem} {fresh R : Session σ → Session τ → Prop}
  (ht : Twins s.variables fresh R)
include ht

theorem BaseCase.alike_trace : Alike (Like s R) (trace : EngineM σ Trace) (trace : EngineM τ Trace) := by
  refine .get_bind fun e e' he => ?_
  rw [he.left, he.right, he.placed, he.depth]
  exact EndsAlike.bind (alike_talk (ht.values _) e e' he) fun _ => .bind (.liftM _) fun _ => .pure _

theorem BaseCase.alike_check (name : String) :
    Alike (Like s R) (check name : EngineM σ (Outcome Trace)) (check name) := by
  refine .bind (alike_property name) fun p => .get_bind fun e e' he => ?_
  rw [he.depth]
  exact alike_query ht (alike_trace ht) e e' he

theorem BaseCase.alike_checkAll (names : List String) :
    Alike (Like s R) (checkAll names : EngineM σ (Entries String (Outcome Trace))) (checkAll names) :=
  alike_queryAll (alike_check ht) names

theorem InductionStep.alike_check (hypotheses : List Term) (name : String) :
    Alike (Like s R) (check hypotheses name : EngineM σ (Outcome Unit)) (check hypotheses name) := by
  refine .bind (alike_property name) fun p => .get_bind fun e e' he => ?_
  rw [he.depth]
  exact alike_query ht (.pure ()) e e' he

theorem InductionStep.alike_checkAll (hypotheses : List Term) (names : List String) :
    Alike (Like s R) (checkAll hypotheses names : EngineM σ (Entries String (Outcome Unit)))
      (checkAll hypotheses names) :=
  alike_queryAll (alike_check ht hypotheses) names

theorem InductionStep.alike_start :
    Alike (Like s R) (start : EngineM σ Unit) (start : EngineM τ Unit) :=
  .bind (alike_advance ht) fun _ => alike_advance ht

end

def ProofResult.unsigned (r : ProofResult) : ProofResult := { r with solver := "" }

def unsigned (results : Entries String ProofResult) : Entries String ProofResult :=
  results.map fun entry => (entry.1, entry.2.unsigned)

theorem unsigned_put (name : String) (r : ProofResult) (results : Entries String ProofResult) :
    unsigned (Entries.put name r results) = Entries.put name r.unsigned (unsigned results) := by
  induction results with
  | nil => rfl
  | cons entry rest ih =>
    obtain ⟨key, value⟩ := entry
    by_cases hkey : key = name
    · simp [Entries.put, unsigned, hkey]
    · have hrest := ih
      simp only [unsigned] at hrest
      simp [Entries.put, unsigned, hkey, hrest]

theorem unsigned_ofList (pairs : List (String × ProofResult)) :
    unsigned (Entries.ofList pairs) = Entries.ofList (unsigned pairs) := by
  have hfold : ∀ results : Entries String ProofResult,
      unsigned (pairs.foldl (fun entries (key, value) => Entries.put key value entries) results) =
        (unsigned pairs).foldl (fun entries (key, value) => Entries.put key value entries)
          (unsigned results) := by
    induction pairs with
    | nil => exact fun _ => rfl
    | cons entry pairs ih =>
      intro results
      rw [List.foldl_cons, ih, unsigned_put]
      rfl
  exact hfold []

theorem get?_unsigned (name : String) (results : Entries String ProofResult) :
    Entries.get? name (unsigned results) = (Entries.get? name results).map ProofResult.unsigned := by
  induction results with
  | nil => rfl
  | cons entry rest ih =>
    obtain ⟨key, value⟩ := entry
    by_cases hkey : key = name
    · simp [Entries.get?, unsigned, hkey]
    · have hrest := ih
      simp only [unsigned] at hrest
      simp [Entries.get?, unsigned, hkey, hrest]

namespace Attempt

def arranged (rs : List ProofResult) : List ProofResult :=
  let (proofs, others) := rs.partition ProofResult.holds
  others ++ proofs.mergeSort fun r s => decide (r.property ≤ s.property)

theorem map_arranged (rs : List ProofResult) :
    (arranged rs).map ProofResult.unsigned = arranged (rs.map ProofResult.unsigned) := by
  have hholds : ProofResult.holds ∘ ProofResult.unsigned = ProofResult.holds := rfl
  have hfails : (not ∘ ProofResult.holds) ∘ ProofResult.unsigned = not ∘ ProofResult.holds := rfl
  unfold arranged
  simp only [List.partition_eq_filter_filter, List.map_append, List.filter_map, hholds, hfails]
  congr 1
  exact List.map_mergeSort fun _ _ _ _ => rfl

structure Like (s : TransitionSystem) (Q : Task → Session σ → Session τ → Prop) (a : Attempt σ)
    (a' : Attempt τ) : Prop where
  systems : a.system = s ∧ a'.system = s
  config : a.config = a'.config
  going : a.cancelled = false ∧ a'.cancelled = false
  pending : a.pending = a'.pending
  proved : a.proved = a'.proved
  results : unsigned a.results = unsigned a'.results
  engines : ∀ task, (a.engines.get task).Like s (Q task) (a'.engines.get task)

section

variable {s : TransitionSystem} {Q : Task → Session σ → Session τ → Prop} {a : Attempt σ}
  {a' : Attempt τ} {α : Type}

omit [Backend σ] [Backend τ]

theorem Like.set {Q' : Task → Session σ → Session τ → Prop} {task : Task} {e : Engine σ}
    {e' : Engine τ} (h : Like s Q a a') (he : e.Like s (Q' task) e')
    (hother : Q' task.other = Q task.other) :
    Like s Q' { a with engines := a.engines.set e task } { a' with engines := a'.engines.set e' task } := by
  refine ⟨h.systems, h.config, h.going, h.pending, h.proved, h.results, fun task' => ?_⟩
  cases task with
  | base =>
    cases task' with
    | base => exact he
    | step =>
      have hsame : Q' .step = Q .step := hother
      rw [hsame]
      exact h.engines .step
  | step =>
    cases task' with
    | base =>
      have hsame : Q' .base = Q .base := hother
      rw [hsame]
      exact h.engines .base
    | step => exact he

theorem alike_onEngine {task : Task} {m : EngineM σ α} {n : EngineM τ α}
    (h : Alike (Engine.Like s (Q task)) m n) : Alike (Like s Q) (onEngine task m) (onEngine task n) := by
  intro a a' ha
  obtain ⟨r, e, e', hs, ht, he⟩ := h _ _ (ha.engines task)
  exact ⟨r, _, _, by rw [outcome_onEngine, hs], by rw [outcome_onEngine, ht], ha.set he rfl⟩

theorem Like.lemmas (h : Like s Q a a') : a.lemmas = a'.lemmas := by
  unfold Attempt.lemmas
  rw [h.config, h.proved, h.systems.1, h.systems.2]

theorem Like.finish {r r' : ProofResult} (h : Like s Q a a') (hr : r.unsigned = r'.unsigned) :
    Like s Q (a.finish r) (a'.finish r') := by
  have hproperty : r.unsigned.property = r'.unsigned.property := by rw [hr]
  have hholds : r.unsigned.holds = r'.unsigned.holds := by rw [hr]
  change r.property = r'.property at hproperty
  change r.holds = r'.holds at hholds
  refine ⟨h.systems, h.config, h.going, ?_, ?_, ?_, h.engines⟩
  · simp only [Attempt.finish, h.pending, hproperty]
  · simp only [Attempt.finish, h.proved, hproperty, hholds]
  · simp only [Attempt.finish, unsigned_put, h.results, hr, hproperty]

theorem Like.finishAll {rs rs' : List ProofResult} (h : Like s Q a a')
    (hrs : rs.map ProofResult.unsigned = rs'.map ProofResult.unsigned) :
    Like s Q (a.finishAll rs) (a'.finishAll rs') := by
  induction rs generalizing a a' rs' with
  | nil =>
    obtain rfl := List.map_eq_nil_iff.mp hrs.symm
    exact h
  | cons r rs ih =>
    obtain ⟨r', rs', rfl, hr, hrest⟩ := List.map_eq_cons_iff.mp hrs.symm
    change Like s Q ((a.finish r).finishAll rs) ((a'.finish r').finishAll rs')
    exact ih (h.finish hr.symm) hrest.symm

theorem Like.giveUp (h : Like s Q a a') (reason : String) (depth : Int) :
    Like s Q (a.giveUp reason depth) (a'.giveUp reason depth) := by
  refine h.finishAll ?_
  rw [List.map_map, List.map_map, h.pending]
  rfl

theorem decision_unsigned (a : Attempt σ) (a' : Attempt τ) (bs : Entries String (Outcome Trace))
    (os : Entries String (Outcome Unit)) (name : String) :
    (a.decision bs os name).map ProofResult.unsigned =
      (a'.decision bs os name).map ProofResult.unsigned := by
  unfold Attempt.decision
  cases Entries.get? name bs with
  | none => rfl
  | some b =>
    cases Entries.get? name os with
    | none => rfl
    | some o =>
      change (decide? name a.engines.base a.engines.step b o).map _ =
        (decide? name a'.engines.base a'.engines.step b o).map _
      unfold decide?
      split <;> rfl

theorem Like.decideRound (h : Like s Q a a') (bs : Entries String (Outcome Trace))
    (os : Entries String (Outcome Unit)) : Like s Q (a.decideRound bs os) (a'.decideRound bs os) := by
  have hwarned : Like s Q { a with warnings := a.warnings ++ a.replayWarnings bs }
      { a' with warnings := a'.warnings ++ a'.replayWarnings bs } :=
    ⟨h.systems, h.config, h.going, h.pending, h.proved, h.results, h.engines⟩
  refine hwarned.finishAll ?_
  change (arranged (a.pending.filterMap (a.decision bs os))).map ProofResult.unsigned =
    (arranged (a'.pending.filterMap (a'.decision bs os))).map ProofResult.unsigned
  rw [map_arranged, map_arranged, List.map_filterMap, List.map_filterMap, h.pending]
  congr 2
  funext name
  exact decision_unsigned a a' bs os name

end

section

variable {s : TransitionSystem} {fresh R : Task → Session σ → Session τ → Prop} {a : Attempt σ}
  {a' : Attempt τ} (ht : ∀ task, Twins s.variables (fresh task) (R task))
include ht

theorem Like.isStopped (h : Like s R a a') : a.isStopped = false ∧ a'.isStopped = false := by
  obtain ⟨⟨hbase, hbase'⟩, hother, hother'⟩ := (ht .base).calm (h.engines .base).session
  obtain ⟨⟨hstep, hstep'⟩, hmore, hmore'⟩ := (ht .step).calm (h.engines .step).session
  constructor
  · simp [Attempt.isStopped, isCancelled, Engines.expired, Engines.cancels, Engines.link, h.going.1,
      hbase, hbase', hstep, hstep']
  · simp [Attempt.isStopped, isCancelled, Engines.expired, Engines.cancels, Engines.link, h.going.2,
      hother, hother', hmore, hmore']

theorem Like.deliver (h : Like s R a a') : a.deliver = a ∧ a'.deliver = a' := by
  obtain ⟨⟨hbase, hbase'⟩, hother, hother'⟩ := (ht .base).calm (h.engines .base).session
  obtain ⟨⟨hstep, hstep'⟩, hmore, hmore'⟩ := (ht .step).calm (h.engines .step).session
  constructor
  · simp [Attempt.deliver, Engines.interruptions, Engines.expired, Engines.cancels, Engines.link,
      Task.other, hbase, hbase', hstep, hstep']
    rfl
  · simp [Attempt.deliver, Engines.interruptions, Engines.expired, Engines.cancels, Engines.link,
      Task.other, hother, hother', hmore, hmore']
    rfl

theorem alike_checks : Alike (Like s R) (checks : AttemptM σ _) checks := by
  intro a a' h
  obtain ⟨rb, base, base', hb, hb', hbase⟩ :=
    BaseCase.alike_checkAll (ht .base) a.pending _ _ (h.engines .base)
  obtain ⟨ro, step, step', ho, ho', hstep⟩ :=
    InductionStep.alike_checkAll (ht .step) a.lemmas a.pending _ _ (h.engines .step)
  have hnext : Like s R { a with engines := ⟨base, step⟩ } { a' with engines := ⟨base', step'⟩ } := by
    refine ⟨h.systems, h.config, h.going, h.pending, h.proved, h.results, fun task => ?_⟩
    cases task with
    | base => exact hbase
    | step => exact hstep
  obtain ⟨hdeliver, hdeliver'⟩ := hnext.deliver ht
  change outcome _ a.engines.base = _ at hb
  change outcome _ a'.engines.base = _ at hb'
  change outcome _ a.engines.step = _ at ho
  change outcome _ a'.engines.step = _ at ho'
  rw [h.pending] at hb'
  rw [h.lemmas, h.pending] at ho'
  refine ⟨(do return (← rb, ← ro)), _, _, ?_, ?_, hnext⟩
  · rw [outcome_checks, hb, ho, hdeliver]
  · rw [outcome_checks, hb', ho', hdeliver']

theorem alike_conclude : Alike (Like s R) (conclude : AttemptM σ Bool) conclude := by
  refine .get_bind fun a a' h => ?_
  have hdepth : a.engines.base.depth = a'.engines.base.depth := (h.engines .base).depth
  rw [h.pending, h.config, hdepth]
  split
  · exact .pure h true
  split
  · have hgivenUp : Alike (Like s R)
        (modify (giveUp depthExhaustedReason a'.engines.base.depth) : AttemptM σ PUnit)
        (modify (giveUp depthExhaustedReason a'.engines.base.depth)) :=
      .modify fun _ _ h => h.giveUp _ _
    exact hgivenUp.bind (fun _ => .pure true) a a' h
  · exact (alike_onEngine (alike_advance (ht .base))).bind
      (fun _ => .bind (alike_onEngine (alike_advance (ht .step))) fun _ => .pure false) a a' h

theorem alike_round : Alike (Like s R) (round : AttemptM σ Bool) round := by
  rw [round_eq, round_eq]
  refine .get_bind fun a a' h => ?_
  obtain ⟨hgoing, hgoing'⟩ := h.isStopped ht
  rw [if_neg (by simp [hgoing]), if_neg (by simp [hgoing'])]
  refine EndsAlike.bind (alike_checks ht a a' h) fun (bs, os) => .get_bind fun a a' h => ?_
  obtain ⟨hgoing, hgoing'⟩ := h.isStopped ht
  rw [if_neg (by simp [hgoing]), if_neg (by simp [hgoing'])]
  have hdecided : Alike (Like s R) (modify (decideRound bs os) : AttemptM σ PUnit)
      (modify (decideRound bs os)) := .modify fun a a' h => h.decideRound bs os
  exact hdecided.bind (fun _ => alike_conclude ht) a a' h

theorem alike_rounds (fuel : Nat) : Alike (Like s R) (rounds fuel : AttemptM σ Bool) (rounds fuel) := by
  induction fuel with
  | zero => exact .pure false
  | succ fuel ih =>
    refine .bind (alike_round ht) fun finished => ?_
    cases finished with
    | true => exact .pure true
    | false => exact ih

def stage (fresh R : Task → Session σ → Session τ → Prop) (opened : List Task) (task : Task) :
    Session σ → Session τ → Prop :=
  if task ∈ opened then R task else fresh task

theorem stage_cancels {task : Task} {opened : List Task} {t : Session σ} {t' : Session τ}
    (h : stage fresh R opened task t t') : t.link.cancels = 0 ∧ t'.link.cancels = 0 := by
  unfold stage at h
  split at h
  · obtain ⟨hcalm, hcalm'⟩ := (ht task).calm h
    exact ⟨hcalm.1, hcalm'.1⟩
  · exact (ht task).new h

theorem Like.isCancelled {opened : List Task} (h : Like s (stage fresh R opened) a a') :
    a.isCancelled = false ∧ a'.isCancelled = false := by
  obtain ⟨hbase, hbase'⟩ := stage_cancels ht (h.engines .base).session
  obtain ⟨hstep, hstep'⟩ := stage_cancels ht (h.engines .step).session
  constructor
  · simp [Attempt.isCancelled, Engines.cancels, Engines.link, h.going.1, hbase, hstep]
  · simp [Attempt.isCancelled, Engines.cancels, Engines.link, h.going.2, hbase', hstep']

theorem open_like {task : Task} {opened : List Task} (hnew : task ∉ opened)
    (h : Like s (stage fresh R opened) a a') :
    ∃ b b', outcome (openSession task) a = (.ok (), b) ∧ outcome (openSession task) a' = (.ok (), b') ∧
      Like s (stage fresh R (task :: opened)) b b' := by
  have hengine := h.engines task
  have hsession := hengine.session
  rw [stage, if_neg hnew] at hsession
  obtain ⟨t, t', hstart, hstart', hR⟩ := (ht task).start hsession
  have hset : Like s (stage fresh R (task :: opened))
      { a with engines := a.engines.set { a.engines.get task with session := t } task }
      { a' with engines := a'.engines.set { a'.engines.get task with session := t' } task } := by
    refine h.set ⟨hengine.left, hengine.right, hengine.task, hengine.placed, ?_⟩ ?_
    · rw [stage, if_pos (by simp)]
      exact hR
    · have hother : task.other ≠ task := by cases task <;> decide
      simp [stage, hother]
  have hopened : Like s (stage fresh R (task :: opened)) (a.enter task t) (a'.enter task t') :=
    ⟨hset.systems, hset.config, hset.going, hset.pending, hset.proved, hset.results, hset.engines⟩
  obtain ⟨hgoing, hgoing'⟩ := hopened.isCancelled ht
  refine ⟨a.enter task t, a'.enter task t', ?_, ?_, hopened⟩
  · rw [outcome_openSession_ok hstart, if_neg (by simp [hgoing])]
  · rw [outcome_openSession_ok hstart', if_neg (by simp [hgoing'])]

theorem close_like (a : Attempt σ) (a' : Attempt τ) {task : Task}
    (h : (a.engines.get task).Like s (R task) (a'.engines.get task)) :
    ∃ e e', outcome (closeSession task) a = (.ok (), { a with engines := a.engines.set e task }) ∧
      outcome (closeSession task) a' = (.ok (), { a' with engines := a'.engines.set e' task }) := by
  obtain ⟨t, t', hclose, hclose'⟩ := (ht task).close h.session
  exact ⟨_, _, outcome_onEngine_ok (outcome_talk_ok hclose), outcome_onEngine_ok (outcome_talk_ok hclose')⟩

theorem withSessions_like {α : Type} {m : AttemptM σ α} {n : AttemptM τ α}
    (h : Like s (stage fresh R []) a a') (hm : Alike (Like s R) m n) :
    ∃ q b b', outcome (withSession .base (withSession .step m)) a = (q, b) ∧
      outcome (withSession .base (withSession .step n)) a' = (q, b') ∧
      unsigned b.results = unsigned b'.results := by
  have hbaseNew : Task.base ∉ [] := by simp
  have hstepNew : Task.step ∉ [Task.base] := by decide
  obtain ⟨a₁, a₁', hopenBase, hopenBase', h₁⟩ := open_like ht hbaseNew h
  obtain ⟨a₂, a₂', hopenStep, hopenStep', h₂⟩ := open_like ht hstepNew h₁
  have hboth : stage fresh R [.step, .base] = R := by
    funext task
    cases task <;> simp [stage]
  rw [hboth] at h₂
  obtain ⟨q, a₃, a₃', hbody, hbody', h₃⟩ := hm _ _ h₂
  obtain ⟨step, step', hcloseStep, hcloseStep'⟩ := close_like ht a₃ a₃' (h₃.engines .step)
  obtain ⟨base, base', hcloseBase, hcloseBase'⟩ := close_like ht
    { a₃ with engines := a₃.engines.set step .step }
    { a₃' with engines := a₃'.engines.set step' .step } (h₃.engines .base)
  exact ⟨q, _, _, outcome_withSession hopenBase (outcome_withSession hopenStep hbody hcloseStep) hcloseBase,
    outcome_withSession hopenBase' (outcome_withSession hopenStep' hbody' hcloseStep') hcloseBase',
    h₃.results⟩

omit [Backend σ] [Backend τ] ht in
theorem unsigned_resultsFor (names : List String) (h : unsigned a.results = unsigned a'.results) :
    unsigned (a.resultsFor names) = unsigned (a'.resultsFor names) := by
  unfold resultsFor
  rw [unsigned_ofList, unsigned_ofList]
  congr 1
  unfold unsigned
  rw [List.map_filterMap, List.map_filterMap]
  congr 1
  funext name
  have hname := congrArg (Entries.get? name) h
  rw [get?_unsigned, get?_unsigned] at hname
  have hpaired := congrArg (Option.map (name, ·)) hname
  simpa [Option.map_map, Function.comp_def] using hpaired

/-- What an attempt reports does not depend on which of the sessions it has. -/
theorem reports_alike {sessions : Task → Session σ} {others : Task → Session τ}
    (hfresh : ∀ task, fresh task (sessions task) (others task)) (c : Config) (names : List String)
    (fuel : Nat) :
    (outcome (run names fuel) (new s c false sessions)).1.map (Option.map unsigned) =
      (outcome (run names fuel) (new s c false others)).1.map (Option.map unsigned) := by
  have hnew : Like s (stage fresh R []) (new s c false sessions) (new s c false others) := by
    refine ⟨⟨rfl, rfl⟩, rfl, ⟨rfl, rfl⟩, rfl, rfl, rfl, fun task => ?_⟩
    have hstage : stage fresh R [] task = fresh task := by simp [stage]
    rw [hstage]
    cases task with
    | base => exact ⟨rfl, rfl, rfl, rfl, hfresh .base⟩
    | step => exact ⟨rfl, rfl, rfl, rfl, hfresh .step⟩
  have hnamed : Alike (Like s (stage fresh R []))
      (names.forM fun name => do let _ ← onEngine .base (property name) : AttemptM σ PUnit)
      (names.forM fun name => do let _ ← onEngine .base (property name)) :=
    .forM names fun name _ => .bind (alike_onEngine (alike_property name)) fun _ => .pure _
  obtain ⟨r, a, a', hs, hs', h⟩ := hnamed _ _ hnew
  unfold run
  rw [outcome_bind, outcome_bind, hs, hs']
  cases r with
  | error e => rfl
  | ok u =>
    dsimp only
    rw [outcome_ite, outcome_ite]
    split
    · rfl
    have hpending : Like s (stage fresh R []) { a with pending := names } { a' with pending := names } :=
      ⟨h.systems, h.config, h.going, rfl, h.proved, h.results, h.engines⟩
    have hbody : Alike (Like s R)
        (do
          onEngine .base BaseCase.start
          onEngine .step InductionStep.start
          rounds fuel : AttemptM σ Bool)
        (do
          onEngine .base BaseCase.start
          onEngine .step InductionStep.start
          rounds fuel) :=
      .bind (alike_onEngine (alike_advance (ht .base))) fun _ =>
        .bind (alike_onEngine (InductionStep.alike_start (ht .step))) fun _ => alike_rounds ht fuel
    obtain ⟨q, b, b', hq, hq', hresults⟩ := withSessions_like ht hpending hbody
    rw [outcome_bind_of_ok (outcome_modify _ a), outcome_bind_of_ok (outcome_modify _ a'), outcome_bind,
      outcome_bind, hq, hq']
    cases q with
    | error e => rfl
    | ok finished =>
      cases finished with
      | false => rfl
      | true => exact congrArg (fun results => Except.ok (some results)) (unsigned_resultsFor names hresults)

end

end Attempt

end InvariantProver
