import InvariantProver.Proofs.Prover.Saying
import Mathlib.Data.List.Forall2

namespace InvariantProver

def Task.ahead : Task → Nat
  | base => 0
  | step => 1

namespace Attempt

open Session Engine

variable {σ : Type}

structure Accounts (names : List String) (a : Attempt σ) : Prop where
  complete : ∀ name, name ∈ names ↔
    name ∈ a.pending ∨ (Entries.get? name a.results).isSome = true
  apart : ∀ name ∈ a.pending, Entries.get? name a.results = none
  named : ∀ name r, Entries.get? name a.results = some r → r.property = name

section

variable {names : List String} {a : Attempt σ} {rs : List ProofResult}

theorem Accounts.finishAll (h : Accounts names a) (hopen : ∀ r ∈ rs, r.property ∈ a.pending)
    (hclosed : ∀ r ∈ rs, r.property ∉ (a.finishAll rs).pending) : Accounts names (a.finishAll rs) := by
  have hcases (name : String) :
      ((name ∈ (a.finishAll rs).pending ↔ name ∈ a.pending) ∧
          Entries.get? name (a.finishAll rs).results = Entries.get? name a.results) ∨
        name ∈ a.pending ∧ name ∉ (a.finishAll rs).pending ∧
          ∃ r, r.property = name ∧ Entries.get? name (a.finishAll rs).results = some r := by
    rcases get?_results_finishAll rs a name with ⟨hnone, hsame⟩ | ⟨r, hr, rfl, hsome⟩
    · refine .inl ⟨?_, hsame⟩
      have hzero : (rs.map ProofResult.property).count name = 0 := by
        refine List.count_eq_zero_of_not_mem fun hmem => ?_
        obtain ⟨r, hr, hname⟩ := List.mem_map.mp hmem
        exact hnone r hr hname
      rw [← List.count_pos_iff, count_pending_finishAll, hzero, Nat.sub_zero, List.count_pos_iff]
    · exact .inr ⟨hopen r hr, hclosed r hr, r, rfl, hsome⟩
  constructor
  · intro name
    rw [h.complete]
    rcases hcases name with ⟨hpending, hsame⟩ | ⟨hbefore, -, r, -, hsome⟩
    · rw [hpending, hsame]
    · simp [hbefore, hsome]
  · intro name hname
    rcases hcases name with ⟨hpending, hsame⟩ | ⟨-, hafter, -⟩
    · rw [hsame]
      exact h.apart name (hpending.mp hname)
    · exact absurd hname hafter
  · intro name r hr
    rcases hcases name with ⟨-, hsame⟩ | ⟨-, -, r', hname, hsome⟩
    · exact h.named name r (hsame.symm.trans hr)
    · rw [hsome] at hr
      obtain rfl := Option.some.inj hr
      exact hname

theorem pending_giveUp (reason : String) (depth : Int) (a : Attempt σ) :
    (a.giveUp reason depth).pending = [] := by
  refine List.eq_nil_iff_forall_not_mem.mpr fun name hname => ?_
  have hcount := List.count_pos_iff.mpr hname
  have hnames : ProofResult.property ∘
      (fun name => .unknown name reason depth a.engines.base.session.name) = id := rfl
  rw [Attempt.giveUp, count_pending_finishAll, List.map_map, hnames, List.map_id] at hcount
  omega

theorem Accounts.giveUp (h : Accounts names a) (reason : String) (depth : Int) :
    Accounts names (a.giveUp reason depth) := by
  apply h.finishAll
  · intro r hr
    obtain ⟨name, hname, rfl⟩ := List.mem_map.mp hr
    exact hname
  · intro r _ hmem
    have hnone := pending_giveUp reason depth a
    rw [Attempt.giveUp] at hnone
    rw [hnone] at hmem
    cases hmem

theorem Accounts.decideRound (h : Accounts names a) (bs : Entries String (Outcome Trace))
    (os : Entries String (Outcome Unit)) : Accounts names (a.decideRound bs os) := by
  have hwarned : Accounts names { a with warnings := a.warnings ++ a.replayWarnings bs } :=
    ⟨h.complete, h.apart, h.named⟩
  apply hwarned.finishAll
  · intro r hr
    obtain ⟨name, hname, hdecision⟩ := mem_decisions_iff.mp hr
    rw [property_of_decision hdecision]
    exact hname
  · intro r hr hmem
    obtain ⟨name, -, hdecision⟩ := mem_decisions_iff.mp hr
    have hnone := (mem_pending_decideRound.mp hmem).2
    rw [property_of_decision hdecision, hdecision] at hnone
    cases hnone

theorem Accounts.engines (h : Accounts names a) (engines : Engines σ) :
    Accounts names { a with engines := engines } := ⟨h.complete, h.apart, h.named⟩

theorem Accounts.keys (h : Accounts names a) (hclosed : a.pending = []) (name : String) :
    name ∈ (a.resultsFor names).keys ↔ name ∈ names := by
  rw [← not_iff_not, ← Entries.get?_eq_none_iff, get?_resultsFor_eq]
  split
  · next hname =>
    rcases (h.complete name).mp hname with hopen | hsome
    · rw [hclosed] at hopen
      cases hopen
    · simp [hname, Option.isSome_iff_ne_none.mp hsome]
  · next hname => simp [hname]

end

variable [Backend σ] {fails : Task → SessionError → Prop} {sessions : Task → Session σ}
  {s : TransitionSystem} {c : Config} {cancelled : Bool} {names : List String} {n m fuel : Nat}
  {a a' b b' : Attempt σ} {name : String} {r : ProofResult} {q : Except ProofError Bool}

theorem accounts_begun (hnew : a.results = []) (names : List String) :
    Accounts names (a.begun names) := by
  obtain ⟨hpending, hresults⟩ := books_begun a names
  rw [hnew] at hresults
  constructor
  · intro name
    rw [hpending, hresults]
    simp [Entries.get?]
  · intro name _
    rw [hresults]
    rfl
  · intro name r hr
    rw [hresults] at hr
    cases hr

theorem Accounts.round (h : Accounts names b) (hs : outcome round b = (q, b')) : Accounts names b' := by
  rcases round_cases hs with ⟨-, -, rfl⟩ | ⟨-, ⟨e, hchecks, -⟩ | ⟨bs, os, b₁, hchecks, hrest⟩⟩
  · exact h.giveUp _ _
  · rw [checks_engines hchecks]
    exact h.engines _
  have h₁ : Accounts names b₁ := by
    rw [checks_engines hchecks]
    exact h.engines _
  rcases hrest with ⟨-, -, rfl⟩ | ⟨-, hconclude⟩
  · exact h₁.giveUp _ _
  have h₂ := h₁.decideRound bs os
  rcases conclude_cases hconclude with ⟨-, -, rfl⟩ | ⟨-, -, rfl⟩ | ⟨-, -, hsame⟩
  · exact h₂
  · exact h₂.giveUp _ _
  · rw [hsame]
    exact h₂.engines _

theorem Reaches.accounts (h : Accounts names a) (hreaches : Reaches a n b) : Accounts names b := by
  induction hreaches with
  | start => exact h
  | next _ hround ih => exact ih.round hround

theorem pending_of_last (hs : outcome round b = (.ok true, b')) : b'.pending = [] := by
  rcases round_cases hs with ⟨-, -, rfl⟩ | ⟨-, ⟨e, -, he⟩ | ⟨bs, os, b₁, -, hrest⟩⟩
  · exact pending_giveUp _ _ _
  · cases he
  rcases hrest with ⟨-, -, rfl⟩ | ⟨-, hconclude⟩
  · exact pending_giveUp _ _ _
  rcases conclude_cases hconclude with ⟨hempty, -, rfl⟩ | ⟨-, -, rfl⟩ | ⟨-, hlast, -⟩
  · exact hempty
  · exact pending_giveUp _ _ _
  · exact absurd rfl hlast

/-- In round `n`, a session that holds the steps up to the depth of its task is asked about each open name
in turn. It may then be interrupted, and the next step is placed if there is another round. -/
structure Consults (sessions : Task → Session σ) (s : TransitionSystem) (n : Nat) (task : Task)
    (b : Attempt σ) (finished : Bool) (b' : Attempt σ) : Prop where
  depth : (b.engines.get task).depth = (n + task.ahead : Nat)
  holding : Holding .any (sessions task) (task.asserted s (n + task.ahead + 1)) (b.engines.get task).session
  said : ∃ asked interruptions,
    List.Forall₂ (task.AsksAbout s b.lemmas (n + task.ahead)) b.pending asked ∧
    (b'.engines.get task).session = (b.engines.get task).session.converse
      (asked.flatten ++ (List.replicate interruptions .interrupt ++
        if finished then [] else task.placing s (n + task.ahead + 1)))

theorem Engaged.atWork (h : b.Engaged sessions s c cancelled (n + 1) (n + 2)) (task : Task) :
    (b.engines.get task).AtWork (sessions task) s task (n + task.ahead + 1) := by
  cases task with
  | base => exact h.base
  | step => exact h.step

theorem Engaged.conclude_said (h : b.Engaged sessions s c cancelled (n + 1) (n + 2)) {finished : Bool}
    (hs : outcome Attempt.conclude b = (.ok finished, b')) (task : Task) :
    (b'.engines.get task).session = (b.engines.get task).session.converse
      (if finished then [] else task.placing s (n + task.ahead + 1)) := by
  unfold Attempt.conclude at hs
  rw [outcome_bind_of_ok (outcome_get b), outcome_ite] at hs
  split at hs
  · obtain ⟨rfl, rfl⟩ := outcome_pure_ok.mp hs
    rfl
  rw [outcome_ite] at hs
  split at hs
  · obtain ⟨rfl, rfl⟩ := outcome_pure_ok.mp hs
    rw [giveUp, engines_finishAll]
    rfl
  obtain ⟨⟨⟩, b₁, hfirst, hs⟩ := outcome_bind_ok.mp hs
  obtain ⟨base, hbase, rfl⟩ := onEngine_eq_ok hfirst
  obtain ⟨⟨⟩, b₂, hsecond, hs⟩ := outcome_bind_ok.mp hs
  obtain ⟨step, hstep, rfl⟩ := onEngine_eq_ok hsecond
  obtain ⟨rfl, rfl⟩ := outcome_pure_ok.mp hs
  have hwork := h.atWork task
  have hsaid : outcome advance (b.engines.get task) =
      (.ok (), ((b.engines.set base .base).set step .step).get task) := by
    cases task with
    | base => exact hbase
    | step => exact hstep
  change (((b.engines.set base .base).set step .step).get task).session = _
  rw [advance_said hsaid, hwork.task, hwork.system, hwork.placed]
  rfl

theorem deliver_said (a : Attempt σ) (task : Task) :
    ∃ times, (a.deliver.engines.get task).session =
      (a.engines.get task).session.converse (List.replicate times .interrupt) := by
  refine ⟨a.engines.interruptions task task.other, ?_⟩
  cases task with
  | base => exact converse_interrupts _ _
  | step => exact converse_interrupts _ _

theorem Engaged.checks_said (h : b.Engaged sessions s c cancelled (n + 1) (n + 2))
    (hknown : Known s b.pending) {bs : Entries String (Outcome Trace)}
    {os : Entries String (Outcome Unit)} (hs : outcome Attempt.checks b = (.ok (bs, os), b'))
    (task : Task) :
    ∃ asked interruptions,
      List.Forall₂ (task.AsksAbout s b.lemmas (n + task.ahead)) b.pending asked ∧
      (b'.engines.get task).session = (b.engines.get task).session.converse
        (asked.flatten ++ List.replicate interruptions .interrupt) := by
  obtain ⟨base, step, hbs, hos, rfl⟩ := checks_eq_ok hs
  obtain ⟨times, hdelivered⟩ := deliver_said { b with engines := ⟨base, step⟩ } task
  suffices hasks : ∃ asked, List.Forall₂ (task.AsksAbout s b.lemmas (n + task.ahead)) b.pending asked ∧
      ((Engines.mk base step).get task).session =
        (b.engines.get task).session.converse asked.flatten by
    obtain ⟨asked, hasked, hsaid⟩ := hasks
    exact ⟨asked, times, hasked, by rw [hdelivered, converse_append, ← hsaid]⟩
  cases task with
  | base =>
    exact (BaseCase.checkAll_said h.base.system h.base.placed hknown hbs).2
  | step =>
    have hlemmas : ∀ t ∈ b.lemmas, ∃ name, s.property name = .ok t := by
      intro t ht
      obtain ⟨name, -, hname⟩ := property_of_mem_lemmas ht
      exact ⟨name, h.system ▸ hname⟩
    obtain ⟨-, asked, hasked, hsaid⟩ :=
      InductionStep.checkAll_said h.step.system h.step.placed hknown hlemmas hos
    refine ⟨asked, hasked.imp fun name acts hacts => ?_, hsaid⟩
    obtain ⟨p, ts, hp, hquestion, rfl⟩ := hacts
    exact ⟨p, ts, [], hp, hquestion, by simp, rfl⟩

theorem Engaged.consults (ho : ∀ task, Obliging s.variables (fails task) (sessions task))
    (h : b.Engaged sessions s c cancelled (n + 1) (n + 2))
    (hknown : Known s b.pending) (hgoing : b.isStopped = false) {finished : Bool}
    (hs : outcome Attempt.round b = (.ok finished, b')) (task : Task) :
    Consults sessions s n task b finished b' := by
  have hwork := h.atWork task
  obtain ⟨⟨hholding, -, -⟩, -⟩ := hwork.standing
  rw [hwork.placed] at hholding
  refine ⟨depth_of_placed hwork.placed, hholding, ?_⟩
  rcases round_cases hs with ⟨hstopped, -⟩ | ⟨-, ⟨e, -, he⟩ | ⟨bs, os, b₁, hchecks, hrest⟩⟩
  · rw [hgoing] at hstopped
    cases hstopped
  · cases he
  obtain ⟨asked, interruptions, hasked, hsaid⟩ := h.checks_said hknown hchecks task
  refine ⟨asked, interruptions, hasked, ?_⟩
  rw [← List.append_assoc, converse_append, ← hsaid]
  rcases hrest with ⟨-, hlast, rfl⟩ | ⟨-, hconclude⟩
  · obtain rfl := Except.ok.inj hlast
    rw [giveUp, engines_finishAll]
    rfl
  · obtain ⟨h₁, -, -⟩ := h.checks ho hknown hchecks
    have hafter := (h₁.decideRound bs os).conclude_said hconclude task
    have hengines : (b₁.decideRound bs os).engines = b₁.engines := by simp [Attempt.decideRound]
    rwa [hengines] at hafter

section

variable (ho : ∀ task, Obliging s.variables (fails task) (sessions task))
include ho

theorem Engaged.goes_on (h : b.Engaged sessions s c cancelled (n + 1) (n + 2))
    (hknown : Known s b.pending) (hs : outcome Attempt.round b = (.ok false, b')) :
    c.depthBound.any (· ≤ (n : Int)) = false := by
  rcases round_cases hs with ⟨-, hlast, -⟩ | ⟨-, ⟨e, -, he⟩ | ⟨bs, os, b₁, hchecks, hrest⟩⟩
  · cases hlast
  · cases he
  rcases hrest with ⟨-, hlast, -⟩ | ⟨-, hconclude⟩
  · cases hlast
  obtain ⟨h₁, -, -⟩ := h.checks ho hknown hchecks
  have h₂ := h₁.decideRound bs os
  rcases conclude_cases hconclude with ⟨-, hlast, -⟩ | ⟨-, hlast, -⟩ | ⟨hbound, -, -⟩
  · cases hlast
  · cases hlast
  · rwa [h₂.config, h₂.depth] at hbound

theorem begun_engaged (c : Config) (cancelled : Bool) (names : List String) :
    ((new s c cancelled sessions).begun names).Engaged sessions s c cancelled 1 2 := by
  obtain ⟨a₁, a₂, a₃, a₄, hopenBase, hopenStep, hbaseStart, hstepStart, -, h₄⟩ :=
    prepared ho { new s c cancelled sessions with pending := names } rfl rfl rfl rfl rfl
  unfold begun prepare
  rwa [outcome_bind_of_ok hopenBase, outcome_bind_of_ok hopenStep, outcome_bind_of_ok hbaseStart,
    hstepStart]

theorem Reaches.round_consults (hreaches : Reaches ((new s c cancelled sessions).begun names) n b)
    (hknown : Known s names) :
    ∃ q b', outcome Attempt.round b = (q, b') ∧
      FailsOnlyBy (ReadingFault s.variables (fails .base) (sessions .base)) q ∧
      (b.isStopped = true → q = .ok true ∧ b'.engines = b.engines) ∧
      (b.isStopped = false → ∀ finished, q = .ok finished →
        ∀ task, Consults sessions s n task b finished b') := by
  obtain ⟨hpending, -⟩ := books_begun (new s c cancelled sessions) names
  obtain ⟨hb, hbknown⟩ :=
    (begun_engaged ho c cancelled names).reaches ho (by rwa [hpending]) hreaches
  rcases hround : outcome Attempt.round b with ⟨q, b'⟩
  refine ⟨q, b', rfl, (hb.round ho hbknown hround).1, fun hstopped => ?_, ?_⟩
  · rcases round_cases hround with ⟨-, hlast, rfl⟩ | ⟨hgoing, -⟩
    · exact ⟨hlast, engines_finishAll _ _⟩
    · rw [hgoing] at hstopped
      cases hstopped
  · rintro hgoing finished rfl
    exact hb.consults ho hbknown hgoing hround

theorem run_within_bound (cancelled : Bool) (hknown : Known s names) {d : Nat}
    (hbound : c.depthBound = some (d : Int)) :
    ∃ q a', outcome (run names (d + 1)) (new s c cancelled sessions) = (q, a') ∧
      FailsOnlyBy (ReadingFault s.variables (fails .base) (sessions .base)) q ∧
      ∀ x, q = .ok x → ∃ results, x = some results := by
  by_cases hnames : names = []
  · subst hnames
    exact ⟨_, _, rfl, .ok _, fun x hx => ⟨[], (Except.ok.inj hx).symm⟩⟩
  obtain ⟨a₀, q, engines, a', hbegun, h, hpending, hrounds, -, hrun⟩ :=
    run_served ho c cancelled (d + 1) hknown hnames
  have hknown₀ : Known s a₀.pending := by rwa [hpending]
  refine ⟨_, a', hrun, (h.rounds ho hknown₀ hrounds).1.map _, fun x hx => ?_⟩
  cases q with
  | error e => cases hx
  | ok finished =>
    cases finished with
    | true => exact ⟨_, (Except.ok.inj hx).symm⟩
    | false =>
      rcases rounds_cases hrounds with ⟨-, hreaches⟩ | ⟨-, -, -, -, -, hfalse⟩
      · -- the round at the bound is not followed by another one
        obtain ⟨b₁, b₂, hreaches₁, hround⟩ := hreaches.earlier (Nat.lt_succ_self d)
        obtain ⟨hb, hbknown⟩ := h.reaches ho hknown₀ hreaches₁
        have hgoes := hb.goes_on ho hbknown hround
        rw [hbound] at hgoes
        simp at hgoes
      · exact absurd rfl hfalse

end

/-- No property is lost, decided twice or asked about after its verdict. Unless it is called off, each
round consults both sessions about the open names, which with the decided ones are the requested names;
what is decided stays decided, and a bound on the depth bounds the rounds. The only thing that can break
off a round is a variable that the session of the base case leaves out of a model. -/
theorem every_name_accounted_for (c : Config) (cancelled : Bool) (names : List String)
    (ho : ∀ task, Obliging s.variables (fun _ => False) (sessions task)) :
    (Known s names → ∀ n b, Reaches ((new s c cancelled sessions).begun names) n b →
      Accounts names b ∧
      (∃ q b', outcome round b = (q, b') ∧
        (∀ error, q = .error error →
          ∃ r, error = .missingValue r ∧ LeavesOut s.variables (sessions .base) r) ∧
        (b.isStopped = true → q = .ok true ∧ b'.engines = b.engines) ∧
        (b.isStopped = false → ∀ finished, q = .ok finished →
          ∀ task, Consults sessions s n task b finished b')) ∧
      ∀ name r, Entries.get? name b.results = some r →
        (∀ m b', n ≤ m → Reaches ((new s c cancelled sessions).begun names) m b' →
          name ∉ b'.pending ∧ Entries.get? name b'.results = some r) ∧
        ∀ fuel results a', outcome (run names fuel) (new s c cancelled sessions) =
          (.ok (some results), a') → Entries.get? name results = some r) ∧
    (∀ fuel results a', outcome (run names fuel) (new s c cancelled sessions) =
        (.ok (some results), a') →
      results.keys.Nodup ∧ (∀ name, name ∈ results.keys ↔ name ∈ names) ∧
        ∀ name r, (name, r) ∈ results → r.property = name) ∧
    ∀ d : Nat, c.depthBound = some (d : Int) → Known s names →
      ∃ q a', outcome (run names (d + 1)) (new s c cancelled sessions) = (q, a') ∧
        (∀ error, q = .error error →
          ∃ r, error = .missingValue r ∧ LeavesOut s.variables (sessions .base) r) ∧
        ∀ x, q = .ok x → ∃ results, x = some results := by
  have haccounts : Accounts names ((new s c cancelled sessions).begun names) := accounts_begun rfl names
  refine ⟨fun hknown n b hreaches => ?_, fun fuel results a' hs => ?_, fun d hbound hknown => ?_⟩
  · have hb := hreaches.accounts haccounts
    obtain ⟨q, b', hround, hfails, hstopped, hconsults⟩ := hreaches.round_consults ho hknown
    have hleft error (herror : q = .error error) := (hfails error herror).exists_leftOut
    refine ⟨hb, ⟨q, b', hround, hleft, hstopped, hconsults⟩, fun name r hr => ?_⟩
    have hclosed : name ∉ b.pending := by
      intro hopen
      rw [hb.apart name hopen] at hr
      cases hr
    refine ⟨fun m b' hm hreaches' => ?_, fun fuel results a' hs => ?_⟩
    · obtain ⟨hclosed', hsame⟩ := hreaches.stays_closed hclosed hreaches' hm
      exact ⟨hclosed', hsame.trans hr⟩
    · have hname : name ∈ names := (hb.complete name).mpr (.inr (by rw [hr]; rfl))
      obtain ⟨a₁, hrounds, rfl⟩ := rounds_of_run (List.ne_nil_of_mem hname) hs
      rw [resultsFor_eq hname, hreaches.final hclosed hrounds, hr]
  · by_cases hnames : names = []
    · subst hnames
      obtain rfl := Option.some.inj (Except.ok.inj (congrArg Prod.fst hs))
      simp [Entries.keys]
    obtain ⟨a₁, hrounds, rfl⟩ := rounds_of_run hnames hs
    have h₁ : Accounts names a₁ ∧ a₁.pending = [] := by
      rcases rounds_cases hrounds with ⟨hfalse, -⟩ | ⟨n, b, -, hreaches, hlast, -⟩
      · cases hfalse
      · exact ⟨(hreaches.accounts haccounts).round hlast, pending_of_last hlast⟩
    have hnodup := Entries.nodup_keys_ofList
      (names.filterMap fun name => (Entries.get? name a₁.results).map (name, ·))
    refine ⟨hnodup, h₁.1.keys h₁.2, fun name r hr => ?_⟩
    exact h₁.1.named name r (get?_resultsFor (Entries.get?_of_mem hnodup hr))
  · obtain ⟨q, a', hrun, hfails, hsome⟩ := run_within_bound ho cancelled hknown hbound
    exact ⟨q, a', hrun, fun error herror => (hfails error herror).exists_leftOut, hsome⟩

theorem second_flag_asked_about_twice :
    ∃ results a', outcome (run ["second", "third", "second"] 2) (new flags
        ⟨{ depthBound := some 1 }, rfl⟩ false impatientSessions) = (.ok (some results), a') ∧
      results.keys.Nodup ∧ (∀ name, name ∈ results.keys ↔ name ∈ ["second", "third", "second"]) ∧
      ∃ asked, List.Forall₂ (Task.base.AsksAbout flags [] 0) ["second", "third", "second"] asked := by
  have hknown : Known flags ["second", "third", "second"] := by
    intro name hname
    have hcases : name = "second" ∨ name = "third" ∨ name = "second" := by simpa using hname
    rcases hcases with rfl | rfl | rfl <;> exact ⟨_, rfl⟩
  obtain ⟨hrounds, hresults, hbounded⟩ := every_name_accounted_for ⟨{ depthBound := some 1 }, rfl⟩ false
    ["second", "third", "second"] obliging_impatientSessions
  obtain ⟨q, a', hrun, hfails, hsome⟩ := hbounded 1 rfl hknown
  obtain ⟨x, rfl⟩ := exists_ok_of_givesAll Scripted.givesAll hfails
  obtain ⟨results, rfl⟩ := hsome x rfl
  obtain ⟨hnodup, hkeys, -⟩ := hresults 2 results a' hrun
  refine ⟨results, a', hrun, hnodup, hkeys, ?_⟩
  obtain ⟨-, ⟨q, b', -, hfails', -, hconsults⟩, -⟩ := hrounds hknown 0 _ .start
  have hgoing : ((new flags ⟨{ depthBound := some 1 }, rfl⟩ false impatientSessions).begun
      ["second", "third", "second"]).isStopped = false := by decide +kernel
  obtain ⟨hpending, -⟩ := books_begun (new flags ⟨{ depthBound := some 1 }, rfl⟩ false impatientSessions)
    ["second", "third", "second"]
  obtain ⟨finished, rfl⟩ := exists_ok_of_givesAll Scripted.givesAll hfails'
  obtain ⟨asked, -, hasked, -⟩ := (hconsults hgoing finished rfl .base).said
  rw [hpending] at hasked
  generalize ((new flags ⟨{ depthBound := some 1 }, rfl⟩ false impatientSessions).begun
    ["second", "third", "second"]).lemmas = hypotheses at hasked
  exact ⟨asked, hasked⟩

end Attempt

end InvariantProver
