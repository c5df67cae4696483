import InvariantProver.Proofs.Prover.Calls
import InvariantProver.Proofs.Prover.Unhindered

/-!
An attempt on a single property and the proof of it by induction on two engines alone. One asks both
questions in each round and counts the depth of the base case, the other stops at the first question
that settles the round and counts the depth of the induction; over sessions that speak for the same
oracles they come to the same result in the same round, or never to any.
-/

namespace InvariantProver

open Session Engine

def conclusion (oracles : Task → Oracle) (solvers : Task → String) (last : Task)
    (s : TransitionSystem) (name : String) (p : Term) (bound : Option Int) (n : Nat) :
    Option ProofResult :=
  match (BaseCase.forecast (oracles .base) s p n).finding,
    (InductionStep.forecast (oracles .step) s [] p (n + 1)).finding with
  | .found t, _ => some (.falsified name t (solvers .base))
  | .unknown reason, _ => some (.unknown name reason (n - 1) (solvers .base))
  | .nothing, .nothing => some (.proved name (n + 1 : Nat) (solvers .step))
  | .nothing, .unknown reason => some (.unknown name reason n (solvers .step))
  | .nothing, .found () =>
    if bound.any (· ≤ (n : Int)) then some (.unknown name depthExhaustedReason n (solvers last)) else none

theorem conclusion_alike (oracles : Task → Oracle) (solvers solvers' : Task → String) (last last' : Task)
    (s : TransitionSystem) (name : String) (p : Term) (bound : Option Int) (n : Nat) :
    (conclusion oracles solvers last s name p bound n = none ∧
        conclusion oracles solvers' last' s name p bound n = none) ∨
      ∃ r r', conclusion oracles solvers last s name p bound n = some r ∧
        conclusion oracles solvers' last' s name p bound n = some r' ∧
        r.verdict = r'.verdict ∧ r.depth = r'.depth ∧ r.property = name ∧ r'.property = name := by
  unfold conclusion
  split
  · exact .inr ⟨_, _, rfl, rfl, rfl, rfl, rfl, rfl⟩
  · exact .inr ⟨_, _, rfl, rfl, rfl, rfl, rfl, rfl⟩
  · exact .inr ⟨_, _, rfl, rfl, rfl, rfl, rfl, rfl⟩
  · exact .inr ⟨_, _, rfl, rfl, rfl, rfl, rfl, rfl⟩
  · split
    · exact .inr ⟨_, _, rfl, rfl, rfl, rfl, rfl, rfl⟩
    · exact .inl ⟨rfl, rfl⟩

def firstConclusion (conclude : Nat → Option ProofResult) (n fuel : Nat) : Option ProofResult :=
  (List.range' n fuel).findSome? conclude

theorem firstConclusion_succ (conclude : Nat → Option ProofResult) (n fuel : Nat) :
    firstConclusion conclude n (fuel + 1) =
      (conclude n).or (firstConclusion conclude (n + 1) fuel) := by
  rw [firstConclusion, List.range'_succ, List.findSome?_cons]
  cases conclude n <;> rfl

theorem firstConclusion_of_none {conclude : Nat → Option ProofResult} (h : ∀ n, conclude n = none)
    (n fuel : Nat) : firstConclusion conclude n fuel = none :=
  List.findSome?_eq_none_iff.mpr fun m _ => h m

theorem firstConclusion_of_first {conclude : Nat → Option ProofResult} {m n : Nat} {r : ProofResult}
    (hr : conclude m = some r) (hbefore : ∀ i < m, conclude i = none) (fuel : Nat) (hn : n ≤ m) :
    firstConclusion conclude n fuel = if m < n + fuel then some r else none := by
  induction fuel generalizing n with
  | zero =>
    rw [if_neg (by omega)]
    rfl
  | succ fuel ih =>
    rw [firstConclusion_succ]
    rcases Nat.lt_or_ge n m with hlt | hge
    · rw [hbefore n hlt, Option.none_or, ih hlt]
      simp only [Nat.add_right_comm n 1 fuel, Nat.add_assoc]
    · obtain rfl : n = m := by omega
      rw [hr, if_pos (by omega)]
      rfl

namespace InductionStep

open Engines

variable {σ : Type} [Backend σ] {oracles : Task → Oracle} {sessions : Task → Session σ}
  {s : TransitionSystem} {name : String} {p : Term} {n : Nat} {e : Engines σ}

structure Paired (sessions : Task → Session σ) (s : TransitionSystem) (n : Nat) (e : Engines σ) :
    Prop where
  base : e.base.Ready (sessions .base) s .base ∧ e.base.placed = n + 1
  step : e.step.Ready (sessions .step) s .step ∧ e.step.placed = n + 2

theorem Paired.names (h : Paired sessions s n e) :
    e.base.session.name = (sessions .base).name ∧ e.step.session.name = (sessions .step).name :=
  ⟨h.base.1.name, h.step.1.name⟩

theorem Paired.advance (hw : ∀ task, Willing (sessions task)) (h : Paired sessions s n e) :
    ∃ e', outcome advanceBoth e = (.ok (), e') ∧ Paired sessions s (n + 1) e' := by
  obtain ⟨base, hbase, hbaseReady, hbasePlaced⟩ := h.base.1.advance (hw .base)
  obtain ⟨step, hstep, hstepReady, hstepPlaced⟩ := h.step.1.advance (hw .step)
  refine ⟨⟨base, step⟩, ?_, ⟨hbaseReady, by rw [hbasePlaced, h.base.2]⟩,
    ⟨hstepReady, by rw [hstepPlaced, h.step.2]⟩⟩
  unfold advanceBoth
  rw [outcome_bind, outcome_onBase, hbase]
  simp only
  rw [outcome_onStep, hstep]

theorem any_bound (bound : Option Int) (n : Nat) :
    (bound.map (· + 1)).any (· ≤ ((n + 1 : Nat) : Int)) = bound.any (· ≤ (n : Int)) := by
  cases bound with
  | none => rfl
  | some d => simp

theorem loop_succ (name : String) (bound : Option Int) (hypotheses : List Term) (fuel : Nat) :
    (loop name bound hypotheses (fuel + 1) : EnginesM σ (Option ProofResult)) = (do
      let b ← onBase (BaseCase.check name)
      let base := (← get).base
      match b.finding with
      | .found t => return some (.falsified name t base.session.name)
      | .unknown reason => return some (.unknown name reason (base.depth - 1) base.session.name)
      | .nothing =>
        let o ← onStep (check hypotheses name)
        match verdict? name base (← get).step bound o with
        | some r => return some r
        | none => do
          advanceBoth
          loop name bound hypotheses fuel) := rfl

theorem loop_step (hs : ∀ task, Speaks (oracles task) (sessions task)) (hp : s.property name = .ok p)
    (bound : Option Int) (fuel : Nat) (h : Paired sessions s n e) :
    (∃ r e', conclusion oracles (fun task => (sessions task).name) .step s name p bound n = some r ∧
        outcome (loop name (bound.map (· + 1)) [] (fuel + 1)) e = (.ok (some r), e')) ∨
      (conclusion oracles (fun task => (sessions task).name) .step s name p bound n = none ∧
        ∃ e', Paired sessions s (n + 1) e' ∧
          outcome (loop name (bound.map (· + 1)) [] (fuel + 1)) e =
            outcome (loop name (bound.map (· + 1)) [] fuel) e') := by
  have hnone : ∀ t ∈ ([] : List Term), ∃ other, s.property other = .ok t := by simp
  obtain ⟨base, hbase, hbaseReady, hbasePlaced⟩ :=
    BaseCase.check_forecast (hs .base) h.base.1 h.base.2 hp
  obtain ⟨step, hstep, hstepReady, hstepPlaced⟩ :=
    check_forecast (hs .step) h.step.1 h.step.2 hp hnone
  have hbaseCheck : outcome (onBase (BaseCase.check name)) e =
      (.ok (BaseCase.forecast (oracles .base) s p n), { e with base := base }) := by
    rw [outcome_onBase, hbase]
  have hstepCheck : outcome (onStep (check [] name)) { e with base := base } =
      (.ok (forecast (oracles .step) s [] p (n + 1)), ⟨base, step⟩) := by
    rw [outcome_onStep, hstep]
  have h' : Paired sessions s n ⟨base, step⟩ := ⟨⟨hbaseReady, hbasePlaced⟩, hstepReady, hstepPlaced⟩
  have hbaseName : base.session.name = (sessions .base).name := h'.names.1
  have hstepName : step.session.name = (sessions .step).name := h'.names.2
  have hbaseDepth := depth_of_placed hbasePlaced
  have hstepDepth := depth_of_placed hstepPlaced
  rw [loop_succ, outcome_bind_of_ok hbaseCheck, outcome_bind_of_ok (outcome_get _)]
  unfold conclusion
  cases (BaseCase.forecast (oracles .base) s p n).finding with
  | found t =>
    refine .inl ⟨_, ⟨base, e.step⟩, rfl, ?_⟩
    simp only [← hbaseName]
    rfl
  | unknown reason =>
    refine .inl ⟨_, ⟨base, e.step⟩, rfl, ?_⟩
    simp only [← hbaseName, ← hbaseDepth]
    rfl
  | nothing =>
    simp only
    rw [outcome_bind_of_ok hstepCheck, outcome_bind_of_ok (outcome_get _)]
    unfold verdict?
    cases (forecast (oracles .step) s [] p (n + 1)).finding with
    | nothing =>
      refine .inl ⟨_, ⟨base, step⟩, rfl, ?_⟩
      simp only [← hstepName, ← hstepDepth]
      rfl
    | unknown reason =>
      refine .inl ⟨_, ⟨base, step⟩, rfl, ?_⟩
      simp only [← hstepName, ← hbaseDepth]
      rfl
    | found w =>
      simp only [hstepDepth, any_bound]
      by_cases hlast : bound.any (· ≤ (n : Int)) = true
      · rw [if_pos hlast, if_pos hlast]
        refine .inl ⟨_, ⟨base, step⟩, rfl, ?_⟩
        simp only [← hstepName, ← hbaseDepth]
        rfl
      · rw [if_neg hlast, if_neg hlast]
        obtain ⟨e', hadvance, hnext⟩ := h'.advance fun task => (hs task).toWilling
        exact .inr ⟨rfl, e', hnext, outcome_bind_of_ok hadvance⟩

theorem loop_forecast (hs : ∀ task, Speaks (oracles task) (sessions task)) (hp : s.property name = .ok p)
    (bound : Option Int) (fuel : Nat) (h : Paired sessions s n e) :
    (outcome (loop name (bound.map (· + 1)) [] fuel) e).1 =
      .ok (firstConclusion
        (conclusion oracles (fun task => (sessions task).name) .step s name p bound) n fuel) := by
  induction fuel generalizing n e with
  | zero => rfl
  | succ fuel ih =>
    rw [firstConclusion_succ]
    rcases loop_step hs hp bound fuel h with ⟨r, e', hr, hloop⟩ | ⟨hnone, e', h', hloop⟩
    · rw [hloop, hr]
      rfl
    · rw [hloop, hnone, ih h']
      rfl

end InductionStep

namespace Engines

variable {σ : Type} [Backend σ] {oracles : Task → Oracle} {sessions : Task → Session σ}
  {s : TransitionSystem} {name : String} {p : Term}

def prove (name : String) (bound : Option Int) (fuel : Nat) : EnginesM σ (Option ProofResult) := do
  onBase (talk Session.start)
  onStep (talk Session.start)
  start
  InductionStep.run name bound [] fuel

theorem prove_forecast (hs : ∀ task, Speaks (oracles task) (sessions task))
    (hp : s.property name = .ok p) (bound : Option Int) (fuel : Nat) :
    (outcome (prove name (bound.map (· + 1)) fuel) (new s (sessions .base) (sessions .step))).1 =
      .ok (firstConclusion
        (conclusion oracles (fun task => (sessions task).name) .step s name p bound) 0 fuel) := by
  have hw (task : Task) : Willing (sessions task) := (hs task).toWilling
  obtain ⟨b₀, hbaseOpens, hbaseCalm⟩ := (hw .base).starts
  obtain ⟨t₀, hstepOpens, hstepCalm⟩ := (hw .step).starts
  have hbaseNew : Ready (sessions .base) s .base ⟨s, .base, b₀, 0⟩ :=
    Attempt.ready_new (hw .base) hbaseOpens hbaseCalm
  have hstepNew : Ready (sessions .step) s .step ⟨s, .step, t₀, 0⟩ :=
    Attempt.ready_new (hw .step) hstepOpens hstepCalm
  obtain ⟨base, hbase, hbaseReady, hbasePlaced⟩ := hbaseNew.advance (hw .base)
  obtain ⟨step₁, hstep₁, hstepReady₁, hstepPlaced₁⟩ := hstepNew.advance (hw .step)
  obtain ⟨step, hstep, hstepReady, hstepPlaced⟩ := hstepReady₁.advance (hw .step)
  have hpaired : InductionStep.Paired sessions s 0 ⟨base, step⟩ :=
    ⟨⟨hbaseReady, hbasePlaced⟩, hstepReady, by rw [hstepPlaced, hstepPlaced₁]⟩
  have hbaseStarts : outcome (onBase (talk Session.start)) (new s (sessions .base) (sessions .step)) =
      (.ok (), ⟨⟨s, .base, b₀, 0⟩, InductionStep.new s (sessions .step)⟩) := by
    rw [outcome_onBase]
    exact congrArg (fun x => (x.1, Engines.mk x.2 _))
      (outcome_talk_ok (e := BaseCase.new s (sessions .base)) hbaseOpens)
  have hstepStarts : outcome (onStep (talk Session.start))
      ⟨⟨s, .base, b₀, 0⟩, InductionStep.new s (sessions .step)⟩ =
      (.ok (), ⟨⟨s, .base, b₀, 0⟩, ⟨s, .step, t₀, 0⟩⟩) := by
    rw [outcome_onStep]
    exact congrArg (fun x => (x.1, Engines.mk _ x.2))
      (outcome_talk_ok (e := InductionStep.new s (sessions .step)) hstepOpens)
  have hstart : outcome start ⟨⟨s, .base, b₀, 0⟩, ⟨s, .step, t₀, 0⟩⟩ = (.ok (), ⟨base, step⟩) := by
    have hbaseStart : outcome (onBase BaseCase.start) ⟨⟨s, .base, b₀, 0⟩, ⟨s, .step, t₀, 0⟩⟩ =
        (.ok (), ⟨base, ⟨s, .step, t₀, 0⟩⟩) := by
      rw [outcome_onBase, BaseCase.start, hbase]
    unfold start InductionStep.start
    rw [outcome_bind_of_ok hbaseStart, outcome_onStep, outcome_bind_of_ok hstep₁, hstep]
  have hproperty : outcome (onBase (Engine.property name)) ⟨base, step⟩ = (.ok p, ⟨base, step⟩) := by
    rw [outcome_onBase, property_eq_ok.mpr ⟨hbaseReady.system ▸ hp, rfl⟩]
  have haligned : ¬ base.depth ≠ step.depth - 1 := by
    rw [depth_of_placed hpaired.base.2, depth_of_placed hpaired.step.2]
    simp
  unfold prove InductionStep.run
  rw [outcome_bind_of_ok hbaseStarts, outcome_bind_of_ok hstepStarts, outcome_bind_of_ok hstart,
    outcome_bind_of_ok hproperty, outcome_bind_of_ok (outcome_get _)]
  simp only [haligned, if_false]
  exact InductionStep.loop_forecast hs hp bound fuel hpaired

end Engines

namespace Attempt

variable {σ : Type} [Backend σ] {oracles : Task → Oracle} {sessions : Task → Session σ}
  {s : TransitionSystem} {c : Config} {name : String} {p : Term} {n : Nat} {a : Attempt σ}

structure Alone (sessions : Task → Session σ) (s : TransitionSystem) (c : Config) (name : String)
    (n : Nat) (a : Attempt σ) : Prop where
  deciding : Deciding sessions s c [name] n a
  pending : a.pending = [name]
  proved : a.proved = []

omit [Backend σ] in
theorem decisions_eq_nil {bs : Entries String (Outcome Trace)} {os : Entries String (Outcome Unit)}
    (h : ∀ name ∈ a.pending, a.decision bs os name = none) : a.decisions bs os = [] := by
  have hperm : (a.decisions bs os).Perm (a.pending.filterMap (a.decision bs os)) := decisions_perm
  rw [List.filterMap_eq_nil_iff.mpr h] at hperm
  exact hperm.eq_nil

omit [Backend σ] in
theorem conclusion_eq {base step : Engine σ} (hbase : base.session.name = (sessions .base).name)
    (hstep : step.session.name = (sessions .step).name) (bound : Option Int) :
    conclusion oracles (fun task => (sessions task).name) .base s name p bound n =
      (decide? name base step (BaseCase.forecast (oracles .base) s p n)
        (InductionStep.forecast (oracles .step) s [] p (n + 1))).or
        (if bound.any (· ≤ (n : Int)) then
          some (.unknown name depthExhaustedReason n (sessions .base).name) else none) :=
  foreseen_eq hbase hstep [] p bound

theorem Alone.round (hs : ∀ task, Speaks (oracles task) (sessions task)) (h : Alone sessions s c name n a)
    (hp : s.property name = .ok p) :
    (∃ r a', conclusion oracles (fun task => (sessions task).name) .base s name p c.depthBound n = some r ∧
        outcome Attempt.round a = (.ok true, a') ∧ Deciding sessions s c [name] n a' ∧
        Entries.get? name a'.results = some r) ∨
      (conclusion oracles (fun task => (sessions task).name) .base s name p c.depthBound n = none ∧
        ∃ a', outcome Attempt.round a = (.ok false, a') ∧ Alone sessions s c name (n + 1) a') := by
  have hw (task : Task) : Willing (sessions task) := (hs task).toWilling
  have hknown : ∀ other ∈ [name], ∃ q, s.property other = .ok q := by
    intro other hother
    obtain rfl := List.mem_singleton.mp hother
    exact ⟨p, hp⟩
  obtain ⟨bs, os, engines, hchecks, -, h₁, hall⟩ := h.deciding.checks_forecast hs hknown
  have hround := h.deciding.round_of_checks (hw .base) (hw .step) hchecks h₁
  have h₂ := h₁.decideRound bs os
  have hopen : name ∈ a.pending := by
    rw [h.pending]
    exact List.mem_singleton.mpr rfl
  obtain ⟨hb, ho⟩ := hall name hopen p hp
  have hlemmas : a.lemmas = [] := by
    unfold lemmas
    rw [h.proved]
    split <;> rfl
  rw [hlemmas] at ho
  have hdecision : decision { a with engines := engines } bs os name =
      decide? name engines.base engines.step (BaseCase.forecast (oracles .base) s p n)
        (InductionStep.forecast (oracles .step) s [] p (n + 1)) := by
    simp only [decision, hb, ho, Option.bind_eq_bind, Option.bind_some]
  rw [conclusion_eq h₁.base.1.name h₁.step.1.name, ← hdecision, hround]
  cases hd : decision { a with engines := engines } bs os name with
  | some r =>
    obtain ⟨hclosed, hresult⟩ := decided_decideRound (a := { a with engines := engines }) hopen hd
    have hempty : (decideRound bs os { a with engines := engines }).pending = [] := by
      refine List.eq_nil_iff_forall_not_mem.mpr fun other hother => ?_
      obtain rfl := List.mem_singleton.mp (h₂.pending other hother)
      exact hclosed hother
    rcases h₂.concludes (hw .base) (hw .step) with ⟨-, hs'⟩ | ⟨hpending, -⟩ | ⟨hpending, -⟩
    · exact .inl ⟨r, _, rfl, hs', h₂, hresult⟩
    · exact absurd hempty hpending
    · exact absurd hempty hpending
  | none =>
    have hnone : decisions { a with engines := engines } bs os = [] := by
      refine decisions_eq_nil fun other hother => ?_
      obtain rfl := List.mem_singleton.mp (h.deciding.pending other hother)
      exact hd
    have hsame : (decideRound bs os { a with engines := engines }).pending = [name] ∧
        (decideRound bs os { a with engines := engines }).proved = [] := by
      unfold Attempt.decideRound
      rw [hnone]
      exact ⟨h.pending, h.proved⟩
    rcases h₂.concludes (hw .base) (hw .step) with ⟨hempty, -⟩ | ⟨-, hlast, hs'⟩ | ⟨-, hgoing, engines', hs', h'⟩
    · rw [hsame.1] at hempty
      cases hempty
    · rw [if_pos hlast]
      refine .inl ⟨_, _, rfl, hs', h₂.giveUp, ?_⟩
      rw [get?_results_giveUp (by rw [hsame.1]; exact List.mem_singleton.mpr rfl), h₂.base.1.name]
    · rw [if_neg (by simp [hgoing])]
      exact .inr ⟨rfl, _, hs', h', hsame.1, hsame.2⟩

theorem Alone.rounds (hs : ∀ task, Speaks (oracles task) (sessions task)) (hp : s.property name = .ok p)
    (fuel : Nat) (h : Alone sessions s c name n a) :
    ∃ m a', outcome (Attempt.rounds fuel) a =
        (.ok (firstConclusion (conclusion oracles (fun task => (sessions task).name) .base s name p
          c.depthBound) n fuel).isSome, a') ∧
      Deciding sessions s c [name] m a' ∧
      ∀ r, firstConclusion (conclusion oracles (fun task => (sessions task).name) .base s name p
        c.depthBound) n fuel = some r → Entries.get? name a'.results = some r := by
  induction fuel generalizing n a with
  | zero => exact ⟨n, a, rfl, h.deciding, by rintro r ⟨⟩⟩
  | succ fuel ih =>
    rw [firstConclusion_succ]
    unfold Attempt.rounds
    rcases h.round hs hp with ⟨r, a', hr, hround, h', hresult⟩ | ⟨hnone, a', hround, h'⟩
    · rw [outcome_bind_of_ok hround, hr]
      refine ⟨n, a', rfl, h', fun r' hr' => ?_⟩
      obtain rfl := Option.some.inj hr'
      exact hresult
    · rw [outcome_bind_of_ok hround, hnone]
      exact ih h'

theorem run_alone (hs : ∀ task, Speaks (oracles task) (sessions task)) (hp : s.property name = .ok p)
    (fuel : Nat) :
    (outcome (run [name] fuel) (new s c false sessions)).1 =
      .ok ((firstConclusion (conclusion oracles (fun task => (sessions task).name) .base s name p
        c.depthBound) 0 fuel).map fun r => [(name, r)]) := by
  have hw (task : Task) : Willing (sessions task) := (hs task).toWilling
  have hknown : ∀ other ∈ [name], ∃ q, s.property other = .ok q := by
    intro other hother
    obtain rfl := List.mem_singleton.mp hother
    exact ⟨p, hp⟩
  obtain ⟨-, -, -, -, -, -, -, h, hbegun⟩ := begun_returns hw s c [name]
  obtain ⟨m, a', hrounds, h', hresult⟩ := Alone.rounds hs hp fuel
    ⟨h, by rw [hbegun], by rw [hbegun]; rfl⟩
  rw [run_of_rounds hw (by simp) hknown hrounds h']
  cases hfirst : firstConclusion (conclusion oracles (fun task => (sessions task).name) .base s name p
    c.depthBound) 0 fuel with
  | none => rfl
  | some r => simp [resultsFor, hresult r hfirst, Entries.ofList, Entries.put]

variable {τ : Type} [Backend τ] {alone : Task → Session τ}

/-- An attempt on a single property and its proof by induction on engines alone either both never
return, or return in the same round, with the same verdict at the same depth. -/
theorem agrees_with_induction (hs : ∀ task, Speaks (oracles task) (sessions task))
    (halone : ∀ task, Speaks (oracles task) (alone task)) (hp : s.property name = .ok p) :
    (∀ fuel,
      (outcome (run [name] fuel) (new s c false sessions)).1 = .ok none ∧
      (outcome (Engines.prove name (c.depthBound.map (· + 1)) fuel)
        (Engines.new s (alone .base) (alone .step))).1 = .ok none) ∨
    ∃ n r r', r.verdict = r'.verdict ∧ r.depth = r'.depth ∧ r.property = name ∧ r'.property = name ∧
      ∀ fuel,
        (outcome (run [name] fuel) (new s c false sessions)).1 =
          .ok (if n < fuel then some [(name, r)] else none) ∧
        (outcome (Engines.prove name (c.depthBound.map (· + 1)) fuel)
          (Engines.new s (alone .base) (alone .step))).1 = .ok (if n < fuel then some r' else none) := by
  have hrun := run_alone (c := c) hs hp
  have hprove := Engines.prove_forecast halone hp c.depthBound
  have halike := conclusion_alike oracles (fun task => (sessions task).name)
    (fun task => (alone task).name) .base .step s name p c.depthBound
  by_cases hsettled : ∃ n, (conclusion oracles (fun task => (sessions task).name) .base s name p
    c.depthBound n).isSome = true
  · -- the first round that settles the property is the first one for both
    have hbefore := fun n (hn : n < Nat.find hsettled) => Option.not_isSome_iff_eq_none.mp
      (Nat.find_min hsettled hn)
    have hsome := Nat.find_spec hsettled
    refine .inr ⟨Nat.find hsettled, ?_⟩
    generalize Nat.find hsettled = n at hbefore hsome
    rcases halike n with ⟨hnone, -⟩ | ⟨r, r', hr, hr', hverdict, hdepth, hname, hname'⟩
    · rw [hnone] at hsome
      cases hsome
    have hbefore' : ∀ i < n, conclusion oracles (fun task => (alone task).name) .step s name p
        c.depthBound i = none := by
      intro i hi
      rcases halike i with ⟨-, hnone'⟩ | ⟨r, r', hr, -⟩
      · exact hnone'
      · rw [hbefore i hi] at hr
        cases hr
    refine ⟨r, r', hverdict, hdepth, hname, hname', fun fuel => ⟨?_, ?_⟩⟩
    · rw [hrun, firstConclusion_of_first hr hbefore fuel (Nat.zero_le n), Nat.zero_add]
      split <;> rfl
    · rw [hprove, firstConclusion_of_first hr' hbefore' fuel (Nat.zero_le n), Nat.zero_add]
  · have hnone (n : Nat) : conclusion oracles (fun task => (sessions task).name) .base s name p
        c.depthBound n = none :=
      Option.not_isSome_iff_eq_none.mp fun hsome => hsettled ⟨n, hsome⟩
    have hnone' (n : Nat) : conclusion oracles (fun task => (alone task).name) .step s name p
        c.depthBound n = none := by
      rcases halike n with ⟨-, hnone'⟩ | ⟨r, r', hr, -⟩
      · exact hnone'
      · rw [hnone n] at hr
        cases hr
    refine .inl fun fuel => ⟨?_, ?_⟩
    · rw [hrun, firstConclusion_of_none hnone]
      rfl
    · rw [hprove, firstConclusion_of_none hnone']

theorem third_flag_falsified_twice :
    ∃ r r', (outcome (run ["third"] 2) (new flags ⟨{ depthBound := some 1 }, rfl⟩ false
        exhaustiveSessions)).1 = .ok (some [("third", r)]) ∧
      (outcome (Engines.prove "third" (some 2) 2)
        (Engines.new flags (exhaustiveSessions .base) (exhaustiveSessions .step))).1 = .ok (some r') ∧
      r.verdict = r'.verdict ∧ r.depth = 1 ∧ r'.depth = 1 := by
  have hreport : ((new flags ⟨{ depthBound := some 1 }, rfl⟩ false exhaustiveSessions).report ["third"] 2
      "third").any (fun r => r.depth = 1) = true := by decide +kernel
  obtain ⟨r, hr, hdepth⟩ := (Option.any_eq_true _ _).mp hreport
  obtain ⟨results, a', hs, hget⟩ := report_eq_some.mp hr
  have hproperty : flags.property "third" = .ok (flag "third" 0) := rfl
  rcases agrees_with_induction (c := ⟨{ depthBound := some 1 }, rfl⟩) speaks_exhaustiveSessions
    speaks_exhaustiveSessions hproperty with
    hnever | ⟨n, r₁, r₂, hverdict, hdepths, -, -, hall⟩
  · have hnone := (hnever 2).1
    rw [hs] at hnone
    cases Except.ok.inj hnone
  · obtain ⟨hrun, hprove⟩ := hall 2
    rw [hs] at hrun
    have hresults : some results = if n < 2 then some [("third", r₁)] else none := Except.ok.inj hrun
    split at hresults
    · next hn =>
      obtain rfl := Option.some.inj hresults
      obtain rfl : r₁ = r := by simpa [Entries.get?] using hget
      rw [if_pos hn] at hprove
      have hone : r₁.depth = 1 := of_decide_eq_true hdepth
      exact ⟨r₁, r₂, congrArg Prod.fst hs, hprove, hverdict, hone, hdepths ▸ hone⟩
    · cases hresults

end Attempt

end InvariantProver
