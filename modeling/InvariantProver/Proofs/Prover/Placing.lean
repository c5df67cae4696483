import InvariantProver.Proofs.Session.Reached
import InvariantProver.Proofs.TransitionSystem.Execution

namespace InvariantProver

namespace Session

variable {σ : Type} [Backend σ]

def Holding (course : Course) (s₀ : Session σ) (ts : List Term) (s : Session σ) : Prop :=
  ∃ frames, OpenWith course s₀ frames s ∧ active frames = ts

section

variable {course : Course} {s₀ : Session σ} (hscopes : s₀.scopes = [[]])
include hscopes

theorem OpenWith.keeps_values (refs : List Ref) (frames : List (List Term)) :
    Keeps course (OpenWith course s₀ frames) (Session.values refs) := by
  intro s t r h hs hr
  exact h.values hscopes hs hr

theorem Holding.keeps_declare (ts : List Term) (v : Variable) (step : Int) :
    Keeps course (Holding course s₀ ts) (Session.declare v step) := by
  rintro s t r ⟨frames, hopen, hactive⟩ hs hr
  exact ⟨frames, hopen.declare hscopes hs hr, hactive⟩

theorem Holding.exists_cons {ts : List Term} {s : Session σ} (h : Holding course s₀ ts s) :
    ∃ frame outer, OpenWith course s₀ (frame :: outer) s ∧ active outer ++ frame = ts := by
  obtain ⟨frames, hopen, hactive⟩ := h
  obtain ⟨hlength, hpos⟩ := hopen.reached.length hscopes
  match frames, hlength with
  | [], hlength =>
    rw [List.length_nil] at hlength
    omega
  | frame :: outer, _ => exact ⟨frame, outer, hopen, by rw [← hactive, active_cons]⟩

theorem Holding.assert {ts : List Term} {s s' : Session σ} {t : Term} {r : Except SessionError Unit}
    (h : Holding course s₀ ts s) (hs : outcome (Session.assert t) s = (r, s')) (hr : course.Allows r) :
    Holding course s₀ (match r with | .ok _ => ts ++ [t] | .error _ => ts) s' := by
  obtain ⟨frame, outer, hopen, rfl⟩ := h.exists_cons hscopes
  cases r with
  | ok u => exact ⟨_, hopen.assert hs, by rw [active_cons, List.append_assoc]⟩
  | error e => exact ⟨_, hopen.of_assert_error hscopes hs hr, active_cons _ _⟩

end

theorem Holding.interrupt {course : Course} {s₀ s : Session σ} {ts : List Term}
    (h : Holding course s₀ ts s) : Holding course s₀ ts s.interrupt := by
  obtain ⟨frames, hopen, hactive⟩ := h
  exact ⟨frames, hopen.interrupt, hactive⟩

end Session

namespace Engine

open Session

variable {σ : Type}

theorem depth_of_placed {e : Engine σ} {n : Nat} (h : e.placed = n + 1) : e.depth = n := by
  unfold depth
  omega

def WithSession (e₀ : Engine σ) (I : Session σ → Prop) (e : Engine σ) : Prop :=
  ∃ s, e = { e₀ with session := s } ∧ I s

theorem withSession_self {e : Engine σ} {I : Session σ → Prop} (h : I e.session) :
    e.WithSession I e := ⟨e.session, rfl, h⟩

theorem outcome_talk {α : Type} (m : SessionM σ α) (e : Engine σ) :
    outcome (talk m) e =
      ((outcome m e.session).1.mapError .session, { e with session := (outcome m e.session).2 }) := rfl

theorem talk_eq {α : Type} {m : SessionM σ α} {e e' : Engine σ} {r : Except ProofError α}
    (h : outcome (talk m) e = (r, e')) :
    ∃ q s, outcome m e.session = (q, s) ∧ r = q.mapError .session ∧ e' = { e with session := s } := by
  obtain ⟨rfl, rfl⟩ := Prod.mk.inj h
  exact ⟨_, _, rfl, rfl, rfl⟩

theorem talk_eq_ok {α : Type} {m : SessionM σ α} {e e' : Engine σ} {a : α}
    (h : outcome (talk m) e = (.ok a, e')) :
    ∃ s, outcome m e.session = (.ok a, s) ∧ e' = { e with session := s } := by
  obtain ⟨q, s, hm, hq, rfl⟩ := talk_eq h
  cases q with
  | error error => cases hq
  | ok b =>
    obtain rfl := Except.ok.inj hq
    exact ⟨s, hm, rfl⟩

theorem allows_of_mapError {α : Type} {course : Course} {q : Except SessionError α}
    (h : course.Allows (q.mapError ProofError.session)) : course.Allows q := by
  cases q with
  | ok a => exact course.allows_ok a
  | error e => exact Course.Allows.error h

theorem keeps_talk {α : Type} {course : Course} {m : SessionM σ α} {e₀ : Engine σ}
    {I : Session σ → Prop} (h : Keeps course I m) : Keeps course (e₀.WithSession I) (talk m) := by
  rintro e e' r ⟨s, rfl, hI⟩ he hr
  obtain ⟨q, s', hm, rfl, rfl⟩ := talk_eq he
  exact ⟨s', rfl, h hI hm (allows_of_mapError hr)⟩

variable [Backend σ]

structure Follows (course : Course) (s₀ : Session σ) (s : TransitionSystem) (task : Task)
    (e : Engine σ) : Prop where
  session : Holding course s₀ (task.asserted s e.placed) e.session
  system : e.system = s
  task : e.task = task

section

variable {course : Course} {s₀ : Session σ} {s : TransitionSystem} {task : Task} {e e' : Engine σ}

theorem Follows.new (hopen : s₀.closed = false) : Follows course s₀ s task ⟨s, task, s₀, 0⟩ :=
  ⟨⟨[[]], ⟨.new, hopen⟩, rfl⟩, rfl, rfl⟩

theorem Follows.start (hopen : s₀.closed = false)
    (h : outcome (talk Session.start) ⟨s, task, s₀, 0⟩ = (.ok (), e')) :
    Follows course s₀ s task e' ∧ e'.placed = 0 := by
  obtain ⟨s', hs, rfl⟩ := talk_eq_ok h
  have hclosed : s'.closed = false := by
    obtain ⟨-, rfl⟩ := Prod.mk.inj hs
    exact hopen
  exact ⟨⟨⟨[[]], ⟨.started hs, hclosed⟩, rfl⟩, rfl, rfl⟩, rfl⟩

theorem Follows.interrupt (h : e.Follows course s₀ s task) (times : Nat) :
    Follows course s₀ s task
      { e with session := (List.range times).foldl (fun s _ => s.interrupt) e.session } := by
  refine ⟨?_, h.system, h.task⟩
  induction times with
  | zero => exact h.session
  | succ times ih =>
    rw [List.range_succ, List.foldl_append]
    exact Holding.interrupt ih

theorem length_assumptions_le (task : Task) (s : TransitionSystem) (i : Nat) :
    (task.assumptions s i).length ≤ 1 := by
  match i, task with
  | 0, .base => exact Nat.le_refl 1
  | 0, .step => exact Nat.zero_le 1
  | i + 1, _ => exact Nat.le_refl 1

theorem assert_all_or_none {as ts : List Term} {r : Except ProofError PUnit}
    (hscopes : s₀.scopes = [[]]) (hts : ts.length ≤ 1) (h : Holding course s₀ as e.session)
    (hs : outcome (ts.forM fun t => talk (Session.assert t)) e = (r, e')) (hr : course.Allows r) :
    ∃ t, e' = { e with session := t } ∧
      Holding course s₀ (match r with | .ok _ => as ++ ts | .error _ => as) t := by
  match ts with
  | [] =>
    obtain ⟨rfl, rfl⟩ := Prod.mk.inj hs
    exact ⟨_, rfl, by rwa [List.append_nil]⟩
  | [p] =>
    change outcome (talk (Session.assert p) >>= fun _ => pure ()) e = _ at hs
    rw [outcome_bind] at hs
    rcases ha : outcome (talk (Session.assert p)) e with ⟨error | u, e₁⟩
    · rw [ha] at hs
      obtain ⟨rfl, rfl⟩ := Prod.mk.inj hs
      obtain ⟨q, t, hq, hmap, rfl⟩ := talk_eq ha
      cases q with
      | ok u => cases hmap
      | error error' => exact ⟨t, rfl, h.assert hscopes hq hr.error⟩
    · rw [ha] at hs
      obtain ⟨rfl, rfl⟩ := Prod.mk.inj hs
      obtain ⟨t, hq, rfl⟩ := talk_eq_ok ha
      exact ⟨t, rfl, h.assert hscopes hq (course.allows_ok _)⟩
  | _ :: _ :: _ =>
    rw [List.length_cons, List.length_cons] at hts
    omega

theorem Follows.advance {r : Except ProofError Unit} (hscopes : s₀.scopes = [[]])
    (h : e.Follows course s₀ s task) (hs : outcome Engine.advance e = (r, e')) (hr : course.Allows r) :
    e'.Follows course s₀ s task ∧
      e'.placed = match r with | .ok _ => e.placed + 1 | .error _ => e.placed := by
  obtain ⟨hsession, rfl, rfl⟩ := h
  unfold Engine.advance at hs
  rw [outcome_bind_of_ok (outcome_get e), outcome_bind] at hs
  have hdeclares : Keeps course (e.WithSession (Holding course s₀ (e.task.asserted e.system e.placed)))
      (e.system.variables.forM fun v => talk (Session.declare v e.placed)) :=
    .forM _ fun v _ => keeps_talk (Holding.keeps_declare hscopes _ v _)
  rcases hd : outcome (e.system.variables.forM fun v => talk (Session.declare v e.placed)) e
    with ⟨error | u, e₁⟩
  · rw [hd] at hs
    obtain ⟨rfl, rfl⟩ := Prod.mk.inj hs
    obtain ⟨t, rfl, ht⟩ := hdeclares (withSession_self hsession) hd hr
    exact ⟨⟨ht, rfl, rfl⟩, rfl⟩
  rw [hd] at hs
  obtain ⟨t, rfl, ht⟩ := hdeclares (withSession_self hsession) hd (course.allows_ok _)
  change outcome ((e.task.assumptions e.system e.placed).forM _ >>= _) _ = _ at hs
  rw [outcome_bind] at hs
  rcases ha : outcome ((e.task.assumptions e.system e.placed).forM fun t => talk (Session.assert t))
    { e with session := t } with ⟨error | u, e₂⟩
  · rw [ha] at hs
    obtain ⟨rfl, rfl⟩ := Prod.mk.inj hs
    obtain ⟨t', rfl, ht'⟩ :=
      assert_all_or_none (e := { e with session := t }) hscopes (length_assumptions_le ..) ht ha hr.error
    exact ⟨⟨ht', rfl, rfl⟩, rfl⟩
  · rw [ha] at hs
    obtain ⟨rfl, rfl⟩ := Prod.mk.inj hs
    obtain ⟨t', rfl, ht'⟩ :=
      assert_all_or_none (e := { e with session := t }) hscopes (length_assumptions_le ..) ht ha
        (course.allows_ok _)
    refine ⟨⟨?_, rfl, rfl⟩, rfl⟩
    change Holding course s₀ (e.task.asserted e.system (e.placed + 1)) t'
    rwa [Task.asserted_succ]

def Standing (course : Course) (s₀ : Session σ) (s : TransitionSystem) (task : Task) (P : Nat → Prop)
    (e : Engine σ) : Prop :=
  e.Follows course s₀ s task ∧ P e.placed

theorem Standing.keeps {α : Type} {P : Nat → Prop} {m : EngineM σ α}
    (h : ∀ (e₀ : Engine σ) ts, Keeps course (e₀.WithSession (Holding course s₀ ts)) m) :
    Keeps course (Standing course s₀ s task P) m := by
  rintro e e' r ⟨hfollows, hplaced⟩ hs hr
  obtain ⟨t, rfl, ht⟩ := h e _ (withSession_self hfollows.session) hs hr
  exact ⟨⟨ht, hfollows.system, hfollows.task⟩, hplaced⟩

theorem Standing.advance {n : Nat} (hscopes : s₀.scopes = [[]])
    (h : e.Standing course s₀ s task (· = n)) (hs : outcome Engine.advance e = (.ok (), e')) :
    e'.Standing course s₀ s task (· = n + 1) := by
  obtain ⟨hfollows, hplaced⟩ := h.1.advance hscopes hs (course.allows_ok _)
  exact ⟨hfollows, hplaced.trans (congrArg (· + 1) h.2)⟩

theorem Standing.keeps_advance {n : Nat} (hscopes : s₀.scopes = [[]]) :
    Keeps course (Standing course s₀ s task (n ≤ ·)) Engine.advance := by
  rintro e e' r ⟨hfollows, hn⟩ hs hr
  obtain ⟨hfollows', hplaced⟩ := hfollows.advance hscopes hs hr
  refine ⟨hfollows', ?_⟩
  rw [hplaced]
  cases r with
  | ok u => exact Nat.le_succ_of_le hn
  | error error => exact hn

end

end Engine

end InvariantProver
