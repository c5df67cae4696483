import InvariantProver.Proofs.Prover.Progress
import InvariantProver.Proofs.Session.Obliging

namespace InvariantProver

open Session

namespace Engine

variable {σ α β : Type} [Backend σ] {fails : SessionError → Prop} {s₀ : Session σ}
  {s : TransitionSystem} {task : Task} {n : Nat} {e e' : Engine σ}

structure AtWork (s₀ : Session σ) (s : TransitionSystem) (task : Task) (n : Nat) (e : Engine σ) :
    Prop where
  session : ∃ frames scope, Kept s.variables s₀ frames [scope] e.session ∧
    active frames = Task.asserted task s n ∧ Declared s n scope
  system : e.system = s
  task : e.task = task
  placed : e.placed = n

theorem AtWork.standing (h : e.AtWork s₀ s task n) : e.Standing .any s₀ s task (· = n) := by
  obtain ⟨⟨frames, scope, hkept, hactive, -⟩, hsystem, htask, hplaced⟩ := h
  refine ⟨⟨⟨frames, hkept.opened, ?_⟩, hsystem, htask⟩, hplaced⟩
  rw [hactive, hplaced]

theorem atWork_of_kept {t : Session σ} (h : Kept s.variables s₀ [[]] [[]] t) :
    AtWork s₀ s task 0 ⟨s, task, t, 0⟩ := by
  refine ⟨⟨[[]], [], h, rfl, fun r => ?_⟩, rfl, rfl, rfl⟩
  simp only [List.not_mem_nil, false_iff]
  omega

theorem AtWork.interrupt (h : e.AtWork s₀ s task n) (times : Nat) :
    AtWork s₀ s task n
      { e with session := (List.range times).foldl (fun s _ => s.interrupt) e.session } := by
  obtain ⟨⟨frames, scope, hkept, hactive, hscope⟩, hsystem, htask, hplaced⟩ := h
  refine ⟨⟨frames, scope, ?_, hactive, hscope⟩, hsystem, htask, hplaced⟩
  induction times with
  | zero => exact hkept
  | succ times ih =>
    rw [List.range_succ, List.foldl_append]
    exact ih.interrupt

theorem declares_served {vs : List Variable} (ho : Obliging vs fails s₀) (hnodup : vs.Nodup)
    {step : Nat} {frames : List (List Term)} {scope : List Ref} (h : Kept vs s₀ frames [scope] e.session)
    (hfresh : ∀ v ∈ vs, (⟨v, step⟩ : Ref) ∉ scope) :
    ∃ t, outcome (vs.forM fun v => talk (Session.declare v step)) e = (.ok (), { e with session := t }) ∧
      ∃ scope', Kept vs s₀ frames [scope'] t ∧ Added scope vs step scope' := by
  refine talks_return (I := fun before t => ∃ scope', Kept vs s₀ frames [scope'] t ∧
    Added scope before step scope') ?_ ⟨scope, h, by simp [Added]⟩
  rintro before v after s rfl ⟨scope', h, hadded⟩
  have hnew := hadded.fresh hnodup (hfresh v (by simp))
  obtain ⟨t, hs, h'⟩ := h.declare ho (v := v) (by simp) (by simpa using hnew)
  exact ⟨t, hs, _, h', hadded.concat v⟩

theorem asserts_served {vs : List Variable} (ho : Obliging vs fails s₀) {ts frame : List Term}
    {outer : List (List Term)} {scopes : List (List Ref)} (h : Kept vs s₀ (frame :: outer) scopes e.session)
    (hts : ∀ t ∈ ts, t.ty = .bool ∧ ∀ r ∈ t.refs, ∃ scope ∈ scopes, r ∈ scope) :
    ∃ t, outcome (ts.forM fun t => talk (Session.assert t)) e = (.ok (), { e with session := t }) ∧
      Kept vs s₀ ((frame ++ ts) :: outer) scopes t := by
  refine talks_return (I := fun before t => Kept vs s₀ ((frame ++ before) :: outer) scopes t) ?_
    (by rwa [List.append_nil])
  rintro before p after s rfl h
  obtain ⟨hty, hrefs⟩ := hts p (by simp)
  obtain ⟨t, hs, h'⟩ := h.assert ho hty hrefs
  exact ⟨t, hs, by rwa [List.append_assoc] at h'⟩

theorem AtWork.advance (ho : Obliging s.variables fails s₀) (h : e.AtWork s₀ s task n) :
    ∃ e', outcome Engine.advance e = (.ok (), e') ∧ e'.AtWork s₀ s task (n + 1) := by
  obtain ⟨⟨frames, scope, hkept, hactive, hscope⟩, rfl, rfl, rfl⟩ := h
  obtain ⟨t, hdeclares, scope', hkept', hscope'⟩ :=
    declares_served ho e.system.nodup_variables hkept fun v _ => hscope.fresh v
  have hall : Declared e.system (e.placed + 1) scope' := hscope.succ hscope'
  obtain ⟨hlength, hpos⟩ := hkept'.opened.reached.length ho.scopes
  have hframes : frames ≠ [] := List.length_pos_iff.mp (by omega)
  obtain ⟨frame, outer, rfl⟩ := List.exists_cons_of_ne_nil hframes
  have hcovers : ∀ u ∈ e.task.assumptions e.system e.placed,
      u.ty = .bool ∧ ∀ r ∈ u.refs, ∃ scope ∈ [scope'], r ∈ scope :=
    fun u hu => (covers_assumptions u hu).declared (hall.exists_scope (by simp))
  obtain ⟨t', hasserts, hkept''⟩ := asserts_served (e := { e with session := t }) ho hkept' hcovers
  have hs : outcome Engine.advance e =
      (.ok (), { e with session := t', placed := e.placed + 1 }) := by
    unfold Engine.advance
    rw [outcome_bind_of_ok (outcome_get e), outcome_bind_of_ok hdeclares, outcome_bind_of_ok hasserts]
    rfl
  refine ⟨_, hs, ⟨_, scope', hkept'', ?_, hall⟩, rfl, rfl, rfl⟩
  rw [active_cons, ← List.append_assoc, ← active_cons, hactive, Task.asserted_succ]

inductive ReadingFault (vs : List Variable) (fails : SessionError → Prop) (s₀ : Session σ) :
    ProofError → Prop
  | failed {e : SessionError} : fails e → ReadingFault vs fails s₀ (.session e)
  | leftOut {r : Ref} : LeavesOut vs s₀ r → ReadingFault vs fails s₀ (.missingValue r)

theorem ReadingFault.exists_leftOut {vs : List Variable} {error : ProofError}
    (h : ReadingFault vs (fun _ => False) s₀ error) :
    ∃ r, error = .missingValue r ∧ LeavesOut vs s₀ r := by
  cases h with
  | failed h => exact h.elim
  | leftOut h => exact ⟨_, rfl, h⟩

section

variable {fails : ProofError → Prop} {I : Engine σ → Prop}

theorem exists_ok_of_givesAll {vs : List Variable} {q : Except ProofError α} (h : Backend.GivesAll σ)
    (hfails : ∀ error, q = .error error → ∃ r, error = .missingValue r ∧ LeavesOut vs s₀ r) :
    ∃ x, q = .ok x := by
  cases q with
  | error error =>
    obtain ⟨r, -, hleft⟩ := hfails error rfl
    exact absurd hleft (not_leavesOut h vs s₀ r)
  | ok x => exact ⟨x, rfl⟩

def Serves (fails : ProofError → Prop) (I : Engine σ → Prop) (m : EngineM σ α) : Prop :=
  ∀ ⦃e r e'⦄, I e → outcome m e = (r, e') → I e' ∧ FailsOnlyBy fails r

omit [Backend σ] in
theorem Serves.pure (a : α) : Serves fails I (pure a : EngineM σ α) := by
  intro e r e' h hs
  obtain ⟨rfl, rfl⟩ := Prod.mk.inj hs
  exact ⟨h, .ok a⟩

omit [Backend σ] in
theorem Serves.bind {m : EngineM σ α} {f : α → EngineM σ β} (hm : Serves fails I m)
    (hf : ∀ a, Serves fails I (f a)) : Serves fails I (m >>= f) := by
  intro e r e' h hs
  rw [outcome_bind] at hs
  rcases hfirst : outcome m e with ⟨error | a, e₁⟩
  · obtain ⟨h₁, hfails⟩ := hm h hfirst
    rw [hfirst] at hs
    obtain ⟨rfl, rfl⟩ := Prod.mk.inj hs
    exact ⟨h₁, hfails.of_error⟩
  · obtain ⟨h₁, -⟩ := hm h hfirst
    rw [hfirst] at hs
    exact hf a h₁ hs

omit [Backend σ] in
theorem Serves.mapM {f : α → EngineM σ β} (xs : List α) (h : ∀ x ∈ xs, Serves fails I (f x)) :
    Serves fails I (xs.mapM f) := by
  induction xs with
  | nil =>
    rw [List.mapM_nil]
    exact .pure _
  | cons x xs ih =>
    rw [List.mapM_cons]
    refine .bind (h x (by simp)) fun _ => .bind (ih fun y hy => ?_) fun _ => .pure _
    exact h y (List.mem_cons_of_mem x hy)

omit [Backend σ] in
theorem Serves.queryAll {one : String → EngineM σ (Outcome α)} {names : List String}
    (h : ∀ name ∈ names, Serves fails I (one name)) : Serves fails I (queryAll one names) :=
  .bind (.mapM names fun name hname => .bind (h name hname) fun _ => .pure _) fun _ => .pure _

def ReadsModel (fails : ProofError → Prop) (s₀ : Session σ) (s : TransitionSystem) (n : Nat)
    (e : Engine σ) (read : EngineM σ α) : Prop :=
  ∀ ⦃t frames scopes r e'⦄, Kept s.variables s₀ frames scopes t →
    t.hasModel = true ∧ t.interrupted = false →
    (∀ r : Ref, r.var ∈ s.variables → 0 ≤ r.step → r.step < n → ∃ scope ∈ scopes, r ∈ scope) →
    outcome read { e with session := t } = (r, e') →
    FailsOnlyBy fails r ∧ ∃ t', e' = { e with session := t' } ∧ Kept s.variables s₀ frames scopes t'

theorem reported_served {read : EngineM σ α} {a : Answer} {t : Session σ} {frames : List (List Term)}
    {scopes : List (List Ref)} {r : Except ProofError (Outcome α)} {depth : Int}
    (hread : ReadsModel fails s₀ s n e read) (h : Kept s.variables s₀ frames scopes t)
    (hmodel : a = .sat → t.hasModel = true ∧ t.interrupted = false)
    (hdeclared : ∀ r : Ref, r.var ∈ s.variables → 0 ≤ r.step → r.step < n →
      ∃ scope ∈ scopes, r ∈ scope)
    (hs : outcome (reported depth read a) { e with session := t } = (r, e')) :
    FailsOnlyBy fails r ∧ ∃ t', e' = { e with session := t' } ∧ Kept s.variables s₀ frames scopes t' := by
  cases a with
  | sat =>
    change outcome (read >>= _) _ = _ at hs
    rw [outcome_bind] at hs
    rcases hr : outcome read { e with session := t } with ⟨error | w, e₁⟩
    · obtain ⟨hfails, hkept⟩ := hread h (hmodel rfl) hdeclared hr
      rw [hr] at hs
      obtain ⟨rfl, rfl⟩ := Prod.mk.inj hs
      exact ⟨hfails.of_error, hkept⟩
    · obtain ⟨-, hkept⟩ := hread h (hmodel rfl) hdeclared hr
      rw [hr] at hs
      obtain ⟨rfl, rfl⟩ := Prod.mk.inj hs
      exact ⟨.ok _, hkept⟩
  | unsat =>
    obtain ⟨rfl, rfl⟩ := Prod.mk.inj hs
    exact ⟨.ok _, t, rfl, h⟩
  | unknown reason =>
    obtain ⟨rfl, rfl⟩ := Prod.mk.inj hs
    exact ⟨.ok _, t, rfl, h⟩

theorem AtWork.query {fails' : SessionError → Prop} {read : EngineM σ α} {ts : List Term}
    {r : Except ProofError (Outcome α)} (ho : Obliging s.variables fails' s₀) (h : e.AtWork s₀ s task n)
    (hts : ∀ t ∈ ts, s.Covers n t)
    (hread : ReadsModel fails s₀ s n e read) (hs : outcome (Engine.query (ts.map .ok) read) e = (r, e')) :
    e'.AtWork s₀ s task n ∧ FailsOnlyBy fails r := by
  obtain ⟨⟨frames, scope, hkept, hactive, hscope⟩, hsystem, htask, hplaced⟩ := h
  have hdeclared : ∀ r : Ref, r.var ∈ s.variables → 0 ≤ r.step → r.step < n →
      ∃ scope' ∈ [[], scope], r ∈ scope' := hscope.exists_scope (by simp)
  obtain ⟨t₁, hpush, h₁⟩ := hkept.push ho
  obtain ⟨t₂, hasserts, h₂⟩ := asserts_served (e := { e with session := t₁ }) ho h₁
    fun t ht => (hts t ht).declared hdeclared
  obtain ⟨a, t₃, hcheck, h₃⟩ := h₂.check ho
  have hmodel : a = .sat → t₃.hasModel = true ∧ t₃.interrupted = false := by
    rintro rfl
    exact ⟨hasModel_of_check hcheck, interrupted_of_check hcheck (by simp)⟩
  rcases hreported : outcome (reported e.depth read a) { e with session := t₃ } with ⟨r₁, e₁⟩
  obtain ⟨hfails, t₄, rfl, h₄⟩ := reported_served hread h₃ hmodel hdeclared hreported
  obtain ⟨t₅, hpop, h₅⟩ := h₄.pop (by simp) ho
  have hasked : outcome (asked e.depth (ts.map .ok) read) { e with session := t₁ } =
      (r₁, { e with session := t₄ }) := by
    unfold asked
    rw [asserts_typed, outcome_bind_of_ok hasserts, outcome_bind_of_ok (outcome_talk_ok hcheck)]
    exact hreported
  rw [query_eq, outcome_bind_of_ok (outcome_get e), outcome_bind_of_ok (outcome_talk_ok hpush),
    outcome_ensuring, hasked, outcome_talk_ok hpop] at hs
  obtain ⟨rfl, rfl⟩ := Prod.mk.inj hs
  exact ⟨⟨⟨frames, scope, h₅, hactive, hscope⟩, hsystem, htask, hplaced⟩, hfails⟩

end

end Engine

namespace BaseCase

open Engine

variable {σ : Type} [Backend σ] {fails : SessionError → Prop} {s₀ : Session σ} {s : TransitionSystem}
  {d : Nat}

theorem readsModel_trace (ho : Obliging s.variables fails s₀) {e : Engine σ} (hsystem : e.system = s)
    (hplaced : e.placed = d + 1) :
    ReadsModel (ReadingFault s.variables fails s₀) s₀ s (d + 1 : Nat) e trace := by
  intro t frames scopes r e' h hmodel hdeclared hs
  have hrefs : ∀ r ∈ e.system.refsBelow e.placed, ∃ scope ∈ scopes, r ∈ scope := by
    intro r hr
    rw [hsystem, hplaced] at hr
    obtain ⟨hvar, hpos, hlt⟩ := TransitionSystem.mem_refsBelow.mp hr
    exact hdeclared r hvar hpos hlt
  rcases hvalues : outcome (Session.values (e.system.refsBelow e.placed)) t with ⟨q, t'⟩
  obtain ⟨h', hfails⟩ := h.values ho hmodel.1 hmodel.2 hrefs hvalues
  rw [outcome_trace (e := { e with session := t }) hvalues] at hs
  obtain ⟨rfl, rfl⟩ := Prod.mk.inj hs
  refine ⟨?_, t', rfl, h'⟩
  cases q with
  | error error => exact .error (.failed (hfails error rfl))
  | ok values =>
    intro error herror
    obtain ⟨r, hr, rfl, hnone⟩ := traced_eq_error herror
    exact .leftOut ⟨frames, t, _, values, t', h.reached, hvalues, hr, hnone⟩

theorem serves_check (ho : Obliging s.variables fails s₀) {name : String} {p : Term}
    (hp : s.property name = .ok p) :
    Serves (ReadingFault s.variables fails s₀) (AtWork s₀ s .base (d + 1)) (check name) := by
  intro e r e' h hs
  obtain ⟨q, hq, hcovers⟩ := TransitionSystem.covers_negate hp d
  have hproperty : outcome (Engine.property name) e = (.ok p, e) :=
    property_eq_ok.mpr ⟨h.system ▸ hp, rfl⟩
  unfold check at hs
  rw [outcome_bind_of_ok hproperty, outcome_bind_of_ok (outcome_get e), depth_of_placed h.placed,
    hq] at hs
  have hall : ∀ t ∈ [q], s.Covers (d + 1 : Nat) t := by simpa using hcovers
  exact h.query ho hall (readsModel_trace ho h.system h.placed) hs

end BaseCase

namespace InductionStep

open Engine

variable {σ : Type} [Backend σ] {fails : SessionError → Prop} {s₀ : Session σ}
  {s : TransitionSystem} {d : Nat}

theorem serves_check {fails' : ProofError → Prop} (ho : Obliging s.variables fails s₀) {hypotheses : List Term}
    (hhypotheses : ∀ t ∈ hypotheses, ∃ name, s.property name = .ok t) {name : String} {p : Term}
    (hp : s.property name = .ok p) :
    Serves fails' (AtWork s₀ s .step (d + 1)) (check hypotheses name) := by
  intro e r e' h hs
  obtain ⟨u, hu, hucovers⟩ := covers_assumed (property_of_assumed hp hhypotheses) d
  obtain ⟨q, hq, hqcovers⟩ := TransitionSystem.covers_negate hp d
  have hproperty : outcome (Engine.property name) e = (.ok p, e) :=
    property_eq_ok.mpr ⟨h.system ▸ hp, rfl⟩
  have hcovers : ∀ t ∈ [u, q], s.Covers (d + 1 : Nat) t := by
    intro t ht
    rcases List.mem_cons.mp ht with rfl | ht
    · exact hucovers
    · obtain rfl := List.mem_singleton.mp ht
      exact hqcovers
  have hreading : ReadsModel fails' s₀ s (d + 1 : Nat) e (pure () : EngineM σ Unit) := by
    intro t frames scopes r e' h _ _ hs
    obtain ⟨rfl, rfl⟩ := Prod.mk.inj hs
    exact ⟨.ok (), t, rfl, h⟩
  unfold check at hs
  rw [outcome_bind_of_ok hproperty, outcome_bind_of_ok (outcome_get e), depth_of_placed h.placed] at hs
  simp only [hu, hq] at hs
  exact h.query ho hcovers hreading hs

end InductionStep

end InvariantProver
