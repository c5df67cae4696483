import InvariantProver.Proofs.Session.Conversation
import InvariantProver.Proofs.Session.Links

namespace InvariantProver

def Act.Concerns (vs : List Variable) : Act → Prop
  | declare v _ => v ∈ vs
  | _ => True

namespace Session

variable {σ : Type} [Backend σ]

inductive ReachedOn (vs : List Variable) (s₀ : Session σ) : List (List Term) → Session σ → Prop
  | new : ReachedOn vs s₀ [[]] s₀
  | started {s : Session σ} : outcome start s₀ = (.ok (), s) → ReachedOn vs s₀ [[]] s
  | act {frames : List (List Term)} {s s' : Session σ} {r : Except SessionError Reply} (act : Act) :
      ReachedOn vs s₀ frames s → act.Concerns vs → outcome (perform act) s = (r, s') →
      ReachedOn vs s₀ (act.after r s'.scopes frames) s'

/-- Asked for values, the session gives some and none for this variable at its step. -/
def LeavesOut (vs : List Variable) (s₀ : Session σ) (r : Ref) : Prop :=
  ∃ frames s refs entries s', ReachedOn vs s₀ frames s ∧ outcome (values refs) s = (.ok entries, s') ∧
    r ∈ refs ∧ Entries.get? r entries = none

structure Obliging (vs : List Variable) (fails : SessionError → Prop) (s₀ : Session σ) : Prop where
  scopes : s₀.scopes = [[]]
  isOpen : s₀.closed = false
  starts : ∃ s, outcome start s₀ = (.ok (), s)
  performs : ∀ ⦃frames s act⦄, ReachedOn vs s₀ frames s → s.Accepts act → act.Concerns vs →
    act.isQuestion = false → ∃ reply, (outcome (perform act) s).1 = .ok reply
  questions : ∀ ⦃frames s refs⦄, ReachedOn vs s₀ frames s → s.Accepts (.values refs) → s.interrupted = false →
    FailsOnlyBy fails (outcome (values refs) s).1

theorem Reached.name {course : Course} {s₀ s : Session σ} {frames : List (List Term)}
    (h : Reached course s₀ frames s) : s.name = s₀.name := by
  induction h with
  | new => rfl
  | started hs =>
    obtain ⟨-, rfl⟩ := Prod.mk.inj hs
    rfl
  | act act _ hs _ ih =>
    rcases perform_cases hs with ⟨-, rfl, -⟩ | ⟨-, hname, -⟩
    · exact ih
    · exact hname.trans ih

theorem ReachedOn.reached {vs : List Variable} {s₀ s : Session σ} {frames : List (List Term)}
    (h : ReachedOn vs s₀ frames s) : Reached .any s₀ frames s := by
  induction h with
  | new => exact .new
  | started hs => exact .started hs
  | act act _ _ hs ih => exact .act act ih hs trivial

theorem not_leavesOut (h : Backend.GivesAll σ) (vs : List Variable) (s₀ : Session σ) (r : Ref) :
    ¬ LeavesOut vs s₀ r := by
  rintro ⟨frames, s, refs, entries, s', hreached, hs, hr, hnone⟩
  obtain ⟨v, hv⟩ := h.session .any s₀ hreached.reached hs r hr
  rw [hnone] at hv
  cases hv

theorem ReachedOn.perform {α : Type} {vs : List Variable} {s₀ s s' : Session σ} {frames : List (List Term)}
    (act : Act) {op : SessionM σ α} {reply : α → Reply} {r : Except SessionError α}
    (h : ReachedOn vs s₀ frames s) (hconcerns : act.Concerns vs) (hact : Session.perform act = reply <$> op)
    (hs : outcome op s = (r, s')) : ReachedOn vs s₀ (act.after r s'.scopes frames) s' := by
  have hperform : outcome (Session.perform act) s = (r.map reply, s') := by
    rw [hact, outcome_map, hs]
  have hreached := ReachedOn.act act h hconcerns hperform
  cases r with
  | ok a => exact hreached
  | error e => exact hreached

structure Kept (vs : List Variable) (s₀ : Session σ) (frames : List (List Term))
    (scopes : List (List Ref)) (s : Session σ) : Prop where
  reached : ReachedOn vs s₀ frames s
  isOpen : s.closed = false
  scopes : s.scopes = scopes

section

variable {vs : List Variable} {fails : SessionError → Prop} {s₀ s s' : Session σ}
  {frames : List (List Term)} {scopes : List (List Ref)}

theorem Kept.opened (h : Kept vs s₀ frames scopes s) : OpenWith .any s₀ frames s :=
  ⟨h.reached.reached, h.isOpen⟩

theorem Kept.isDeclared (h : Kept vs s₀ frames scopes s) (r : Ref) :
    s.isDeclared r = true ↔ ∃ scope ∈ scopes, r ∈ scope := by
  simp [Session.isDeclared, h.scopes]

theorem Kept.interrupt (h : Kept vs s₀ frames scopes s) : Kept vs s₀ frames scopes s.interrupt := by
  have hs : outcome (modify Session.interrupt : SessionM σ PUnit) s = (.ok .unit, s.interrupt) := rfl
  refine ⟨h.reached.perform .interrupt trivial rfl hs, h.opened.interrupt.isOpen, ?_⟩
  unfold Session.interrupt
  split <;> exact h.scopes

theorem Obliging.succeeds {α : Type} {op : SessionM σ α} {reply : α → Reply} {act : Act}
    (ho : Obliging vs fails s₀) (hreached : ReachedOn vs s₀ frames s) (haccepts : s.Accepts act)
    (hconcerns : act.Concerns vs) (hanswer : act.isQuestion = false) (hact : perform act = reply <$> op) :
    ∃ x s', outcome op s = (.ok x, s') := by
  obtain ⟨reply', hreply⟩ := ho.performs hreached haccepts hconcerns hanswer
  rw [hact, outcome_map] at hreply
  cases hop : (outcome op s).1 with
  | error e =>
    rw [hop] at hreply
    cases hreply
  | ok x => exact ⟨x, _, Prod.ext hop rfl⟩

theorem Kept.proceed {α : Type} {op : SessionM σ α} {reply : α → Reply} (ho : Obliging vs fails s₀)
    (h : Kept vs s₀ frames scopes s) (act : Act) (hkind : act.isQuestion = false ∧ act ≠ .close)
    (hconcerns : act.Concerns vs) (hact : perform act = reply <$> op) (haccepts : s.Accepts act) :
    ∃ x s', outcome op s = (.ok x, s') ∧ Kept vs s₀ (act.frames frames) (act.scopes scopes) s' := by
  obtain ⟨x, s', hs⟩ := ho.succeeds h.reached haccepts hconcerns hkind.1 hact
  obtain ⟨hopened, hbooks⟩ := h.opened.after act hkind.2 hact hs (Course.allows_ok _ _)
  refine ⟨x, s', hs, h.reached.perform act hconcerns hact hs, hopened.isOpen, ?_⟩
  rcases hbooks with ⟨-, e, he⟩ | ⟨-, hscopes⟩
  · cases he
  · rw [hscopes, h.scopes]

theorem Kept.declare {scope : List Ref} {outer : List (List Ref)} (ho : Obliging vs fails s₀)
    (h : Kept vs s₀ frames (scope :: outer) s) {v : Variable} (hv : v ∈ vs)
    {step : Nat} (hfresh : ∀ scope' ∈ scope :: outer, (⟨v, step⟩ : Ref) ∉ scope') :
    ∃ s', outcome (Session.declare v step) s = (.ok (), s') ∧
      Kept vs s₀ frames ((⟨v, step⟩ :: scope) :: outer) s' := by
  have hundeclared : s.isDeclared ⟨v, step⟩ = false := by
    rw [← Bool.not_eq_true, h.isDeclared]
    rintro ⟨scope', hmem, hr⟩
    exact hfresh scope' hmem hr
  obtain ⟨⟨⟩, s', hs, h'⟩ := h.proceed ho (.declare v step) (by simp [Act.isQuestion]) hv rfl
    ⟨h.isOpen, Int.natCast_nonneg step, hundeclared⟩
  exact ⟨s', hs, h'⟩

theorem Kept.assert {frame : List Term} {outer : List (List Term)} (ho : Obliging vs fails s₀)
    (h : Kept vs s₀ (frame :: outer) scopes s) {t : Term} (hty : t.ty = .bool)
    (hrefs : ∀ r ∈ t.refs, ∃ scope ∈ scopes, r ∈ scope) :
    ∃ s', outcome (Session.assert t) s = (.ok (), s') ∧
      Kept vs s₀ ((frame ++ [t]) :: outer) scopes s' := by
  obtain ⟨⟨⟩, s', hs, h'⟩ := h.proceed ho (.assert t) (by simp [Act.isQuestion]) trivial rfl
    ⟨h.isOpen, hty, fun r hr => (h.isDeclared r).mpr (hrefs r hr)⟩
  exact ⟨s', hs, h'⟩

theorem Kept.push (ho : Obliging vs fails s₀) (h : Kept vs s₀ frames scopes s) :
    ∃ s', outcome Session.push s = (.ok (), s') ∧ Kept vs s₀ ([] :: frames) ([] :: scopes) s' := by
  obtain ⟨⟨⟩, s', hs, h'⟩ := h.proceed ho .push (by simp [Act.isQuestion]) trivial rfl h.isOpen
  exact ⟨s', hs, h'⟩

theorem Kept.pop {frame : List Term} {scope : List Ref} (hscopes : scopes ≠ [])
    (ho : Obliging vs fails s₀) (h : Kept vs s₀ (frame :: frames) (scope :: scopes) s) :
    ∃ s', outcome Session.pop s = (.ok (), s') ∧ Kept vs s₀ frames scopes s' := by
  have htwo : 2 ≤ s.scopes.length := by
    have hpos := List.length_pos_iff.mpr hscopes
    rw [h.scopes, List.length_cons]
    omega
  obtain ⟨⟨⟩, s', hs, h'⟩ := h.proceed ho .pop (by simp [Act.isQuestion]) trivial rfl ⟨h.isOpen, htwo⟩
  exact ⟨s', hs, h'⟩

theorem Kept.check (ho : Obliging vs fails s₀) (h : Kept vs s₀ frames scopes s) :
    ∃ a s', outcome Session.check s = (.ok a, s') ∧ Kept vs s₀ frames scopes s' :=
  h.proceed ho .check (by simp [Act.isQuestion]) trivial rfl h.isOpen

theorem Kept.values {refs : List Ref} {r : Except SessionError (Entries Ref Value)}
    (ho : Obliging vs fails s₀) (h : Kept vs s₀ frames scopes s) (hmodel : s.hasModel = true)
    (hgoing : s.interrupted = false) (hrefs : ∀ r ∈ refs, ∃ scope ∈ scopes, r ∈ scope)
    (hs : outcome (Session.values refs) s = (r, s')) : Kept vs s₀ frames scopes s' ∧ FailsOnlyBy fails r := by
  have haccepts : s.Accepts (.values refs) :=
    ⟨h.isOpen, hmodel, fun r hr => (h.isDeclared r).mpr (hrefs r hr)⟩
  have hscopes : s'.scopes = s.scopes := by
    rcases op_cases (.values refs) rfl hs with ⟨hrefused, -⟩ | ⟨-, -, hscopes, -⟩
    · exact absurd haccepts hrefused
    · exact hscopes
  have hreached := h.reached.perform (.values refs) trivial rfl hs
  have hsame : (Act.values refs).after r s'.scopes frames = frames := by
    cases r with
    | ok entries => rfl
    | error e =>
      rw [Act.after, hscopes]
      exact aligned_of_length (h.opened.reached.length ho.scopes).1
  rw [hsame] at hreached
  refine ⟨⟨hreached, (h.opened.values ho.scopes hs trivial).isOpen, hscopes.trans h.scopes⟩, ?_⟩
  have hfails := ho.questions h.reached haccepts hgoing
  rwa [hs] at hfails

theorem Kept.close (ho : Obliging vs fails s₀) (h : Kept vs s₀ frames scopes s) :
    ∃ s', outcome Session.close s = (.ok (), s') := by
  have haccepts : s.Accepts .close := trivial
  obtain ⟨⟨⟩, s', hs⟩ := ho.succeeds h.reached haccepts trivial rfl rfl
  exact ⟨s', hs⟩

end

end Session

section

variable {σ : Type} [Backend σ] {P : Link σ → Prop} {fails : SessionError → Prop}

structure Backend.Performs (fails : SessionError → Prop) (P : Link σ → Prop) : Prop where
  start : Returns P (start : Hook σ Unit) fun _ => True
  declare (r : Ref) : Returns P (declare r : Hook σ Unit) fun _ => True
  assert (t : Term) : Returns P (assert t : Hook σ Unit) fun _ => True
  push : Returns P (push : Hook σ Unit) fun _ => True
  pop : Returns P (pop : Hook σ Unit) fun _ => True
  check : Returns P (check : Hook σ Answer) fun _ => True
  values (refs : List Ref) : Keeps .any P (values refs : Hook σ (Entries Ref Value))
  questions (refs : List Ref) : ∀ link, P link → FailsOnlyBy fails (outcome (Backend.values refs) link).1
  close : Returns P (close : Hook σ Unit) fun _ => True
  interrupted : ∀ link, P link → P { link with interrupted := true }
  interrupt : ∀ link, P link → P { link with backend := interrupt link.backend }

theorem Backend.Performs.preserves (h : Backend.Performs fails P) : Backend.Preserves P where
  start := h.start.keeps
  declare r := (h.declare r).keeps
  assert t := (h.assert t).keeps
  push := h.push.keeps
  pop := h.pop.keeps
  check := h.check.keeps
  values := h.values
  close := h.close.keeps
  interrupted := h.interrupted
  interrupt := h.interrupt

end

namespace Session

variable {σ : Type} [Backend σ] {P : Link σ → Prop} {fails : SessionError → Prop} {s : Session σ}

omit [Backend σ] in
theorem hook_returns {α : Type} {h : Hook σ α} (hh : Returns P h fun _ => True) (hs : P s.link) :
    ∃ a s', outcome (hook h) s = (.ok a, s') := by
  obtain ⟨a, link, hok, -⟩ := hh s.link hs
  refine ⟨a, { s with link := link }, ?_⟩
  rw [outcome_hook, hok]

theorem check_returns (hp : Backend.Performs fails P) (hopen : s.closed = false) (hs : P s.link) :
    ∃ a s', outcome check s = (.ok a, s') := by
  obtain ⟨a, link, hok, -⟩ := hp.check s.link hs
  rw [outcome_check, if_neg (by simp [hopen]), hok]
  split
  · exact ⟨_, _, rfl⟩
  · dsimp only
    split <;> exact ⟨_, _, rfl⟩

theorem performs_of_link (hp : Backend.Performs fails P) {act : Act} (hs : P s.link)
    (haccepts : s.Accepts act) (hanswer : act.isQuestion = false) :
    ∃ reply, (outcome (perform act) s).1 = .ok reply := by
  suffices hop : ∃ reply s', outcome (perform act) s = (.ok reply, s') by
    obtain ⟨reply, s', hreply⟩ := hop
    exact ⟨reply, by rw [hreply]⟩
  have hmapped {α : Type} {op : SessionM σ α} {reply : α → Reply} (hact : perform act = reply <$> op)
      (hop : ∃ a s', outcome op s = (.ok a, s')) : ∃ r s', outcome (perform act) s = (.ok r, s') := by
    obtain ⟨a, s', hok⟩ := hop
    exact ⟨reply a, s', outcome_performed hact hok⟩
  cases act with
  | declare v step =>
    obtain ⟨hopen, hstep, hdeclared⟩ := haccepts
    refine hmapped rfl ?_
    rw [outcome_declare, if_neg (by simp [hopen]), if_neg (by omega), if_neg (by simp [hdeclared]),
      addDeclared_eq]
    exact hook_returns (hp.declare _) hs
  | assert t =>
    obtain ⟨hopen, hty, hrefs⟩ := haccepts
    have hfind : t.refs.find? (fun r => !s.isDeclared r) = none := by simpa using hrefs
    refine hmapped rfl ?_
    rw [outcome_assert, if_neg (by simp [hopen]), if_neg (not_not_intro hty), hfind]
    exact hook_returns (hp.assert t) hs
  | push =>
    have hopen : s.closed = false := haccepts
    refine hmapped rfl ?_
    rw [outcome_push, if_neg (by simp [hopen])]
    exact hook_returns hp.push hs
  | pop =>
    obtain ⟨hopen, hlength⟩ := haccepts
    refine hmapped rfl ?_
    rw [outcome_pop, if_neg (by simp [hopen]), if_neg (by omega)]
    exact hook_returns hp.pop hs
  | check => exact hmapped rfl (check_returns hp haccepts hs)
  | values refs => cases hanswer
  | interrupt => exact ⟨_, _, rfl⟩
  | close =>
    refine hmapped rfl ?_
    rw [outcome_close]
    split
    · exact ⟨(), s, rfl⟩
    · exact hook_returns hp.close hs

theorem obliging_of_performs {s₀ : Session σ} (vs : List Variable) (hp : Backend.Performs fails P)
    (hscopes : s₀.scopes = [[]]) (hopen : s₀.closed = false) (hs₀ : P s₀.link) :
    Obliging vs fails s₀ where
  scopes := hscopes
  isOpen := hopen
  starts := by
    obtain ⟨⟨⟩, s, hs⟩ := hook_returns hp.start hs₀
    exact ⟨s, hs⟩
  performs _ _ _ hreached haccepts _ hanswer :=
    performs_of_link hp (hreached.reached.link hp.preserves hs₀) haccepts hanswer
  questions frames s refs hreached haccepts _ := by
    obtain ⟨hopen, hmodel, hrefs⟩ := haccepts
    have hfind : refs.find? (fun r => !s.isDeclared r) = none := by simpa using hrefs
    rw [outcome_values, if_neg (by simp [hopen]), if_pos hmodel, hfind]
    exact hp.questions refs s.link (hreached.reached.link hp.preserves hs₀)

end Session

end InvariantProver
