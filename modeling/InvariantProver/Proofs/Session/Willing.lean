import InvariantProver.Proofs.Session.Oracles

namespace InvariantProver

namespace Session

variable {σ : Type} [Backend σ]

structure Willing (s₀ : Session σ) : Prop where
  scopes : s₀.scopes = [[]]
  isOpen : s₀.closed = false
  starts : ∃ s, outcome start s₀ = (.ok (), s) ∧ s.interrupted = false
  performs : ∀ ⦃frames s act⦄, Reached .unbroken s₀ frames s → s.Accepts act →
    ∃ reply s', outcome (perform act) s = (.ok reply, s') ∧
      (act ≠ .interrupt → s'.interrupted = s.interrupted)
  uncancelled : ∀ ⦃frames s⦄, Reached .unbroken s₀ frames s →
    s.link.cancels = 0 ∧ s.link.waited = false

section

variable {s₀ s s' : Session σ} {frames : List (List Term)}

theorem interrupted_of_check {a : Answer} (hs : outcome check s = (.ok a, s'))
    (ha : ∀ reason, a ≠ .unknown reason) : s'.interrupted = false := by
  rw [outcome_check] at hs
  split at hs
  · cases (Prod.mk.inj hs).1
  split at hs
  · obtain rfl := Except.ok.inj (Prod.mk.inj hs).1
    exact absurd rfl (ha _)
  split at hs
  · cases (Prod.mk.inj hs).1
  split at hs
  · obtain rfl := Except.ok.inj (Prod.mk.inj hs).1
    exact absurd rfl (ha _)
  · next hinterrupted =>
    obtain ⟨-, rfl⟩ := Prod.mk.inj hs
    exact (Bool.not_eq_true _).mp hinterrupted

theorem hasModel_of_check (hs : outcome check s = (.ok .sat, s')) : s'.hasModel = true := by
  rw [outcome_check] at hs
  split at hs
  · cases (Prod.mk.inj hs).1
  split at hs
  · cases Except.ok.inj (Prod.mk.inj hs).1
  split at hs
  · cases (Prod.mk.inj hs).1
  split at hs
  · cases Except.ok.inj (Prod.mk.inj hs).1
  · obtain ⟨ha, rfl⟩ := Prod.mk.inj hs
    obtain rfl := Except.ok.inj ha
    rfl

structure Calm (s₀ : Session σ) (frames : List (List Term)) (scopes : List (List Ref))
    (s : Session σ) : Prop where
  opened : OpenWith .unbroken s₀ frames s
  interrupted : s.interrupted = false
  scopes : s.scopes = scopes

variable {scopes : List (List Ref)}

theorem Calm.isDeclared (h : Calm s₀ frames scopes s) (r : Ref) :
    s.isDeclared r = true ↔ ∃ scope ∈ scopes, r ∈ scope := by
  simp [Session.isDeclared, h.scopes]

theorem Calm.proceed {α : Type} {op : SessionM σ α} {reply : α → Reply} (hw : Willing s₀)
    (h : Calm s₀ frames scopes s) (act : Act) (hkind : act ≠ .interrupt ∧ act ≠ .close)
    (hact : perform act = reply <$> op) (haccepts : s.Accepts act) :
    ∃ x s', outcome op s = (.ok x, s') ∧ Calm s₀ (act.frames frames) (act.scopes scopes) s' := by
  obtain ⟨reply', s', hs, hcalm⟩ := hw.performs h.opened.reached haccepts
  rw [hact, outcome_map] at hs
  obtain ⟨hreply, rfl⟩ := Prod.mk.inj hs
  cases hop : (outcome op s).1 with
  | error e =>
    rw [hop] at hreply
    cases hreply
  | ok x =>
    have hs' : outcome op s = (.ok x, (outcome op s).2) := Prod.ext hop rfl
    obtain ⟨hopened, hbooks⟩ := h.opened.after act hkind.2 hact hs' (Course.allows_ok _ _)
    refine ⟨x, _, hs', hopened, (hcalm hkind.1).trans h.interrupted, ?_⟩
    rcases hbooks with ⟨-, e, he⟩ | ⟨-, hscopes⟩
    · cases he
    · rw [hscopes, h.scopes]

theorem Calm.declare {scope : List Ref} (hw : Willing s₀) (h : Calm s₀ frames [scope] s)
    {v : Variable} {step : Nat} (hfresh : (⟨v, step⟩ : Ref) ∉ scope) :
    ∃ s', outcome (Session.declare v step) s = (.ok (), s') ∧
      Calm s₀ frames [⟨v, step⟩ :: scope] s' := by
  have hundeclared : s.isDeclared ⟨v, step⟩ = false := by
    rw [← Bool.not_eq_true, h.isDeclared]
    simpa using hfresh
  obtain ⟨⟨⟩, s', hs, h'⟩ := h.proceed hw (.declare v step) (by simp) rfl
    ⟨h.opened.isOpen, Int.natCast_nonneg step, hundeclared⟩
  exact ⟨s', hs, h'⟩

theorem Calm.assert {frame : List Term} {outer : List (List Term)} (hw : Willing s₀)
    (h : Calm s₀ (frame :: outer) scopes s) {t : Term} (hty : t.ty = .bool)
    (hrefs : ∀ r ∈ t.refs, ∃ scope ∈ scopes, r ∈ scope) :
    ∃ s', outcome (Session.assert t) s = (.ok (), s') ∧
      Calm s₀ ((frame ++ [t]) :: outer) scopes s' := by
  obtain ⟨⟨⟩, s', hs, h'⟩ := h.proceed hw (.assert t) (by simp) rfl
    ⟨h.opened.isOpen, hty, fun r hr => (h.isDeclared r).mpr (hrefs r hr)⟩
  exact ⟨s', hs, h'⟩

theorem Calm.push (hw : Willing s₀) (h : Calm s₀ frames scopes s) :
    ∃ s', outcome Session.push s = (.ok (), s') ∧ Calm s₀ ([] :: frames) ([] :: scopes) s' := by
  obtain ⟨⟨⟩, s', hs, h'⟩ := h.proceed hw .push (by simp) rfl h.opened.isOpen
  exact ⟨s', hs, h'⟩

theorem Calm.pop {frame : List Term} {scope : List Ref} (hscopes : scopes ≠ []) (hw : Willing s₀)
    (h : Calm s₀ (frame :: frames) (scope :: scopes) s) :
    ∃ s', outcome Session.pop s = (.ok (), s') ∧ Calm s₀ frames scopes s' := by
  have htwo : 2 ≤ s.scopes.length := by
    have := List.length_pos_iff.mpr hscopes
    rw [h.scopes, List.length_cons]
    omega
  obtain ⟨⟨⟩, s', hs, h'⟩ := h.proceed hw .pop (by simp) rfl ⟨h.opened.isOpen, htwo⟩
  exact ⟨s', hs, h'⟩

theorem Calm.check (hw : Willing s₀) (h : Calm s₀ frames scopes s) :
    ∃ a s', outcome Session.check s = (.ok a, s') ∧ Calm s₀ frames scopes s' :=
  h.proceed hw .check (by simp) rfl h.opened.isOpen

theorem Calm.values (hw : Willing s₀) (h : Calm s₀ frames scopes s) (hmodel : s.hasModel = true)
    {refs : List Ref} (hrefs : ∀ r ∈ refs, ∃ scope ∈ scopes, r ∈ scope) :
    ∃ entries s', outcome (Session.values refs) s = (.ok entries, s') ∧ Calm s₀ frames scopes s' :=
  h.proceed hw (.values refs) (by simp) rfl
    ⟨h.opened.isOpen, hmodel, fun r hr => (h.isDeclared r).mpr (hrefs r hr)⟩

theorem Calm.close (hw : Willing s₀) (h : Calm s₀ frames scopes s) :
    ∃ s', outcome Session.close s = (.ok (), s') := by
  obtain ⟨reply, s', hs, -⟩ := hw.performs h.opened.reached (show s.Accepts .close from trivial)
  rw [perform, outcome_map] at hs
  obtain ⟨hreply, -⟩ := Prod.mk.inj hs
  cases hclose : (outcome Session.close s).1 with
  | error e =>
    rw [hclose] at hreply
    cases hreply
  | ok x => exact ⟨_, Prod.ext hclose rfl⟩

end

end Session

open Session in
theorem Memory.willing_session (name : String) (oracle : Oracle) : Willing (session name oracle) where
  scopes := rfl
  isOpen := rfl
  starts := ⟨session name oracle, rfl, rfl⟩
  performs frames s act hreached haccepts := by
    refine ⟨_, _, perform_eq (tracks_of_reached hreached) haccepts, fun hact => ?_⟩
    cases act with
    | interrupt => exact absurd rfl hact
    | check =>
      simp only [after]
      split <;> rfl
    | close =>
      simp only [after]
      split <;> rfl
    | _ => rfl
  uncancelled frames s hreached := (tracks_of_reached hreached).uncancelled

end InvariantProver
