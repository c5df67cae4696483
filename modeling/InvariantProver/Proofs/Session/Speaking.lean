import InvariantProver.Proofs.Session.Willing

namespace InvariantProver

namespace Session

variable {σ : Type} [Backend σ]

structure Speaks (oracle : Oracle) (s₀ : Session σ) : Prop extends Willing s₀ where
  answers : ∀ ⦃frames s a s'⦄, Reached .unbroken s₀ frames s → outcome check s = (.ok a, s') →
    s'.interrupted = false → a = (oracle (active frames)).answer
  values : ∀ ⦃frames s refs entries s'⦄, Reached .unbroken s₀ frames s →
    outcome (values refs) s = (.ok entries, s') → s'.interrupted = false →
      ∀ r ∈ refs, Entries.get? r entries = some (Memory.valueOf (oracle (active frames)) r)

section

variable {oracle : Oracle} {s₀ s s' : Session σ} {frames : List (List Term)}
  {scopes : List (List Ref)}

theorem reason_of_check {reason : Option String}
    (hs : outcome check s = (.ok (.unknown reason), s')) : s'.reason = reason := by
  rw [outcome_check] at hs
  split at hs
  · cases (Prod.mk.inj hs).1
  split at hs
  · obtain ⟨ha, rfl⟩ := Prod.mk.inj hs
    obtain rfl := Answer.unknown.inj (Except.ok.inj ha)
    rfl
  split at hs
  · cases (Prod.mk.inj hs).1
  split at hs
  · obtain ⟨ha, rfl⟩ := Prod.mk.inj hs
    obtain rfl := Answer.unknown.inj (Except.ok.inj ha)
    rfl
  · obtain ⟨ha, rfl⟩ := Prod.mk.inj hs
    obtain rfl := Except.ok.inj ha
    rfl

theorem Calm.values_eq {refs : List Ref} (h : Calm s₀ frames scopes s) (hs₀ : Speaks oracle s₀)
    (hmodel : s.hasModel = true) (hrefs : ∀ r ∈ refs, ∃ scope ∈ scopes, r ∈ scope) :
    ∃ entries s', outcome (Session.values refs) s = (.ok entries, s') ∧ Calm s₀ frames scopes s' ∧
      ∀ r ∈ refs, Entries.get? r entries = some (Memory.valueOf (oracle (active frames)) r) := by
  obtain ⟨entries, s', hs, h'⟩ := h.values hs₀.toWilling hmodel hrefs
  exact ⟨entries, s', hs, h', hs₀.values h.opened.reached hs h'.interrupted⟩

end

end Session

open Session in
theorem Memory.speaks_session (name : String) (oracle : Oracle) :
    Speaks oracle (session name oracle) where
  toWilling := willing_session name oracle
  answers frames s a s' hreached hs hcalm := by
    rcases check_eq_ok (tracks_of_reached hreached) hs with hanswer | ⟨hinterrupted, -⟩
    · exact hanswer
    · rw [hinterrupted] at hcalm
      cases hcalm
  values frames s refs entries s' hreached hs _ := (values_ok (tracks_of_reached hreached) hs).2

end InvariantProver
