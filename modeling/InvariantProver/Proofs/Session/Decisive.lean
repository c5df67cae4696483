import InvariantProver.Proofs.Session.Willing

namespace InvariantProver

namespace Session

variable {σ : Type} [Backend σ]

structure Decisive (z : ZeroReading) (s₀ : Session σ) : Prop where
  scopes : s₀.scopes = [[]]
  isOpen : s₀.closed = false
  starts : ∃ s, outcome start s₀ = (.ok (), s) ∧ s.interrupted = false
  performs : ∀ ⦃frames s act⦄, Reached .unbroken s₀ frames s → s.Accepts act →
    ∃ reply s', outcome (perform act) s = (.ok reply, s') ∧
      (act ≠ .interrupt → s'.interrupted = s.interrupted)
  uncancelled : ∀ ⦃frames s⦄, Reached .unbroken s₀ frames s →
    s.link.cancels = 0 ∧ s.link.waited = false
  answers : ∀ ⦃frames s a s'⦄, Reached .unbroken s₀ frames s → outcome check s = (.ok a, s') →
    s'.interrupted = false →
      a = .sat ∧ Satisfiable z (active frames) ∨ a = .unsat ∧ ¬ Satisfiable z (active frames)
  complete : GivesAll .unbroken s₀

section

variable {z : ZeroReading} {s₀ s s' : Session σ} {frames : List (List Term)}

theorem Decisive.willing (h : Decisive z s₀) : Willing s₀ :=
  ⟨h.scopes, h.isOpen, h.starts, h.performs, h.uncancelled⟩

instance : CoeOut (Decisive z s₀) (Willing s₀) := ⟨Decisive.willing⟩

theorem Decisive.truthful (h : Decisive z s₀) : Truthful .unbroken z s₀ := by
  refine ⟨h.scopes, h.isOpen, fun hreached hs => ?_⟩
  have hcalm := interrupted_of_check hs (by simp)
  rcases h.answers hreached hs hcalm with ⟨hsat, -⟩ | ⟨-, hunsatisfiable⟩
  · cases hsat
  · exact hunsatisfiable

theorem Calm.known {scopes : List (List Ref)} {a : Answer} (hd : Decisive z s₀)
    (h : Calm s₀ frames scopes s) (hs : outcome Session.check s = (.ok a, s'))
    (hcalm : s'.interrupted = false) : ∀ reason, a ≠ .unknown reason := by
  rcases hd.answers h.opened.reached hs hcalm with ⟨rfl, -⟩ | ⟨rfl, -⟩ <;> simp

end

end Session

namespace Memory

open Session

theorem decisive_session {name : String} {oracle : Oracle} {z : ZeroReading}
    (h : ∀ ts, (oracle ts).answer = .sat ∧ Satisfiable z ts ∨
      (oracle ts).answer = .unsat ∧ ¬ Satisfiable z ts) : Decisive z (session name oracle) where
  scopes := rfl
  isOpen := rfl
  starts := (willing_session name oracle).starts
  performs := (willing_session name oracle).performs
  uncancelled := (willing_session name oracle).uncancelled
  answers frames s a s' hreached hs hcalm := by
    rcases check_eq_ok (tracks_of_reached hreached) hs with rfl | ⟨hinterrupted, rfl⟩
    · exact h _
    · rw [hinterrupted] at hcalm
      cases hcalm
  complete := givesAll.session .unbroken _

open Classical in
noncomputable def idealOracle (z : ZeroReading) : Oracle := fun ts =>
  if Satisfiable z ts then { answer := .sat } else { answer := .unsat }

theorem idealOracle_decides (z : ZeroReading) (ts : List Term) :
    (idealOracle z ts).answer = .sat ∧ Satisfiable z ts ∨
      (idealOracle z ts).answer = .unsat ∧ ¬ Satisfiable z ts := by
  unfold idealOracle
  split
  · next hsatisfiable => exact .inl ⟨rfl, hsatisfiable⟩
  · next hunsatisfiable => exact .inr ⟨rfl, hunsatisfiable⟩

end Memory

end InvariantProver
