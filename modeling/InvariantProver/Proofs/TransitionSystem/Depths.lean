import InvariantProver.Proofs.TransitionSystem.Induction
import Mathlib.Data.Nat.Find

namespace InvariantProver

section

variable {P : Nat → Prop} {n : Nat}

open Classical in
noncomputable def least? (P : Nat → Prop) : Option Nat :=
  if h : ∃ n, P n then some (Nat.find h) else none

theorem least?_eq_some_iff : least? P = some n ↔ P n ∧ ∀ m < n, ¬ P m := by
  classical
  unfold least?
  constructor
  · intro h
    split at h
    · next hP => exact (Nat.find_eq_iff hP).mp (Option.some.inj h)
    · cases h
  · intro h
    rw [dif_pos ⟨n, h.1⟩, (Nat.find_eq_iff _).mpr h]

theorem least?_eq_none_iff : least? P = none ↔ ∀ n, ¬ P n := by
  unfold least?
  constructor
  · intro h n hn
    split at h
    · cases h
    · next hP => exact hP ⟨n, hn⟩
  · intro h
    rw [dif_neg]
    rintro ⟨n, hn⟩
    exact h n hn

end

namespace TransitionSystem

variable (z : ZeroReading) (s : TransitionSystem) (p : Term)

noncomputable def violationDepth : Option Nat := least? (s.Violates z p)

noncomputable def inductionDepth : Option Nat := least? fun k => 1 ≤ k ∧ ¬ s.Escapes z [p] p k

structure Open (n : Nat) : Prop where
  clear : ∀ m < n, ¬ s.Violates z p m
  escapes : ∀ k, 1 ≤ k → k ≤ n → s.Escapes z [p] p k

variable {z s p} {n d : Nat}

theorem Open.zero : s.Open z p 0 :=
  ⟨fun m hm => absurd hm (Nat.not_lt_zero m), fun k hpos hle => by omega⟩

theorem Open.clear_succ (h : s.Open z p n) (hclear : ¬ s.Violates z p n) :
    ∀ m < n + 1, ¬ s.Violates z p m := by
  intro m hm
  by_cases hmn : m < n
  · exact h.clear m hmn
  · obtain rfl : m = n := by omega
    exact hclear

theorem Open.succ (h : s.Open z p n) (hclear : ¬ s.Violates z p n)
    (hstep : s.Escapes z [p] p (n + 1)) : s.Open z p (n + 1) := by
  refine ⟨h.clear_succ hclear, fun k hpos hle => ?_⟩
  by_cases hkn : k ≤ n
  · exact h.escapes k hpos hkn
  · obtain rfl : k = n + 1 := by omega
    exact hstep

theorem Open.violationDepth_eq (h : s.Open z p n) (hviolates : s.Violates z p n) :
    s.violationDepth z p = some n := least?_eq_some_iff.mpr ⟨hviolates, h.clear⟩

theorem Open.violationDepth_eq_none (h : s.Open z p n) (hclear : ¬ s.Violates z p n)
    (hstep : ¬ s.Escapes z [p] p (n + 1)) : s.violationDepth z p = none := by
  apply least?_eq_none_iff.mpr
  apply not_violates_of_induction _ (h.clear_succ hclear) hstep
  intro t ht
  exact .inl (List.mem_singleton.mp ht)

theorem Open.inductionDepth_eq (h : s.Open z p n) (hstep : ¬ s.Escapes z [p] p (n + 1)) :
    s.inductionDepth z p = some (n + 1) := by
  apply least?_eq_some_iff.mpr
  refine ⟨⟨by omega, hstep⟩, fun m hm hless => ?_⟩
  exact hless.2 (h.escapes m hless.1 (by omega))

theorem Open.le_violationDepth (h : s.Open z p n) {v : Nat} (hv : s.violationDepth z p = some v) :
    n ≤ v := by
  have hviolates := (least?_eq_some_iff.mp hv).1
  by_contra hlt
  exact h.clear v (by omega) hviolates

theorem Open.lt_inductionDepth (h : s.Open z p n) {k : Nat} (hk : s.inductionDepth z p = some k) :
    n < k := by
  obtain ⟨hpos, hstep⟩ := (least?_eq_some_iff.mp hk).1
  by_contra hle
  exact hstep (h.escapes k hpos (by omega))

end TransitionSystem

end InvariantProver
