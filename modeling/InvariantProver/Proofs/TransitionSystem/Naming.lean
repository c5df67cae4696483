import InvariantProver.Proofs.Text.Numeral
import InvariantProver.TransitionSystem.Building
import Mathlib.Data.List.Nodup
import Mathlib.Data.List.Perm.Subperm

namespace InvariantProver.Build

theorem candidate_injective {name : String} {m n : Nat} (h : candidate name m = candidate name n) :
    m = n := by
  unfold candidate at h
  exact Text.natText_injective ((String.append_right_inj (name ++ "#")).mp h)

theorem taken_of_firstFree {taken : List String} {name : String} {fuel n : Nat}
    (h : candidate name (firstFree taken name fuel n) ∈ taken) :
    ∀ i ≤ fuel, candidate name (n + i) ∈ taken := by
  induction fuel generalizing n with
  | zero =>
    intro i hi
    obtain rfl : i = 0 := by omega
    exact h
  | succ fuel ih =>
    unfold firstFree at h
    split at h
    · next hfirst =>
      intro i hi
      cases i with
      | zero => exact hfirst
      | succ i =>
        have hlater := ih h i (by omega)
        rwa [show n + (i + 1) = n + 1 + i by omega]
    · next hfirst => exact absurd h hfirst

theorem firstFree_spec (taken : List String) (name : String) {fuel : Nat} (h : taken.length ≤ fuel)
    (n : Nat) : candidate name (firstFree taken name fuel n) ∉ taken := by
  -- a search without success has found more names taken than there are
  intro htaken
  have hall := taken_of_firstFree htaken
  have hnodup : ((List.range (fuel + 1)).map fun i => candidate name (n + i)).Nodup := by
    refine List.Nodup.map (fun i j hij => ?_) List.nodup_range
    exact Nat.add_left_cancel (candidate_injective hij)
  have hsubset : ((List.range (fuel + 1)).map fun i => candidate name (n + i)) ⊆ taken := by
    intro c hc
    obtain ⟨i, hi, rfl⟩ := List.mem_map.mp hc
    exact hall i (Nat.le_of_lt_succ (List.mem_range.mp hi))
  have hlength := (hnodup.subperm hsubset).length_le
  rw [List.length_map, List.length_range] at hlength
  omega

end InvariantProver.Build
