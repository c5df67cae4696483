import InvariantProver.Proofs.Term.Shift
import InvariantProver.Proofs.TransitionSystem.Predicates
import InvariantProver.TransitionSystem.Unrolling
import Mathlib.Data.List.Nodup

namespace InvariantProver

/-- The values of the variables in a state: values of any kind, and possibly none. -/
abbrev StateValues := Variable → Option Value

namespace Valuation

def now (x : StateValues) : Valuation := fun r => if r.step = 0 then x r.var else none

def across (x y : StateValues) : Valuation := fun r =>
  if r.step = 0 then x r.var else if r.step = 1 then y r.var else none

end Valuation

namespace TransitionSystem

variable {s : TransitionSystem} {k n : Nat} {r : Ref}

theorem mem_refsAt {i : Int} : r ∈ s.refsAt i ↔ r.var ∈ s.variables ∧ r.step = i := by
  rw [refsAt, List.mem_map]
  constructor
  · rintro ⟨v, hv, rfl⟩
    exact ⟨hv, rfl⟩
  · rintro ⟨hvar, rfl⟩
    exact ⟨r.var, hvar, rfl⟩

theorem refs_unrolling (s : TransitionSystem) (k : Nat) : (s.unrolling k).refs = s.refsBelow (k + 1) := rfl

theorem mem_refsBelow :
    r ∈ s.refsBelow n ↔ r.var ∈ s.variables ∧ 0 ≤ r.step ∧ r.step < n := by
  simp only [refsBelow, List.mem_flatten, List.mem_map, List.mem_range]
  constructor
  · rintro ⟨_, ⟨i, hi, rfl⟩, hr⟩
    obtain ⟨hvar, hstep⟩ := mem_refsAt.mp hr
    exact ⟨hvar, by omega, by omega⟩
  · rintro ⟨hvar, hpos, hlt⟩
    exact ⟨_, ⟨r.step.toNat, by omega, rfl⟩, mem_refsAt.mpr ⟨hvar, by omega⟩⟩

theorem mem_refs_unrolling :
    r ∈ (s.unrolling k).refs ↔ r.var ∈ s.variables ∧ 0 ≤ r.step ∧ r.step < (k + 1 : Nat) := by
  rw [refs_unrolling, mem_refsBelow]

theorem nodup_refsAt (s : TransitionSystem) (i : Int) : (s.refsAt i).Nodup :=
  s.nodup_variables.map fun _ _ h => congrArg Ref.var h

theorem nodup_refs_unrolling (s : TransitionSystem) (k : Nat) : (s.unrolling k).refs.Nodup := by
  rw [Unrolling.refs, unrolling, List.nodup_flatten, List.pairwise_map]
  constructor
  · intro step hstep
    obtain ⟨i, -, rfl⟩ := List.mem_map.mp hstep
    exact s.nodup_refsAt i
  · refine List.nodup_range.imp fun {i j} hne r hi hj => hne ?_
    have hstep := (mem_refsAt.mp hi).2.symm.trans (mem_refsAt.mp hj).2
    exact Int.ofNat_inj.mp hstep

theorem unroll_natCast (s : TransitionSystem) (k : Nat) : s.unroll k = .ok (s.unrolling k) := by
  rw [unroll, if_neg (by omega), Int.toNat_natCast]

theorem assertions_unrolling_succ (s : TransitionSystem) (k : Nat) :
    (s.unrolling (k + 1)).assertions = (s.unrolling k).assertions ++ [s.transAt k] := by
  simp [Unrolling.assertions, unrolling, List.range_succ]

theorem steps_unrolling_succ (s : TransitionSystem) (k : Nat) :
    (s.unrolling (k + 1)).steps = (s.unrolling k).steps ++ [s.refsAt (k + 1 : Nat)] := by
  simp [unrolling, List.range_succ (n := k + 1)]

inductive Placed (s : TransitionSystem) (k : Nat) : Term → Prop
  | init : Placed s k s.init
  | trans {i : Nat} (hi : i < k) : Placed s k (s.transAt i)
  | property {name : String} {p : Term} (hp : s.property name = .ok p) {i : Nat} (hi : i ≤ k) :
    Placed s k (p.reindex i)

theorem Placed.mem_refs {t : Term} (h : s.Placed k t) : ∀ r ∈ t.refs, r ∈ (s.unrolling k).refs := by
  intro r hr
  rw [mem_refs_unrolling]
  cases h with
  | init =>
    obtain ⟨hvar, hstep⟩ := s.refs_init r hr
    exact ⟨hvar, by omega⟩
  | @trans i hi =>
    rw [transAt, Term.refs_reindex] at hr
    obtain ⟨q, hq, rfl⟩ := List.mem_map.mp hr
    obtain ⟨hvar, hstep⟩ := s.refs_trans q hq
    simp only [Ref.shift]
    exact ⟨hvar, by omega⟩
  | @property name p hp i hi =>
    rw [Term.refs_reindex] at hr
    obtain ⟨q, hq, rfl⟩ := List.mem_map.mp hr
    obtain ⟨hvar, hstep⟩ := refs_property hp q hq
    simp only [Ref.shift]
    exact ⟨hvar, by omega⟩

def Starts (s : TransitionSystem) (x : StateValues) : Prop := s.init.evaluate (.now x) = .ok (.bool true)

def Moves (s : TransitionSystem) (x y : StateValues) : Prop :=
  s.trans.evaluate (.across x y) = .ok (.bool true)

instance (x : StateValues) : Decidable (s.Starts x) :=
  inferInstanceAs (Decidable (s.init.evaluate (.now x) = .ok (.bool true)))

instance (x y : StateValues) : Decidable (s.Moves x y) :=
  inferInstanceAs (Decidable (s.trans.evaluate (.across x y) = .ok (.bool true)))

def Follows (s : TransitionSystem) (env : Valuation) (x : Nat → StateValues) (k : Nat) : Prop :=
  ∀ i ≤ k, ∀ v ∈ s.variables, env ⟨v, i⟩ = x i v

section

variable {env : Valuation} {x : Nat → StateValues} (h : s.Follows env x k)
include h

theorem Follows.evaluate_now {t : Term} (ht : ∀ r ∈ t.refs, r.var ∈ s.variables ∧ r.step = 0) {i : Nat}
    (hi : i ≤ k) : t.evaluate (env.shift i) = t.evaluate (.now (x i)) := by
  refine Term.evaluate_of_agree fun r hr => ?_
  obtain ⟨hvar, hstep⟩ := ht r hr
  rw [Valuation.shift, Valuation.now, if_pos hstep, ← h i hi r.var hvar]
  simp [Ref.shift, hstep]

theorem Follows.evaluate_across {t : Term}
    (ht : ∀ r ∈ t.refs, r.var ∈ s.variables ∧ (r.step = 0 ∨ r.step = 1)) {i : Nat} (hi : i < k) :
    t.evaluate (env.shift i) = t.evaluate (.across (x i) (x (i + 1))) := by
  refine Term.evaluate_of_agree fun r hr => ?_
  obtain ⟨hvar, hstep | hstep⟩ := ht r hr
  · rw [Valuation.shift, Valuation.across, if_pos hstep, ← h i (by omega) r.var hvar]
    simp [Ref.shift, hstep]
  · rw [Valuation.shift, Valuation.across, if_neg (by omega), if_pos hstep,
      ← h (i + 1) (by omega) r.var hvar]
    simp [Ref.shift, hstep, Int.add_comm]

theorem Follows.init_iff : s.init.evaluate env = .ok (.bool true) ↔ s.Starts (x 0) := by
  have hzero : env.shift (0 : Nat) = env := by
    funext r
    simp [Valuation.shift, Ref.shift]
  rw [Starts, ← h.evaluate_now s.refs_init (Nat.zero_le k), hzero]

theorem Follows.trans_iff {i : Nat} (hi : i < k) :
    (s.transAt i).evaluate env = .ok (.bool true) ↔ s.Moves (x i) (x (i + 1)) := by
  rw [transAt, Term.evaluate_reindex_eq_ok, h.evaluate_across s.refs_trans hi, Moves]

theorem Follows.property {name : String} {p : Term} (hp : s.property name = .ok p) {i : Nat}
    (hi : i ≤ k) :
    (p.reindex i).evaluate env = (p.evaluate (.now (x i))).mapError (·.shift i) := by
  rw [Term.evaluate_reindex, h.evaluate_now (refs_property hp) hi]

theorem Follows.assertions_iff :
    (∀ t ∈ (s.unrolling k).assertions, t.evaluate env = .ok (.bool true)) ↔
      s.Starts (x 0) ∧ ∀ i < k, s.Moves (x i) (x (i + 1)) := by
  simp only [Unrolling.assertions, unrolling, List.forall_mem_cons, List.forall_mem_map,
    List.mem_range, h.init_iff]
  exact and_congr_right fun _ => forall₂_congr fun i hi => h.trans_iff hi

/-- An unrolling is true of exactly the sequences of states that are executions, its properties are
those of the states, it speaks of its own step variables, and it grows by one transition a step. -/
theorem encodes_unrolling :
    ∃ u u', s.unroll k = .ok u ∧ s.unroll (k + 1) = .ok u' ∧
      ((∀ t ∈ u.assertions, t.evaluate env = .ok (.bool true)) ↔
        s.Starts (x 0) ∧ ∀ i < k, s.Moves (x i) (x (i + 1))) ∧
      (∀ name p, s.property name = .ok p → ∀ i ≤ k,
        (p.reindex i).evaluate env = (p.evaluate (.now (x i))).mapError (·.shift i)) ∧
      (∀ t, s.Placed k t → ∀ r ∈ t.refs, r ∈ u.refs) ∧
      u.refs.Nodup ∧ (∀ r, r ∈ u.refs ↔ r.var ∈ s.variables ∧ 0 ≤ r.step ∧ r.step ≤ k) ∧
      u'.assertions = u.assertions ++ [s.transAt k] ∧ u'.steps = u.steps ++ [s.refsAt (k + 1)] := by
  refine ⟨s.unrolling k, s.unrolling (k + 1), s.unroll_natCast k, s.unroll_natCast (k + 1),
    h.assertions_iff, fun name p hp i hi => h.property hp hi, fun t ht => ht.mem_refs,
    s.nodup_refs_unrolling k, fun r => ?_, s.assertions_unrolling_succ k, s.steps_unrolling_succ k⟩
  rw [mem_refs_unrolling]
  exact and_congr_right fun _ => and_congr_right fun _ => by omega

end

/-- A counter, whose quotient property has no value where the counter is zero. -/
def counter : TransitionSystem where
  «variables» := [⟨"n", .int, .state⟩]
  init := .app .eq [.ref ⟨⟨"n", .int, .state⟩, 0⟩, .const (.int 0)]
  trans := .app .eq [.ref ⟨⟨"n", .int, .state⟩, 1⟩,
    .app .add [.ref ⟨⟨"n", .int, .state⟩, 0⟩, .const (.int 1)]]
  properties := [("inverse", .app .eq [.app .idiv [.const (.int 1),
    .ref ⟨⟨"n", .int, .state⟩, 0⟩], .const (.int 0)])]
  name := "counter"
  valid := rfl

/-- Counting up from zero is an execution of two steps, counting from one is none, and one divided by
the counter has no value in the first state. -/
theorem encodes_counter :
    (∀ t ∈ (counter.unrolling 2).assertions,
        t.evaluate (fun r => some (.exact (.int r.step))) = .ok (.bool true)) ∧
      ¬ (∀ t ∈ (counter.unrolling 2).assertions,
        t.evaluate (fun r => some (.exact (.int (r.step + 1)))) = .ok (.bool true)) ∧
      ∀ p, counter.property "inverse" = .ok p →
        (p.reindex (0 : Nat)).evaluate (fun r => some (.exact (.int r.step))) =
          .error (.zeroDivisor .idiv) := by
  have hzero : counter.Follows (fun r => some (.exact (.int r.step)))
      (fun i _ => some (.exact (.int i))) 2 := fun i _ v _ => rfl
  have hone : counter.Follows (fun r => some (.exact (.int (r.step + 1))))
      (fun i _ => some (.exact (.int (i + 1)))) 2 := fun i _ v _ => rfl
  obtain ⟨u, u', hu, -, hiff, hproperty, -⟩ := encodes_unrolling hzero
  obtain ⟨w, w', hw, -, hiff', -⟩ := encodes_unrolling hone
  obtain rfl := Except.ok.inj ((unroll_natCast counter 2).symm.trans hu)
  obtain rfl := Except.ok.inj ((unroll_natCast counter 2).symm.trans hw)
  refine ⟨hiff.mpr (by decide +kernel), fun h => ?_, fun p hp => ?_⟩
  · exact absurd (hiff'.mp h).1 (by decide +kernel)
  · rw [hproperty "inverse" p hp 0 (by omega)]
    obtain rfl := Except.ok.inj hp
    decide +kernel

end TransitionSystem

end InvariantProver
