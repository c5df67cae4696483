import InvariantProver.Proofs.Term.Connectives
import InvariantProver.Proofs.TransitionSystem.Predicates
import InvariantProver.Prover.Engine

namespace InvariantProver

@[ext]
structure State where
  value : Variable → Scalar
  typed : ∀ v, (value v).ty = v.ty

namespace Assignment

def ofPath (π : Nat → State) : Assignment where
  value r := (π r.step.toNat).value r.var
  typed r := (π r.step.toNat).typed r.var

def stateAt (a : Assignment) (i : Nat) : State where
  value v := a.value ⟨v, i⟩
  typed v := a.typed ⟨v, i⟩

@[simp] theorem stateAt_ofPath (π : Nat → State) (i : Nat) : (ofPath π).stateAt i = π i := by
  ext v
  simp [stateAt, ofPath]

end Assignment

namespace Term

def TrueIn (z : ZeroReading) (x : State) (t : Term) : Prop := t.Holds z (.ofPath fun _ => x)

def Relates (z : ZeroReading) (x y : State) (t : Term) : Prop :=
  t.Holds z (.ofPath fun i => if i = 0 then x else y)

section

variable {z : ZeroReading} {t : Term}

theorem holds_iff_trueIn (h : ∀ r ∈ t.refs, r.step = 0) (a : Assignment) :
    t.Holds z a ↔ t.TrueIn z (a.stateAt 0) := by
  refine holds_congr z t fun r hr => ?_
  obtain ⟨v, i⟩ := r
  obtain rfl : i = 0 := h _ hr
  rfl

theorem holds_reindex_iff_trueIn (h : ∀ r ∈ t.refs, r.step = 0) (a : Assignment) (i : Nat) :
    (t.reindex i).Holds z a ↔ t.TrueIn z (a.stateAt i) := by
  rw [holds_reindex]
  refine holds_congr z t fun r hr => ?_
  simp [Assignment.shift, Assignment.ofPath, Assignment.stateAt, Ref.shift, h r hr]

theorem holds_reindex_iff_relates (h : ∀ r ∈ t.refs, r.step = 0 ∨ r.step = 1) (a : Assignment)
    (i : Nat) :
    (t.reindex i).Holds z a ↔ t.Relates z (a.stateAt i) (a.stateAt (i + 1)) := by
  rw [holds_reindex]
  refine holds_congr z t fun r hr => ?_
  obtain ⟨v, j⟩ := r
  rcases h _ hr with hj | hj
  · obtain rfl : j = 0 := hj
    simp [Assignment.shift, Assignment.ofPath, Assignment.stateAt, Ref.shift]
  · obtain rfl : j = 1 := hj
    simp [Assignment.shift, Assignment.ofPath, Assignment.stateAt, Ref.shift, Int.add_comm]

end

end Term

namespace TransitionSystem

variable (z : ZeroReading) (s : TransitionSystem)

def Initial (x : State) : Prop := s.init.TrueIn z x

def Next (x y : State) : Prop := s.trans.Relates z x y

def Chain (π : Nat → State) (n : Nat) : Prop := ∀ i < n, s.Next z (π i) (π (i + 1))

structure Execution (π : Nat → State) (n : Nat) : Prop where
  initial : s.Initial z (π 0)
  chain : s.Chain z π n

inductive Reachable : State → Prop
  | initial {x : State} : s.Initial z x → Reachable x
  | next {x y : State} : Reachable x → s.Next z x y → Reachable y

def Violates (p : Term) (n : Nat) : Prop := ∃ π, s.Execution z π n ∧ ¬ p.TrueIn z (π n)

structure Invariant (p : Term) : Prop where
  steps : ∀ r ∈ p.refs, r.step = 0
  holds : ∀ x, s.Reachable z x → p.TrueIn z x

variable {z s}

theorem Execution.mono {π : Nat → State} {m n : Nat} (h : s.Execution z π n) (hm : m ≤ n) :
    s.Execution z π m :=
  ⟨h.initial, fun i hi => h.chain i (by omega)⟩

theorem Execution.reachable {π : Nat → State} {n : Nat} (h : s.Execution z π n) :
    ∀ i ≤ n, s.Reachable z (π i)
  | 0, _ => .initial h.initial
  | i + 1, hi => .next (h.reachable i (by omega)) (h.chain i (by omega))

theorem Reachable.execution {x : State} (h : s.Reachable z x) :
    ∃ π n, s.Execution z π n ∧ π n = x := by
  induction h with
  | @initial x hx => exact ⟨fun _ => x, 0, ⟨hx, fun i hi => absurd hi (Nat.not_lt_zero i)⟩, rfl⟩
  | @next x y _ hxy ih =>
    obtain ⟨π, n, hπ, rfl⟩ := ih
    have hn : ¬ n + 1 ≤ n := by omega
    refine ⟨fun i => if i ≤ n then π i else y, n + 1, ⟨by simpa using hπ.initial, ?_⟩, by simp [hn]⟩
    intro i hi
    by_cases hin : i < n
    · have h₁ : i ≤ n := by omega
      have h₂ : i + 1 ≤ n := by omega
      simpa only [h₁, h₂, if_true] using hπ.chain i hin
    · obtain rfl : i = n := by omega
      simpa [hn] using hxy

theorem reachable_true_iff {p : Term} :
    (∀ x, s.Reachable z x → p.TrueIn z x) ↔ ∀ n, ¬ s.Violates z p n := by
  constructor
  · rintro h n ⟨π, hπ, hp⟩
    exact hp (h _ (hπ.reachable n (Nat.le_refl n)))
  · intro h x hx
    obtain ⟨π, n, hπ, rfl⟩ := hx.execution
    exact Classical.byContradiction fun hp => h n ⟨π, hπ, hp⟩

theorem holds_init_iff (a : Assignment) : s.init.Holds z a ↔ s.Initial z (a.stateAt 0) :=
  Term.holds_iff_trueIn (fun r hr => (s.refs_init r hr).2) a

theorem holds_transAt_iff (a : Assignment) (i : Nat) :
    (s.transAt i).Holds z a ↔ s.Next z (a.stateAt i) (a.stateAt (i + 1)) :=
  Term.holds_reindex_iff_relates (fun r hr => (s.refs_trans r hr).2) a i

end TransitionSystem

def Task.asserted (task : Task) (s : TransitionSystem) (n : Nat) : List Term :=
  (List.range n).flatMap (task.assumptions s)

theorem Task.asserted_succ (task : Task) (s : TransitionSystem) (n : Nat) :
    task.asserted s (n + 1) = task.asserted s n ++ task.assumptions s n := by
  simp [asserted, List.range_succ]

theorem holds_asserted_iff (z : ZeroReading) (s : TransitionSystem) (task : Task) (n : Nat)
    (a : Assignment) :
    (∀ t ∈ task.asserted s (n + 1), t.Holds z a) ↔
      (task = .base → s.Initial z (a.stateAt 0)) ∧ s.Chain z a.stateAt n := by
  induction n with
  | zero =>
    cases task <;>
      simp [Task.asserted, Task.assumptions, TransitionSystem.Chain, TransitionSystem.holds_init_iff]
  | succ n ih =>
    have hlast : task.assumptions s (n + 1) = [s.transAt n] := by cases task <;> rfl
    rw [Task.asserted_succ, hlast]
    simp only [List.mem_append, List.mem_singleton, or_imp, forall_and, forall_eq]
    rw [ih, TransitionSystem.holds_transAt_iff, and_assoc]
    refine and_congr_right fun _ => ⟨fun h i hi => ?_, fun h => ⟨fun i hi => h i (by omega), h n (by omega)⟩⟩
    by_cases hin : i < n
    · exact h.1 i hin
    · obtain rfl : i = n := by omega
      exact h.2

end InvariantProver
