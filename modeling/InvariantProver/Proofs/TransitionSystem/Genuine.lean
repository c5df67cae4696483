import InvariantProver.Proofs.Term.Meaning
import InvariantProver.Proofs.Term.Reading
import InvariantProver.Proofs.TransitionSystem.Replay

/-!
Counterexamples that do not depend on what dividing by zero gives. Evaluation has no value where a
divisor is zero, even in an operand that decides nothing, so a replay accepts such a counterexample
exactly if it meets no division by zero at all (`replays_genuine`).
-/

namespace InvariantProver

namespace Term

def completed (z : ZeroReading) (env : Valuation) : Term → Except EvalError Scalar :=
  read env.exact fun op vs => .ok (op.total z vs)

theorem completed_ofAssignment (z : ZeroReading) (a : Assignment) (t : Term) :
    t.completed z (.ofAssignment a) = .ok (t.total z a) := by
  induction t using Term.induct with
  | const value => simp [completed, read]
  | ref r => simp [completed, read, Valuation.exact, Valuation.ofAssignment]
  | app op args ih =>
    rw [total_app]
    refine read_app_eq_ok.mpr ⟨args.map (total z a), ?_, rfl⟩
    rw [List.forall₂_map_right_iff, List.forall₂_same]
    exact ih

section

variable {z : ZeroReading} {env : Valuation} {t : Term} {v : Scalar}

theorem completed_of_evaluate (h : t.evaluate env = .ok v) : t.completed z env = .ok v := by
  refine read_of_agree (fun _ _ hr => hr) (fun op vs w hw => ?_) h
  rw [Op.total, hw]

theorem exact_of_completed (h : t.completed z env = .ok v) :
    ∀ r ∈ t.refs, ∃ w, env r = some (.exact w) := by
  intro r hr
  obtain ⟨w, hw⟩ := look_of_read h r hr
  exact ⟨w, exact_eq_ok_iff.mp hw⟩

theorem evaluate_eq_ok_iff_of_completed (h : t.completed z env = .ok v)
    (hnames : ∀ e, t.evaluate env = .error e → e.Names env t) :
    t.evaluate env = .ok v ↔ ∀ op, ¬ t.DividesByZero env op := by
  refine ⟨fun hv => (exact_of_evaluate hv).2, fun hnone => ?_⟩
  cases hvalue : t.evaluate env with
  | ok w => rw [← h, ← completed_of_evaluate hvalue]
  | error e =>
    have hexact := exact_of_completed h
    cases hnames e hvalue with
    | noValue hr hmissing =>
      obtain ⟨w, hw⟩ := hexact _ hr
      cases hw.symm.trans hmissing
    | irrational hr hinexact =>
      obtain ⟨w, hw⟩ := hexact _ hr
      cases hw.symm.trans hinexact
    | divisionByZero hzero => exact absurd hzero (hnone .div)
    | zeroDivisor _ hzero => exact absurd hzero (hnone _)

end

end Term

namespace TransitionSystem

variable {s : TransitionSystem} {name : String} {p : Term} {t : Trace}

inductive Examined (s : TransitionSystem) (p : Term) (t : Trace) : Valuation → Term → Bool → Prop
  | init {x : Snapshot} : t.states[0]? = some x → Examined s p t (.now (Snapshot.values x)) s.init true
  | trans {i : Nat} {x y : Snapshot} : t.states[i]? = some x → t.states[i + 1]? = some y →
    Examined s p t (.across (Snapshot.values x) (Snapshot.values y)) s.trans true
  | property {time : Nat} {x : Snapshot} : t.violation = time → t.states[time]? = some x →
    Examined s p t (.now (Snapshot.values x)) p false

/-- The trace starts, moves and ends as a counterexample does, whatever dividing by zero gives. -/
structure Genuine (s : TransitionSystem) (p : Term) (t : Trace) : Prop where
  nonempty : t.states ≠ []
  comesOut : ∀ z env u b, s.Examined p t env u b → u.completed z env = .ok (.bool b)

def MeetsZero (s : TransitionSystem) (p : Term) (t : Trace) : Prop :=
  ∃ env u b op, s.Examined p t env u b ∧ u.DividesByZero env op

theorem replayed_of_examined {env : Valuation} {u : Term} {b : Bool} (h : s.Examined p t env u b) :
    s.Replayed p t.states env u := by
  cases h with
  | init hx => exact .init (List.mem_of_getElem? hx)
  | trans hx hy => exact .trans (List.mem_of_getElem? hx) (List.mem_of_getElem? hy)
  | property _ hx => exact .property (List.mem_of_getElem? hx)

section

variable (h : t.TypedFor s name p)
include h

theorem replays_eq_true_iff_examined (hexact : ∀ x ∈ t.states, Snapshot.Exact x)
    (hnonempty : t.states ≠ []) (hlast : t.violation = t.states.length - 1) :
    s.replays t name = .ok true ↔
      ∀ env u b, s.Examined p t env u b → u.evaluate env = .ok (.bool b) := by
  have hpos := List.length_pos_iff.mpr hnonempty
  rw [replays_eq_true_iff h]
  constructor
  · rintro ⟨⟨-, ⟨x₀, hhead, hstarts⟩, hmoves⟩, time, htime, x, hx, hfails⟩ env u b hexamined
    cases hexamined with
    | init hy =>
      rw [List.head?_eq_getElem?] at hhead
      obtain rfl := Option.some.inj (hhead.symm.trans hy)
      exact hstarts
    | trans hy hz =>
      obtain ⟨hi, rfl⟩ := List.getElem?_eq_some_iff.mp hy
      obtain ⟨hj, rfl⟩ := List.getElem?_eq_some_iff.mp hz
      exact List.isChain_iff_getElem.mp hmoves _ hj
    | @property time' y htime' hy =>
      have hlt := (List.getElem?_eq_some_iff.mp hx).1
      obtain rfl : time = time' := by omega
      obtain rfl := Option.some.inj (hx.symm.trans hy)
      exact hfails
  · intro hall
    obtain ⟨x₀, hx₀⟩ : ∃ x, t.states[0]? = some x := ⟨_, List.getElem?_eq_getElem hpos⟩
    have hmoves : t.states.IsChain fun x y => s.Moves (Snapshot.values x) (Snapshot.values y) := by
      rw [List.isChain_iff_getElem]
      intro i hi
      exact hall _ _ _ (.trans (List.getElem?_eq_getElem (by omega)) (List.getElem?_eq_getElem hi))
    obtain ⟨x, hx⟩ : ∃ x, t.states[t.states.length - 1]? = some x :=
      ⟨_, List.getElem?_eq_getElem (by omega)⟩
    have htime : t.violation = (t.states.length - 1 : Nat) := by omega
    refine ⟨⟨hexact, ⟨x₀, ?_, hall _ _ _ (.init hx₀)⟩, hmoves⟩, _, .inl htime, x, hx, ?_⟩
    · rw [List.head?_eq_getElem?, hx₀]
    · exact hall _ _ _ (.property htime hx)

/-- A counterexample that does not depend on divisions by zero is accepted exactly if it meets none,
and otherwise rejected. -/
theorem replays_genuine (hexact : ∀ x ∈ t.states, Snapshot.Exact x)
    (hlast : t.violation = t.states.length - 1) (hgenuine : s.Genuine p t) :
    ∃ b, s.replays t name = .ok b ∧ (b = true ↔ ¬ s.MeetsZero p t) := by
  cases hreplay : s.replays t name with
  | error e =>
    obtain ⟨-, -, hneg⟩ := (replays_eq_error_iff h).mp hreplay
    have hpos := List.length_pos_iff.mpr hgenuine.nonempty
    omega
  | ok b =>
    refine ⟨b, rfl, ?_⟩
    have hb : b = true ↔ s.replays t name = .ok true := by simp [hreplay]
    have hexamined : ∀ env u b, s.Examined p t env u b →
        (u.evaluate env = .ok (.bool b) ↔ ∀ op, ¬ u.DividesByZero env op) := fun env u b hu =>
      Term.evaluate_eq_ok_iff_of_completed (hgenuine.comesOut ⟨id, id, id⟩ env u b hu) fun e he =>
        (replayed_of_examined hu).names h he
    rw [hb, replays_eq_true_iff_examined h hexact hgenuine.nonempty hlast]
    constructor
    · rintro hall ⟨env, u, b, op, hu, hzero⟩
      exact (hexamined env u b hu).mp (hall env u b hu) op hzero
    · intro hnone env u b hu
      exact (hexamined env u b hu).mpr fun op hzero => hnone ⟨env, u, b, op, hu, hzero⟩

end

def unit : Term :=
  .app .and [.app .not [.app .eq [.ref ⟨⟨"n", .int, .state⟩, 0⟩, .const (.int 0)]],
    .app .eq [.app .idiv [.const (.int 1), .ref ⟨⟨"n", .int, .state⟩, 0⟩], .const (.int 1)]]

/-- The counter, with a quotient that is asked for beside the test that its divisor is not zero. -/
def guarded : TransitionSystem :=
  { counter with
    properties := [("unit", unit)]
    valid := rfl }

def counted (n : Nat) : Snapshot := [("n", .exact (.int n))]

def countedTo (n : Nat) : Trace where
  depth := n
  states := (List.range (n + 1)).map counted
  violation := n

theorem exact_countedTo (n : Nat) : ∀ x ∈ (countedTo n).states, Snapshot.Exact x := by
  simp [countedTo, counted, Snapshot.Exact]

theorem last_countedTo (n : Nat) : (countedTo n).violation = (countedTo n).states.length - 1 := by
  simp [countedTo]

theorem typedFor_countedTo (n : Nat) : (countedTo n).TypedFor guarded "unit" unit where
  property := rfl
  typed := by decide +kernel
  init := by decide +kernel
  trans := by decide +kernel
  states := by
    simp only [countedTo, List.forall_mem_map, Snapshot.Suits, guarded, counter]
    simp [counted, Snapshot.values, Entries.get?, Scalar.ty]

theorem genuine_countedTo {n : Nat} (hn : n = 0 ∨ n = 2) : guarded.Genuine unit (countedTo n) where
  nonempty := List.ne_nil_of_length_pos (by simp [countedTo])
  comesOut := by
    have hstate : ∀ i x, (countedTo n).states[i]? = some x → x = counted i := by
      intro i x hx
      obtain ⟨hi, rfl⟩ := List.getElem?_eq_some_iff.mp hx
      simp [countedTo]
    intro z env u b hu
    cases hu with
    | init hx =>
      obtain rfl := hstate _ _ hx
      rfl
    | @trans i _ _ hx hy =>
      obtain rfl := hstate _ _ hx
      obtain rfl := hstate _ _ hy
      apply Term.completed_of_evaluate
      have hnext : guarded.trans.evaluate (.across (counted i).values (counted (i + 1)).values) =
          .ok (.bool ((Scalar.int (i + 1 : Nat)).same (.int (i + 1 : Nat)) && true)) := rfl
      rw [hnext]
      simp [Scalar.same]
    | @property time _ htime hx =>
      obtain rfl := hstate _ _ hx
      obtain rfl : n = time := Int.ofNat.inj htime
      rcases hn with rfl | rfl
      · rfl
      · rfl

theorem guarded_replays :
    ¬ guarded.MeetsZero unit (countedTo 2) ∧ guarded.MeetsZero unit (countedTo 0) := by
  obtain ⟨b, hb, htwo⟩ := replays_genuine (typedFor_countedTo 2) (exact_countedTo 2)
    (last_countedTo 2) (genuine_countedTo (.inr rfl))
  obtain ⟨c, hc, hzero⟩ := replays_genuine (typedFor_countedTo 0) (exact_countedTo 0)
    (last_countedTo 0) (genuine_countedTo (.inl rfl))
  have htrue : guarded.replays (countedTo 2) "unit" = .ok true := by decide +kernel
  have hfalse : guarded.replays (countedTo 0) "unit" = .ok false := by decide +kernel
  obtain rfl := Except.ok.inj (hb.symm.trans htrue)
  obtain rfl := Except.ok.inj (hc.symm.trans hfalse)
  exact ⟨htwo.mp rfl, Classical.byContradiction fun h => by cases hzero.mpr h⟩

/-- In the first state the property is false whatever one divided by zero is, and yet the replay of
that state is rejected. -/
theorem guarded_rejects_genuine :
    (countedTo 0).TypedFor guarded "unit" unit ∧
      (∀ x ∈ (countedTo 0).states, Snapshot.Exact x) ∧
      (countedTo 0).violation = (countedTo 0).states.length - 1 ∧
      guarded.Genuine unit (countedTo 0) ∧
      guarded.replays (countedTo 0) "unit" = .ok false :=
  ⟨typedFor_countedTo 0, exact_countedTo 0, last_countedTo 0, genuine_countedTo (.inl rfl),
    by decide +kernel⟩

end TransitionSystem

end InvariantProver
