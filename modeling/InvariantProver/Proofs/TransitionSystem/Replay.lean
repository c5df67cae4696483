import InvariantProver.Proofs.Smt.Standard
import InvariantProver.Proofs.TransitionSystem.Encoding
import InvariantProver.TransitionSystem.Trace

namespace InvariantProver

namespace Snapshot

def values (x : Snapshot) : StateValues := fun v => Entries.get? v.name x

def Exact (x : Snapshot) : Prop := ∀ entry ∈ x, ∃ v, entry.2 = .exact v

def Suits (vs : List Variable) (x : Snapshot) : Prop :=
  ∀ v ∈ vs, ∀ w, values x v = some (.exact w) → w.ty = v.ty

end Snapshot

namespace Trace

theorem isExact_iff {t : Trace} : t.isExact = true ↔ ∀ x ∈ t.states, Snapshot.Exact x := by
  have hvalue (v : Value) : v.isExact = true ↔ ∃ w, v = .exact w := by
    cases v <;> simp [Value.isExact]
  simp only [isExact, List.all_eq_true, hvalue, Snapshot.Exact]

section

variable {t : Trace} {v : Int}

theorem stateAt?_of_nonneg (hv : 0 ≤ v) : t.stateAt? v = t.states[v.toNat]? := by
  simp only [stateAt?, if_neg (Int.not_lt.mpr hv)]

theorem stateAt?_of_neg (hv : v < 0) :
    t.stateAt? v = if t.states.length + v < 0 then none else t.states[(t.states.length + v).toNat]? := by
  simp only [stateAt?, if_pos hv]

theorem stateAt?_eq_some_iff {x : Snapshot} :
    t.stateAt? v = some x ↔
      ∃ time : Nat, (v = time ∨ v = time - t.states.length) ∧ t.states[time]? = some x := by
  constructor
  · intro h
    rcases Int.lt_or_le v 0 with hv | hv
    · rw [stateAt?_of_neg hv] at h
      split at h
      · cases h
      · exact ⟨_, .inr (by omega), h⟩
    · rw [stateAt?_of_nonneg hv] at h
      exact ⟨_, .inl (by omega), h⟩
  · rintro ⟨time, rfl | rfl, hx⟩
    · rwa [stateAt?_of_nonneg (by omega), Int.toNat_natCast]
    · have hlt : time < t.states.length := (List.getElem?_eq_some_iff.mp hx).1
      have hback : (t.states.length + (time - t.states.length : Int)).toNat = time := by omega
      rwa [stateAt?_of_neg (by omega), if_neg (by omega), hback]

theorem stateAt?_eq_none_iff (hv : v < t.states.length) :
    t.stateAt? v = none ↔ v < -t.states.length := by
  rcases Int.lt_or_le v 0 with hneg | hneg
  · rw [stateAt?_of_neg hneg]
    split
    · simp only [true_iff]
      omega
    · rw [List.getElem?_eq_none_iff]
      omega
  · rw [stateAt?_of_nonneg hneg, List.getElem?_eq_none_iff]
    omega

end

def FailsAt (t : Trace) (p : Term) (time : Nat) : Prop :=
  ∃ x, t.states[time]? = some x ∧ p.evaluate (.now (Snapshot.values x)) = .ok (.bool false)

structure TypedFor (t : Trace) (s : TransitionSystem) (name : String) (p : Term) : Prop where
  property : s.property name = .ok p
  typed : p.isTyped = true
  init : s.init.isTyped = true
  trans : s.trans.isTyped = true
  states : ∀ x ∈ t.states, Snapshot.Suits s.variables x

end Trace

namespace TransitionSystem

variable {s : TransitionSystem} {name : String} {p u : Term} {t : Trace} {x y : Snapshot}

inductive Replayed (s : TransitionSystem) (p : Term) (states : List Snapshot) : Valuation → Term → Prop
  | init {x : Snapshot} : x ∈ states → Replayed s p states (.now (Snapshot.values x)) s.init
  | trans {x y : Snapshot} : x ∈ states → y ∈ states →
    Replayed s p states (.across (Snapshot.values x) (Snapshot.values y)) s.trans
  | property {x : Snapshot} : x ∈ states → Replayed s p states (.now (Snapshot.values x)) p

structure ExactRun (s : TransitionSystem) (t : Trace) : Prop where
  exact : ∀ x ∈ t.states, Snapshot.Exact x
  starts : ∃ x, t.states.head? = some x ∧ s.Starts (Snapshot.values x)
  moves : t.states.IsChain fun x y => s.Moves (Snapshot.values x) (Snapshot.values y)

def Counterexample (s : TransitionSystem) (p : Term) (t : Trace) : Prop :=
  s.ExactRun t ∧ ∃ time : Nat, t.violation = time ∧ t.FailsAt p time

/-! ### Values for references -/

theorem ofStates_now {r : Ref} (hvar : r.var ∈ s.variables) (hstep : r.step = 0) :
    Valuation.ofStates s.variables [x] r = Valuation.now (Snapshot.values x) r := by
  simp [Valuation.ofStates, Valuation.now, hvar, hstep, Snapshot.values]

theorem ofStates_across {r : Ref} (hvar : r.var ∈ s.variables) (hstep : r.step = 0 ∨ r.step = 1) :
    Valuation.ofStates s.variables [x, y] r =
      Valuation.across (Snapshot.values x) (Snapshot.values y) r := by
  rcases hstep with hstep | hstep <;>
    simp [Valuation.ofStates, Valuation.across, hvar, hstep, Snapshot.values]

theorem ty_now (hx : Snapshot.Suits s.variables x) {r : Ref} (hvar : r.var ∈ s.variables) {v : Scalar}
    (hv : Valuation.now (Snapshot.values x) r = some (.exact v)) : v.ty = r.ty := by
  unfold Valuation.now at hv
  split at hv
  · exact hx r.var hvar v hv
  · cases hv

theorem ty_across (hx : Snapshot.Suits s.variables x) (hy : Snapshot.Suits s.variables y) {r : Ref}
    (hvar : r.var ∈ s.variables) {v : Scalar}
    (hv : Valuation.across (Snapshot.values x) (Snapshot.values y) r = some (.exact v)) :
    v.ty = r.ty := by
  unfold Valuation.across at hv
  split at hv
  · exact hx r.var hvar v hv
  · split at hv
    · exact hy r.var hvar v hv
    · cases hv

theorem truth?_eq_some_iff {env : Valuation} {states : List Snapshot} {b : Bool} (htyped : u.isTyped = true)
    (hty : u.ty = .bool) (hagree : ∀ r ∈ u.refs, Valuation.ofStates s.variables states r = env r)
    (henv : ∀ r ∈ u.refs, ∀ v, env r = some (.exact v) → v.ty = r.ty) :
    s.truth? u states = some b ↔ u.evaluate env = .ok (.bool b) := by
  rw [truth?, Term.evaluate_of_agree hagree]
  cases hvalue : u.evaluate env with
  | error e => simp [Except.toOption]
  | ok v =>
    have hv : v.ty = .bool :=
      (Term.ty_of_evaluate htyped (fun r hr w hw => henv r hr w (Term.exact_eq_ok_iff.mp hw)) hvalue).trans hty
    obtain ⟨c, rfl⟩ := Smt.eq_bool_of_ty hv
    simp [Except.toOption, Scalar.truth]

section

variable (hx : Snapshot.Suits s.variables x)
include hx

theorem truth?_now (htyped : u.isTyped = true) (hty : u.ty = .bool)
    (hrefs : ∀ r ∈ u.refs, r.var ∈ s.variables ∧ r.step = 0) {b : Bool} :
    s.truth? u [x] = some b ↔ u.evaluate (.now (Snapshot.values x)) = .ok (.bool b) :=
  truth?_eq_some_iff htyped hty (fun r hr => ofStates_now (hrefs r hr).1 (hrefs r hr).2)
    fun r hr _ hv => ty_now hx (hrefs r hr).1 hv

theorem follows_iff (hy : Snapshot.Suits s.variables y) (htyped : s.trans.isTyped = true) :
    s.follows x y = true ↔ s.Moves (Snapshot.values x) (Snapshot.values y) := by
  rw [follows, decide_eq_true_iff]
  refine truth?_eq_some_iff htyped s.ty_trans (fun r hr => ?_) fun r hr _ hv => ?_
  · obtain ⟨hvar, hstep⟩ := s.refs_trans r hr
    exact ofStates_across hvar hstep
  · exact ty_across hx hy (s.refs_trans r hr).1 hv

end

/-! ### Executions -/

section

variable {states : List Snapshot} (hstates : ∀ x ∈ states, Snapshot.Suits s.variables x)
include hstates

theorem isPath_iff (htrans : s.trans.isTyped = true) :
    s.isPath states = true ↔
      states.IsChain fun x y => s.Moves (Snapshot.values x) (Snapshot.values y) := by
  induction states with
  | nil => simp [isPath]
  | cons x rest ih =>
    cases rest with
    | nil => simp [isPath]
    | cons y rest =>
      have hfirst := follows_iff (hstates x (by simp)) (hstates y (by simp)) htrans
      rw [isPath, Bool.and_eq_true, hfirst, ih fun z hz => hstates z (List.mem_cons_of_mem x hz),
        List.isChain_cons_cons]

theorem isExecution_iff (hinit : s.init.isTyped = true) (htrans : s.trans.isTyped = true) :
    s.isExecution states = true ↔
      (∃ x, states.head? = some x ∧ s.Starts (Snapshot.values x)) ∧
        states.IsChain fun x y => s.Moves (Snapshot.values x) (Snapshot.values y) := by
  cases states with
  | nil => simp [isExecution]
  | cons x rest =>
    have hstart := truth?_now (b := true) (hstates x (by simp)) hinit s.ty_init s.refs_init
    rw [isExecution, Bool.and_eq_true, isPath_iff hstates htrans, decide_eq_true_iff, hstart]
    simp [Starts]

end

/-! ### Replays -/

section

variable (h : t.TypedFor s name p)
include h

theorem Replayed.names {env : Valuation} (hu : s.Replayed p t.states env u) {e : EvalError}
    (he : u.evaluate env = .error e) : e.Names env u := by
  cases hu with
  | init hx =>
    exact Term.names_of_evaluate h.init (fun r hr _ => ty_now (h.states _ hx) (s.refs_init r hr).1) he
  | trans hx hy =>
    refine Term.names_of_evaluate h.trans (fun r hr _ => ?_) he
    exact ty_across (h.states _ hx) (h.states _ hy) (s.refs_trans r hr).1
  | property hx =>
    refine Term.names_of_evaluate h.typed (fun r hr _ => ?_) he
    exact ty_now (h.states _ hx) (refs_property h.property r hr).1

theorem exactRun_iff : t.isExact = true ∧ s.isExecution t.states = true ↔ s.ExactRun t := by
  rw [Trace.isExact_iff, isExecution_iff h.states h.init h.trans]
  exact ⟨fun ⟨hexact, hstarts, hmoves⟩ => ⟨hexact, hstarts, hmoves⟩,
    fun ⟨hexact, hstarts, hmoves⟩ => ⟨hexact, hstarts, hmoves⟩⟩

theorem replays_of_exactRun (hrun : s.ExactRun t) (hlt : t.violation < t.states.length) :
    s.replays t name = match t.stateAt? t.violation with
      | none => .error .beforeStart
      | some x => .ok (s.truth? p [x] = some false) := by
  obtain ⟨hexact, hexecution⟩ := (exactRun_iff h).mpr hrun
  rw [replays, h.property, hexact, hexecution, decide_eq_false (by omega)]
  cases t.stateAt? t.violation <;> rfl

theorem replays_of_not_exactRun (hnot : ¬ (s.ExactRun t ∧ t.violation < t.states.length)) :
    s.replays t name = .ok false := by
  have hguard :
      (decide (t.states.length ≤ t.violation) || !t.isExact || !s.isExecution t.states) = true := by
    rw [← exactRun_iff h, ← Int.not_le] at hnot
    by_contra hfalse
    simp only [Bool.or_eq_true, Bool.not_eq_true', decide_eq_true_eq, not_or, Bool.not_eq_false] at hfalse
    exact hnot ⟨⟨hfalse.1.2, hfalse.2⟩, hfalse.1.1⟩
  rw [replays, h.property]
  change (if _ then _ else _) = _
  rw [if_pos hguard]
  rfl

theorem replays_eq_true_iff :
    s.replays t name = .ok true ↔ s.ExactRun t ∧
      ∃ time : Nat, (t.violation = time ∨ t.violation = time - t.states.length) ∧ t.FailsAt p time := by
  by_cases hrun : s.ExactRun t ∧ t.violation < t.states.length
  · rw [replays_of_exactRun h hrun.1 hrun.2]
    cases hx : t.stateAt? t.violation with
    | none =>
      refine ⟨fun hnone => (by cases hnone), ?_⟩
      rintro ⟨-, time, htime, x, htx, -⟩
      cases hx.symm.trans (Trace.stateAt?_eq_some_iff.mpr ⟨time, htime, htx⟩)
    | some x =>
      obtain ⟨time, htime, htx⟩ := Trace.stateAt?_eq_some_iff.mp hx
      have htruth := truth?_now (b := false) (h.states x (List.mem_of_getElem? htx)) h.typed
        (ty_property h.property) (refs_property h.property)
      simp only [Except.ok.injEq, decide_eq_true_iff, htruth]
      refine ⟨fun hfalse => ⟨hrun.1, time, htime, x, htx, hfalse⟩, ?_⟩
      rintro ⟨-, time', htime', y, hty, hy⟩
      obtain rfl : x = y := Option.some.inj
        (hx.symm.trans (Trace.stateAt?_eq_some_iff.mpr ⟨time', htime', hty⟩))
      exact hy
  · rw [replays_of_not_exactRun h hrun]
    refine ⟨fun hfalse => (by cases hfalse), ?_⟩
    rintro ⟨hexact, time, htime, x, hx, -⟩
    have hlt := (List.getElem?_eq_some_iff.mp hx).1
    exact absurd ⟨hexact, by omega⟩ hrun

theorem replays_eq_error_iff {e : ReplayError} :
    s.replays t name = .error e ↔
      e = .beforeStart ∧ s.ExactRun t ∧ t.violation < -t.states.length := by
  by_cases hrun : s.ExactRun t ∧ t.violation < t.states.length
  · rw [replays_of_exactRun h hrun.1 hrun.2, ← Trace.stateAt?_eq_none_iff hrun.2]
    cases t.stateAt? t.violation <;> simp [hrun.1, eq_comm]
  · rw [replays_of_not_exactRun h hrun]
    refine ⟨fun hok => (by cases hok), ?_⟩
    rintro ⟨-, hexact, hneg⟩
    exact absurd ⟨hexact, by omega⟩ hrun

/-- A replay accepts a run of exact values on which the property is false at the time of the violation,
or at that time from the end, and fails exactly if that is before the start. Where the time is not
negative it accepts the counterexamples and rejects all else. What it cannot evaluate has no value, and
for no other reason than that values are missing or inexact or a divisor is zero. -/
theorem replays_iff :
    (s.replays t name = .ok true ↔ s.ExactRun t ∧
      ∃ time : Nat, (t.violation = time ∨ t.violation = time - t.states.length) ∧ t.FailsAt p time) ∧
    (∀ e, s.replays t name = .error e ↔
      e = .beforeStart ∧ s.ExactRun t ∧ t.violation < -t.states.length) ∧
    (0 ≤ t.violation → ∃ b, s.replays t name = .ok b ∧ (b = true ↔ s.Counterexample p t)) ∧
    ∀ env u e, s.Replayed p t.states env u → u.evaluate env = .error e → e.Names env u := by
  refine ⟨replays_eq_true_iff h, fun e => replays_eq_error_iff h, fun hv => ?_, fun env u e hu => hu.names h⟩
  cases hreplay : s.replays t name with
  | error e =>
    obtain ⟨-, -, hneg⟩ := (replays_eq_error_iff h).mp hreplay
    omega
  | ok b =>
    refine ⟨b, rfl, ?_⟩
    have hb : b = true ↔ s.replays t name = .ok true := by simp [hreplay]
    rw [hb, replays_eq_true_iff h]
    refine and_congr_right fun _ => exists_congr fun time => and_congr_left fun ⟨x, hx, _⟩ => ?_
    have hlt := (List.getElem?_eq_some_iff.mp hx).1
    omega

end

def inverse : Term :=
  .app .eq [.app .idiv [.const (.int 1), .ref ⟨⟨"n", .int, .state⟩, 0⟩], .const (.int 0)]

/-- Counting from zero to one, with a time at which the inverse is said not to vanish. -/
def countedOnce (violation : Int) : Trace where
  depth := 1
  states := [[("n", .exact (.int 0))], [("n", .exact (.int 1))]]
  violation := violation

theorem typedFor_countedOnce (violation : Int) :
    (countedOnce violation).TypedFor counter "inverse" inverse where
  property := rfl
  typed := by decide +kernel
  init := by decide +kernel
  trans := by decide +kernel
  states := by
    simp only [countedOnce, List.forall_mem_cons, Snapshot.Suits, counter]
    simp [Snapshot.values, Entries.get?, Scalar.ty]

theorem counter_replays :
    counter.Counterexample inverse (countedOnce 1) ∧ ¬ counter.Counterexample inverse (countedOnce 0) := by
  obtain ⟨-, -, hone, -⟩ := replays_iff (typedFor_countedOnce 1)
  obtain ⟨-, -, hzero, -⟩ := replays_iff (typedFor_countedOnce 0)
  obtain ⟨b, hb, hone⟩ := hone (by decide)
  obtain ⟨c, hc, hzero⟩ := hzero (by decide)
  have htrue : counter.replays (countedOnce 1) "inverse" = .ok true := by decide +kernel
  have hfalse : counter.replays (countedOnce 0) "inverse" = .ok false := by decide +kernel
  obtain rfl := Except.ok.inj (hb.symm.trans htrue)
  obtain rfl := Except.ok.inj (hc.symm.trans hfalse)
  exact ⟨hone.mp rfl, fun h => by cases hzero.mpr h⟩

/-- A time from the end is accepted though it is no time of the trace, and one from before the start
fails. -/
theorem counter_replays_backwards :
    (∀ violation, (countedOnce violation).TypedFor counter "inverse" inverse) ∧
      ¬ counter.Counterexample inverse (countedOnce (-1)) ∧
      counter.replays (countedOnce (-1)) "inverse" = .ok true ∧
      counter.replays (countedOnce (-3)) "inverse" = .error .beforeStart := by
  refine ⟨typedFor_countedOnce, ?_, by decide +kernel, by decide +kernel⟩
  rintro ⟨-, time, htime, -⟩
  have hback : (-1 : Int) = time := htime
  omega

end TransitionSystem

end InvariantProver
