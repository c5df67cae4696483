import InvariantProver.Proofs.TransitionSystem.Acceptance

namespace InvariantProver

def Valuation.ofPair (vs : List Variable) (current next : Nat → Scalar) : Valuation := fun r =>
  if r.var ∈ vs then some (.exact ((if r.step = 0 then current else next) (vs.idxOf r.var))) else none

def Moment.ofStates (current next : Nat → Scalar) : Moment where
  current i := .ok (current i)
  next i := .ok (next i)

theorem Moment.describes_ofStates {vs : List Variable} (hnodup : vs.Nodup) {current next : Nat → Scalar}
    (hcurrent : ∀ (i : Nat) v, vs[i]? = some v → (current i).ty = v.ty)
    (hnext : ∀ (i : Nat) v, vs[i]? = some v → (next i).ty = v.ty) :
    (Moment.ofStates current next).Describes vs (.ofPair vs current next) := by
  have hnumber : ∀ (i : Nat) v, vs[i]? = some v → vs.idxOf v = i := by
    intro i v hv
    obtain ⟨hlt, rfl⟩ := List.getElem?_eq_some_iff.mp hv
    exact hnodup.idxOf_getElem i hlt
  have hexact : ∀ (i : Nat) v, vs[i]? = some v → ∀ step,
      (Valuation.ofPair vs current next).exact ⟨v, step⟩ =
        .ok ((if step = 0 then current else next) i) := by
    intro i v hv step
    have hmem := List.mem_of_getElem? hv
    simp only [Valuation.exact, Valuation.ofPair, hmem, if_true, hnumber i v hv]
  refine ⟨fun i v hv => hexact i v hv 0, fun i v hv => hexact i v hv 1, ?_⟩
  intro v hv step _ w hw
  obtain ⟨i, hi⟩ := List.mem_iff_getElem?.mp hv
  rw [hexact i v hi] at hw
  obtain rfl := Except.ok.inj hw
  split
  · exact hcurrent i v hi
  · exact hnext i v hi

theorem Term.Denotes.value_current {vs : List Variable} {t : Term} {r : Meaning} (h : t.Denotes vs r)
    (hsteps : ∀ ref ∈ t.refs, ref.step = 0) {m : Moment} {env : Valuation} (hm : m.Describes vs env)
    (next : Nat → Except EvalError Scalar) : t.evaluate env = r.value { m with next } := by
  have hstill : r.next = false := by
    rw [h.next, List.any_eq_false]
    intro ref href
    simpa using hsteps ref href
  rw [h.value m env hm]
  exact h.current hstill m _ rfl

/-- The predicates of a built system have the values that the script gives them by the scope of its
names, and fail where and as the script does. -/
theorem Script.evaluates_as_meant {s : Script} {built : Built} (h : s.build = .ok built) :
    built.system.variables.map (fun v => some v.ty) = s.declared ∧
      (built.system.variables.map Variable.name).Nodup ∧
      ∀ m env, m.Describes built.system.variables env →
        built.system.trans.evaluate env = (Meaning.conjunction (s.predicates .trans)).value m ∧
        ∀ next, built.system.init.evaluate env =
            (Meaning.conjunction (s.predicates .init)).value { m with next } ∧
          built.system.properties.map (fun (name, t) => (name, t.evaluate env)) =
            s.properties.map fun (name, r) => (name, r.value { m with next }) := by
  rcases s.build_cases with ⟨built', d, hbuild, hformed, hsystem, hat⟩ | ⟨e, _, hbuild, -⟩
  · obtain rfl := Except.ok.inj (hbuild.symm.trans h)
    have hvariables : built'.system.variables = d.variables := congrArg SystemData.variables hsystem
    have hinit : built'.system.init = Term.allOf d.init := congrArg SystemData.init hsystem
    have htrans : built'.system.trans = Term.allOf d.trans := congrArg SystemData.trans hsystem
    have hproperties : built'.system.properties = d.properties :=
      congrArg SystemData.properties hsystem
    refine ⟨?_, built'.system.nodup_names, fun m env hm => ⟨?_, fun next => ⟨?_, ?_⟩⟩⟩
    · rw [hvariables]
      exact hat.declared
    · rw [hvariables] at hm
      rw [htrans]
      exact (Draft.denotes_allOf_of_sound hat.written.trans hformed).value m env hm
    · have hsteps := fun ref href => (built'.system.refs_init ref href).2
      rw [hvariables] at hm
      rw [hinit] at hsteps ⊢
      have hdenotes := Draft.denotes_allOf_of_sound hat.written.init hformed
      exact hdenotes.value_current hsteps hm next
    · rw [hvariables] at hm
      rw [hproperties]
      refine map_eq_of_forall₂ hat.written.properties fun written meant hmeant ⟨hname, hdenotes⟩ => ?_
      have hsteps := (hdenotes.of_sound (hformed _ (mem_of_property hmeant))).2
      have hvalue := hdenotes.value_current (fun ref href => ?_) hm next
      · exact Prod.ext hname hvalue
      · simpa [Place.steps] using (hsteps ref href).2
  · rw [h] at hbuild
    cases hbuild

/-- A binding hides a state variable, a state variable hides that binding, and another binding is
about the hidden ones. -/
def shadowing : Script where
  items :=
    [.vars ["x"] "int" {},
     .binding (.mk "y" (.apply "+" [.name "x" false {}, .literal (.int 1) {}] {}) {}),
     .block
      [.binding (.mk "x" (.apply "*" [.name "y" false {}, .literal (.int 2) {}] {}) {}),
       .block
        [.vars ["x"] "int" {},
         .init [.apply "=" [.name "x" false {}, .name "y" false {}] {}],
         .trans [.apply "=" [.name "x" true {},
          .letIn [.mk "y" (.apply ">=" [.name "x" false {}, .literal (.int 0) {}] {}) {},
              .mk "x" (.name "y" false {}) {}]
            (.apply "ite" [.name "x" false {}, .literal (.int 1) {}, .literal (.int 0) {}] {}) {}] {}]],
       .property "above" (.apply ">" [.name "x" false {}, .name "y" false {}] {}) {}]]

def shadowingStates : Valuation :=
  .ofPair [⟨"x", .int, .state⟩, ⟨"x#1", .int, .state⟩]
    (fun i => .int (if i = 0 then 3 else 5)) (fun i => .int (if i = 0 then 3 else 1))

theorem shadowing_evaluates : ∃ built, shadowing.build = .ok built ∧
    built.system.trans.evaluate shadowingStates = .ok (.bool true) ∧
    built.system.init.evaluate shadowingStates = .ok (.bool false) ∧
    built.system.properties.map (fun (name, t) => (name, t.evaluate shadowingStates)) =
      [("above", .ok (.bool true))] := by
  have hvariables : shadowing.build.toOption.map (fun built => built.system.variables) =
      some [⟨"x", .int, .state⟩, ⟨"x#1", .int, .state⟩] := by decide +kernel
  obtain ⟨built, hbuilt, hvariables⟩ := Option.map_eq_some_iff.mp hvariables
  have hbuild : shadowing.build = .ok built := by
    cases hb : shadowing.build with
    | error e =>
      rw [hb] at hbuilt
      cases hbuilt
    | ok built' =>
      rw [hb] at hbuilt
      rw [Option.some.inj hbuilt]
  have hint : ∀ (states : Nat → Int) (i : Nat) (v : Variable),
      [(⟨"x", .int, .state⟩ : Variable), ⟨"x#1", .int, .state⟩][i]? = some v →
        (Scalar.int (states i)).ty = v.ty := by
    intro states i v hv
    have hmem := List.mem_of_getElem? hv
    simp only [List.mem_cons, List.not_mem_nil, or_false] at hmem
    rcases hmem with rfl | rfl <;> rfl
  have hdescribes := Moment.describes_ofStates (by decide) (hint fun i => if i = 0 then 3 else 5)
    (hint fun i => if i = 0 then 3 else 1)
  obtain ⟨-, -, hall⟩ := Script.evaluates_as_meant hbuild
  rw [hvariables] at hall
  obtain ⟨htrans, hnow⟩ := hall _ shadowingStates hdescribes
  obtain ⟨hinit, hproperties⟩ := hnow fun _ => .ok (.int 0)
  refine ⟨built, hbuild, ?_⟩
  rw [htrans, hinit, hproperties]
  exact ⟨by decide +kernel, by decide +kernel, by decide +kernel⟩

end InvariantProver
