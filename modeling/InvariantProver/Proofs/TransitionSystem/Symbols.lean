import InvariantProver.Proofs.Smt.Expressions
import InvariantProver.Proofs.Smt.Legality
import InvariantProver.Proofs.TransitionSystem.Encoding
import InvariantProver.Session.Basic

namespace InvariantProver

theorem Formula.ofTerm_ref (r : Ref) : ofTerm (.ref r) = symbol r.text r.ty := by
  rw [ofTerm, Term.fold_ref, ofRef]

theorem Variable.symbolAt_eq_text (v : Variable) (i : Int) : v.symbolAt i = (Ref.mk v i).text := rfl

theorem Variable.symbolAt_eq_iff {v w : Variable} {i j : Int} :
    v.symbolAt i = w.symbolAt j ↔ v.name = w.name ∧ i = j := by
  constructor
  · intro h
    rw [symbolAt_eq_text, symbolAt_eq_text] at h
    exact Ref.text_injective h
  · rintro ⟨hname, rfl⟩
    rw [symbolAt, symbolAt, hname]

namespace TransitionSystem

/-- A variable at a step has one name for all solvers, from which its own name and the step can be told,
whatever characters the name has. Step variables of a system differ in it, so they are different symbols in
the textual language and different constants in memory. -/
theorem named_apart :
    (∀ (v : Variable) (i : Int), (Ref.mk v i).text = v.symbolAt i ∧
      Formula.ofTerm (.ref ⟨v, i⟩) = .symbol (v.symbolAt i) v.ty ∧
      (Ref.mk v i).smt = "|" ++ v.symbolAt i ++ "|") ∧
    (∀ (v w : Variable) (i j : Int), v.symbolAt i = w.symbolAt j ↔ v.name = w.name ∧ i = j) ∧
    ∀ (s : TransitionSystem) (r r' : Ref), r.var ∈ s.variables → r'.var ∈ s.variables → r ≠ r' →
      r.var.symbolAt r.step ≠ r'.var.symbolAt r'.step ∧
      Formula.ofTerm (.ref r) ≠ Formula.ofTerm (.ref r') ∧ r.smt ≠ r'.smt := by
  refine ⟨fun v i => ⟨rfl, Formula.ofTerm_ref ⟨v, i⟩, rfl⟩, fun v w i j => Variable.symbolAt_eq_iff, ?_⟩
  intro s r r' hr hr' hne
  have htext : r.text ≠ r'.text := fun h => hne (Ref.eq_of_text s.nodup_names hr hr' h)
  refine ⟨htext, ?_, ?_⟩
  · rw [Formula.ofTerm_ref, Formula.ofTerm_ref]
    intro h
    exact htext (Formula.symbol.inj h).1
  · intro h
    exact hne (Ref.eq_of_smt s.nodup_names hr hr' h)

def nested : TransitionSystem where
  «variables» := [⟨"x", .int, .state⟩, ⟨"x@1", .int, .state⟩]
  valid := rfl

theorem nested_named_apart :
    Variable.symbolAt ⟨"x@1", .int, .state⟩ 0 = "x@1@0" ∧ Variable.symbolAt ⟨"x", .int, .state⟩ 1 = "x@1" ∧
      Formula.ofTerm (.ref ⟨⟨"x@1", .int, .state⟩, 0⟩) ≠ Formula.ofTerm (.ref ⟨⟨"x", .int, .state⟩, 1⟩) ∧
      Ref.smt ⟨⟨"x@1", .int, .state⟩, 0⟩ ≠ Ref.smt ⟨⟨"x", .int, .state⟩, 1⟩ :=
  ⟨by decide +kernel, by decide +kernel,
    (named_apart.2.2 nested ⟨⟨"x@1", .int, .state⟩, 0⟩ ⟨⟨"x", .int, .state⟩, 1⟩
      (by decide) (by decide) (by decide)).2⟩

end TransitionSystem

end InvariantProver
