import InvariantProver.Proofs.Session.Mirrors
import InvariantProver.Proofs.Session.Printer

namespace InvariantProver.Attempt

/-- Attempts over pipes report what attempts in memory do: the same verdicts, depths, traces and
reasons. The solvers may print the answers of the oracles in any form that stands for them, on any
number of lines. Only their names are told apart. -/
theorem pipes_report_alike (s : TransitionSystem) (c : Config) (names : List String) (fuel : Nat)
    (oracle : Task → Oracle) (solver : Task → Solver) (timeout : Task → Int) (peer : Task → Peer)
    (name : Task → String)
    (h : ∀ task, Pipe.Ready s.variables (oracle task) (fun _ => False) (peer task)) :
    (outcome (run names fuel) (new s c false fun task =>
        Pipe.session (solver task) (timeout task) (peer task))).1.map (Option.map unsigned) =
      (outcome (run names fuel) (new s c false fun task =>
        Memory.session (name task) (oracle task))).1.map (Option.map unsigned) :=
  reports_alike (fun task => Pipe.twins s.variables (oracle task))
    (fun task => ⟨⟨solver task, timeout task, peer task, rfl, h task⟩, name task, rfl⟩) c names fuel

def tank : TransitionSystem where
  «variables» := [⟨"level", .rat, .state⟩]
  init := .app .ge [.ref ⟨⟨"level", .rat, .state⟩, 0⟩, .const (.rat 0)]
  trans := .app .le [.ref ⟨⟨"level", .rat, .state⟩, 1⟩, .ref ⟨⟨"level", .rat, .state⟩, 0⟩]
  properties := [("positive", .app .ge [.ref ⟨⟨"level", .rat, .state⟩, 0⟩, .const (.rat 0)])]
  name := "tank"
  valid := rfl

/-- Finds a model as soon as there are three assertions, with half a unit missing in every state. -/
def leaking : Oracle := fun ts =>
  if ts.length < 3 then { answer := .unsat }
  else { answer := .sat, model := fun _ => some (.exact (.rat (-1 / 2))) }

def leakingPeer : Peer := { react := leaking.printer }

theorem sensible_leaking : leaking.Sensible tank.variables where
  reasons := by
    intro ts
    unfold leaking
    split <;> simp
  values := by
    intro ts r hsat hr
    have hty : r.ty = .rat := by rw [Ref.ty, List.mem_singleton.mp hr]
    refine ⟨.rat (-1 / 2), ?_, hty.symm⟩
    unfold leaking at hsat ⊢
    split
    · next hfew =>
      rw [if_pos hfew] at hsat
      cases hsat
    · rfl

theorem ready_leakingPeer : Pipe.Ready tank.variables leaking (fun _ => False) leakingPeer where
  solves := Oracle.solves_printer sensible_leaking (by decide)
  present := rfl
  accepts := rfl
  running := rfl
  untold := rfl
  quiet := Peer.quiet_nil

def foundTrace? : Verdict → Option Trace
  | .falsified t => some t
  | _ => none

theorem eq_falsified_of_foundTrace? {v : Verdict} {t : Trace} (h : foundTrace? v = some t) :
    v = .falsified t := by
  cases v with
  | falsified found => rw [← Option.some.inj h]
  | proved | unknown => cases h

/-- The solver prints the missing half as the negation of a quotient, and the trace has it as such. -/
theorem leak_found :
    ∃ results t, (outcome (run ["positive"] 2) (new tank ⟨{}, rfl⟩ false fun _ =>
        Pipe.session (Solver.ofName "z3") 0 leakingPeer)).1.map (Option.map unsigned) =
          .ok (some results) ∧
      (Entries.get? "positive" results).map ProofResult.verdict = some (.falsified t) ∧
      t.states = List.replicate 2 [("level", .exact (.rat (-1 / 2)))] := by
  have hends : (((outcome (run ["positive"] 2) (new tank ⟨{}, rfl⟩ false fun _ =>
        Memory.session "memory" leaking)).1.map (Option.map unsigned)).toOption.join.bind fun results =>
      (Entries.get? "positive" results).bind fun r => foundTrace? r.verdict).map Trace.states =
        some (List.replicate 2 [("level", .exact (.rat (-1 / 2)))]) := by decide +kernel
  rw [pipes_report_alike tank ⟨{}, rfl⟩ ["positive"] 2 (fun _ => leaking)
    (fun _ => Solver.ofName "z3") (fun _ => 0) (fun _ => leakingPeer) (fun _ => "memory")
    fun _ => ready_leakingPeer]
  generalize (outcome (run ["positive"] 2) (new tank ⟨{}, rfl⟩ false fun _ =>
    Memory.session "memory" leaking)).1.map (Option.map unsigned) = q at hends ⊢
  rcases q with _ | _ | results
  · cases hends
  · cases hends
  obtain ⟨t, hfound, hstates⟩ := Option.map_eq_some_iff.mp hends
  obtain ⟨r, hr, ht⟩ : ∃ r, Entries.get? "positive" results = some r ∧ foundTrace? r.verdict = some t :=
    Option.bind_eq_some_iff.mp hfound
  refine ⟨results, t, rfl, ?_, hstates⟩
  rw [hr, Option.map_some, eq_falsified_of_foundTrace? ht]

end InvariantProver.Attempt
