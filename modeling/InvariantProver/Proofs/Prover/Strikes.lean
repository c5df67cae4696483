import InvariantProver.Proofs.Prover.Cancellation
import InvariantProver.Proofs.Prover.Standalone
import InvariantProver.Proofs.Session.Printer
import InvariantProver.Proofs.Session.Strikes
import InvariantProver.Prover.Request

namespace InvariantProver

open Session

namespace Attempt

open InductionStep (latch)

def withCvc5 : Config := ⟨{ depthBound := some 3, solver := "cvc5" }, rfl⟩

theorem place_withCvc5 (m : Machine) : withCvc5.place m = .ok (.external (Solver.ofName "cvc5")) := rfl

end Attempt

end InvariantProver
