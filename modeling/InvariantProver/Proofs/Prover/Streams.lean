import InvariantProver.Proofs.Prover.Calls
import InvariantProver.Proofs.Prover.Inheritance
import InvariantProver.Proofs.Session.Transcripts
import InvariantProver.Prover.Attempt

namespace InvariantProver

open Session Pipe

def Pipe.Started (t : Session Pipe) : Prop :=
  ∃ solver timeout peer, peer.received = [] ∧ outcome Session.start (session solver timeout peer) = (.ok (), t)

theorem Pipe.Started.transcribed {t : Session Pipe} (h : Started t) (vs : List Variable) : Transcribed vs t := by
  obtain ⟨solver, timeout, peer, hnew, hs⟩ := h
  obtain ⟨-, rfl⟩ := Prod.mk.inj hs
  have hfresh : Written vs [[]] false (session solver timeout peer).link := by
    refine ⟨{}, ?_, .inr ⟨⟨rfl, by simp⟩, by simp⟩⟩
    change Legible peer.received {}
    rw [hnew]
    exact .new
  exact ⟨by simp [session], written_start hfresh rfl trivial⟩

theorem Pipe.keeps_going {going : Bool} (c : Command) :
    Keeps .any (fun link => link.interrupted = going) (send c) := by
  intro link link' r h hs _
  rcases send_cases hs with ⟨peer, -, -, rfl⟩ | ⟨-, rfl, -⟩
  · exact h
  · exact h

theorem Pipe.Started.going {t : Session Pipe} (h : Started t) : t.link.interrupted = false := by
  obtain ⟨solver, timeout, peer, -, hs⟩ := h
  obtain ⟨-, rfl⟩ := Prod.mk.inj hs
  have hkeeps : Keeps .any (fun link => link.interrupted = false) Pipe.start :=
    keeps_start (fun _ _ h => h) fun _ _ _ _ => keeps_going _
  exact hkeeps (s := (session solver timeout peer).link) rfl rfl trivial

def Engine.Readable (e : Engine Pipe) : Prop := ∃ stage, Legible e.session.link.backend.peer.received stage

namespace Engine

variable {s : TransitionSystem} {e e' : Engine Pipe}

theorem bears_on {σ : Type} [Backend σ] {P : Session σ → Prop} (hP : Session.Preserves s.variables P) :
    Bears .any (On s P) :=
  ⟨on_advance hP, on_base hP, on_step hP⟩

def Wrote (c : Command) (t : Session Pipe) : Prop := c ∈ t.link.backend.peer.received

theorem preserves_wrote (vs : List Variable) (c : Command) : Session.Preserves vs (Wrote c) :=
  fun act _ _ => keeps_perform (written_stays c) act

theorem declare_wrote {v : Variable} {step : Int} {t t' : Session Pipe} (hgoing : t.link.interrupted = false)
    (hs : outcome (Session.declare v step) t = (.ok (), t')) :
    t'.link.interrupted = false ∧ Wrote (.declare ⟨v, step⟩) t' := by
  rw [outcome_declare] at hs
  split at hs
  · cases (Prod.mk.inj hs).1
  split at hs
  · cases (Prod.mk.inj hs).1
  split at hs
  · cases (Prod.mk.inj hs).1
  · rcases hsend : outcome (send (.declare ⟨v, step⟩)) t.link with ⟨q, link⟩
    have hhook : outcome (Backend.declare ⟨v, step⟩ : Hook Pipe Unit) t.link = (q, link) := hsend
    rw [outcome_hook, addDeclared_eq, hhook] at hs
    obtain ⟨rfl, rfl⟩ := Prod.mk.inj hs
    rcases send_cases hsend with ⟨peer, hwrite, -, rfl⟩ | ⟨-, -, hfails⟩
    · refine ⟨hgoing, ?_⟩
      change _ ∈ peer.received
      rw [(Peer.write_eq_ok hwrite).2]
      exact List.mem_append_right _ (List.mem_singleton_self _)
    · obtain ⟨error, herror⟩ := hfails hgoing
      cases herror

theorem declares_wrote {vs : List Variable} {step : Int} (hgoing : e.session.link.interrupted = false)
    (hs : outcome (vs.forM fun v => talk (Session.declare v step)) e = (.ok (), e')) :
    ∀ v ∈ vs, On e.system (Wrote (.declare ⟨v, step⟩)) e' := by
  induction vs generalizing e with
  | nil => simp
  | cons v vs ih =>
    obtain ⟨⟨⟩, e₁, hdeclared, hrest⟩ := outcome_bind_ok.mp hs
    obtain ⟨t, hdeclare, rfl⟩ := talk_eq_ok hdeclared
    obtain ⟨hgoing', hwrote⟩ := declare_wrote hgoing hdeclare
    have hstays : Keeps .any (On e.system (Wrote (.declare ⟨v, step⟩)))
        (vs.forM fun v => talk (Session.declare v step)) :=
      .forM vs fun w _ => on_talk (keeps_op (written_stays _) (.declare w step) rfl)
    intro w hw
    rcases List.mem_cons.mp hw with rfl | hw
    · exact hstays (s := { e with session := t }) ⟨rfl, hwrote⟩ hrest trivial
    · exact ih (e := { e with session := t }) hgoing' hrest w hw

theorem advance_wrote (hgoing : e.session.link.interrupted = false) (hs : outcome advance e = (.ok (), e')) :
    ∀ v ∈ e.system.variables, On e.system (Wrote (.declare ⟨v, e.placed⟩)) e' := by
  intro v hv
  unfold advance at hs
  rw [outcome_bind_of_ok (outcome_get e)] at hs
  obtain ⟨⟨⟩, e₁, hdeclares, hrest⟩ := outcome_bind_ok.mp hs
  have hstays : Keeps .any (On e.system (Wrote (.declare ⟨v, e.placed⟩))) (do
      (e.task.assumptions e.system e.placed).forM fun t => talk (Session.assert t)
      modify fun e => { e with placed := e.placed + 1 }) :=
    .bind (.forM _ fun t _ => on_talk (keeps_op (written_stays _) (.assert t) rfl)) fun _ =>
      .modify fun _ h => ⟨h.system, h.session⟩
  exact hstays (declares_wrote hgoing hdeclares v hv) hrest trivial

end Engine

namespace Engines

open Engine

variable {s : TransitionSystem} {base step : Session Pipe} {e : Engines Pipe} {P : Session Pipe → Prop}

theorem Each.get (h : e.Each (On s P) (On s P)) (task : Task) : P (e.get task).session := by
  cases task with
  | base => exact h.base.session
  | step => exact h.step.session

theorem start_wrote (hbase : Started base) (hstep : Started step)
    (hs : outcome start (new s base step) = (.ok (), e)) {v : Variable} (hv : v ∈ s.variables) :
    e.Each (On s (Wrote (.declare ⟨v, 0⟩))) (On s (Wrote (.declare ⟨v, 0⟩))) := by
  obtain ⟨⟨⟩, e₁, hstartBase, hstartStep⟩ := outcome_bind_ok.mp hs
  obtain ⟨b, hb, rfl⟩ := onBase_eq hstartBase
  obtain ⟨t, ht, rfl⟩ := onStep_eq hstartStep
  obtain ⟨⟨⟩, t₁, ht₁, ht₂⟩ := outcome_bind_ok.mp ht
  have hfirst : On s (Wrote (.declare ⟨v, 0⟩)) t₁ := advance_wrote hstep.going ht₁ v hv
  exact ⟨advance_wrote hbase.going hb v hv, on_advance (preserves_wrote _ _) hfirst ht₂ trivial⟩

theorem transcribed_after {r : Except ProofError Unit} (hbase : Started base) (hstep : Started step)
    (hs : outcome start (new s base step) = (r, e)) (hbars : ∀ v ∈ s.variables, '|' ∉ v.name.toList)
    (calls : List Call) :
    (e.after calls).Each (On s (Transcribed s.variables)) (On s (Transcribed s.variables)) := by
  have hbears : Bears .any (On s (Transcribed s.variables)) :=
    bears_on fun _ hconcerns hclose => transcribed_perform s.nodup_names hbars hconcerns hclose
  have hnew : (new s base step).Each (On s (Transcribed s.variables)) (On s (Transcribed s.variables)) :=
    ⟨⟨rfl, hbase.transcribed _⟩, rfl, hstep.transcribed _⟩
  exact (keeps_start hbears hbears hnew hs trivial).after hbears hbears calls

/-- Whatever happens when two engines are started and whatever they are used for then, solvers can read what
has been written to them, if no state variable has a bar in its name. The symbols of such variables are
different at all steps. Engines that have been started over a variable with a bar in its name have written what
solvers cannot read. -/
theorem readable_unless_barred {r : Except ProofError Unit} (hbase : Started base) (hstep : Started step)
    (hs : outcome start (new s base step) = (r, e)) (calls : List Call) (task : Task) :
    (∀ ref ref' : Ref, ref.var ∈ s.variables → ref'.var ∈ s.variables → ref.smt = ref'.smt → ref = ref') ∧
      ((∀ v ∈ s.variables, '|' ∉ v.name.toList) → ((e.after calls).get task).Readable) ∧
      (r = .ok () → ((e.after calls).get task).Readable → ∀ v ∈ s.variables, '|' ∉ v.name.toList) := by
  refine ⟨fun ref ref' href href' hsmt => ?_, fun hbars => ?_, fun hr hreadable v hv => ?_⟩
  · exact Ref.eq_of_smt s.nodup_names href href' hsmt
  · obtain ⟨stage, hlegible, -⟩ := ((transcribed_after hbase hstep hs hbars calls).get task).written
    exact ⟨stage, hlegible⟩
  · subst hr
    have hbears : Bears .any (On s (Wrote (.declare ⟨v, 0⟩))) := bears_on (preserves_wrote _ _)
    have hwrote := ((start_wrote hbase hstep hs hv).after hbears hbears calls).get task
    obtain ⟨stage, hlegible⟩ := hreadable
    obtain ⟨before, after, hlegal⟩ := hlegible.legal hwrote
    exact Command.not_mem_of_legal_declare hlegal

def denies : Peer where
  react commands := match commands.getLast? with
    | some .checkSat => [.text "unsat"]
    | _ => []

def denying : Session Pipe := (outcome Session.start (session (Solver.ofName "cvc5") 0 denies)).2

theorem started_denying : Started denying := ⟨Solver.ofName "cvc5", 0, denies, rfl, rfl⟩

/-- A lamp whose name has blanks and brackets in it, and what looks like a step. -/
def lamp : TransitionSystem where
  «variables» := [⟨"lamp (at 1) on@0", .bool, .state⟩]
  init := .ref ⟨⟨"lamp (at 1) on@0", .bool, .state⟩, 0⟩
  trans := .ref ⟨⟨"lamp (at 1) on@0", .bool, .state⟩, 1⟩
  properties := [("on", .ref ⟨⟨"lamp (at 1) on@0", .bool, .state⟩, 0⟩)]
  name := "lamp"
  valid := rfl

theorem readable_lamp : ∃ e, outcome start (new lamp denying denying) = (.ok (), e) ∧
    ((e.after [.checkBase ["on"], .advanceBase, .advanceStep, .run "on" none [] 1]).get .base).Readable := by
  have hstarts : (outcome start (new lamp denying denying)).1.isOk = true := by decide +kernel
  rcases hs : outcome start (new lamp denying denying) with ⟨error | ⟨⟩, e⟩
  · rw [hs] at hstarts
    cases hstarts
  · have hall := readable_unless_barred started_denying started_denying hs
      [.checkBase ["on"], .advanceBase, .advanceStep, .run "on" none [] 1] .base
    exact ⟨e, rfl, hall.2.1 (by decide)⟩

def barred : TransitionSystem where
  «variables» := [⟨"a|b", .bool, .state⟩]
  init := .ref ⟨⟨"a|b", .bool, .state⟩, 0⟩
  trans := .ref ⟨⟨"a|b", .bool, .state⟩, 1⟩
  properties := [("on", .ref ⟨⟨"a|b", .bool, .state⟩, 0⟩)]
  name := "barred"
  valid := rfl

def barredEngines : Engines Pipe := (outcome start (new barred denying denying)).2

theorem barred_unreadable : (outcome start (new barred denying denying)).1.isOk = true ∧
    barredEngines.base.session.link.backend.peer.received =
      [.setOption "print-success" "false", .setOption "produce-models" "true",
        .declare ⟨⟨"a|b", .bool, .state⟩, 0⟩, .assert barred.init] ∧
    (Command.declare ⟨⟨"a|b", .bool, .state⟩, 0⟩).text = "(declare-const |a|b@0| Bool)" ∧
    (SExpr.parseOne "(declare-const |a|b@0| Bool)").toOption = none ∧ ¬ barredEngines.base.Readable := by
  refine ⟨by decide +kernel, by decide +kernel, by rfl, by decide +kernel, ?_⟩
  rintro ⟨stage, hlegible⟩
  have hwrote : Wrote (.declare ⟨⟨"a|b", .bool, .state⟩, 0⟩) barredEngines.base.session := by
    unfold Wrote
    decide +kernel
  obtain ⟨before, after, hlegal⟩ := hlegible.legal hwrote
  exact absurd (Command.not_mem_of_legal_declare hlegal) (by decide)

end Engines

end InvariantProver
