import InvariantProver.Proofs.Session.Models
import InvariantProver.Session.Pipe

namespace InvariantProver

theorem Recorded.obeys {σ : Type} [Backend σ] (h : Backend.Obeys σ) : Backend.Obeys (Recorded σ) where
  declare r link := h.declare r (link.map Recorded.inner)
  assert t link := h.assert t (link.map Recorded.inner)
  push link := h.push (link.map Recorded.inner)
  pop link := h.pop (link.map Recorded.inner)
  check link := h.check (link.map Recorded.inner)
  values refs link := h.values refs (link.map Recorded.inner)
  close link := h.close (link.map Recorded.inner)

namespace Pipe

theorem obeys_setPeer (peer : Peer) : Hook.Obeys (setPeer peer) := .modify _

theorem obeys_lost {α : Type} : Hook.Obeys (lost : Hook Pipe α) := .bind .get fun _ => .fault _

theorem obeys_send (c : Command) : Hook.Obeys (send c) := by
  refine .bind .get fun link => ?_
  split
  · exact obeys_setPeer _
  · split
    · exact .fault _
    · exact .pure _

theorem obeys_response : Hook.Obeys response? := by
  refine .bind .get fun link => ?_
  dsimp only
  split
  · refine .bind (obeys_setPeer _) fun _ => ?_
    exact .detour (fun h => .bind (.fault _) fun _ => h) (.pure _)
  · exact .bind (obeys_setPeer _) fun _ => .bind (.modify _) fun _ => .pure _
  · exact .bind (obeys_setPeer _) fun _ => .pure _

theorem obeys_parsed (text : String) : Hook.Obeys (parsed text) := by
  unfold parsed
  split
  · exact .pure _
  · exact .fault _

theorem obeys_reasonUnknown : Hook.Obeys reasonUnknown := by
  refine .bind (obeys_send _) fun _ => .bind obeys_response fun text? => ?_
  cases text? with
  | none => exact .bind .get fun _ => .pure _
  | some text =>
    refine .bind (obeys_parsed text) fun e => ?_
    split
    · exact .pure _
    · exact .pure _

theorem obeys_check : Hook.Obeys check := by
  refine .bind (obeys_send _) fun _ => .bind obeys_response fun text? => ?_
  cases text? with
  | none =>
    refine .bind .get fun link => ?_
    split
    · exact .pure _
    · exact obeys_lost
  | some text =>
    dsimp only
    split
    · exact .pure _
    · exact .pure _
    · exact .bind obeys_reasonUnknown fun _ => .pure _
    · exact .bind .get fun _ => .fault _

theorem obeys_entry (r : Ref) (e : SExpr) : Hook.Obeys (entry r e) := by
  unfold entry
  split
  · split
    · exact .pure _
    · exact .fault _
  · exact .bind .get fun _ => .fault _

theorem obeys_ask (refs : List Ref) : Hook.Obeys (ask refs) := by
  refine .bind (obeys_send _) fun _ => .bind obeys_response fun text? => ?_
  cases text? with
  | none => exact obeys_lost
  | some text =>
    have hunexpected {α : Type} : Hook.Obeys (do
        fail (.unexpectedValues (← get).backend.solver.name text) : Hook Pipe α) :=
      .bind .get fun _ => .fault _
    refine .bind (obeys_parsed text) fun e => ?_
    cases e with
    | atom _ => exact hunexpected
    | list entries =>
      refine .detour (fun _ => hunexpected) ?_
      exact .bind (.mapM _ fun pair => obeys_entry pair.1 pair.2) fun _ => .pure _

theorem obeys : Backend.Obeys Pipe where
  declare _ := obeys_send _
  assert _ := obeys_send _
  push := obeys_send _
  pop := obeys_send _
  check := obeys_check
  values refs := .detour (fun _ => .pure _) (obeys_ask refs)
  close := by
    refine .bind .get fun link => .detour (fun h => .bind (obeys_send _) fun _ => h) ?_
    exact .bind .get fun _ => obeys_setPeer _

end Pipe

def Event.misused (e : Event) : Bool :=
  match e.result with
  | .error (.misuse _) => true
  | _ => false

namespace Session

variable {σ : Type} [Backend σ] {s : Session σ} {act : Act}

theorem misused_iff : (s.event act).misused = true ↔ ∃ m, (outcome (perform act) s).1 = .error (.misuse m) := by
  unfold Event.misused event
  dsimp only
  split
  · next m hm => simp [hm]
  · next hnone =>
    constructor
    · intro h
      cases h
    · rintro ⟨m, hm⟩
      exact absurd hm (hnone m)

theorem refusal?_of_misuse (hobeys : Backend.Obeys σ) {m : Misuse}
    (h : (outcome (perform act) s).1 = .error (.misuse m)) : s.refusal? act = some m := by
  obtain ⟨m', hm'⟩ := Option.isSome_iff_exists.mp ((refuses_iff hobeys s act).mpr ⟨m, h⟩)
  rw [outcome_refused hm'] at h
  cases h
  exact hm'

theorem unchanged_of_misused (hobeys : Backend.Obeys σ) (h : (s.event act).misused = true) :
    (outcome (perform act) s).2 = s := by
  obtain ⟨m, hm⟩ := misused_iff.mp h
  rw [outcome_refused (refusal?_of_misuse hobeys hm)]

def rightful (s : Session σ) (acts : List Act) : List Act :=
  ((s.history acts).filter fun e => !e.misused).map Event.act

theorem history_of_misused (hobeys : Backend.Obeys σ) {acts : List Act} (h : (s.event act).misused = true) :
    s.history (act :: acts) = s.event act :: s.history acts := by
  rw [history, unchanged_of_misused hobeys h]

theorem rightful_of_misused (hobeys : Backend.Obeys σ) {acts : List Act} (h : (s.event act).misused = true) :
    s.rightful (act :: acts) = s.rightful acts := by
  unfold rightful
  rw [history_of_misused hobeys h, List.filter_cons_of_neg (by simp [h])]

theorem rightful_of_not_misused {acts : List Act} (h : (s.event act).misused = false) :
    s.rightful (act :: acts) = act :: (outcome (perform act) s).2.rightful acts := by
  unfold rightful
  rw [history, List.filter_cons_of_pos (by simp [h])]
  rfl

theorem converse_rightful (hobeys : Backend.Obeys σ) (s : Session σ) (acts : List Act) :
    s.converse (s.rightful acts) = s.converse acts := by
  induction acts generalizing s with
  | nil => rfl
  | cons act acts ih =>
    cases hmisused : (s.event act).misused with
    | true =>
      have hsame : s.converse (act :: acts) = s.converse acts :=
        congrArg (converse · acts) (unchanged_of_misused hobeys hmisused)
      rw [rightful_of_misused hobeys hmisused, ih, hsame]
    | false =>
      rw [rightful_of_not_misused hmisused]
      exact ih _

theorem history_rightful (hobeys : Backend.Obeys σ) (s : Session σ) (acts : List Act) :
    s.history (s.rightful acts) = (s.history acts).filter fun e => !e.misused := by
  induction acts generalizing s with
  | nil => rfl
  | cons act acts ih =>
    cases hmisused : (s.event act).misused with
    | true =>
      rw [rightful_of_misused hobeys hmisused, ih, history_of_misused hobeys hmisused,
        List.filter_cons_of_neg (by simp [hmisused])]
    | false =>
      rw [rightful_of_not_misused hmisused, history, history, List.filter_cons_of_pos (by simp [hmisused]), ih]

theorem history_erase (t : Session (Recorded σ)) (acts : List Act) : t.erase.history acts = t.history acts := by
  induction acts generalizing t with
  | nil => rfl
  | cons act acts ih =>
    rw [history, history, event, event, erase_perform, refusal?_erase, ih]

/-- An operation that ends as a misuse has broken a rule of the session. It leaves the session as it was, and
nothing reaches the back end. Whatever is asked for before and after it, every other operation ends as it would
without it. -/
theorem misuse_changes_nothing (hobeys : Backend.Obeys σ) (s : Session σ) :
    (∀ act m, (outcome (perform act) s).1 = .error (.misuse m) →
      s.refusal? act = some m ∧ (outcome (perform act) s).2 = s ∧
        (outcome (perform act) s.recorded).2.calls = []) ∧
    ∀ acts, s.converse (s.rightful acts) = s.converse acts ∧
      s.history (s.rightful acts) = (s.history acts).filter (fun e => !e.misused) ∧
      (s.recorded.converse (s.rightful acts)).calls = (s.recorded.converse acts).calls := by
  refine ⟨fun act m hm => ?_, fun acts => ?_⟩
  · have hrefusal := refusal?_of_misuse hobeys hm
    have hrecorded : s.recorded.refusal? act = some m := by rwa [← refusal?_erase, erase_recorded]
    rw [outcome_refused hrefusal, outcome_refused hrecorded]
    exact ⟨hrefusal, rfl, rfl⟩
  · have hrightful : s.recorded.rightful acts = s.rightful acts := by
      unfold rightful
      rw [← history_erase, erase_recorded]
    refine ⟨converse_rightful hobeys s acts, history_rightful hobeys s acts, ?_⟩
    rw [← hrightful, converse_rightful (Recorded.obeys hobeys)]

def slippedFlag : Variable := ⟨"x", .bool, .state⟩

def slips : List Act :=
  [.declare slippedFlag (-1), .declare slippedFlag 0, .declare slippedFlag 0, .assert (.const (.int 1)),
    .assert (.ref ⟨slippedFlag, 1⟩), .pop, .values [], .check, .values [⟨slippedFlag, 1⟩], .close, .push]

def slippery : Session Pipe :=
  Pipe.session ⟨"z3", "z3", ["-in", "-smt2"]⟩ 0
    { react := fun commands => if commands.getLast? = some .checkSat then [.text "sat"] else [] }

theorem slips_ignored :
    slippery.converse slips = slippery.converse [.declare slippedFlag 0, .check, .close] ∧
      (slippery.recorded.converse slips).calls = [.declare slippedFlag 0, .check, .close] ∧
      (outcome (perform .pop) slippery).2 = slippery := by
  obtain ⟨hone, hall⟩ := misuse_changes_nothing Pipe.obeys slippery
  obtain ⟨hsame, -, hcalls⟩ := hall slips
  have hrightful : slippery.rightful slips = [.declare slippedFlag 0, .check, .close] := by decide +kernel
  rw [hrightful] at hsame hcalls
  refine ⟨hsame.symm, ?_, (hone .pop .unmatchedPop rfl).2.1⟩
  rw [← hcalls]
  decide +kernel

end Session

end InvariantProver
