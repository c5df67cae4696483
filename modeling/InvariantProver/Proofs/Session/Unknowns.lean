import InvariantProver.Proofs.Session.Acts
import InvariantProver.Proofs.Session.Piping

namespace InvariantProver.Pipe

open Peer

/-- What goes wrong when a solver is asked for the reason: it takes no command, reports an error, or prints
something that is not one S-expression. -/
def reasonFault? (solver : String) (p : Peer) : Option SolverFault :=
  match p.write .reasonUnknown with
  | .error fault => some (.stopped solver fault.message)
  | .ok asked =>
    match asked.read.1 with
    | .response text =>
      if "(error".toList.isPrefixOf text.toList then some (.reported solver text)
      else match SExpr.parseOne text with
        | .ok _ => none
        | .error e => some (.unreadable e)
    | .interruption _ | .ended => none

section

variable {link : Link Pipe} {peer left : Peer} {text : String} {reading : Reading}

theorem outcome_unread (hread : link.backend.peer.read = (reading, left))
    (hnone : ∀ text, reading ≠ .response text) : ∃ link', outcome response? link = (.ok none, link') := by
  unfold response?
  rw [outcome_bind_of_ok (outcome_get link)]
  simp only [hread]
  cases reading with
  | response text => exact absurd rfl (hnone text)
  | interruption cancels => exact ⟨_, rfl⟩
  | ended => exact ⟨_, rfl⟩

theorem outcome_parsed {e : SExpr} (hparse : SExpr.parseOne text = .ok e) :
    outcome (parsed text) link = (.ok e, link) := by
  unfold parsed
  rw [hparse]
  rfl

theorem outcome_parsed_of_error {e : ReadError} (hparse : SExpr.parseOne text = .error e) :
    outcome (parsed text) link = (.error (.solver (.unreadable e)), link) := by
  unfold parsed
  rw [hparse]
  rfl

theorem outcome_reasonUnknown (hgoing : link.interrupted = false) :
    match reasonFault? link.backend.solver.name link.backend.peer with
    | none => ∃ reason link', outcome reasonUnknown link = (.ok reason, link')
    | some fault => ∃ link', outcome reasonUnknown link = (.error (.solver fault), link') := by
  unfold reasonFault? reasonUnknown
  cases hwrite : link.backend.peer.write .reasonUnknown with
  | error fault =>
    rw [outcome_bind, outcome_send_of_fault hgoing hwrite]
    exact ⟨link, rfl⟩
  | ok asked =>
    rw [outcome_bind_of_ok (outcome_send hwrite)]
    rcases hread : asked.read with ⟨reading, left⟩
    have hread' : (withPeer asked link).backend.peer.read = (reading, left) := hread
    simp only [hread]
    cases reading with
    | interruption cancels =>
      obtain ⟨link', hresponse⟩ := outcome_unread hread' (by simp)
      rw [outcome_bind_of_ok hresponse]
      exact ⟨_, _, rfl⟩
    | ended =>
      obtain ⟨link', hresponse⟩ := outcome_unread hread' (by simp)
      rw [outcome_bind_of_ok hresponse]
      exact ⟨_, _, rfl⟩
    | response text =>
      dsimp only
      have hresponse := outcome_read hread'
      by_cases hreport : "(error".toList.isPrefixOf text.toList = true
      · rw [if_pos hreport] at hresponse ⊢
        rw [outcome_bind, hresponse]
        exact ⟨_, rfl⟩
      rw [if_neg hreport] at hresponse ⊢
      rw [outcome_bind_of_ok hresponse]
      cases hparse : SExpr.parseOne text with
      | error e =>
        rw [outcome_bind, outcome_parsed_of_error hparse]
        exact ⟨_, rfl⟩
      | ok e =>
        -- The reader of the reason gives the whole text for what is not a pair with an atom.
        rw [outcome_bind_of_ok (outcome_parsed hparse)]
        dsimp only
        split <;> exact ⟨_, _, rfl⟩

theorem outcome_check_unknown {asked : Peer} (hwrite : link.backend.peer.write .checkSat = .ok peer)
    (hread : peer.read = (.response "unknown", asked)) : outcome check link =
      outcome (do return .unknown (some (← reasonUnknown))) (withPeer asked (withPeer peer link)) := by
  have hread' : (withPeer peer link).backend.peer.read = (.response "unknown", asked) := hread
  have hresponse := outcome_read hread'
  rw [if_neg (by decide)] at hresponse
  unfold check
  rw [outcome_bind_of_ok (outcome_send hwrite), outcome_bind_of_ok hresponse]
  rfl

end

/-- To a session that is in use and not interrupted, a solver's `unknown` is the answer exactly if nothing goes
wrong with the question for the reason, and otherwise the check fails with what goes wrong there. -/
theorem unknown_iff_reason_read {s : Session Pipe} {peer asked : Peer} (hopen : s.closed = false)
    (hgoing : s.interrupted = false) (hwrite : s.link.backend.peer.write .checkSat = .ok peer)
    (hread : peer.read = (.response "unknown", asked)) :
    ((∃ reason s', outcome Session.check s = (.ok (.unknown reason), s')) ↔
      reasonFault? s.link.backend.solver.name asked = none) ∧
    ∀ fault, reasonFault? s.link.backend.solver.name asked = some fault →
      ∃ s', outcome Session.check s = (.error (.solver fault), s') := by
  have hcheck : outcome Backend.check s.link =
      outcome (do return .unknown (some (← reasonUnknown))) (withPeer asked (withPeer peer s.link)) :=
    outcome_check_unknown hwrite hread
  have hgoing' : (withPeer asked (withPeer peer s.link)).interrupted = false := hgoing
  have hreason := outcome_reasonUnknown hgoing'
  have hname : (withPeer asked (withPeer peer s.link)).backend.solver.name = s.link.backend.solver.name := rfl
  have hpeer : (withPeer asked (withPeer peer s.link)).backend.peer = asked := rfl
  rw [hname, hpeer] at hreason
  rw [Session.outcome_check, if_neg (by simp [hopen]), if_neg (by simp [hgoing]), hcheck]
  cases hfault : reasonFault? s.link.backend.solver.name asked with
  | none =>
    rw [hfault] at hreason
    obtain ⟨reason, link', hreason⟩ := hreason
    rw [outcome_bind_of_ok hreason, outcome_pure]
    refine ⟨⟨fun _ => rfl, fun _ => ?_⟩, fun fault h => nomatch h⟩
    dsimp only
    split <;> exact ⟨_, _, rfl⟩
  | some fault =>
    rw [hfault] at hreason
    obtain ⟨link', hreason⟩ := hreason
    rw [outcome_bind, hreason]
    refine ⟨⟨?_, fun h => nomatch h⟩, ?_⟩
    · rintro ⟨reason, s', hs⟩
      cases hs
    · intro fault' hfault'
      obtain rfl := Option.some.inj hfault'
      exact ⟨_, rfl⟩

def doubtful (reply : List Line) (commands : List Command) : List Line :=
  match commands.getLast? with
  | some .checkSat => [.text "unknown"]
  | some .reasonUnknown => reply
  | _ => []

def doubtfulSession (reply : List Line) : Session Pipe :=
  Pipe.session ⟨"z3", "z3", ["-in", "-smt2"]⟩ 0 { react := doubtful reply }

theorem unknown_unsupported :
    ∃ reason s', outcome Session.check (doubtfulSession [.text "unsupported"]) = (.ok (.unknown reason), s') :=
  (unknown_iff_reason_read rfl rfl rfl (by rfl)).1.mpr (by decide +kernel)

def evasiveSession : Session Pipe := doubtfulSession [.text "(error \"unsupported info\")"]

theorem unknown_taken_for_failure :
    evasiveSession.closed = false ∧ evasiveSession.interrupted = false ∧
      (∃ peer asked, evasiveSession.link.backend.peer.write .checkSat = .ok peer ∧
        peer.read = (.response "unknown", asked)) ∧
      (outcome Session.check evasiveSession).1.toOption = none :=
  ⟨rfl, rfl, ⟨_, _, rfl, by rfl⟩, by decide +kernel⟩

end InvariantProver.Pipe
