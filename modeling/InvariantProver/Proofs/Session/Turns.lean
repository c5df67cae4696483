import InvariantProver.Proofs.Session.Conversation
import InvariantProver.Proofs.Session.Exchanges
import InvariantProver.Proofs.Session.Responses

namespace InvariantProver

namespace Pipe

open Peer

def reasonIn (text : String) : String :=
  match SExpr.parseOne text with
  | .ok (.list [_, .atom reason]) => reason
  | _ => text

def Tells (text : String) (a : Answer) : Prop := String.ofList (Text.trim text.toList) = a.text

section

variable {react : List Command → List Line} {link link' : Link Pipe} {c : Command}
  {interrupted : Bool}

def Turns (react : List Command → List Line) (interrupted : Bool) (link : Link Pipe) : Prop :=
  InTurn react link.backend.peer ∧ link.interrupted = interrupted

theorem response_cases {text : String} {rest : List Line}
    (hgather : gather none link.backend.peer.unread = (.response text, rest)) :
    ∃ r, outcome response? link = (r, withPeer { link.backend.peer with unread := rest } link) ∧
      (r = .ok (some text) ∨ ∃ e, r = .error e) := by
  refine ⟨_, outcome_read (read_of_gather hgather), ?_⟩
  split
  · exact .inr ⟨_, rfl⟩
  · exact .inl rfl

theorem response_past {r : Except SessionError (Option String)} (h : InTurn react link.backend.peer)
    (hlistens : link.backend.peer.listens = false) (hs : outcome response? link = (r, link')) :
    InTurn react link'.backend.peer ∧ link'.interrupted = link.interrupted ∧
      ((∃ text ∈ link.backend.peer.unclaimed, r = .ok (some text)) ∨ r = .ok none ∨ ∃ e, r = .error e) := by
  obtain ⟨owed, hqueue, hsuffix, -⟩ := h.queue
  cases hqueue with
  | nil hquiet =>
    have hended := outcome_ended link (gather_of_quiet hquiet)
    obtain ⟨rfl, rfl⟩ := Prod.mk.inj (hended.symm.trans hs)
    have hread := h.read hlistens (.nil quiet_nil) List.nil_suffix
    exact ⟨hread.finish hlistens, rfl, .inr (.inl rfl)⟩
  | @cons text texts _ rest hgather hrest =>
    obtain ⟨r', hread, hr'⟩ := response_cases hgather
    obtain ⟨rfl, rfl⟩ := Prod.mk.inj (hread.symm.trans hs)
    refine ⟨h.read hlistens hrest ((List.suffix_cons _ _).trans hsuffix), rfl, ?_⟩
    rcases hr' with rfl | ⟨e, rfl⟩
    · exact .inl ⟨text, hsuffix.subset (List.mem_cons_self ..), rfl⟩
    · exact .inr (.inr ⟨e, rfl⟩)

variable (hlawful : Lawful react)
include hlawful

theorem turns_tell (hc : c.isQuestion = false) : Keeps .any (Turns react interrupted) (send c) := by
  rintro link link' r ⟨h, hinterrupted⟩ hs -
  rcases send_cases hs with ⟨peer, hwrite, -, rfl⟩ | ⟨-, rfl, -⟩
  · refine ⟨?_, hinterrupted⟩
    cases hlistens : link.backend.peer.listens with
    | true =>
      obtain rfl := Except.ok.inj ((write_given hlistens).symm.trans hwrite)
      exact h.tell hlawful hlistens hc
    | false => exact (h.write_past hlistens hwrite).1
  · exact ⟨h, hinterrupted⟩

theorem ask_in_turn {r : Except SessionError (Option String)} (h : InTurn react link.backend.peer)
    (hc : c.isQuestion = true) (hs : outcome (do send c; response?) link = (r, link')) :
    InTurn react link'.backend.peer ∧ link'.interrupted = link.interrupted ∧
      ((link.backend.peer.listens = true ∧ ∃ text,
          turn react link.backend.peer.heeded c = some text ∧
          link'.backend.peer.heeded = link.backend.peer.heeded ++ [c] ∧
          link'.backend.peer.isRunning = true ∧ (r = .ok (some text) ∨ ∃ e, r = .error e)) ∨
        link.backend.peer.listens = false ∧ ((∃ e, r = .error e) ∨
          (link.interrupted = false → link.backend.peer.isRunning = false) ∧
            ((∃ text ∈ link.backend.peer.unclaimed, r = .ok (some text)) ∨ r = .ok none))) := by
  cases hlistens : link.backend.peer.listens with
  | true =>
    obtain ⟨text, rest, hgather, hturn, hnext⟩ := h.ask hlawful hlistens hc
    have hgather' : gather none (withPeer (link.backend.peer.given c) link).backend.peer.unread =
      (.response text, rest) := hgather
    obtain ⟨r', hread, hr'⟩ := response_cases hgather'
    rw [outcome_bind_of_ok (outcome_send (write_given hlistens)), hread] at hs
    obtain ⟨rfl, rfl⟩ := Prod.mk.inj hs
    refine ⟨hnext, rfl, .inl ⟨rfl, text, hturn, h.heeded_given hlistens c, ?_, hr'⟩⟩
    exact (listens_iff.mp hlistens).1
  | false =>
    rw [outcome_bind] at hs
    rcases hsend : outcome (send c) link with ⟨e | u, link₁⟩
    · rw [hsend] at hs
      obtain ⟨rfl, rfl⟩ := Prod.mk.inj hs
      rcases send_cases hsend with ⟨peer, -, hok, -⟩ | ⟨-, rfl, -⟩
      · cases hok
      · exact ⟨h, rfl, .inr ⟨rfl, .inl ⟨e, rfl⟩⟩⟩
    · rw [hsend] at hs
      rcases send_cases hsend with ⟨peer, hwrite, -, rfl⟩ | ⟨-, rfl, hfails⟩
      · obtain ⟨hpast, hlistens', hunclaimed⟩ := h.write_past hlistens hwrite
        have hpast' : InTurn react (withPeer peer link).backend.peer := hpast
        have hended : link.backend.peer.isRunning = false := by
          by_contra hrunning
          have haccepts : link.backend.peer.accepts = some 0 := by
            by_contra haccepts
            rw [listens_iff.mpr ⟨(Bool.not_eq_false _).mp hrunning, haccepts⟩] at hlistens
            cases hlistens
          rw [Peer.write, if_pos haccepts] at hwrite
          cases hwrite
        obtain ⟨hnext, hinterrupted, hr⟩ := response_past hpast' hlistens' hs
        refine ⟨hnext, hinterrupted, .inr ⟨rfl, ?_⟩⟩
        rcases hr with ⟨text, htext, rfl⟩ | rfl | hr
        · exact .inr ⟨fun _ => hended, .inl ⟨text, hunclaimed ▸ htext, rfl⟩⟩
        · exact .inr ⟨fun _ => hended, .inr rfl⟩
        · exact .inl hr
      · have hinterrupted : link₁.interrupted = false → link₁.backend.peer.isRunning = false := by
          intro hgoing
          obtain ⟨e, he⟩ := hfails hgoing
          cases he
        obtain ⟨hnext, hsame, hr⟩ := response_past h hlistens hs
        refine ⟨hnext, hsame, .inr ⟨rfl, ?_⟩⟩
        rcases hr with hr | hr | hr
        · exact .inr ⟨hinterrupted, .inl hr⟩
        · exact .inr ⟨hinterrupted, .inr hr⟩
        · exact .inl hr

theorem turns_ask (hc : c.isQuestion = true) : Keeps .any (Turns react interrupted) (do send c; response?) :=
  fun _ _ _ h hs _ =>
    have hasked := ask_in_turn hlawful h.1 hc hs
    ⟨hasked.1, hasked.2.1.trans h.2⟩

theorem turns_start : Keeps .any (Turns react interrupted) start :=
  keeps_start (fun _ argv h => ⟨h.1.note_started argv, h.2⟩) fun _ _ _ _ => turns_tell hlawful rfl

theorem turns_check : Keeps .any (Turns react interrupted) check :=
  (leads_check (turns_ask hlawful rfl).leads (turns_ask hlawful rfl)).keeps

theorem turns_close : Keeps .any (Turns react interrupted) close :=
  keeps_close (turns_tell hlawful rfl) fun _ h => ⟨h.1.shut, h.2⟩

omit hlawful in
theorem inTurn_of_turns {α : Type} {m : Hook Pipe α}
    (h : ∀ interrupted, Keeps .any (Turns react interrupted) m) :
    Keeps .any (fun link => InTurn react link.backend.peer) m :=
  fun link _ _ hlink hs hr => (h link.interrupted ⟨hlink, rfl⟩ hs hr).1

theorem preserves_inTurn : Backend.Preserves (σ := Pipe) fun link => InTurn react link.backend.peer where
  start := inTurn_of_turns fun _ => turns_start hlawful
  declare _ := inTurn_of_turns fun _ => turns_tell hlawful rfl
  assert _ := inTurn_of_turns fun _ => turns_tell hlawful rfl
  push := inTurn_of_turns fun _ => turns_tell hlawful rfl
  pop := inTurn_of_turns fun _ => turns_tell hlawful rfl
  check := inTurn_of_turns fun _ => turns_check hlawful
  values _ := inTurn_of_turns fun _ => keeps_values fun _ => turns_ask hlawful rfl
  close := inTurn_of_turns fun _ => turns_close hlawful
  interrupted _ h := h
  interrupt _ h := h.kill

theorem reason_in_turn {reason : String} (h : InTurn react link.backend.peer) (hgoing : link.interrupted = false)
    (hrunning : link.backend.peer.isRunning = true)
    (hs : outcome reasonUnknown link = (.ok reason, link')) :
    ∃ info, turn react link.backend.peer.heeded .reasonUnknown = some info ∧
      reason = reasonIn info := by
  unfold reasonUnknown at hs
  rw [← bind_assoc] at hs
  obtain ⟨x, link₁, hasked, hs⟩ := outcome_bind_ok.mp hs
  obtain ⟨-, -, ⟨-, text, hturn, -, -, hx⟩ | ⟨-, hpast⟩⟩ := ask_in_turn hlawful h rfl hasked
  · rcases hx with hx | ⟨e, he⟩
    · obtain rfl := Except.ok.inj hx
      obtain ⟨e, link₂, hparsed, hgiven⟩ := outcome_bind_ok.mp hs
      obtain ⟨hparse, rfl⟩ := parsed_eq_ok hparsed
      refine ⟨text, hturn, ?_⟩
      unfold reasonIn
      rw [hparse]
      split at hgiven
      · obtain ⟨rfl, -⟩ := outcome_pure_ok.mp hgiven
        rfl
      · next hother =>
        obtain ⟨rfl, -⟩ := outcome_pure_ok.mp hgiven
        split
        · next heq => exact absurd (Except.ok.inj heq) (hother _ _)
        · rfl
    · cases he
  · rcases hpast with ⟨e, he⟩ | ⟨hended, -⟩
    · cases he
    · rw [hended hgoing] at hrunning
      cases hrunning

theorem check_in_turn {a : Answer} (h : InTurn react link.backend.peer) (hgoing : link.interrupted = false)
    (hs : outcome check link = (.ok a, link')) :
    ∃ text, Tells text a ∧
      ((turn react link.backend.peer.heeded .checkSat = some text ∧
          ∀ reason, a = .unknown reason → ∃ info,
            turn react (link.backend.peer.heeded ++ [.checkSat]) .reasonUnknown = some info ∧
            reason = some (reasonIn info)) ∨
        link.backend.peer.listens = false ∧ text ∈ link.backend.peer.unclaimed) := by
  unfold check at hs
  rw [← bind_assoc] at hs
  obtain ⟨x, link₁, hasked, hs⟩ := outcome_bind_ok.mp hs
  obtain ⟨hnext, hinterrupted, hcases⟩ := ask_in_turn hlawful h rfl hasked
  rw [hgoing] at hinterrupted
  cases x with
  | none =>
    rw [outcome_bind_of_ok (outcome_get link₁), outcome_ite, if_neg (by simp [hinterrupted])] at hs
    cases (Prod.mk.inj hs).1
  | some text =>
    dsimp only at hs
    have hword : Tells text a ∧ ∀ reason, a = .unknown reason →
        ∃ told link₂, outcome reasonUnknown link₁ = (.ok told, link₂) ∧ reason = some told := by
      unfold Tells
      split at hs
      · next hword =>
        obtain ⟨rfl, -⟩ := outcome_pure_ok.mp hs
        exact ⟨hword, by simp⟩
      · next hword =>
        obtain ⟨rfl, -⟩ := outcome_pure_ok.mp hs
        exact ⟨hword, by simp⟩
      · next hword =>
        obtain ⟨told, link₂, hreason, hgiven⟩ := outcome_bind_ok.mp hs
        obtain ⟨rfl, -⟩ := outcome_pure_ok.mp hgiven
        exact ⟨hword, fun reason hsame => ⟨told, link₂, hreason, (Answer.unknown.inj hsame).symm⟩⟩
      · cases (Prod.mk.inj hs).1
    refine ⟨text, hword.1, ?_⟩
    rcases hcases with ⟨-, text', hturn, hheeded, hrunning, hr⟩ | ⟨hlistens, hr⟩
    · rcases hr with hr | ⟨e, he⟩
      · obtain rfl := Option.some.inj (Except.ok.inj hr)
        refine .inl ⟨hturn, fun reason hreason => ?_⟩
        obtain ⟨told, link₂, htold, rfl⟩ := hword.2 reason hreason
        obtain ⟨info, hinfo, rfl⟩ := reason_in_turn hlawful hnext hinterrupted hrunning htold
        rw [hheeded] at hinfo
        exact ⟨info, hinfo, rfl⟩
      · cases he
    · refine .inr ⟨hlistens, ?_⟩
      rcases hr with ⟨e, he⟩ | ⟨-, ⟨text', htext, hr⟩ | hr⟩
      · cases he
      · obtain rfl := Option.some.inj (Except.ok.inj hr)
        exact htext
      · cases hr

theorem values_in_turn {refs : List Ref} {entries : Entries Ref Value}
    (h : InTurn react link.backend.peer) (hrefs : refs ≠ [])
    (hs : outcome (values refs) link = (.ok entries, link')) :
    ∃ text, Lists text refs entries ∧
      (turn react link.backend.peer.heeded (.getValue refs) = some text ∨
        link.backend.peer.listens = false ∧ text ∈ link.backend.peer.unclaimed) := by
  unfold values at hs
  rw [if_neg hrefs] at hs
  obtain ⟨text, link₁, hasked, hlists⟩ := ask_eq_ok hs
  refine ⟨text, hlists, ?_⟩
  obtain ⟨-, -, ⟨-, text', hturn, -, -, hr⟩ | ⟨hlistens, hr⟩⟩ := ask_in_turn hlawful h rfl hasked
  · rcases hr with hr | ⟨e, he⟩
    · obtain rfl := Option.some.inj (Except.ok.inj hr)
      exact .inl hturn
    · cases he
  · refine .inr ⟨hlistens, ?_⟩
    rcases hr with ⟨e, he⟩ | ⟨-, ⟨text', htext, hr⟩ | hr⟩
    · cases he
    · obtain rfl := Option.some.inj (Except.ok.inj hr)
      exact htext
    · cases hr

theorem inTurn_converse {s : Session Pipe} (h : InTurn react s.link.backend.peer) (acts : List Act) :
    InTurn react (s.converse acts).link.backend.peer := by
  induction acts generalizing s with
  | nil => exact h
  | cons act acts ih => exact ih (Session.keeps_perform (preserves_inTurn hlawful) act h rfl trivial)

end

def Answers (react : List Command → List Line) (commands : List Command) (a : Answer) : Prop :=
  ∃ text, heard? (react (commands ++ [.checkSat])) = some text ∧ Tells text a ∧
    ∀ reason, a = .unknown reason → ∃ info,
      heard? (react (commands ++ [.checkSat] ++ [.reasonUnknown])) = some info ∧
      reason = some (reasonIn info)

section

variable {react : List Command → List Line} {s s' : Session Pipe} (hlawful : Lawful react)
  (h : InTurn react s.link.backend.peer)
include hlawful h

omit hlawful in
theorem unclaimed_of_unreported (hlawful : Lawful react)
    (hunreported : Unreported react s.link.backend.peer.heeded) :
    s.link.backend.peer.unclaimed = [] := by
  rw [unclaimed, h.react, ← hlawful.length_responses hunreported, List.drop_length]

theorem check_cases {a : Answer} (hs : outcome Session.check s = (.ok a, s')) :
    s.interrupted = true ∨ s.link.interrupted = false ∧ ∃ link, outcome check s.link = (.ok a, link) := by
  rw [Session.outcome_check] at hs
  split at hs
  · cases (Prod.mk.inj hs).1
  split at hs
  · next hinterrupted => exact .inl hinterrupted
  · next hgoing =>
    have hgoing' : s.link.interrupted = false := (Bool.not_eq_true _).mp hgoing
    refine .inr ⟨hgoing', ?_⟩
    split at hs
    · cases (Prod.mk.inj hs).1
    · next a' link hcheck =>
      have hturns : Turns react false link := turns_check hlawful ⟨h, hgoing'⟩ hcheck trivial
      rw [if_neg (by simp [hturns.2])] at hs
      obtain rfl := Except.ok.inj (Prod.mk.inj hs).1
      exact ⟨link, hcheck⟩

end

/-- Whatever operations a session with a lawful solver has seen, failed ones among them: as long as none
of the commands that ask nothing has had a response, a check that is put to the solver and returns gives
the solver's answer to it, and values are those that the solver gives for the very question. After that
both go by a response to an earlier command. -/
theorem asks_in_turn {solver : Solver} {timeout : Int} {peer : Peer} {s₁ : Session Pipe}
    (hlawful : Lawful peer.react) (hunused : Unused peer)
    (hstart : outcome Session.start (Pipe.session solver timeout peer) = (.ok (), s₁)) (acts : List Act) :
    (Unreported peer.react (s₁.converse acts).link.backend.peer.heeded →
      (∀ a s', outcome Session.check (s₁.converse acts) = (.ok a, s') →
        (s₁.converse acts).interrupted = true ∨
          Answers peer.react (s₁.converse acts).link.backend.peer.heeded a) ∧
      ∀ refs entries s', outcome (Session.values refs) (s₁.converse acts) = (.ok entries, s') → refs ≠ [] →
        ∃ text, heard? (peer.react ((s₁.converse acts).link.backend.peer.heeded ++ [.getValue refs])) =
            some text ∧
          Lists text refs entries) ∧
    (¬ Unreported peer.react (s₁.converse acts).link.backend.peer.heeded →
      (∀ a s', outcome Session.check (s₁.converse acts) = (.ok a, s') →
        (s₁.converse acts).interrupted = true ∨ ∃ text,
          HeardBefore peer.react (s₁.converse acts).link.backend.peer.heeded text ∧ Tells text a) ∧
      ∀ refs entries s', outcome (Session.values refs) (s₁.converse acts) = (.ok entries, s') → refs ≠ [] →
        ∃ text, HeardBefore peer.react (s₁.converse acts).link.backend.peer.heeded text ∧
          Lists text refs entries) := by
  have hfirst : InTurn peer.react s₁.link.backend.peer :=
    Session.keeps_start (preserves_inTurn hlawful) hunused.inTurn hstart trivial
  have h := inTurn_converse hlawful hfirst acts
  generalize s₁.converse acts = s at h
  refine ⟨fun hunreported => ?_, fun hreported => ?_⟩
  · have hnone := unclaimed_of_unreported h hlawful hunreported
    refine ⟨fun a s' hs => (check_cases hlawful h hs).imp_right ?_, fun refs entries s' hs hrefs => ?_⟩
    · rintro ⟨hgoing, link, hcheck⟩
      obtain ⟨text, htells, ⟨hturn, hreason⟩ | ⟨-, hleft⟩⟩ := check_in_turn hlawful h hgoing hcheck
      · rw [hlawful.turn_eq hunreported] at hturn
        refine ⟨text, hturn, htells, fun reason ha => ?_⟩
        rw [← hlawful.turn_eq (hunreported.question rfl)]
        exact hreason reason ha
      · rw [hnone] at hleft
        cases hleft
    · obtain ⟨link, hgiven⟩ := Session.values_eq_ok hs
      obtain ⟨text, hlists, hturn | ⟨-, hleft⟩⟩ := values_in_turn hlawful h hrefs hgiven
      · rw [hlawful.turn_eq hunreported] at hturn
        exact ⟨text, hturn, hlists⟩
      · rw [hnone] at hleft
        cases hleft
  · have hleft {text : String} (htext : text ∈ s.link.backend.peer.unclaimed) :
        HeardBefore peer.react s.link.backend.peer.heeded text := by
      rw [unclaimed, h.react] at htext
      exact heardBefore_of_mem_responses (List.mem_of_mem_drop htext)
    refine ⟨fun a s' hs => (check_cases hlawful h hs).imp_right ?_, fun refs entries s' hs hrefs => ?_⟩
    · rintro ⟨hgoing, link, hcheck⟩
      obtain ⟨text, htells, ⟨hturn, -⟩ | ⟨-, htext⟩⟩ := check_in_turn hlawful h hgoing hcheck
      · exact ⟨text, hlawful.turn_earlier hreported hturn, htells⟩
      · exact ⟨text, hleft htext, htells⟩
    · obtain ⟨link, hgiven⟩ := Session.values_eq_ok hs
      obtain ⟨text, hlists, hturn | ⟨-, htext⟩⟩ := values_in_turn hlawful h hrefs hgiven
      · exact ⟨text, hlawful.turn_earlier hreported hturn, hlists⟩
      · exact ⟨text, hleft htext, hlists⟩

def choosy (commands : List Command) : List Line :=
  match commands.getLast? with
  | some (.assert (.ref _)) => [.text "(error \"not an atom of this logic\")"]
  | some .checkSat =>
    [.text (if .assert (.const (.bool false)) ∈ commands then "unsat" else "sat")]
  | some (.getValue _) => [.text "((x true))"]
  | some .reasonUnknown => [.text "(:reason-unknown incomplete)"]
  | _ => []

theorem lawful_choosy : Lawful choosy where
  answers commands c hc := by
    unfold choosy
    rw [List.getLast?_concat]
    cases c with
    | checkSat =>
      dsimp only
      split
      · exact ⟨"unsat", [], rfl, quiet_nil⟩
      · exact ⟨"sat", [], rfl, quiet_nil⟩
    | getValue refs => exact ⟨"((x true))", [], rfl, quiet_nil⟩
    | reasonUnknown => exact ⟨"(:reason-unknown incomplete)", [], rfl, quiet_nil⟩
    | _ => cases hc
  reports commands c hc := by
    unfold choosy
    rw [List.getLast?_concat]
    cases c with
    | assert t =>
      cases t with
      | ref r => exact .inr ⟨"(error \"not an atom of this logic\")", ⟨[], rfl, quiet_nil⟩, rfl⟩
      | _ => exact .inl quiet_nil
    | checkSat => cases hc
    | getValue refs => cases hc
    | reasonUnknown => cases hc
    | _ => exact .inl quiet_nil

def choosySession : Session Pipe :=
  (outcome Session.start (Pipe.session ⟨"z3", "z3", ["-in", "-smt2"]⟩ 0 { react := choosy })).2

theorem start_choosySession :
    outcome Session.start (Pipe.session ⟨"z3", "z3", ["-in", "-smt2"]⟩ 0 { react := choosy }) =
      (.ok (), choosySession) := rfl

def contradiction : List Act := [.declare ⟨"x", .bool, .state⟩ 0, .assert (.const (.bool false))]

theorem unsat_in_turn :
    ∃ a s', outcome Session.check (choosySession.converse contradiction) = (.ok a, s') ∧
      Answers choosy (choosySession.converse contradiction).link.backend.peer.heeded a := by
  have hunused : Unused { react := choosy } := ⟨rfl, rfl, quiet_nil⟩
  have hunreported : Unreported choosy (choosySession.converse contradiction).link.backend.peer.heeded :=
    lawful_choosy.unreported_iff.mpr (by decide +kernel)
  have hchecked : (outcome Session.check (choosySession.converse contradiction)).1.toOption.isSome = true := by
    decide +kernel
  have hgoing : ¬ (choosySession.converse contradiction).interrupted = true := by decide +kernel
  rcases hs : outcome Session.check (choosySession.converse contradiction) with ⟨e | a, s'⟩
  · rw [hs] at hchecked
    cases hchecked
  · have hall := (asks_in_turn lawful_choosy hunused start_choosySession contradiction).1 hunreported
    exact ⟨a, s', rfl, (hall.1 a s' hs).resolve_left hgoing⟩

def refusal : List Act := [.declare ⟨"x", .bool, .state⟩ 0, .assert (.ref ⟨⟨"x", .bool, .state⟩, 0⟩)]

def afterwards : List Act := refusal ++ [.check, .assert (.const (.bool false))]

/-- A check that fails because of an assertion that was refused before leaves its own answer to the next
check: the solver says that a contradiction cannot be satisfied, and the session says that it can. -/
theorem contradiction_found_satisfiable :
    Lawful choosy ∧ (outcome Session.check (choosySession.converse refusal)).1.toOption = none ∧
      (outcome Session.check (choosySession.converse afterwards)).1.toOption = some .sat ∧
      ¬ Answers choosy (choosySession.converse afterwards).link.backend.peer.heeded .sat := by
  refine ⟨lawful_choosy, by decide +kernel, by decide +kernel, ?_⟩
  rintro ⟨text, hheard, htells, -⟩
  have hown : heard? (choosy ((choosySession.converse afterwards).link.backend.peer.heeded ++
      [.checkSat])) = some "unsat" := by decide +kernel
  obtain rfl := Option.some.inj (hheard.symm.trans hown)
  unfold Tells at htells
  exact absurd htells (by decide)

end Pipe

end InvariantProver
