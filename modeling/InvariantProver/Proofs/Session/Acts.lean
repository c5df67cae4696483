import InvariantProver.Proofs.Data.Outcome
import InvariantProver.Session.Basic

/-!
The operations of a session as data, and the rules under which a session accepts them. What an
operation does to the books depends on the rules alone: refused, it changes nothing; accepted, it
changes the scopes in one way, whether or not the back end then fails (`Session.perform_cases`).
-/

namespace InvariantProver

inductive Act
  | declare (v : Variable) (step : Int)
  | assert (t : Term)
  | push
  | pop
  | check
  | values (refs : List Ref)
  | interrupt
  | close
  deriving DecidableEq

inductive Reply
  | done
  | answer (a : Answer)
  | values (entries : Entries Ref Value)

def Act.scopes : Act → List (List Ref) → List (List Ref)
  | declare v step, [] => [[⟨v, step⟩]]
  | declare v step, scope :: outer => (⟨v, step⟩ :: scope) :: outer
  | push, scopes => [] :: scopes
  | pop, scopes => scopes.tail
  | _, scopes => scopes

namespace Session

section

variable {σ : Type}

def Accepts (s : Session σ) : Act → Prop
  | .declare v step => s.closed = false ∧ 0 ≤ step ∧ s.isDeclared ⟨v, step⟩ = false
  | .assert t => s.closed = false ∧ t.ty = .bool ∧ ∀ r ∈ t.refs, s.isDeclared r = true
  | .push | .check => s.closed = false
  | .pop => s.closed = false ∧ 2 ≤ s.scopes.length
  | .values refs => s.closed = false ∧ s.hasModel = true ∧ ∀ r ∈ refs, s.isDeclared r = true
  | .interrupt | .close => True

theorem outcome_hook {α : Type} (h : Hook σ α) (s : Session σ) :
    outcome (hook h) s = ((outcome h s.link).1, { s with link := (outcome h s.link).2 }) := rfl

theorem isDeclared_iff (s : Session σ) (r : Ref) :
    s.isDeclared r = true ↔ ∃ scope ∈ s.scopes, r ∈ scope := by
  simp [isDeclared]

theorem addDeclared_eq (s : Session σ) (v : Variable) (step : Int) :
    s.addDeclared ⟨v, step⟩ = { s with scopes := (Act.declare v step).scopes s.scopes } := by
  unfold addDeclared
  cases hscopes : s.scopes <;> rfl

end

variable {σ : Type} [Backend σ]

def perform : Act → SessionM σ Reply
  | .declare v step => (fun _ => .done) <$> declare v step
  | .assert t => (fun _ => .done) <$> Session.assert t
  | .push => (fun _ => .done) <$> push
  | .pop => (fun _ => .done) <$> pop
  | .check => .answer <$> check
  | .values refs => .values <$> values refs
  | .interrupt => (fun _ => .done) <$> modify interrupt
  | .close => (fun _ => .done) <$> close

theorem outcome_performed {α : Type} {act : Act} {op : SessionM σ α} {reply : α → Reply} {a : α}
    {s s' : Session σ} (hact : perform act = reply <$> op) (hs : outcome op s = (.ok a, s')) :
    outcome (perform act) s = (.ok (reply a), s') := by
  rw [hact, outcome_map, hs]
  rfl

theorem outcome_declare (v : Variable) (step : Int) (s : Session σ) :
    outcome (declare v step) s =
      if s.closed then (.error (.misuse (.closed s.name)), s)
      else if step < 0 then (.error (.misuse (.negativeStep v step)), s)
      else if s.isDeclared ⟨v, step⟩ then (.error (.misuse (.alreadyDeclared ⟨v, step⟩)), s)
      else outcome (hook (Backend.declare ⟨v, step⟩))
        { s.addDeclared ⟨v, step⟩ with hasModel := false } := by
  unfold declare checkOpen reject
  by_cases hclosed : s.closed = true
  · simp [outcome_bind, hclosed]
  by_cases hstep : step < 0
  · simp [outcome_bind, hclosed, hstep]
  by_cases hdeclared : s.isDeclared ⟨v, step⟩ = true <;>
    simp [outcome_bind, hclosed, hstep, hdeclared]

theorem outcome_assert (t : Term) (s : Session σ) :
    outcome (Session.assert t) s =
      if s.closed then (.error (.misuse (.closed s.name)), s)
      else if t.ty ≠ .bool then (.error (.misuse (.notBool t)), s)
      else match t.refs.find? fun r => !s.isDeclared r with
        | some r => (.error (.misuse (.undeclaredAssertion r)), s)
        | none => outcome (hook (Backend.assert t)) { s with hasModel := false } := by
  unfold Session.assert checkOpen reject dropModel
  by_cases hclosed : s.closed = true
  · simp [outcome_bind, hclosed]
  by_cases hty : t.ty = .bool
  · cases hfind : t.refs.find? fun r => !s.isDeclared r <;>
      simp [outcome_bind, hclosed, hty, hfind]
  · simp [outcome_bind, hclosed, hty]

theorem outcome_push (s : Session σ) :
    outcome push s =
      if s.closed then (.error (.misuse (.closed s.name)), s)
      else outcome (hook Backend.push) { s with scopes := [] :: s.scopes, hasModel := false } := by
  unfold push checkOpen reject
  by_cases hclosed : s.closed = true <;> simp [outcome_bind, hclosed]

theorem outcome_pop (s : Session σ) :
    outcome pop s =
      if s.closed then (.error (.misuse (.closed s.name)), s)
      else if s.scopes.length < 2 then (.error (.misuse .unmatchedPop), s)
      else outcome (hook Backend.pop) { s with scopes := s.scopes.tail, hasModel := false } := by
  unfold pop checkOpen reject
  by_cases hclosed : s.closed = true
  · simp [outcome_bind, hclosed]
  match hscopes : s.scopes with
  | [] => simp [outcome_bind, hclosed, hscopes]
  | [scope] => simp [outcome_bind, hclosed, hscopes]
  | scope :: scope' :: outer =>
    have hlength : ¬ outer.length + 1 + 1 < 2 := by omega
    simp [outcome_bind, hclosed, hscopes, hlength]

def answered (s : Session σ) (a : Answer) (link : Link σ) : Session σ :=
  { s with
    hasModel := a = .sat
    checks := s.checks + 1
    reason := match a with
      | .unknown reason => reason
      | _ => none
    link := link }

theorem outcome_check (s : Session σ) :
    outcome check s =
      if s.closed then (.error (.misuse (.closed s.name)), s)
      else if s.interrupted then
        (.ok (.unknown (some cancelledReason)),
          { s with hasModel := false, reason := some cancelledReason })
      else match outcome Backend.check s.link with
        | (.error e, link) => (.error e, { s with hasModel := false, reason := none, link := link })
        | (.ok a, link) =>
          if link.interrupted then
            (.ok (.unknown (some cancelledReason)), s.answered (.unknown (some cancelledReason)) link)
          else (.ok a, s.answered a link) := by
  unfold check checkOpen reject dropModel cancelledAnswer setReason
  by_cases hclosed : s.closed = true
  · simp [outcome_bind, hclosed]
  by_cases hinterrupted : s.interrupted = true
  · have hlink : s.link.interrupted = true := hinterrupted
    simp [outcome_bind, hclosed, interrupted, hlink, Except.map]
  have hlink : ¬ s.link.interrupted = true := hinterrupted
  rcases hcheck : outcome Backend.check s.link with ⟨e | a, link⟩
  · simp [outcome_bind, outcome_hook, hclosed, interrupted, hlink, hcheck]
  by_cases hlater : link.interrupted = true
  · simp [outcome_bind, outcome_hook, hclosed, interrupted, hlink, hcheck, hlater, answered,
      Except.map]
  · cases a <;>
      simp [outcome_bind, outcome_hook, hclosed, interrupted, hlink, hcheck, hlater, answered,
        Except.map]

theorem outcome_values (refs : List Ref) (s : Session σ) :
    outcome (values refs) s =
      if s.closed then (.error (.misuse (.closed s.name)), s)
      else if s.hasModel then
        match refs.find? fun r => !s.isDeclared r with
        | some r => (.error (.misuse (.undeclaredValue r)), s)
        | none => outcome (hook (Backend.values refs)) s
      else (.error (.misuse .noModel), s) := by
  unfold values checkOpen reject
  by_cases hclosed : s.closed = true
  · simp [outcome_bind, hclosed]
  by_cases hmodel : s.hasModel = true
  · cases hfind : refs.find? fun r => !s.isDeclared r <;>
      simp [outcome_bind, hclosed, hmodel, hfind]
  · simp [outcome_bind, hclosed, hmodel]

theorem outcome_close (s : Session σ) :
    outcome close s =
      if s.closed then (.ok (), s) else outcome (hook Backend.close) { s with closed := true } := by
  unfold close
  by_cases hclosed : s.closed = true <;> simp [outcome_bind, hclosed]

/-- An operation that is refused changes nothing, and one that is accepted does to the books what
the rules say, even if the back end fails. -/
theorem perform_cases {act : Act} {s s' : Session σ} {r : Except SessionError Reply}
    (h : outcome (perform act) s = (r, s')) :
    (¬ s.Accepts act ∧ s' = s ∧ ∃ m, r = .error (.misuse m)) ∨
      (s.Accepts act ∧ s'.name = s.name ∧ s'.scopes = act.scopes s.scopes ∧
        (act ≠ .close → s'.closed = s.closed)) := by
  have hr := congrArg Prod.fst h
  have hs := congrArg Prod.snd h
  subst hr hs
  by_cases hclosed : s.closed = true
  · cases act with
    | interrupt => exact .inr ⟨trivial, by simp [perform, interrupt, hclosed, Act.scopes]⟩
    | close => exact .inr ⟨trivial, by simp [perform, outcome_close, hclosed, Act.scopes]⟩
    | _ =>
      refine .inl ⟨by simp [Accepts, hclosed], ?_⟩
      simp [perform, outcome_declare, outcome_assert, outcome_push, outcome_pop, outcome_check,
        outcome_values, hclosed, Except.map]
  have hopen : s.closed = false := by simpa using hclosed
  cases act with
  | declare v step =>
    by_cases hstep : step < 0
    · refine .inl ⟨by simp [Accepts]; omega, ?_⟩
      simp [perform, outcome_declare, hopen, hstep, Except.map]
    by_cases hdeclared : s.isDeclared ⟨v, step⟩ = true
    · refine .inl ⟨by simp [Accepts, hdeclared], ?_⟩
      simp [perform, outcome_declare, hopen, hstep, hdeclared, Except.map]
    · refine .inr ⟨⟨hopen, by omega, by simpa using hdeclared⟩, ?_⟩
      simp [perform, outcome_declare, hopen, hstep, hdeclared, outcome_hook, addDeclared_eq]
  | assert t =>
    by_cases hty : t.ty = .bool
    · cases hfind : t.refs.find? fun r => !s.isDeclared r with
      | none =>
        refine .inr ⟨⟨hopen, hty, by simpa using hfind⟩, ?_⟩
        simp [perform, outcome_assert, hopen, hty, hfind, outcome_hook, Act.scopes]
      | some r =>
        have hundeclared := List.find?_some hfind
        refine .inl ⟨fun ⟨_, _, hrefs⟩ => ?_, ?_⟩
        · simp [hrefs r (List.mem_of_find?_eq_some hfind)] at hundeclared
        · simp [perform, outcome_assert, hopen, hty, hfind, Except.map]
    · refine .inl ⟨by simp [Accepts, hty], ?_⟩
      simp [perform, outcome_assert, hopen, hty, Except.map]
  | push =>
    refine .inr ⟨hopen, ?_⟩
    simp [perform, outcome_push, hopen, outcome_hook, Act.scopes]
  | pop =>
    by_cases hlength : s.scopes.length < 2
    · refine .inl ⟨by simp [Accepts]; omega, ?_⟩
      simp [perform, outcome_pop, hopen, hlength, Except.map]
    · refine .inr ⟨⟨hopen, by omega⟩, ?_⟩
      simp [perform, outcome_pop, hopen, hlength, outcome_hook, Act.scopes]
  | check =>
    refine .inr ⟨hopen, ?_⟩
    simp only [perform, outcome_map, outcome_check, hopen, Bool.false_eq_true, if_false]
    split
    · simp [Act.scopes]
    · split
      · simp [Act.scopes]
      · split <;> simp [answered, hopen, Act.scopes]
  | values refs =>
    by_cases hmodel : s.hasModel = true
    · cases hfind : refs.find? fun r => !s.isDeclared r with
      | none =>
        refine .inr ⟨⟨hopen, hmodel, by simpa using hfind⟩, ?_⟩
        simp [perform, outcome_values, hopen, hmodel, hfind, outcome_hook, Act.scopes]
      | some r =>
        have hundeclared := List.find?_some hfind
        refine .inl ⟨fun ⟨_, _, hrefs⟩ => ?_, ?_⟩
        · simp [hrefs r (List.mem_of_find?_eq_some hfind)] at hundeclared
        · simp [perform, outcome_values, hopen, hmodel, hfind, Except.map]
    · refine .inl ⟨by simp [Accepts, hmodel], ?_⟩
      simp [perform, outcome_values, hopen, hmodel, Except.map]
  | interrupt => exact .inr ⟨trivial, by simp [perform, interrupt, hopen, Act.scopes]⟩
  | close => exact .inr ⟨trivial, by simp [perform, outcome_close, hopen, outcome_hook, Act.scopes]⟩

end Session

end InvariantProver
