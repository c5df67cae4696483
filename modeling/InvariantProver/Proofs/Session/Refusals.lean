import InvariantProver.Proofs.Session.Conversation

namespace InvariantProver

namespace Act

def needsOpen : Act → Bool
  | interrupt | close => false
  | _ => true

theorem needsOpen_of_isEntry {act : Act} (h : act.isEntry = true) : act.needsOpen = true := by
  cases act <;> first | rfl | cases h

theorem isQuestion_of_isEntry {act : Act} (h : act.isEntry = true) : act.isQuestion = false := by
  cases act <;> first | rfl | cases h

section

variable {σ : Type} [Backend σ]

def hook : Act → Hook σ Unit
  | declare v step => Backend.declare ⟨v, step⟩
  | assert t => Backend.assert t
  | push => Backend.push
  | pop => Backend.pop
  | _ => pure ()

def effect (act : Act) (link : Link σ) : Link σ :=
  match act with
  | check => (outcome Backend.check link).2
  | values refs => (outcome (Backend.values refs) link).2
  | interrupt => { link with interrupted := true, backend := Backend.interrupt link.backend }
  | close => (outcome Backend.close link).2
  | act => (outcome act.hook link).2

end

end Act

namespace Session

section

variable {σ : Type}

def undeclared? (s : Session σ) (refs : List Ref) : Option Ref := refs.find? fun r => !s.isDeclared r

def brokenRule? (s : Session σ) : Act → Option Misuse
  | .declare v step =>
    if step < 0 then some (.negativeStep v step)
    else if s.isDeclared ⟨v, step⟩ then some (.alreadyDeclared ⟨v, step⟩)
    else none
  | .assert t =>
    if t.ty ≠ .bool then some (.notBool t) else (s.undeclared? t.refs).map .undeclaredAssertion
  | .pop => if s.scopes.length < 2 then some .unmatchedPop else none
  | .values refs =>
    if s.hasModel then (s.undeclared? refs).map .undeclaredValue else some .noModel
  | _ => none

def refusal? (s : Session σ) (act : Act) : Option Misuse :=
  if s.closed && act.needsOpen then some (.closed s.name) else s.brokenRule? act

theorem undeclared?_eq_none {s : Session σ} {refs : List Ref} :
    s.undeclared? refs = none ↔ ∀ r ∈ refs, s.isDeclared r = true := by
  simp [undeclared?]

theorem refusal?_eq_none {s : Session σ} {act : Act} : s.refusal? act = none ↔ s.Accepts act := by
  cases hclosed : s.closed with
  | true => cases act <;> simp [refusal?, brokenRule?, Act.needsOpen, Accepts, hclosed]
  | false =>
    cases act with
    | declare v step =>
      by_cases hstep : step < 0
      · simp [refusal?, brokenRule?, Accepts, hclosed, hstep, Int.not_le.mpr hstep]
      · simp [refusal?, brokenRule?, Accepts, hclosed, hstep, Int.not_lt.mp hstep]
    | assert t =>
      by_cases hty : t.ty = .bool <;>
        simp [refusal?, brokenRule?, Accepts, hclosed, hty, undeclared?_eq_none]
    | pop =>
      have hrule : s.brokenRule? .pop = none ↔ 2 ≤ s.scopes.length := by
        rw [brokenRule?]
        split
        · simp
          omega
        · simpa using Nat.not_lt.mp ‹_›
      simp only [refusal?, Accepts, hclosed, Bool.false_and, Bool.false_eq_true, if_false, hrule, true_and]
    | values refs =>
      by_cases hmodel : s.hasModel = true <;>
        simp [refusal?, brokenRule?, Accepts, hclosed, hmodel, undeclared?_eq_none]
    | _ => simp [refusal?, brokenRule?, Accepts, hclosed]

instance (s : Session σ) (act : Act) : Decidable (s.Accepts act) :=
  decidable_of_iff _ refusal?_eq_none

def Reaches (s : Session σ) (act : Act) : Prop :=
  s.closed = false ∧ s.Accepts act ∧ (act = .check → s.interrupted = false)

instance (s : Session σ) (act : Act) : Decidable (s.Reaches act) :=
  inferInstanceAs (Decidable (_ ∧ _ ∧ _))

theorem isOpen_of_accepts {s : Session σ} {act : Act} (h : s.Accepts act) (hact : act.needsOpen = true) :
    s.closed = false := by
  cases act with
  | push | check => exact h
  | interrupt | close => cases hact
  | _ => exact h.1

theorem reaches_entry {s : Session σ} {act : Act} (hentry : act.isEntry = true) :
    s.Reaches act ↔ s.Accepts act := by
  refine ⟨fun h => h.2.1, fun h => ⟨isOpen_of_accepts h (Act.needsOpen_of_isEntry hentry), h, ?_⟩⟩
  rintro rfl
  cases hentry

end

variable {σ : Type} [Backend σ] {s : Session σ} {act : Act}

theorem outcome_refused {m : Misuse} (h : s.refusal? act = some m) :
    outcome (perform act) s = (.error (.misuse m), s) := by
  cases hclosed : s.closed with
  | true =>
    cases act with
    | interrupt | close => simp [refusal?, brokenRule?, Act.needsOpen] at h
    | _ =>
      obtain rfl : .closed s.name = m := by simpa [refusal?, Act.needsOpen, hclosed] using h
      simp [perform, outcome_declare, outcome_assert, outcome_push, outcome_pop, outcome_check,
        outcome_values, hclosed, Except.map]
  | false =>
    rw [refusal?, hclosed, Bool.false_and, if_neg Bool.false_ne_true] at h
    cases act with
    | declare v step =>
      simp only [brokenRule?] at h
      split at h
      · next hstep =>
        obtain rfl := Option.some.inj h
        simp [perform, outcome_declare, hclosed, hstep, Except.map]
      split at h
      · next hstep hdeclared =>
        obtain rfl := Option.some.inj h
        simp [perform, outcome_declare, hclosed, hstep, hdeclared, Except.map]
      · cases h
    | assert t =>
      simp only [brokenRule?] at h
      split at h
      · next hty =>
        obtain rfl := Option.some.inj h
        simp [perform, outcome_assert, hclosed, hty, Except.map]
      · next hty =>
        obtain ⟨r, hr, rfl⟩ := Option.map_eq_some_iff.mp h
        unfold undeclared? at hr
        simp only [perform, outcome_map, outcome_assert, hclosed, hty, hr]
        rfl
    | pop =>
      simp only [brokenRule?] at h
      split at h
      · next hlength =>
        obtain rfl := Option.some.inj h
        simp [perform, outcome_pop, hclosed, hlength, Except.map]
      · cases h
    | values refs =>
      simp only [brokenRule?] at h
      split at h
      · next hmodel =>
        obtain ⟨r, hr, rfl⟩ := Option.map_eq_some_iff.mp h
        unfold undeclared? at hr
        simp only [perform, outcome_map, outcome_values, hclosed, hmodel, hr]
        rfl
      · next hmodel =>
        obtain rfl := Option.some.inj h
        simp [perform, outcome_values, hclosed, hmodel, Except.map]
    | push | check | interrupt | close => cases h

theorem outcome_entry (hentry : act.isEntry = true) (h : s.Accepts act) :
    outcome (perform act) s = ((outcome act.hook s.link).1.map fun _ => .done,
      { s with scopes := act.scopes s.scopes, hasModel := false, link := (outcome act.hook s.link).2 }) := by
  cases act with
  | declare v step =>
    obtain ⟨hopen, hstep, hnew⟩ := h
    rw [perform, outcome_map, outcome_declare, if_neg (by simp [hopen]), if_neg (by omega),
      if_neg (by simp [hnew]), outcome_hook, addDeclared_eq]
    rfl
  | assert t =>
    obtain ⟨hopen, hty, hrefs⟩ := h
    have hfind : t.refs.find? (fun r => !s.isDeclared r) = none := undeclared?_eq_none.mpr hrefs
    rw [perform, outcome_map, outcome_assert, if_neg (by simp [hopen]), if_neg (by simp [hty]), hfind]
    rfl
  | push =>
    rw [perform, outcome_map, outcome_push, if_neg (by simp [show s.closed = false from h])]
    rfl
  | pop =>
    obtain ⟨hopen, htwo⟩ := h
    rw [perform, outcome_map, outcome_pop, if_neg (by simp [hopen]), if_neg (by omega)]
    rfl
  | _ => cases hentry

theorem outcome_question {refs : List Ref} (h : s.Accepts (.values refs)) :
    outcome (perform (.values refs)) s = ((outcome (Backend.values refs) s.link).1.map .values,
      { s with link := (outcome (Backend.values refs) s.link).2 }) := by
  obtain ⟨hopen, hmodel, hrefs⟩ := h
  have hfind : refs.find? (fun r => !s.isDeclared r) = none := undeclared?_eq_none.mpr hrefs
  rw [perform, outcome_map, outcome_values, if_neg (by simp [hopen]), if_pos hmodel, hfind]
  rfl

theorem name_perform (s : Session σ) (act : Act) : (outcome (perform act) s).2.name = s.name := by
  rcases hperform : outcome (perform act) s with ⟨r, s'⟩
  rcases perform_cases hperform with ⟨-, rfl, -⟩ | ⟨-, hname, -⟩
  · rfl
  · exact hname

theorem closed_perform (hact : act ≠ .close) : (outcome (perform act) s).2.closed = s.closed := by
  rcases hperform : outcome (perform act) s with ⟨r, s'⟩
  rcases perform_cases hperform with ⟨-, rfl, -⟩ | ⟨-, -, -, hclosed⟩
  · rfl
  · exact hclosed hact

theorem closed_close (s : Session σ) : (outcome (perform .close) s).2.closed = true := by
  rw [perform, outcome_map, outcome_close]
  split
  · next h => exact h
  · rfl

theorem scopes_entry (hentry : act.isEntry = true) (h : s.Accepts act) :
    (outcome (perform act) s).2.scopes = act.scopes s.scopes := by
  rw [outcome_entry hentry h]

theorem scopes_other (h : ¬ (act.isEntry = true ∧ s.Accepts act)) :
    (outcome (perform act) s).2.scopes = s.scopes := by
  rcases hperform : outcome (perform act) s with ⟨r, s'⟩
  rcases perform_cases hperform with ⟨-, rfl, -⟩ | ⟨haccepts, -, hscopes, -⟩
  · rfl
  · rw [hscopes]
    cases act with
    | declare | assert | push | pop => exact absurd ⟨rfl, haccepts⟩ h
    | _ => rfl

theorem link_of_reaches (h : s.Reaches act) : (outcome (perform act) s).2.link = act.effect s.link := by
  obtain ⟨hopen, haccepts, hcheck⟩ := h
  cases act with
  | declare | assert | push | pop =>
    rw [outcome_entry rfl haccepts]
    rfl
  | check =>
    rw [perform, outcome_map, outcome_check, if_neg (by simp [hopen]), if_neg (by simp [hcheck rfl])]
    simp only [Act.effect]
    split
    · next hlink => simp [hlink]
    · next hlink => split <;> simp [hlink, answered]
  | values refs =>
    rw [outcome_question haccepts]
    rfl
  | interrupt =>
    change (interrupt s).link = _
    rw [interrupt, if_neg (by simp [hopen])]
    rfl
  | close =>
    rw [perform, outcome_map, outcome_close, if_neg (by simp [hopen])]
    rfl

theorem backend_of_not_reaches (h : ¬ s.Reaches act) :
    (outcome (perform act) s).2.link.backend = s.link.backend := by
  by_cases haccepts : s.Accepts act
  · -- what is accepted and goes no further is a check after an interruption, or comes after the end
    cases hclosed : s.closed with
    | true =>
      cases act with
      | interrupt =>
        change (interrupt s).link.backend = _
        rw [interrupt, if_pos hclosed]
      | close => rw [perform, outcome_map, outcome_close, if_pos hclosed]
      | _ =>
        have hopen := isOpen_of_accepts haccepts rfl
        rw [hclosed] at hopen
        cases hopen
    | false =>
      cases hinterrupted : s.interrupted with
      | false => exact absurd ⟨hclosed, haccepts, fun _ => hinterrupted⟩ h
      | true =>
        cases act with
        | check => rw [perform, outcome_map, outcome_check, if_neg (by simp [hclosed]), if_pos hinterrupted]
        | _ => exact absurd ⟨hclosed, haccepts, by simp⟩ h
  · obtain ⟨m, hm⟩ := Option.ne_none_iff_exists'.mp fun hnone => haccepts (refusal?_eq_none.mp hnone)
    rw [outcome_refused hm]

end Session

end InvariantProver
