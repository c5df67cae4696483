import InvariantProver.Proofs.Session.Recordings
import InvariantProver.Proofs.Session.Scripts
import Mathlib.Data.List.Induction

/-!
When a session has a model, and what ends it. A model can be read if the last operation that counts is a
check which has found one (`hasModel_converse`), an interruption is what every later check reports, and
after the end nothing reaches the back end.
-/

namespace InvariantProver

structure Event where
  act : Act
  refused : Bool
  result : Except SessionError Reply

namespace Event

def counts (e : Event) : Bool := !e.refused && (e.act.isEntry || e.act = .check)

def HasFound (e : Event) : Prop := e.act = .check ∧ e.result = .ok (.answer .sat)

end Event

def Fresh (events : List Event) : Prop :=
  ∃ before e after, events = before ++ e :: after ∧ e.HasFound ∧ ∀ e' ∈ after, e'.counts = false

theorem not_fresh_nil : ¬ Fresh [] := by
  rintro ⟨before, e, after, h, -⟩
  simp at h

theorem fresh_concat {events : List Event} {e : Event} :
    Fresh (events ++ [e]) ↔ e.HasFound ∨ e.counts = false ∧ Fresh events := by
  constructor
  · rintro ⟨before, e', after, h, hfound, hafter⟩
    rcases List.eq_nil_or_concat after with rfl | ⟨after, last, rfl⟩
    · obtain ⟨-, hlast⟩ := List.append_inj' h rfl
      exact .inl ((List.cons.inj hlast).1 ▸ hfound)
    · rw [List.concat_eq_append] at h hafter
      rw [← List.cons_append, ← List.append_assoc] at h
      obtain ⟨rfl, hlast⟩ := List.append_inj' h rfl
      obtain rfl := (List.cons.inj hlast).1
      exact .inr ⟨hafter e (by simp), before, e', after, rfl, hfound,
        fun e hmem => hafter e (List.mem_append_left _ hmem)⟩
  · rintro (hfound | ⟨hcounts, before, e', after, rfl, hfound, hafter⟩)
    · exact ⟨events, e, [], rfl, hfound, by simp⟩
    · refine ⟨before, e', after ++ [e], by simp, hfound, ?_⟩
      simpa [or_imp, forall_and, hcounts] using hafter

namespace Session

variable {σ : Type} [Backend σ] {s : Session σ} {acts : List Act} {act : Act}

def event (s : Session σ) (act : Act) : Event :=
  ⟨act, (s.refusal? act).isSome, (outcome (perform act) s).1⟩

def history (s : Session σ) : List Act → List Event
  | [] => []
  | act :: acts => s.event act :: history (outcome (perform act) s).2 acts

theorem history_concat (s : Session σ) (acts : List Act) (act : Act) :
    s.history (acts ++ [act]) = s.history acts ++ [(s.converse acts).event act] := by
  induction acts generalizing s with
  | nil => rfl
  | cons first acts ih =>
    rw [List.cons_append, history, ih]
    rfl

theorem converse_concat (s : Session σ) (acts : List Act) (act : Act) :
    s.converse (acts ++ [act]) = (outcome (perform act) (s.converse acts)).2 := converse_append acts [act]

/-! ### Models -/

theorem not_hasFound {act : Act} (hact : act ≠ .check) : ¬ (s.event act).HasFound := fun h => hact h.1

theorem hasModel_check (hopen : s.closed = false) :
    (outcome (perform .check) s).2.hasModel = true ↔ (s.event .check).HasFound := by
  simp only [Event.HasFound, event, perform, outcome_map, outcome_check, hopen, Bool.false_eq_true,
    if_false, true_and]
  split
  · simp [Except.map]
  · split
    · simp [Except.map]
    · split <;> simp [Except.map, answered]

theorem hasModel_perform (s : Session σ) (act : Act) :
    (outcome (perform act) s).2.hasModel = true ↔
      (s.event act).HasFound ∨ (s.event act).counts = false ∧ s.hasModel = true := by
  cases hrefusal : s.refusal? act with
  | some m =>
    have hcounts : (s.event act).counts = false := by simp [Event.counts, event, hrefusal]
    have hfound : ¬ (s.event act).HasFound := by
      rintro ⟨-, hresult⟩
      simp [event, outcome_refused hrefusal] at hresult
    simp [hcounts, hfound, outcome_refused hrefusal]
  | none =>
    have haccepts : s.Accepts act := refusal?_eq_none.mp hrefusal
    have hcounts : (s.event act).counts = (act.isEntry || act = .check) := by
      simp [Event.counts, event, hrefusal]
    rw [hcounts]
    cases act with
    | declare | assert | push | pop =>
      simp [outcome_entry rfl haccepts, not_hasFound, Act.isEntry]
    | check => simp [hasModel_check haccepts, Act.isEntry]
    | values refs => simp [outcome_question haccepts, not_hasFound, Act.isEntry]
    | interrupt =>
      have hsame : s.interrupt.hasModel = s.hasModel := by
        unfold interrupt
        split <;> rfl
      simp [perform, not_hasFound, Act.isEntry, hsame]
    | close =>
      have hsame : (outcome close s).2.hasModel = s.hasModel := by
        rw [outcome_close]
        split <;> rfl
      simp [perform, not_hasFound, Act.isEntry, hsame]

theorem hasModel_converse (hmodel : s.hasModel = false) (acts : List Act) :
    (s.converse acts).hasModel = true ↔ Fresh (s.history acts) := by
  induction acts using List.reverseRecOn with
  | nil => simp [converse, history, not_fresh_nil, hmodel]
  | append_singleton acts act ih =>
    rw [converse_concat, history_concat, fresh_concat, hasModel_perform, ih]

def Readable (s : Session σ) (acts : List Act) (refs : List Ref) : Prop :=
  (s.converse acts).closed = false ∧ (∀ r ∈ refs, (s.converse acts).isDeclared r = true) ∧
    Fresh (s.history acts)

theorem readable_iff (hmodel : s.hasModel = false) {refs : List Ref} :
    s.Readable acts refs ↔ (s.converse acts).Accepts (.values refs) := by
  rw [Readable, ← hasModel_converse hmodel, Accepts]
  tauto

section

variable {refs : List Ref}

theorem accepts_recorded :
    (s.recorded.converse acts).Accepts act ↔ (s.converse acts).Accepts act := by
  rw [← accepts_erase, erase_converse, erase_recorded]

theorem asks_iff_readable (hmodel : s.hasModel = false) :
    (s.Readable acts refs →
      (outcome (perform (.values refs)) (s.recorded.converse acts)).2.calls =
        (s.recorded.converse acts).calls ++ [.values refs]) ∧
    (¬ s.Readable acts refs → ∃ m, outcome (perform (.values refs)) (s.recorded.converse acts) =
      (.error (.misuse m), s.recorded.converse acts)) := by
  rw [readable_iff hmodel, ← accepts_recorded]
  constructor
  · intro haccepts
    have hreaches : (s.recorded.converse acts).Reaches (.values refs) := ⟨haccepts.1, haccepts, by simp⟩
    rw [calls_perform, if_pos hreaches]
  · intro hrefused
    obtain ⟨m, hm⟩ := Option.ne_none_iff_exists'.mp fun hnone => hrefused (refusal?_eq_none.mp hnone)
    exact ⟨m, outcome_refused hm⟩

end

/-! ### Interruptions -/

theorem interrupted_of_mem (hfirm : Backend.Firm σ) (h : .interrupt ∈ acts) :
    (s.converse acts).interrupted = true := by
  induction acts using List.reverseRecOn with
  | nil => simp at h
  | append_singleton acts act ih =>
    rw [converse_concat]
    rcases List.mem_append.mp h with h | h
    · exact keeps_perform hfirm act (ih h) rfl trivial
    · obtain rfl := List.mem_singleton.mp h
      change (interrupt (s.converse acts)).interrupted = true
      unfold interrupt interrupted
      split <;> rfl

theorem answer_of_interrupted {s' : Session σ} {a : Answer} (hs : outcome check s = (.ok a, s'))
    (h : s.interrupted = true ∨ s'.interrupted = true) :
    a = .unknown (some cancelledReason) ∧ s'.reason = some cancelledReason := by
  rw [outcome_check] at hs
  split at hs
  · cases hs
  split at hs
  · obtain ⟨ha, rfl⟩ := Prod.mk.inj hs
    exact ⟨(Except.ok.inj ha).symm, rfl⟩
  split at hs
  · cases hs
  split at hs
  · obtain ⟨ha, rfl⟩ := Prod.mk.inj hs
    exact ⟨(Except.ok.inj ha).symm, rfl⟩
  · next hbefore _ _ _ _ hafter =>
    obtain ⟨-, rfl⟩ := Prod.mk.inj hs
    rcases h with h | h
    · exact absurd h hbefore
    · exact absurd h hafter

/-! ### The end -/

theorem name_converse (s : Session σ) (acts : List Act) : (s.converse acts).name = s.name := by
  induction acts using List.reverseRecOn with
  | nil => rfl
  | append_singleton acts act ih => rw [converse_concat, name_perform, ih]

theorem closed_stays (hclosed : s.closed = true) (act : Act) :
    (outcome (perform act) s).2.closed = true := by
  by_cases hact : act = .close
  · exact hact ▸ closed_close s
  · rw [closed_perform hact, hclosed]

theorem closed_of_mem (h : .close ∈ acts) : (s.converse acts).closed = true := by
  induction acts using List.reverseRecOn with
  | nil => simp at h
  | append_singleton acts act ih =>
    rw [converse_concat]
    rcases List.mem_append.mp h with h | h
    · exact closed_stays (ih h) act
    · exact List.mem_singleton.mp h ▸ closed_close _

theorem calls_of_closed {s : Session (Recorded σ)} (hclosed : s.closed = true) (acts : List Act) :
    (s.converse acts).calls = s.calls := by
  induction acts generalizing s with
  | nil => rfl
  | cons act acts ih =>
    have hsilent : ¬ s.Reaches act := fun h => by simp [h.1] at hclosed
    have hfirst := calls_perform s act
    rw [if_neg hsilent, List.append_nil] at hfirst
    exact (ih (closed_stays hclosed act)).trans hfirst

/-! ### Refusals -/

theorem obeys_hook (hobeys : Backend.Obeys σ) (act : Act) : (act.hook : Hook σ Unit).Obeys := by
  cases act with
  | declare v step => exact hobeys.declare _
  | assert t => exact hobeys.assert t
  | push => exact hobeys.push
  | pop => exact hobeys.pop
  | _ => exact .pure ()

theorem not_misuse_check (hobeys : Backend.Obeys σ) (hopen : s.closed = false) (m : Misuse) :
    (outcome check s).1 ≠ .error (.misuse m) := by
  rw [outcome_check, if_neg (by simp [hopen])]
  split
  · simp
  split
  · next e link hcheck =>
    have he := hobeys.check s.link m
    rwa [hcheck] at he
  · split <;> simp

theorem refuses_iff (hobeys : Backend.Obeys σ) (s : Session σ) (act : Act) :
    (s.refusal? act).isSome = true ↔ ∃ m, (outcome (perform act) s).1 = .error (.misuse m) := by
  have hmap {α : Type} {r : Except SessionError α} {reply : α → Reply} {e : SessionError} :
      r.map reply = .error e ↔ r = .error e := by cases r <;> simp [Except.map]
  cases hrefusal : s.refusal? act with
  | some m => simp [outcome_refused hrefusal]
  | none =>
    have haccepts : s.Accepts act := refusal?_eq_none.mp hrefusal
    have hmild (m : Misuse) : (outcome (perform act) s).1 ≠ .error (.misuse m) := by
      cases act with
      | declare | assert | push | pop =>
        rw [outcome_entry rfl haccepts, ne_eq, hmap]
        exact obeys_hook hobeys _ s.link m
      | check =>
        rw [perform, outcome_map, ne_eq, hmap]
        exact not_misuse_check hobeys haccepts m
      | values refs =>
        rw [outcome_question haccepts, ne_eq, hmap]
        exact hobeys.values refs s.link m
      | interrupt => simp [perform, Except.map]
      | close =>
        rw [perform, outcome_map, ne_eq, hmap, outcome_close]
        split
        · simp
        · exact hobeys.close s.link m
    simp [hmild]

/-- After any conversation with a new session, a question reaches the back end exactly if the session is
open, what it asks for is declared, and the last operation that counts is a check that has found a model.
A check that returns on a session that was interrupted before or meanwhile does not know. After the end
all that needs an open session is refused, and the back end is not asked again. What is refused is what
ends as a misuse, unless the back end itself finds fault with the user. -/
theorem models_and_endings (hmodel : s.hasModel = false) (hfirm : Backend.Firm σ) (acts : List Act) :
    (s.recorded.converse acts).erase = s.converse acts ∧
    (∀ refs, s.Readable acts refs →
      (outcome (perform (.values refs)) (s.recorded.converse acts)).2.calls =
        (s.recorded.converse acts).calls ++ [.values refs]) ∧
    (∀ refs, ¬ s.Readable acts refs → ∃ m,
      outcome (perform (.values refs)) (s.recorded.converse acts) =
        (.error (.misuse m), s.recorded.converse acts)) ∧
    (∀ a s', outcome check (s.converse acts) = (.ok a, s') →
      .interrupt ∈ acts ∨ s'.interrupted = true →
      a = .unknown (some cancelledReason) ∧ s'.reason = some cancelledReason) ∧
    (.close ∈ acts →
      (∀ act, act.needsOpen = true →
        (outcome (perform act) (s.converse acts)).1 = .error (.misuse (.closed s.name))) ∧
      ∀ more, (s.recorded.converse (acts ++ more)).calls = (s.recorded.converse acts).calls) ∧
    (Backend.Obeys σ → ∀ act, ((s.converse acts).event act).refused = true ↔
      ∃ m, ((s.converse acts).event act).result = .error (.misuse m)) := by
  refine ⟨erase_converse _ acts, fun refs => (asks_iff_readable hmodel).1,
    fun refs => (asks_iff_readable hmodel).2,
    fun a s' hs h => answer_of_interrupted hs (h.imp_left (interrupted_of_mem hfirm)), fun h => ⟨?_, ?_⟩,
    fun hobeys act => refuses_iff hobeys _ act⟩
  · intro act hact
    have hrefusal : (s.converse acts).refusal? act = some (.closed s.name) := by
      rw [refusal?, closed_of_mem h, hact, name_converse]
      rfl
    rw [outcome_refused hrefusal]
  · intro more
    rw [converse_append]
    exact calls_of_closed (closed_of_mem h) more

def rehearsed : Session Scripted :=
  Scripted.session "rehearsed" { answers := [⟨.ok .sat, [], false, false, false⟩,
    ⟨.ok .sat, [], false, true, false⟩] }

def rehearsedFlag : Variable := ⟨"x", .bool, .state⟩

def checkedOnce : List Act := [.declare rehearsedFlag 0, .check]

/-- A model outlives a refused operation and an interruption. It does not outlive the next check, which
does not know what its back end has found. -/
theorem rehearsed_models :
    (outcome (perform (.values [⟨rehearsedFlag, 0⟩])) (rehearsed.recorded.converse
        (checkedOnce ++ [.declare rehearsedFlag 0, .interrupt]))).2.calls =
      checkedOnce ++ [.interrupt, .values [⟨rehearsedFlag, 0⟩]] ∧
    (∃ m, (outcome (perform (.declare rehearsedFlag 0)) (rehearsed.converse checkedOnce)).1 =
      .error (.misuse m)) ∧
    (outcome check (rehearsed.converse checkedOnce)).1.isOk = true ∧
    (∀ a s, outcome check (rehearsed.converse checkedOnce) = (.ok a, s) →
      a = .unknown (some cancelledReason)) ∧
    (∃ m s, outcome (perform (.values [])) (rehearsed.recorded.converse (checkedOnce ++ [.check])) =
      (.error (.misuse m), s)) ∧
    (rehearsed.recorded.converse (checkedOnce ++ [.close] ++ [.push, .interrupt, .close])).calls =
      checkedOnce ++ [.close] := by
  obtain ⟨-, hread, -⟩ := models_and_endings (s := rehearsed) rfl Scripted.firm
    (checkedOnce ++ [.declare rehearsedFlag 0, .interrupt])
  obtain ⟨-, -, -, hinterrupted, -, hrefuses⟩ :=
    models_and_endings (s := rehearsed) rfl Scripted.firm checkedOnce
  obtain ⟨-, -, hstale, -⟩ := models_and_endings (s := rehearsed) rfl Scripted.firm
    (checkedOnce ++ [.check])
  obtain ⟨-, -, -, -, hclosed, -⟩ := models_and_endings (s := rehearsed) rfl Scripted.firm
    (checkedOnce ++ [.close])
  refine ⟨?_, (hrefuses Scripted.obeys (.declare rehearsedFlag 0)).mp rfl, rfl, fun a s hs => ?_, ?_,
    (hclosed (by simp)).2 [.push, .interrupt, .close]⟩
  · exact hread _ ((readable_iff rfl).mpr (by decide))
  · have hlater : (outcome check (rehearsed.converse checkedOnce)).2.interrupted = true := rfl
    rw [hs] at hlater
    exact (hinterrupted a s hs (.inr hlater)).1
  · obtain ⟨m, hm⟩ := hstale [] fun h => absurd ((readable_iff rfl).mp h) (by decide)
    exact ⟨m, _, hm⟩

end Session

end InvariantProver
