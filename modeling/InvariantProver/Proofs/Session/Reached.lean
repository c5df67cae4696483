import InvariantProver.Proofs.Session.Acts
import InvariantProver.Proofs.Term.Meaning

namespace InvariantProver

/-- The assertions of each open scope after an operation that succeeds, the innermost scope first
and each in the order of asserting. -/
def Act.frames : Act → List (List Term) → List (List Term)
  | assert t, frame :: outer => (frame ++ [t]) :: outer
  | push, frames => [] :: frames
  | pop, frames => frames.tail
  | _, frames => frames

def aligned (scopes : List (List Ref)) (frames : List (List Term)) : List (List Term) :=
  List.replicate (scopes.length - frames.length) [] ++ frames.drop (frames.length - scopes.length)

/-- The assertions after an operation. One that fails asserts nothing; the scopes that it has opened
or closed in the books are open or closed. -/
def Act.after {α : Type} (act : Act) (r : Except SessionError α) (scopes : List (List Ref))
    (frames : List (List Term)) : List (List Term) :=
  match r with
  | .ok _ => act.frames frames
  | .error _ => aligned scopes frames

def Act.level : Act → Nat → Nat
  | push, n => n + 1
  | pop, n => n - 1
  | _, n => n

namespace Act

variable {act : Act}

theorem level_eq_self (hpush : act ≠ .push) (hpop : act ≠ .pop) (n : Nat) : act.level n = n := by
  cases act with
  | push => exact absurd rfl hpush
  | pop => exact absurd rfl hpop
  | _ => rfl

theorem length_scopes {scopes : List (List Ref)} (h : scopes ≠ []) :
    (act.scopes scopes).length = act.level scopes.length := by
  obtain ⟨scope, outer, rfl⟩ := List.exists_cons_of_ne_nil h
  cases act <;> rfl

theorem length_frames {frames : List (List Term)} (h : frames ≠ []) :
    (act.frames frames).length = act.level frames.length := by
  obtain ⟨frame, outer, rfl⟩ := List.exists_cons_of_ne_nil h
  cases act <;> rfl

end Act

def active (frames : List (List Term)) : List Term := frames.reverse.flatten

def Satisfiable (z : ZeroReading) (ts : List Term) : Prop := ∃ a, ∀ t ∈ ts, t.Holds z a

namespace Session

variable {σ : Type} [Backend σ]

inductive Reached (course : Course) (s₀ : Session σ) : List (List Term) → Session σ → Prop
  | new : Reached course s₀ [[]] s₀
  | started {s : Session σ} : outcome start s₀ = (.ok (), s) → Reached course s₀ [[]] s
  | act {frames : List (List Term)} {s s' : Session σ} {r : Except SessionError Reply} (act : Act) :
      Reached course s₀ frames s → outcome (perform act) s = (r, s') → course.Allows r →
      Reached course s₀ (act.after r s'.scopes frames) s'

/-- A session is truthful if it is new and never denies that assertions can be satisfied which some
values of the declared step variables satisfy. -/
structure Truthful (course : Course) (z : ZeroReading) (s₀ : Session σ) : Prop where
  scopes : s₀.scopes = [[]]
  isOpen : s₀.closed = false
  unsat : ∀ {frames s s'}, Reached course s₀ frames s → outcome check s = (.ok .unsat, s') →
    ¬ Satisfiable z (active frames)

def GivesModels (course : Course) (z : ZeroReading) (s₀ : Session σ) : Prop :=
  ∀ ⦃frames s s' refs entries⦄, Reached course s₀ frames s →
    outcome (values refs) s = (.ok entries, s') →
    ∃ a, (∀ t ∈ active frames, t.Holds z a) ∧
      ∀ r ∈ refs, Entries.get? r entries = some (.exact (a.value r))

/-- A session that gives values leaves out none that it is asked for. -/
def GivesAll (course : Course) (s₀ : Session σ) : Prop :=
  ∀ ⦃frames s s' refs entries⦄, Reached course s₀ frames s → outcome (values refs) s = (.ok entries, s') →
    ∀ r ∈ refs, ∃ v, Entries.get? r entries = some v

theorem values_eq_ok {s s' : Session σ} {refs : List Ref} {entries : Entries Ref Value}
    (hs : outcome (values refs) s = (.ok entries, s')) :
    ∃ link, outcome (Backend.values refs) s.link = (.ok entries, link) := by
  rw [outcome_values] at hs
  split at hs
  · cases (Prod.mk.inj hs).1
  split at hs
  · split at hs
    · cases (Prod.mk.inj hs).1
    · rw [outcome_hook] at hs
      exact ⟨_, Prod.ext (Prod.mk.inj hs).1 rfl⟩
  · cases (Prod.mk.inj hs).1

end Session

def Backend.GivesAll (σ : Type) [Backend σ] : Prop :=
  ∀ ⦃link link' : Link σ⦄ ⦃refs entries⦄, outcome (Backend.values refs) link = (.ok entries, link') →
    ∀ r ∈ refs, ∃ v, Entries.get? r entries = some v

theorem Backend.GivesAll.session {σ : Type} [Backend σ] (h : Backend.GivesAll σ) (course : Course)
    (s₀ : Session σ) : s₀.GivesAll course := by
  intro frames s s' refs entries _ hs
  obtain ⟨link, hlink⟩ := Session.values_eq_ok hs
  exact h hlink

namespace Session

variable {σ : Type} [Backend σ]

section

variable {course : Course} {s₀ s s' : Session σ} {frames : List (List Term)}

theorem aligned_of_length {scopes : List (List Ref)} (h : frames.length = scopes.length) :
    aligned scopes frames = frames := by
  simp [aligned, h]

theorem length_aligned (scopes : List (List Ref)) :
    (aligned scopes frames).length = scopes.length := by
  simp [aligned]
  omega

omit [Backend σ] in
theorem scopes_pos_of_accepts {act : Act} (h : s.Accepts act) (hpos : 0 < s.scopes.length) :
    0 < (act.scopes s.scopes).length := by
  rw [Act.length_scopes (List.ne_nil_of_length_pos hpos)]
  cases act with
  | push => exact Nat.succ_pos _
  | pop =>
    have htwo := h.2
    simp only [Act.level]
    omega
  | _ => exact hpos

theorem Reached.length (h : Reached course s₀ frames s) (hscopes : s₀.scopes = [[]]) :
    frames.length = s.scopes.length ∧ 0 < s.scopes.length := by
  induction h with
  | new => simp [hscopes]
  | @started s hs =>
    obtain ⟨-, rfl⟩ := Prod.mk.inj hs
    simp [hscopes]
  | @act frames s s' r act _ hs _ ih =>
    obtain ⟨hlength, hpos⟩ := ih
    obtain ⟨_, rfl, m, rfl⟩ | ⟨hacc, _, hbooks, _⟩ := perform_cases hs
    · exact ⟨length_aligned _, hpos⟩
    · rw [hbooks]
      refine ⟨?_, scopes_pos_of_accepts hacc hpos⟩
      cases r with
      | ok reply =>
        have hframes : frames ≠ [] := List.ne_nil_of_length_pos (hlength ▸ hpos)
        rw [Act.after, Act.length_frames hframes, Act.length_scopes (List.ne_nil_of_length_pos hpos), hlength]
      | error e => exact length_aligned _

theorem Reached.perform {α : Type} (act : Act) {op : SessionM σ α} {reply : α → Reply}
    {r : Except SessionError α} (h : Reached course s₀ frames s)
    (hact : Session.perform act = reply <$> op) (hs : outcome op s = (r, s'))
    (hr : course.Allows r) : Reached course s₀ (act.after r s'.scopes frames) s' := by
  have hperform : outcome (Session.perform act) s = (r.map reply, s') := by
    rw [hact, outcome_map, hs]
  cases r with
  | ok a => exact .act act h hperform (course.allows_ok _)
  | error e => exact .act act h hperform (by cases course <;> trivial)

theorem op_cases {α : Type} (act : Act) {op : SessionM σ α} {reply : α → Reply}
    {r : Except SessionError α} (hact : Session.perform act = reply <$> op)
    (hs : outcome op s = (r, s')) :
    (¬ s.Accepts act ∧ s' = s ∧ ∃ m, r = .error (.misuse m)) ∨
      (s.Accepts act ∧ s'.name = s.name ∧ s'.scopes = act.scopes s.scopes ∧
        (act ≠ .close → s'.closed = s.closed)) := by
  have hperform : outcome (Session.perform act) s = (r.map reply, s') := by
    rw [hact, outcome_map, hs]
  rcases perform_cases hperform with ⟨hrefused, hsame, m, hm⟩ | haccepted
  · refine .inl ⟨hrefused, hsame, m, ?_⟩
    cases r with
    | ok a => simp [Except.map] at hm
    | error e => simpa [Except.map] using hm
  · exact .inr haccepted

theorem active_cons (frame : List Term) (frames : List (List Term)) :
    active (frame :: frames) = active frames ++ frame := by
  simp [active]

end

structure OpenWith (course : Course) (s₀ : Session σ) (frames : List (List Term)) (s : Session σ) :
    Prop where
  reached : Reached course s₀ frames s
  isOpen : s.closed = false

section

variable {course : Course} {s₀ s s' : Session σ} {frames : List (List Term)}
  (hscopes : s₀.scopes = [[]])

theorem OpenWith.interrupt (h : OpenWith course s₀ frames s) : OpenWith course s₀ frames s.interrupt := by
  have hs : outcome (modify Session.interrupt : SessionM σ PUnit) s = (.ok .unit, s.interrupt) := rfl
  refine ⟨h.reached.perform .interrupt rfl hs (course.allows_ok _), ?_⟩
  simp [Session.interrupt, h.isOpen]

theorem OpenWith.after {α : Type} {op : SessionM σ α} {reply : α → Reply}
    {r : Except SessionError α} (h : OpenWith course s₀ frames s) (act : Act) (hclose : act ≠ .close)
    (hact : Session.perform act = reply <$> op) (hs : outcome op s = (r, s'))
    (hr : course.Allows r) :
    OpenWith course s₀ (act.after r s'.scopes frames) s' ∧
      ((s'.scopes = s.scopes ∧ ∃ e, r = .error e) ∨
        s.Accepts act ∧ s'.scopes = act.scopes s.scopes) := by
  have hnext := h.reached.perform act hact hs hr
  rcases op_cases act hact hs with ⟨_, rfl, m, rfl⟩ | ⟨haccepts, _, hbooks, hclosed⟩
  · exact ⟨⟨hnext, h.isOpen⟩, .inl ⟨rfl, _, rfl⟩⟩
  · exact ⟨⟨hnext, (hclosed hclose).trans h.isOpen⟩, .inr ⟨haccepts, hbooks⟩⟩

theorem OpenWith.assert {frame : List Term} {outer : List (List Term)}
    (h : OpenWith course s₀ (frame :: outer) s) {t : Term}
    (hs : outcome (Session.assert t) s = (.ok (), s')) :
    OpenWith course s₀ ((frame ++ [t]) :: outer) s' :=
  (h.after (.assert t) (by simp) rfl hs (course.allows_ok _)).1

theorem OpenWith.push (h : OpenWith course s₀ frames s)
    (hs : outcome Session.push s = (.ok (), s')) : OpenWith course s₀ ([] :: frames) s' :=
  (h.after .push (by simp) rfl hs (course.allows_ok _)).1

include hscopes

theorem OpenWith.of_error {α : Type} {op : SessionM σ α} {reply : α → Reply}
    {e : SessionError} (h : OpenWith course s₀ frames s) (act : Act)
    (hkind : act ≠ .push ∧ act ≠ .pop ∧ act ≠ .close)
    (hact : Session.perform act = reply <$> op) (hs : outcome op s = (.error e, s'))
    (hr : course.Allows (.error e : Except SessionError α)) : OpenWith course s₀ frames s' := by
  obtain ⟨hlength, hpos⟩ := h.reached.length hscopes
  obtain ⟨hnext, hbooks⟩ := h.after act hkind.2.2 hact hs hr
  have hsame : s'.scopes.length = s.scopes.length := by
    rcases hbooks with ⟨he, _⟩ | ⟨_, he⟩
    · rw [he]
    · rw [he, Act.length_scopes (List.ne_nil_of_length_pos hpos), Act.level_eq_self hkind.1 hkind.2.1]
  rwa [Act.after, aligned_of_length (hlength.trans hsame.symm)] at hnext

theorem OpenWith.declare (h : OpenWith course s₀ frames s) {v : Variable} {step : Int}
    {r : Except SessionError Unit} (hs : outcome (Session.declare v step) s = (r, s'))
    (hr : course.Allows r) : OpenWith course s₀ frames s' := by
  cases r with
  | ok u => exact (h.after (.declare v step) (by simp) rfl hs hr).1
  | error e => exact h.of_error hscopes (.declare v step) (by simp) rfl hs hr

theorem OpenWith.check (h : OpenWith course s₀ frames s) {r : Except SessionError Answer}
    (hs : outcome Session.check s = (r, s')) (hr : course.Allows r) :
    OpenWith course s₀ frames s' := by
  cases r with
  | ok a => exact (h.after .check (by simp) rfl hs hr).1
  | error e => exact h.of_error hscopes .check (by simp) rfl hs hr

theorem OpenWith.values (h : OpenWith course s₀ frames s) {refs : List Ref}
    {r : Except SessionError (Entries Ref Value)}
    (hs : outcome (Session.values refs) s = (r, s')) (hr : course.Allows r) :
    OpenWith course s₀ frames s' := by
  cases r with
  | ok entries => exact (h.after (.values refs) (by simp) rfl hs hr).1
  | error e => exact h.of_error hscopes (.values refs) (by simp) rfl hs hr

theorem OpenWith.of_assert_error (h : OpenWith course s₀ frames s) {t : Term} {e : SessionError}
    (hs : outcome (Session.assert t) s = (.error e, s'))
    (hr : course.Allows (.error e : Except SessionError Unit)) : OpenWith course s₀ frames s' :=
  h.of_error hscopes (.assert t) (by simp) rfl hs hr

/-- A scope that could not be opened may still be there, but nothing is asserted in it. -/
theorem OpenWith.of_push_error (h : OpenWith course s₀ frames s) {e : SessionError}
    (hs : outcome Session.push s = (.error e, s'))
    (hr : course.Allows (.error e : Except SessionError Unit)) :
    ∃ frames', OpenWith course s₀ frames' s' ∧ active frames' = active frames := by
  obtain ⟨hlength, hpos⟩ := h.reached.length hscopes
  obtain ⟨hnext, hbooks⟩ := h.after .push (by simp) rfl hs hr
  refine ⟨_, hnext, ?_⟩
  rcases hbooks with ⟨he, _⟩ | ⟨_, he⟩
  · rw [Act.after, aligned_of_length (hlength.trans (congrArg List.length he).symm)]
  · simp [Act.after, he, Act.scopes, aligned, hlength, active_cons]

theorem OpenWith.pop {frame : List Term} {outer : List (List Term)} (houter : outer ≠ [])
    (h : OpenWith course s₀ (frame :: outer) s) {r : Except SessionError Unit}
    (hs : outcome Session.pop s = (r, s')) (hr : course.Allows r) : OpenWith course s₀ outer s' := by
  obtain ⟨hlength, -⟩ := h.reached.length hscopes
  have htwo : 2 ≤ s.scopes.length := by
    have := List.length_pos_iff.mpr houter
    simp only [List.length_cons] at hlength
    omega
  have hnext := (h.after .pop (by simp) rfl hs hr).1
  rcases op_cases .pop rfl hs with ⟨hrefused, _⟩ | ⟨_, _, hbooks, _⟩
  · exact absurd ⟨h.isOpen, htwo⟩ hrefused
  · cases r with
    | ok u => exact hnext
    | error e =>
      have hone : outer.length = s.scopes.length - 1 := by
        simp only [List.length_cons] at hlength
        omega
      have hdrop : outer.length + 1 - (s.scopes.length - 1) = 1 := by omega
      simpa [Act.after, hbooks, Act.scopes, aligned, hone, hdrop] using hnext

end

end Session

end InvariantProver
