import InvariantProver.Data.Cleanup

namespace InvariantProver

section

variable {ε S α β : Type}

def outcome (m : ExceptT ε (StateM S) α) (s : S) : Except ε α × S := m.run s

@[simp] theorem outcome_pure (a : α) (s : S) :
    outcome (pure a : ExceptT ε (StateM S) α) s = (.ok a, s) := rfl

theorem outcome_pure_ok {a b : α} {s t : S} :
    outcome (pure a : ExceptT ε (StateM S) α) s = (.ok b, t) ↔ a = b ∧ s = t := by simp

@[simp] theorem outcome_throw (e : ε) (s : S) :
    outcome (throw e : ExceptT ε (StateM S) α) s = (.error e, s) := rfl

@[simp] theorem outcome_liftM (x : Except ε α) (s : S) :
    outcome (liftM x : ExceptT ε (StateM S) α) s = (x, s) := rfl

@[simp] theorem outcome_get (s : S) :
    outcome (get : ExceptT ε (StateM S) S) s = (.ok s, s) := rfl

@[simp] theorem outcome_modify (f : S → S) (s : S) :
    outcome (modify f : ExceptT ε (StateM S) PUnit) s = (.ok .unit, f s) := rfl

@[simp] theorem outcome_map (f : α → β) (m : ExceptT ε (StateM S) α) (s : S) :
    outcome (f <$> m) s = ((outcome m s).1.map f, (outcome m s).2) := by
  unfold outcome
  rw [ExceptT.run_map]
  rfl

theorem outcome_bind (m : ExceptT ε (StateM S) α) (f : α → ExceptT ε (StateM S) β) (s : S) :
    outcome (m >>= f) s =
      match outcome m s with
      | (.ok a, t) => outcome (f a) t
      | (.error e, t) => (.error e, t) := by
  change (ExceptT.bindCont f (outcome m s).1 : StateM S (Except ε β)) (outcome m s).2 = _
  rcases outcome m s with ⟨e | a, t⟩ <;> rfl

theorem outcome_bind_ok {m : ExceptT ε (StateM S) α} {f : α → ExceptT ε (StateM S) β} {s t : S}
    {b : β} : outcome (m >>= f) s = (.ok b, t) ↔
      ∃ a u, outcome m s = (.ok a, u) ∧ outcome (f a) u = (.ok b, t) := by
  rw [outcome_bind]
  rcases outcome m s with ⟨e | a, u⟩
  · simp
  · constructor
    · intro h
      exact ⟨a, u, rfl, h⟩
    · rintro ⟨a', u', he, h⟩
      obtain ⟨ha, rfl⟩ := Prod.mk.inj he
      obtain rfl := Except.ok.inj ha
      exact h

theorem outcome_bind_of_ok {m : ExceptT ε (StateM S) α} {f : α → ExceptT ε (StateM S) β} {s t : S}
    {a : α} (h : outcome m s = (.ok a, t)) : outcome (m >>= f) s = outcome (f a) t := by
  rw [outcome_bind, h]

theorem outcome_of_isOk {m : ExceptT ε (StateM S) Unit} {s : S} (h : (outcome m s).1.isOk = true) :
    outcome m s = (.ok (), (outcome m s).2) := by
  refine Prod.ext ?_ rfl
  generalize (outcome m s).1 = r at h
  cases r with
  | ok u => rfl
  | error e => cases h

theorem outcome_ite {p : Prop} [Decidable p] (m n : ExceptT ε (StateM S) α) (s : S) :
    outcome (if p then m else n) s = if p then outcome m s else outcome n s := by
  split <;> rfl

theorem outcome_ensuring (m : ExceptT ε (StateM S) α) (cleanup : ExceptT ε (StateM S) Unit) (s : S) :
    outcome (ensuring m cleanup) s =
      match outcome cleanup (outcome m s).2 with
      | (.ok (), u) => ((outcome m s).1, u)
      | (.error e, u) => (.error e, u) := rfl

theorem outcome_ensuring_ok {m : ExceptT ε (StateM S) α} {cleanup : ExceptT ε (StateM S) Unit}
    {s t : S} {a : α} : outcome (ensuring m cleanup) s = (.ok a, t) ↔
      ∃ u, outcome m s = (.ok a, u) ∧ outcome cleanup u = (.ok (), t) := by
  rw [outcome_ensuring]
  constructor
  · rcases h : outcome cleanup (outcome m s).2 with ⟨e | u, v⟩
    · simp
    · intro he
      obtain ⟨ha, rfl⟩ := Prod.mk.inj he
      exact ⟨(outcome m s).2, by rw [← ha], h⟩
  · rintro ⟨u, hm, hc⟩
    simp only [hm, hc]

end

inductive Course
  | unbroken
  | any
  deriving DecidableEq

def Course.Allows {ε α : Type} : Course → Except ε α → Prop
  | unbroken, .error _ => False
  | _, _ => True

section

variable {ε ε' S α β : Type} {course : Course}

@[simp] theorem Course.allows_ok (course : Course) (a : α) :
    course.Allows (.ok a : Except ε α) := by cases course <;> trivial

theorem Course.Allows.error {e : ε} {e' : ε'} (h : course.Allows (.error e : Except ε α)) :
    course.Allows (.error e' : Except ε' β) := by
  cases course with
  | unbroken => exact h.elim
  | any => trivial

theorem ensuring_cases {m : ExceptT ε (StateM S) α} {cleanup : ExceptT ε (StateM S) Unit} {s t : S}
    {r : Except ε α} (h : outcome (ensuring m cleanup) s = (r, t)) (hr : course.Allows r) :
    ∃ q u c, outcome m s = (q, u) ∧ course.Allows q ∧ outcome cleanup u = (c, t) ∧ course.Allows c := by
  rw [outcome_ensuring] at h
  refine ⟨(outcome m s).1, (outcome m s).2, (outcome cleanup (outcome m s).2).1, rfl, ?_⟩
  rcases hc : outcome cleanup (outcome m s).2 with ⟨e | ⟨⟩, u⟩
  · rw [hc] at h
    obtain ⟨rfl, rfl⟩ := Prod.mk.inj h
    refine ⟨?_, rfl, hr.error⟩
    cases (outcome m s).1 with
    | ok a => exact course.allows_ok a
    | error e' => exact hr.error
  · rw [hc] at h
    obtain ⟨rfl, rfl⟩ := Prod.mk.inj h
    exact ⟨hr, rfl, course.allows_ok _⟩

def FailsOnlyBy (fails : ε → Prop) (r : Except ε α) : Prop := ∀ e, r = .error e → fails e

theorem FailsOnlyBy.ok {fails : ε → Prop} (a : α) : FailsOnlyBy fails (.ok a) := by
  rintro e ⟨⟩

theorem FailsOnlyBy.error {fails : ε → Prop} {e : ε} (h : fails e) :
    FailsOnlyBy fails (.error e : Except ε α) := by
  rintro e' ⟨⟩
  exact h

theorem FailsOnlyBy.of_error {fails : ε → Prop} {e : ε} (h : FailsOnlyBy fails (.error e : Except ε α)) :
    FailsOnlyBy fails (.error e : Except ε β) := .error (h e rfl)

theorem FailsOnlyBy.map {fails : ε → Prop} {r : Except ε α} (h : FailsOnlyBy fails r) (f : α → β) :
    FailsOnlyBy fails (r.map f) := by
  cases r with
  | error e => exact h.of_error
  | ok a => exact .ok _

def Keeps (course : Course) (I : S → Prop) (m : ExceptT ε (StateM S) α) : Prop :=
  ∀ ⦃s t : S⦄ ⦃r : Except ε α⦄, I s → outcome m s = (r, t) → course.Allows r → I t

variable {I : S → Prop}

theorem Keeps.pure (a : α) : Keeps course I (pure a : ExceptT ε (StateM S) α) := by
  intro s t r hI hs _
  obtain ⟨-, rfl⟩ := Prod.mk.inj hs
  exact hI

theorem Keeps.throw (e : ε) : Keeps course I (throw e : ExceptT ε (StateM S) α) := by
  intro s t r hI hs _
  obtain ⟨-, rfl⟩ := Prod.mk.inj hs
  exact hI

theorem Keeps.liftM (x : Except ε α) : Keeps course I (liftM x : ExceptT ε (StateM S) α) := by
  intro s t r hI hs _
  obtain ⟨-, rfl⟩ := Prod.mk.inj hs
  exact hI

theorem Keeps.get : Keeps course I (get : ExceptT ε (StateM S) S) := by
  intro s t r hI hs _
  obtain ⟨-, rfl⟩ := Prod.mk.inj hs
  exact hI

theorem Keeps.bind {m : ExceptT ε (StateM S) α} {f : α → ExceptT ε (StateM S) β}
    (hm : Keeps course I m) (hf : ∀ a, Keeps course I (f a)) : Keeps course I (m >>= f) := by
  intro s t r hI hs hr
  rw [outcome_bind] at hs
  rcases hm' : outcome m s with ⟨e | a, u⟩
  · rw [hm'] at hs
    obtain ⟨rfl, rfl⟩ := Prod.mk.inj hs
    exact hm hI hm' hr.error
  · rw [hm'] at hs
    exact hf a (hm hI hm' (course.allows_ok a)) hs hr

theorem Keeps.forM {f : α → ExceptT ε (StateM S) PUnit} (xs : List α)
    (h : ∀ x ∈ xs, Keeps course I (f x)) : Keeps course I (xs.forM f) := by
  induction xs with
  | nil => exact .pure _
  | cons x xs ih =>
    exact .bind (h x (by simp)) fun _ => ih fun y hy => h y (List.mem_cons_of_mem x hy)

theorem Keeps.mapM {f : α → ExceptT ε (StateM S) β} (xs : List α)
    (h : ∀ x ∈ xs, Keeps course I (f x)) : Keeps course I (xs.mapM f) := by
  induction xs with
  | nil =>
    rw [List.mapM_nil]
    exact .pure _
  | cons x xs ih =>
    rw [List.mapM_cons]
    refine .bind (h x (by simp)) fun _ => .bind (ih fun y hy => ?_) fun _ => .pure _
    exact h y (List.mem_cons_of_mem x hy)

end

end InvariantProver
