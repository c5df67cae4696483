import InvariantProver.Proofs.Data.Outcome

namespace InvariantProver

variable {ε S T α β : Type} {R : S → T → Prop}

def EndsAlike (R : S → T → Prop) (m : ExceptT ε (StateM S) α) (n : ExceptT ε (StateM T) α) (s : S)
    (t : T) : Prop :=
  ∃ r s' t', outcome m s = (r, s') ∧ outcome n t = (r, t') ∧ R s' t'

def Alike (R : S → T → Prop) (m : ExceptT ε (StateM S) α) (n : ExceptT ε (StateM T) α) : Prop :=
  ∀ s t, R s t → EndsAlike R m n s t

theorem EndsAlike.pure {s : S} {t : T} (h : R s t) (a : α) :
    EndsAlike R (pure a : ExceptT ε (StateM S) α) (pure a) s t :=
  ⟨.ok a, s, t, rfl, rfl, h⟩

theorem EndsAlike.throw {s : S} {t : T} (h : R s t) (e : ε) :
    EndsAlike R (throw e : ExceptT ε (StateM S) α) (throw e) s t :=
  ⟨.error e, s, t, rfl, rfl, h⟩

theorem EndsAlike.bind {m : ExceptT ε (StateM S) α} {n : ExceptT ε (StateM T) α}
    {f : α → ExceptT ε (StateM S) β} {g : α → ExceptT ε (StateM T) β} {s : S} {t : T}
    (h : EndsAlike R m n s t) (hf : ∀ a, Alike R (f a) (g a)) :
    EndsAlike R (m >>= f) (n >>= g) s t := by
  obtain ⟨r, s', t', hs, ht, hR⟩ := h
  cases r with
  | error e => exact ⟨.error e, s', t', by rw [outcome_bind, hs], by rw [outcome_bind, ht], hR⟩
  | ok a =>
    obtain ⟨r', s'', t'', hs', ht', hR'⟩ := hf a s' t' hR
    exact ⟨r', s'', t'', by rw [outcome_bind_of_ok hs, hs'], by rw [outcome_bind_of_ok ht, ht'], hR'⟩

theorem Alike.pure (a : α) : Alike R (pure a : ExceptT ε (StateM S) α) (pure a) :=
  fun _ _ h => .pure h a

theorem Alike.throw (e : ε) : Alike R (throw e : ExceptT ε (StateM S) α) (throw e) :=
  fun _ _ h => .throw h e

theorem Alike.liftM (x : Except ε α) : Alike R (liftM x : ExceptT ε (StateM S) α) (liftM x) :=
  fun s t h => ⟨x, s, t, rfl, rfl, h⟩

theorem Alike.modify {f : S → S} {g : T → T} (h : ∀ s t, R s t → R (f s) (g t)) :
    Alike R (modify f : ExceptT ε (StateM S) PUnit) (modify g) :=
  fun s t hR => ⟨.ok .unit, f s, g t, rfl, rfl, h s t hR⟩

theorem Alike.bind {m : ExceptT ε (StateM S) α} {n : ExceptT ε (StateM T) α}
    {f : α → ExceptT ε (StateM S) β} {g : α → ExceptT ε (StateM T) β} (h : Alike R m n)
    (hf : ∀ a, Alike R (f a) (g a)) : Alike R (m >>= f) (n >>= g) :=
  fun s t hR => (h s t hR).bind hf

theorem Alike.get_bind {f : S → ExceptT ε (StateM S) β} {g : T → ExceptT ε (StateM T) β}
    (h : ∀ s t, R s t → EndsAlike R (f s) (g t) s t) : Alike R (get >>= f) (get >>= g) := by
  intro s t hR
  obtain ⟨r, s', t', hs, ht, hR'⟩ := h s t hR
  refine ⟨r, s', t', ?_, ?_, hR'⟩
  · rw [outcome_bind_of_ok (outcome_get s), hs]
  · rw [outcome_bind_of_ok (outcome_get t), ht]

theorem Alike.ensuring {m : ExceptT ε (StateM S) α} {n : ExceptT ε (StateM T) α}
    {cleanup : ExceptT ε (StateM S) Unit} {cleanup' : ExceptT ε (StateM T) Unit} (h : Alike R m n)
    (hcleanup : Alike R cleanup cleanup') : Alike R (ensuring m cleanup) (ensuring n cleanup') := by
  intro s t hR
  obtain ⟨r, s', t', hs, ht, hR'⟩ := h s t hR
  obtain ⟨c, s'', t'', hs', ht', hR''⟩ := hcleanup s' t' hR'
  cases c with
  | ok u =>
    cases u
    exact ⟨r, s'', t'', by simp [outcome_ensuring, hs, hs'], by simp [outcome_ensuring, ht, ht'], hR''⟩
  | error e =>
    exact ⟨.error e, s'', t'', by simp [outcome_ensuring, hs, hs'],
      by simp [outcome_ensuring, ht, ht'], hR''⟩

theorem Alike.forM {f : α → ExceptT ε (StateM S) PUnit} {g : α → ExceptT ε (StateM T) PUnit}
    (xs : List α) (h : ∀ x ∈ xs, Alike R (f x) (g x)) : Alike R (xs.forM f) (xs.forM g) := by
  induction xs with
  | nil => exact .pure _
  | cons x xs ih =>
    exact .bind (h x (by simp)) fun _ => ih fun y hy => h y (List.mem_cons_of_mem x hy)

theorem Alike.mapM {f : α → ExceptT ε (StateM S) β} {g : α → ExceptT ε (StateM T) β} (xs : List α)
    (h : ∀ x ∈ xs, Alike R (f x) (g x)) : Alike R (xs.mapM f) (xs.mapM g) := by
  induction xs with
  | nil =>
    rw [List.mapM_nil, List.mapM_nil]
    exact .pure _
  | cons x xs ih =>
    rw [List.mapM_cons, List.mapM_cons]
    refine .bind (h x (by simp)) fun _ => .bind (ih fun y hy => ?_) fun _ => .pure _
    exact h y (List.mem_cons_of_mem x hy)

end InvariantProver
