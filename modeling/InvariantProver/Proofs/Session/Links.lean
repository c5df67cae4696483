import InvariantProver.Proofs.Session.Reached

namespace InvariantProver

section

variable {ε S α β : Type} {course : Course} {I : S → Prop}

theorem Keeps.modify {f : S → S} (h : ∀ s, I s → I (f s)) :
    Keeps course I (modify f : ExceptT ε (StateM S) PUnit) := by
  intro s t r hI hs _
  obtain ⟨-, rfl⟩ := Prod.mk.inj hs
  exact h s hI

theorem Keeps.ite {p : Prop} [Decidable p] {m n : ExceptT ε (StateM S) α} (hm : Keeps course I m)
    (hn : Keeps course I n) : Keeps course I (if p then m else n) := by
  split
  · exact hm
  · exact hn

/-- A detour is a branch that goes on with what the other branch does. -/
theorem Keeps.detour {p : Prop} [Decidable p] {m n : ExceptT ε (StateM S) α}
    (hm : Keeps course I n → Keeps course I m) (hn : Keeps course I n) :
    Keeps course I (if p then m else n) :=
  .ite (hm hn) hn

theorem Keeps.ensuring {m : ExceptT ε (StateM S) α} {cleanup : ExceptT ε (StateM S) Unit}
    (hm : Keeps course I m) (hcleanup : Keeps course I cleanup) :
    Keeps course I (ensuring m cleanup) := by
  intro s t r hI hs hr
  obtain ⟨q, u, c, hbody, hq, hclean, hc⟩ := ensuring_cases hs hr
  exact hcleanup (hm hI hbody hq) hclean hc

def Leads (I J : S → Prop) (m : ExceptT ε (StateM S) α) : Prop :=
  ∀ ⦃s t : S⦄ ⦃r : Except ε α⦄, I s → outcome m s = (r, t) → J t

theorem Leads.bind {J : S → Prop} {m : ExceptT ε (StateM S) α} {f : α → ExceptT ε (StateM S) β}
    (hm : Leads I J m) (hf : ∀ a, Keeps .any J (f a)) : Leads I J (m >>= f) := by
  intro s t r hI hs
  rw [outcome_bind] at hs
  rcases hm' : outcome m s with ⟨e | a, u⟩
  · rw [hm'] at hs
    exact (Prod.mk.inj hs).2 ▸ hm hI hm'
  · rw [hm'] at hs
    exact hf a (hm hI hm') hs trivial

theorem Leads.keeps {m : ExceptT ε (StateM S) α} (h : Leads I I m) : Keeps .any I m :=
  fun _ _ _ hI hs _ => h hI hs

theorem Keeps.leads {m : ExceptT ε (StateM S) α} (h : Keeps .any I m) : Leads I I m :=
  fun _ _ _ hI hs => h hI hs trivial

def Returns (I : S → Prop) (m : ExceptT ε (StateM S) α) (Q : α → Prop) : Prop :=
  ∀ s, I s → ∃ a t, outcome m s = (.ok a, t) ∧ Q a ∧ I t

theorem Returns.pure {Q : α → Prop} {a : α} (h : Q a) :
    Returns I (pure a : ExceptT ε (StateM S) α) Q :=
  fun s hI => ⟨a, s, rfl, h, hI⟩

theorem Returns.modify {f : S → S} (h : ∀ s, I s → I (f s)) :
    Returns I (modify f : ExceptT ε (StateM S) PUnit) fun _ => True :=
  fun s hI => ⟨.unit, f s, rfl, trivial, h s hI⟩

theorem Returns.bind {m : ExceptT ε (StateM S) α} {f : α → ExceptT ε (StateM S) β} {P : α → Prop}
    {Q : β → Prop} (hm : Returns I m P) (hf : ∀ a, P a → Returns I (f a) Q) :
    Returns I (m >>= f) Q := by
  intro s hI
  obtain ⟨a, t, hs, ha, ht⟩ := hm s hI
  rw [outcome_bind_of_ok hs]
  exact hf a ha t ht

theorem Returns.ite {p : Prop} [Decidable p] {m n : ExceptT ε (StateM S) α} {Q : α → Prop}
    (hm : Returns I m Q) (hn : Returns I n Q) : Returns I (if p then m else n) Q := by
  split
  · exact hm
  · exact hn

theorem Returns.detour {p : Prop} [Decidable p] {m n : ExceptT ε (StateM S) α} {Q : α → Prop}
    (hm : Returns I n Q → Returns I m Q) (hn : Returns I n Q) : Returns I (if p then m else n) Q :=
  .ite (hm hn) hn

theorem Returns.get_bind {f : S → ExceptT ε (StateM S) β} {Q : β → Prop}
    (h : ∀ s, I s → ∃ b t, outcome (f s) s = (.ok b, t) ∧ Q b ∧ I t) : Returns I (get >>= f) Q := by
  intro s hI
  rw [outcome_bind_of_ok (outcome_get s)]
  exact h s hI

theorem Returns.keeps {m : ExceptT ε (StateM S) α} {Q : α → Prop} (h : Returns I m Q) :
    Keeps course I m := by
  intro s t r hI hs _
  obtain ⟨a, u, hok, -, hu⟩ := h s hI
  rw [hok] at hs
  exact (Prod.mk.inj hs).2 ▸ hu

end

variable {σ : Type} [Backend σ] {P : Link σ → Prop}

structure Backend.Preserves (P : Link σ → Prop) : Prop where
  start : Keeps .any P (start : Hook σ Unit)
  declare (r : Ref) : Keeps .any P (declare r : Hook σ Unit)
  assert (t : Term) : Keeps .any P (assert t : Hook σ Unit)
  push : Keeps .any P (push : Hook σ Unit)
  pop : Keeps .any P (pop : Hook σ Unit)
  check : Keeps .any P (check : Hook σ Answer)
  values (refs : List Ref) : Keeps .any P (values refs : Hook σ (Entries Ref Value))
  close : Keeps .any P (close : Hook σ Unit)
  interrupted : ∀ link, P link → P { link with interrupted := true }
  interrupt : ∀ link, P link → P { link with backend := interrupt link.backend }

def Backend.Lasting (σ : Type) [Backend σ] : Prop :=
  ∀ k, Backend.Preserves (σ := σ) (k ≤ ·.cancels)

def Backend.Firm (σ : Type) [Backend σ] : Prop := Backend.Preserves (σ := σ) fun link => link.interrupted = true

def Hook.Obeys {α : Type} (h : Hook σ α) : Prop := ∀ link m, (outcome h link).1 ≠ .error (.misuse m)

section

variable {α β : Type}

omit [Backend σ] in
theorem Hook.Obeys.pure (a : α) : Hook.Obeys (pure a : Hook σ α) := fun _ _ h => by cases h

omit [Backend σ] in
theorem Hook.Obeys.get : Hook.Obeys (get : Hook σ (Link σ)) := fun _ _ h => by cases h

omit [Backend σ] in
theorem Hook.Obeys.modify (f : Link σ → Link σ) : Hook.Obeys (modify f : Hook σ PUnit) :=
  fun _ _ h => by cases h

omit [Backend σ] in
theorem Hook.Obeys.fault (f : SolverFault) : Hook.Obeys (throw (.solver f) : Hook σ α) :=
  fun _ _ h => by cases h

omit [Backend σ] in
theorem Hook.Obeys.bind {h : Hook σ α} {f : α → Hook σ β} (hh : Obeys h) (hf : ∀ a, Obeys (f a)) :
    Obeys (h >>= f) := by
  intro link m hs
  rw [outcome_bind] at hs
  rcases houtcome : outcome h link with ⟨e | a, link'⟩
  · rw [houtcome] at hs
    obtain rfl := Except.error.inj hs
    exact hh link m (by rw [houtcome])
  · rw [houtcome] at hs
    exact hf a link' m hs

omit [Backend σ] in
theorem Hook.Obeys.mapM {f : α → Hook σ β} (xs : List α) (h : ∀ x, Obeys (f x)) : Obeys (xs.mapM f) := by
  induction xs with
  | nil =>
    rw [List.mapM_nil]
    exact .pure _
  | cons x xs ih =>
    rw [List.mapM_cons]
    exact .bind (h x) fun _ => .bind ih fun _ => .pure _

omit [Backend σ] in
theorem Hook.Obeys.detour {p : Prop} [Decidable p] {m n : Hook σ α} (hm : Obeys n → Obeys m)
    (hn : Obeys n) : Obeys (if p then m else n) := by
  split
  · exact hm hn
  · exact hn

end

structure Backend.Obeys (σ : Type) [Backend σ] : Prop where
  declare (r : Ref) : (declare r : Hook σ Unit).Obeys
  assert (t : Term) : (assert t : Hook σ Unit).Obeys
  push : (push : Hook σ Unit).Obeys
  pop : (pop : Hook σ Unit).Obeys
  check : (check : Hook σ Answer).Obeys
  values (refs : List Ref) : (values refs : Hook σ (Entries Ref Value)).Obeys
  close : (close : Hook σ Unit).Obeys

namespace Session

variable (hp : Backend.Preserves P)
include hp

theorem keeps_start : Keeps .any (fun s => P s.link) (start : SessionM σ Unit) := by
  intro s t r h hs _
  obtain ⟨-, rfl⟩ := Prod.mk.inj hs
  exact hp.start h rfl trivial

theorem link_interrupt {s : Session σ} (h : P s.link) : P s.interrupt.link := by
  have hlink := hp.interrupted _ h
  unfold interrupt
  split
  · exact hlink
  · exact hp.interrupt _ hlink

theorem keeps_perform (act : Act) : Keeps .any (fun s => P s.link) (perform act : SessionM σ Reply) := by
  intro s t r h hs _
  obtain rfl := (congrArg Prod.snd hs).symm
  change P s.link at h
  cases act with
  | declare v step =>
    simp only [perform, outcome_map, outcome_declare, addDeclared_eq]
    split
    · exact h
    split
    · exact h
    split
    · exact h
    · exact hp.declare _ h rfl trivial
  | assert p =>
    simp only [perform, outcome_map, outcome_assert]
    split
    · exact h
    split
    · exact h
    split
    · exact h
    · exact hp.assert _ h rfl trivial
  | push =>
    simp only [perform, outcome_map, outcome_push]
    split
    · exact h
    · exact hp.push h rfl trivial
  | pop =>
    simp only [perform, outcome_map, outcome_pop]
    split
    · exact h
    split
    · exact h
    · exact hp.pop h rfl trivial
  | check =>
    simp only [perform, outcome_map, outcome_check]
    split
    · exact h
    split
    · exact h
    split
    · next hcheck => exact hp.check h hcheck trivial
    · next hcheck =>
      have hlink := hp.check h hcheck trivial
      split <;> exact hlink
  | values refs =>
    simp only [perform, outcome_map, outcome_values]
    split
    · exact h
    split
    · split
      · exact h
      · exact hp.values _ h rfl trivial
    · exact h
  | interrupt => exact link_interrupt hp h
  | close =>
    simp only [perform, outcome_map, outcome_close]
    split
    · exact h
    · exact hp.close h rfl trivial

theorem keeps_op {α : Type} {op : SessionM σ α} {reply : α → Reply} (act : Act)
    (hact : perform act = reply <$> op) : Keeps .any (fun s => P s.link) op := by
  intro s t r h hs _
  refine keeps_perform hp act h (r := r.map reply) ?_ trivial
  rw [hact, outcome_map, hs]

theorem Reached.link {course : Course} {s₀ s : Session σ} {frames : List (List Term)}
    (h : Reached course s₀ frames s) (hlink : P s₀.link) : P s.link := by
  induction h with
  | new => exact hlink
  | started hs => exact keeps_start hp hlink hs trivial
  | act act _ hs _ ih => exact keeps_perform hp act ih hs trivial

end Session

end InvariantProver
