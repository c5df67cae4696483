import InvariantProver.Term.Evaluation
import Mathlib.Data.List.Forall2

namespace InvariantProver

variable {ε α β γ : Type}

theorem except_bind_ok (a : α) (f : α → Except ε β) : (Except.ok a >>= f) = f a := rfl

theorem except_bind_error (e : ε) (f : α → Except ε β) : (Except.error e >>= f) = .error e := rfl

theorem except_bind_eq_ok {x : Except ε α} {f : α → Except ε β} {b : β} :
    (x >>= f) = .ok b ↔ ∃ a, x = .ok a ∧ f a = .ok b := by
  cases x with
  | error e => simp [except_bind_error]
  | ok a => simp [except_bind_ok]

theorem except_map_eq_ok {x : Except ε α} {f : α → β} {b : β} :
    x.map f = .ok b ↔ ∃ a, x = .ok a ∧ f a = b := by
  cases x with
  | error e => simp [Except.map]
  | ok a => simp [Except.map]

theorem except_mapError_eq_ok {x : Except ε α} {f : ε → γ} {a : α} :
    x.mapError f = .ok a ↔ x = .ok a := by
  cases x with
  | error e => exact ⟨nofun, nofun⟩
  | ok b =>
    change (Except.ok b : Except γ α) = .ok a ↔ _
    rw [Except.ok.injEq, Except.ok.injEq]

theorem collect_cons_eq_ok {x : Except ε α} {xs : List (Except ε α)} {bs : List α} :
    collect (x :: xs) = .ok bs ↔ ∃ a as, x = .ok a ∧ collect xs = .ok as ∧ bs = a :: as := by
  rw [collect]
  simp only [except_bind_eq_ok]
  constructor
  · rintro ⟨a, ha, as, has, h⟩
    exact ⟨a, as, ha, has, (Except.ok.inj h).symm⟩
  · rintro ⟨a, as, ha, has, rfl⟩
    exact ⟨a, ha, as, has, rfl⟩

theorem eq_ok_of_collect_pair {x y : Except ε α} {a b : α} (h : collect [x, y] = .ok [a, b]) :
    x = .ok a ∧ y = .ok b := by
  obtain ⟨_, _, hx, hrest, hcons⟩ := collect_cons_eq_ok.mp h
  obtain ⟨rfl, rfl⟩ := List.cons.inj hcons
  obtain ⟨_, _, hy, -, hcons⟩ := collect_cons_eq_ok.mp hrest
  obtain ⟨rfl, -⟩ := List.cons.inj hcons
  exact ⟨hx, hy⟩

theorem collect_map (f : α → β) (xs : List (Except ε α)) :
    (collect xs).map (List.map f) = collect (xs.map fun x => x.map f) := by
  induction xs with
  | nil => rfl
  | cons x xs ih =>
    rw [List.map_cons, collect, collect, ← ih]
    cases x with
    | error e => rfl
    | ok a => cases collect xs <;> rfl

theorem collect_mapError (f : ε → γ) (xs : List (Except ε α)) :
    (collect xs).mapError f = collect (xs.map (·.mapError f)) := by
  induction xs with
  | nil => rfl
  | cons x xs ih =>
    rw [List.map_cons, collect, collect, ← ih]
    cases x with
    | error e => rfl
    | ok a => cases collect xs <;> rfl

theorem map_of_collect {f : α → Except ε β} {g : β → γ} {g' : α → γ} {as : List α} {bs : List β}
    (h : collect (as.map f) = .ok bs) (hf : ∀ a ∈ as, ∀ b, f a = .ok b → g b = g' a) :
    bs.map g = as.map g' := by
  induction as generalizing bs with
  | nil =>
    obtain rfl := Except.ok.inj h
    rfl
  | cons a as ih =>
    obtain ⟨b, bs, hb, hbs, rfl⟩ := collect_cons_eq_ok.mp h
    rw [List.map_cons, List.map_cons, hf a (by simp) b hb,
      ih hbs fun c hc => hf c (List.mem_cons_of_mem a hc)]

theorem collect_eq_ok_iff {f : α → Except ε β} {as : List α} {bs : List β} :
    collect (as.map f) = .ok bs ↔ List.Forall₂ (fun a b => f a = .ok b) as bs := by
  induction as generalizing bs with
  | nil =>
    constructor
    · intro h
      obtain rfl := Except.ok.inj h
      exact .nil
    · rintro ⟨⟩
      rfl
  | cons a as ih =>
    rw [List.map_cons, collect_cons_eq_ok]
    constructor
    · rintro ⟨b, bs, hb, hbs, rfl⟩
      exact .cons hb (ih.mp hbs)
    · rintro (_ | ⟨hb, hbs⟩)
      exact ⟨_, _, hb, ih.mpr hbs, rfl⟩

theorem eq_pair_of_collect {f : α → Except ε β} {as : List α} {x y : β}
    (h : collect (as.map f) = .ok [x, y]) : ∃ a b, as = [a, b] ∧ f a = .ok x ∧ f b = .ok y := by
  obtain _ | @⟨a, _, as, _, ha, hrest⟩ := collect_eq_ok_iff.mp h
  obtain _ | @⟨b, _, bs, _, hb, hnil⟩ := hrest
  cases hnil
  exact ⟨a, b, rfl, ha, hb⟩

theorem exists_error_of_collect {f : α → Except ε β} {as : List α} {e : ε}
    (h : collect (as.map f) = .error e) : ∃ a ∈ as, f a = .error e := by
  induction as with
  | nil => cases h
  | cons a as ih =>
    rw [List.map_cons, collect] at h
    cases ha : f a with
    | error e' =>
      rw [ha] at h
      obtain rfl := Except.error.inj h
      exact ⟨a, by simp, ha⟩
    | ok b =>
      rw [ha] at h
      cases has : collect (as.map f) with
      | error e' =>
        rw [has] at h
        obtain rfl := Except.error.inj h
        obtain ⟨a', ha', he⟩ := ih has
        exact ⟨a', List.mem_cons_of_mem a ha', he⟩
      | ok bs =>
        rw [has] at h
        cases h

theorem collect_map_of_ok {f : α → Except ε β} {g : α → β} {as : List α}
    (h : ∀ a ∈ as, f a = .ok (g a)) : collect (as.map f) = .ok (as.map g) := by
  rw [collect_eq_ok_iff, List.forall₂_map_right_iff, List.forall₂_same]
  exact h

theorem exists_of_forall₂ {R : α → β → Prop} {as : List α} {bs : List β}
    (h : List.Forall₂ R as bs) {a : α} (ha : a ∈ as) : ∃ b ∈ bs, R a b := by
  induction h with
  | nil => cases ha
  | cons hfirst _ ih =>
    rcases List.mem_cons.mp ha with rfl | ha
    · exact ⟨_, by simp, hfirst⟩
    · obtain ⟨b, hb, hab⟩ := ih ha
      exact ⟨b, List.mem_cons_of_mem _ hb, hab⟩

theorem forall₂_imp_of_mem {R S : α → β → Prop} {as : List α} {bs : List β}
    (h : List.Forall₂ R as bs) (hRS : ∀ a, ∀ b ∈ bs, R a b → S a b) : List.Forall₂ S as bs := by
  induction h with
  | nil => exact .nil
  | cons hfirst _ ih =>
    exact .cons (hRS _ _ List.mem_cons_self hfirst) (ih fun a b hb => hRS a b (List.mem_cons_of_mem _ hb))

theorem map_eq_of_forall₂ {R : α → β → Prop} {f : α → γ} {g : β → γ} {as : List α}
    {bs : List β} (h : List.Forall₂ R as bs) (hfg : ∀ a, ∀ b ∈ bs, R a b → f a = g b) :
    as.map f = bs.map g := by
  induction h with
  | nil => rfl
  | cons hfirst _ ih =>
    rw [List.map_cons, List.map_cons, hfg _ _ List.mem_cons_self hfirst,
      ih fun a b hb => hfg a b (List.mem_cons_of_mem _ hb)]

end InvariantProver
