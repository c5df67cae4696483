import InvariantProver.Proofs.Term.Reading
import InvariantProver.Proofs.Term.Rebuilding

namespace InvariantProver

namespace Term

theorem read_mapRefs {apply : Op → List Scalar → Except EvalError Scalar}
    (look : Ref → Except EvalError Scalar) (f : Ref → Term) (t : Term) :
    (t.mapRefs f).read look apply = t.read (fun r => (f r).read look apply) apply := by
  induction t using Term.induct with
  | const value => simp [mapRefs, read]
  | ref r =>
    simp only [mapRefs, fold_ref]
    simp [read]
  | app op args ih =>
    rw [mapRefs_app, read_app, read_app, List.map_map]
    congr 2
    exact List.map_congr_left ih

end Term

section

variable (mapping : Entries Variable Term)

def Valuation.lookReplaced (env : Valuation) (r : Ref) : Except EvalError Scalar :=
  match Entries.get? r.var mapping with
  | some s => (s.reindex r.step).evaluate env
  | none => env.exact r

def Valuation.replaced (env : Valuation) : Valuation := fun r =>
  match Entries.get? r.var mapping with
  | some s => ((s.reindex r.step).evaluate env).toOption.map .exact
  | none => env r

theorem Valuation.exact_replaced (env : Valuation) (r : Ref) (v : Scalar) :
    (env.replaced mapping).exact r = .ok v ↔ env.lookReplaced mapping r = .ok v := by
  unfold Valuation.exact Valuation.replaced Valuation.lookReplaced
  cases Entries.get? r.var mapping with
  | none => rfl
  | some s => cases h : (s.reindex r.step).evaluate env <;> simp [h, Except.toOption]

namespace Term

theorem evaluate_replacement (env : Valuation) (r : Ref) :
    (replacement mapping r).evaluate env = env.lookReplaced mapping r := by
  unfold replacement Valuation.lookReplaced
  cases Entries.get? r.var mapping with
  | none => simp [evaluate]
  | some s => rfl

theorem evaluate_replaceAll (env : Valuation) (t : Term) :
    (t.replaceAll mapping).evaluate env = t.read (env.lookReplaced mapping) Op.apply := by
  rw [evaluate_eq_read, replaceAll, read_mapRefs]
  congr 1
  funext r
  exact evaluate_replacement mapping env r

theorem evaluate_replaceAll_eq_ok (env : Valuation) (t : Term) (v : Scalar) :
    (t.replaceAll mapping).evaluate env = .ok v ↔ t.evaluate (env.replaced mapping) = .ok v := by
  rw [evaluate_replaceAll, evaluate_eq_read]
  constructor
  · exact read_of_agree (fun r w => (env.exact_replaced mapping r w).mpr) fun _ _ _ h => h
  · exact read_of_agree (fun r w => (env.exact_replaced mapping r w).mp) fun _ _ _ h => h

/-! ### References, types and steps -/

theorem mem_refs_replacement (q r : Ref) :
    r ∈ (replacement mapping q).refs ↔ (q.var ∉ Entries.keys mapping ∧ r = q) ∨
      ∃ s, Entries.get? q.var mapping = some s ∧ ∃ p ∈ s.freeRefs, r = p.shift q.step := by
  unfold replacement
  cases hget : Entries.get? q.var mapping with
  | none =>
    have hfree := (Entries.get?_eq_none_iff _ _).mp hget
    simp [refs, hfree]
  | some s =>
    have hkey : q.var ∈ Entries.keys mapping := by
      rw [← not_not (a := q.var ∈ _), ← Entries.get?_eq_none_iff, hget]
      simp
    simp [hkey, refs_reindex, freeRefs, List.mem_eraseDups, eq_comm]

theorem mem_freeRefs_replaceAll (t : Term) (r : Ref) :
    r ∈ (t.replaceAll mapping).freeRefs ↔
      (r ∈ t.freeRefs ∧ r.var ∉ Entries.keys mapping) ∨
        ∃ q ∈ t.freeRefs, ∃ s, Entries.get? q.var mapping = some s ∧
          ∃ p ∈ s.freeRefs, r = p.shift q.step := by
  have hrefs : r ∈ (t.replaceAll mapping).freeRefs ↔
      ∃ q ∈ t.freeRefs, r ∈ (replacement mapping q).refs := by
    rw [freeRefs, List.mem_eraseDups, replaceAll, refs_mapRefs, List.mem_flatMap]
    simp only [freeRefs, List.mem_eraseDups]
  rw [hrefs]
  simp only [mem_refs_replacement]
  constructor
  · rintro ⟨q, hq, ⟨hkey, rfl⟩ | hreplaced⟩
    · exact .inl ⟨hq, hkey⟩
    · exact .inr ⟨q, hq, hreplaced⟩
  · rintro (⟨hr, hkey⟩ | ⟨q, hq, hreplaced⟩)
    · exact ⟨r, hr, .inl ⟨hkey, rfl⟩⟩
    · exact ⟨q, hq, .inr hreplaced⟩

theorem replacement_shift (r : Ref) (n : Int) :
    replacement mapping (r.shift n) = (replacement mapping r).reindex n := by
  unfold replacement
  change (match Entries.get? r.var mapping with | some s => _ | none => _) = _
  cases Entries.get? r.var mapping with
  | none => simp [reindex, mapRefs]
  | some s => exact (reindex_reindex s r.step n).symm

theorem replaceAll_reindex (t : Term) (n : Int) :
    (t.reindex n).replaceAll mapping = (t.replaceAll mapping).reindex n := by
  unfold replaceAll reindex
  rw [mapRefs_mapRefs, mapRefs_mapRefs]
  congr 1
  funext r
  rw [mapRefs, fold_ref]
  exact replacement_shift mapping r n

theorem replaceAll_nil (t : Term) : t.replaceAll [] = t :=
  mapRefs_eq_self fun _ _ => rfl

/-! ### Replacing with a check at every node -/

def rebuildReplacement (same : Term → Term → Bool) (r : Ref) : Except TypeError Term :=
  match Entries.get? r.var mapping with
  | some s => s.rebuildAt same r.step
  | none => .ok (ref r)

def rebuildReplaced (same : Term → Term → Bool) (t : Term) : Except TypeError Term :=
  if mapping.isEmpty then .ok t else t.rebuild same (rebuildReplacement mapping same)

variable {mapping}

theorem ty_of_get? (hty : ∀ entry ∈ mapping, entry.2.ty = entry.1.ty) (v : Variable) (s : Term)
    (h : Entries.get? v mapping = some s) : s.ty = v.ty :=
  hty _ (Entries.mem_of_get? h)

theorem isTyped_replaceAll (hty : ∀ entry ∈ mapping, entry.2.ty = entry.1.ty)
    (htyped : ∀ entry ∈ mapping, entry.2.isTyped = true) {t : Term} (ht : t.isTyped = true) :
    (t.replaceAll mapping).isTyped = true := by
  refine isTyped_mapRefs (ty_replacement (ty_of_get? hty)) ht fun r _ => ?_
  unfold replacement
  split
  · next s hs => exact isTyped_reindex (htyped _ (Entries.mem_of_get? hs)) r.step
  · simp [isTyped]

theorem rebuildReplaced_eq (hty : ∀ entry ∈ mapping, entry.2.ty = entry.1.ty)
    (htyped : ∀ entry ∈ mapping, entry.2.isTyped = true) {t : Term} (ht : t.isTyped = true)
    {same : Term → Term → Bool} (hsame : ∀ t u, same t u = true → t = u) :
    t.rebuildReplaced mapping same = .ok (t.replaceAll mapping) := by
  unfold rebuildReplaced
  split
  · next hempty => rw [List.isEmpty_iff.mp hempty, replaceAll_nil]
  · refine rebuild_eq hsame ht (ty_replacement (ty_of_get? hty)) fun r _ => ?_
    unfold rebuildReplacement replacement
    cases hget : Entries.get? r.var mapping with
    | none => rfl
    | some s => exact rebuildAt_eq hsame (htyped _ (Entries.mem_of_get? hget)) r.step

/-! ### Replacing variables by terms -/

theorem substitute_eq_ok (hty : ∀ entry ∈ mapping, entry.2.ty = entry.1.ty) (t : Term) :
    t.substitute mapping = .ok (t.replaceAll mapping) := by
  have hfind : (mapping.find? fun entry => entry.2.ty ≠ entry.1.ty) = none := by
    simpa using hty
  rw [substitute, checkMapping, hfind]
  rfl

theorem substitute_eq_error (hty : ∃ entry ∈ mapping, entry.2.ty ≠ entry.1.ty) (t : Term) :
    ∃ entry ∈ mapping, entry.2.ty ≠ entry.1.ty ∧
      t.substitute mapping = .error ⟨entry.1, entry.2.ty⟩ := by
  obtain ⟨entry, hmem, hne⟩ := hty
  cases hfind : mapping.find? fun entry => entry.2.ty ≠ entry.1.ty with
  | none => exact absurd (List.find?_eq_none.mp hfind entry hmem) (by simpa using hne)
  | some found =>
    refine ⟨found, List.mem_of_find?_eq_some hfind, by simpa using List.find?_some hfind, ?_⟩
    rw [substitute, checkMapping, hfind]
    rfl

/-- Replacements of the types of their variables always replace, and the term that they give has the
result of the old one where every replaced reference has the result of its replacement. One
replacement of another type is a failure, wherever its variable occurs. -/
theorem substitute_replaces (mapping : Entries Variable Term) (t : Term) :
    ((∀ entry ∈ mapping, entry.2.ty = entry.1.ty) →
      ∃ u, t.substitute mapping = .ok u ∧ u.ty = t.ty ∧
        (∀ env, u.evaluate env = t.read (env.lookReplaced mapping) Op.apply) ∧
        (∀ env v, u.evaluate env = .ok v ↔ t.evaluate (env.replaced mapping) = .ok v) ∧
        (∀ r, r ∈ u.freeRefs ↔ (r ∈ t.freeRefs ∧ r.var ∉ Entries.keys mapping) ∨
          ∃ q ∈ t.freeRefs, ∃ s, Entries.get? q.var mapping = some s ∧
            ∃ p ∈ s.freeRefs, r = p.shift q.step) ∧
        (∀ n, (t.reindex n).substitute mapping = .ok (u.reindex n)) ∧
        (t.isTyped = true → (∀ entry ∈ mapping, entry.2.isTyped = true) →
          u.isTyped = true ∧ ∀ same : Term → Term → Bool, (∀ t u, same t u = true → t = u) →
            t.rebuildReplaced mapping same = .ok u)) ∧
    ((∃ entry ∈ mapping, entry.2.ty ≠ entry.1.ty) →
      ∃ entry ∈ mapping, entry.2.ty ≠ entry.1.ty ∧
        t.substitute mapping = .error ⟨entry.1, entry.2.ty⟩) := by
  refine ⟨fun hty => ?_, fun hty => substitute_eq_error hty t⟩
  refine ⟨t.replaceAll mapping, substitute_eq_ok hty t, ty_replaceAll (ty_of_get? hty) t,
    fun env => evaluate_replaceAll mapping env t, fun env => evaluate_replaceAll_eq_ok mapping env t,
    mem_freeRefs_replaceAll mapping t, fun n => ?_, fun ht htyped => ⟨?_, fun same hsame => ?_⟩⟩
  · rw [← replaceAll_reindex]
    exact substitute_eq_ok hty (t.reindex n)
  · exact isTyped_replaceAll hty htyped ht
  · exact rebuildReplaced_eq hty htyped ht hsame

end Term

end

/-- Two variables that take each other's places, one of them at the next step. -/
def exchange (ty : Ty) : Entries Variable Term :=
  [(⟨"x", .int, .state⟩, .ref ⟨⟨"y", .int, .state⟩, 1⟩), (⟨"y", ty, .state⟩, .ref ⟨⟨"x", .int, .state⟩, 0⟩)]

def exchanged : Term := .app .sub [.ref ⟨⟨"x", .int, .state⟩, 0⟩, .ref ⟨⟨"y", .int, .state⟩, 2⟩]

theorem exchange_replaces :
    (∃ u, exchanged.substitute (exchange .int) = .ok u ∧
      u = .app .sub [.ref ⟨⟨"y", .int, .state⟩, 1⟩, .ref ⟨⟨"x", .int, .state⟩, 2⟩] ∧
      ∀ env v, u.evaluate env = .ok v ↔ exchanged.evaluate (env.replaced (exchange .int)) = .ok v) ∧
    ∃ e, exchanged.substitute (exchange .bool) = .error e := by
  obtain ⟨u, hu, -, -, hvalues, -⟩ :=
    (Term.substitute_replaces (exchange .int) exchanged).1 (by decide +kernel)
  obtain ⟨entry, -, -, herror⟩ :=
    (Term.substitute_replaces (exchange .bool) exchanged).2 (by decide +kernel)
  have hreplaced : exchanged.substitute (exchange .int) =
      .ok (.app .sub [.ref ⟨⟨"y", .int, .state⟩, 1⟩, .ref ⟨⟨"x", .int, .state⟩, 2⟩]) := by
    decide +kernel
  exact ⟨⟨u, hu, Except.ok.inj (hu.symm.trans hreplaced), hvalues⟩, _, herror⟩

end InvariantProver
