import InvariantProver.Proofs.Term.Building
import InvariantProver.Proofs.Term.Shift

/-!
Terms rebuilt from the leaves. A traversal checks every node that it builds and keeps a node whose
operands it has kept; on a typed term no check fails, and what is kept is what would be built
(`rebuild_eq`). Moving a term in time rebuilds it so, and acts as the integers do
(`reindex_moves_time`).
-/

namespace InvariantProver

theorem Ref.shift_shift (r : Ref) (a b : Int) : (r.shift a).shift b = r.shift (a + b) := by
  simp [Ref.shift, Int.add_assoc]

namespace Term

/-! ### Other terms for references -/

theorem mapRefs_mapRefs (f g : Ref → Term) (t : Term) :
    (t.mapRefs f).mapRefs g = t.mapRefs fun r => (f r).mapRefs g := by
  induction t using Term.induct with
  | const value => simp [mapRefs]
  | ref r => simp [mapRefs]
  | app op args ih =>
    rw [mapRefs_app, mapRefs_app, mapRefs_app, List.map_map]
    congr 1
    exact List.map_congr_left ih

theorem refs_mapRefs (f : Ref → Term) (t : Term) :
    (t.mapRefs f).refs = t.refs.flatMap fun r => (f r).refs := by
  induction t using Term.induct with
  | const value => simp [mapRefs, refs]
  | ref r => simp [mapRefs, refs]
  | app op args ih =>
    rw [mapRefs_app, refs_app, refs_app, List.flatMap_map, List.flatMap_assoc]
    exact List.flatMap_congr ih

theorem isTyped_mapRefs {f : Ref → Term} (hty : ∀ r, (f r).ty = r.ty) {t : Term}
    (ht : t.isTyped = true) (hf : ∀ r ∈ t.refs, (f r).isTyped = true) :
    (t.mapRefs f).isTyped = true := by
  induction t using Term.induct with
  | const value => simp [mapRefs, isTyped]
  | ref r =>
    simp only [mapRefs, fold_ref]
    exact hf r (by simp [refs])
  | app op args ih =>
    obtain ⟨hargs, htakes⟩ := isTyped_app.mp ht
    have htys := map_ty_map fun a (_ : a ∈ args) => ty_mapRefs hty a
    rw [mapRefs_app]
    refine isTyped_app.mpr ⟨List.forall_mem_map.mpr fun a ha => ?_, ?_⟩
    · exact ih a ha (hargs a ha) fun r hr => hf r (refs_of_mem ha r hr)
    · rwa [ty_app, htys, ← ty_app]

/-! ### Nodes that are checked when they are built -/

/-- A node with new operands, checked unless every operand is the very one that it had. Terms that are
one and the same are equal, but not the other way. -/
def renewed (same : Term → Term → Bool) (op : Op) (args operands : List Term) :
    Except TypeError Term :=
  if (List.zipWith same operands args).all id then .ok (app op args) else node op operands

def rebuild (same : Term → Term → Bool) (f : Ref → Except TypeError Term) :
    Term → Except TypeError Term :=
  fold (fun value => .ok (const value)) f fun op args results => do
    renewed same op args (← collect results)

def rebuildAt (same : Term → Term → Bool) (delta : Int) (t : Term) : Except TypeError Term :=
  if delta = 0 then .ok t else t.rebuild same fun r => .ok (ref (r.shift delta))

section

variable {same : Term → Term → Bool} (hsame : ∀ t u, same t u = true → t = u)
include hsame

theorem renewed_eq {op : Op} {args : List Term} {f : Term → Term} {t : Ty}
    (hty : ∀ a ∈ args, (f a).ty = a.ty) (htakes : op.Takes (args.map ty) t) :
    renewed same op args (args.map f) = .ok (app op (args.map f)) := by
  unfold renewed
  split
  · next hkept =>
    rw [List.zipWith_map_left, List.zipWith_self, List.all_map, List.all_eq_true] at hkept
    have hargs : args.map f = args :=
      (List.map_congr_left fun a ha => hsame _ _ (hkept a ha)).trans (List.map_id args)
    rw [hargs]
  · rw [node, map_ty_map hty, Op.typeCheck_eq_ok.mpr htakes]
    rfl

theorem rebuild_eq {f : Ref → Except TypeError Term} {g : Ref → Term} {t : Term}
    (ht : t.isTyped = true) (hty : ∀ r, (g r).ty = r.ty) (hf : ∀ r ∈ t.refs, f r = .ok (g r)) :
    t.rebuild same f = .ok (t.mapRefs g) := by
  induction t using Term.induct with
  | const value => simp [rebuild, mapRefs]
  | ref r =>
    simp only [rebuild, mapRefs, fold_ref]
    exact hf r (by simp [refs])
  | app op args ih =>
    obtain ⟨hargs, htakes⟩ := isTyped_app.mp ht
    have hall : collect (args.map (rebuild same f)) = .ok (args.map (mapRefs g)) := by
      rw [collect_eq_ok_iff, List.forall₂_map_right_iff, List.forall₂_same]
      exact fun a ha => ih a ha (hargs a ha) fun r hr => hf r (refs_of_mem ha r hr)
    rw [mapRefs_app, rebuild, fold_app]
    change (collect (args.map (rebuild same f)) >>= _) = _
    rw [hall, except_bind_ok]
    exact renewed_eq hsame (fun a _ => ty_mapRefs hty a) htakes

theorem rebuildAt_eq {t : Term} (ht : t.isTyped = true) (delta : Int) :
    t.rebuildAt same delta = .ok (t.reindex delta) := by
  unfold rebuildAt
  split
  · next hzero => rw [hzero, reindex_zero]
  · exact rebuild_eq hsame ht (fun r => ty_shift r delta) fun r _ => rfl

end

/-! ### Moving in time -/

theorem reindex_reindex (t : Term) (a b : Int) : (t.reindex a).reindex b = t.reindex (a + b) := by
  rw [reindex, reindex, mapRefs_mapRefs]
  congr 1
  funext r
  simp [mapRefs, Ref.shift_shift]

theorem isTyped_reindex {t : Term} (ht : t.isTyped = true) (delta : Int) :
    (t.reindex delta).isTyped = true :=
  isTyped_mapRefs (fun r => ty_shift r delta) ht fun r _ => by simp [isTyped]

theorem reindex_neg (t : Term) (a : Int) : (t.reindex a).reindex (-a) = t := by
  rw [reindex_reindex, Int.add_right_neg, reindex_zero]

theorem reindex_injective (a : Int) {t u : Term} (h : t.reindex a = u.reindex a) : t = u := by
  rw [← reindex_neg t a, h, reindex_neg]

theorem fold_reindex {α : Type} {onConst : Scalar → α} {onRef : Ref → α} {onApp : Op → List α → α}
    {delta : Int} (href : ∀ r : Ref, onRef (r.shift delta) = onRef r) (t : Term) :
    fold onConst onRef (fun op _ results => onApp op results) (t.reindex delta) =
      fold onConst onRef (fun op _ results => onApp op results) t := by
  induction t using Term.induct with
  | const value => simp [reindex, mapRefs]
  | ref r => simp [reindex, mapRefs, href]
  | app op args ih =>
    rw [reindex_app, fold_app, fold_app, List.map_map]
    congr 1
    exact List.map_congr_left ih

def operators : Term → List Op :=
  fold (fun _ => []) (fun _ => []) fun op _ lists => op :: lists.flatten

def constants : Term → List Scalar :=
  fold (fun value => [value]) (fun _ => []) fun _ _ lists => lists.flatten

theorem mem_freeRefs_reindex {t : Term} {a : Int} {r : Ref} :
    r ∈ (t.reindex a).freeRefs ↔ ∃ q ∈ t.freeRefs, r = q.shift a := by
  simp only [freeRefs, List.mem_eraseDups, refs_reindex, List.mem_map, eq_comm]

/-- Moving terms in time is an action of the integers that changes no more than the steps of references:
a moved term has the value that the term has under the moved values, or fails at the moved reference,
and no two terms become one. -/
theorem reindex_moves_time (t : Term) (a b : Int) :
    (t.reindex 0 = t ∧ (t.reindex a).reindex b = t.reindex (a + b) ∧
      (t.reindex a).reindex (-a) = t) ∧
    ((t.reindex a).ty = t.ty ∧ (t.reindex a).size = t.size ∧
      (t.reindex a).operators = t.operators ∧ (t.reindex a).constants = t.constants) ∧
    (∀ r, r ∈ (t.reindex a).freeRefs ↔ ∃ q ∈ t.freeRefs, r = q.shift a) ∧
    (∀ env, (t.reindex a).evaluate env = (t.evaluate (env.shift a)).mapError (·.shift a)) ∧
    (∀ u, t ≠ u → t.reindex a ≠ u.reindex a) ∧
    (t.isTyped = true → (t.reindex a).isTyped = true ∧ ∀ same : Term → Term → Bool,
      (∀ t u, same t u = true → t = u) → t.rebuildAt same a = .ok (t.reindex a)) := by
  refine ⟨⟨reindex_zero t, reindex_reindex t a b, reindex_neg t a⟩,
    ⟨ty_reindex a t, fold_reindex (fun _ => rfl) t, fold_reindex (fun _ => rfl) t,
      fold_reindex (fun _ => rfl) t⟩,
    fun r => mem_freeRefs_reindex, fun env => evaluate_reindex env a t,
    fun u hne h => hne (reindex_injective a h),
    fun ht => ⟨isTyped_reindex ht a, fun same hsame => rebuildAt_eq hsame ht a⟩⟩

end Term

end InvariantProver
