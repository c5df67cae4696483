import InvariantProver.Term.Construction
import InvariantProver.Term.Evaluation
import InvariantProver.Term.Substitution

/-!
The meaning of terms under assignments of typed values to all step variables. Evaluation has no value
for a division by zero; a reading of zero divisors completes it, so that every term has a meaning.
-/

namespace InvariantProver

structure ZeroReading where
  div : Rat → Rat
  idiv : Int → Int
  mod : Int → Int

def Op.atZero (z : ZeroReading) (op : Op) (dividend : Scalar) : Scalar :=
  match op with
  | idiv => .int (z.idiv (dividend.toInt?.getD 0))
  | mod => .int (z.mod (dividend.toInt?.getD 0))
  | _ => .rat (z.div dividend.toRat)

def Op.total (z : ZeroReading) (op : Op) (args : List Scalar) : Scalar :=
  match op.apply args with
  | .ok value => value
  | .error _ => op.atZero z (args.headD (.bool false))

structure Assignment where
  value : Ref → Scalar
  typed : ∀ r, (value r).ty = r.ty

def Valuation.ofAssignment (a : Assignment) : Valuation := fun r => some (.exact (a.value r))

namespace Term

def total (z : ZeroReading) (a : Assignment) : Term → Scalar :=
  fold id a.value fun op _ args => op.total z args

def Holds (z : ZeroReading) (a : Assignment) (t : Term) : Prop := (t.total z a).truth = true

section

variable (z : ZeroReading) (a : Assignment)

@[simp] theorem total_const (value : Scalar) : (const value).total z a = value := by simp [total]

@[simp] theorem total_ref (r : Ref) : (ref r).total z a = a.value r := by simp [total]

@[simp] theorem total_app (op : Op) (args : List Term) :
    (app op args).total z a = op.total z (args.map (total z a)) := by simp [total]

end

section

variable (z : ZeroReading)

theorem total_congr {a b : Assignment} (t : Term) (h : ∀ r ∈ t.refs, a.value r = b.value r) :
    t.total z a = t.total z b := by
  induction t using Term.induct with
  | const c => simp
  | ref r => simpa [refs] using h r (by simp [refs])
  | app op args ih =>
    rw [total_app, total_app]
    congr 1
    refine List.map_congr_left fun t ht => ih t ht fun r hr => h r ?_
    simp only [refs, fold_app, List.mem_flatten, List.mem_map]
    exact ⟨t.refs, ⟨t, ht, rfl⟩, hr⟩

theorem holds_congr {a b : Assignment} (t : Term) (h : ∀ r ∈ t.refs, a.value r = b.value r) :
    t.Holds z a ↔ t.Holds z b := by
  rw [Holds, Holds, total_congr z t h]

end

end Term

def Assignment.shift (a : Assignment) (delta : Int) : Assignment where
  value r := a.value (r.shift delta)
  typed r := a.typed (r.shift delta)

namespace Term

theorem reindex_app (delta : Int) (op : Op) (args : List Term) :
    (app op args).reindex delta = app op (args.map (reindex delta)) := by
  simp [reindex, mapRefs]

theorem total_reindex (z : ZeroReading) (a : Assignment) (delta : Int) (t : Term) :
    (t.reindex delta).total z a = t.total z (a.shift delta) := by
  induction t using Term.induct with
  | const c => simp [reindex, mapRefs]
  | ref r => simp [reindex, mapRefs, Assignment.shift]
  | app op args ih =>
    rw [reindex_app, total_app, total_app, List.map_map]
    congr 1
    exact List.map_congr_left ih

theorem holds_reindex (z : ZeroReading) (a : Assignment) (delta : Int) (t : Term) :
    (t.reindex delta).Holds z a ↔ t.Holds z (a.shift delta) := by
  rw [Holds, Holds, total_reindex]

theorem refs_reindex (delta : Int) (t : Term) : (t.reindex delta).refs = t.refs.map (·.shift delta) := by
  induction t using Term.induct with
  | const c => simp [reindex, mapRefs, refs]
  | ref r => simp [reindex, mapRefs, refs]
  | app op args ih =>
    rw [reindex_app]
    simp only [refs, fold_app, List.map_map, List.map_flatten]
    congr 1
    exact List.map_congr_left ih

theorem ty_reindex (delta : Int) (t : Term) : (t.reindex delta).ty = t.ty := by
  induction t using Term.induct with
  | const c => simp [reindex, mapRefs, ty]
  | ref r => simp [reindex, mapRefs, ty, Ref.ty, Ref.shift]
  | app op args ih =>
    rw [reindex_app]
    simp only [ty, fold_app, List.map_map]
    congr 1
    exact List.map_congr_left ih

end Term

end InvariantProver
