import InvariantProver.Proofs.Term.Typing
import Mathlib.Data.Rat.Floor
import Mathlib.Tactic.Ring
import Mathlib.Tactic.FieldSimp

/-!
Values that are equal as numbers. A truth value counts as 0 or 1 and a whole number as a rational one,
and no operator tells equal values apart, so evaluation may use a value of the right type instead of
any other that is equal to it.
-/

namespace InvariantProver

namespace Scalar

def asRat (a : Scalar) : Scalar := .rat a.toRat

@[simp] theorem truth_asRat (a : Scalar) : a.asRat.truth = a.truth := by
  cases a with
  | bool b => cases b <;> simp [asRat, truth, toRat]
  | int i => simp [asRat, truth, toRat]
  | rat q => rfl

theorem toRat_of_toInt? {a : Scalar} {i : Int} (h : a.toInt? = some i) : a.toRat = i := by
  cases a with
  | bool b => rw [← Option.some.inj h, toRat]
  | int j => rw [← Option.some.inj h, toRat]
  | rat q => cases h

theorem toRat_arith {onInt : Int → Int → Int} {onRat : Rat → Rat → Rat} (a b : Scalar)
    (h : ∀ i j : Int, b.toRat = j → onRat i j = (onInt i j : Rat)) :
    (arith onInt onRat a b).toRat = onRat a.toRat b.toRat := by
  unfold arith
  split
  · next i j hi hj =>
    have hb := toRat_of_toInt? hj
    rw [toRat_of_toInt? hi, hb, h i j hb, toRat]
  · rfl

theorem toRat_add (a b : Scalar) : (a.add b).toRat = a.toRat + b.toRat :=
  toRat_arith a b fun i j _ => by push_cast; rfl

theorem toRat_sub (a b : Scalar) : (a.sub b).toRat = a.toRat - b.toRat :=
  toRat_arith a b fun i j _ => by push_cast; rfl

theorem toRat_mul (a b : Scalar) : (a.mul b).toRat = a.toRat * b.toRat :=
  toRat_arith a b fun i j _ => by push_cast; rfl

theorem toRat_neg (a : Scalar) : a.neg.toRat = -a.toRat := by
  unfold neg
  split
  · next i hi =>
    rw [toRat_of_toInt? hi, toRat]
    push_cast
    rfl
  · rfl

theorem ratMod_intCast (i : Int) {j : Int} (hj : j ≠ 0) : ratMod i j = (i % j : Int) := by
  have hfloor : ∀ k : Int, 0 < k → ((i : Rat) / k).floor = i / k := by
    intro k hk
    obtain ⟨n, rfl⟩ := Int.eq_ofNat_of_zero_le hk.le
    exact_mod_cast Rat.floor_intCast_div_natCast i n
  unfold ratMod
  split
  · next hneg =>
    have hneg : j < 0 := by exact_mod_cast hneg
    have hquotient := hfloor (-j) (by omega)
    rw [Int.cast_neg] at hquotient
    rw [hquotient, Int.ediv_neg, Int.emod_def]
    push_cast
    ring
  · next hpos =>
    have hpos : 0 < j := by
      have hle : 0 ≤ j := by exact_mod_cast not_lt.mp hpos
      omega
    rw [hfloor j hpos, Int.emod_def]
    push_cast
    ring

theorem toRat_mod {a b : Scalar} (hb : b.toRat ≠ 0) : (a.mod b).toRat = ratMod a.toRat b.toRat := by
  apply toRat_arith
  intro i j hj
  apply ratMod_intCast
  rintro rfl
  exact hb (by simpa using hj)

theorem toRat_idiv {a b : Scalar} (hb : b.toRat ≠ 0) :
    (a.idiv b).toRat = ((a.toRat - ratMod a.toRat b.toRat) / b.toRat).floor := by
  unfold idiv
  split
  · next i j hi hj =>
    have hbj := toRat_of_toInt? hj
    have hne : j ≠ 0 := by
      rintro rfl
      exact hb (by simpa using hbj)
    have hne' : (j : Rat) ≠ 0 := by exact_mod_cast hne
    rw [toRat_of_toInt? hi, hbj, ratMod_intCast i hne, toRat]
    have hexact : ((i : Rat) - (i % j : Int)) / j = (i / j : Int) := by
      rw [Int.emod_def]
      push_cast
      field_simp
      ring
    rw [hexact, Rat.floor_intCast]
  · rfl

end Scalar

namespace Op

open Scalar

theorem toRat_foldl {step : Scalar → Scalar → Scalar} {f : Rat → Rat → Rat}
    (h : ∀ a b, (step a b).toRat = f a.toRat b.toRat) (a : Scalar) (vs : List Scalar) :
    (vs.foldl step a).toRat = (vs.map toRat).foldl f a.toRat := by
  induction vs generalizing a with
  | nil => rfl
  | cons b vs ih => rw [List.foldl_cons, ih, h, List.map_cons, List.foldl_cons]

theorem accumulate_asRat {step : Scalar → Scalar → Scalar} {f : Rat → Rat → Rat}
    (h : ∀ a b, (step a b).toRat = f a.toRat b.toRat) (vs : List Scalar) :
    (accumulate step (vs.map asRat)).map toRat = (accumulate step vs).map toRat := by
  cases vs with
  | nil => rfl
  | cons a vs =>
    simp only [List.map_cons, accumulate, Except.map, toRat_foldl h, List.map_map]
    rfl

theorem divide_asRat {e : EvalError} {quotient : Scalar → Scalar → Scalar} {f : Rat → Rat → Rat}
    (h : ∀ a b : Scalar, b.toRat ≠ 0 → (quotient a b).toRat = f a.toRat b.toRat) (vs : List Scalar) :
    (divide e quotient (vs.map asRat)).map toRat = (divide e quotient vs).map toRat := by
  match vs with
  | [] | [_] | _ :: _ :: _ :: _ => simp [divide, Except.map]
  | [a, b] =>
    simp only [List.map_cons, List.map_nil, divide]
    by_cases hb : b.toRat = 0
    · rw [if_pos hb, if_pos (show b.asRat.toRat = 0 from hb)]
    · rw [if_neg hb, if_neg (show ¬ b.asRat.toRat = 0 from hb)]
      simp only [Except.map, h a b hb, h a.asRat b.asRat hb]
      rfl

theorem chain_asRat (op : Op) (vs : List Scalar) :
    chain (compare op) (vs.map asRat) = chain (compare op) vs := by
  induction vs with
  | nil => rfl
  | cons a vs ih =>
    cases vs with
    | nil => rfl
    | cons b vs =>
      have hfirst : compare op a.asRat b.asRat = compare op a b := by cases op <;> rfl
      simp only [List.map_cons, chain] at ih ⊢
      rw [hfirst, ih]

theorem implication_asRat (vs : List Scalar) : implication (vs.map asRat) = implication vs := by
  induction vs with
  | nil => rfl
  | cons a vs ih =>
    cases vs with
    | nil => simp [implication]
    | cons b vs =>
      simp only [List.map_cons, implication, truth_asRat] at ih ⊢
      rw [ih]

theorem choose_asRat (vs : List Scalar) :
    (choose truth (vs.map asRat)).map toRat = (choose truth vs).map toRat := by
  cases vs with
  | nil => rfl
  | cons c vs =>
    cases vs with
    | nil => rfl
    | cons a vs =>
      simp only [List.map_cons, choose, truth_asRat]
      cases c.truth with
      | true => rfl
      | false => cases vs <;> rfl

theorem apply_asRat (op : Op) (vs : List Scalar) :
    (op.apply (vs.map asRat)).map toRat = (op.apply vs).map toRat := by
  cases op with
  | ite => exact choose_asRat vs
  | not =>
    cases vs with
    | nil => rfl
    | cons a vs => simp [apply]
  | and => simp [apply, Function.comp_def]
  | or => simp [apply, Function.comp_def]
  | implies => simp only [apply, implication_asRat]
  | eq =>
    cases vs with
    | nil => rfl
    | cons a vs =>
      simp only [apply, List.map_cons, List.tail_cons, List.headD_cons, List.all_map]
      rfl
  | ge | le | gt | lt => simp only [apply, chain_asRat]
  | add => exact accumulate_asRat toRat_add vs
  | mul => exact accumulate_asRat toRat_mul vs
  | sub =>
    rcases vs with _ | ⟨a, _ | ⟨b, rest⟩⟩
    · rfl
    · simp only [List.map_cons, List.map_nil, apply, Except.map, toRat_neg]
      rfl
    · exact accumulate_asRat toRat_sub (a :: b :: rest)
  | div => exact divide_asRat (f := fun p q => p / q) (fun _ _ _ => rfl) vs
  | idiv =>
    exact divide_asRat (f := fun p q => ((p - ratMod p q) / q).floor) (fun _ _ hb => toRat_idiv hb) vs
  | mod => exact divide_asRat (f := ratMod) (fun _ _ hb => toRat_mod hb) vs

theorem apply_congr {op : Op} {vs ws : List Scalar} (h : vs.map toRat = ws.map toRat) :
    (op.apply vs).map toRat = (op.apply ws).map toRat := by
  have hrat : vs.map asRat = ws.map asRat := by
    have hmap : ∀ us : List Scalar, us.map asRat = (us.map toRat).map .rat := by
      intro us
      rw [List.map_map]
      rfl
    rw [hmap, hmap, h]
  rw [← apply_asRat, hrat, apply_asRat]

end Op

namespace Term

open Scalar

theorem evaluate_congr {env env' : Valuation} {t : Term}
    (h : ∀ r ∈ t.refs, (env.exact r).map toRat = (env'.exact r).map toRat) :
    (t.evaluate env).map toRat = (t.evaluate env').map toRat := by
  induction t using Term.induct with
  | const value => simp [evaluate]
  | ref r => simpa [evaluate] using h r (by simp [refs])
  | app op args ih =>
    have hargs : (collect (args.map (evaluate env))).map (List.map toRat) =
        (collect (args.map (evaluate env'))).map (List.map toRat) := by
      rw [collect_map, collect_map, List.map_map, List.map_map]
      congr 1
      exact List.map_congr_left fun t ht => ih t ht fun r hr => h r (refs_of_mem ht r hr)
    rw [evaluate_app, evaluate_app]
    rcases hvs : collect (args.map (evaluate env)) with _ | vs <;>
      rcases hws : collect (args.map (evaluate env')) with _ | ws <;>
      simp only [hvs, hws, Except.map, Except.ok.injEq, Except.error.injEq, reduceCtorEq] at hargs
    · rw [hargs]
    · exact Op.apply_congr hargs

end Term

end InvariantProver
