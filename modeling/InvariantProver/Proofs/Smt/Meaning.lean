import InvariantProver.Proofs.Smt.Literals
import InvariantProver.Proofs.Term.Building
import InvariantProver.Proofs.Term.Equality

namespace InvariantProver

open Text

namespace Ref

theorem toList_text (r : Ref) :
    r.text.toList = r.var.name.toList ++ '@' :: (intText r.step).toList := by
  simp [text]

theorem not_mem_intText {c : Char} (hsign : c ≠ '-') (hdigit : c.isDigit = false) (i : Int) :
    c ∉ (intText i).toList := by
  intro hc
  rcases mem_intText hc with rfl | h
  · exact hsign rfl
  · rw [hdigit] at h
    cases h

theorem not_mem_text {r : Ref} (h : '|' ∉ r.var.name.toList) : '|' ∉ r.text.toList := by
  rw [toList_text]
  intro hbar
  rcases List.mem_append.mp hbar with hname | hstep
  · exact h hname
  rcases List.mem_cons.mp hstep with hat | hstep
  · cases hat
  · exact not_mem_intText (by decide) (by decide) _ hstep

/-- The name and the step of a reference part at the last at sign of its text. -/
theorem text_injective {r r' : Ref} (h : r.text = r'.text) :
    r.var.name = r'.var.name ∧ r.step = r'.step := by
  have hat : ∀ i : Int, '@' ∉ (intText i).toList := not_mem_intText (by decide) (by decide)
  -- names may have at signs, steps have none
  have hlast : ∀ {xs ys as bs : List Char}, '@' ∉ as → xs ++ '@' :: as = ys ++ '@' :: bs →
      ∀ cs, ys = xs ++ cs → cs = [] := by
    intro xs ys as bs has hxs cs hys
    rw [hys, List.append_assoc, List.append_cancel_left_eq] at hxs
    cases cs with
    | nil => rfl
    | cons c cs =>
      obtain ⟨-, hmore⟩ := List.cons.inj hxs
      exact absurd (hmore ▸ List.mem_append_right cs (List.mem_cons_self)) has
  have hlists := congrArg String.toList h
  rw [toList_text, toList_text] at hlists
  have hnames : r.var.name.toList = r'.var.name.toList := by
    rcases List.append_eq_append_iff.mp hlists with ⟨cs, hcs, -⟩ | ⟨cs, hcs, -⟩
    · rw [hcs, hlast (hat _) hlists cs hcs, List.append_nil]
    · rw [hcs, hlast (hat _) hlists.symm cs hcs, List.append_nil]
  rw [hnames, List.append_cancel_left_eq] at hlists
  have hsteps := (List.cons.inj hlists).2
  exact ⟨String.toList_inj.mp hnames, intText_injective (String.toList_inj.mp hsteps)⟩

end Ref

namespace Term

def converted (e : SExpr) : SExpr := .list [.atom "to_real", e]

def sexpr : Term → SExpr :=
  fold Scalar.sexpr (fun r => .atom r.text) fun op args es =>
    .list (.atom op.symbol :: if converts op args then es.map converted else es)

theorem sexpr_app (op : Op) (args : List Term) :
    (app op args).sexpr = .list (.atom op.symbol ::
      if converts op args then (args.map sexpr).map converted else args.map sexpr) := by
  rw [sexpr, fold_app]

theorem smt_app (op : Op) (args : List Term) :
    (app op args).smt = parenthesized (op.symbol ::
      if converts op args then (args.map smt).map fun t => parenthesized ["to_real", t]
      else args.map smt) := by
  rw [smt, fold_app]

theorem spelledBy_converted {e : SExpr} {text : String} (h : e.SpelledBy text) :
    (converted e).SpelledBy (parenthesized ["to_real", text]) := by
  have hname : (SExpr.atom "to_real").SpelledBy "to_real" :=
    SExpr.spelledBy_plain (by decide) (List.all_eq_true.mp (by decide))
  have hoperand : ∀ part ∈ [(e, text)], part.1.SpelledBy part.2 := by simpa using h
  exact SExpr.spelledBy_parenthesized hname [(e, text)] hoperand

theorem spelledBy_symbol (op : Op) : (SExpr.atom op.symbol).SpelledBy op.symbol := by
  apply SExpr.spelledBy_plain
  · cases op <;> decide
  · apply List.all_eq_true.mp
    cases op <;> decide

theorem spelledBy_sexpr {t : Term} (h : ∀ r ∈ t.refs, '|' ∉ r.var.name.toList) :
    t.sexpr.SpelledBy t.smt := by
  induction t using Term.induct with
  | const value =>
    rw [sexpr, smt, fold_const, fold_const]
    exact SExpr.spelledBy_sexpr value
  | ref r =>
    rw [sexpr, smt, fold_ref, fold_ref]
    exact SExpr.spelledBy_barred (Ref.not_mem_text (h r (by simp [refs])))
  | app op args ih =>
    have hargs : ∀ a ∈ args, a.sexpr.SpelledBy a.smt := fun a ha =>
      ih a ha fun r hr => h r (refs_of_mem ha r hr)
    rw [sexpr_app, smt_app]
    cases converts op args with
    | false => exact SExpr.spelledBy_parenthesized (spelledBy_symbol op) args hargs
    | true =>
      rw [if_pos rfl, if_pos rfl, List.map_map, List.map_map]
      exact SExpr.spelledBy_parenthesized (spelledBy_symbol op) args fun a ha =>
        spelledBy_converted (hargs a ha)

end Term

namespace Smt

open Term

theorem literal?_text (r : Ref) : literal? r.text = none := by
  cases hliteral : literal? r.text with
  | none => rfl
  | some value =>
    have hat : '@' ∈ r.text.toList := by
      rw [Ref.toList_text]
      simp
    exact absurd hat (not_at_of_literal? hliteral)

section

variable {α : Type} {T : Theory α} {symbols : String → Option α}

theorem read_ref (r : Ref) : T.read symbols (.atom r.text) = symbols r.text := by
  rw [Theory.read, Theory.leaf, literal?_text]
  rfl

theorem readAll_map {args : List Term} {f : Term → α}
    (h : ∀ a ∈ args, T.read symbols a.sexpr = some (f a)) :
    T.readAll symbols (args.map sexpr) = some (args.map f) := by
  induction args with
  | nil => exact readAll_nil
  | cons a args ih =>
    exact readAll_cons (h a (by simp)) (ih fun b hb => h b (List.mem_cons_of_mem a hb))

theorem readAll_of_collect {ε : Type} {args : List Term} {f : Term → Except ε α} {as : List α}
    (hcollect : collect (args.map f) = .ok as)
    (h : ∀ t ∈ args, ∀ a, f t = .ok a → T.read symbols t.sexpr = some a) :
    T.readAll symbols (args.map sexpr) = some as := by
  induction args generalizing as with
  | nil =>
    rw [← Except.ok.inj hcollect]
    exact readAll_nil
  | cons t args ih =>
    obtain ⟨a, as, ha, has, rfl⟩ := collect_cons_eq_ok.mp hcollect
    exact readAll_cons (h t (by simp) a ha) (ih has fun u hu => h u (List.mem_cons_of_mem t hu))

theorem read_converted {e : SExpr} {a : α} (h : T.read symbols e = some a) :
    T.read symbols (converted e) = T.unary "to_real" a :=
  read_list (readAll_cons h readAll_nil)

end

theorem eq_int_of_ty {a : Scalar} (h : a.ty = .int) : ∃ i, a = .int i := by
  cases a with
  | int i => exact ⟨i, rfl⟩
  | bool | rat => cases h

theorem converts_iff {op : Op} {args : List Term} {t : Ty} (h : op.Takes (args.map ty) t) :
    converts op args = true ↔ op = .div ∧ args.map ty = [.int, .int] ∧ t = .rat := by
  have hhead : args.head?.map ty = (args.map ty).head? := by cases args <;> rfl
  simp only [converts, Bool.and_eq_true, decide_eq_true_eq, hhead]
  constructor
  · rintro ⟨rfl, hint⟩
    generalize args.map ty = tys at h hint
    cases h with
    | quotient ht =>
      obtain rfl := Option.some.inj hint
      exact ⟨rfl, rfl, rfl⟩
    | junction hop | sum hop | whole hop => simp at hop
    | relation hop => cases hop
  · rintro ⟨rfl, htys, -⟩
    rw [htys]
    exact ⟨rfl, rfl⟩

theorem not_int_of_converts {op : Op} {args : List Term} {t : Ty} (h : op.Takes (args.map ty) t)
    (hconverts : converts op args = false) : op = .div → .int ∉ args.map ty := by
  rintro rfl hint
  have hne : args.map ty ≠ [.int, .int] := by
    intro htys
    have hall := (converts_iff (htys ▸ Op.Takes.quotient (by decide))).mpr ⟨rfl, htys, rfl⟩
    rw [hconverts] at hall
    cases hall
  generalize args.map ty = tys at h hint hne
  cases h with
  | quotient ht =>
    obtain rfl : Ty.int = _ := by simpa using hint
    exact hne rfl
  | junction hop | sum hop | whole hop => simp at hop
  | relation hop => cases hop

theorem sorts_read {symbols : String → Option Ty} {t : Term} (h : Formed t)
    (hsymbols : ∀ r ∈ t.refs, symbols r.text = some r.ty) :
    sorts.read symbols t.sexpr = some t.ty := by
  induction h with
  | const value =>
    rw [sexpr, fold_const, ty_const]
    exact sorts_read_sexpr symbols value
  | ref r =>
    rw [sexpr, fold_ref, ty_ref, read_ref]
    exact hsymbols r (by simp [refs])
  | @app op args t hargs htakes hone ih =>
    have hargs := fun a ha => ih a ha fun r hr => hsymbols r (refs_of_mem ha r hr)
    rw [ty_app, Op.resultTy_of_takes htakes, sexpr_app]
    cases hconverts : converts op args with
    | true =>
      obtain ⟨rfl, htys, rfl⟩ := (converts_iff htakes).mp hconverts
      simp only [List.map_eq_cons_iff, List.map_eq_nil_iff] at htys
      obtain ⟨a, _, rfl, ha, b, _, rfl, hb, rfl⟩ := htys
      have hreads : ∀ c ∈ [a, b], c.ty = .int → sorts.read symbols (converted c.sexpr) = some .rat := by
        intro c hc hty
        rw [read_converted (hargs c hc), hty]
        rfl
      exact read_quotient (hreads a (by simp) ha) (hreads b (by simp) hb)
    | false =>
      rw [if_neg Bool.false_ne_true, read_list (readAll_map hargs)]
      exact sorts_apply htakes (by simpa using hone) (not_int_of_converts htakes hconverts)

theorem values_converted {z : ZeroReading} {symbols : String → Option Scalar} {d e : SExpr} {i j : Int}
    (hd : (values z).read symbols d = some (.int i)) (he : (values z).read symbols e = some (.int j))
    (hj : j ≠ 0) :
    (values z).read symbols (.list [.atom "/", converted d, converted e]) =
      some (.rat ((i : Rat) / j)) := by
  have hfirst := (read_converted hd).trans rfl
  have hsecond := (read_converted he).trans rfl
  exact (read_quotient hfirst hsecond).trans (binary_div i (by exact_mod_cast hj))

theorem values_read {z : ZeroReading} {env : Valuation} {symbols : String → Option Scalar} {t : Term}
    {v : Scalar} (h : Formed t)
    (htyped : ∀ r ∈ t.refs, ∀ w, env.exact r = .ok w → w.ty = r.ty)
    (hsymbols : ∀ r ∈ t.refs, ∀ w, env.exact r = .ok w → symbols r.text = some w)
    (hv : t.evaluate env = .ok v) : (values z).read symbols t.sexpr = some v := by
  induction h generalizing v with
  | const value =>
    rw [evaluate, fold_const] at hv
    rw [sexpr, fold_const, values_read_sexpr, Except.ok.inj hv]
  | ref r =>
    rw [evaluate, fold_ref] at hv
    rw [sexpr, fold_ref, read_ref]
    exact hsymbols r (by simp [refs]) v hv
  | @app op args t hformed htakes hone ih =>
    rw [evaluate_app] at hv
    obtain ⟨vs, hvs, hv⟩ := except_bind_eq_ok.mp hv
    have hargs : ∀ a ∈ args, ∀ w, a.evaluate env = .ok w →
        (values z).read symbols a.sexpr = some w := by
      intro a ha w hw
      exact ih a ha (fun r hr => htyped r (refs_of_mem ha r hr))
        (fun r hr => hsymbols r (refs_of_mem ha r hr)) hw
    have htys : vs.map Scalar.ty = args.map ty := by
      apply map_of_collect hvs
      intro a ha w hw
      exact ty_of_evaluate (isTyped_of_formed (hformed a ha))
        (fun r hr => htyped r (refs_of_mem ha r hr)) hw
    rw [sexpr_app]
    cases hconverts : converts op args with
    | true =>
      obtain ⟨rfl, hint, rfl⟩ := (converts_iff htakes).mp hconverts
      obtain ⟨x, y, rfl, hy, rfl⟩ := Op.divide_eq_ok hv
      rw [hint] at htys
      simp only [List.map_eq_cons_iff, List.map_eq_nil_iff] at hint
      obtain ⟨a, _, rfl, -, b, _, rfl, -, rfl⟩ := hint
      obtain ⟨ha, hb⟩ := eq_ok_of_collect_pair hvs
      simp only [List.map_cons, List.map_nil, List.cons.injEq, and_true] at htys
      obtain ⟨i, rfl⟩ := eq_int_of_ty htys.1
      obtain ⟨j, rfl⟩ := eq_int_of_ty htys.2
      exact values_converted (hargs a (by simp) _ ha) (hargs b (by simp) _ hb)
        (by simpa [Scalar.toRat] using hy)
    | false =>
      rw [if_neg Bool.false_ne_true, read_list (readAll_of_collect hvs hargs)]
      have hlength : vs.length = args.length := by simpa using congrArg List.length htys
      refine values_apply (htys ▸ htakes) (hlength ▸ hone) ?_ hv
      rw [htys]
      exact not_int_of_converts htakes hconverts

end Smt

namespace Scalar

theorem ty_coerce (ty : Ty) (v : Scalar) : (v.coerce ty).ty = ty := by
  cases ty <;> rfl

theorem truth_eq (v : Scalar) : v.truth = decide (v.toRat ≠ 0) := by
  cases v with
  | bool b => cases b <;> rfl
  | int i => simp [truth, toRat]
  | rat q => by_cases hq : q = 0 <;> simp [truth, toRat, hq]

theorem truncate_eq {v : Scalar} {i : Int} (h : v.toRat = i) : v.truncate = i := by
  cases v with
  | bool b => exact Rat.intCast_injective h
  | int j => exact Rat.intCast_injective h
  | rat q =>
    obtain rfl : q = i := h
    exact Int.tdiv_one i

theorem eq_coerce {v w : Scalar} (h : v.toRat = w.toRat) : v = w.coerce v.ty := by
  cases v with
  | bool p =>
    have hp : (Scalar.bool p).truth = w.truth := by rw [truth_eq, truth_eq, h]
    exact congrArg Scalar.bool hp
  | int i => exact congrArg Scalar.int (truncate_eq h.symm).symm
  | rat q => exact congrArg Scalar.rat h

end Scalar

def Valuation.coerced (env : Valuation) : Valuation := fun r =>
  match env r with
  | some (.exact v) => some (.exact (v.coerce r.ty))
  | other => other

theorem Valuation.exact_coerced (env : Valuation) (r : Ref) :
    env.coerced.exact r = (env.exact r).map (Scalar.coerce r.ty) := by
  unfold Valuation.exact Valuation.coerced
  rcases env r with _ | v | _ <;> rfl

namespace Term

def symbol? (t : Term) (name : String) : Option Ref := t.refs.find? fun r => r.text = name

def sortOf (t : Term) (name : String) : Option Ty := (t.symbol? name).map Ref.ty

def valueOf (t : Term) (env : Valuation) (name : String) : Option Scalar :=
  (t.symbol? name).bind fun r => (env.coerced.exact r).toOption

theorem symbol?_text {t : Term}
    (hnames : ∀ r ∈ t.refs, ∀ r' ∈ t.refs, r.var.name = r'.var.name → r.var = r'.var) {r : Ref}
    (hr : r ∈ t.refs) : t.symbol? r.text = some r := by
  obtain ⟨r', hfind⟩ : ∃ r', t.symbol? r.text = some r' := by
    rw [← Option.isSome_iff_exists, symbol?, List.find?_isSome]
    exact ⟨r, hr, by simp⟩
  have htext : r'.text = r.text := by simpa using List.find?_some hfind
  have hmem : r' ∈ t.refs := List.mem_of_find?_eq_some hfind
  obtain ⟨hname, hstep⟩ := Ref.text_injective htext
  have hvar := hnames r' hmem r hr hname
  rw [hfind]
  exact congrArg some (by cases r; cases r'; simp_all)

/-- What a solver reads is the term: the text is one expression, it has the sort of the term, and under
values that are equal to ones of the types of their references, its value is that of the term. -/
theorem reads_as {t : Term} (h : t.Built) (hbars : ∀ r ∈ t.refs, '|' ∉ r.var.name.toList)
    (hnames : ∀ r ∈ t.refs, ∀ r' ∈ t.refs, r.var.name = r'.var.name → r.var = r'.var) :
    ∃ e, SExpr.parseOne t.smt = .ok e ∧ Smt.sorts.read t.sortOf e = some t.ty ∧
      ∀ z env v, (∀ r ∈ t.refs, ∀ w, env.exact r = .ok w → (w.coerce r.ty).toRat = w.toRat) →
        t.evaluate env = .ok v →
        (Smt.values z).read (t.valueOf env) e = some (v.coerce t.ty) ∧
          (v.coerce t.ty).toRat = v.toRat := by
  have hformed := formed_of_built h
  refine ⟨t.sexpr, SExpr.parseOne_of_spelledBy (spelledBy_sexpr hbars), ?_, ?_⟩
  · apply Smt.sorts_read hformed
    intro r hr
    rw [sortOf, symbol?_text hnames hr]
    rfl
  · intro z env v henv hv
    -- solvers know typed values only, and evaluation takes them for the equal ones it is given
    have htyped : ∀ r ∈ t.refs, ∀ w, env.coerced.exact r = .ok w → w.ty = r.ty := by
      intro r _ w hw
      rw [Valuation.exact_coerced] at hw
      obtain ⟨u, -, rfl⟩ := except_map_eq_ok.mp hw
      exact Scalar.ty_coerce r.ty u
    have hequal : ∀ r ∈ t.refs, (env.coerced.exact r).map Scalar.toRat = (env.exact r).map Scalar.toRat := by
      intro r hr
      rw [Valuation.exact_coerced]
      cases hw : env.exact r with
      | error e => rfl
      | ok w => exact congrArg Except.ok (henv r hr w hw)
    have hvalues := evaluate_congr hequal
    rw [hv] at hvalues
    obtain ⟨w, hw, hwv⟩ := except_map_eq_ok.mp hvalues
    have hty : w.ty = t.ty := ty_of_evaluate (isTyped_of_formed hformed) htyped hw
    have hcoerce : v.coerce t.ty = w := by rw [← hty, ← Scalar.eq_coerce hwv]
    rw [hcoerce]
    refine ⟨Smt.values_read hformed htyped ?_ hw, hwv⟩
    intro r hr w hw
    rw [valueOf, symbol?_text hnames hr, Option.bind_some, hw]
    rfl

def third : Term := .app .div [.ref ⟨⟨"x y", .int, .state⟩, 0⟩, .const (.int 3)]

/-- A third of a whole number is at least a negative fraction. -/
def thirdAtLeast : Term := .app .ge [third, .const (.rat (-1 / 2))]

theorem thirdAtLeast_reads_as : ∃ e,
    SExpr.parseOne "(>= (/ (to_real |x y@0|) (to_real 3)) (- (/ 1.0 2.0)))" = .ok e ∧
      Smt.sorts.read thirdAtLeast.sortOf e = some .bool ∧
      ∀ z, (Smt.values z).read (thirdAtLeast.valueOf fun _ => some (.exact (.int (-2)))) e =
        some (.bool false) := by
  have hdiv : Term.apply .div [.ref ⟨⟨"x y", .int, .state⟩, 0⟩, .const (.int 3)] = .ok third := by
    decide +kernel
  have hthird : third.Built := .apply (by simp [Built.ref, Built.const]) hdiv
  have hge : Term.apply .ge [third, .const (.rat (-1 / 2))] = .ok thirdAtLeast := by
    decide +kernel
  have hbuilt : thirdAtLeast.Built := .apply (by simp [hthird, Built.const]) hge
  have hrefs : ∀ r ∈ thirdAtLeast.refs, r = ⟨⟨"x y", .int, .state⟩, 0⟩ := by
    simp [thirdAtLeast, third, refs]
  have hsmt : thirdAtLeast.smt = "(>= (/ (to_real |x y@0|) (to_real 3)) (- (/ 1.0 2.0)))" := by
    decide +kernel
  have hwhole : ∀ r ∈ thirdAtLeast.refs, ∀ w,
      Valuation.exact (fun _ => some (.exact (.int (-2)))) r = .ok w →
        (w.coerce r.ty).toRat = w.toRat := by
    intro r hr w hw
    rw [hrefs r hr, ← Except.ok.inj hw]
    rfl
  obtain ⟨e, hparse, hsort, hvalue⟩ := reads_as hbuilt
    (fun r hr => by rw [hrefs r hr]; decide) (fun r hr r' hr' _ => by rw [hrefs r hr, hrefs r' hr'])
  refine ⟨e, hsmt ▸ hparse, hsort, fun z => ?_⟩
  exact (hvalue z _ (.bool false) hwhole (by decide +kernel)).1

end Term

end InvariantProver
