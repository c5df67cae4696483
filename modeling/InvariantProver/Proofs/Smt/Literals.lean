import InvariantProver.Proofs.SExpr.Spelling
import InvariantProver.Proofs.Smt.Operators
import InvariantProver.Proofs.Text.Numeral
import InvariantProver.Smt.Text
import Mathlib.Algebra.Field.Rat
import Mathlib.Data.List.TakeDrop
import Mathlib.Data.Rat.Lemmas
import Mathlib.Tactic.Ring

namespace InvariantProver

open Text

theorem Token.isPlain_of_isDigit {c : Char} (h : c.isDigit = true) : isPlain c = true := by
  have hrange : 48 ≤ c.toNat ∧ c.toNat ≤ 57 := by
    simpa [Char.isDigit, UInt32.le_iff_toNat_le] using h
  have hblank : isBlank c = false := by
    simp [isBlank]
    omega
  have hne : ∀ d : Char, d.isDigit = false → c ≠ d := by
    rintro d hd rfl
    rw [h] at hd
    cases hd
  simp [isPlain, hblank, hne '(' rfl, hne ')' rfl, hne '|' rfl, hne '"' rfl, hne ';' rfl]

def isWord (text : String) : Bool := text ≠ "" && text.toList.all Token.isPlain

theorem isWord_intText (i : Int) : isWord (intText i) = true := by
  rw [isWord, Bool.and_eq_true, List.all_eq_true]
  refine ⟨decide_eq_true (intText_ne_empty i), fun c hc => ?_⟩
  rcases mem_intText hc with rfl | hdigit
  · decide
  · exact Token.isPlain_of_isDigit hdigit

namespace Smt

theorem natural?_natText (n : Nat) : natural? (natText n).toList = some n := by
  have hne : (natText n).toList ≠ [] := fun hnil =>
    natText_ne_empty n (String.toList_eq_nil_iff.mp hnil)
  have hall : (natText n).toList.all Char.isDigit = true :=
    List.all_eq_true.mpr fun c hc => isDigit_of_mem_natText hc
  rw [natural?, if_pos ⟨hne, hall⟩, toList_natText, Nat.ofDigitChars_ten_toDigits]

theorem numeral?_natText (n : Nat) : numeral? (natText n).toList = some n := by
  have hzero : ¬ ((natText n).toList.head? = some '0' ∧ (natText n).toList ≠ ['0']) := by
    rintro ⟨hhead, hne⟩
    obtain rfl := eq_zero_of_head?_natText hhead
    exact hne rfl
  rw [numeral?, if_neg hzero, natural?_natText]

theorem natural?_zero : natural? ['0'] = some 0 := by
  decide

theorem decimal?_natText (n : Nat) : decimal? (natText n ++ ".0").toList = some n := by
  have hplain : ∀ c ∈ (natText n).toList, decide (c ≠ '.') = true := by
    intro c hc
    have hdigit := isDigit_of_mem_natText hc
    have hne : c ≠ '.' := by
      rintro rfl
      cases hdigit
    exact decide_eq_true hne
  have hspan : (natText n ++ ".0").toList.span (· ≠ '.') = ((natText n).toList, ['.', '0']) := by
    rw [String.toList_append, List.span_eq_takeWhile_dropWhile,
      List.takeWhile_append_of_pos hplain, List.dropWhile_append_of_pos hplain]
    simp
  simp only [decimal?, hspan, numeral?_natText, natural?_zero]
  exact congrArg some (by simp)

theorem numeral?_decimal (n : Nat) : numeral? (natText n ++ ".0").toList = none := by
  have hpoint : (natText n ++ ".0").toList.all Char.isDigit = false := by
    simp
  unfold numeral?
  split
  · rfl
  · rw [natural?, if_neg]
    rw [hpoint]
    simp

theorem isDigit_of_natural? {cs : List Char} {n : Nat} (h : natural? cs = some n) :
    ∀ c ∈ cs, c.isDigit = true := by
  unfold natural? at h
  split at h
  · next hcs => exact List.all_eq_true.mp hcs.2
  · cases h

theorem isDigit_of_numeral? {cs : List Char} {n : Nat} (h : numeral? cs = some n) :
    ∀ c ∈ cs, c.isDigit = true := by
  unfold numeral? at h
  split at h
  · cases h
  · exact isDigit_of_natural? h

theorem isDigit_of_decimal? {cs : List Char} {q : Rat} (h : decimal? cs = some q) :
    ∀ c ∈ cs, c.isDigit = true ∨ c = '.' := by
  intro c hc
  unfold decimal? at h
  split at h
  · next whole point places hspan =>
    obtain ⟨n, hwhole, h⟩ := Option.bind_eq_some_iff.mp h
    obtain ⟨m, hplaces, -⟩ := Option.bind_eq_some_iff.mp h
    rw [List.span_eq_takeWhile_dropWhile, Prod.mk.injEq] at hspan
    rw [← List.takeWhile_append_dropWhile (p := fun c => decide (c ≠ '.')) (l := cs), hspan.1,
      hspan.2] at hc
    have hpoint : point = '.' := by
      have hstop := List.head?_dropWhile_not (fun c => decide (c ≠ '.')) cs
      rw [hspan.2] at hstop
      simpa using hstop
    rcases List.mem_append.mp hc with hc | hc
    · exact .inl (isDigit_of_numeral? hwhole c hc)
    rcases List.mem_cons.mp hc with rfl | hc
    · exact .inr hpoint
    · exact .inl (isDigit_of_natural? hplaces c hc)
  · cases h

theorem not_at_of_literal? {text : String} {value : Scalar} (h : literal? text = some value) :
    '@' ∉ text.toList := by
  intro hat
  unfold literal? at h
  split at h
  · next htext =>
    rw [htext] at hat
    revert hat
    decide
  split at h
  · next htext =>
    rw [htext] at hat
    revert hat
    decide
  rcases Option.or_eq_some_iff.mp h with h | ⟨-, h⟩
  · obtain ⟨n, hn, -⟩ := Option.map_eq_some_iff.mp h
    exact absurd (isDigit_of_numeral? hn _ hat) (by decide)
  · obtain ⟨q, hq, -⟩ := Option.map_eq_some_iff.mp h
    exact absurd (isDigit_of_decimal? hq _ hat) (by decide)

end Smt

namespace Scalar

def signedExpr (negative : Bool) (body : SExpr) : SExpr :=
  if negative then .list [.atom "-", body] else body

def decimalText (n : Nat) : String := natText n ++ ".0"

def sexpr : Scalar → SExpr
  | bool true => .atom "true"
  | bool false => .atom "false"
  | int i => signedExpr (i < 0) (.atom (natText i.natAbs))
  | rat q =>
    let n := .atom (decimalText q.num.natAbs)
    signedExpr (q.num < 0) (if q.den = 1 then n else .list [.atom "/", n, .atom (decimalText q.den)])

end Scalar

namespace SExpr

theorem spelledBy_natText (n : Nat) : (atom (natText n)).SpelledBy (natText n) :=
  spelledBy_plain (natText_ne_empty n) fun _ hc => Token.isPlain_of_isDigit (isDigit_of_mem_natText hc)

theorem spelledBy_decimalText (n : Nat) :
    (atom (Scalar.decimalText n)).SpelledBy (Scalar.decimalText n) := by
  apply spelledBy_plain
  · intro hempty
    have hlist := congrArg String.toList hempty
    simp [Scalar.decimalText] at hlist
  · intro c hc
    rw [Scalar.decimalText, String.toList_append, List.mem_append] at hc
    rcases hc with hc | hc
    · exact Token.isPlain_of_isDigit (isDigit_of_mem_natText hc)
    · have hpoint : ".0".toList.all Token.isPlain = true := by decide
      exact List.all_eq_true.mp hpoint c hc

theorem spelledBy_signed {body : SExpr} {text : String} (h : body.SpelledBy text) (negative : Bool) :
    (Scalar.signedExpr negative body).SpelledBy (signedText negative text) := by
  cases negative with
  | false => exact h
  | true =>
    have hminus : (atom "-").SpelledBy "-" := spelledBy_plain (by decide) (List.all_eq_true.mp (by decide))
    have hbody : ∀ part ∈ [(body, text)], part.1.SpelledBy part.2 := by simpa using h
    exact spelledBy_parenthesized hminus [(body, text)] hbody

theorem spelledBy_sexpr (value : Scalar) : value.sexpr.SpelledBy value.smt := by
  cases value with
  | bool b => cases b <;> exact spelledBy_plain (by decide) (List.all_eq_true.mp (by decide))
  | int i => exact spelledBy_signed (spelledBy_natText _) _
  | rat q =>
    apply spelledBy_signed
    split
    · exact spelledBy_decimalText _
    · have hslash : (atom "/").SpelledBy "/" := spelledBy_plain (by decide) (List.all_eq_true.mp (by decide))
      have hparts : ∀ p ∈ [q.num.natAbs, q.den], (atom (Scalar.decimalText p)).SpelledBy (Scalar.decimalText p) :=
        fun p _ => spelledBy_decimalText p
      exact spelledBy_parenthesized hslash _ hparts

end SExpr

namespace Smt

section

variable {α : Type} {T : Theory α} {symbols : String → Option α}

theorem read_literal {text : String} {value : Scalar} (h : literal? text = some value) :
    T.read symbols (.atom text) = some (T.constant value) := by
  rw [Theory.read, Theory.leaf, h]
  rfl

theorem read_list {f : String} {args : List SExpr} {as : List α}
    (h : T.readAll symbols args = some as) :
    T.read symbols (.list (.atom f :: args)) = T.apply f as := by
  rw [Theory.read, h]
  rfl

theorem readAll_nil : T.readAll symbols [] = some [] := by
  rw [Theory.readAll]

theorem readAll_cons {e : SExpr} {es : List SExpr} {a : α} {as : List α}
    (h : T.read symbols e = some a) (hs : T.readAll symbols es = some as) :
    T.readAll symbols (e :: es) = some (a :: as) := by
  rw [Theory.readAll, h, hs]
  rfl

end

theorem literal?_natText (n : Nat) : literal? (natText n) = some (.int n) := by
  have hnumeral := numeral?_natText n
  have hne : ∀ text : String, numeral? text.toList = none → natText n ≠ text := by
    rintro text hnone htext
    rw [htext, hnone] at hnumeral
    cases hnumeral
  rw [literal?, if_neg (hne "true" rfl), if_neg (hne "false" rfl), hnumeral]
  rfl

theorem literal?_decimalText (n : Nat) : literal? (Scalar.decimalText n) = some (.rat n) := by
  have hdecimal := decimal?_natText n
  have hne : ∀ text : String, decimal? text.toList = none → Scalar.decimalText n ≠ text := by
    rintro text hnone htext
    rw [← Scalar.decimalText, htext, hnone] at hdecimal
    cases hdecimal
  rw [literal?, if_neg (hne "true" rfl), if_neg (hne "false" rfl), Scalar.decimalText, hdecimal,
    numeral?_decimal]
  rfl

section

variable {α : Type} {T : Theory α} {symbols : String → Option α}

theorem read_signed {negative : Bool} {body : SExpr} {a : α} (h : T.read symbols body = some a) :
    T.read symbols (Scalar.signedExpr negative body) = if negative then T.unary "-" a else some a := by
  cases negative with
  | false => exact h
  | true => exact read_list (readAll_cons h readAll_nil)

theorem read_quotient {e e' : SExpr} {a b : α} (h : T.read symbols e = some a)
    (h' : T.read symbols e' = some b) :
    T.read symbols (.list [.atom "/", e, e']) = T.binary "/" a b :=
  read_list (readAll_cons h (readAll_cons h' readAll_nil))

end

theorem sorts_read_sexpr (symbols : String → Option Ty) (value : Scalar) :
    sorts.read symbols value.sexpr = some value.ty := by
  cases value with
  | bool b =>
    have hliteral : literal? (if b then "true" else "false") = some (.bool b) := by cases b <;> rfl
    cases b <;> exact read_literal hliteral
  | int i =>
    rw [Scalar.sexpr, read_signed (read_literal (literal?_natText _))]
    split <;> rfl
  | rat q =>
    have hdecimal : ∀ n, sorts.read symbols (.atom (Scalar.decimalText n)) = some .rat := fun n =>
      read_literal (literal?_decimalText n)
    have hbody : sorts.read symbols (if q.den = 1 then .atom (Scalar.decimalText q.num.natAbs)
        else .list [.atom "/", .atom (Scalar.decimalText q.num.natAbs),
          .atom (Scalar.decimalText q.den)]) = some .rat := by
      split
      · exact hdecimal _
      · exact read_quotient (hdecimal _) (hdecimal _)
    rw [Scalar.sexpr, read_signed hbody]
    split <;> rfl

theorem values_read_sexpr (z : ZeroReading) (symbols : String → Option Scalar) (value : Scalar) :
    (values z).read symbols value.sexpr = some value := by
  cases value with
  | bool b =>
    have hliteral : literal? (if b then "true" else "false") = some (.bool b) := by cases b <;> rfl
    cases b <;> exact read_literal hliteral
  | int i =>
    rw [Scalar.sexpr, read_signed (read_literal (literal?_natText _))]
    split
    · next hneg =>
      have hneg : i < 0 := by simpa using hneg
      have hi : -(i.natAbs : Int) = i := by omega
      exact congrArg (fun i => some (Scalar.int i)) hi
    · next hpos =>
      have hpos : ¬ i < 0 := by simpa using hpos
      have hi : (i.natAbs : Int) = i := by omega
      exact congrArg (fun i => some (Scalar.int i)) hi
  | rat q =>
    have hdecimal : ∀ n : Nat, (values z).read symbols (.atom (Scalar.decimalText n)) = some (.rat n) :=
      fun n => read_literal (literal?_decimalText n)
    have hbody : (values z).read symbols (if q.den = 1 then .atom (Scalar.decimalText q.num.natAbs)
        else .list [.atom "/", .atom (Scalar.decimalText q.num.natAbs),
          .atom (Scalar.decimalText q.den)]) = some (.rat (q.num.natAbs / q.den)) := by
      split
      · next hden =>
        rw [hdecimal, hden]
        simp
      · have hden : ((q.den : Nat) : Rat) ≠ 0 := by exact_mod_cast q.den_nz
        exact (read_quotient (hdecimal _) (hdecimal _)).trans (binary_div _ hden)
    have hnum : (q.num : Rat) / q.den = q := Rat.num_div_den q
    rw [Scalar.sexpr, read_signed hbody]
    split
    · next hneg =>
      have hneg : q.num < 0 := by simpa using hneg
      have habs : ((q.num.natAbs : Nat) : Rat) = -q.num := by
        rw [← Int.cast_natCast, Int.ofNat_natAbs_of_nonpos hneg.le, Int.cast_neg]
      change some (Scalar.rat (-(q.num.natAbs / q.den))) = _
      rw [habs, neg_div, neg_neg, hnum]
    · next hpos =>
      have hpos : ¬ q.num < 0 := by simpa using hpos
      have habs : ((q.num.natAbs : Nat) : Rat) = q.num := by
        rw [← Int.cast_natCast, Int.natAbs_of_nonneg (not_lt.mp hpos)]
      rw [habs, hnum]

end Smt

end InvariantProver
