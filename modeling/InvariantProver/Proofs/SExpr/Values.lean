import InvariantProver.Proofs.Number.Readable
import InvariantProver.Proofs.Smt.Literals
import InvariantProver.SExpr.Value

namespace InvariantProver

open Text

namespace Text

def digitValues (cs : List Char) : List Nat := cs.map fun c => c.toNat - '0'.toNat

theorem digitValue?_eq {c : Char} (h : c.isDigit = true) :
    digitValue? c = some (c.toNat - '0'.toNat) := by
  obtain ⟨hlow, hhigh⟩ := toNat_of_isDigit h
  simp [digitValue?, digitZeros, hlow, hhigh]

theorem takeDigits_digits {cs rest : List Char} (h : Digits cs) (hrest : Stops rest) :
    takeDigits (cs ++ rest) = (digitValues cs, rest) := by
  induction cs with
  | nil => exact takeDigits_of_stops hrest
  | cons c cs ih =>
    have hcs : Digits cs := fun c hc => h c (List.mem_cons_of_mem _ hc)
    have hmark : skipMark (cs ++ rest) = cs ++ rest := by
      unfold skipMark
      split
      · next c' cs' heq =>
        cases cs with
        | nil =>
          rw [List.nil_append] at heq
          exact absurd rfl (hrest '_' (by simp [heq])).2
        | cons first others =>
          obtain rfl : first = '_' := (List.cons.inj heq).1
          exact absurd (hcs '_' (by simp)) (by decide)
      · rfl
    rw [List.cons_append, takeDigits, digitValue?_eq (h c (by simp)), hmark]
    simp [ih hcs, digitValues]

theorem digitsValue_digitValues (cs : List Char) :
    digitsValue (digitValues cs) = Nat.ofDigitChars 10 cs 0 := by
  rw [digitsValue, digitValues, List.foldl_map]
  rfl

end Text

namespace Decimal

variable {cs whole places : List Char}

def ofDigits (whole places : List Char) : Rat :=
  Nat.ofDigitChars 10 whole 0 + Nat.ofDigitChars 10 places 0 / (10 ^ places.length : Nat)

theorem toRat_digitValues (whole places : List Char) :
    toRat ⟨digitValues whole, digitValues places, 0⟩ = ofDigits whole places := by
  have hdigits : digits ⟨digitValues whole, digitValues places, 0⟩ =
      10 ^ places.length * Nat.ofDigitChars 10 whole 0 + Nat.ofDigitChars 10 places 0 := by
    rw [digits, digitValues, digitValues, ← List.map_append]
    change digitsValue (digitValues (whole ++ places)) = _
    rw [digitsValue_digitValues, Nat.ofDigitChars_append, Nat.ofDigitChars_eq_ofDigitChars_zero]
  have hscale : scale ⟨digitValues whole, digitValues places, 0⟩ = -(places.length : Int) := by
    simp [scale, digitValues]
  unfold toRat
  rw [hscale, hdigits]
  unfold ofDigits
  cases hlength : places.length with
  | zero => simp [List.length_eq_zero_iff.mp hlength]
  | succ k =>
    have hpower : ((10 ^ (k + 1) : Nat) : Rat) ≠ 0 := by
      exact_mod_cast Nat.pow_pos (n := k + 1) (by decide : 0 < 10) |>.ne'
    have hnegative : -((k + 1 : Nat) : Int) = .negSucc k := rfl
    rw [hnegative]
    change mkRat _ (10 ^ (k + 1)) = _
    rw [Rat.mkRat_eq_div, Int.cast_natCast, Nat.cast_add, Nat.cast_mul, add_div,
      mul_div_cancel_left₀ _ hpower]

theorem take?_digits {point : List Char} (hwhole : Digits whole) (hne : whole ≠ [])
    (hplaces : Digits places) (hpoint : point = [] ∧ places = [] ∨ point = '.' :: places) :
    take? (whole ++ point) = some (⟨digitValues whole, digitValues places, 0⟩, []) := by
  have hnil : Stops [] := by simp [Stops]
  have hstops : Stops point := by
    rcases hpoint with ⟨rfl, -⟩ | rfl
    · exact hnil
    · intro c hc
      obtain rfl : '.' = c := Option.some.inj hc
      decide
  have htaken : takePlaces point = (digitValues places, []) := by
    rcases hpoint with ⟨rfl, rfl⟩ | rfl
    · rfl
    · have hdigits := takeDigits_digits hplaces hnil
      rwa [List.append_nil] at hdigits
  have hnonempty : (digitValues whole).isEmpty = false := by
    simpa [digitValues] using hne
  simp [take?, takeDigits_digits hwhole hstops, htaken, hnonempty, takeExponent]

end Decimal

theorem Fraction.read_digits {whole places point : List Char} (hwhole : Digits whole)
    (hne : whole ≠ []) (hplaces : Digits places)
    (hpoint : point = [] ∧ places = [] ∨ point = '.' :: places) :
    Fraction.read (String.ofList (whole ++ point)) = .ok (Decimal.ofDigits whole places) := by
  have hshape : Decimal.Shape (whole ++ point) whole point [] :=
    ⟨by simp, hwhole, hne, hpoint.imp And.left fun h => ⟨places, hplaces, h⟩, .inl rfl⟩
  have hblank : ∀ c ∈ whole ++ point, isBlank c = false := by
    intro c hc
    rcases hshape.mem hc with hdigit | hmark
    · exact isBlank_of_isDigit hdigit
    · have hmarks : ['.', 'e', '+', '-'].all (!isBlank ·) = true := by decide
      simpa using List.all_eq_true.mp hmarks c hmark
  have hsign : takeSign (trim (whole ++ point)) = (false, whole ++ point) := by
    obtain ⟨c, rest, rfl⟩ := List.exists_cons_of_ne_nil hne
    have hdigit := hwhole c (by simp)
    have hminus : c ≠ '-' := by
      rintro rfl
      exact absurd hdigit (by decide)
    have hplus : c ≠ '+' := by
      rintro rfl
      exact absurd hdigit (by decide)
    rw [trim_eq_self hblank, List.cons_append]
    simp [takeSign, hminus, hplus]
  simp only [Fraction.read, String.toList_ofList, hsign, Decimal.quotient?_of_shape hshape,
    Decimal.take?_digits hwhole hne hplaces hpoint]
  exact congrArg Except.ok (Decimal.toRat_digitValues whole places)

namespace Smt

theorem natural?_eq_some {cs : List Char} {n : Nat} (h : natural? cs = some n) :
    cs ≠ [] ∧ Digits cs ∧ Nat.ofDigitChars 10 cs 0 = n := by
  refine ⟨?_, isDigit_of_natural? h, ?_⟩
  · rintro rfl
    cases h
  · unfold natural? at h
    split at h
    · exact Option.some.inj h
    · cases h

theorem numeral?_eq_some {cs : List Char} {n : Nat} (h : numeral? cs = some n) :
    cs ≠ [] ∧ Digits cs ∧ Nat.ofDigitChars 10 cs 0 = n := by
  unfold numeral? at h
  split at h
  · cases h
  · exact natural?_eq_some h

theorem decimal?_eq_some {cs : List Char} {q : Rat} (h : decimal? cs = some q) :
    ∃ whole places, cs = whole ++ '.' :: places ∧ Digits whole ∧ whole ≠ [] ∧ Digits places ∧
      places ≠ [] ∧ Decimal.ofDigits whole places = q := by
  unfold decimal? at h
  split at h
  · next whole point places hspan =>
    obtain ⟨n, hwhole, h⟩ := Option.bind_eq_some_iff.mp h
    obtain ⟨m, hplaces, hq⟩ := Option.bind_eq_some_iff.mp h
    obtain ⟨hne, hwholeDigits, hn⟩ := numeral?_eq_some hwhole
    obtain ⟨hplacesNe, hplacesDigits, hm⟩ := natural?_eq_some hplaces
    rw [List.span_eq_takeWhile_dropWhile, Prod.mk.injEq] at hspan
    have htext : cs = whole ++ point :: places := by
      rw [← List.takeWhile_append_dropWhile (p := fun c => decide (c ≠ '.')) (l := cs), hspan.1, hspan.2]
    have hpoint : point = '.' := by
      have hstop := List.head?_dropWhile_not (fun c => decide (c ≠ '.')) cs
      rw [hspan.2] at hstop
      simpa using hstop
    rw [hpoint] at htext
    refine ⟨whole, places, htext, hwholeDigits, hne, hplacesDigits, hplacesNe, ?_⟩
    rw [Decimal.ofDigits, hn, hm]
    exact Option.some.inj hq
  · cases h

end Smt

namespace SExpr

inductive Amounts : SExpr → Rat → Prop
  | whole {digits : List Char} : Digits digits → digits ≠ [] →
    Amounts (atom (String.ofList digits)) (Nat.ofDigitChars 10 digits 0)
  | decimal {whole places : List Char} : Digits whole → whole ≠ [] → Digits places → places ≠ [] →
    Amounts (atom (String.ofList (whole ++ '.' :: places))) (Decimal.ofDigits whole places)
  | negated {e : SExpr} {q : Rat} : Amounts e q → Amounts (list [atom "-", e]) (-q)
  | divided {e e' : SExpr} {p q : Rat} :
    Amounts e p → Amounts e' q → q ≠ 0 → Amounts (list [atom "/", e, e']) (p / q)
  | converted {e : SExpr} {q : Rat} : Amounts e q → Amounts (list [atom "to_real", e]) q

theorem number_of_amounts {e : SExpr} {q : Rat} (h : e.Amounts q) : number e = .ok q := by
  induction h with
  | @whole digits hdigits hne =>
    have hnone : Digits [] := by simp [Digits]
    have hread : Fraction.read (String.ofList (digits ++ [])) = .ok (Decimal.ofDigits digits []) :=
      Fraction.read_digits hdigits hne hnone (.inl ⟨rfl, rfl⟩)
    rw [List.append_nil] at hread
    rw [number, numeral, hread, Decimal.ofDigits]
    simp
  | decimal hwhole hne hplaces _ =>
    rw [number, numeral, Fraction.read_digits hwhole hne hplaces (.inr rfl)]
  | negated _ ih =>
    rw [number, if_pos rfl, ih]
    rfl
  | divided _ _ hq ih ih' =>
    rw [number, if_pos rfl, ih, ih']
    simp [bind, Except.bind, quotient, Fraction.divide, hq, Except.mapError]
  | converted _ ih => rw [number, if_neg (by decide), if_pos rfl, ih]

theorem rootObject?_of_amounts {e : SExpr} {q : Rat} (h : e.Amounts q) : rootObject? e = none := by
  cases h <;> rfl

inductive Denotes : SExpr → Rat → Prop
  | numeral {text : String} {n : Nat} : Smt.numeral? text.toList = some n → Denotes (atom text) n
  | decimal {text : String} {q : Rat} : Smt.decimal? text.toList = some q → Denotes (atom text) q
  | negated {e : SExpr} {q : Rat} : Denotes e q → Denotes (list [atom "-", e]) (-q)
  | divided {e e' : SExpr} {p q : Rat} :
    Denotes e p → Denotes e' q → q ≠ 0 → Denotes (list [atom "/", e, e']) (p / q)

theorem Denotes.amounts {e : SExpr} {q : Rat} (h : e.Denotes q) : e.Amounts q := by
  induction h with
  | @numeral text n h =>
    obtain ⟨hne, hdigits, rfl⟩ := Smt.numeral?_eq_some h
    have hwhole := Amounts.whole hdigits hne
    rwa [String.ofList_toList] at hwhole
  | @decimal text q h =>
    obtain ⟨whole, places, htext, hwhole, hne, hplaces, hplacesNe, rfl⟩ := Smt.decimal?_eq_some h
    have hdecimal := Amounts.decimal hwhole hne hplaces hplacesNe
    rwa [← htext, String.ofList_toList] at hdecimal
  | negated _ ih => exact .negated ih
  | divided _ _ hq ih ih' => exact .divided ih ih' hq

def Prints (e : SExpr) : Ty → Value → Prop
  | .bool, .exact (.bool b) => e = atom (if b then "true" else "false")
  | .int, .exact (.int i) => e.Denotes i
  | .rat, .exact (.rat q) => e.Denotes q
  | _, _ => False

theorem value_of_prints {e : SExpr} {ty : Ty} {v : Value} (h : e.Prints ty v) : e.value ty = .ok v := by
  unfold Prints at h
  split at h
  · next b =>
    subst h
    cases b <;> rfl
  · next i =>
    simp [value, number_of_amounts h.amounts, bind, Except.bind, pure, Except.pure]
  · next q =>
    simp [value, rootObject?_of_amounts h.amounts, number_of_amounts h.amounts, bind, Except.bind, pure, Except.pure]
  · exact h.elim

theorem denotes_signed {body : SExpr} {q : Rat} (h : body.Denotes q) (negative : Bool) :
    (Scalar.signedExpr negative body).Denotes (if negative then -q else q) := by
  cases negative with
  | false => exact h
  | true => exact .negated h

theorem signed_natAbs (i : Int) :
    (if decide (i < 0) = true then -((i.natAbs : Nat) : Rat) else (i.natAbs : Nat)) = i := by
  split
  · next hneg =>
    have hneg : i < 0 := of_decide_eq_true hneg
    rw [← Int.cast_natCast, Int.ofNat_natAbs_of_nonpos hneg.le, Int.cast_neg, neg_neg]
  · next hpos =>
    have hpos : ¬ i < 0 := by simpa using hpos
    rw [← Int.cast_natCast, Int.natAbs_of_nonneg (not_lt.mp hpos)]

theorem signed_quotient (q : Rat) :
    (if decide (q.num < 0) = true then -((q.num.natAbs : Rat) / q.den) else (q.num.natAbs : Rat) / q.den) =
      q := by
  have hnum := signed_natAbs q.num
  split
  · next hneg =>
    rw [if_pos hneg] at hnum
    rw [← neg_div, hnum, Rat.num_div_den]
  · next hpos =>
    rw [if_neg hpos] at hnum
    rw [hnum, Rat.num_div_den]

theorem denotes_rat {q : Rat} {body : SExpr} (h : body.Denotes ((q.num.natAbs : Rat) / q.den)) :
    (Scalar.signedExpr (q.num < 0) body).Denotes q := by
  have hdenotes := denotes_signed h (decide (q.num < 0))
  rwa [signed_quotient] at hdenotes

theorem prints_sexpr (value : Scalar) : value.sexpr.Prints value.ty (.exact value) := by
  cases value with
  | bool b => cases b <;> rfl
  | int i =>
    have hdenotes := denotes_signed (.numeral (Smt.numeral?_natText i.natAbs)) (decide (i < 0))
    rwa [signed_natAbs] at hdenotes
  | rat q =>
    have hdecimal : ∀ n : Nat, (atom (Scalar.decimalText n)).Denotes n := fun n =>
      .decimal (Smt.decimal?_natText n)
    apply denotes_rat
    split
    · next hden =>
      rw [hden]
      simpa using hdecimal q.num.natAbs
    · have hden : ((q.den : Nat) : Rat) ≠ 0 := by exact_mod_cast q.den_nz
      exact .divided (hdecimal _) (hdecimal _) hden

end SExpr

end InvariantProver
