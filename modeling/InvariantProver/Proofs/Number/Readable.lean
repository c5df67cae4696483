import InvariantProver.Number.Shortest
import InvariantProver.Proofs.Text.Numeral
import Mathlib.Data.List.TakeWhile

namespace InvariantProver

namespace Text

def Digits (cs : List Char) : Prop := ∀ c ∈ cs, c.isDigit = true

theorem digits_zero : Digits ['0'] := by
  intro c hc
  rw [List.mem_singleton.mp hc]
  decide

theorem Digits.append {cs ds : List Char} (hcs : Digits cs) (hds : Digits ds) : Digits (cs ++ ds) :=
  fun c hc => (List.mem_append.mp hc).elim (hcs c) (hds c)

theorem toNat_of_isDigit {c : Char} (h : c.isDigit = true) : 0x30 ≤ c.toNat ∧ c.toNat < 0x3a := by
  simp only [Char.isDigit, Bool.and_eq_true, decide_eq_true_eq, UInt32.le_iff_toNat_le, ge_iff_le] at h
  change 48 ≤ c.val.toNat ∧ c.val.toNat < 58
  have hzero : '0'.val.toNat = 48 := rfl
  have hnine : '9'.val.toNat = 57 := rfl
  omega

theorem digitValue?_of_isDigit {c : Char} (h : c.isDigit = true) : ∃ d, digitValue? c = some d := by
  obtain ⟨hlow, hhigh⟩ := toNat_of_isDigit h
  exact ⟨c.toNat - 0x30, by simp [digitValue?, digitZeros, hlow, hhigh]⟩

def Stops (cs : List Char) : Prop := ∀ c ∈ cs.head?, digitValue? c = none ∧ c ≠ '_'

theorem takeDigits_of_stops {cs : List Char} (h : Stops cs) : takeDigits cs = ([], cs) := by
  cases cs with
  | nil => rw [takeDigits]
  | cons c cs => rw [takeDigits, (h c rfl).1]

theorem takeDigits_append {cs rest : List Char} (h : Digits cs) (hrest : Stops rest) :
    ∃ ds, takeDigits (cs ++ rest) = (ds, rest) ∧ ds.length = cs.length := by
  induction cs with
  | nil => exact ⟨[], takeDigits_of_stops hrest, rfl⟩
  | cons c cs ih =>
    obtain ⟨d, hd⟩ := digitValue?_of_isDigit (h c (by simp))
    have hcs : Digits cs := fun c hc => h c (List.mem_cons_of_mem _ hc)
    obtain ⟨ds, hds, hlength⟩ := ih hcs
    have hmark : skipMark (cs ++ rest) = cs ++ rest := by
      unfold skipMark
      split
      · next c' cs' heq =>
        cases cs with
        | nil =>
          rw [List.nil_append] at heq
          exact absurd rfl (hrest '_' (by simp [heq])).2
        | cons first others =>
          obtain rfl : first = '_' := (List.cons.inj heq).1
          exact absurd (hcs '_' (by simp)) (by decide)
      · rfl
    refine ⟨d :: ds, ?_, by simp [hlength]⟩
    rw [List.cons_append, takeDigits, hd, hmark]
    simp [hds]

theorem trim_eq_self {cs : List Char} (h : ∀ c ∈ cs, isBlank c = false) : trim cs = cs := by
  have hdrop : ∀ ds : List Char, (∀ c ∈ ds, isBlank c = false) → ds.dropWhile isBlank = ds := by
    intro ds hds
    rw [List.dropWhile_eq_self_iff]
    intro hpos
    rw [hds _ (List.getElem_mem hpos)]
    decide
  rw [trim, trimLeft, hdrop cs h, trimRight, hdrop _ (by simpa using h), List.reverse_reverse]

theorem isBlank_of_isDigit {c : Char} (h : c.isDigit = true) : isBlank c = false := by
  have hrange := toNat_of_isDigit h
  simp [isBlank]
  omega

end Text

open Text

namespace Decimal

structure Shape (cs whole places exponent : List Char) : Prop where
  text : cs = whole ++ (places ++ exponent)
  digits : Digits whole
  nonempty : whole ≠ []
  point : places = [] ∨ ∃ ds, Digits ds ∧ places = '.' :: ds
  power : exponent = [] ∨ ∃ sign ds, (sign = '+' ∨ sign = '-') ∧ Digits ds ∧ ds ≠ [] ∧
    exponent = 'e' :: sign :: ds

variable {cs whole places exponent : List Char}

theorem Shape.stops_exponent (h : Shape cs whole places exponent) : Stops exponent := by
  rcases h.power with rfl | ⟨sign, ds, -, -, -, rfl⟩
  · intro c hc
    cases hc
  · intro c hc
    obtain rfl : 'e' = c := Option.some.inj hc
    decide

theorem Shape.stops_places (h : Shape cs whole places exponent) : Stops (places ++ exponent) := by
  rcases h.point with rfl | ⟨ds, -, rfl⟩
  · exact h.stops_exponent
  · intro c hc
    obtain rfl : '.' = c := Option.some.inj hc
    decide

theorem takeExponent_of_shape (h : Shape cs whole places exponent) :
    ∃ e, takeExponent exponent = (e, []) := by
  rcases h.power with rfl | ⟨sign, ds, hsign, hds, hne, rfl⟩
  · exact ⟨0, rfl⟩
  · have hnil : Stops [] := by simp [Stops]
    obtain ⟨values, hvalues, hlength⟩ := takeDigits_append hds hnil
    have hsigned : ∃ negative, takeSign (sign :: ds) = (negative, ds) := by
      rcases hsign with rfl | rfl
      · exact ⟨false, rfl⟩
      · exact ⟨true, rfl⟩
    obtain ⟨negative, hnegative⟩ := hsigned
    rw [List.append_nil] at hvalues
    cases values with
    | nil => exact absurd (List.length_eq_zero_iff.mp hlength.symm) hne
    | cons v vs => exact ⟨signed negative (digitsValue (v :: vs)), by simp [takeExponent, hnegative, hvalues]⟩

theorem take?_of_shape (h : Shape cs whole places exponent) : ∃ d, take? cs = some (d, []) := by
  obtain ⟨ws, hws, hlength⟩ := takeDigits_append h.digits h.stops_places
  have hplaces : ∃ ps, takePlaces (places ++ exponent) = (ps, exponent) := by
    rcases h.point with rfl | ⟨ds, hds, rfl⟩
    · refine ⟨[], ?_⟩
      rcases h.power with rfl | ⟨sign, ds, -, -, -, rfl⟩ <;> rfl
    · obtain ⟨ps, hps, -⟩ := takeDigits_append hds h.stops_exponent
      exact ⟨ps, hps⟩
  obtain ⟨ps, hps⟩ := hplaces
  obtain ⟨e, he⟩ := takeExponent_of_shape h
  cases ws with
  | nil => exact absurd (List.length_eq_zero_iff.mp hlength.symm) h.nonempty
  | cons w ws => exact ⟨⟨w :: ws, ps, e⟩, by simp [take?, h.text, hws, hps, he]⟩

theorem quotient?_of_shape (h : Shape cs whole places exponent) : Fraction.quotient? cs = none := by
  obtain ⟨ws, hws, hlength⟩ := takeDigits_append h.digits h.stops_places
  unfold Fraction.quotient?
  rw [h.text, hws]
  rcases h.point with rfl | ⟨ds, -, rfl⟩
  · rcases h.power with rfl | ⟨sign, ds, -, -, -, rfl⟩ <;> cases ws <;> rfl
  · cases ws <;> rfl

theorem Shape.mem (h : Shape cs whole places exponent) {c : Char} (hc : c ∈ cs) :
    c.isDigit = true ∨ c ∈ ['.', 'e', '+', '-'] := by
  rw [h.text] at hc
  rcases List.mem_append.mp hc with hc | hc
  · exact .inl (h.digits c hc)
  rcases List.mem_append.mp hc with hc | hc
  · rcases h.point with rfl | ⟨ds, hds, rfl⟩
    · cases hc
    · rcases List.mem_cons.mp hc with rfl | hc
      · exact .inr (by decide)
      · exact .inl (hds c hc)
  · rcases h.power with rfl | ⟨sign, ds, hsign, hds, -, rfl⟩
    · cases hc
    · rcases List.mem_cons.mp hc with rfl | hc
      · exact .inr (by decide)
      rcases List.mem_cons.mp hc with rfl | hc
      · exact .inr (by rcases hsign with rfl | rfl <;> decide)
      · exact .inl (hds c hc)

end Decimal

theorem Fraction.read_of_shape {cs whole places exponent : List Char}
    (h : Decimal.Shape cs whole places exponent) (negative : Bool) :
    ∃ q, Fraction.read (Binary64.withSign negative (String.ofList cs)) = .ok q := by
  have hblank : ∀ c ∈ cs, isBlank c = false := by
    intro c hc
    rcases h.mem hc with hdigit | hmark
    · exact isBlank_of_isDigit hdigit
    · have hmarks : ['.', 'e', '+', '-'].all (!isBlank ·) = true := by decide
      simpa using List.all_eq_true.mp hmarks c hmark
  have hsign : takeSign (trim (Binary64.withSign negative (String.ofList cs)).toList) =
      (negative, cs) := by
    cases negative with
    | true =>
      have htrim : trim ('-' :: cs) = '-' :: cs :=
        trim_eq_self (List.forall_mem_cons.mpr ⟨by decide, hblank⟩)
      simp [Binary64.withSign, htrim, takeSign]
    | false =>
      have hfirst : ∃ c rest, cs = c :: rest ∧ c.isDigit = true := by
        have htext := h.text
        have hdigits := h.digits
        cases hwhole : whole with
        | nil => exact absurd hwhole h.nonempty
        | cons c rest =>
          rw [hwhole] at htext hdigits
          exact ⟨c, _, htext, hdigits c (by simp)⟩
      obtain ⟨c, rest, rfl, hdigit⟩ := hfirst
      have hminus : c ≠ '-' := by rintro rfl; exact absurd hdigit (by decide)
      have hplus : c ≠ '+' := by rintro rfl; exact absurd hdigit (by decide)
      simp [Binary64.withSign, trim_eq_self hblank, takeSign, hminus, hplus]
  obtain ⟨d, hd⟩ := Decimal.take?_of_shape h
  exact ⟨if negative then -d.toRat else d.toRat, by
    simp [Fraction.read, hsign, Decimal.quotient?_of_shape h, hd]⟩

namespace Binary64

theorem power_pos {base : Nat} (h : 0 < base) (k : Int) : 0 < (power base k).1 ∧ 0 < (power base k).2 := by
  cases k with
  | ofNat e => exact ⟨Nat.pow_pos h, Nat.one_pos⟩
  | negSucc e => exact ⟨Nat.one_pos, Nat.pow_pos h⟩

theorem contains_zero {m : Nat} (hm : m ≠ 0) (e : Int) {quarters : Nat → Nat} (point : Nat → Nat)
    (hquarters : ∀ n, 0 < n → 0 < quarters n) (hpoint : point 0 = 0) :
    (interval m e).contains quarters point 0 = false := by
  have hlow : 0 < (interval m e).low := by
    simp only [interval]
    split <;> omega
  have hpos := hquarters _ hlow
  unfold Interval.contains
  split
  · simp [hpoint]
    omega
  · simp [hpoint]

theorem nearest?_ne_zero {m c : Nat} {e k : Int} (hm : m ≠ 0) (h : nearest? m e k = some c) : c ≠ 0 := by
  have hbinary := (power_pos (by decide : 0 < 2) (e - 2)).1
  have hdecimal := (power_pos (by decide : 0 < 10) k).2
  have hquarters : ∀ n, 0 < n → 0 < n * (power 2 (e - 2)).1 * (power 10 k).2 :=
    fun n hn => Nat.mul_pos (Nat.mul_pos hn hbinary) hdecimal
  have hzero := contains_zero hm e (fun c => c * (power 10 k).1 * (power 2 (e - 2)).2) hquarters
    (by simp)
  rintro rfl
  simp only [nearest?] at h
  split at h
  · next hbelow _ =>
    rw [Option.some.inj h, hzero] at hbelow
    cases hbelow
  · cases h
  · cases h
  · next hbelow _ =>
    split at h
    · rw [Option.some.inj h, hzero] at hbelow
      cases hbelow
    · cases h

theorem digits_toDigits (c : Nat) : Digits (Nat.toDigits 10 c) :=
  fun _ h => Nat.isDigit_of_mem_toDigits (by decide) (by decide) h

theorem dropZeros_ne_nil {c : Nat} (hc : c ≠ 0) :
    ((Nat.toDigits 10 c).reverse.dropWhile (· = '0')).reverse ≠ [] := by
  intro hnil
  have hall := List.dropWhile_eq_nil_iff.mp (List.reverse_eq_nil_iff.mp hnil)
  apply hc
  apply eq_zero_of_head?_natText
  rw [toList_natText]
  cases hdigits : Nat.toDigits 10 c with
  | nil => exact absurd hdigits Nat.toDigits_ne_nil
  | cons d ds =>
    rw [List.head?_cons, of_decide_eq_true (hall d (by simp [hdigits]))]

theorem shortest_spec {m : Nat} (hm : m ≠ 0) (e : Int) :
    Digits (shortest m e).1 ∧ (shortest m e).1 ≠ [] := by
  unfold shortest
  extract_lets top exponent found
  have hfound : (found.getD (m, e)).1 ≠ 0 := by
    cases h : found with
    | none => exact hm
    | some p =>
      obtain ⟨i, -, hi⟩ := List.exists_of_findSome?_eq_some h
      obtain ⟨c, hc, rfl⟩ := Option.map_eq_some_iff.mp hi
      exact nearest?_ne_zero hm hc
  refine ⟨fun d hd => ?_, dropZeros_ne_nil hfound⟩
  have hdrop := (List.dropWhile_sublist _).mem (List.mem_reverse.mp hd)
  exact digits_toDigits _ d (List.mem_reverse.mp hdrop)

theorem digits_zeros (n : Int) : Digits (zeros n) := by
  intro c hc
  rw [List.eq_of_mem_replicate hc]
  decide

theorem shape_positional {digits : List Char} (h : Digits digits) (hne : digits ≠ []) (point : Int) :
    ∃ whole places exponent, Decimal.Shape (positional digits point) whole places exponent := by
  unfold positional
  split
  · have hplaces := (digits_zeros (-point)).append h
    exact ⟨['0'], '.' :: (zeros (-point) ++ digits), [], by simp, digits_zero, by simp,
      .inr ⟨_, hplaces, rfl⟩, .inl rfl⟩
  · next hpoint =>
    split
    · exact ⟨digits ++ zeros (point - digits.length), ['.', '0'], [], rfl, h.append (digits_zeros _),
        by simp [hne], .inr ⟨_, digits_zero, rfl⟩, .inl rfl⟩
    · refine ⟨digits.take point.toNat, '.' :: digits.drop point.toNat, [], by simp,
        fun c hc => h c (List.mem_of_mem_take hc), ?_,
        .inr ⟨_, fun c hc => h c (List.mem_of_mem_drop hc), rfl⟩, .inl rfl⟩
      simp [hne]
      omega

theorem shape_scientific {digits : List Char} (h : Digits digits) (hne : digits ≠ []) (point : Int) :
    ∃ whole places exponent, Decimal.Shape (scientific digits point) whole places exponent := by
  obtain ⟨d, rest, rfl⟩ := List.exists_cons_of_ne_nil hne
  unfold scientific
  extract_lets mantissa exponent padded
  have hexponent : Digits exponent := digits_toDigits _
  have hpadded : Digits padded ∧ padded ≠ [] := by
    change Digits (if _ then _ else _) ∧ (if _ then _ else _) ≠ []
    split
    · exact ⟨digits_zero.append hexponent, by simp⟩
    · exact ⟨hexponent, Nat.toDigits_ne_nil⟩
  have hsign : ∃ sign, (if point < 1 then '-' else '+') = sign ∧ (sign = '+' ∨ sign = '-') := by
    split <;> simp
  obtain ⟨sign, hsign, hsigns⟩ := hsign
  have hpower : 'e' :: sign :: padded = [] ∨ ∃ sign' ds, (sign' = '+' ∨ sign' = '-') ∧ Digits ds ∧
      ds ≠ [] ∧ 'e' :: sign :: padded = 'e' :: sign' :: ds :=
    .inr ⟨sign, padded, hsigns, hpadded.1, hpadded.2, rfl⟩
  rw [hsign]
  have hfirst : Digits [d] := fun c hc => h c (by simp_all)
  cases rest with
  | nil => exact ⟨[d], [], _, rfl, hfirst, by simp, .inl rfl, hpower⟩
  | cons d' rest =>
    have hplaces : Digits (d' :: rest) := fun c hc => h c (List.mem_cons_of_mem d hc)
    exact ⟨[d], '.' :: d' :: rest, _, rfl, hfirst, by simp, .inr ⟨_, hplaces, rfl⟩, hpower⟩

theorem shape_magnitudeText (m : Nat) (e : Int) :
    ∃ whole places exponent, Decimal.Shape (magnitudeText m e) whole places exponent := by
  unfold magnitudeText
  split
  · exact ⟨['0'], ['.', '0'], [], rfl, digits_zero, by simp, .inr ⟨_, digits_zero, rfl⟩, .inl rfl⟩
  · next hm =>
    obtain ⟨hdigits, hne⟩ := shortest_spec hm e
    generalize shortest m e = written at hdigits hne
    obtain ⟨digits, point⟩ := written
    dsimp only
    split
    · exact shape_positional hdigits hne point
    · exact shape_scientific hdigits hne point

def IsFinite : Binary64 → Prop
  | finite .. => True
  | _ => False

theorem read_word (negative : Bool) :
    Fraction.read (withSign negative "inf") = .error (.malformed (withSign negative "inf")) ∧
      Fraction.read "nan" = .error (.malformed "nan") := by
  cases negative <;> decide +kernel

theorem read_text (x : Binary64) : (∃ q, Fraction.read x.text = .ok q) ↔ x.IsFinite := by
  cases x with
  | finite negative m e =>
    obtain ⟨_, _, _, h⟩ := shape_magnitudeText m e
    exact ⟨fun _ => trivial, fun _ => Fraction.read_of_shape h negative⟩
  | infinite negative =>
    refine ⟨fun ⟨q, hq⟩ => ?_, False.elim⟩
    rw [text, (read_word negative).1] at hq
    cases hq
  | nan =>
    refine ⟨fun ⟨q, hq⟩ => ?_, False.elim⟩
    rw [text, (read_word false).2] at hq
    cases hq

end Binary64

end InvariantProver
