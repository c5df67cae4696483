import InvariantProver.Proofs.Session.Oracles

namespace InvariantProver

def Assignment.ofTruths (trues : List Ref) : Assignment where
  value r :=
    match r.ty with
    | .bool => .bool (r ∈ trues)
    | .int => .int 0
    | .rat => .rat 0
  typed r := by cases h : r.ty <;> rfl

def choices : List Ref → List (List Ref)
  | [] => [[]]
  | r :: rs => choices rs ++ (choices rs).map (r :: ·)

theorem filter_mem_choices (p : Ref → Bool) (rs : List Ref) : rs.filter p ∈ choices rs := by
  induction rs with
  | nil => simp [choices]
  | cons r rs ih =>
    rw [choices, List.mem_append]
    cases hp : p r with
    | false =>
      rw [List.filter_cons_of_neg (by simp [hp])]
      exact .inl ih
    | true =>
      rw [List.filter_cons_of_pos hp]
      exact .inr (List.mem_map.mpr ⟨_, ih, rfl⟩)

namespace Oracle

def stepVariables (ts : List Term) : List Ref := (ts.flatMap Term.refs).eraseDups

def trues? (z : ZeroReading) (ts : List Term) : Option (List Ref) :=
  (choices (stepVariables ts)).find? fun trues =>
    ts.all fun t => (t.total z (.ofTruths trues)).truth

def exhaustive (z : ZeroReading) : Oracle := fun ts =>
  if (stepVariables ts).all (·.ty = .bool) then
    match trues? z ts with
    | some trues =>
      { answer := .sat, model := fun r => some (.exact ((Assignment.ofTruths trues).value r)) }
    | none => { answer := .unsat }
  else { answer := .unknown none }

section

variable {z : ZeroReading} {ts : List Term}

theorem exists_choice {refs : List Ref} (hbool : ∀ r ∈ refs, r.ty = .bool) (a : Assignment) :
    ∃ trues ∈ choices refs, ∀ r ∈ refs, (Assignment.ofTruths trues).value r = a.value r := by
  refine ⟨refs.filter fun r => a.value r = .bool true, filter_mem_choices _ _, fun r hr => ?_⟩
  have hty : (a.value r).ty = .bool := (a.typed r).trans (hbool r hr)
  simp only [Assignment.ofTruths, hbool r hr, List.mem_filter, hr, true_and]
  cases hvalue : a.value r with
  | bool b => cases b <;> simp
  | int n => rw [hvalue] at hty; cases hty
  | rat q => rw [hvalue] at hty; cases hty

theorem unsatisfiable_of_exhaustive (h : (exhaustive z ts).answer = .unsat) : ¬ Satisfiable z ts := by
  unfold exhaustive at h
  split at h
  case isFalse => cases h
  next hbool =>
  split at h
  · cases h
  · next hnone =>
    rintro ⟨a, ha⟩
    have hrefs : ∀ r ∈ stepVariables ts, r.ty = .bool := by
      simpa only [List.all_eq_true, decide_eq_true_eq] using hbool
    obtain ⟨trues, hmem, hsame⟩ := exists_choice hrefs a
    apply List.find?_eq_none.mp hnone trues hmem
    rw [List.all_eq_true]
    intro t ht
    refine (Term.holds_congr z t fun r hr => hsame r ?_).mpr (ha t ht)
    exact List.mem_eraseDups.mpr (List.mem_flatMap.mpr ⟨t, ht, hr⟩)

theorem model_of_exhaustive (h : (exhaustive z ts).answer = .sat) :
    ∃ a : Assignment, (∀ t ∈ ts, t.Holds z a) ∧
      ∀ r, Memory.valueOf (exhaustive z ts) r = .exact (a.value r) := by
  by_cases hbool : (stepVariables ts).all (·.ty = .bool) = true
  · cases htrues : trues? z ts with
    | some trues =>
      have hfound := htrues
      unfold trues? at hfound
      have hall := List.find?_some hfound
      refine ⟨.ofTruths trues, fun t ht => List.all_eq_true.mp hall t ht, fun r => ?_⟩
      simp only [exhaustive, hbool, htrues, if_true]
      rfl
    | none => simp [exhaustive, hbool, htrues] at h
  · simp [exhaustive, hbool] at h

end

end Oracle

end InvariantProver
