import InvariantProver.Prover.Attempt

namespace InvariantProver.Attempt

variable {σ : Type}

theorem finishAll_eq (rs : List ProofResult) (a : Attempt σ) :
    a.finishAll rs =
      { a with
        results := (a.finishAll rs).results
        pending := (a.finishAll rs).pending
        proved := (a.finishAll rs).proved } := by
  induction rs generalizing a with
  | nil => rfl
  | cons r rs ih => exact ih (a.finish r)

@[simp] theorem engines_finishAll (rs : List ProofResult) (a : Attempt σ) :
    (a.finishAll rs).engines = a.engines := by rw [finishAll_eq]

@[simp] theorem system_finishAll (rs : List ProofResult) (a : Attempt σ) :
    (a.finishAll rs).system = a.system := by rw [finishAll_eq]

@[simp] theorem config_finishAll (rs : List ProofResult) (a : Attempt σ) :
    (a.finishAll rs).config = a.config := by rw [finishAll_eq]

@[simp] theorem opened_finishAll (rs : List ProofResult) (a : Attempt σ) :
    (a.finishAll rs).opened = a.opened := by rw [finishAll_eq]

@[simp] theorem cancelled_finishAll (rs : List ProofResult) (a : Attempt σ) :
    (a.finishAll rs).cancelled = a.cancelled := by rw [finishAll_eq]

theorem count_pending_finishAll (rs : List ProofResult) (a : Attempt σ) (name : String) :
    (a.finishAll rs).pending.count name =
      a.pending.count name - (rs.map ProofResult.property).count name := by
  induction rs generalizing a with
  | nil => rfl
  | cons r rs ih =>
    change ((a.finish r).finishAll rs).pending.count name = _
    rw [ih]
    simp only [finish, List.count_erase, List.map_cons, List.count_cons]
    split <;> omega

theorem get?_results_finishAll (rs : List ProofResult) (a : Attempt σ) (name : String) :
    ((∀ r ∈ rs, r.property ≠ name) ∧
        Entries.get? name (a.finishAll rs).results = Entries.get? name a.results) ∨
      ∃ r ∈ rs, r.property = name ∧ Entries.get? name (a.finishAll rs).results = some r := by
  induction rs generalizing a with
  | nil => exact .inl ⟨by simp, rfl⟩
  | cons r rs ih =>
    rcases ih (a.finish r) with ⟨hnone, hsame⟩ | ⟨r', hr', hname, hsome⟩
    · have hput : Entries.get? name (a.finishAll (r :: rs)).results =
          if r.property = name then some r else Entries.get? name a.results :=
        hsame.trans (Entries.get?_put _ _ _ _)
      by_cases hname : r.property = name
      · refine .inr ⟨r, by simp, hname, ?_⟩
        rw [hput, if_pos hname]
      · refine .inl ⟨?_, by rw [hput, if_neg hname]⟩
        intro r' hr'
        rcases List.mem_cons.mp hr' with rfl | hr'
        · exact hname
        · exact hnone r' hr'
    · exact .inr ⟨r', List.mem_cons_of_mem r hr', hname, hsome⟩

theorem proved_finishAll (rs : List ProofResult) (a : Attempt σ) :
    (a.finishAll rs).proved = a.proved ++ (rs.filter ProofResult.holds).map ProofResult.property := by
  induction rs generalizing a with
  | nil => exact (List.append_nil _).symm
  | cons r rs ih =>
    refine (ih (a.finish r)).trans ?_
    by_cases hr : r.holds = true
    · simp [finish, hr]
    · simp [finish, hr]

theorem mem_proved_finishAll {rs : List ProofResult} {a : Attempt σ} {name : String}
    (h : name ∈ (a.finishAll rs).proved) :
    name ∈ a.proved ∨ ∃ r ∈ rs, r.property = name ∧ r.holds = true := by
  rw [proved_finishAll, List.mem_append, List.mem_map] at h
  refine h.imp_right fun ⟨r, hr, hname⟩ => ?_
  obtain ⟨hmem, hholds⟩ := List.mem_filter.mp hr
  exact ⟨r, hmem, hname, hholds⟩

theorem filter_holds_unknown (names : List String) (reason : String) (depth : Int) (solver : String) :
    (names.map fun name => ProofResult.unknown name reason depth solver).filter ProofResult.holds = [] := by
  refine List.filter_eq_nil_iff.mpr fun r hr => ?_
  obtain ⟨name, -, rfl⟩ := List.mem_map.mp hr
  exact Bool.false_ne_true

def decision (a : Attempt σ) (bs : Entries String (Outcome Trace)) (os : Entries String (Outcome Unit))
    (name : String) : Option ProofResult := do
  let b ← Entries.get? name bs
  let o ← Entries.get? name os
  decide? name a.engines.base a.engines.step b o

section

variable {a : Attempt σ} {bs : Entries String (Outcome Trace)} {os : Entries String (Outcome Unit)}
  {name : String} {r : ProofResult}

theorem property_of_mem_lemmas {t : Term} (h : t ∈ a.lemmas) :
    ∃ name ∈ a.proved, a.system.property name = .ok t := by
  unfold lemmas at h
  split at h
  · obtain ⟨name, hname, ht⟩ := List.mem_filterMap.mp h
    refine ⟨name, hname, ?_⟩
    cases hp : a.system.property name with
    | ok q =>
      rw [hp] at ht
      exact congrArg _ (Option.some.inj ht)
    | error e =>
      rw [hp] at ht
      cases ht
  · cases h

theorem property_of_decide? {base step : Engine σ} {b : Outcome Trace} {o : Outcome Unit}
    (h : decide? name base step b o = some r) : r.property = name := by
  unfold decide? at h
  split at h
  all_goals first
    | cases h; rfl
    | cases h

theorem property_of_decision (h : a.decision bs os name = some r) : r.property = name := by
  unfold decision at h
  cases hb : Entries.get? name bs with
  | none => simp [hb] at h
  | some b =>
    cases ho : Entries.get? name os with
    | none => simp [hb, ho] at h
    | some o =>
      simp only [hb, ho] at h
      exact property_of_decide? h

theorem decisions_eq :
    a.decisions bs os = (a.pending.filterMap (a.decision bs os)).filter (not ∘ ProofResult.holds) ++
      ((a.pending.filterMap (a.decision bs os)).filter ProofResult.holds).mergeSort fun r s =>
        decide (r.property ≤ s.property) := by
  unfold decisions
  change ((a.pending.filterMap (a.decision bs os)).partition ProofResult.holds).2 ++
    ((a.pending.filterMap (a.decision bs os)).partition ProofResult.holds).1.mergeSort _ = _
  rw [List.partition_eq_filter_filter]

theorem decisions_perm : (a.decisions bs os).Perm (a.pending.filterMap (a.decision bs os)) := by
  rw [decisions_eq]
  refine ((List.mergeSort_perm _ _).append_left _).trans ?_
  exact (List.perm_append_comm).trans (List.filter_append_perm _ _)

theorem mem_decisions_iff :
    r ∈ a.decisions bs os ↔ ∃ name ∈ a.pending, a.decision bs os name = some r := by
  rw [decisions_perm.mem_iff, List.mem_filterMap]

theorem count_decided {f : String → Option ProofResult} (h : ∀ name r, f name = some r → r.property = name)
    (names : List String) (name : String) :
    ((names.filterMap f).map ProofResult.property).count name =
      if (f name).isSome then names.count name else 0 := by
  induction names with
  | nil => simp
  | cons name' names ih =>
    rw [List.filterMap_cons]
    cases hf : f name' with
    | none =>
      simp only [ih, List.count_cons]
      by_cases he : name' = name
      · simp [← he, hf]
      · simp [he]
    | some r =>
      simp only [List.map_cons, List.count_cons, ih, h _ _ hf]
      by_cases he : name' = name
      · simp [← he, hf]
      · simp [he]

theorem mem_pending_decideRound :
    name ∈ (a.decideRound bs os).pending ↔ name ∈ a.pending ∧ a.decision bs os name = none := by
  have hcount := count_pending_finishAll (a.decisions bs os)
    { a with warnings := a.warnings ++ a.replayWarnings bs } name
  rw [(decisions_perm.map ProofResult.property).count_eq,
    count_decided (fun name r => property_of_decision)] at hcount
  rw [← List.count_pos_iff, ← List.count_pos_iff]
  change 0 < (finishAll (a.decisions bs os) _).pending.count name ↔ _
  rw [hcount]
  cases a.decision bs os name <;> simp

theorem get?_results_decideRound (a : Attempt σ) (bs : Entries String (Outcome Trace))
    (os : Entries String (Outcome Unit)) (name : String) :
    (∃ r, name ∈ a.pending ∧ a.decision bs os name = some r ∧
        Entries.get? name (a.decideRound bs os).results = some r) ∨
      (name ∈ a.pending → a.decision bs os name = none) ∧
        Entries.get? name (a.decideRound bs os).results = Entries.get? name a.results := by
  rcases get?_results_finishAll (a.decisions bs os)
    { a with warnings := a.warnings ++ a.replayWarnings bs } name with
    ⟨hothers, hsame⟩ | ⟨r, hmem, hproperty, hsome⟩
  · refine .inr ⟨fun hpending => ?_, hsame⟩
    cases hdecision : a.decision bs os name with
    | none => rfl
    | some r =>
      have hmem := mem_decisions_iff.mpr ⟨name, hpending, hdecision⟩
      exact absurd (property_of_decision hdecision) (hothers r hmem)
  · obtain ⟨name', hpending, hdecision⟩ := mem_decisions_iff.mp hmem
    obtain rfl : name' = name := (property_of_decision hdecision).symm.trans hproperty
    exact .inl ⟨r, hpending, hdecision, hsome⟩

end

end InvariantProver.Attempt
