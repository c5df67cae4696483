import InvariantProver.Proofs.Prover.Rounds

namespace InvariantProver.Attempt

variable {σ : Type}

section

variable {a : Attempt σ} {bs : Entries String (Outcome Trace)} {os : Entries String (Outcome Unit)}
  {name reason : String} {depth : Int} {r : ProofResult}

def exhausted? (a : Attempt σ) (name : String) : Option ProofResult :=
  if a.config.depthBound.any (· ≤ a.engines.base.depth) then
    some (.unknown name depthExhaustedReason a.engines.base.depth a.engines.base.session.name)
  else none

def verdict? (a : Attempt σ) (bs : Entries String (Outcome Trace)) (os : Entries String (Outcome Unit))
    (name : String) : Option ProofResult :=
  (a.decision bs os name).or (a.exhausted? name)

theorem get?_results_giveUp (h : name ∈ a.pending) :
    Entries.get? name (a.giveUp reason depth).results =
      some (.unknown name reason depth a.engines.base.session.name) := by
  rcases get?_results_finishAll (a.pending.map fun name =>
    .unknown name reason depth a.engines.base.session.name) a name with ⟨hnone, -⟩ | ⟨r, hmem, hname, hsome⟩
  · exact absurd rfl (hnone _ (List.mem_map.mpr ⟨name, h, rfl⟩))
  · obtain ⟨name', -, rfl⟩ := List.mem_map.mp hmem
    obtain rfl : name' = name := hname
    exact hsome

theorem closed_giveUp (h : name ∉ a.pending) :
    name ∉ (a.giveUp reason depth).pending ∧
      Entries.get? name (a.giveUp reason depth).results = Entries.get? name a.results := by
  constructor
  · rw [giveUp, ← List.count_pos_iff, count_pending_finishAll, List.count_eq_zero_of_not_mem h]
    omega
  · rcases get?_results_finishAll (a.pending.map fun name =>
      .unknown name reason depth a.engines.base.session.name) a name with ⟨-, hsame⟩ | ⟨r, hmem, hname, -⟩
    · exact hsame
    · obtain ⟨name', hpending, rfl⟩ := List.mem_map.mp hmem
      exact absurd (hname ▸ hpending) h

theorem proved_giveUp (reason : String) (depth : Int) (a : Attempt σ) :
    (a.giveUp reason depth).proved = a.proved := by
  rw [giveUp, proved_finishAll, filter_holds_unknown, List.map_nil, List.append_nil]

theorem closed_decideRound (bs : Entries String (Outcome Trace)) (os : Entries String (Outcome Unit))
    (h : name ∉ a.pending) :
    name ∉ (a.decideRound bs os).pending ∧
      Entries.get? name (a.decideRound bs os).results = Entries.get? name a.results := by
  refine ⟨fun hmem => h (mem_pending_decideRound.mp hmem).1, ?_⟩
  rcases get?_results_decideRound a bs os name with ⟨-, hpending, -⟩ | ⟨-, hsame⟩
  · exact absurd hpending h
  · exact hsame

theorem decided_decideRound (h : name ∈ a.pending) (hr : a.decision bs os name = some r) :
    name ∉ (a.decideRound bs os).pending ∧
      Entries.get? name (a.decideRound bs os).results = some r := by
  constructor
  · rw [mem_pending_decideRound, hr]
    simp
  · rcases get?_results_decideRound a bs os name with ⟨r', -, hr', hsome⟩ | ⟨hnone, -⟩
    · rw [hsome, ← hr', hr]
    · rw [hnone h] at hr
      cases hr

theorem finding_of_decision_none (hnone : a.decision bs os name = none) {b : Outcome Trace}
    {o : Outcome Unit} (hb : Entries.get? name bs = some b) (ho : Entries.get? name os = some o) :
    b.finding = .nothing := by
  simp only [decision, hb, ho, Option.bind_eq_bind, Option.bind_some] at hnone
  unfold decide? at hnone
  split at hnone
  all_goals first
    | assumption
    | cases hnone

end

variable [Backend σ] {a b b' : Attempt σ} {n m : Nat} {name : String} {r : ProofResult}

inductive Reaches (a : Attempt σ) : Nat → Attempt σ → Prop
  | start : Reaches a 0 a
  | next {n : Nat} {b b' : Attempt σ} :
    Reaches a n b → outcome round b = (.ok false, b') → Reaches a (n + 1) b'

theorem Reaches.unique (h : Reaches a n b) (h' : Reaches a n b') : b = b' := by
  induction h generalizing b' with
  | start =>
    cases h'
    rfl
  | next _ hround ih =>
    cases h' with
    | next h' hround' =>
      obtain rfl := ih h'
      exact (Prod.mk.inj (hround.symm.trans hround')).2

theorem Reaches.earlier (h : Reaches a n b) (hm : m < n) :
    ∃ b₁ b₂, Reaches a m b₁ ∧ outcome round b₁ = (.ok false, b₂) := by
  induction h with
  | start => omega
  | @next n b b' h hround ih =>
    rcases Nat.lt_or_ge m n with hlt | hge
    · exact ih hlt
    · obtain rfl : m = n := by omega
      exact ⟨b, b', h, hround⟩

theorem Reaches.rounds {fuel : Nat} (h : Reaches a n b) (hn : n ≤ fuel) :
    outcome (rounds fuel) a = outcome (rounds (fuel - n)) b := by
  induction h with
  | start => rfl
  | @next n b b' h hround ih =>
    have hfuel : fuel - n = fuel - (n + 1) + 1 := by omega
    rw [ih (by omega), hfuel]
    exact outcome_bind_of_ok hround

theorem Reaches.prepend {a' : Attempt σ} (hround : outcome round a = (.ok false, a'))
    (h : Reaches a' n b) : Reaches a (n + 1) b := by
  induction h with
  | start => exact .next .start hround
  | next _ hround' ih => exact .next ih hround'

theorem rounds_cases {fuel : Nat} {q : Except ProofError Bool} {a' : Attempt σ}
    (h : outcome (rounds fuel) a = (q, a')) :
    (q = .ok false ∧ Reaches a fuel a') ∨
      ∃ n b, n < fuel ∧ Reaches a n b ∧ outcome round b = (q, a') ∧ q ≠ .ok false := by
  induction fuel generalizing a with
  | zero =>
    obtain ⟨rfl, rfl⟩ := Prod.mk.inj h
    exact .inl ⟨rfl, .start⟩
  | succ fuel ih =>
    unfold rounds at h
    rw [outcome_bind] at h
    rcases hround : outcome round a with ⟨error | _ | _, a₁⟩
    · rw [hround] at h
      obtain ⟨rfl, rfl⟩ := Prod.mk.inj h
      exact .inr ⟨0, a, Nat.succ_pos fuel, .start, hround, by simp⟩
    · rw [hround] at h
      rcases ih h with ⟨rfl, hreaches⟩ | ⟨n, b, hn, hreaches, hlast, hq⟩
      · exact .inl ⟨rfl, hreaches.prepend hround⟩
      · exact .inr ⟨n + 1, b, Nat.succ_lt_succ hn, hreaches.prepend hround, hlast, hq⟩
    · rw [hround] at h
      obtain ⟨rfl, rfl⟩ := Prod.mk.inj h
      exact .inr ⟨0, a, Nat.succ_pos fuel, .start, hround, by simp⟩

def Stops (b : Attempt σ) : Prop := b.isStopped = true ∨ (outcome checks b).2.isStopped = true

def Finishes (b : Attempt σ) (name : String) (r : ProofResult) : Prop :=
  ∃ bs os b', b.isStopped = false ∧ outcome checks b = (.ok (bs, os), b') ∧ b'.isStopped = false ∧
    name ∈ b.pending ∧ b'.verdict? bs os name = some r

def FinishedIn (a : Attempt σ) (m : Nat) (name : String) (r : ProofResult) : Prop :=
  ∃ b, Reaches a m b ∧ b.Finishes name r

theorem checks_engines {q : Except ProofError (Entries String (Outcome Trace) × Entries String (Outcome Unit))}
    (h : outcome checks b = (q, b')) : b' = { b with engines := b'.engines } := by
  rw [outcome_checks] at h
  obtain ⟨-, rfl⟩ := Prod.mk.inj h
  rfl

section

variable {q : Except ProofError Bool}

theorem conclude_cases (h : outcome conclude b = (q, b')) :
    (b.pending = [] ∧ q = .ok true ∧ b' = b) ∨
      (b.config.depthBound.any (· ≤ b.engines.base.depth) = true ∧ q = .ok true ∧
        b' = b.giveUp depthExhaustedReason b.engines.base.depth) ∨
      (b.config.depthBound.any (· ≤ b.engines.base.depth) = false ∧ q ≠ .ok true ∧
        b' = { b with engines := b'.engines }) := by
  unfold conclude at h
  rw [outcome_bind_of_ok (outcome_get b), outcome_ite] at h
  split at h
  · next hempty =>
    obtain ⟨rfl, rfl⟩ := Prod.mk.inj h
    exact .inl ⟨List.isEmpty_iff.mp hempty, rfl, rfl⟩
  rw [outcome_ite] at h
  split at h
  · next hbound =>
    obtain ⟨rfl, rfl⟩ := Prod.mk.inj h
    exact .inr (.inl ⟨hbound, rfl, rfl⟩)
  · next hbound =>
    refine .inr (.inr ⟨(Bool.not_eq_true _).mp hbound, ?_⟩)
    rw [outcome_bind, outcome_onEngine] at h
    rcases hbase : outcome Engine.advance (b.engines.get .base) with ⟨error | ⟨⟩, base⟩
    · rw [hbase] at h
      obtain ⟨rfl, rfl⟩ := Prod.mk.inj h
      exact ⟨by simp, rfl⟩
    rw [hbase] at h
    change outcome (onEngine .step Engine.advance >>= _) { b with engines := _ } = _ at h
    rw [outcome_bind, outcome_onEngine] at h
    rcases hstep : outcome Engine.advance ((b.engines.set base .base).get .step) with ⟨error | ⟨⟩, step⟩
    · rw [hstep] at h
      obtain ⟨rfl, rfl⟩ := Prod.mk.inj h
      exact ⟨by simp, rfl⟩
    · rw [hstep] at h
      obtain ⟨rfl, rfl⟩ := Prod.mk.inj h
      exact ⟨by simp, rfl⟩

theorem round_cases (h : outcome round b = (q, b')) :
    (b.isStopped = true ∧ q = .ok true ∧ b' = b.giveUp cancelledReason (b.engines.base.depth - 1)) ∨
      b.isStopped = false ∧
        ((∃ e, outcome checks b = (.error e, b') ∧ q = .error e) ∨
          ∃ bs os b₁, outcome checks b = (.ok (bs, os), b₁) ∧
            (b₁.isStopped = true ∧ q = .ok true ∧
                b' = b₁.giveUp cancelledReason (b₁.engines.base.depth - 1) ∨
              b₁.isStopped = false ∧ outcome conclude (b₁.decideRound bs os) = (q, b'))) := by
  rw [round_eq, outcome_bind_of_ok (outcome_get b), outcome_ite] at h
  split at h
  · next hstopped =>
    obtain ⟨rfl, rfl⟩ := Prod.mk.inj h
    exact .inl ⟨hstopped, rfl, rfl⟩
  · next hgoing =>
    refine .inr ⟨(Bool.not_eq_true _).mp hgoing, ?_⟩
    rw [outcome_bind] at h
    rcases hchecks : outcome checks b with ⟨error | ⟨bs, os⟩, b₁⟩
    · rw [hchecks] at h
      obtain ⟨rfl, rfl⟩ := Prod.mk.inj h
      exact .inl ⟨error, rfl, rfl⟩
    rw [hchecks] at h
    refine .inr ⟨bs, os, b₁, rfl, ?_⟩
    change outcome (get >>= _) b₁ = _ at h
    rw [outcome_bind_of_ok (outcome_get b₁), outcome_ite] at h
    split at h
    · next hstopped =>
      obtain ⟨rfl, rfl⟩ := Prod.mk.inj h
      exact .inl ⟨hstopped, rfl, rfl⟩
    · next hgoing₁ =>
      rw [outcome_bind_of_ok (outcome_modify _ b₁)] at h
      exact .inr ⟨(Bool.not_eq_true _).mp hgoing₁, h⟩

theorem closed_conclude (hclosed : name ∉ b.pending) (h : outcome conclude b = (q, b')) :
    name ∉ b'.pending ∧ Entries.get? name b'.results = Entries.get? name b.results := by
  rcases conclude_cases h with ⟨-, -, rfl⟩ | ⟨-, -, rfl⟩ | ⟨-, -, hsame⟩
  · exact ⟨hclosed, rfl⟩
  · exact closed_giveUp hclosed
  · rw [hsame]
    exact ⟨hclosed, rfl⟩

theorem closed_round (hclosed : name ∉ b.pending) (h : outcome round b = (q, b')) :
    name ∉ b'.pending ∧ Entries.get? name b'.results = Entries.get? name b.results := by
  rcases round_cases h with ⟨-, -, rfl⟩ | ⟨-, ⟨e, hchecks, -⟩ | ⟨bs, os, b₁, hchecks, hrest⟩⟩
  · exact closed_giveUp hclosed
  · rw [checks_engines hchecks]
    exact ⟨hclosed, rfl⟩
  · have hsame := checks_engines hchecks
    have hclosed₁ : name ∉ b₁.pending := by rwa [hsame]
    have hresults : b₁.results = b.results := by rw [hsame]
    rw [← hresults]
    rcases hrest with ⟨-, -, rfl⟩ | ⟨-, hconclude⟩
    · exact closed_giveUp hclosed₁
    · obtain ⟨hclosed₂, hresults₂⟩ := closed_decideRound bs os hclosed₁
      obtain ⟨hclosed₃, hresults₃⟩ := closed_conclude hclosed₂ hconclude
      exact ⟨hclosed₃, hresults₃.trans hresults₂⟩

theorem open_before (h : outcome round b = (q, b')) (hopen : name ∈ b'.pending) : name ∈ b.pending :=
  Decidable.byContradiction fun hclosed => (closed_round hclosed h).1 hopen

theorem Finishes.round (hfinishes : b.Finishes name r) {finished : Bool}
    (h : outcome round b = (.ok finished, b')) :
    (finished = false → name ∉ b'.pending) ∧ Entries.get? name b'.results = some r := by
  obtain ⟨bs, os, b₁, hgoing, hchecks, hgoing₁, hpending, hverdict⟩ := hfinishes
  have hpending₁ : name ∈ b₁.pending := by rwa [checks_engines hchecks]
  rcases round_cases h with ⟨hstopped, -⟩ | ⟨-, ⟨e, hchecks', -⟩ | ⟨bs', os', b₁', hchecks', hrest⟩⟩
  · rw [hgoing] at hstopped
    cases hstopped
  · rw [hchecks] at hchecks'
    cases (Prod.mk.inj hchecks').1
  obtain ⟨hresult, rfl⟩ := Prod.mk.inj (hchecks.symm.trans hchecks')
  obtain ⟨rfl, rfl⟩ := Prod.mk.inj (Except.ok.inj hresult)
  rcases hrest with ⟨hstopped, -⟩ | ⟨-, hconclude⟩
  · rw [hgoing₁] at hstopped
    cases hstopped
  cases hdecision : b₁.decision bs os name with
  | some r' =>
    obtain rfl : r' = r := by simpa [verdict?, hdecision] using hverdict
    obtain ⟨hclosed, hresult⟩ := decided_decideRound hpending₁ hdecision
    obtain ⟨hclosed', hresult'⟩ := closed_conclude hclosed hconclude
    exact ⟨fun _ => hclosed', hresult'.trans hresult⟩
  | none =>
    have hopen : name ∈ (b₁.decideRound bs os).pending :=
      mem_pending_decideRound.mpr ⟨hpending₁, hdecision⟩
    have hbooks : (b₁.decideRound bs os).config = b₁.config ∧
        (b₁.decideRound bs os).engines = b₁.engines := by simp [decideRound]
    have hexhausted : b₁.exhausted? name = some r := by simpa [verdict?, hdecision] using hverdict
    unfold exhausted? at hexhausted
    rcases conclude_cases hconclude with ⟨hempty, -⟩ | ⟨-, hlast, rfl⟩ | ⟨hbound, -⟩
    · rw [hempty] at hopen
      cases hopen
    · refine ⟨fun hfalse => ?_, ?_⟩
      · rw [hfalse] at hlast
        cases hlast
      · rw [get?_results_giveUp hopen, hbooks.2]
        split at hexhausted
        · exact hexhausted
        · cases hexhausted
    · rw [hbooks.1, hbooks.2] at hbound
      rw [if_neg (by simp [hbound])] at hexhausted
      cases hexhausted

theorem Reaches.stays_closed (hreaches : Reaches a m b) (hclosed : name ∉ b.pending)
    (hreaches' : Reaches a n b') (hm : m ≤ n) :
    name ∉ b'.pending ∧ Entries.get? name b'.results = Entries.get? name b.results := by
  induction hreaches' with
  | start =>
    obtain rfl : m = 0 := by omega
    obtain rfl := hreaches.unique .start
    exact ⟨hclosed, rfl⟩
  | @next n b₁ b₂ hreaches₁ hround ih =>
    by_cases hlast : m = n + 1
    · subst hlast
      obtain rfl := hreaches.unique (hreaches₁.next hround)
      exact ⟨hclosed, rfl⟩
    · obtain ⟨hclosed₁, hsame⟩ := ih (by omega)
      obtain ⟨hclosed₂, hsame'⟩ := closed_round hclosed₁ hround
      exact ⟨hclosed₂, hsame'.trans hsame⟩

theorem FinishedIn.kept (hfinished : FinishedIn a m name r) (h : Reaches a n b) (hm : m < n) :
    name ∉ b.pending ∧ Entries.get? name b.results = some r := by
  obtain ⟨b₁, hreaches, hfinishes⟩ := hfinished
  obtain ⟨b₂, b₃, hreaches', hround⟩ := h.earlier hm
  obtain rfl := hreaches.unique hreaches'
  obtain ⟨hclosed, hr⟩ := hfinishes.round hround
  obtain ⟨hclosed', hsame⟩ := (hreaches.next hround).stays_closed (hclosed rfl) h hm
  exact ⟨hclosed', hsame.trans hr⟩

theorem Reaches.le_last {a' : Attempt σ} (h : Reaches a n b) (hlast : outcome round b = (.ok true, a'))
    (h' : Reaches a m b') : m ≤ n := by
  refine Nat.le_of_not_lt fun hlate => ?_
  obtain ⟨b₁, b₂, h₁, hround⟩ := h'.earlier hlate
  obtain rfl := h.unique h₁
  rw [hlast] at hround
  cases (Prod.mk.inj hround).1

theorem finished_or_cancelled (hpending : name ∈ b.pending) (h : outcome round b = (.ok true, b')) :
    (∃ r, b.Finishes name r) ∨
      b.Stops ∧ ∃ solver depth, Entries.get? name b'.results =
        some (.unknown name cancelledReason (depth - 1) solver) ∧
          (depth = b.engines.base.depth ∨ depth = (outcome checks b).2.engines.base.depth) := by
  rcases round_cases h with ⟨hstopped, -, rfl⟩ | ⟨hgoing, ⟨e, -, he⟩ | ⟨bs, os, b₁, hchecks, hrest⟩⟩
  · exact .inr ⟨.inl hstopped, _, _, get?_results_giveUp hpending, .inl rfl⟩
  · cases he
  have hpending₁ : name ∈ b₁.pending := by rwa [checks_engines hchecks]
  rcases hrest with ⟨hstopped, -, rfl⟩ | ⟨hgoing₁, hconclude⟩
  · exact .inr ⟨.inr (by rwa [hchecks]), _, _, get?_results_giveUp hpending₁, .inr (by rw [hchecks])⟩
  refine .inl ?_
  suffices hverdict : ∃ r, b₁.verdict? bs os name = some r by
    obtain ⟨r, hr⟩ := hverdict
    exact ⟨r, bs, os, b₁, hgoing, hchecks, hgoing₁, hpending, hr⟩
  cases hdecision : b₁.decision bs os name with
  | some r => exact ⟨r, by simp [verdict?, hdecision]⟩
  | none =>
    have hopen : name ∈ (b₁.decideRound bs os).pending :=
      mem_pending_decideRound.mpr ⟨hpending₁, hdecision⟩
    rcases conclude_cases hconclude with ⟨hempty, -⟩ | ⟨hbound, -⟩ | ⟨-, hlast, -⟩
    · rw [hempty] at hopen
      cases hopen
    · simp only [decideRound, config_finishAll, engines_finishAll] at hbound
      exact ⟨_, by rw [verdict?, hdecision, exhausted?, if_pos hbound]; rfl⟩
    · exact absurd rfl hlast

theorem finished_or_open (hpending : name ∈ b.pending) (h : outcome round b = (.ok false, b')) :
    (∃ r, b.Finishes name r) ∨
      name ∈ b'.pending ∧ ∃ bs os b₁, outcome checks b = (.ok (bs, os), b₁) ∧
        b₁.decision bs os name = none := by
  rcases round_cases h with ⟨-, hlast, -⟩ | ⟨hgoing, ⟨e, -, he⟩ | ⟨bs, os, b₁, hchecks, hrest⟩⟩
  · cases hlast
  · cases he
  have hpending₁ : name ∈ b₁.pending := by rwa [checks_engines hchecks]
  rcases hrest with ⟨-, hlast, -⟩ | ⟨hgoing₁, hconclude⟩
  · cases hlast
  cases hdecision : b₁.decision bs os name with
  | some r =>
    exact .inl ⟨r, bs, os, b₁, hgoing, hchecks, hgoing₁, hpending, by simp [verdict?, hdecision]⟩
  | none =>
    refine .inr ⟨?_, bs, os, b₁, hchecks, hdecision⟩
    rcases conclude_cases hconclude with ⟨-, hlast, -⟩ | ⟨-, hlast, -⟩ | ⟨-, -, hsame⟩
    · cases hlast
    · cases hlast
    · rw [hsame]
      exact mem_pending_decideRound.mpr ⟨hpending₁, hdecision⟩

theorem rounds_of_stopped {fuel : Nat} (hstopped : b.isStopped = true) (hfuel : 0 < fuel)
    (h : outcome (rounds fuel) b = (q, b')) :
    q = .ok true ∧ b' = b.giveUp cancelledReason (b.engines.base.depth - 1) := by
  obtain ⟨fuel, rfl⟩ := Nat.exists_eq_add_one.mpr hfuel
  change outcome (Attempt.round >>= _) b = _ at h
  rw [outcome_bind] at h
  rcases hround : outcome Attempt.round b with ⟨q₁, b₁⟩
  rw [hround] at h
  rcases round_cases hround with ⟨-, rfl, rfl⟩ | ⟨hgoing, -⟩
  · obtain ⟨rfl, rfl⟩ := Prod.mk.inj h
    exact ⟨rfl, rfl⟩
  · rw [hstopped] at hgoing
    cases hgoing

/-- What a stopped round has found does not count: it gives up what was open before it. -/
theorem Stops.round {finished : Bool} (hstops : b.Stops) (h : outcome round b = (.ok finished, b')) :
    finished = true ∧ ∃ engines,
      b' = { b with engines := engines }.giveUp cancelledReason (engines.base.depth - 1) := by
  rcases round_cases h with ⟨-, hlast, rfl⟩ | ⟨hgoing, ⟨e, -, he⟩ | ⟨bs, os, b₁, hchecks, hrest⟩⟩
  · exact ⟨Except.ok.inj hlast, b.engines, rfl⟩
  · cases he
  have hsame := checks_engines hchecks
  rcases hstops with hstopped | hstopped
  · rw [hgoing] at hstopped
    cases hstopped
  rw [hchecks] at hstopped
  rcases hrest with ⟨-, hlast, rfl⟩ | ⟨hgoing₁, -⟩
  · exact ⟨Except.ok.inj hlast, b₁.engines,
      congrArg (giveUp cancelledReason (b₁.engines.base.depth - 1)) hsame⟩
  · rw [hgoing₁] at hstopped
    cases hstopped

end

section

variable {fuel : Nat} {a' : Attempt σ}

theorem Reaches.final (hreaches : Reaches a m b) (hclosed : name ∉ b.pending)
    (hs : outcome (Attempt.rounds fuel) a = (.ok true, a')) :
    Entries.get? name a'.results = Entries.get? name b.results := by
  rcases rounds_cases hs with ⟨hfalse, -⟩ | ⟨n, b₁, -, hreaches₁, hlast, -⟩
  · cases hfalse
  obtain ⟨hclosed₁, hsame⟩ := hreaches.stays_closed hclosed hreaches₁ (hreaches₁.le_last hlast hreaches)
  exact (closed_round hclosed₁ hlast).2.trans hsame

theorem FinishedIn.final (hfinished : FinishedIn a m name r)
    (hs : outcome (rounds fuel) a = (.ok true, a')) : Entries.get? name a'.results = some r := by
  rcases rounds_cases hs with ⟨hfalse, -⟩ | ⟨n, b, -, hreaches, hlast, -⟩
  · cases hfalse
  obtain ⟨b', hreaches', hfinishes⟩ := hfinished
  rcases Nat.eq_or_lt_of_le (hreaches.le_last hlast hreaches') with rfl | hlt
  · obtain rfl := hreaches.unique hreaches'
    exact (hfinishes.round hlast).2
  · obtain ⟨hclosed, hresult⟩ := FinishedIn.kept ⟨b', hreaches', hfinishes⟩ hreaches hlt
    rw [(closed_round hclosed hlast).2, hresult]

theorem Reaches.finished_of_closed (hreaches : Reaches a n b) (hname : name ∈ a.pending)
    (hclosed : name ∉ b.pending) :
    ∃ m < n, ∃ b₁ r, Reaches a m b₁ ∧ name ∈ b₁.pending ∧ b₁.Finishes name r := by
  induction hreaches with
  | start => exact absurd hname hclosed
  | @next n b b' hreaches hround ih =>
    by_cases hopen : name ∈ b.pending
    · rcases finished_or_open hopen hround with ⟨r, hfinishes⟩ | ⟨hopen', -⟩
      · exact ⟨n, by omega, b, r, hreaches, hopen, hfinishes⟩
      · exact absurd hopen' hclosed
    · obtain ⟨m, hm, rest⟩ := ih hopen
      exact ⟨m, by omega, rest⟩

theorem finished_or_called_off (hname : name ∈ a.pending)
    (hs : outcome (rounds fuel) a = (.ok true, a')) :
    ∃ n b r, n < fuel ∧ Reaches a n b ∧ name ∈ b.pending ∧ Entries.get? name a'.results = some r ∧
      (b.Finishes name r ∨ b.Stops ∧ r.isCancelled = true) := by
  rcases rounds_cases hs with ⟨hfalse, -⟩ | ⟨n, b, hn, hreaches, hlast, -⟩
  · cases hfalse
  by_cases hopen : name ∈ b.pending
  · rcases finished_or_cancelled hopen hlast with ⟨r, hfinishes⟩ | ⟨hstops, solver, depth, hr, -⟩
    · exact ⟨n, b, r, hn, hreaches, hopen, (hfinishes.round hlast).2, .inl hfinishes⟩
    · exact ⟨n, b, _, hn, hreaches, hopen, hr, .inr ⟨hstops, ProofResult.isCancelled_unknown_iff.mpr rfl⟩⟩
  · -- an earlier round has closed the name
    obtain ⟨m, hm, b₁, r, hreaches₁, hopen₁, hfinishes⟩ := hreaches.finished_of_closed hname hopen
    exact ⟨m, b₁, r, by omega, hreaches₁, hopen₁, FinishedIn.final ⟨b₁, hreaches₁, hfinishes⟩ hs,
      .inl hfinishes⟩

end

end InvariantProver.Attempt
