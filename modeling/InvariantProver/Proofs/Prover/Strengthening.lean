import InvariantProver.Proofs.Prover.Ordering
import InvariantProver.Proofs.Prover.Unhindered

namespace InvariantProver

open Session Engine

theorem TransitionSystem.Escapes.mono {z : ZeroReading} {s : TransitionSystem} {p : Term}
    {assumed assumed' : List Term} {k : Nat} (h : s.Escapes z assumed p k)
    (hsub : ∀ t ∈ assumed', t ∈ assumed) : s.Escapes z assumed' p k := by
  obtain ⟨π, hchain, hassumed, hends⟩ := h
  exact ⟨π, hchain, fun i hi t ht => hassumed i hi t (hsub t ht), hends⟩

namespace Oracle

noncomputable def decisive (z : ZeroReading) : Oracle := fun ts =>
  if (stepVariables ts).all (·.ty = .bool) then exhaustive z ts else Memory.idealOracle z ts

theorem decisive_decides (z : ZeroReading) (ts : List Term) :
    (decisive z ts).answer = .sat ∧ Satisfiable z ts ∨
      (decisive z ts).answer = .unsat ∧ ¬ Satisfiable z ts := by
  unfold decisive
  split
  · next hbool =>
    cases hanswer : (exhaustive z ts).answer with
    | sat =>
      obtain ⟨a, ha, -⟩ := model_of_exhaustive hanswer
      exact .inl ⟨rfl, a, ha⟩
    | unsat => exact .inr ⟨rfl, unsatisfiable_of_exhaustive hanswer⟩
    | unknown reason =>
      unfold exhaustive at hanswer
      rw [if_pos hbool] at hanswer
      split at hanswer <;> cases hanswer
  · exact Memory.idealOracle_decides z ts

end Oracle

namespace Attempt

noncomputable def decisiveSessions (_ : Task) : Session Memory :=
  Memory.session "decisive" (.decisive zeroReading)

inductive Warranted (oracle : Oracle) (solvers : Task → String) (z : ZeroReading) (s : TransitionSystem)
    (c : Config) (name : String) (p : Term) (n : Nat) : ProofResult → Prop
  | falsified {t : Trace} :
    s.Violates z p n → (BaseCase.forecast oracle s p n).finding = .found t →
      Warranted oracle solvers z s c name p n (.falsified name t (solvers .base))
  | proved :
    (∀ m, ¬ s.Violates z p m) → (c.strengthen = false → ¬ s.Escapes z [p] p (n + 1)) →
      Warranted oracle solvers z s c name p n (.proved name (n + 1 : Nat) (solvers .step))
  | exhausted :
    c.depthBound.any (· ≤ (n : Int)) = true → s.Open z p (n + 1) →
      Warranted oracle solvers z s c name p n (.unknown name depthExhaustedReason n (solvers .base))

structure DecidedIn (oracle : Oracle) (solvers : Task → String) (z : ZeroReading)
    (s : TransitionSystem) (c : Config) (name : String) (p : Term) (n : Nat) (r : ProofResult) :
    Prop where
  before : s.Open z p n
  goesOn : ∀ m < n, c.depthBound.any (· ≤ (m : Int)) = false
  warranted : Warranted oracle solvers z s c name p n r

section

variable {oracle : Oracle} {solvers : Task → String} {z : ZeroReading} {s : TransitionSystem}
  {plain c : Config} {name : String} {p : Term} {n n' : Nat} {r r' : ProofResult}

theorem DecidedIn.not_open (h : DecidedIn oracle solvers z s plain name p n r)
    (hoff : plain.strengthen = false) (hn : n < n') (hopen : s.Open z p n')
    (hgoes : ∀ m < n', plain.depthBound.any (· ≤ (m : Int)) = false) : False := by
  cases h.warranted with
  | falsified hviolates => exact hopen.clear n hn hviolates
  | proved _ hholds => exact hholds hoff (hopen.escapes (n + 1) (by omega) (by omega))
  | exhausted hbound =>
    rw [hgoes n hn] at hbound
    cases hbound

variable (hbound : plain.depthBound = c.depthBound) (h : DecidedIn oracle solvers z s plain name p n r)
  (h' : DecidedIn oracle solvers z s c name p n' r')
include hbound h h'

theorem DecidedIn.same_falsified {t : Trace} (hr : r.verdict = .falsified t) : r' = r := by
  cases h.warranted with
  | proved => cases hr
  | exhausted => cases hr
  | falsified hviolates hfound =>
    cases h'.warranted with
    | proved hclear => exact absurd hviolates (hclear n)
    | falsified hviolates' hfound' =>
      -- the shortest execution to a violation has one length only
      have hlength := (h.before.violationDepth_eq hviolates).symm.trans
        (h'.before.violationDepth_eq hviolates')
      obtain rfl := Option.some.inj hlength
      rw [hfound] at hfound'
      cases hfound'
      rfl
    | exhausted hlast hopen' =>
      have hle : n ≤ n' := by
        by_contra hlt
        rw [← hbound, h.goesOn n' (by omega)] at hlast
        cases hlast
      exact absurd hviolates (hopen'.clear n (by omega))

theorem DecidedIn.still_proved (hoff : plain.strengthen = false) (hr : r.verdict = .proved) :
    r'.verdict = .proved ∧ r'.depth ≤ r.depth := by
  cases h.warranted with
  | falsified => cases hr
  | exhausted => cases hr
  | proved hclear hholds =>
    cases h'.warranted with
    | falsified hviolates => exact absurd hviolates (hclear n')
    | proved =>
      have hless := h'.before.lt_inductionDepth (h.before.inductionDepth_eq (hholds hoff))
      exact ⟨rfl, Int.ofNat_le.mpr hless⟩
    | exhausted hlast hopen' =>
      have hle : n ≤ n' := by
        by_contra hlt
        rw [← hbound, h.goesOn n' (by omega)] at hlast
        cases hlast
      exact absurd (hopen'.escapes (n + 1) (by omega) (by omega)) (hholds hoff)

theorem DecidedIn.same_unknown (hoff : plain.strengthen = false) {reason : Option String}
    (hr' : r'.verdict = .unknown reason) : r = r' := by
  cases hwarranted : h.warranted with
  | falsified hviolates hfound =>
    rw [h.same_falsified hbound h' rfl] at hr'
    cases hr'
  | proved hclear hholds =>
    rw [(h.still_proved hbound h' hoff rfl).1] at hr'
    cases hr'
  | exhausted hlast =>
    cases h'.warranted with
    | falsified => cases hr'
    | proved => cases hr'
    | exhausted hlast' =>
      -- both have stopped in the first round that reaches the bound
      have hle : n ≤ n' := by
        by_contra hlt
        rw [← hbound, h.goesOn n' (by omega)] at hlast'
        cases hlast'
      have hge : n' ≤ n := by
        by_contra hlt
        rw [hbound, h'.goesOn n (by omega)] at hlast
        cases hlast
      obtain rfl : n = n' := by omega
      rfl

end

variable {σ : Type} [Backend σ] {oracles : Task → Oracle} {sessions : Task → Session σ}
  {z : ZeroReading} {s : TransitionSystem} {c : Config} {names : List String} {n fuel : Nat}
  {a b a' : Attempt σ} {name : String} {p : Term} {r : ProofResult}

theorem Deciding.running (h : Deciding sessions s c names n a) : Running sessions s n a :=
  ⟨h.system, ⟨h.base.1.follows, h.base.2⟩, h.step.1.follows, h.step.2⟩

section

variable (hd : ∀ task, Decisive z (sessions task)) (hs : ∀ task, Speaks (oracles task) (sessions task))
  (hknown : ∀ name ∈ names, ∃ p, s.property name = .ok p)
include hd hs hknown

theorem Reaches.sound (h : Deciding sessions s c names 0 a)
    (hsound : Sound z s (GivesModels .unbroken z (sessions .base)) 0 a) (hreaches : Reaches a n b) :
    Sound z s (GivesModels .unbroken z (sessions .base)) n b := by
  induction hreaches with
  | start => exact hsound
  | @next n b b' hreaches hround ih =>
    have hb := hreaches.deciding hs hknown h
    rcases ih.round (hd .base).truthful (hd .step).truthful hb.running hround with
      ⟨hfinished, -⟩ | ⟨-, -, hsound'⟩
    · cases hfinished
    · exact hsound'

variable (hp : s.property name = .ok p)
include hp

theorem Deciding.warrants (h : Deciding sessions s c names n a)
    (hsound : Sound z s (GivesModels .unbroken z (sessions .base)) n a) (hopen : s.Open z p n)
    (hpending : name ∈ a.pending) :
    (∀ r, a.Finishes name r →
      Warranted (oracles .base) (fun task => (sessions task).name) z s c name p n r) ∧
      ((∀ r, ¬ a.Finishes name r) → s.Open z p (n + 1)) := by
  have hiff {r : ProofResult} := h.finishes_iff (r := r) hs hknown hp hpending
  obtain ⟨bs, os, engines, hchecks, -, -, hall⟩ := h.checks_forecast hs hknown
  obtain ⟨bs', os', a₁, hchecks', -, -, hsettled⟩ := h.checks (hd .base) (hd .step) hknown
  obtain ⟨hsame, -⟩ := Prod.mk.inj (hchecks.symm.trans hchecks')
  obtain ⟨rfl, rfl⟩ := Prod.mk.inj (Except.ok.inj hsame)
  obtain ⟨hb, ho⟩ := hall name hpending p hp
  obtain ⟨⟨b, hb', -, hbase⟩, o, ho', -, hstep⟩ := hsettled name hpending p hp
  obtain rfl := Option.some.inj (hb.symm.trans hb')
  obtain rfl := Option.some.inj (ho.symm.trans ho')
  unfold foreseen at hiff
  rcases hbase with ⟨t, hfound, -, hviolates⟩ | ⟨hnothing, hclear⟩
  · rw [hfound] at hiff
    refine ⟨fun r hr => ?_, fun hnone => absurd (hiff.mpr rfl) (hnone _)⟩
    obtain rfl := Option.some.inj (hiff.mp hr)
    exact .falsified hviolates hfound
  rw [hnothing] at hiff
  rcases hstep with ⟨hfound, hescapes⟩ | ⟨hholds, hinduction⟩
  · rw [hfound] at hiff
    have hopen' : s.Open z p (n + 1) := by
      apply hopen.succ hclear
      exact hescapes.mono fun t ht => by simp_all
    refine ⟨fun r hr => ?_, fun _ => hopen'⟩
    have hr := hiff.mp hr
    simp only at hr
    split at hr
    · next hlast =>
      obtain rfl := Option.some.inj hr
      exact .exhausted hlast hopen'
    · cases hr
  · rw [hholds] at hiff
    refine ⟨fun r hr => ?_, fun hnone => absurd (hiff.mpr rfl) (hnone _)⟩
    obtain rfl := Option.some.inj (hiff.mp hr)
    refine .proved ?_ fun hoff hescapes => ?_
    · -- the induction rests on lemmas that are true
      refine TransitionSystem.not_violates_of_induction (fun t ht => ?_) (hopen.clear_succ hclear) hinduction
      rcases List.mem_cons.mp ht with rfl | ht
      · exact .inl rfl
      · exact .inr (hsound.lemmas h.system t (List.mem_filter.mp ht).1)
    · rw [h.lemmas_filter hp (.inl hoff)] at hinduction
      exact hinduction hescapes

theorem Reaches.open_of_pending (h : Deciding sessions s c names 0 a)
    (hsound : Sound z s (GivesModels .unbroken z (sessions .base)) 0 a) (hreaches : Reaches a n b)
    (hpending : name ∈ b.pending) : s.Open z p n := by
  refine hreaches.holds_while_open .zero (fun m b₁ hreaches₁ hpending₁ hopen hnone => ?_) hpending
  have hb₁ := hreaches₁.deciding hs hknown h
  exact (hb₁.warrants hd hs hknown hp (hreaches₁.sound hd hs hknown h hsound) hopen hpending₁).2 hnone

theorem Deciding.decided_in_rounds (h : Deciding sessions s c names 0 a)
    (hsound : Sound z s (GivesModels .unbroken z (sessions .base)) 0 a) (hname : name ∈ a.pending)
    (hrounds : outcome (Attempt.rounds fuel) a = (.ok true, a')) :
    ∃ n < fuel, ∃ r, Entries.get? name a'.results = some r ∧
      DecidedIn (oracles .base) (fun task => (sessions task).name) z s c name p n r := by
  obtain ⟨n, hn, b, r, hreaches, hopen, hfinishes, hr⟩ := h.finished_in_rounds hs hknown hname hrounds
  have hbefore := hreaches.open_of_pending hd hs hknown hp h hsound hopen
  refine ⟨n, hn, r, hr, hbefore, fun m hm => hreaches.goes_on hs hknown h hm, ?_⟩
  have hb := hreaches.deciding hs hknown h
  exact (hb.warrants hd hs hknown hp (hreaches.sound hd hs hknown h hsound) hbefore hopen).1 r hfinishes

end

theorem sound_begun (hw : ∀ task, Willing (sessions task))
    (hknown : ∀ name ∈ names, ∃ p, s.property name = .ok p) {exact : Prop} :
    Sound z s exact 0 ((new s c false sessions).begun names) := by
  obtain ⟨-, -, -, -, -, -, -, -, hbegun⟩ := begun_returns hw s c names
  rw [hbegun]
  refine ⟨fun name hname => ?_, fun name r hr => ?_, fun name hname => ?_⟩
  · obtain ⟨p, hp⟩ := hknown name hname
    exact ⟨p, hp, fun m hm => absurd hm (Nat.not_lt_zero m)⟩
  · cases hr
  · cases hname

theorem report_decided (hd : ∀ task, Decisive z (sessions task))
    (hs : ∀ task, Speaks (oracles task) (sessions task))
    (hknown : ∀ name ∈ names, ∃ p, s.property name = .ok p) (hnames : names ≠ []) (c : Config)
    (fuel : Nat) :
    (∀ name ∈ names, ∀ p, s.property name = .ok p → ∃ n < fuel, ∃ r,
        (new s c false sessions).report names fuel name = some r ∧
        DecidedIn (oracles .base) (fun task => (sessions task).name) z s c name p n r) ∨
      (∀ name, (new s c false sessions).report names fuel name = none) ∧
        (∃ name ∈ names, ∃ p, s.property name = .ok p ∧ s.Open z p fuel) ∧
        ∀ m < fuel, c.depthBound.any (· ≤ (m : Int)) = false := by
  have hw (task : Task) : Willing (sessions task) := (hs task).toWilling
  obtain ⟨-, -, -, -, -, -, -, h, hbegun⟩ := begun_returns hw s c names
  have hpending : ((new s c false sessions).begun names).pending = names := by rw [hbegun]
  have hsound : Sound z s (GivesModels .unbroken z (sessions .base)) 0
      ((new s c false sessions).begun names) := sound_begun hw hknown
  obtain ⟨finished, m, a', hrounds, h'⟩ := h.rounds_returns hs hknown fuel
  have hrun := run_of_rounds hw hnames hknown hrounds h'
  cases finished with
  | true =>
    refine .inl fun name hname p hp => ?_
    obtain ⟨n, hn, r, hr, hdecided⟩ :=
      h.decided_in_rounds hd hs hknown hp hsound (by rwa [hpending]) hrounds
    exact ⟨n, hn, r, (report_of_run hrun name).trans (get?_resultsFor_of_mem hname hr), hdecided⟩
  | false =>
    refine .inr ⟨report_of_run hrun, ?_⟩
    rcases rounds_cases hrounds with ⟨-, hreaches⟩ | ⟨-, -, -, -, -, hfalse⟩
    · refine ⟨?_, fun m hm => hreaches.goes_on hs hknown h hm⟩
      have hsome := hreaches.pending_ne_nil hs hknown h (by rwa [hpending])
      obtain ⟨name, hname⟩ := List.exists_mem_of_ne_nil _ hsome
      have hmem := (hreaches.deciding hs hknown h).pending name hname
      obtain ⟨p, hp⟩ := hknown name hmem
      exact ⟨name, hmem, p, hp, hreaches.open_of_pending hd hs hknown hp h hsound hname⟩
    · exact absurd rfl hfalse

theorem requested_of_report (hs : ∀ task, Speaks (oracles task) (sessions task))
    (h : (new s c false sessions).report names fuel name = some r) :
    name ∈ names ∧ ∀ name ∈ names, ∃ p, s.property name = .ok p := by
  obtain ⟨results, a', hrun, hr⟩ := report_eq_some.mp h
  have hknown := known_of_run (congrArg Prod.fst hrun)
  refine ⟨?_, hknown⟩
  by_cases hnames : names = []
  · subst hnames
    obtain rfl := Option.some.inj (Except.ok.inj (congrArg Prod.fst hrun))
    cases hr
  have hw (task : Task) : Willing (sessions task) := (hs task).toWilling
  obtain ⟨-, -, -, -, -, -, -, h, -⟩ := begun_returns hw s c names
  obtain ⟨finished, m, a₁, hrounds, h₁⟩ := h.rounds_returns hs hknown fuel
  have hresults := (congrArg Prod.fst hrun).symm.trans (run_of_rounds hw hnames hknown hrounds h₁)
  cases finished with
  | false => cases Except.ok.inj hresults
  | true =>
    obtain rfl := Option.some.inj (Except.ok.inj hresults)
    rw [get?_resultsFor_eq] at hr
    by_contra hname
    rw [if_neg hname] at hr
    cases hr

/-- Strengthening never loses a verdict: counterexamples stay what they are, proofs stay and become no
deeper, and what is not known with lemmas is not known without them. -/
theorem strengthening_keeps_verdicts {plain : Config} (hd : ∀ task, Decisive z (sessions task))
    (hs : ∀ task, Speaks (oracles task) (sessions task)) (hoff : plain.strengthen = false)
    (hbound : plain.depthBound = c.depthBound) :
    (∀ r, (new s plain false sessions).report names fuel name = some r →
      ∃ r', (new s c false sessions).report names fuel name = some r' ∧
        (∀ t, r.verdict = .falsified t → r' = r) ∧
        (r.verdict = .proved → r'.verdict = .proved ∧ r'.depth ≤ r.depth)) ∧
    ∀ r' reason, (new s c false sessions).report names fuel name = some r' →
      r'.verdict = .unknown reason → (new s plain false sessions).report names fuel name = some r' := by
  constructor
  · intro r hr
    obtain ⟨hname, hknown⟩ := requested_of_report hs hr
    obtain ⟨p, hp⟩ := hknown name hname
    have hnames := List.ne_nil_of_mem hname
    rcases report_decided hd hs hknown hnames plain fuel with hplain | ⟨hnone, -⟩
    · obtain ⟨n, hn, r₁, hr₁, h⟩ := hplain name hname p hp
      obtain rfl := Option.some.inj (hr.symm.trans hr₁)
      rcases report_decided hd hs hknown hnames c fuel with
        hstrong | ⟨-, ⟨other, hother, q, hq, hopen⟩, hgoes⟩
      · obtain ⟨n', -, r', hr', h'⟩ := hstrong name hname p hp
        exact ⟨r', hr', fun t => h.same_falsified hbound h', h.still_proved hbound h' hoff⟩
      · -- the other property is decided without lemmas
        obtain ⟨m, hm, _, -, hdecided⟩ := hplain other hother q hq
        exact (hdecided.not_open hoff hm hopen (hbound ▸ hgoes)).elim
    · rw [hnone] at hr
      cases hr
  · intro r' reason hr' hunknown
    obtain ⟨hname, hknown⟩ := requested_of_report hs hr'
    obtain ⟨p, hp⟩ := hknown name hname
    have hnames := List.ne_nil_of_mem hname
    rcases report_decided hd hs hknown hnames c fuel with hstrong | ⟨hnone, -⟩
    · obtain ⟨n', hn', r₁, hr₁, h'⟩ := hstrong name hname p hp
      obtain rfl := Option.some.inj (hr'.symm.trans hr₁)
      rcases report_decided hd hs hknown hnames plain fuel with hplain | ⟨-, -, hgoes⟩
      · obtain ⟨n, -, r, hr, h⟩ := hplain name hname p hp
        rw [hr, h.same_unknown hbound h' hoff hunknown]
      · cases h'.warranted with
        | falsified => cases hunknown
        | proved => cases hunknown
        | exhausted hlast =>
          rw [← hbound, hgoes n' hn'] at hlast
          cases hlast
    · rw [hnone] at hr'
      cases hr'

theorem decisive_decisiveSessions (task : Task) : Decisive zeroReading (decisiveSessions task) :=
  Memory.decisive_session (Oracle.decisive_decides zeroReading)

theorem first_flag_proved_with_lemmas :
    ∃ r₁ r₂ r₃, (new flags ⟨{ strengthen := false, depthBound := some 0 }, rfl⟩ false
        decisiveSessions).report ["third", "first"] 1 "first" = some r₁ ∧ r₁.verdict = .proved ∧
      (new flags ⟨{ depthBound := some 0 }, rfl⟩ false decisiveSessions).report
        ["third", "first"] 1 "first" = some r₂ ∧ r₂.verdict = .proved ∧ r₂.depth ≤ r₁.depth ∧
      (new flags ⟨{ depthBound := some 0 }, rfl⟩ false decisiveSessions).report
        ["third", "first"] 1 "third" = some r₃ ∧ (∃ reason, r₃.verdict = .unknown reason) ∧
      (new flags ⟨{ strengthen := false, depthBound := some 0 }, rfl⟩ false decisiveSessions).report
        ["third", "first"] 1 "third" = some r₃ := by
  have hfirst : ((new flags ⟨{ strengthen := false, depthBound := some 0 }, rfl⟩ false
      decisiveSessions).report ["third", "first"] 1 "first").any ProofResult.holds = true := by
    decide +kernel
  have hthird : ((new flags ⟨{ depthBound := some 0 }, rfl⟩ false decisiveSessions).report
      ["third", "first"] 1 "third").any ProofResult.isUnknown = true := by decide +kernel
  obtain ⟨r₁, hr₁, hproved⟩ := (Option.any_eq_true _ _).mp hfirst
  obtain ⟨r₃, hr₃, hunknown⟩ := (Option.any_eq_true _ _).mp hthird
  obtain ⟨reason, hreason⟩ := ProofResult.isUnknown_iff.mp hunknown
  have hspeaks (task : Task) : Speaks (.decisive zeroReading) (decisiveSessions task) :=
    Memory.speaks_session _ _
  have hoff : (⟨{ strengthen := false, depthBound := some 0 }, rfl⟩ : Config).strengthen = false := rfl
  obtain ⟨r₂, hr₂, -, hstill⟩ := (strengthening_keeps_verdicts (c := ⟨{ depthBound := some 0 }, rfl⟩)
    decisive_decisiveSessions hspeaks hoff rfl).1 r₁ hr₁
  obtain ⟨hproved₂, hdepth⟩ := hstill (ProofResult.holds_iff.mp hproved)
  exact ⟨r₁, r₂, r₃, hr₁, ProofResult.holds_iff.mp hproved, hr₂, hproved₂, hdepth, hr₃, ⟨reason, hreason⟩,
    (strengthening_keeps_verdicts (c := ⟨{ depthBound := some 0 }, rfl⟩) decisive_decisiveSessions hspeaks
      hoff rfl).2 r₃ reason hr₃ hreason⟩

end Attempt

end InvariantProver
