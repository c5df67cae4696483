import InvariantProver.Proofs.Prover.Checks
import InvariantProver.Proofs.Session.Decisive
import InvariantProver.Proofs.TransitionSystem.Encoding

namespace InvariantProver

open Session

def TransitionSystem.Covers (s : TransitionSystem) (n : Nat) (t : Term) : Prop :=
  t.ty = .bool ∧ ∀ r ∈ t.refs, r.var ∈ s.variables ∧ 0 ≤ r.step ∧ r.step < n

theorem covers_assumptions {task : Task} {s : TransitionSystem} {n : Nat} :
    ∀ t ∈ task.assumptions s n, s.Covers (n + 1) t := by
  intro t ht
  match n, task with
  | 0, .base =>
    obtain rfl := List.mem_singleton.mp ht
    refine ⟨s.ty_init, fun r hr => ?_⟩
    obtain ⟨hvar, hstep⟩ := s.refs_init r hr
    exact ⟨hvar, by omega, by omega⟩
  | 0, .step => cases ht
  | n + 1, task =>
    have ht : t = s.transAt n := by cases task <;> simpa [Task.assumptions] using ht
    subst ht
    refine ⟨(Term.ty_reindex _ _).trans s.ty_trans, fun r hr => ?_⟩
    rw [TransitionSystem.transAt, Term.refs_reindex] at hr
    obtain ⟨r, hmem, rfl⟩ := List.mem_map.mp hr
    obtain ⟨hvar, hstep⟩ := s.refs_trans r hmem
    refine ⟨hvar, ?_, ?_⟩
    · simp only [Ref.shift]
      omega
    · simp only [Ref.shift]
      omega

theorem covers_reindex {s : TransitionSystem} {t : Term} {i n : Nat} (hi : i < n) (hty : t.ty = .bool)
    (hrefs : ∀ r ∈ t.refs, r.var ∈ s.variables ∧ r.step = 0) : s.Covers n (t.reindex i) := by
  refine ⟨(Term.ty_reindex _ _).trans hty, fun r hr => ?_⟩
  rw [Term.refs_reindex] at hr
  obtain ⟨r, hmem, rfl⟩ := List.mem_map.mp hr
  obtain ⟨hvar, hstep⟩ := hrefs r hmem
  refine ⟨hvar, ?_, ?_⟩
  · simp only [Ref.shift]
    omega
  · simp only [Ref.shift]
    omega

theorem TransitionSystem.covers_negate {s : TransitionSystem} {name : String} {p : Term}
    (hp : s.property name = .ok p) (n : Nat) :
    ∃ q, (p.reindex n).negate = .ok q ∧ s.Covers (n + 1) q := by
  have hcovers := covers_reindex (Nat.lt_succ_self n) (ty_property hp) (refs_property hp)
  obtain ⟨q, hq, hty, hrefs⟩ := Term.negate_of_bool hcovers.1
  exact ⟨q, hq, hty, fun r hr => hcovers.2 r (hrefs r hr)⟩

theorem TransitionSystem.Covers.declared {s : TransitionSystem} {n : Nat} {t : Term}
    {scopes : List (List Ref)} (h : s.Covers n t)
    (hdeclared : ∀ r : Ref, r.var ∈ s.variables → 0 ≤ r.step → r.step < n → ∃ scope ∈ scopes, r ∈ scope) :
    t.ty = .bool ∧ ∀ r ∈ t.refs, ∃ scope ∈ scopes, r ∈ scope := by
  refine ⟨h.1, fun r hr => ?_⟩
  obtain ⟨hvar, hpos, hlt⟩ := h.2 r hr
  exact hdeclared r hvar hpos hlt

namespace Engine

variable {σ : Type} [Backend σ] {z : ZeroReading} {s₀ : Session σ} {s : TransitionSystem} {task : Task}
  {e e' : Engine σ} {α : Type}

def Declared (s : TransitionSystem) (n : Nat) (scope : List Ref) : Prop :=
  ∀ r, r ∈ scope ↔ r.var ∈ s.variables ∧ 0 ≤ r.step ∧ r.step < n

section

variable {n : Nat} {scope scope' : List Ref}

theorem Declared.fresh (h : Declared s n scope) (v : Variable) : (⟨v, n⟩ : Ref) ∉ scope := by
  intro hmem
  have hlt := ((h _).mp hmem).2.2
  simp at hlt

def Added (scope : List Ref) (vs : List Variable) (step : Int) (scope' : List Ref) : Prop :=
  ∀ r, r ∈ scope' ↔ r ∈ scope ∨ r.var ∈ vs ∧ r.step = step

theorem Added.concat {vs : List Variable} {step : Int} (h : Added scope vs step scope') (v : Variable) :
    Added scope (vs ++ [v]) step (⟨v, step⟩ :: scope') := by
  rintro ⟨w, j⟩
  rw [List.mem_cons, h, List.mem_append, List.mem_singleton, Ref.mk.injEq]
  grind

theorem Added.fresh {before after : List Variable} {v : Variable} {step : Int}
    (h : Added scope before step scope') (hnodup : (before ++ v :: after).Nodup)
    (hfresh : (⟨v, step⟩ : Ref) ∉ scope) : (⟨v, step⟩ : Ref) ∉ scope' := by
  rw [h]
  rintro (hmem | ⟨hmem, -⟩)
  · exact hfresh hmem
  · exact (List.nodup_append.mp hnodup).2.2 v hmem v (by simp) rfl

theorem Declared.succ (h : Declared s n scope) (hscope : Added scope s.variables n scope') :
    Declared s (n + 1) scope' := by
  intro r
  rw [hscope, h]
  constructor
  · rintro (⟨hvar, hpos, hlt⟩ | ⟨hvar, hstep⟩)
    · exact ⟨hvar, hpos, by omega⟩
    · exact ⟨hvar, by omega, by omega⟩
  · rintro ⟨hvar, hpos, hlt⟩
    by_cases hstep : r.step = n
    · exact .inr ⟨hvar, hstep⟩
    · exact .inl ⟨hvar, hpos, by omega⟩

theorem Declared.exists_scope (h : Declared s n scope) {scopes : List (List Ref)}
    (hmem : scope ∈ scopes) (r : Ref) (hvar : r.var ∈ s.variables) (hpos : 0 ≤ r.step)
    (hlt : r.step < n) : ∃ scope ∈ scopes, r ∈ scope :=
  ⟨scope, hmem, (h r).mpr ⟨hvar, hpos, hlt⟩⟩

end

structure Ready (s₀ : Session σ) (s : TransitionSystem) (task : Task) (e : Engine σ) : Prop where
  session : ∃ frames scope, Calm s₀ frames [scope] e.session ∧
    active frames = Task.asserted task s e.placed ∧ Declared s e.placed scope
  system : e.system = s
  task : e.task = task

theorem Ready.follows (h : e.Ready s₀ s task) : e.Follows .unbroken s₀ s task := by
  obtain ⟨⟨frames, scope, hcalm, hactive, -⟩, hsystem, htask⟩ := h
  exact ⟨⟨frames, hcalm.opened, hactive⟩, hsystem, htask⟩

omit [Backend σ] in
theorem outcome_talk_ok {m : SessionM σ α} {x : α} {t : Session σ}
    (h : outcome m e.session = (.ok x, t)) :
    outcome (talk m) e = (.ok x, { e with session := t }) := by
  rw [outcome_talk, h]
  rfl

omit [Backend σ] in
theorem talks_return {ι : Type} {op : ι → SessionM σ Unit} {xs : List ι}
    {I : List ι → Session σ → Prop}
    (hop : ∀ before x after s, xs = before ++ x :: after → I before s →
      ∃ t, outcome (op x) s = (.ok (), t) ∧ I (before ++ [x]) t)
    (h : I [] e.session) :
    ∃ t, outcome (xs.forM fun x => talk (op x)) e = (.ok (), { e with session := t }) ∧ I xs t := by
  suffices hrest : ∀ after before e, xs = before ++ after → I before e.session →
      ∃ t, outcome (after.forM fun x => talk (op x)) e = (.ok (), { e with session := t }) ∧ I xs t from
    hrest xs [] e rfl h
  intro after
  induction after with
  | nil =>
    rintro before e rfl h
    exact ⟨e.session, rfl, by rwa [List.append_nil]⟩
  | cons x after ih =>
    intro before e hxs h
    obtain ⟨t, hs, h⟩ := hop before x after e.session hxs h
    obtain ⟨t', hrest, h'⟩ := ih (before ++ [x]) { e with session := t } (by simp [hxs]) h
    refine ⟨t', ?_, h'⟩
    change outcome (talk (op x) >>= fun _ => after.forM _) e = _
    rw [outcome_bind_of_ok (outcome_talk_ok hs)]
    exact hrest

theorem declares_return (hw : Willing s₀) {vs : List Variable} (hnodup : vs.Nodup) {step : Nat}
    {frames : List (List Term)} {scope : List Ref} (h : Calm s₀ frames [scope] e.session)
    (hfresh : ∀ v ∈ vs, (⟨v, step⟩ : Ref) ∉ scope) :
    ∃ t, outcome (vs.forM fun v => talk (Session.declare v step)) e = (.ok (), { e with session := t }) ∧
      ∃ scope', Calm s₀ frames [scope'] t ∧ Added scope vs step scope' := by
  refine talks_return (I := fun before t => ∃ scope', Calm s₀ frames [scope'] t ∧
    Added scope before step scope') ?_ ⟨scope, h, by simp [Added]⟩
  rintro before v after s rfl ⟨scope', h, hadded⟩
  obtain ⟨t, hs, h'⟩ := h.declare hw (hadded.fresh hnodup (hfresh v (by simp)))
  exact ⟨t, hs, _, h', hadded.concat v⟩

theorem asserts_return (hw : Willing s₀) {ts frame : List Term} {outer : List (List Term)}
    {scopes : List (List Ref)} (h : Calm s₀ (frame :: outer) scopes e.session)
    (hts : ∀ t ∈ ts, t.ty = .bool ∧ ∀ r ∈ t.refs, ∃ scope ∈ scopes, r ∈ scope) :
    ∃ t, outcome (ts.forM fun t => talk (Session.assert t)) e = (.ok (), { e with session := t }) ∧
      Calm s₀ ((frame ++ ts) :: outer) scopes t := by
  refine talks_return (I := fun before t => Calm s₀ ((frame ++ before) :: outer) scopes t) ?_
    (by rwa [List.append_nil])
  rintro before p after s rfl h
  obtain ⟨hty, hrefs⟩ := hts p (by simp)
  obtain ⟨t, hs, h'⟩ := h.assert hw hty hrefs
  exact ⟨t, hs, by rwa [List.append_assoc] at h'⟩

theorem Ready.advance (hw : Willing s₀) (h : e.Ready s₀ s task) :
    ∃ e', outcome Engine.advance e = (.ok (), e') ∧ e'.Ready s₀ s task ∧ e'.placed = e.placed + 1 := by
  obtain ⟨⟨frames, scope, hcalm, hactive, hscope⟩, rfl, rfl⟩ := h
  obtain ⟨t, hdeclares, scope', hcalm', hscope'⟩ :=
    declares_return hw e.system.nodup_variables hcalm fun v _ => hscope.fresh v
  have hall : Declared e.system (e.placed + 1) scope' := hscope.succ hscope'
  obtain ⟨hlength, hpos⟩ := hcalm'.opened.reached.length hw.scopes
  have hframes : frames ≠ [] := List.length_pos_iff.mp (by omega)
  obtain ⟨frame, outer, rfl⟩ := List.exists_cons_of_ne_nil hframes
  have hcovers : ∀ u ∈ e.task.assumptions e.system e.placed,
      u.ty = .bool ∧ ∀ r ∈ u.refs, ∃ scope ∈ [scope'], r ∈ scope :=
    fun u hu => (covers_assumptions u hu).declared (hall.exists_scope (by simp))
  obtain ⟨t', hasserts, hcalm''⟩ := asserts_return (e := { e with session := t }) hw hcalm' hcovers
  have hs : outcome Engine.advance e =
      (.ok (), { e with session := t', placed := e.placed + 1 }) := by
    unfold Engine.advance
    rw [outcome_bind_of_ok (outcome_get e), outcome_bind_of_ok hdeclares, outcome_bind_of_ok hasserts]
    rfl
  refine ⟨_, hs, ⟨⟨_, scope', hcalm'', ?_, hall⟩, rfl, rfl⟩, rfl⟩
  rw [active_cons, ← List.append_assoc, ← active_cons, hactive, Task.asserted_succ]

theorem asserts_typed (ts : List Term) :
    ((ts.map .ok).forM fun t => do talk (Session.assert (← typed t)) : EngineM σ PUnit) =
      ts.forM fun t => talk (Session.assert t) := by
  induction ts with
  | nil => rfl
  | cons t ts ih =>
    change (talk (Session.assert t) >>= fun _ => _) = talk (Session.assert t) >>= fun _ => _
    exact congrArg _ (funext fun _ => ih)

theorem Ready.query_reports {read : EngineM σ α} {ts : List Term} {P : Outcome α → Prop}
    (hw : Willing s₀) (h : e.Ready s₀ s task) (hts : ∀ t ∈ ts, s.Covers e.placed t)
    (hreport : ∀ {t t' a frames scopes}, Calm s₀ frames scopes t →
      active frames = Task.asserted task s e.placed ++ ts → outcome Session.check t = (.ok a, t') →
      Calm s₀ frames scopes t' →
      (∀ r : Ref, r.var ∈ s.variables → 0 ≤ r.step → r.step < e.placed → ∃ scope ∈ scopes, r ∈ scope) →
      ∃ o t'', outcome (reported e.depth read a) { e with session := t' } =
          (.ok o, { e with session := t'' }) ∧ Calm s₀ frames scopes t'' ∧ P o) :
    ∃ o e', outcome (Engine.query (ts.map .ok) read) e = (.ok o, e') ∧ e'.Ready s₀ s task ∧
      e'.placed = e.placed ∧ P o := by
  obtain ⟨⟨frames, scope, hcalm, hactive, hscope⟩, hsystem, htask⟩ := h
  obtain ⟨t₁, hpush, h₁⟩ := hcalm.push hw
  have hdeclared : ∀ r : Ref, r.var ∈ s.variables → 0 ≤ r.step → r.step < e.placed →
      ∃ scope' ∈ [[], scope], r ∈ scope' := hscope.exists_scope (by simp)
  have hcovered : ∀ t ∈ ts, t.ty = .bool ∧ ∀ r ∈ t.refs, ∃ scope' ∈ [[], scope], r ∈ scope' :=
    fun t ht => (hts t ht).declared hdeclared
  obtain ⟨t₂, hasserts, h₂⟩ := asserts_return (e := { e with session := t₁ }) hw h₁ hcovered
  obtain ⟨a, t₃, hcheck, h₃⟩ := h₂.check hw
  have hall : active (([] ++ ts) :: frames) = Task.asserted task s e.placed ++ ts := by
    rw [active_cons, hactive, List.nil_append]
  obtain ⟨o, t₄, hreported, h₄, ho⟩ := hreport h₂ hall hcheck h₃ hdeclared
  obtain ⟨t₅, hpop, h₅⟩ := h₄.pop (by simp) hw
  have hs : outcome (Engine.query (ts.map .ok) read) e = (.ok o, { e with session := t₅ }) := by
    rw [query_eq, outcome_bind_of_ok (outcome_get e), outcome_bind_of_ok (outcome_talk_ok hpush)]
    refine outcome_ensuring_ok.mpr ⟨{ e with session := t₄ }, ?_, outcome_talk_ok hpop⟩
    unfold asked
    rw [asserts_typed, outcome_bind_of_ok hasserts, outcome_bind_of_ok (outcome_talk_ok hcheck)]
    exact hreported
  exact ⟨o, _, hs, ⟨⟨frames, scope, h₅, hactive, hscope⟩, hsystem, htask⟩, rfl, ho⟩

theorem Ready.query (read : EngineM σ α) {ts : List Term} (hd : Decisive z s₀)
    (h : e.Ready s₀ s task) (hts : ∀ t ∈ ts, s.Covers e.placed t)
    (hread : ∀ {t frames scopes}, Calm s₀ frames scopes t → t.hasModel = true →
      (∀ r : Ref, r.var ∈ s.variables → 0 ≤ r.step → r.step < e.placed → ∃ scope ∈ scopes, r ∈ scope) →
      ∃ w t', outcome read { e with session := t } = (.ok w, { e with session := t' }) ∧
        Calm s₀ frames scopes t') :
    ∃ o e', outcome (Engine.query (ts.map .ok) read) e = (.ok o, e') ∧ e'.Ready s₀ s task ∧
      e'.placed = e.placed ∧ ∀ reason, o.finding ≠ .unknown reason := by
  refine h.query_reports hd hts fun {t t' a frames scopes} hcalm hactive hcheck hcalm' hdeclared => ?_
  cases a with
  | sat =>
    obtain ⟨w, t'', hw, h'⟩ := hread hcalm' (hasModel_of_check hcheck) hdeclared
    exact ⟨⟨e.depth, .found w⟩, t'', outcome_bind_ok.mpr ⟨w, _, hw, rfl⟩, h', by simp⟩
  | unsat => exact ⟨⟨e.depth, .nothing⟩, t', rfl, hcalm', by simp⟩
  | unknown reason => exact absurd rfl (hcalm.known hd hcheck hcalm'.interrupted reason)

omit [Backend σ] in
theorem mapM_returns {one : String → EngineM σ (Outcome α)} {I : Engine σ → Prop}
    {P : String → Outcome α → Prop} {names : List String}
    (h : ∀ name ∈ names, ∀ e, I e → ∃ o e', outcome (one name) e = (.ok o, e') ∧ I e' ∧ P name o)
    (he : I e) :
    ∃ pairs e', outcome (names.mapM fun name => do return (name, ← one name)) e = (.ok pairs, e') ∧
      I e' ∧ pairs.map Prod.fst = names ∧ ∀ name o, (name, o) ∈ pairs → P name o := by
  induction names generalizing e with
  | nil =>
    rw [List.mapM_nil]
    exact ⟨[], e, rfl, he, rfl, by simp⟩
  | cons name names ih =>
    obtain ⟨o, e₁, hone, he₁, ho⟩ := h name (by simp) e he
    obtain ⟨pairs, e₂, hrest, he₂, hnames, hpairs⟩ :=
      ih (fun name' hname => h name' (List.mem_cons_of_mem name hname)) he₁
    refine ⟨(name, o) :: pairs, e₂, ?_, he₂, by rw [List.map_cons, hnames], fun name' o' hmem => ?_⟩
    · rw [List.mapM_cons]
      refine outcome_bind_ok.mpr ⟨(name, o), e₁, outcome_bind_ok.mpr ⟨o, e₁, hone, rfl⟩, ?_⟩
      exact outcome_bind_ok.mpr ⟨pairs, e₂, hrest, rfl⟩
    · rcases List.mem_cons.mp hmem with heq | hmem
      · obtain ⟨rfl, rfl⟩ := Prod.mk.inj heq
        exact ho
      · exact hpairs name' o' hmem

omit [Backend σ] in
theorem queryAll_returns {one : String → EngineM σ (Outcome α)} {I : Engine σ → Prop}
    {P : String → Outcome α → Prop} {names : List String}
    (h : ∀ name ∈ names, ∀ e, I e → ∃ o e', outcome (one name) e = (.ok o, e') ∧ I e' ∧ P name o)
    (he : I e) :
    ∃ outcomes e', outcome (queryAll one names) e = (.ok outcomes, e') ∧ I e' ∧
      ∀ name ∈ names, ∃ o, Entries.get? name outcomes = some o ∧ P name o := by
  obtain ⟨pairs, e', hpairs, he', hnames, hall⟩ := mapM_returns h he
  refine ⟨Entries.ofList pairs, e', outcome_bind_ok.mpr ⟨pairs, e', hpairs, rfl⟩, he', ?_⟩
  intro name hname
  obtain ⟨o, ho⟩ := Entries.exists_get?_ofList (hnames ▸ hname)
  exact ⟨o, ho, hall name o (Entries.mem_of_get?_ofList ho)⟩

theorem Asked.satisfiable {active : List Term} {read : EngineM σ α} {o : Outcome α} {w : α}
    (h : Asked .unbroken s₀ active read e o) (hd : Decisive z s₀) (ho : o.finding = .found w) :
    Satisfiable z active := by
  obtain ⟨a, t, t', ⟨frames, hopen, rfl⟩, hcheck, hreports⟩ := h
  rw [ho] at hreports
  cases a with
  | unsat => exact hreports.elim
  | unknown reason => exact hreports.elim
  | sat =>
    have hcalm := interrupted_of_check hcheck (by simp)
    rcases hd.answers hopen.reached hcheck hcalm with ⟨-, hsatisfiable⟩ | ⟨hunsat, -⟩
    · exact hsatisfiable
    · cases hunsat

end Engine

namespace BaseCase

open Engine

variable {σ : Type} [Backend σ] {z : ZeroReading} {s₀ : Session σ} {s : TransitionSystem}
  {e : Engine σ} {name : String} {p : Term} {n : Nat}

theorem trace_returns {t : Session σ} {frames : List (List Term)} {scopes : List (List Ref)}
    (hd : Decisive z s₀) (hcalm : Calm s₀ frames scopes t) (hmodel : t.hasModel = true)
    (hdeclared : ∀ r : Ref, r.var ∈ e.system.variables → 0 ≤ r.step → r.step < e.placed →
      ∃ scope ∈ scopes, r ∈ scope) :
    ∃ w t', outcome trace { e with session := t } = (.ok w, { e with session := t' }) ∧
      Calm s₀ frames scopes t' := by
  have hall : ∀ r ∈ e.system.refsBelow e.placed, ∃ scope ∈ scopes, r ∈ scope := by
    intro r hr
    obtain ⟨hvar, hpos, hlt⟩ := TransitionSystem.mem_refsBelow.mp hr
    exact hdeclared r hvar hpos hlt
  obtain ⟨entries, t', hvalues, hcalm'⟩ := hcalm.values hd hmodel hall
  have hs := outcome_trace (e := { e with session := t }) hvalues
  cases htraced : traced { e with session := t } entries with
  | ok w => exact ⟨w, t', by rw [hs]; exact congrArg (·, _) htraced, hcalm'⟩
  | error error =>
    obtain ⟨r, hr, -, hmissing⟩ := traced_eq_error htraced
    obtain ⟨v, hv⟩ := hd.complete hcalm.opened.reached hvalues r hr
    rw [hmissing] at hv
    cases hv

def Settles (z : ZeroReading) (s : TransitionSystem) (p : Term) (n : Nat) (o : Outcome Trace) : Prop :=
  o.depth = n ∧
    ((∃ t, o.finding = .found t ∧ t.depth = n ∧ s.Violates z p n) ∨
      o.finding = .nothing ∧ ¬ s.Violates z p n)

theorem check_decides (hd : Decisive z s₀) (h : e.Ready s₀ s .base) (hplaced : e.placed = n + 1)
    (hp : s.property name = .ok p) :
    ∃ o e', outcome (check name) e = (.ok o, e') ∧ (e'.Ready s₀ s .base ∧ e'.placed = n + 1) ∧
      Settles z s p n o := by
  obtain ⟨q, hq, hcovered⟩ := TransitionSystem.covers_negate hp n
  have hts : ∀ t ∈ [q], s.Covers e.placed t := by
    intro t ht
    obtain rfl := List.mem_singleton.mp ht
    rwa [hplaced]
  obtain ⟨o, e', hquery, hready, hplaced', hfinding⟩ := h.query trace hd hts fun hcalm hmodel hdeclared => by
      rw [← h.system] at hdeclared
      exact trace_returns hd hcalm hmodel hdeclared
  have hdepth := depth_of_placed hplaced
  have hs : outcome (check name) e = (.ok o, e') := by
    unfold check
    rw [outcome_bind_of_ok (property_eq_ok.mpr ⟨h.system ▸ hp, rfl⟩),
      outcome_bind_of_ok (outcome_get e), hdepth, hq]
    exact hquery
  obtain ⟨p', q', hp', hq', hout, hasked⟩ := check_ok ⟨h.follows, hplaced⟩ hs
  obtain rfl := Except.ok.inj (hp.symm.trans hp')
  have hsteps : ∀ r ∈ p.refs, r.step = 0 := fun r hr => (TransitionSystem.refs_property hp r hr).2
  refine ⟨o, e', hs, ⟨hready, hplaced'.trans hplaced⟩, hout, ?_⟩
  cases ho : o.finding with
  | unknown reason => exact absurd ho (hfinding reason)
  | nothing =>
    refine .inr ⟨rfl, fun hviolates => ?_⟩
    exact hasked.unsat hd.truthful ho ((satisfiable_base_iff hsteps hq').mpr hviolates)
  | found t =>
    obtain ⟨t', e'', -, htrace⟩ := hasked.found hd.scopes ho
    refine .inl ⟨t, rfl, (depth_trace htrace).trans hdepth, ?_⟩
    exact (satisfiable_base_iff hsteps hq').mp (hasked.satisfiable hd ho)

end BaseCase

namespace InductionStep

open Engine

variable {σ : Type} [Backend σ] {z : ZeroReading} {s₀ : Session σ} {s : TransitionSystem}
  {e : Engine σ} {name : String} {p : Term} {k : Nat} {hypotheses : List Term}

def Settles (z : ZeroReading) (s : TransitionSystem) (assumed : List Term) (p : Term) (k : Nat)
    (o : Outcome Unit) : Prop :=
  o.depth = k ∧
    (o.finding = .found () ∧ s.Escapes z assumed p k ∨
      o.finding = .nothing ∧ ¬ s.Escapes z assumed p k)

theorem property_of_assumed (hp : s.property name = .ok p)
    (h : ∀ t ∈ hypotheses, ∃ name, s.property name = .ok t) :
    ∀ t ∈ p :: hypotheses.filter (· ≠ p), ∃ name, s.property name = .ok t := by
  intro t ht
  rcases List.mem_cons.mp ht with rfl | ht
  · exact ⟨name, hp⟩
  · exact h t (List.mem_filter.mp ht).1

theorem covers_assumed {ts : List Term} (h : ∀ t ∈ ts, ∃ name, s.property name = .ok t) (k : Nat) :
    ∃ u, Term.conj (assumed ts k) = .ok u ∧ s.Covers (k + 1) u := by
  have hall : ∀ t ∈ assumed ts k, s.Covers (k + 1) t := by
    intro t ht
    obtain ⟨i, hi, ht⟩ := List.mem_flatMap.mp ht
    obtain ⟨t, hmem, rfl⟩ := List.mem_map.mp ht
    obtain ⟨name, hname⟩ := h t hmem
    have hi := List.mem_range.mp hi
    apply covers_reindex (by omega) (TransitionSystem.ty_property hname)
    exact TransitionSystem.refs_property hname
  obtain ⟨u, hu, huty, hurefs⟩ := Term.conj_of_bool fun t ht => (hall t ht).1
  refine ⟨u, hu, huty, fun r hr => ?_⟩
  obtain ⟨t, hmem, hr⟩ := hurefs r hr
  exact (hall t hmem).2 r hr

theorem check_decides (hd : Decisive z s₀) (h : e.Ready s₀ s .step) (hplaced : e.placed = k + 1)
    (hp : s.property name = .ok p)
    (hhypotheses : ∀ t ∈ hypotheses, ∃ name, s.property name = .ok t) :
    ∃ o e', outcome (check hypotheses name) e = (.ok o, e') ∧
      (e'.Ready s₀ s .step ∧ e'.placed = k + 1) ∧
      Settles z s (p :: hypotheses.filter (· ≠ p)) p k o := by
  have hproperty := property_of_assumed hp hhypotheses
  obtain ⟨u, hu, hucovered⟩ := covers_assumed hproperty k
  obtain ⟨q, hq, hqcovered⟩ := TransitionSystem.covers_negate hp k
  have hts : ∀ t ∈ [u, q], s.Covers e.placed t := by
    intro t ht
    rw [hplaced]
    rcases List.mem_cons.mp ht with rfl | ht
    · exact hucovered
    · obtain rfl := List.mem_singleton.mp ht
      exact hqcovered
  obtain ⟨o, e', hquery, hready, hplaced', hfinding⟩ :=
    h.query (pure ()) hd hts fun hcalm _ _ => ⟨(), _, rfl, hcalm⟩
  have hdepth := depth_of_placed hplaced
  have hs : outcome (check hypotheses name) e = (.ok o, e') := by
    unfold check
    rw [outcome_bind_of_ok (property_eq_ok.mpr ⟨h.system ▸ hp, rfl⟩),
      outcome_bind_of_ok (outcome_get e), hdepth]
    simp only [hu, hq]
    exact hquery
  obtain ⟨p', u', q', hp', hu', hq', hout, hasked⟩ := check_ok ⟨h.follows, hplaced⟩ hs
  obtain rfl := Except.ok.inj (hp.symm.trans hp')
  have hsteps : ∀ t ∈ p :: hypotheses.filter (· ≠ p), ∀ r ∈ t.refs, r.step = 0 := by
    intro t ht r hr
    obtain ⟨name', hname⟩ := hproperty t ht
    exact (TransitionSystem.refs_property hname r hr).2
  have hiff := satisfiable_step_iff (z := z) (s := s) hsteps (hsteps p (by simp)) hu' hq'
  refine ⟨o, e', hs, ⟨hready, hplaced'.trans hplaced⟩, hout, ?_⟩
  cases ho : o.finding with
  | unknown reason => exact absurd ho (hfinding reason)
  | nothing => exact .inr ⟨rfl, fun hescapes => hasked.unsat hd.truthful ho (hiff.mpr hescapes)⟩
  | found w => exact .inl ⟨rfl, hiff.mp (hasked.satisfiable hd ho)⟩

end InductionStep

end InvariantProver
