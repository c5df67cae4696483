import InvariantProver.Proofs.Data.Pairs
import InvariantProver.Proofs.Prover.Placing

namespace InvariantProver

open Session

section

variable {σ α : Type} [Backend σ]

def Answer.Reports (read : EngineM σ α) (e : Engine σ) : Answer → Finding α → Prop
  | .sat, .found w => ∃ e', outcome read e = (.ok w, e')
  | .unsat, .nothing => True
  | .unknown _, .unknown _ => True
  | _, _ => False

end

namespace Engine

variable {σ α : Type} [Backend σ] {course : Course} {s₀ : Session σ} {frame : List Term}
  {outer : List (List Term)}

omit [Backend σ] in
theorem typed_eq_ok {t : Except TypeError Term} {u : Term} {e e' : Engine σ}
    (h : outcome (typed t : EngineM σ Term) e = (.ok u, e')) : t = .ok u ∧ e' = e := by
  cases t with
  | error error =>
    obtain ⟨hu, -⟩ := Prod.mk.inj h
    cases hu
  | ok t =>
    obtain ⟨hu, he⟩ := Prod.mk.inj h
    exact ⟨congrArg _ (Except.ok.inj hu), he.symm⟩

theorem asserted_of_ok {terms : List (Except TypeError Term)} {e e' : Engine σ} {u : PUnit}
    (h : OpenWith course s₀ (frame :: outer) e.session)
    (hs : outcome (terms.forM fun t => do talk (Session.assert (← typed t))) e = (.ok u, e')) :
    ∃ ts s, terms = ts.map .ok ∧ e' = { e with session := s } ∧
      OpenWith course s₀ ((frame ++ ts) :: outer) s := by
  induction terms generalizing e frame with
  | nil =>
    obtain ⟨-, rfl⟩ := Prod.mk.inj hs
    exact ⟨[], _, rfl, rfl, by rwa [List.append_nil]⟩
  | cons term terms ih =>
    change outcome ((typed term >>= fun t => talk (Session.assert t)) >>= fun _ =>
      terms.forM _) e = _ at hs
    obtain ⟨_, e₁, hone, hrest⟩ := outcome_bind_ok.mp hs
    obtain ⟨t, e₂, htyped, hassert⟩ := outcome_bind_ok.mp hone
    obtain ⟨rfl, rfl⟩ := typed_eq_ok htyped
    obtain ⟨s, hs', rfl⟩ := talk_eq_ok hassert
    obtain ⟨ts, s', rfl, he', hopen⟩ := ih (h.assert hs') hrest
    refine ⟨t :: ts, s', rfl, he', ?_⟩
    rwa [List.append_assoc] at hopen

def reported (depth : Int) (read : EngineM σ α) : Answer → EngineM σ (Outcome α)
  | .sat => do return ⟨depth, .found (← read)⟩
  | .unsat => return ⟨depth, .nothing⟩
  | .unknown _ => do return ⟨depth, .unknown (inconclusiveReason (← get).session.reason depth)⟩

def asked (depth : Int) (terms : List (Except TypeError Term)) (read : EngineM σ α) :
    EngineM σ (Outcome α) := do
  terms.forM fun t => do talk (Session.assert (← typed t))
  reported depth read (← talk Session.check)

theorem query_eq (terms : List (Except TypeError Term)) (read : EngineM σ α) :
    query terms read = (do
      let depth := (← get).depth
      talk Session.push
      ensuring (asked depth terms read) (talk Session.pop)) := rfl

omit [Backend σ] in
theorem reported_ok {depth : Int} {read : EngineM σ α} {a : Answer} {e e' : Engine σ} {o : Outcome α}
    (h : outcome (reported depth read a) e = (.ok o, e')) :
    o.depth = depth ∧ a.Reports read e o.finding := by
  cases a with
  | sat =>
    obtain ⟨w, e₁, hread, hpure⟩ := outcome_bind_ok.mp h
    obtain ⟨rfl, -⟩ := outcome_pure_ok.mp hpure
    exact ⟨rfl, e₁, hread⟩
  | unsat =>
    obtain ⟨rfl, -⟩ := outcome_pure_ok.mp h
    exact ⟨rfl, trivial⟩
  | unknown reason =>
    change outcome (get >>= _) e = _ at h
    rw [outcome_bind_of_ok (outcome_get _)] at h
    obtain ⟨rfl, -⟩ := outcome_pure_ok.mp h
    exact ⟨rfl, trivial⟩

section

variable (hscopes : s₀.scopes = [[]])
include hscopes

theorem keeps_assert_typed (e₀ : Engine σ) (t : Except TypeError Term) :
    Keeps course (e₀.WithSession fun s => ∃ frame, OpenWith course s₀ (frame :: outer) s)
      (do talk (Session.assert (← typed t))) := by
  refine .bind ?_ fun t => keeps_talk ?_
  · cases t with
    | ok t => exact .pure t
    | error error => exact .throw _
  · rintro s s' r ⟨frame, hopen⟩ hs hr
    cases r with
    | ok u => exact ⟨_, hopen.assert hs⟩
    | error e => exact ⟨frame, hopen.of_assert_error hscopes hs hr⟩

theorem keeps_asked {e₀ : Engine σ} {read : EngineM σ α}
    (hread : ∀ frames, Keeps course (e₀.WithSession (OpenWith course s₀ frames)) read) (depth : Int)
    (terms : List (Except TypeError Term)) :
    Keeps course (e₀.WithSession fun s => ∃ frame, OpenWith course s₀ (frame :: outer) s)
      (asked depth terms read) := by
  refine .bind (.forM _ fun t _ => keeps_assert_typed hscopes e₀ t) fun _ =>
    .bind (keeps_talk ?_) fun a => ?_
  · rintro s s' r ⟨frame, hopen⟩ hs hr
    exact ⟨frame, hopen.check hscopes hs hr⟩
  cases a with
  | sat =>
    refine .bind ?_ fun _ => .pure _
    rintro e e' r ⟨s, rfl, frame, hopen⟩ hs hr
    obtain ⟨s', rfl, hopen'⟩ := hread _ ⟨s, rfl, hopen⟩ hs hr
    exact ⟨s', rfl, frame, hopen'⟩
  | unsat => exact .pure _
  | unknown reason => exact .bind .get fun _ => .pure _

theorem keeps_query {e₀ : Engine σ} {read : EngineM σ α}
    (hread : ∀ frames, Keeps course (e₀.WithSession (OpenWith course s₀ frames)) read)
    (terms : List (Except TypeError Term)) (ts : List Term) :
    Keeps course (e₀.WithSession (Holding course s₀ ts)) (query terms read) := by
  rintro e e' r ⟨s, rfl, frames, hopen, rfl⟩ hs hr
  rw [query_eq, outcome_bind_of_ok (outcome_get _), outcome_bind] at hs
  rcases hpush : outcome (talk Session.push) { e₀ with session := s } with ⟨error | u, e₁⟩
  · rw [hpush] at hs
    obtain ⟨rfl, rfl⟩ := Prod.mk.inj hs
    obtain ⟨q, s₁, hq, hmap, rfl⟩ := talk_eq hpush
    cases q with
    | ok u => cases hmap
    | error error' =>
      obtain ⟨frames', hopen', hactive⟩ := hopen.of_push_error hscopes hq hr.error
      exact ⟨s₁, rfl, frames', hopen', hactive⟩
  rw [hpush] at hs
  obtain ⟨s₁, hq, rfl⟩ := talk_eq_ok hpush
  obtain ⟨q, e₂, c, hbody, hqr, hpop, hcr⟩ := ensuring_cases hs hr
  obtain ⟨s₂, rfl, frame, hopen₂⟩ :=
    keeps_asked hscopes hread _ terms ⟨s₁, rfl, [], hopen.push hq⟩ hbody hqr
  obtain ⟨c', s₃, hc, rfl, rfl⟩ := talk_eq hpop
  have hframes : frames ≠ [] := by
    obtain ⟨hlength, hpos⟩ := hopen.reached.length hscopes
    rintro rfl
    rw [List.length_nil] at hlength
    omega
  exact ⟨s₃, rfl, frames, hopen₂.pop hscopes hframes hc (allows_of_mapError hcr), rfl⟩

end

theorem query_ok {terms : List (Except TypeError Term)} {read : EngineM σ α} {e e' : Engine σ}
    {o : Outcome α} {active₀ : List Term} (h : Holding course s₀ active₀ e.session)
    (hs : outcome (query terms read) e = (.ok o, e')) :
    ∃ ts a s s', terms = ts.map .ok ∧ Holding course s₀ (active₀ ++ ts) s ∧
      outcome Session.check s = (.ok a, s') ∧ o.depth = e.depth ∧
      a.Reports read { e with session := s' } o.finding := by
  obtain ⟨frames, hopen, rfl⟩ := h
  rw [query_eq, outcome_bind_of_ok (outcome_get _)] at hs
  obtain ⟨_, e₁, hpush, hs⟩ := outcome_bind_ok.mp hs
  obtain ⟨s₁, hpushed, rfl⟩ := talk_eq_ok hpush
  obtain ⟨e₂, hasked, -⟩ := outcome_ensuring_ok.mp hs
  obtain ⟨_, e₃, hasserts, hasked⟩ := outcome_bind_ok.mp hasked
  obtain ⟨ts, s₃, hterms, rfl, hopen₃⟩ :=
    asserted_of_ok (e := { e with session := s₁ }) (hopen.push hpushed) hasserts
  obtain ⟨a, e₄, hcheck, hreported⟩ := outcome_bind_ok.mp hasked
  obtain ⟨s₄, hchecked, rfl⟩ := talk_eq_ok hcheck
  exact ⟨ts, a, s₃, s₄, hterms, ⟨_, hopen₃, active_cons _ _⟩, hchecked, reported_ok hreported⟩

section

variable {one : String → EngineM σ (Outcome α)} {I : Engine σ → Prop}

omit [Backend σ] in
theorem keeps_queryAll (h : ∀ name, Keeps course I (one name)) (names : List String) :
    Keeps course I (queryAll one names) :=
  .bind (.mapM names fun name _ => .bind (h name) fun _ => .pure _) fun _ => .pure _

omit [Backend σ] in
theorem mapM_one_ok (h : ∀ name, Keeps course I (one name)) {names : List String} {e e' : Engine σ}
    {pairs : List (String × Outcome α)} (he : I e)
    (hs : outcome (names.mapM fun name => do return (name, ← one name)) e = (.ok pairs, e')) :
    pairs.map Prod.fst = names ∧
      ∀ name o, (name, o) ∈ pairs → ∃ e₁ e₂, I e₁ ∧ outcome (one name) e₁ = (.ok o, e₂) := by
  induction names generalizing e e' pairs with
  | nil =>
    rw [List.mapM_nil] at hs
    obtain ⟨rfl, -⟩ := outcome_pure_ok.mp hs
    exact ⟨rfl, by simp⟩
  | cons name names ih =>
    rw [List.mapM_cons] at hs
    obtain ⟨pair, e₂, hpair, hrest⟩ := outcome_bind_ok.mp hs
    obtain ⟨o, e₁, hone, hpure⟩ := outcome_bind_ok.mp hpair
    obtain ⟨rfl, rfl⟩ := outcome_pure_ok.mp hpure
    obtain ⟨pairs', e₃, hothers, hpairs⟩ := outcome_bind_ok.mp hrest
    obtain ⟨rfl, -⟩ := outcome_pure_ok.mp hpairs
    obtain ⟨hnames, hasked⟩ := ih (h name he hone (course.allows_ok _)) hothers
    refine ⟨by rw [List.map_cons, hnames], fun name' o' hmem => ?_⟩
    rcases List.mem_cons.mp hmem with heq | hmem
    · obtain ⟨rfl, rfl⟩ := Prod.mk.inj heq
      exact ⟨e, e₁, he, hone⟩
    · exact hasked name' o' hmem

omit [Backend σ] in
theorem queryAll_ok (h : ∀ name, Keeps course I (one name)) {names : List String} {e e' : Engine σ}
    {outcomes : Entries String (Outcome α)} (he : I e)
    (hs : outcome (queryAll one names) e = (.ok outcomes, e')) :
    (∀ name ∈ names, ∃ o, Entries.get? name outcomes = some o) ∧
      ∀ name o, Entries.get? name outcomes = some o →
        ∃ e₁ e₂, I e₁ ∧ outcome (one name) e₁ = (.ok o, e₂) := by
  obtain ⟨pairs, e₁, hpairs, hpure⟩ := outcome_bind_ok.mp hs
  obtain ⟨rfl, -⟩ := outcome_pure_ok.mp hpure
  obtain ⟨hnames, hasked⟩ := mapM_one_ok h he hpairs
  constructor
  · intro name hname
    exact Entries.exists_get?_ofList (hnames ▸ hname)
  · intro name o ho
    exact hasked name o (Entries.mem_of_get?_ofList ho)

end

end Engine

end InvariantProver
