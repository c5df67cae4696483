import InvariantProver.Proofs.TransitionSystem.Predicates
import InvariantProver.Proofs.TransitionSystem.Walk

namespace InvariantProver

variable {d : Draft} {p : Position} {seen : List Site}

theorem visits_script (s : Script) :
    Visits s.sites (Build.script s) {} fun _ d => d.At (Item.walkAll {} s.items).2 s.sites := by
  refine (visits_items s.items Draft.at_start).andThen fun _ d ⟨hat, _⟩ => .modify ?_
  exact hat.moves ⟨_, _, _, rfl⟩ hat.within hat.taken

/-! ### The finished draft -/

theorem mem_of_predicate {place : Place} {r : Meaning} (h : r ∈ seen.filterMap (Site.predicate? place)) :
    .predicate place r ∈ seen := by
  obtain ⟨site, hsite, hr⟩ := List.mem_filterMap.mp h
  unfold Site.predicate? at hr
  split at hr
  · split at hr
    · next hplace =>
      obtain rfl := Option.some.inj hr
      exact hplace ▸ hsite
    · cases hr
  · cases hr

theorem mem_of_property {entry : String × Meaning} (h : entry ∈ seen.filterMap Site.property?) :
    .predicate (.property entry.1) entry.2 ∈ seen := by
  obtain ⟨site, hsite, hentry⟩ := List.mem_filterMap.mp h
  unfold Site.property? at hentry
  split at hentry
  · obtain rfl := Option.some.inj hentry
    exact hsite
  · cases hentry

theorem Term.Denotes.of_sound {vs : List Variable} {t : Term} {r : Meaning} {place : Place}
    (h : t.Denotes vs r) (hsound : (Site.predicate place r).Sound) :
    t.ty = .bool ∧ ∀ ref ∈ t.refs, ref.var ∈ vs ∧ ref.step ∈ place.steps := by
  have hbool : t.ty = .bool := by
    by_contra hne
    exact hsound .truthValues (.truthValue h.ty hne)
  refine ⟨hbool, fun ref href => ?_⟩
  obtain ⟨hvar, -, hstep⟩ := h.refs ref href
  refine ⟨hvar, ?_⟩
  by_cases hplace : place = .trans
  · rw [hplace]
    simpa [Place.steps] using hstep
  · have hstill : t.refs.any (·.step ≠ 0) = false := by
      rw [← h.next, Bool.eq_false_iff]
      exact fun hnext => hsound .steps (.steps hplace hnext)
    have hzero : ref.step = 0 := by simpa using List.any_eq_false.mp hstill ref href
    rw [hzero]
    cases place with
    | trans => exact absurd rfl hplace
    | init | property => exact List.mem_cons_self

namespace Draft

theorem predicates_of_sound {place : Place} {ts : List Term}
    (h : List.Forall₂ (Term.Denotes d.variables) ts (seen.filterMap (Site.predicate? place)))
    (hsound : ∀ site ∈ seen, site.Sound) :
    ∀ t ∈ ts, t.ty = .bool ∧ ∀ ref ∈ t.refs, ref.var ∈ d.variables ∧ ref.step ∈ place.steps := by
  intro t ht
  obtain ⟨r, hr, hdenotes⟩ := exists_of_forall₂ h ht
  exact hdenotes.of_sound (hsound _ (mem_of_predicate hr))

theorem denotes_allOf_of_sound {place : Place} {ts : List Term}
    (h : List.Forall₂ (Term.Denotes d.variables) ts (seen.filterMap (Site.predicate? place)))
    (hsound : ∀ site ∈ seen, site.Sound) :
    (Term.allOf ts).Denotes d.variables (.conjunction (seen.filterMap (Site.predicate? place))) :=
  Term.denotes_allOf h fun t ht => (predicates_of_sound h hsound t ht).1

theorem checkPredicate_of_sound {place : Place} {ts : List Term}
    (h : List.Forall₂ (Term.Denotes d.variables) ts (seen.filterMap (Site.predicate? place)))
    (hsound : ∀ site ∈ seen, site.Sound) :
    SystemData.checkPredicate d.variables place (Term.allOf ts) = .ok () := by
  have hall := predicates_of_sound h hsound
  have hty : (Term.allOf ts).ty = .bool := by
    refine (Term.typed_allOf fun t ht => ⟨(hall t ht).1, ?_⟩).1
    obtain ⟨r, -, hdenotes⟩ := exists_of_forall₂ h ht
    exact hdenotes.typed
  refine SystemData.checkPredicate_of_bool hty fun ref href => ?_
  rw [Term.refs_allOf] at href
  obtain ⟨t, ht, href⟩ := List.mem_flatMap.mp href
  exact (hall t ht).2 ref href

theorem At.check_finish (h : d.At p seen) (hsound : ∀ site ∈ seen, site.Sound) (name : String) :
    (d.finish name).check = .ok () := by
  have hvariables : SystemData.checkVariables [] d.variables = .ok () :=
    SystemData.checkVariables_of_nodup h.roles h.names (by simp)
  have hproperties : SystemData.checkProperties d.variables d.properties = .ok () := by
    refine SystemData.checkProperties_of_forall fun entry hentry => ?_
    obtain ⟨written, hwritten, hname, hdenotes⟩ := exists_of_forall₂ h.written.properties hentry
    obtain ⟨hbool, hrefs⟩ := hdenotes.of_sound (hsound _ (mem_of_property hwritten))
    rw [hname]
    exact SystemData.checkPredicate_of_bool hbool hrefs
  unfold SystemData.check finish
  rw [hvariables, checkPredicate_of_sound h.written.init hsound,
    checkPredicate_of_sound h.written.trans hsound, hproperties]
  rfl

end Draft

theorem Script.build_cases (s : Script) :
    (∃ (built : Built) (d : Draft), s.build = .ok built ∧ s.WellFormed ∧
      built.system.toSystemData = d.finish s.name ∧ d.At (Item.walkAll {} s.items).2 s.sites) ∨
    ∃ e rule, s.build = .error e ∧ e.fault.rule? = some rule ∧ ∃ site ∈ s.sites, site.Breaks rule := by
  have hvisits := visits_script s
  unfold Visits at hvisits
  split at hvisits
  · next d hrun =>
    obtain ⟨hsound, hat⟩ := hvisits
    have hcheck := hat.check_finish hsound s.name
    have hbuild : ∃ ds, s.build = .ok ⟨⟨d.finish s.name, hcheck⟩, ds⟩ := by
      unfold Script.build
      rw [hrun, except_bind_ok]
      simp only [TransitionSystem.ofData_of_check hcheck]
      exact ⟨_, rfl⟩
    obtain ⟨ds, hbuild⟩ := hbuild
    exact .inl ⟨_, d, hbuild, hsound, rfl, hat⟩
  · next e hrun =>
    obtain ⟨rule, hrule, site, hsite, hbreaks⟩ := hvisits
    refine .inr ⟨e, rule, ?_, hrule, site, hsite, hbreaks⟩
    rw [Script.build, hrun]
    rfl

/-- A script is built exactly if it breaks no rule, and a build that fails does so for a rule that the
script breaks. -/
theorem Script.builds_iff_wellFormed (s : Script) :
    ((∃ built, s.build = .ok built) ↔ s.WellFormed) ∧
      ∀ e, s.build = .error e →
        ∃ rule, e.fault.rule? = some rule ∧ ∃ site ∈ s.sites, site.Breaks rule := by
  rcases s.build_cases with ⟨built, d, hbuild, hformed, -, -⟩ | ⟨e, rule, hbuild, hrule, site, hsite, hbreaks⟩
  · refine ⟨⟨fun _ => hformed, fun _ => ⟨built, hbuild⟩⟩, fun e he => ?_⟩
    rw [hbuild] at he
    cases he
  · refine ⟨⟨fun ⟨built, hbuilt⟩ => ?_, fun hformed => absurd hbreaks (hformed site hsite rule)⟩, ?_⟩
    · rw [hbuild] at hbuilt
      cases hbuilt
    · intro e' he'
      obtain rfl := Except.error.inj (hbuild.symm.trans he')
      exact ⟨rule, hrule, site, hsite, hbreaks⟩

end InvariantProver
