import InvariantProver.Proofs.Data.Pairs
import InvariantProver.TransitionSystem.Basic

namespace InvariantProver

namespace SystemData

theorem checkVariables_eq_ok {vs : List Variable} {taken : List String}
    (h : checkVariables taken vs = .ok ()) :
    (vs.map Variable.name).Nodup ∧ ∀ v ∈ vs, v.name ∉ taken := by
  induction vs generalizing taken with
  | nil => simp
  | cons v vs ih =>
    unfold checkVariables at h
    split at h
    · cases h
    · split at h
      · cases h
      · next hv =>
        obtain ⟨hnodup, hfresh⟩ := ih h
        refine ⟨?_, ?_⟩
        · rw [List.map_cons, List.nodup_cons]
          refine ⟨fun hmem => ?_, hnodup⟩
          obtain ⟨w, hw, he⟩ := List.mem_map.mp hmem
          exact hfresh w hw (by simp [he])
        · intro w hw
          rcases List.mem_cons.mp hw with rfl | hw
          · exact hv
          · exact fun ht => hfresh w hw (List.mem_cons_of_mem _ ht)

theorem checkRefs_eq_ok {vs : List Variable} {place : Place} {rs : List Ref}
    (h : checkRefs vs place rs = .ok ()) : ∀ r ∈ rs, r.var ∈ vs ∧ r.step ∈ place.steps := by
  induction rs with
  | nil => simp
  | cons r rs ih =>
    unfold checkRefs at h
    cases hr : checkRef vs place r with
    | error e => simp [hr, bind, Except.bind] at h
    | ok u =>
      simp only [hr, bind, Except.bind] at h
      intro r' hr'
      rcases List.mem_cons.mp hr' with rfl | hr'
      · unfold checkRef at hr
        split at hr
        · cases hr
        · split at hr
          · cases hr
          · next hv hs => exact ⟨Decidable.not_not.mp hv, Decidable.not_not.mp hs⟩
      · exact ih h r' hr'

theorem checkPredicate_eq_ok {vs : List Variable} {place : Place} {t : Term}
    (h : checkPredicate vs place t = .ok ()) :
    t.ty = .bool ∧ ∀ r ∈ t.refs, r.var ∈ vs ∧ r.step ∈ place.steps := by
  unfold checkPredicate at h
  split at h
  · cases h
  · next ht =>
    exact ⟨Decidable.not_not.mp ht, fun r hr => checkRefs_eq_ok h r (List.mem_eraseDups.mpr hr)⟩

theorem checkProperties_eq_ok {vs : List Variable} {props : Entries String Term}
    (h : checkProperties vs props = .ok ()) :
    ∀ entry ∈ props, checkPredicate vs (.property entry.1) entry.2 = .ok () := by
  induction props with
  | nil => exact List.forall_mem_nil _
  | cons entry props ih =>
    unfold checkProperties at h
    cases hc : checkPredicate vs (.property entry.1) entry.2 with
    | error e => simp [hc, bind, Except.bind] at h
    | ok u =>
      simp only [hc, bind, Except.bind] at h
      exact List.forall_mem_cons.mpr ⟨hc, ih h⟩

theorem check_eq_ok {d : SystemData} (h : d.check = .ok ()) :
    checkVariables [] d.variables = .ok () ∧ checkPredicate d.variables .init d.init = .ok () ∧
      checkPredicate d.variables .trans d.trans = .ok () ∧
      checkProperties d.variables d.properties = .ok () := by
  unfold check at h
  cases hv : checkVariables [] d.variables with
  | error e => simp [hv, bind, Except.bind] at h
  | ok u =>
    cases hi : checkPredicate d.variables .init d.init with
    | error e => simp [hv, hi, bind, Except.bind] at h
    | ok u =>
      cases ht : checkPredicate d.variables .trans d.trans with
      | error e => simp [hv, hi, ht, bind, Except.bind] at h
      | ok u =>
        simp only [hv, hi, ht, bind, Except.bind] at h
        exact ⟨rfl, rfl, rfl, h⟩

theorem checkVariables_of_nodup {vs : List Variable} {taken : List String}
    (hroles : ∀ v ∈ vs, v.role = .state) (hnames : (vs.map Variable.name).Nodup)
    (hfresh : ∀ v ∈ vs, v.name ∉ taken) : checkVariables taken vs = .ok () := by
  induction vs generalizing taken with
  | nil => rfl
  | cons v vs ih =>
    obtain ⟨hname, hnodup⟩ := List.nodup_cons.mp hnames
    have hrole := hroles v (by simp)
    have hv := hfresh v (by simp)
    rw [checkVariables, if_neg (by simpa using hrole), if_neg hv]
    refine ih (fun w hw => hroles w (List.mem_cons_of_mem v hw)) hnodup fun w hw => ?_
    rw [List.mem_cons, not_or]
    refine ⟨fun he => hname ?_, hfresh w (List.mem_cons_of_mem v hw)⟩
    exact he ▸ List.mem_map_of_mem hw

theorem checkRefs_of_mem {vs : List Variable} {place : Place} {rs : List Ref}
    (h : ∀ r ∈ rs, r.var ∈ vs ∧ r.step ∈ place.steps) : checkRefs vs place rs = .ok () := by
  induction rs with
  | nil => rfl
  | cons r rs ih =>
    obtain ⟨hvar, hstep⟩ := h r (by simp)
    have hfirst : checkRef vs place r = .ok () := by
      rw [checkRef, if_neg (by simpa using hvar), if_neg (by simpa using hstep)]
    rw [checkRefs, hfirst]
    exact ih fun r hr => h r (List.mem_cons_of_mem _ hr)

theorem checkPredicate_of_bool {vs : List Variable} {place : Place} {t : Term} (hty : t.ty = .bool)
    (hrefs : ∀ r ∈ t.refs, r.var ∈ vs ∧ r.step ∈ place.steps) :
    checkPredicate vs place t = .ok () := by
  rw [checkPredicate, if_neg (by simpa using hty)]
  exact checkRefs_of_mem fun r hr => hrefs r (List.mem_eraseDups.mp hr)

theorem checkProperties_of_forall {vs : List Variable} {props : Entries String Term}
    (h : ∀ entry ∈ props, checkPredicate vs (.property entry.1) entry.2 = .ok ()) :
    checkProperties vs props = .ok () := by
  induction props with
  | nil => rfl
  | cons entry props ih =>
    rw [checkProperties, h entry (by simp)]
    exact ih fun entry hentry => h entry (List.mem_cons_of_mem _ hentry)

end SystemData

namespace TransitionSystem

theorem ofData_of_check {d : SystemData} (h : d.check = .ok ()) : ofData d = .ok ⟨d, h⟩ := by
  unfold ofData
  split
  · rfl
  · next e he =>
    rw [h] at he
    cases he

theorem data_of_ofData {d : SystemData} {s : TransitionSystem} (h : ofData d = .ok s) :
    s.toSystemData = d := by
  unfold ofData at h
  split at h
  · rw [← Except.ok.inj h]
  · cases h

theorem nodup_names (s : TransitionSystem) : (s.variables.map Variable.name).Nodup :=
  (SystemData.checkVariables_eq_ok (SystemData.check_eq_ok s.valid).1).1

theorem nodup_variables (s : TransitionSystem) : s.variables.Nodup :=
  List.Pairwise.of_map Variable.name (fun _ _ hne he => hne (congrArg Variable.name he)) s.nodup_names

theorem ty_init (s : TransitionSystem) : s.init.ty = .bool :=
  (SystemData.checkPredicate_eq_ok (SystemData.check_eq_ok s.valid).2.1).1

theorem refs_init (s : TransitionSystem) : ∀ r ∈ s.init.refs, r.var ∈ s.variables ∧ r.step = 0 := by
  simpa [Place.steps] using
    (SystemData.checkPredicate_eq_ok (SystemData.check_eq_ok s.valid).2.1).2

theorem ty_trans (s : TransitionSystem) : s.trans.ty = .bool :=
  (SystemData.checkPredicate_eq_ok (SystemData.check_eq_ok s.valid).2.2.1).1

theorem refs_trans (s : TransitionSystem) :
    ∀ r ∈ s.trans.refs, r.var ∈ s.variables ∧ (r.step = 0 ∨ r.step = 1) := by
  simpa [Place.steps] using
    (SystemData.checkPredicate_eq_ok (SystemData.check_eq_ok s.valid).2.2.1).2

theorem refs_of_mem_properties {s : TransitionSystem} {entry : String × Term}
    (h : entry ∈ s.properties) : ∀ r ∈ entry.2.refs, r.var ∈ s.variables ∧ r.step = 0 := by
  have hentries := SystemData.checkProperties_eq_ok (SystemData.check_eq_ok s.valid).2.2.2
  simpa [Place.steps] using (SystemData.checkPredicate_eq_ok (hentries entry h)).2

section

variable {s : TransitionSystem} {name : String} {p : Term} (h : s.property name = .ok p)
include h

theorem checkPredicate_property : SystemData.checkPredicate s.variables (.property name) p = .ok () := by
  unfold property at h
  split at h
  · next he =>
    obtain rfl := Except.ok.inj h
    have hentries := SystemData.checkProperties_eq_ok (SystemData.check_eq_ok s.valid).2.2.2
    exact hentries _ (Entries.mem_of_get? he)
  · cases h

theorem ty_property : p.ty = .bool := (SystemData.checkPredicate_eq_ok (checkPredicate_property h)).1

theorem refs_property : ∀ r ∈ p.refs, r.var ∈ s.variables ∧ r.step = 0 := by
  simpa [Place.steps] using (SystemData.checkPredicate_eq_ok (checkPredicate_property h)).2

end

end TransitionSystem

end InvariantProver
