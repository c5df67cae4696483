import InvariantProver.Proofs.Session.Ledgers

namespace InvariantProver

/-- Scopes and their assertions, the innermost first: no step variable is declared twice, steps are not
negative, and an assertion is a truth value about what its own scope and the outer ones declare. -/
inductive WellScoped : List (List Ref) → List (List Term) → Prop
  | nil : WellScoped [] []
  | cons {scope : List Ref} {outer : List (List Ref)} {frame : List Term} {frames : List (List Term)} :
    WellScoped outer frames → scope.Nodup →
    (∀ r ∈ scope, 0 ≤ r.step ∧ ∀ scope' ∈ outer, r ∉ scope') →
    (∀ t ∈ frame, t.ty = .bool ∧ ∀ r ∈ t.refs, ∃ scope' ∈ scope :: outer, r ∈ scope') →
    WellScoped (scope :: outer) (frame :: frames)

namespace WellScoped

variable {scopes : List (List Ref)} {frames : List (List Term)}

theorem length (h : WellScoped scopes frames) : frames.length = scopes.length := by
  induction h with
  | nil => rfl
  | cons _ _ _ _ ih => rw [List.length_cons, List.length_cons, ih]

theorem frames_ne_nil (h : WellScoped scopes frames) (hscopes : scopes ≠ []) : frames ≠ [] := by
  rintro rfl
  cases h
  exact hscopes rfl

theorem nodup (h : WellScoped scopes frames) : scopes.flatten.Nodup := by
  induction h with
  | nil => exact .nil
  | cons _ hscope hfresh _ ih =>
    rw [List.flatten_cons, List.nodup_append]
    refine ⟨hscope, ih, ?_⟩
    rintro r hr _ hr' rfl
    obtain ⟨scope', hscope', hmem⟩ := List.mem_flatten.mp hr'
    exact (hfresh r hr).2 scope' hscope' hmem

theorem step_nonneg (h : WellScoped scopes frames) : ∀ scope ∈ scopes, ∀ r ∈ scope, 0 ≤ r.step := by
  induction h with
  | nil => simp
  | cons _ _ hfresh _ ih => exact List.forall_mem_cons.mpr ⟨fun r hr => (hfresh r hr).1, ih⟩

theorem declared (h : WellScoped scopes frames) {i : Nat} {frame : List Term}
    (hframe : frames[i]? = some frame) :
    ∀ t ∈ frame, t.ty = .bool ∧ ∀ r ∈ t.refs, ∃ scope ∈ scopes.drop i, r ∈ scope := by
  induction h generalizing i with
  | nil => simp at hframe
  | cons _ _ _ hsound ih =>
    cases i with
    | zero =>
      obtain rfl := Option.some.inj hframe
      exact hsound
    | succ i => exact ih hframe

theorem declare (h : WellScoped scopes frames) (hscopes : scopes ≠ []) {v : Variable} {step : Int}
    (hstep : 0 ≤ step) (hnew : ∀ scope ∈ scopes, (⟨v, step⟩ : Ref) ∉ scope) :
    WellScoped ((Act.declare v step).scopes scopes) frames := by
  cases h with
  | nil => exact absurd rfl hscopes
  | @cons scope outer frame frames houter hscope hfresh hsound =>
    obtain ⟨hinner, hrest⟩ := List.forall_mem_cons.mp hnew
    refine .cons houter (List.nodup_cons.mpr ⟨hinner, hscope⟩) ?_ ?_
    · exact List.forall_mem_cons.mpr ⟨⟨hstep, hrest⟩, hfresh⟩
    · intro t ht
      obtain ⟨hty, hrefs⟩ := hsound t ht
      refine ⟨hty, fun r hr => ?_⟩
      -- what was declared in the innermost scope still is
      obtain ⟨scope', hscope', hmem⟩ := hrefs r hr
      rcases List.mem_cons.mp hscope' with rfl | hscope'
      · exact ⟨_, List.mem_cons_self, List.mem_cons_of_mem _ hmem⟩
      · exact ⟨scope', List.mem_cons_of_mem _ hscope', hmem⟩

theorem assert (h : WellScoped scopes frames) {t : Term} (hty : t.ty = .bool)
    (hrefs : ∀ r ∈ t.refs, ∃ scope ∈ scopes, r ∈ scope) :
    WellScoped scopes ((Act.assert t).frames frames) := by
  cases h with
  | nil => exact .nil
  | cons houter hscope hfresh hsound =>
    refine .cons houter hscope hfresh fun u hu => ?_
    rcases List.mem_append.mp hu with hu | hu
    · exact hsound u hu
    · obtain rfl := List.mem_singleton.mp hu
      exact ⟨hty, hrefs⟩

theorem push (h : WellScoped scopes frames) : WellScoped ([] :: scopes) ([] :: frames) :=
  .cons h .nil (by simp) (by simp)

theorem pop (h : WellScoped scopes frames) : WellScoped scopes.tail frames.tail := by
  cases h with
  | nil => exact .nil
  | cons houter => exact houter

theorem entry {σ : Type} {s : Session σ} {act : Act} (h : WellScoped s.scopes frames)
    (hscopes : s.scopes ≠ []) (haccepts : s.Accepts act) (hentry : act.isEntry = true) :
    WellScoped (act.scopes s.scopes) (act.frames frames) := by
  cases act with
  | declare v step =>
    obtain ⟨-, hstep, hnew⟩ := haccepts
    refine h.declare hscopes hstep fun scope hscope hr => ?_
    rw [(s.isDeclared_iff ⟨v, step⟩).mpr ⟨scope, hscope, hr⟩] at hnew
    cases hnew
  | assert t =>
    obtain ⟨-, hty, hrefs⟩ := haccepts
    exact h.assert hty fun r hr => (s.isDeclared_iff r).mp (hrefs r hr)
  | push => exact h.push
  | pop => exact h.pop
  | _ => cases hentry

end WellScoped

namespace Act

def scopesOf (acts : List Act) : List (List Ref) := acts.foldl (fun scopes act => act.scopes scopes) [[]]

theorem scopesOf_concat (acts : List Act) (act : Act) :
    scopesOf (acts ++ [act]) = act.scopes (scopesOf acts) := by
  rw [scopesOf, List.foldl_append]
  rfl

end Act

namespace Session

variable {σ : Type} [Backend σ]

def entered (s : Session σ) : List Act → List Act
  | [] => []
  | act :: acts =>
    if act.isEntry = true ∧ s.Accepts act then act :: entered (outcome (perform act) s).2 acts
    else entered (outcome (perform act) s).2 acts

def Unfailing (s : Session σ) : List Act → Prop
  | [] => True
  | act :: acts => s.Enters act ∧ Unfailing (outcome (perform act) s).2 acts

/-- What holds of a session is kept by what is entered and by all else, so it holds after a conversation of
what has been entered in it. -/
theorem entered_induct {P : List Act → Session σ → Prop} {s : Session σ} {acts before : List Act}
    (hclose : .close ∉ acts) (hunfailing : s.Unfailing acts)
    (entry : ∀ {before s act}, P before s → act.isEntry = true → s.Accepts act → s.Enters act →
      P (before ++ [act]) (outcome (perform act) s).2)
    (other : ∀ {before s act}, P before s → act ≠ .close → ¬ (act.isEntry = true ∧ s.Accepts act) →
      P before (outcome (perform act) s).2)
    (h : P before s) : P (before ++ s.entered acts) (s.converse acts) := by
  induction acts generalizing s before with
  | nil => rwa [entered, List.append_nil]
  | cons act acts ih =>
    rw [List.mem_cons, not_or] at hclose
    obtain ⟨hact, hacts⟩ := hclose
    obtain ⟨henters, hrest⟩ := hunfailing
    rw [entered]
    split
    · next hentry =>
      rw [List.append_cons]
      exact ih hacts hrest (entry h hentry.1 hentry.2 henters)
    · next hother => exact ih hacts hrest (other h (Ne.symm hact) hother)

theorem link_converse {P : Link σ → Prop} (hp : Backend.Preserves P) {s : Session σ} (h : P s.link)
    (acts : List Act) : P (s.converse acts).link := by
  induction acts generalizing s with
  | nil => exact h
  | cons act acts ih => exact ih (keeps_perform hp act h rfl trivial)

theorem unfailing_of_preserves {P : Link σ → Prop} (hp : Backend.Preserves P)
    (hhook : ∀ {act : Act} {link : Link σ}, act.isEntry = true → P link →
      (outcome act.hook link).1 = .ok ())
    {s : Session σ} (h : P s.link) (acts : List Act) : s.Unfailing acts := by
  induction acts generalizing s with
  | nil => trivial
  | cons act acts ih =>
    refine ⟨fun hentry haccepts => ?_, ih (keeps_perform hp act h rfl trivial)⟩
    rw [outcome_entry hentry haccepts, hhook hentry h]
    rfl

theorem unfailing_memory (s : Session Memory) (acts : List Act) : s.Unfailing acts := by
  refine unfailing_of_preserves (Backend.preserves_const True) (fun {act _} hentry _ => ?_) trivial acts
  cases act with
  | declare | assert | push | pop => rfl
  | _ => cases hentry

theorem unfailing_pipe {s : Session Pipe} (h : Pipe.Receptive s.link) (acts : List Act) :
    s.Unfailing acts := by
  refine unfailing_of_preserves Pipe.receptive_stays (fun {act link} hentry hlink => ?_) h acts
  have hsend (c : Command) : (outcome (Pipe.send c) link).1 = .ok () := by
    obtain ⟨peer, hwrite, -⟩ := hlink.write c
    rw [Pipe.outcome_send hwrite]
  cases act with
  | declare | assert | push | pop => exact hsend _
  | _ => cases hentry

structure Booked (before : List Act) (s : Session σ) : Prop where
  scopes : s.scopes = Act.scopesOf before
  nonempty : s.scopes ≠ []
  wellScoped : WellScoped s.scopes (Act.framesOf before)

omit [Backend σ] in
theorem booked_new {s : Session σ} (h : s.scopes = [[]]) : s.Booked [] where
  scopes := h
  nonempty := by simp [h]
  wellScoped := h ▸ WellScoped.nil.push

theorem Booked.entry {before : List Act} {s : Session σ} {act : Act} (h : s.Booked before)
    (hentry : act.isEntry = true) (haccepts : s.Accepts act) :
    (outcome (perform act) s).2.Booked (before ++ [act]) := by
  have hscopes := scopes_entry hentry haccepts
  refine ⟨?_, ?_, ?_⟩
  · rw [hscopes, h.scopes, Act.scopesOf_concat]
  · rw [hscopes]
    exact List.ne_nil_of_length_pos
      (scopes_pos_of_accepts haccepts (List.length_pos_iff.mpr h.nonempty))
  · rw [hscopes, Act.framesOf_concat]
    exact h.wellScoped.entry h.nonempty haccepts hentry

theorem Booked.other {before : List Act} {s : Session σ} {act : Act} (h : s.Booked before)
    (hother : ¬ (act.isEntry = true ∧ s.Accepts act)) : (outcome (perform act) s).2.Booked before := by
  have hscopes := scopes_other hother
  exact ⟨hscopes.trans h.scopes, hscopes ▸ h.nonempty, hscopes ▸ h.wellScoped⟩

section

variable {s₀ : Session σ} {acts : List Act} (hclose : .close ∉ acts) (hunfailing : s₀.Unfailing acts)
  (hscopes : s₀.scopes = [[]])
include hclose hunfailing hscopes

theorem booked_converse : (s₀.converse acts).Booked (s₀.entered acts) :=
  entered_induct (P := fun before s => s.Booked before) hclose hunfailing
    (fun h hentry haccepts _ => h.entry hentry haccepts) (fun h _ hother => h.other hother)
    (booked_new hscopes)

theorem shows_converse (L : Ledger σ) (hframes : L.frames s₀.link.backend = [[]]) :
    L.Shows (Act.framesOf (s₀.entered acts)) (s₀.converse acts).link := by
  have hinvariant := entered_induct
    (P := fun before s => s.Booked before ∧ L.Shows (Act.framesOf before) s.link) hclose hunfailing
    (fun {before s act} h hentry haccepts henters => by
      refine ⟨h.1.entry hentry haccepts, ?_⟩
      rw [Act.framesOf_concat]
      exact h.2.entry hentry haccepts (fun _ _ => h.1.wellScoped.frames_ne_nil h.1.nonempty) henters)
    (fun h hact hother => ⟨h.1.other hother, h.2.other hact hother⟩)
    ⟨booked_new hscopes, .inl hframes⟩
  exact hinvariant.2

end

theorem entered_erase (s : Session (Recorded σ)) (acts : List Act) :
    s.erase.entered acts = s.entered acts := by
  induction acts generalizing s with
  | nil => rfl
  | cons act acts ih =>
    have hfirst : (outcome (perform act) s.erase).2 = (outcome (perform act) s).2.erase := by
      rw [erase_perform]
    rw [entered, entered, hfirst, ih]
    simp only [accepts_erase]

theorem entries_converse (s : Session (Recorded σ)) (acts : List Act) :
    (s.converse acts).calls.filter Act.isEntry = s.calls.filter Act.isEntry ++ s.entered acts := by
  induction acts generalizing s with
  | nil => simp [entered, converse]
  | cons act acts ih =>
    change (converse (outcome (perform act) s).2 acts).calls.filter Act.isEntry = _
    rw [ih, calls_perform, entered, List.filter_append, List.append_assoc]
    congr 1
    by_cases hentry : act.isEntry = true
    · simp only [reaches_entry hentry, hentry, true_and]
      split <;> simp [hentry]
    · simp only [hentry]
      split <;> simp [hentry]

/-- A session is well scoped after any conversation in which its back end does not fail. No step variable is
declared twice, assertions are truth values about declared step variables, those of a scope about what that
scope and the outer ones declare, and what reaches the back end is what has been accepted, so that it has the
same assertions. -/
theorem well_scoped {s₀ : Session σ} {acts : List Act} (hclose : .close ∉ acts)
    (hunfailing : s₀.Unfailing acts) (hscopes : s₀.scopes = [[]]) :
    let s := s₀.converse acts
    let frames := Act.framesOf (s₀.entered acts)
    s.scopes = Act.scopesOf (s₀.entered acts) ∧ frames.length = s.scopes.length ∧
      s.scopes.flatten.Nodup ∧ (∀ r ∈ s.scopes.flatten, 0 ≤ r.step) ∧
      (∀ t ∈ active frames, t.ty = .bool ∧ ∀ r ∈ t.refs, s.isDeclared r = true) ∧
      (∀ i frame, frames[i]? = some frame → ∀ t ∈ frame, ∀ r ∈ t.refs,
        ∃ scope ∈ s.scopes.drop i, r ∈ scope) ∧
      (s₀.recorded.converse acts).erase = s ∧
      (s₀.recorded.converse acts).calls.filter Act.isEntry = s₀.entered acts ∧
      ∀ L : Ledger σ, L.frames s₀.link.backend = [[]] →
        L.frames s.link.backend = frames ∨ L.deaf s.link := by
  have hbooked := booked_converse hclose hunfailing hscopes
  refine ⟨hbooked.scopes, hbooked.wellScoped.length, hbooked.wellScoped.nodup, fun r hr => ?_, fun t ht => ?_,
    fun i frame hframe t ht => (hbooked.wellScoped.declared hframe t ht).2, ?_, ?_,
    fun L hframes => shows_converse hclose hunfailing hscopes L hframes⟩
  · obtain ⟨scope, hscope, hr⟩ := List.mem_flatten.mp hr
    exact hbooked.wellScoped.step_nonneg scope hscope r hr
  · obtain ⟨frame, hframe, ht⟩ := List.mem_flatten.mp ht
    obtain ⟨i, hi⟩ := List.getElem?_of_mem (List.mem_reverse.mp hframe)
    obtain ⟨hty, hrefs⟩ := hbooked.wellScoped.declared hi t ht
    refine ⟨hty, fun r hr => ?_⟩
    obtain ⟨scope, hscope, hmem⟩ := hrefs r hr
    exact (isDeclared_iff _ r).mpr ⟨scope, List.mem_of_mem_drop hscope, hmem⟩
  · rw [erase_converse, erase_recorded]
  · rw [entries_converse, calls_recorded, ← entered_erase, erase_recorded]
    rfl

def rough : List Act :=
  [.declare ⟨"x", .bool, .state⟩ 0, .declare ⟨"x", .bool, .state⟩ 0, .declare ⟨"x", .bool, .state⟩ (-1),
    .push, .declare ⟨"y", .bool, .state⟩ 1, .assert (.ref ⟨⟨"y", .bool, .state⟩, 1⟩),
    .assert (.ref ⟨⟨"y", .bool, .state⟩, 2⟩), .check, .pop, .assert (.ref ⟨⟨"y", .bool, .state⟩, 1⟩), .pop,
    .interrupt, .declare ⟨"y", .bool, .state⟩ 1, .assert (.ref ⟨⟨"y", .bool, .state⟩, 1⟩), .check]

theorem well_scoped_rough :
    ((Memory.session "memory" Oracle.silent).converse rough).scopes =
        [[⟨⟨"y", .bool, .state⟩, 1⟩, ⟨⟨"x", .bool, .state⟩, 0⟩]] ∧
      ((Memory.session "memory" Oracle.silent).converse rough).link.backend.frames =
        [[.ref ⟨⟨"y", .bool, .state⟩, 1⟩]] ∧
      ((Memory.session "memory" Oracle.silent).recorded.converse rough).calls.filter Act.isEntry =
        [.declare ⟨"x", .bool, .state⟩ 0, .push, .declare ⟨"y", .bool, .state⟩ 1,
          .assert (.ref ⟨⟨"y", .bool, .state⟩, 1⟩), .pop, .declare ⟨"y", .bool, .state⟩ 1,
          .assert (.ref ⟨⟨"y", .bool, .state⟩, 1⟩)] := by
  obtain ⟨hscopes, -, -, -, -, -, -, hcalls, hledger⟩ :=
    well_scoped (by decide) (unfailing_memory (Memory.session "memory" Oracle.silent) rough) rfl
  have hentered : (Memory.session "memory" Oracle.silent).entered rough =
      [.declare ⟨"x", .bool, .state⟩ 0, .push, .declare ⟨"y", .bool, .state⟩ 1,
        .assert (.ref ⟨⟨"y", .bool, .state⟩, 1⟩), .pop, .declare ⟨"y", .bool, .state⟩ 1,
        .assert (.ref ⟨⟨"y", .bool, .state⟩, 1⟩)] := by decide +kernel
  refine ⟨?_, ?_, hcalls.trans hentered⟩
  · rw [hscopes, hentered]
    rfl
  · obtain hframes | hdeaf := hledger Memory.ledger rfl
    · rw [← Memory.frames_ledger, hframes, hentered]
      rfl
    · exact hdeaf.elim

end Session

end InvariantProver
