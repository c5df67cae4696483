import InvariantProver.Proofs.TransitionSystem.Declarations
import InvariantProver.Proofs.TransitionSystem.Usage

namespace InvariantProver

/-! ### Declared names -/

mutual

theorem declared_expr (names : Names) (r : Survey) (e : Expr) :
    (e.survey names r).declared = r.declared := by
  match e with
  | .literal value span => rw [Expr.survey]
  | .name ident next span =>
    rw [Expr.survey]
    rfl
  | .apply symbol args span =>
    rw [Expr.survey]
    exact declared_exprs names r args
  | .letIn bindings body span =>
    rw [Expr.survey]
    exact (declared_expr _ _ body).trans (declared_binders names r bindings)

theorem declared_exprs (names : Names) (r : Survey) (es : List Expr) :
    (Expr.surveyAll names r es).declared = r.declared := by
  match es with
  | [] => rw [Expr.surveyAll]
  | e :: es =>
    rw [Expr.surveyAll]
    exact (declared_exprs names _ es).trans (declared_expr names r e)

theorem declared_binder (names : Names) (r : Survey) (b : Binder) :
    (b.survey names r).2.declared = r.declared := by
  match b with
  | .mk name value span =>
    rw [Binder.survey]
    exact declared_expr names r value

theorem declared_binders (names : Names) (r : Survey) (bs : List Binder) :
    (Binder.surveyAll names r bs).2.declared = r.declared := by
  match bs with
  | [] => rw [Binder.surveyAll]
  | b :: bs =>
    rw [Binder.surveyAll]
    exact (declared_binders _ _ bs).trans (declared_binder names r b)

end

theorem declared_states (names : List String) (span : Span) (r : Survey) :
    (names.foldl (·.state · span) r).declared.map Prod.fst = r.declared.map Prod.fst ++ names := by
  induction names generalizing r with
  | nil => simp
  | cons name names ih =>
    have hfirst : (r.state name span).declared = r.declared ++ [(name, span)] := rfl
    rw [List.foldl_cons, ih, hfirst]
    simp

mutual

theorem declared_item (names : Names) (r : Survey) (i : Item) :
    (i.survey names r).2.declared.map Prod.fst =
      r.declared.map Prod.fst ++ i.declarations.map Declaration.name := by
  match i with
  | .vars declared typeName span =>
    rw [Item.survey, Item.declarations, declared_states, List.map_map]
    exact congrArg _ (List.map_id declared).symm
  | .binding b => simp [Item.survey, Item.declarations, declared_binder]
  | .init es => simp [Item.survey, Item.declarations, declared_exprs]
  | .trans es => simp [Item.survey, Item.declarations, declared_exprs]
  | .property name e span => simp [Item.survey, Item.declarations, declared_expr]
  | .block items =>
    rw [Item.survey, Item.declarations]
    exact declared_items names r items

theorem declared_items (names : Names) (r : Survey) (is : List Item) :
    (Item.surveyAll names r is).2.declared.map Prod.fst =
      r.declared.map Prod.fst ++ (Item.declarationsAll is).map Declaration.name := by
  match is with
  | [] => simp [Item.surveyAll, Item.declarationsAll]
  | i :: is =>
    rw [Item.surveyAll, Item.declarationsAll, List.map_append, ← List.append_assoc,
      ← declared_item names r i]
    exact declared_items _ _ is

end

/-! ### Steps of a build -/

variable {α β : Type}

def Leaves (m : BuildM α) (d : Draft) (done : α → Draft → Prop) : Prop :=
  ∀ a d', m.run d = .ok (a, d') → done a d'

namespace Leaves

variable {m : BuildM α} {f : α → BuildM β} {d : Draft} {done : α → Draft → Prop}
  {done' : β → Draft → Prop}

theorem pure {a : α} (h : done a d) : Leaves (Pure.pure a) d done := by
  intro b d' hrun
  obtain ⟨rfl, rfl⟩ := Prod.mk.inj (Except.ok.inj hrun)
  exact h

theorem modify {f : Draft → Draft} {done : PUnit → Draft → Prop} (h : done .unit (f d)) :
    Leaves (modify f : BuildM PUnit) d done := by
  intro a d' hrun
  obtain ⟨-, rfl⟩ := Prod.mk.inj (Except.ok.inj hrun)
  exact h

theorem fail {fault : BuildFault} {span : Span} : Leaves (Build.fail fault span : BuildM α) d done :=
  fun _ _ hrun => nomatch hrun

theorem fail_bind {fault : BuildFault} {span : Span} :
    Leaves (Build.fail fault span >>= f) d done' :=
  fun _ _ hrun => nomatch hrun

theorem checked {ε : Type} {fault : ε → BuildFault} {span : Span} {x : Except ε α}
    (h : ∀ a, x = .ok a → done a d) : Leaves (Build.checked fault span x) d done := by
  cases x with
  | ok a => exact .pure (h a rfl)
  | error e => exact .fail

theorem get {f : Draft → BuildM β} (h : Leaves (f d) d done') : Leaves (MonadState.get >>= f) d done' :=
  h

theorem bind (hm : Leaves m d done) (hf : ∀ a d', done a d' → Leaves (f a) d' done') :
    Leaves (m >>= f) d done' := by
  intro b d' hrun
  obtain ⟨⟨a, d₁⟩, hfirst, hrest⟩ := except_bind_eq_ok.mp hrun
  exact hf a d₁ (hm a d₁ hfirst) b d' hrest

theorem mono {done'' : α → Draft → Prop} (hm : Leaves m d done) (h : ∀ a d', done a d' → done'' a d') :
    Leaves m d done'' :=
  fun a d' hrun => h a d' (hm a d' hrun)

end Leaves

namespace Build

variable {d : Draft} {frames outer : List Names} {frame : Names} {r : Survey}

theorem leaves_checkUndeclared (name : String) (span : Span) (d : Draft) :
    Leaves (checkUndeclared name span) d fun _ d' => d' = d :=
  .get (.checked fun _ _ => rfl)

theorem leaves_closed (t : Term) (d : Draft) : Leaves (closed t) d fun _ d' => d' = d :=
  .get (.pure rfl)

theorem leaves_declare (b : Binding) (span : Span) (d : Draft) :
    Leaves (declare b span) d fun _ d' => b.name ∉ d.scopes.taken ∧
      d' = { d with scopes := { d.scopes with current := d.scopes.current ++ [b] } } := by
  by_cases htaken : b.name ∈ d.scopes.taken
  · obtain ⟨e, he⟩ := ScopeStack.checkUndeclared_of_taken htaken
    have hdeclare : d.scopes.declare b = .error e := by
      rw [ScopeStack.declare, he]
      rfl
    refine .get ?_
    rw [hdeclare]
    exact .fail_bind
  · refine .get ?_
    rw [declare_of_not_taken htaken]
    exact .modify ⟨htaken, rfl⟩

theorem leaves_enter (h : d.Surveyed frames r) : Leaves enter d fun _ d' => d'.Surveyed ([] :: frames) r := by
  obtain ⟨closed, h⟩ := h
  exact .modify ⟨closed, h.push⟩

theorem leaves_reportUnused (d : Draft) :
    Leaves reportUnused d fun _ d' =>
      d' = { d with diagnostics := d.diagnostics ++ unusedLets d.scopes.current } :=
  .modify rfl

theorem leaves_leave {inner : Names} (h : d.Surveyed (inner :: frame :: outer) r) :
    Leaves leave d fun _ d' => d'.Surveyed (frame :: outer) r := by
  obtain ⟨closed, h⟩ := h
  refine (leaves_reportUnused d).bind ?_
  rintro _ _ rfl
  exact .modify ⟨_, h.leave⟩

theorem leaves_resolve (h : d.Surveyed frames r) (ident : String) (next : Bool) (span : Span) :
    Leaves (resolve ident next span) d fun _ d' =>
      d'.Surveyed frames (r.use (frames.flatten.lookup ident).join) := by
  obtain ⟨closed, h⟩ := h
  refine .get ?_
  cases hfind : d.scopes.find? ident with
  | none => exact .fail
  | some b =>
    dsimp only
    split
    · exact .fail
    · obtain ⟨l?, hl⟩ := h.scopes.lookup_of_find? hfind
      rw [hl]
      exact .bind (.modify ⟨closed, h.use hl⟩) fun _ _ hd => .pure hd

mutual

theorem leaves_expr (e : Expr) {d : Draft} {frames : List Names} {r : Survey}
    (h : d.Surveyed frames r) : Leaves (expr e) d fun _ d' => d'.Surveyed frames (e.survey frames.flatten r) := by
  match e with
  | .literal value span =>
    rw [Expr.survey, expr]
    exact .checked fun _ _ => h
  | .name ident next span =>
    rw [Expr.survey, expr]
    exact leaves_resolve h ident next span
  | .apply symbol args span =>
    rw [Expr.survey, expr]
    split
    · exact .fail
    · exact (leaves_exprs args h).bind fun _ _ h => .checked fun _ _ => h
  | .letIn bindings body span =>
    rw [Expr.survey, expr]
    obtain _ | ⟨frame, outer⟩ := frames
    · obtain ⟨closed, h⟩ := h
      cases h.scopes
    refine (leaves_enter h).bind fun _ _ h => ?_
    refine (leaves_binders bindings h).bind fun _ _ ⟨inner, hinner, h⟩ => ?_
    refine (leaves_expr body h).bind fun t d h => ?_
    refine (leaves_closed t d).bind ?_
    rintro u _ rfl
    rw [List.flatten_cons, hinner] at h
    exact (leaves_leave h).bind fun _ _ h => .pure h

theorem leaves_exprs (es : List Expr) {d : Draft} {frames : List Names} {r : Survey}
    (h : d.Surveyed frames r) :
    Leaves (exprs es) d fun _ d' => d'.Surveyed frames (Expr.surveyAll frames.flatten r es) := by
  match es with
  | [] =>
    rw [Expr.surveyAll, exprs]
    exact .pure h
  | e :: es =>
    rw [Expr.surveyAll, exprs]
    exact (leaves_expr e h).bind fun _ _ h => (leaves_exprs es h).bind fun _ _ h => .pure h

theorem leaves_binder (b : Binder) {d : Draft} {frame : Names} {outer : List Names} {r : Survey}
    (h : d.Surveyed (frame :: outer) r) :
    Leaves (binder b) d fun _ d' => ∃ frame',
      frame' ++ outer.flatten = (b.survey (frame ++ outer.flatten) r).1 ∧
        d'.Surveyed (frame' :: outer) (b.survey (frame ++ outer.flatten) r).2 := by
  match b with
  | .mk name value span =>
    rw [Binder.survey, binder]
    refine (leaves_checkUndeclared name span d).bind ?_
    rintro _ _ rfl
    refine (leaves_expr value h).bind fun t d ⟨closed, h⟩ => ?_
    refine (leaves_closed t d).bind ?_
    rintro u _ rfl
    refine (leaves_declare _ span _).mono ?_
    rintro _ _ ⟨hfree, rfl⟩
    rw [h.taken_eq] at hfree
    exact ⟨_, rfl, closed, h.complete hfree rfl rfl rfl rfl⟩

theorem leaves_binders (bs : List Binder) {d : Draft} {frame : Names} {outer : List Names} {r : Survey}
    (h : d.Surveyed (frame :: outer) r) :
    Leaves (binders bs) d fun _ d' => ∃ frame',
      frame' ++ outer.flatten = (Binder.surveyAll (frame ++ outer.flatten) r bs).1 ∧
        d'.Surveyed (frame' :: outer) (Binder.surveyAll (frame ++ outer.flatten) r bs).2 := by
  match bs with
  | [] =>
    rw [Binder.surveyAll, binders]
    exact .pure ⟨frame, rfl, h⟩
  | b :: bs =>
    rw [Binder.surveyAll, binders]
    refine (leaves_binder b h).bind fun _ _ ⟨frame', hnames, h⟩ => ?_
    have hrest := leaves_binders bs h
    rwa [hnames] at hrest

end

theorem leaves_formula (h : d.Surveyed frames r) (place : Place) (e : Expr) :
    Leaves (formula place e) d fun _ d' => d'.Surveyed frames (e.survey frames.flatten r) := by
  refine (leaves_expr e h).bind fun t d h => (leaves_closed t d).bind ?_
  rintro u _ rfl
  split
  · exact .fail
  · exact .pure h

theorem leaves_stateFormula (h : d.Surveyed frames r) (place : Place) (e : Expr) :
    Leaves (stateFormula place e) d fun _ d' => d'.Surveyed frames (e.survey frames.flatten r) := by
  refine (leaves_formula h place e).bind fun _ _ h => ?_
  split
  · exact .fail
  · exact .pure h

theorem leaves_modify {f : Draft → Draft} (h : d.Surveyed frames r) (hscopes : (f d).scopes = d.scopes)
    (hvariables : (f d).variables = d.variables) (hdiagnostics : (f d).diagnostics = d.diagnostics) :
    Leaves (modify f : BuildM PUnit) d fun _ d' => d'.Surveyed frames r := by
  obtain ⟨closed, h⟩ := h
  refine .modify ⟨closed, { h with scopes := ?_, declared := ?_, diagnostics := ?_ }⟩
  · exact hscopes ▸ h.scopes
  · exact hvariables ▸ h.declared
  · exact hdiagnostics ▸ hvariables ▸ h.diagnostics

theorem leaves_initial (h : d.Surveyed frames r) (e : Expr) :
    Leaves (initial e) d fun _ d' => d'.Surveyed frames (e.survey frames.flatten r) :=
  (leaves_stateFormula h .init e).bind fun _ _ h => leaves_modify h rfl rfl rfl

theorem leaves_transition (h : d.Surveyed frames r) (e : Expr) :
    Leaves (transition e) d fun _ d' => d'.Surveyed frames (e.survey frames.flatten r) :=
  (leaves_formula h .trans e).bind fun _ _ h => leaves_modify h rfl rfl rfl

theorem leaves_property (h : d.Surveyed frames r) (name : String) (e : Expr) (span : Span) :
    Leaves (property name e span) d fun _ d' => d'.Surveyed frames (e.survey frames.flatten r) := by
  refine .get ?_
  extract_lets next
  split
  · exact .fail_bind
  · exact (leaves_stateFormula h _ e).bind fun _ _ h => leaves_modify h rfl rfl rfl

theorem leaves_forM {f : Expr → BuildM PUnit}
    (hf : ∀ {d r}, d.Surveyed frames r → ∀ e, Leaves (f e) d fun _ d' =>
      d'.Surveyed frames (e.survey frames.flatten r)) (es : List Expr) (h : d.Surveyed frames r) :
    Leaves (es.forM f) d fun _ d' => d'.Surveyed frames (Expr.surveyAll frames.flatten r es) := by
  induction es generalizing d r with
  | nil =>
    rw [Expr.surveyAll]
    exact .pure h
  | cons e es ih =>
    rw [Expr.surveyAll]
    exact (hf h e).bind fun _ _ h => ih h

/-! ### State variables and items -/

theorem leaves_stateName (name : String) (span : Span) (ty : Ty) (d : Draft) :
    Leaves (stateName name span) d fun n d' => IsVariableOf (name, span) ⟨n, ty, .state⟩ ∧
      ∃ renamed, d' = { d with
        diagnostics := d.diagnostics ++ (renaming? (name, span) ⟨n, ty, .state⟩).toList
        renamed := renamed } := by
  intro n d' hrun
  change (ite (name ∉ d.variables.map Variable.name) _ _ : BuildM String).run d = _ at hrun
  split at hrun
  · obtain ⟨rfl, rfl⟩ := Prod.mk.inj (Except.ok.inj hrun)
    exact ⟨.inl rfl, d.renamed, by simp [renaming?]⟩
  · next htaken =>
    obtain ⟨rfl, rfl⟩ := Prod.mk.inj (Except.ok.inj hrun)
    let taken := d.variables.map Variable.name
    let k := firstFree taken name taken.length (d.renamed + 1)
    have hfree : candidate name k ∉ taken := firstFree_spec taken name (Nat.le_refl _) _
    refine ⟨.inr ⟨k, rfl⟩, k, ?_⟩
    -- the candidate is free and the name is not
    have hne : candidate name k ≠ name := fun heq => htaken (heq ▸ hfree)
    rw [renaming?, if_neg hne]
    rfl

theorem leaves_stateVariable (h : d.Surveyed (frame :: outer) r) (ty : Ty) (span : Span) (name : String) :
    Leaves (stateVariable ty span name) d fun _ d' =>
      d'.Surveyed (((name, none) :: frame) :: outer) (r.state name span) := by
  refine (leaves_checkUndeclared name span d).bind ?_
  rintro _ _ rfl
  obtain ⟨closed, h⟩ := h
  refine (leaves_stateName name span ty _).bind ?_
  rintro n _ ⟨hn, renamed, rfl⟩
  refine (leaves_declare _ span _).bind ?_
  rintro _ _ ⟨hfree, rfl⟩
  rw [show ScopeStack.taken _ = _ from h.taken_eq] at hfree
  exact .modify ⟨closed, h.state hfree rfl rfl hn⟩

theorem leaves_stateVariables (ty : Ty) (span : Span) (names : List String)
    (h : d.Surveyed (frame :: outer) r) :
    Leaves (names.forM (stateVariable ty span)) d fun _ d' =>
      d'.Surveyed (((names.map (·, none)).reverse ++ frame) :: outer) (names.foldl (·.state · span) r) := by
  induction names generalizing d frame r with
  | nil => exact .pure h
  | cons name names ih =>
    rw [List.map_cons, List.reverse_cons, List.append_assoc]
    exact (leaves_stateVariable h ty span name).bind fun _ _ h => ih h

mutual

theorem leaves_item (i : Item) {d : Draft} {frame : Names} {outer : List Names} {r : Survey}
    (h : d.Surveyed (frame :: outer) r) :
    Leaves (item i) d fun _ d' => ∃ frame',
      frame' ++ outer.flatten = (i.survey (frame ++ outer.flatten) r).1 ∧
        d'.Surveyed (frame' :: outer) (i.survey (frame ++ outer.flatten) r).2 := by
  match i with
  | .vars names typeName span =>
    rw [Item.survey, item]
    split
    · exact .fail
    · next ty _ =>
      exact (leaves_stateVariables ty span names h).mono fun _ _ h => ⟨_, List.append_assoc _ _ _, h⟩
  | .binding b =>
    rw [Item.survey, item]
    exact leaves_binder b h
  | .init es =>
    rw [Item.survey, item]
    exact (leaves_forM leaves_initial es h).mono fun _ _ h => ⟨frame, rfl, h⟩
  | .trans es =>
    rw [Item.survey, item]
    exact (leaves_forM leaves_transition es h).mono fun _ _ h => ⟨frame, rfl, h⟩
  | .property name e span =>
    rw [Item.survey, item]
    exact (leaves_property h name e span).mono fun _ _ h => ⟨frame, rfl, h⟩
  | .block is =>
    rw [Item.survey, item]
    refine (leaves_enter h).bind fun _ _ h => (leaves_items is h).bind fun _ _ ⟨inner, _, h⟩ => ?_
    exact (leaves_leave h).mono fun _ _ h => ⟨frame, rfl, h⟩

theorem leaves_items (is : List Item) {d : Draft} {frame : Names} {outer : List Names} {r : Survey}
    (h : d.Surveyed (frame :: outer) r) :
    Leaves (items is) d fun _ d' => ∃ frame',
      frame' ++ outer.flatten = (Item.surveyAll (frame ++ outer.flatten) r is).1 ∧
        d'.Surveyed (frame' :: outer) (Item.surveyAll (frame ++ outer.flatten) r is).2 := by
  match is with
  | [] =>
    rw [Item.surveyAll, items]
    exact .pure ⟨frame, rfl, h⟩
  | i :: is =>
    rw [Item.surveyAll, items]
    refine (leaves_item i h).bind fun _ _ ⟨frame', hnames, h⟩ => ?_
    have hrest := leaves_items is h
    rwa [hnames] at hrest

end

end Build

theorem Draft.surveyed_start : ({} : Draft).Surveyed [[]] {} :=
  ⟨[], .cons .nil .nil, by simp, rfl, .nil, by simp, .nil, .nil⟩

theorem Build.leaves_script (s : Script) :
    Leaves (Build.script s) {} fun _ d =>
      s.survey.lets.Nodup ∧ List.Forall₂ IsVariableOf s.survey.declared d.variables ∧
        d.diagnostics.Perm (s.survey.unusedLets.map LetDeclaration.unused ++
          s.survey.renamings d.variables) := by
  refine (leaves_items s.items Draft.surveyed_start).bind fun _ d ⟨frame, _, closed, h⟩ => ?_
  refine .modify ⟨h.nodup_lets, h.declared, h.report.trans ?_⟩
  have hlets : (closed ++ Names.lets frame).Perm s.survey.lets := by
    have hsplit := h.lets
    rw [List.flatten_cons, List.flatten_nil, List.append_nil] at hsplit
    exact hsplit
  exact ((hlets.filter _).map _).append_right _

/-- The warnings of a build are one for each binding that no name of the script resolves to, one for
each declared name that its variable does not have, and one for each variable whose next state the
steps of the system do not mention. -/
theorem Script.diagnostics_exact {s : Script} {built : Built} (h : s.build = .ok built) :
    s.survey.lets.Nodup ∧
    s.survey.declared.map Prod.fst = s.declarations.map Declaration.name ∧
    List.Forall₂ IsVariableOf s.survey.declared built.system.variables ∧
    (built.system.variables.map Variable.name).Nodup ∧
    built.diagnostics.Perm
      (s.survey.unusedLets.map LetDeclaration.unused ++
        s.survey.renamings built.system.variables ++
        (built.system.variables.filter fun v => Ref.mk v 1 ∉ built.system.trans.freeRefs).map fun v =>
          ⟨.unconstrained v.name, none⟩) := by
  obtain ⟨d, hrun, hsystem, hdiagnostics⟩ := draft_of_build h
  have hvariables : built.system.variables = d.variables := congrArg SystemData.variables hsystem
  obtain ⟨hlets, hdeclared, hperm⟩ := Build.leaves_script s () d hrun
  rw [← hvariables] at hdeclared hperm
  refine ⟨hlets, declared_items [] {} s.items, hdeclared, built.system.nodup_names, ?_⟩
  rw [hdiagnostics, Build.unconstrained]
  simp only [Term.freeRefs, List.mem_eraseDups]
  exact hperm.append_right _

def neglected : Script where
  items :=
    [.vars ["x"] "int" {},
     .binding (.mk "a" (.literal (.int 1) {}) { line := 2 }),
     .block
      [.vars ["x"] "bool" { line := 3 },
       .binding (.mk "a" (.name "x" false {}) {}),
       .init [.name "a" false {}]],
     .trans [.apply "=" [.name "x" true {},
       .letIn [.mk "b" (.literal (.int 2) {}) { line := 4 }] (.literal (.int 3) {}) {}] {}]]

theorem neglected_warnings : ∃ built, neglected.build = .ok built ∧
    built.diagnostics.Perm
      [⟨.unusedLet "a", some { line := 2 }⟩, ⟨.unusedLet "b", some { line := 4 }⟩,
        ⟨.renamed "x" "x#1", some { line := 3 }⟩, ⟨.unconstrained "x#1", none⟩] := by
  have hsystem : (neglected.build.toOption.map fun built =>
      (built.system.variables, built.system.trans.freeRefs)) =
        some ([⟨"x", .int, .state⟩, ⟨"x#1", .bool, .state⟩], [⟨⟨"x", .int, .state⟩, 1⟩]) := by
    decide +kernel
  cases hbuild : neglected.build with
  | error e =>
    rw [hbuild] at hsystem
    cases hsystem
  | ok built =>
    rw [hbuild] at hsystem
    obtain ⟨hvariables, hrefs⟩ := Prod.mk.inj (Option.some.inj hsystem)
    obtain ⟨-, -, -, -, hperm⟩ := Script.diagnostics_exact hbuild
    rw [hvariables, hrefs] at hperm
    exact ⟨built, rfl, hperm⟩

end InvariantProver
