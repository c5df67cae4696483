import InvariantProver.Proofs.TransitionSystem.Elaboration
import InvariantProver.Proofs.TransitionSystem.Naming

namespace InvariantProver

def Site.Plain (site : Site) : Prop := (∀ place, site.predicate? place = none) ∧ site.property? = none

mutual

theorem plain_expr (ctx : Context) (e : Expr) : ∀ site ∈ e.sites ctx, site.Plain := by
  match e with
  | .literal l _ | .name ident next _ =>
    rw [Expr.sites]
    exact List.forall_mem_singleton.mpr ⟨fun _ => rfl, rfl⟩
  | .apply symbol args _ =>
    rw [Expr.sites]
    exact List.forall_mem_cons.mpr ⟨⟨fun _ => rfl, rfl⟩, plain_exprs ctx args⟩
  | .letIn bindings body _ =>
    rw [Expr.sites]
    exact List.forall_mem_append.mpr ⟨plain_binders ctx [] bindings, plain_expr _ body⟩

theorem plain_exprs (ctx : Context) (es : List Expr) : ∀ site ∈ Expr.sitesAll ctx es, site.Plain := by
  match es with
  | [] =>
    rw [Expr.sitesAll]
    exact List.forall_mem_nil _
  | e :: es =>
    rw [Expr.sitesAll]
    exact List.forall_mem_append.mpr ⟨plain_expr ctx e, plain_exprs ctx es⟩

theorem plain_binder (ctx : Context) (taken : List String) (b : Binder) :
    ∀ site ∈ b.sites ctx taken, site.Plain := by
  match b with
  | .mk name value _ =>
    rw [Binder.sites]
    exact List.forall_mem_cons.mpr ⟨⟨fun _ => rfl, rfl⟩, plain_expr ctx value⟩

theorem plain_binders (ctx : Context) (taken : List String) (bs : List Binder) :
    ∀ site ∈ Binder.sitesAll ctx taken bs, site.Plain := by
  match bs with
  | [] =>
    rw [Binder.sitesAll]
    exact List.forall_mem_nil _
  | b :: bs =>
    rw [Binder.sitesAll]
    exact List.forall_mem_append.mpr ⟨plain_binder ctx taken b, plain_binders _ _ bs⟩

end

namespace Draft

structure Written (d : Draft) (seen : List Site) : Prop where
  init : List.Forall₂ (Term.Denotes d.variables) d.init (seen.filterMap (Site.predicate? .init))
  trans : List.Forall₂ (Term.Denotes d.variables) d.trans (seen.filterMap (Site.predicate? .trans))
  properties : List.Forall₂ (fun p q => p.1 = q.1 ∧ p.2.Denotes d.variables q.2) d.properties
    (seen.filterMap Site.property?)

structure At (d : Draft) (p : Position) (seen : List Site) : Prop where
  within : d.Within p.ctx
  taken : d.scopes.taken = p.scope
  declared : d.variables.map (fun v => some v.ty) = p.declared
  names : (d.variables.map Variable.name).Nodup
  roles : ∀ v ∈ d.variables, v.role = .state
  keys : d.properties.keys = p.properties
  written : d.Written seen

variable {d d' d'' : Draft} {p : Position} {seen sites : List Site}

theorem filterMap_plain {α : Type} {f : Site → Option α} (h : ∀ site ∈ sites, f site = none) :
    (seen ++ sites).filterMap f = seen.filterMap f := by
  rw [List.filterMap_append, List.filterMap_eq_nil_iff.mpr h, List.append_nil]

theorem Written.plain (h : d.Written seen) (hplain : ∀ site ∈ sites, site.Plain) :
    d.Written (seen ++ sites) where
  init := by
    rw [filterMap_plain fun site hsite => (hplain site hsite).1 _]
    exact h.init
  trans := by
    rw [filterMap_plain fun site hsite => (hplain site hsite).1 _]
    exact h.trans
  properties := by
    rw [filterMap_plain fun site hsite => (hplain site hsite).2]
    exact h.properties

theorem Written.of_alike (h : d.Written seen) (halike : d.Alike d') : d'.Written seen := by
  obtain ⟨_, _, _, rfl⟩ := halike
  exact ⟨h.init, h.trans, h.properties⟩

theorem at_start : ({} : Draft).At {} [] where
  within := ⟨.nil, by simp [ScopeStack.frames, ScopeStack.scopes]⟩
  taken := rfl
  declared := rfl
  names := List.nodup_nil
  roles := List.forall_mem_nil _
  keys := rfl
  written := ⟨.nil, .nil, .nil⟩

theorem At.moves (h : d.At p seen) (halike : d.Alike d') {ctx : Context} {scope : List String}
    (hwithin : d'.Within ctx) (htaken : d'.scopes.taken = scope) :
    d'.At { p with ctx, scope } seen := by
  have hwritten := h.written.of_alike halike
  obtain ⟨_, _, _, rfl⟩ := halike
  exact ⟨hwithin, htaken, h.declared, h.names, h.roles, h.keys, hwritten⟩

theorem At.same (h : d.At p seen) (hsame : d.Same d') : d'.At p seen :=
  h.moves hsame.1 (hsame.within h.within) ((ScopeStack.taken_of_frames hsame.2).trans h.taken)

theorem At.plain (h : d.At p seen) (hplain : ∀ site ∈ sites, site.Plain) : d.At p (seen ++ sites) :=
  { h with written := h.written.plain hplain }

def Grows (d d' : Draft) : Prop :=
  d'.scopes.frames.tail = d.scopes.frames.tail ∧ ∃ ws, d'.variables = d.variables ++ ws

theorem Grows.refl (d : Draft) : d.Grows d := ⟨rfl, [], (List.append_nil _).symm⟩

theorem Grows.trans (h : d.Grows d') (h' : d'.Grows d'') : d.Grows d'' := by
  obtain ⟨htail, ws, hws⟩ := h
  obtain ⟨htail', ws', hws'⟩ := h'
  exact ⟨htail'.trans htail, ws ++ ws', by rw [hws', hws, List.append_assoc]⟩

theorem Same.grows (h : d.Same d') : d.Grows d' :=
  ⟨congrArg List.tail h.2, [], by rw [h.1.variables_eq, List.append_nil]⟩

theorem Written.append (h : d.Written seen) (ws : List Variable) :
    ({ d with «variables» := d.variables ++ ws } : Draft).Written seen where
  init := h.init.imp fun _ _ ht => ht.append ws
  trans := h.trans.imp fun _ _ ht => ht.append ws
  properties := h.properties.imp fun _ _ ht => ⟨ht.1, ht.2.append ws⟩

end Draft

section

variable {d : Draft} {p : Position} {seen : List Site}

/-! ### State variables -/

theorem visits_stateName (name : String) (span : Span) (d : Draft) :
    Visits [] (Build.stateName name span) d fun n d' =>
      d.Same d' ∧ n ∉ d.variables.map Variable.name := by
  refine .get ?_
  extract_lets taken
  split
  · next hfree => exact .pure ⟨.refl d, hfree⟩
  · have hcount : ∀ n, Visits [] (modify fun d => { d with renamed := n }) d fun _ d' => d.Same d' :=
      fun _ => .modify ⟨⟨_, _, _, rfl⟩, rfl⟩
    refine (hcount _).after fun _ d' hsame => ?_
    have hwarn : ∀ warning, Visits [] (Build.warn warning (some span)) d' fun _ d'' => d.Same d'' :=
      fun _ => .modify (hsame.trans ⟨⟨_, _, _, rfl⟩, rfl⟩)
    exact (hwarn _).after fun _ _ hsame => .pure ⟨hsame, Build.firstFree_spec _ name le_rfl _⟩

theorem Draft.At.state (h : d.At p seen) {name n : String} (hfresh : name ∉ d.scopes.taken)
    (hn : n ∉ d.variables.map Variable.name) (ty : Ty) (span : Span) :
    ({ d with
        scopes := { d.scopes with
          current := d.scopes.current ++ [⟨name, ⟨n, ty, .state⟩, none, some span, false⟩] }
        «variables» := d.variables ++ [⟨n, ty, .state⟩] } : Draft).At (p.state (some ty) name)
      (seen ++ [.declaration p.scope name]) where
  within := by
    have hnumber : (d.variables ++ [⟨n, ty, .state⟩])[p.declared.length]? = some ⟨n, ty, .state⟩ := by
      simp [← h.declared]
    exact (h.within.append [_]).declare hfresh ⟨rfl, rfl, rfl, hnumber, rfl⟩
  taken := by simp [← h.taken, ScopeStack.taken, Position.state]
  declared := by simp [Position.state, ← h.declared]
  names := by
    rw [List.map_append]
    refine List.nodup_append.mpr ⟨h.names, by simp, ?_⟩
    rintro m hm _ hlast rfl
    obtain rfl : m = n := by simpa using hlast
    exact hn hm
  roles := List.forall_mem_append.mpr ⟨h.roles, by simp⟩
  keys := h.keys
  written := by
    refine ((h.written.append [_]).of_alike ⟨_, _, _, rfl⟩).plain ?_
    exact List.forall_mem_singleton.mpr ⟨fun _ => rfl, rfl⟩

theorem visits_stateVariable (h : d.At p seen) (ty : Ty) (span : Span) (name : String) :
    Visits [.declaration p.scope name] (Build.stateVariable ty span name) d fun _ d' =>
      d'.At (p.state (some ty) name) (seen ++ [.declaration p.scope name]) ∧ d.Grows d' := by
  rw [← h.taken]
  refine (visits_checkUndeclared name span d).andThen ?_
  rintro - _ ⟨rfl, hfresh⟩
  refine (visits_stateName name span d).andThen fun n d' ⟨hsame, hn⟩ => ?_
  have hfresh' : name ∉ d'.scopes.taken := by rwa [ScopeStack.taken_of_frames hsame.2]
  have hn' : n ∉ d'.variables.map Variable.name := by rwa [hsame.1.variables_eq]
  have htail : d'.scopes.frames.tail = d.scopes.frames.tail := congrArg List.tail hsame.2
  refine (visits_declare hfresh' span).andThen ?_
  rintro - _ rfl
  refine .modify ⟨h.taken ▸ (h.same hsame).state hfresh' hn' ty span, htail, [⟨n, ty, .state⟩], ?_⟩
  rw [← hsame.1.variables_eq]

/-! ### Predicates -/

theorem sound_predicate {place : Place} {r : Meaning} (hty : r.ty? = some .bool)
    (hnext : place ≠ .trans → r.next = false) : (Site.predicate place r).Sound := by
  rintro _ ⟨⟩
  · simp_all
  · simp_all

theorem visits_formula_bind {β : Type} {f : Term → BuildM β} {done : β → Draft → Prop}
    (h : d.Within p.ctx) {place : Place} {e : Expr}
    (hf : ∀ t d', d.Same d' → t.Denotes d.variables (e.meaning p.ctx) →
      (e.meaning p.ctx).ty? = some .bool →
        Visits [.predicate place (e.meaning p.ctx)] (f t) d' done) :
    Visits (p.predicate place e) (Build.formula place e >>= f) d done := by
  unfold Build.formula
  rw [bind_assoc]
  refine (visits_expr e h).bind fun t d' ⟨hsame, ht⟩ => ?_
  rw [← hsame.pending] at ht
  rw [bind_assoc]
  refine (visits_closed t d').after ?_
  rintro u _ ⟨rfl, rfl⟩
  split
  · next hty => exact .fail_bind rfl List.mem_cons_self (.truthValue ht.ty hty)
  · next hty =>
    rw [pure_bind]
    have hbool := ht.ty.trans (congrArg some (Decidable.not_not.mp hty))
    exact hf _ _ hsame (hsame.1.variables_eq ▸ ht) hbool

theorem visits_formula (h : d.Within p.ctx) (e : Expr) :
    Visits (p.predicate .trans e) (Build.formula .trans e) d fun t d' =>
      d.Same d' ∧ t.Denotes d.variables (e.meaning p.ctx) := by
  rw [← bind_pure (Build.formula .trans e)]
  refine visits_formula_bind h fun t d' hsame ht hbool => ?_
  exact .pure_of_sound (sound_predicate hbool (absurd rfl)) ⟨hsame, ht⟩

theorem visits_stateFormula (h : d.Within p.ctx) {place : Place} (hplace : place ≠ .trans) (e : Expr) :
    Visits (p.predicate place e) (Build.stateFormula place e) d fun t d' =>
      d.Same d' ∧ t.Denotes d.variables (e.meaning p.ctx) := by
  refine visits_formula_bind h fun t d' hsame ht hbool => ?_
  split
  · next hnext => exact .fail rfl List.mem_cons_self (.steps hplace (ht.next.trans hnext))
  · next hnext =>
    have hstill := ht.next.trans (Bool.eq_false_iff.mpr hnext)
    exact .pure_of_sound (sound_predicate hbool fun _ => hstill) ⟨hsame, ht⟩

namespace Draft

theorem At.init (h : d.At p seen) {t : Term} {r : Meaning} (ht : t.Denotes d.variables r) :
    ({ d with init := d.init ++ [t] } : Draft).At p (seen ++ [.predicate .init r]) :=
  { h with
    written :=
      { init := by
          rw [List.filterMap_append]
          exact List.rel_append h.written.init (.cons ht .nil)
        trans := by
          rw [filterMap_plain (List.forall_mem_singleton.mpr rfl)]
          exact h.written.trans
        properties := by
          rw [filterMap_plain (List.forall_mem_singleton.mpr rfl)]
          exact h.written.properties } }

theorem At.trans (h : d.At p seen) {t : Term} {r : Meaning} (ht : t.Denotes d.variables r) :
    ({ d with trans := d.trans ++ [t] } : Draft).At p (seen ++ [.predicate .trans r]) :=
  { h with
    written :=
      { init := by
          rw [filterMap_plain (List.forall_mem_singleton.mpr rfl)]
          exact h.written.init
        trans := by
          rw [List.filterMap_append]
          exact List.rel_append h.written.trans (.cons ht .nil)
        properties := by
          rw [filterMap_plain (List.forall_mem_singleton.mpr rfl)]
          exact h.written.properties } }

theorem At.property (h : d.At p seen) {name : String} (hfresh : name ∉ p.properties) {t : Term}
    {r : Meaning} (ht : t.Denotes d.variables r) :
    ({ d with properties := d.properties.put name t } : Draft).At
      { p with properties := p.properties ++ [name] } (seen ++ [.predicate (.property name) r]) := by
  rw [← h.keys] at hfresh
  rw [Entries.put_of_not_mem hfresh]
  exact
    { h with
      keys := by
        rw [← h.keys]
        simp [Entries.keys]
      written :=
        { init := by
            rw [filterMap_plain (List.forall_mem_singleton.mpr rfl)]
            exact h.written.init
          trans := by
            rw [filterMap_plain (List.forall_mem_singleton.mpr rfl)]
            exact h.written.trans
          properties := by
            rw [List.filterMap_append]
            exact List.rel_append h.written.properties (.cons ⟨rfl, ht⟩ .nil) } }

end Draft

theorem visits_initial (h : d.At p seen) (e : Expr) :
    Visits (p.predicate .init e) (Build.initial e) d fun _ d' =>
      d'.At p (seen ++ p.predicate .init e) ∧ d.Grows d' := by
  refine (visits_stateFormula h.within (by decide) e).andThen fun t d' ⟨hsame, ht⟩ => .modify ⟨?_, ?_⟩
  · rw [Position.predicate, ← List.append_assoc]
    rw [← hsame.1.variables_eq] at ht
    exact ((h.same hsame).plain (plain_expr p.ctx e)).init ht
  · exact hsame.grows

theorem visits_transition (h : d.At p seen) (e : Expr) :
    Visits (p.predicate .trans e) (Build.transition e) d fun _ d' =>
      d'.At p (seen ++ p.predicate .trans e) ∧ d.Grows d' := by
  refine (visits_formula h.within e).andThen fun t d' ⟨hsame, ht⟩ => .modify ⟨?_, ?_⟩
  · rw [Position.predicate, ← List.append_assoc]
    rw [← hsame.1.variables_eq] at ht
    exact ((h.same hsame).plain (plain_expr p.ctx e)).trans ht
  · exact hsame.grows

theorem visits_property (h : d.At p seen) (name : String) (e : Expr) (span : Span) :
    Visits (.property p.properties name :: p.predicate (.property name) e)
      (Build.property name e span) d fun _ d' =>
        d'.At { p with properties := p.properties ++ [name] }
          (seen ++ .property p.properties name :: p.predicate (.property name) e) ∧ d.Grows d' := by
  refine .get ?_
  rw [h.keys]
  extract_lets next
  split
  · next htaken => exact .fail_bind rfl List.mem_cons_self (.property htaken)
  · next hfresh =>
    have hsound : (Site.property p.properties name).Sound := by
      rintro _ ⟨⟩
      contradiction
    have hplain : ∀ site ∈ .property p.properties name :: e.sites p.ctx, site.Plain :=
      List.forall_mem_cons.mpr ⟨⟨fun _ => rfl, rfl⟩, plain_expr p.ctx e⟩
    refine .cons hsound ?_
    refine (visits_stateFormula h.within (by simp) e).andThen fun t d' ⟨hsame, ht⟩ => .modify ⟨?_, ?_⟩
    · rw [← hsame.1.variables_eq] at ht
      have hat := ((h.same hsame).plain hplain).property hfresh ht
      rwa [List.append_assoc] at hat
    · exact hsame.grows

/-! ### Items -/

theorem visits_forM {α : Type} {f : α → BuildM PUnit} {xs : List α} {p : Position}
    {walk : α → List Site} (h : d.At p seen)
    (hf : ∀ x {d : Draft} {seen : List Site}, d.At p seen →
      Visits (walk x) (f x) d fun _ d' => d'.At p (seen ++ walk x) ∧ d.Grows d') :
    Visits (xs.flatMap walk) (xs.forM f) d fun _ d' =>
      d'.At p (seen ++ xs.flatMap walk) ∧ d.Grows d' := by
  induction xs generalizing d seen with
  | nil => exact .pure ⟨by rwa [List.flatMap_nil, List.append_nil], .refl d⟩
  | cons x xs ih =>
    rw [List.flatMap_cons]
    refine (hf x h).bind fun _ d' ⟨hat, hgrows⟩ => ?_
    refine (ih hat).mono fun _ d'' ⟨hat', hgrows'⟩ => ⟨?_, hgrows.trans hgrows'⟩
    rwa [List.append_assoc] at hat'

theorem visits_stateVariables (h : d.At p seen) (ty : Ty) (span : Span) (names : List String) :
    Visits (p.states (some ty) names).1 (names.forM (Build.stateVariable ty span)) d fun _ d' =>
      d'.At (p.states (some ty) names).2 (seen ++ (p.states (some ty) names).1) ∧ d.Grows d' := by
  induction names generalizing p d seen with
  | nil => exact .pure ⟨by rwa [Position.states, List.append_nil], .refl d⟩
  | cons name names ih =>
    refine Visits.bind (visits_stateVariable h ty span name) fun _ d' ⟨hat, hgrows⟩ => ?_
    refine (ih hat).mono fun _ d'' ⟨hat', hgrows'⟩ => ⟨?_, hgrows.trans hgrows'⟩
    rwa [List.append_assoc] at hat'

theorem visits_binding (h : d.At p seen) (b : Binder) :
    Visits (b.sites p.ctx p.scope) (Build.binder b) d fun _ d' =>
      d'.At (p.bind b) (seen ++ b.sites p.ctx p.scope) ∧ d.Grows d' := by
  rw [← h.taken]
  refine (visits_binder b h.within).mono fun _ d' ⟨halike, htail, htaken, hwithin⟩ => ⟨?_, htail, [], ?_⟩
  · exact (h.moves halike hwithin (h.taken ▸ htaken)).plain (plain_binder _ _ b)
  · rw [halike.variables_eq, List.append_nil]

mutual

theorem visits_item (i : Item) {d : Draft} {p : Position} {seen : List Site} (h : d.At p seen) :
    Visits (i.walk p).1 (Build.item i) d fun _ d' =>
      d'.At (i.walk p).2 (seen ++ (i.walk p).1) ∧ d.Grows d' := by
  match i with
  | .vars names typeName span =>
    rw [Item.walk, Build.item]
    cases hty : Ty.ofName? typeName with
    | none => exact .fail rfl List.mem_cons_self (.typeName hty)
    | some ty =>
      have hsound : (Site.typeName typeName).Sound := by
        rintro _ ⟨⟩
        simp_all
      have hplain : (Site.typeName typeName).Plain := ⟨fun _ => rfl, rfl⟩
      refine .cons hsound ?_
      have hat := h.plain (List.forall_mem_singleton.mpr hplain)
      refine (visits_stateVariables hat ty span names).mono fun _ d' ⟨hat', hgrows⟩ => ⟨?_, hgrows⟩
      rwa [List.append_assoc] at hat'
  | .binding b =>
    rw [Item.walk, Build.item]
    exact visits_binding h b
  | .init es =>
    rw [Item.walk, Build.item]
    exact visits_forM h fun e _ _ hat => visits_initial hat e
  | .trans es =>
    rw [Item.walk, Build.item]
    exact visits_forM h fun e _ _ hat => visits_transition hat e
  | .property name e span =>
    rw [Item.walk, Build.item]
    exact visits_property h name e span
  | .block items =>
    rw [Item.walk, Build.item]
    refine (visits_enter h.within).after fun _ d₁ ⟨halike₁, htail₁, htaken₁, hwithin₁⟩ => ?_
    have h₁ : d₁.At { p with scope := [] } seen := h.moves halike₁ hwithin₁ htaken₁
    refine (visits_items items h₁).andThen fun _ d₂ ⟨h₂, htail₂, ws, hws⟩ => ?_
    rw [halike₁.variables_eq] at hws
    have hframes := htail₂.trans htail₁
    refine (visits_leave (by simp [ScopeStack.frames, ScopeStack.scopes]) hframes).mono ?_
    intro _ d₃ ⟨halike₃, hframes₃⟩
    have hvariables := halike₃.variables_eq.trans hws
    -- the scope of the block goes, but the variables declared in it stay
    refine ⟨h₂.moves halike₃ ?_ ((ScopeStack.taken_of_frames hframes₃).trans h.taken), ?_⟩
    · rw [Draft.Within, hvariables, hframes₃]
      exact h.within.append ws
    · exact ⟨congrArg List.tail hframes₃, ws, hvariables⟩

theorem visits_items (is : List Item) {d : Draft} {p : Position} {seen : List Site} (h : d.At p seen) :
    Visits (Item.walkAll p is).1 (Build.items is) d fun _ d' =>
      d'.At (Item.walkAll p is).2 (seen ++ (Item.walkAll p is).1) ∧ d.Grows d' := by
  match is with
  | [] =>
    rw [Item.walkAll, Build.items]
    exact .pure ⟨by rwa [List.append_nil], .refl d⟩
  | i :: is =>
    rw [Item.walkAll, Build.items]
    refine (visits_item i h).bind fun _ d' ⟨hat, hgrows⟩ => ?_
    refine (visits_items is hat).mono fun _ d'' ⟨hat', hgrows'⟩ => ⟨?_, hgrows.trans hgrows'⟩
    rwa [List.append_assoc] at hat'

end

end

end InvariantProver
