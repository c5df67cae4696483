import InvariantProver.Proofs.TransitionSystem.Naming
import InvariantProver.Proofs.TransitionSystem.Predicates
import InvariantProver.Proofs.Data.Checked

namespace InvariantProver

structure Declaration where
  name : String
  typeName : String

mutual

def Item.declarations : Item → List Declaration
  | .vars names typeName _ => names.map (⟨·, typeName⟩)
  | .block items => Item.declarationsAll items
  | .binding _ | .init _ | .trans _ | .property .. => []

def Item.declarationsAll : List Item → List Declaration
  | [] => []
  | i :: is => i.declarations ++ Item.declarationsAll is

end

def Script.declarations (s : Script) : List Declaration := Item.declarationsAll s.items

namespace Build

/-! ### Names -/

inductive Finds (taken : List String) (name : String) : Nat → Nat → Prop
  | free {n : Nat} (h : candidate name n ∉ taken) : Finds taken name n n
  | next {n m : Nat} (h : candidate name n ∈ taken) (rest : Finds taken name (n + 1) m) :
    Finds taken name n m

theorem Finds.not_taken {taken : List String} {name : String} {n m : Nat}
    (h : Finds taken name n m) : candidate name m ∉ taken := by
  induction h with
  | free h => exact h
  | next h rest ih => exact ih

theorem finds_of_free {taken : List String} {name : String} {fuel n : Nat}
    (h : candidate name (firstFree taken name fuel n) ∉ taken) :
    Finds taken name n (firstFree taken name fuel n) := by
  induction fuel generalizing n with
  | zero => exact .free h
  | succ fuel ih =>
    unfold firstFree at h ⊢
    split at h
    · next htaken =>
      rw [if_pos htaken]
      exact .next htaken (ih h)
    · next hfree =>
      rw [if_neg hfree]
      exact .free hfree

theorem finds_firstFree (taken : List String) (name : String) (n : Nat) :
    Finds taken name n (firstFree taken name taken.length n) :=
  finds_of_free (firstFree_spec taken name (Nat.le_refl _) n)

inductive Declares : List String → Nat → List Declaration → List Variable → Nat → Prop
  | nil {taken : List String} {last : Nat} : Declares taken last [] [] last
  | kept {taken : List String} {last last' : Nat} {name typeName : String} {ty : Ty}
    {decls : List Declaration} {vs : List Variable} (hty : Ty.ofName? typeName = some ty)
    (hfree : name ∉ taken) (rest : Declares (taken ++ [name]) last decls vs last') :
    Declares taken last (⟨name, typeName⟩ :: decls) (⟨name, ty, .state⟩ :: vs) last'
  | renamed {taken : List String} {last n last' : Nat} {name typeName : String} {ty : Ty}
    {decls : List Declaration} {vs : List Variable} (hty : Ty.ofName? typeName = some ty)
    (htaken : name ∈ taken) (hfinds : Finds taken name (last + 1) n)
    (rest : Declares (taken ++ [candidate name n]) n decls vs last') :
    Declares taken last (⟨name, typeName⟩ :: decls) (⟨candidate name n, ty, .state⟩ :: vs) last'

namespace Declares

variable {taken : List String} {last last' last'' : Nat} {decls decls' : List Declaration}
  {vs ws : List Variable}

theorem append (h : Declares taken last decls vs last')
    (h' : Declares (taken ++ vs.map Variable.name) last' decls' ws last'') :
    Declares taken last (decls ++ decls') (vs ++ ws) last'' := by
  induction h with
  | nil => simpa using h'
  | kept hty hfree rest ih => exact .kept hty hfree (ih (by simpa using h'))
  | renamed hty htaken hfinds rest ih => exact .renamed hty htaken hfinds (ih (by simpa using h'))

theorem eq_of_nil (h : Declares taken last [] vs last') : vs = [] ∧ last' = last := by
  cases h
  exact ⟨rfl, rfl⟩

theorem length_eq (h : Declares taken last decls vs last') : vs.length = decls.length := by
  induction h with
  | nil => rfl
  | kept _ _ _ ih => simpa using ih
  | renamed _ _ _ _ ih => simpa using ih

theorem role (h : Declares taken last decls vs last') : ∀ v ∈ vs, v.role = .state := by
  induction h with
  | nil => exact List.forall_mem_nil _
  | kept _ _ _ ih => exact List.forall_mem_cons.mpr ⟨rfl, ih⟩
  | renamed _ _ _ _ ih => exact List.forall_mem_cons.mpr ⟨rfl, ih⟩

theorem getElem? (h : Declares taken last decls vs last') {i : Nat} {decl : Declaration}
    {v : Variable} (hdecl : decls[i]? = some decl) (hv : vs[i]? = some v) :
    Ty.ofName? decl.typeName = some v.ty ∧
      v.name ∉ taken ++ (vs.take i).map Variable.name ∧
      (v.name = decl.name ∨ decl.name ∈ taken ++ (vs.take i).map Variable.name ∧
        ∃ n, v.name = candidate decl.name n) := by
  induction h generalizing i with
  | nil => cases hv
  | kept hty hfree rest ih =>
    cases i with
    | zero =>
      obtain rfl := Option.some.inj hdecl
      obtain rfl := Option.some.inj hv
      exact ⟨hty, by simpa using hfree, .inl rfl⟩
    | succ i => simpa using ih hdecl hv
  | renamed hty htaken hfinds rest ih =>
    cases i with
    | zero =>
      obtain rfl := Option.some.inj hdecl
      obtain rfl := Option.some.inj hv
      exact ⟨hty, by simpa using hfinds.not_taken, .inr ⟨by simpa using htaken, _, rfl⟩⟩
    | succ i => simpa using ih hdecl hv

end Declares

end Build

def Draft.Declares (decls : List Declaration) (d d' : Draft) : Prop :=
  ∃ vs, d'.variables = d.variables ++ vs ∧
    Build.Declares (d.variables.map Variable.name) d.renamed decls vs d'.renamed

theorem Draft.Declares.of_eq {d d' : Draft} (hvariables : d'.variables = d.variables)
    (hrenamed : d'.renamed = d.renamed) : Draft.Declares [] d d' :=
  ⟨[], by rw [hvariables, List.append_nil], hrenamed ▸ .nil⟩

theorem Draft.Declares.eq_of_nil {d d' : Draft} (h : Draft.Declares [] d d') :
    d'.variables = d.variables ∧ d'.renamed = d.renamed := by
  obtain ⟨vs, hvs, hdeclares⟩ := h
  obtain ⟨rfl, hrenamed⟩ := hdeclares.eq_of_nil
  exact ⟨by rw [hvs, List.append_nil], hrenamed⟩

theorem Draft.Declares.trans {decls decls' : List Declaration} {d d' d'' : Draft}
    (h : Draft.Declares decls d d') (h' : Draft.Declares decls' d' d'') :
    Draft.Declares (decls ++ decls') d d'' := by
  obtain ⟨vs, hvs, hdeclares⟩ := h
  obtain ⟨ws, hws, hdeclares'⟩ := h'
  refine ⟨vs ++ ws, by rw [hws, hvs, List.append_assoc], hdeclares.append ?_⟩
  rwa [hvs, List.map_append] at hdeclares'

/-! ### Steps of a build -/

variable {α β : Type}

def Declaring (decls : List Declaration) (m : BuildM α) : Prop :=
  ∀ d a d', m.run d = .ok (a, d') → Draft.Declares decls d d'

namespace Declaring

variable {decls decls' : List Declaration} {m : BuildM α} {f : α → BuildM β}

theorem pure (a : α) : Declaring [] (Pure.pure a) := by
  intro d b d' h
  obtain ⟨rfl, rfl⟩ := Prod.mk.inj (Except.ok.inj h)
  exact .of_eq rfl rfl

theorem modify {f : Draft → Draft} (hvariables : ∀ d, (f d).variables = d.variables)
    (hrenamed : ∀ d, (f d).renamed = d.renamed) : Declaring [] (modify f : BuildM PUnit) := by
  intro d a d' h
  obtain ⟨-, rfl⟩ := Prod.mk.inj (Except.ok.inj h)
  exact .of_eq (hvariables d) (hrenamed d)

theorem fail {fault : BuildFault} {span : Span} :
    Declaring decls (Build.fail fault span : BuildM α) :=
  fun _ _ _ h => nomatch h

theorem checked {ε : Type} {fault : ε → BuildFault} {span : Span} {x : Except ε α} :
    Declaring [] (Build.checked fault span x) := by
  cases x with
  | ok a => exact .pure a
  | error e => exact .fail

theorem get {f : Draft → BuildM α} (h : ∀ d, Declaring decls (f d)) :
    Declaring decls (MonadState.get >>= f) :=
  fun d a d' hrun => h d d a d' hrun

theorem bind (hm : Declaring decls m) (hf : ∀ a, Declaring decls' (f a)) :
    Declaring (decls ++ decls') (m >>= f) := by
  intro d b d' hrun
  obtain ⟨⟨a, d₁⟩, hfirst, hrest⟩ := except_bind_eq_ok.mp hrun
  exact (hm d a d₁ hfirst).trans (hf a d₁ b d' hrest)

theorem after (hm : Declaring [] m) (hf : ∀ a, Declaring decls (f a)) : Declaring decls (m >>= f) :=
  hm.bind hf

theorem andThen (hm : Declaring decls m) (hf : ∀ a, Declaring [] (f a)) : Declaring decls (m >>= f) :=
  List.append_nil decls ▸ hm.bind hf

theorem forM {f : α → BuildM PUnit} {xs : List α} {declared : α → List Declaration}
    (hf : ∀ x, Declaring (declared x) (f x)) : Declaring (xs.flatMap declared) (xs.forM f) := by
  induction xs with
  | nil => exact .pure _
  | cons x xs ih => exact (hf x).bind fun _ => ih

theorem each {f : α → BuildM PUnit} {xs : List α} (hf : ∀ x, Declaring [] (f x)) :
    Declaring [] (xs.forM f) := by
  have hnone : xs.flatMap (fun _ => []) = ([] : List Declaration) := by simp
  rw [← hnone]
  exact forM hf

end Declaring

namespace Build

theorem declaring_checkUndeclared (name : String) (span : Span) :
    Declaring [] (checkUndeclared name span) :=
  .get fun _ => .checked

theorem declaring_declare (b : Binding) (span : Span) : Declaring [] (declare b span) :=
  .get fun _ => Declaring.checked.after fun _ => .modify (fun _ => rfl) fun _ => rfl

theorem declaring_closed (t : Term) : Declaring [] (closed t) := .get fun _ => .pure _

theorem declaring_enter : Declaring [] enter := .modify (fun _ => rfl) fun _ => rfl

theorem declaring_reportUnused : Declaring [] reportUnused := .modify (fun _ => rfl) fun _ => rfl

theorem declaring_leave : Declaring [] leave :=
  declaring_reportUnused.after fun _ => .modify (fun _ => rfl) fun _ => rfl

theorem declaring_resolve (ident : String) (next : Bool) (span : Span) :
    Declaring [] (resolve ident next span) := by
  refine .get fun d => ?_
  split
  · exact .fail
  · split
    · exact .fail
    · exact .after (.modify (fun _ => rfl) fun _ => rfl) fun _ => .pure _

mutual

theorem declaring_expr (e : Expr) : Declaring [] (expr e) := by
  match e with
  | .literal value span =>
    rw [expr]
    exact .checked
  | .name ident next span =>
    rw [expr]
    exact declaring_resolve ident next span
  | .apply symbol args span =>
    rw [expr]
    split
    · exact .fail
    · exact (declaring_exprs args).after fun _ => .checked
  | .letIn bindings body span =>
    rw [expr]
    refine declaring_enter.after fun _ => (declaring_binders bindings).after fun _ => ?_
    refine (declaring_expr body).after fun t => (declaring_closed t).after fun _ => ?_
    exact declaring_leave.after fun _ => .pure _

theorem declaring_exprs (es : List Expr) : Declaring [] (exprs es) := by
  match es with
  | [] =>
    rw [exprs]
    exact .pure _
  | e :: es =>
    rw [exprs]
    exact (declaring_expr e).after fun _ => (declaring_exprs es).after fun _ => .pure _

theorem declaring_binder (b : Binder) : Declaring [] (binder b) := by
  match b with
  | .mk name value span =>
    rw [binder]
    refine (declaring_checkUndeclared name span).after fun _ => (declaring_expr value).after fun t => ?_
    exact (declaring_closed t).after fun _ => declaring_declare _ span

theorem declaring_binders (bs : List Binder) : Declaring [] (binders bs) := by
  match bs with
  | [] =>
    rw [binders]
    exact .pure _
  | b :: bs =>
    rw [binders]
    exact (declaring_binder b).after fun _ => declaring_binders bs

end

theorem declaring_formula (place : Place) (e : Expr) : Declaring [] (formula place e) := by
  refine (declaring_expr e).after fun t => (declaring_closed t).after fun _ => ?_
  split
  · exact .fail
  · exact .pure _

theorem declaring_stateFormula (place : Place) (e : Expr) : Declaring [] (stateFormula place e) := by
  refine (declaring_formula place e).after fun _ => ?_
  split
  · exact .fail
  · exact .pure _

theorem declaring_initial (e : Expr) : Declaring [] (initial e) :=
  (declaring_stateFormula .init e).after fun _ => .modify (fun _ => rfl) fun _ => rfl

theorem declaring_transition (e : Expr) : Declaring [] (transition e) :=
  (declaring_formula .trans e).after fun _ => .modify (fun _ => rfl) fun _ => rfl

theorem declaring_property (name : String) (e : Expr) (span : Span) :
    Declaring [] (property name e span) := by
  refine .get fun d => ?_
  have hwritten : Declaring [] (stateFormula (.property name) e >>= fun t =>
      modify fun d => { d with properties := d.properties.put name t }) :=
    (declaring_stateFormula _ e).after fun _ => .modify (fun _ => rfl) fun _ => rfl
  extract_lets next
  split
  · exact .after .fail fun _ => hwritten
  · exact hwritten

/-! ### State variables -/

theorem stateName_cases {name n : String} {span : Span} {d d' : Draft}
    (h : (stateName name span).run d = .ok (n, d')) : d'.variables = d.variables ∧
      (name ∉ d.variables.map Variable.name ∧ n = name ∧ d'.renamed = d.renamed ∨
        name ∈ d.variables.map Variable.name ∧ n = candidate name d'.renamed ∧
          Finds (d.variables.map Variable.name) name (d.renamed + 1) d'.renamed) := by
  change (ite (name ∉ d.variables.map Variable.name) _ _ : BuildM String).run d = _ at h
  split at h
  · next hfree =>
    obtain ⟨rfl, rfl⟩ := Prod.mk.inj (Except.ok.inj h)
    exact ⟨rfl, .inl ⟨hfree, rfl, rfl⟩⟩
  · next htaken =>
    obtain ⟨rfl, rfl⟩ := Prod.mk.inj (Except.ok.inj h)
    exact ⟨rfl, .inr ⟨Decidable.not_not.mp htaken, rfl, finds_firstFree _ name _⟩⟩

theorem declaring_stateVariable {typeName : String} {ty : Ty} (hty : Ty.ofName? typeName = some ty)
    (span : Span) (name : String) :
    Declaring [⟨name, typeName⟩] (stateVariable ty span name) := by
  refine (declaring_checkUndeclared name span).after fun _ d a d' hrun => ?_
  obtain ⟨⟨n, d₁⟩, hname, hrun⟩ := except_bind_eq_ok.mp hrun
  obtain ⟨⟨_, d₂⟩, hdeclare, hrun⟩ := except_bind_eq_ok.mp hrun
  obtain ⟨-, rfl⟩ := Prod.mk.inj (Except.ok.inj hrun)
  obtain ⟨hvariables, hnamed⟩ := stateName_cases hname
  obtain ⟨hvariables₂, hrenamed₂⟩ := (declaring_declare _ span d₁ _ d₂ hdeclare).eq_of_nil
  refine ⟨[⟨n, ty, .state⟩], ?_, ?_⟩
  · change d₂.variables ++ _ = _
    rw [hvariables₂, hvariables]
  change Declares _ _ _ _ d₂.renamed
  rw [hrenamed₂]
  rcases hnamed with ⟨hfree, rfl, hrenamed⟩ | ⟨htaken, rfl, hfinds⟩
  · rw [hrenamed]
    exact .kept hty hfree .nil
  · exact .renamed hty htaken hfinds .nil

mutual

theorem declaring_item (i : Item) : Declaring i.declarations (item i) := by
  match i with
  | .vars names typeName span =>
    rw [Item.declarations, item]
    split
    · exact .fail
    · next ty hty =>
      rw [← List.flatMap_pure_eq_map]
      exact .forM fun name => declaring_stateVariable hty span name
  | .binding b =>
    rw [Item.declarations, item]
    exact declaring_binder b
  | .init es =>
    rw [Item.declarations, item]
    exact .each declaring_initial
  | .trans es =>
    rw [Item.declarations, item]
    exact .each declaring_transition
  | .property name e span =>
    rw [Item.declarations, item]
    exact declaring_property name e span
  | .block items =>
    rw [Item.declarations, item]
    exact declaring_enter.after fun _ => (declaring_items items).andThen fun _ => declaring_leave

theorem declaring_items (is : List Item) : Declaring (Item.declarationsAll is) (items is) := by
  match is with
  | [] =>
    rw [Item.declarationsAll, items]
    exact .pure _
  | i :: is =>
    rw [Item.declarationsAll, items]
    exact (declaring_item i).bind fun _ => declaring_items is

end

end Build

theorem Script.draft_of_build {s : Script} {built : Built} (h : s.build = .ok built) :
    ∃ d, (Build.script s).run {} = .ok ((), d) ∧ built.system.toSystemData = d.finish s.name ∧
      built.diagnostics =
        d.diagnostics ++ Build.unconstrained built.system.variables built.system.trans := by
  obtain ⟨⟨⟨⟩, d⟩, hrun, h⟩ := except_bind_eq_ok.mp h
  refine ⟨d, hrun, ?_⟩
  dsimp only at h
  split at h
  · next system hsystem =>
    obtain rfl := Except.ok.inj h
    have hdata := TransitionSystem.data_of_ofData hsystem
    exact ⟨hdata, by rw [hdata]⟩
  · cases h

theorem Script.declares_of_build {s : Script} {built : Built} (h : s.build = .ok built) :
    ∃ last, Build.Declares [] 0 s.declarations built.system.variables last := by
  obtain ⟨d, hrun, hsystem, -⟩ := draft_of_build h
  have hscript : Declaring s.declarations (Build.script s) :=
    (Build.declaring_items s.items).andThen fun _ => Build.declaring_reportUnused
  obtain ⟨vs, hvs, hdeclares⟩ := hscript {} () d hrun
  have hvariables : built.system.variables = vs := (congrArg SystemData.variables hsystem).trans hvs
  exact ⟨d.renamed, hvariables ▸ hdeclares⟩

/-- What a build gives is flat: each declared name has a variable of its own, in the order of the
script, and predicates read nothing but these variables, at the steps of their places. -/
theorem Script.builds_flat {s : Script} {built : Built} (h : s.build = .ok built) :
    (∃ last, Build.Declares [] 0 s.declarations built.system.variables last) ∧
    built.system.variables.length = s.declarations.length ∧
    (∀ (i : Nat) (decl : Declaration) (v : Variable), s.declarations[i]? = some decl →
      built.system.variables[i]? = some v → Ty.ofName? decl.typeName = some v.ty ∧
        (v.name = decl.name ↔ decl.name ∉ (built.system.variables.take i).map Variable.name) ∧
        (v.name ≠ decl.name → ∃ n, v.name = Build.candidate decl.name n ∧
          v.name ∉ (built.system.variables.take i).map Variable.name)) ∧
    (built.system.variables.map Variable.name).Nodup ∧
    (∀ taken name n, ∃ m, Build.Finds taken name n m) ∧
    (∀ v ∈ built.system.variables, v.role = .state) ∧
    (∀ r ∈ built.system.init.refs, r.var ∈ built.system.variables ∧ r.step = 0) ∧
    (∀ r ∈ built.system.trans.refs, r.var ∈ built.system.variables ∧ (r.step = 0 ∨ r.step = 1)) ∧
    (∀ entry ∈ built.system.properties, ∀ r ∈ entry.2.refs,
      r.var ∈ built.system.variables ∧ r.step = 0) := by
  obtain ⟨last, hdeclares⟩ := declares_of_build h
  refine ⟨⟨last, hdeclares⟩, hdeclares.length_eq, fun i decl v hdecl hv => ?_,
    built.system.nodup_names, fun taken name n => ⟨_, Build.finds_firstFree taken name n⟩,
    hdeclares.role, built.system.refs_init, built.system.refs_trans, fun entry hentry => ?_⟩
  · obtain ⟨hty, hfresh, hname⟩ := hdeclares.getElem? hdecl hv
    rw [List.nil_append] at hfresh hname
    refine ⟨hty, ⟨fun hkept => hkept ▸ hfresh, fun hfree => ?_⟩, fun hrenamed => ?_⟩
    · exact hname.resolve_right fun htaken => hfree htaken.1
    · obtain ⟨-, n, hn⟩ := hname.resolve_left hrenamed
      exact ⟨n, hn, hfresh⟩
  · exact built.system.refs_of_mem_properties hentry

def crowded : Script where
  items :=
    [.vars ["x", "x#1", "y"] "int" {},
     .block
      [.vars ["x", "y"] "bool" {},
       .init [.name "x" false {}],
       .property "below" (.name "y" false {}) {}],
     .trans [.apply "=" [.name "x" true {}, .name "x#1" false {}] {}]]

theorem crowded_builds_flat : ∃ built, crowded.build = .ok built ∧
    built.system.variables.map Variable.name = ["x", "x#1", "y", "x#2", "y#3"] ∧
    built.system.variables.length = crowded.declarations.length ∧
    ∀ r ∈ built.system.init.refs, r.var ∈ built.system.variables ∧ r.step = 0 := by
  have hnames : (crowded.build.toOption.map fun built => built.system.variables.map Variable.name) =
      some ["x", "x#1", "y", "x#2", "y#3"] := by decide +kernel
  cases hbuild : crowded.build with
  | error e =>
    rw [hbuild] at hnames
    cases hnames
  | ok built =>
    rw [hbuild] at hnames
    obtain ⟨-, hlength, -, -, -, -, hinit, -⟩ := Script.builds_flat hbuild
    exact ⟨built, rfl, Option.some.inj hnames, hlength, hinit⟩

end InvariantProver
