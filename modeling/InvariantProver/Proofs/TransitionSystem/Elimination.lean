import InvariantProver.Proofs.Term.Replacing
import InvariantProver.Proofs.TransitionSystem.Walk

/-!
Looking a name up and replacing placeholders, at every moment of a build. Names are looked up from the
innermost scope outwards, and the terms of placeholders are collected from the outermost scope inwards,
where a later one takes the place of an earlier one. Both have the same binding in the end, even where
several bindings have equal placeholders (`Script.lookup_agrees`).
-/

namespace InvariantProver

/-! ### Moments of a build -/

mutual

/-- The drafts that there are while an expression is built from a draft. A part is begun in the draft
that the parts before it have left. -/
inductive Expr.Meets : Draft → Expr → Draft → Prop
  | start {d : Draft} {e : Expr} : Expr.Meets d e d
  | done {d d' : Draft} {e : Expr} {t : Term} (hrun : (Build.expr e).run d = .ok (t, d')) :
    Expr.Meets d e d'
  | args {d d' : Draft} {symbol : String} {op : Op} {args : List Expr} {span : Span}
    (hop : Op.ofName? symbol = some op) (h : Expr.MeetsAll d args d') :
    Expr.Meets d (.apply symbol args span) d'
  | bindings {d d₁ d' : Draft} {bindings : List Binder} {body : Expr} {span : Span}
    (henter : Build.enter.run d = .ok ((), d₁)) (h : Binder.MeetsAll d₁ bindings d') :
    Expr.Meets d (.letIn bindings body span) d'
  | body {d d₁ d₂ d' : Draft} {bindings : List Binder} {body : Expr} {span : Span}
    (henter : Build.enter.run d = .ok ((), d₁))
    (hbindings : (Build.binders bindings).run d₁ = .ok ((), d₂)) (h : Expr.Meets d₂ body d') :
    Expr.Meets d (.letIn bindings body span) d'

inductive Expr.MeetsAll : Draft → List Expr → Draft → Prop
  | start {d : Draft} {es : List Expr} : Expr.MeetsAll d es d
  | first {d d' : Draft} {e : Expr} {es : List Expr} (h : Expr.Meets d e d') :
    Expr.MeetsAll d (e :: es) d'
  | rest {d d₁ d' : Draft} {e : Expr} {es : List Expr} {t : Term}
    (hrun : (Build.expr e).run d = .ok (t, d₁)) (h : Expr.MeetsAll d₁ es d') :
    Expr.MeetsAll d (e :: es) d'

inductive Binder.Meets : Draft → Binder → Draft → Prop
  | start {d : Draft} {b : Binder} : Binder.Meets d b d
  | done {d d' : Draft} {b : Binder} (hrun : (Build.binder b).run d = .ok ((), d')) :
    Binder.Meets d b d'
  | value {d d' : Draft} {name : String} {value : Expr} {span : Span}
    (hfree : d.scopes.checkUndeclared name = .ok ()) (h : Expr.Meets d value d') :
    Binder.Meets d (.mk name value span) d'

inductive Binder.MeetsAll : Draft → List Binder → Draft → Prop
  | start {d : Draft} {bs : List Binder} : Binder.MeetsAll d bs d
  | first {d d' : Draft} {b : Binder} {bs : List Binder} (h : Binder.Meets d b d') :
    Binder.MeetsAll d (b :: bs) d'
  | rest {d d₁ d' : Draft} {b : Binder} {bs : List Binder}
    (hrun : (Build.binder b).run d = .ok ((), d₁)) (h : Binder.MeetsAll d₁ bs d') :
    Binder.MeetsAll d (b :: bs) d'

end

mutual

inductive Item.Meets : Draft → Item → Draft → Prop
  | start {d : Draft} {i : Item} : Item.Meets d i d
  | done {d d' : Draft} {i : Item} (hrun : (Build.item i).run d = .ok ((), d')) : Item.Meets d i d'
  | vars {d d' : Draft} {before after : List String} {typeName : String} {ty : Ty} {span : Span}
    (hty : Ty.ofName? typeName = some ty)
    (hrun : (before.forM (Build.stateVariable ty span)).run d = .ok ((), d')) :
    Item.Meets d (.vars (before ++ after) typeName span) d'
  | binding {d d' : Draft} {b : Binder} (h : Binder.Meets d b d') : Item.Meets d (.binding b) d'
  | init {d d₁ d' : Draft} {before after : List Expr} {e : Expr}
    (hrun : (before.forM Build.initial).run d = .ok ((), d₁)) (h : Expr.Meets d₁ e d') :
    Item.Meets d (.init (before ++ e :: after)) d'
  | trans {d d₁ d' : Draft} {before after : List Expr} {e : Expr}
    (hrun : (before.forM Build.transition).run d = .ok ((), d₁)) (h : Expr.Meets d₁ e d') :
    Item.Meets d (.trans (before ++ e :: after)) d'
  | property {d d' : Draft} {name : String} {e : Expr} {span : Span}
    (hfree : name ∉ d.properties.keys) (h : Expr.Meets d e d') :
    Item.Meets d (.property name e span) d'
  | block {d d₁ d' : Draft} {items : List Item} (henter : Build.enter.run d = .ok ((), d₁))
    (h : Item.MeetsAll d₁ items d') : Item.Meets d (.block items) d'

inductive Item.MeetsAll : Draft → List Item → Draft → Prop
  | start {d : Draft} {is : List Item} : Item.MeetsAll d is d
  | first {d d' : Draft} {i : Item} {is : List Item} (h : Item.Meets d i d') :
    Item.MeetsAll d (i :: is) d'
  | rest {d d₁ d' : Draft} {i : Item} {is : List Item}
    (hrun : (Build.item i).run d = .ok ((), d₁)) (h : Item.MeetsAll d₁ is d') :
    Item.MeetsAll d (i :: is) d'

end

def Script.Meets (s : Script) (d : Draft) : Prop := Item.MeetsAll {} s.items d

theorem Visits.of_run {α : Type} {sites : List Site} {m : BuildM α} {d d' : Draft} {a : α}
    {done : α → Draft → Prop} (h : Visits sites m d done) (hrun : m.run d = .ok (a, d')) :
    done a d' := by
  unfold Visits at h
  rw [hrun] at h
  exact h.2

def Draft.Settled (d : Draft) : Prop := ∃ ctx, d.Within ctx

theorem within_enter {d d' : Draft} {ctx : Context} (h : d.Within ctx)
    (hrun : Build.enter.run d = .ok ((), d')) : d'.Within ctx ∧ d'.scopes.taken = [] := by
  obtain ⟨-, -, htaken, hwithin⟩ := (visits_enter h).of_run hrun
  exact ⟨hwithin, htaken⟩

mutual

theorem settled_expr (e : Expr) {d d' : Draft} {ctx : Context} (hd : d.Within ctx)
    (h : e.Meets d d') : d'.Settled := by
  match e, h with
  | _, .start => exact ⟨ctx, hd⟩
  | e, .done hrun => exact ⟨ctx, ((visits_expr e hd).of_run hrun).1.within hd⟩
  | .apply _ args _, .args _ h => exact settled_exprs args hd h
  | .letIn bindings _ _, .bindings henter h =>
    exact settled_binders bindings (within_enter hd henter).1 h
  | .letIn bindings body _, .body henter hbindings h =>
    obtain ⟨-, -, hwithin⟩ := (visits_binders bindings (within_enter hd henter).1).of_run hbindings
    exact settled_expr body hwithin h

theorem settled_exprs (es : List Expr) {d d' : Draft} {ctx : Context} (hd : d.Within ctx)
    (h : Expr.MeetsAll d es d') : d'.Settled := by
  match es, h with
  | _, .start => exact ⟨ctx, hd⟩
  | e :: _, .first h => exact settled_expr e hd h
  | e :: es, .rest hrun h =>
    exact settled_exprs es (((visits_expr e hd).of_run hrun).1.within hd) h

theorem settled_binder (b : Binder) {d d' : Draft} {ctx : Context} (hd : d.Within ctx)
    (h : b.Meets d d') : d'.Settled := by
  match b, h with
  | _, .start => exact ⟨ctx, hd⟩
  | b, .done hrun => exact ⟨_, ((visits_binder b hd).of_run hrun).2.2.2⟩
  | .mk _ value _, .value _ h => exact settled_expr value hd h

theorem settled_binders (bs : List Binder) {d d' : Draft} {ctx : Context} (hd : d.Within ctx)
    (h : Binder.MeetsAll d bs d') : d'.Settled := by
  match bs, h with
  | _, .start => exact ⟨ctx, hd⟩
  | b :: _, .first h => exact settled_binder b hd h
  | b :: bs, .rest hrun h =>
    exact settled_binders bs ((visits_binder b hd).of_run hrun).2.2.2 h

end

section

variable {d d' : Draft} {p : Position} {seen : List Site}

theorem Draft.At.settled (h : d.At p seen) : d.Settled := ⟨p.ctx, h.within⟩

mutual

theorem settled_item (i : Item) {d d' : Draft} {p : Position} {seen : List Site} (hd : d.At p seen)
    (h : i.Meets d d') : d'.Settled := by
  match i, h with
  | _, .start => exact hd.settled
  | i, .done hrun => exact ((visits_item i hd).of_run hrun).1.settled
  | .vars _ _ span, .vars _ hrun =>
    exact ((visits_stateVariables hd _ span _).of_run hrun).1.settled
  | .binding b, .binding h => exact settled_binder b hd.within h
  | .init _, .init hrun h =>
    have hbefore := (visits_forM hd fun e _ _ hat => visits_initial hat e).of_run hrun
    exact settled_expr _ hbefore.1.within h
  | .trans _, .trans hrun h =>
    have hbefore := (visits_forM hd fun e _ _ hat => visits_transition hat e).of_run hrun
    exact settled_expr _ hbefore.1.within h
  | .property _ e _, .property _ h => exact settled_expr e hd.within h
  | .block items, .block henter h =>
    obtain ⟨halike, -, htaken, hwithin⟩ := (visits_enter hd.within).of_run henter
    exact settled_items items (hd.moves halike hwithin htaken) h

theorem settled_items (is : List Item) {d d' : Draft} {p : Position} {seen : List Site}
    (hd : d.At p seen) (h : Item.MeetsAll d is d') : d'.Settled := by
  match is, h with
  | _, .start => exact hd.settled
  | i :: _, .first h => exact settled_item i hd h
  | i :: is, .rest hrun h => exact settled_items is ((visits_item i hd).of_run hrun).1 h

end

end

/-! ### One replacement is enough -/

def ScopeStack.Makes (s : ScopeStack) (r : Ref) : Prop :=
  ∃ name b, s.find? name = some b ∧ r.var = b.var

def Term.Closed (t : Term) : Prop := ∀ r ∈ t.refs, r.var.role = .state

theorem mem_visibleLets {s : ScopeStack} {v : Variable} {t : Term} :
    (v, t) ∈ s.visibleLets ↔ Entries.get? v s.visibleLets = some t :=
  ⟨Entries.get?_of_mem (Entries.nodup_keys_ofList _), Entries.mem_of_get?⟩

namespace Scoped

variable {vs : List Variable} {s : ScopeStack} {ctx : Context}

theorem stands_of_find? (h : Scoped vs s.frames ctx) {name : String} {b : Binding}
    (hb : s.find? name = some b) : ∃ named, b.bare.Stands vs (name, named) ∧
      s.newest.find? (·.name = name) = some b.bare := by
  rcases h.find? name with ⟨hnone, -⟩ | ⟨c, named, hc, -, hstands, hnewest⟩
  · rw [hnone] at hb
    cases hb
  · obtain rfl : c = b := Option.some.inj (hc.symm.trans hb)
    exact ⟨named, hstands, hnewest⟩

theorem get?_visibleLets_of_find? (h : Scoped vs s.frames ctx) {name : String} {b : Binding}
    {t : Term} (hb : s.find? name = some b) (ht : b.value = some t) :
    Entries.get? b.var s.visibleLets = some t := by
  obtain ⟨-, -, hnewest⟩ := h.stands_of_find? hb
  rw [get?_visibleLets]
  exact lookup_placeholder (b := b.bare) h.stands hnewest ht

theorem entry (h : Scoped vs s.frames ctx) {v : Variable} {t : Term}
    (hv : Entries.get? v s.visibleLets = some t) : v.role = .binding ∧ t.ty = v.ty ∧ t.Closed := by
  rw [get?_visibleLets] at hv
  obtain ⟨hrole, hty, hlocal⟩ := placeholder_of_stands h.stands hv
  exact ⟨hrole, hty, fun r hr => (hlocal r hr).2.1⟩

theorem role_of_find? (h : Scoped vs s.frames ctx) {name : String} {b : Binding}
    (hb : s.find? name = some b) (hvalue : b.value = none) : b.var.role = .state := by
  obtain ⟨named, ⟨-, hstands⟩, -⟩ := h.stands_of_find? hb
  cases named with
  | state i ty? => exact hstands.2.1
  | binding r =>
    obtain ⟨t, ht, -⟩ := hstands
    rw [show b.value = some t from ht] at hvalue
    cases hvalue

theorem substitute_visibleLets (h : Scoped vs s.frames ctx) (t : Term) :
    t.substitute s.visibleLets = .ok (t.replaceAll s.visibleLets) :=
  Term.substitute_eq_ok (fun _ hmem => (h.entry (mem_visibleLets.mp hmem)).2.1) t

theorem closed_replaceAll (h : Scoped vs s.frames ctx) {t : Term}
    (ht : ∀ r ∈ t.refs, r.var.role = .binding → s.Makes r) : (t.replaceAll s.visibleLets).Closed := by
  intro r hr
  rw [Term.replaceAll, Term.refs_mapRefs, List.mem_flatMap] at hr
  obtain ⟨q, hq, hr⟩ := hr
  rcases (Term.mem_refs_replacement _ q r).mp hr with ⟨hkey, rfl⟩ | ⟨u, hu, p, hp, rfl⟩
  · -- a placeholder that stays would be that of a binding with a value, so it would be replaced
    cases hrole : r.var.role with
    | state => rfl
    | binding =>
      obtain ⟨name, b, hb, hvar⟩ := ht r hq hrole
      cases hvalue : b.value with
      | none => rw [← h.role_of_find? hb hvalue, ← hvar, hrole]
      | some u =>
        have hget := h.get?_visibleLets_of_find? hb hvalue
        rw [← hvar] at hget
        rw [← Entries.get?_eq_none_iff, hget] at hkey
        cases hkey
  · exact (h.entry hu).2.2 p (List.mem_eraseDups.mp hp)

end Scoped

theorem Term.Denotes.closed {vs : List Variable} {t : Term} {r : Meaning} (h : t.Denotes vs r) :
    t.Closed := fun q hq => (h.refs q hq).2.1

/-- Wherever a build is, the replacement for the placeholder of the binding that a name has is the
term of that binding and of no other. It has no placeholder and has the type of the placeholder.
So one replacement removes all placeholders that names in scope can give, and those of every
expression that is built there. -/
theorem Script.lookup_agrees {s : Script} {d : Draft} (h : s.Meets d) :
    (∀ name b t, d.scopes.find? name = some b → b.value = some t →
      (∀ u, (b.var, u) ∈ d.scopes.visibleLets ↔ u = t) ∧ b.var.role = .binding ∧
        t.ty = b.var.ty ∧ t.Closed) ∧
    (∀ t : Term, (∀ r ∈ t.refs, r.var.role = .binding → d.scopes.Makes r) →
      ∃ u, t.substitute d.scopes.visibleLets = .ok u ∧ u.ty = t.ty ∧ u.Closed) ∧
    ∀ e t d', (Build.expr e).run d = .ok (t, d') →
      ∃ u, t.substitute d'.scopes.visibleLets = .ok u ∧ u.ty = t.ty ∧ u.Closed := by
  obtain ⟨ctx, hd⟩ : d.Settled := settled_items s.items Draft.at_start h
  refine ⟨fun name b t hb ht => ?_, fun t ht => ?_, fun e t d' hrun => ?_⟩
  · have hget := hd.get?_visibleLets_of_find? hb ht
    refine ⟨fun u => ?_, hd.entry hget⟩
    rw [mem_visibleLets, hget]
    exact Option.some_inj.trans eq_comm
  · exact ⟨_, hd.substitute_visibleLets t, hd.ty_replaceAll t, hd.closed_replaceAll ht⟩
  · obtain ⟨hsame, hpending⟩ := (visits_expr e hd).of_run hrun
    rw [← hsame.pending] at hpending
    have hd' := hsame.within hd
    exact ⟨_, hd'.substitute_visibleLets t, hd'.ty_replaceAll t, hpending.closed⟩

def renewed : Script where
  items := [.binding (.mk "a" (.literal (.int 1) {}) {}),
    .block [.binding (.mk "a" (.apply "+" [.name "a" false {}, .literal (.int 1) {}] {}) {}),
      .property "p" (.apply "=" [.name "a" false {}, .literal (.int 2) {}] {}) {}]]

def renewedTerm : Term := .app .add [.const (.int 1), .const (.int 1)]

def inRenewed : Draft where
  scopes :=
    { current := [⟨"a", ⟨"a", .int, .binding⟩, some renewedTerm, some {}, false⟩]
      outer := [[⟨"a", ⟨"a", .int, .binding⟩, some (.const (.int 1)), some {}, true⟩]] }

theorem inner_term_replaces : renewed.Meets inRenewed ∧
    (∀ u, (⟨"a", .int, .binding⟩, u) ∈ inRenewed.scopes.visibleLets ↔ u = renewedTerm) ∧
    ∃ u, (Term.ref ⟨⟨"a", .int, .binding⟩, 0⟩).substitute inRenewed.scopes.visibleLets = .ok u ∧
      u.Closed := by
  have hmeets : renewed.Meets inRenewed :=
    .rest rfl (.first (.block rfl (.rest rfl .start)))
  obtain ⟨hlookup, hreplaces, -⟩ := Script.lookup_agrees hmeets
  have hfind : inRenewed.scopes.find? "a" = inRenewed.scopes.current.head? := by decide +kernel
  refine ⟨hmeets, (hlookup "a" _ _ hfind rfl).1, ?_⟩
  obtain ⟨u, hu, -, hclosed⟩ :=
    hreplaces (.ref ⟨⟨"a", .int, .binding⟩, 0⟩) fun r hr _ => ⟨"a", _, hfind, by simp_all [Term.refs]⟩
  exact ⟨u, hu, hclosed⟩

end InvariantProver
