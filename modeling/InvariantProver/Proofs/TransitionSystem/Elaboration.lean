import InvariantProver.Proofs.TransitionSystem.Rules
import InvariantProver.Proofs.TransitionSystem.Scopes

namespace InvariantProver

variable {α β : Type}

def Visits (sites : List Site) (m : BuildM α) (d : Draft) (done : α → Draft → Prop) : Prop :=
  match m.run d with
  | .ok (a, d') => (∀ site ∈ sites, site.Sound) ∧ done a d'
  | .error e => ∃ rule, e.fault.rule? = some rule ∧ ∃ site ∈ sites, site.Breaks rule

namespace Visits

variable {sites sites' : List Site} {m : BuildM α} {f : α → BuildM β} {d : Draft}
  {done : α → Draft → Prop} {done' : β → Draft → Prop}

theorem pure {a : α} (h : done a d) : Visits [] (Pure.pure a) d done := ⟨by simp, h⟩

theorem pure_of_sound {a : α} {site : Site} (hsound : site.Sound) (h : done a d) :
    Visits [site] (Pure.pure a) d done :=
  ⟨by simpa using hsound, h⟩

theorem modify {f : Draft → Draft} {done : PUnit → Draft → Prop} (h : done .unit (f d)) :
    Visits [] (modify f : BuildM PUnit) d done := ⟨by simp, h⟩

theorem fail {fault : BuildFault} {span : Span} {rule : Rule} {site : Site}
    (hrule : fault.rule? = some rule) (hsite : site ∈ sites) (h : site.Breaks rule) :
    Visits sites (Build.fail fault span : BuildM α) d done :=
  ⟨rule, hrule, site, hsite, h⟩

theorem fail_bind {fault : BuildFault} {span : Span} {rule : Rule} {site : Site}
    (hrule : fault.rule? = some rule) (hsite : site ∈ sites) (h : site.Breaks rule) :
    Visits sites (Build.fail fault span >>= f) d done' :=
  ⟨rule, hrule, site, hsite, h⟩

theorem bind (hm : Visits sites m d done) (hf : ∀ a d', done a d' → Visits sites' (f a) d' done') :
    Visits (sites ++ sites') (m >>= f) d done' := by
  have hrun : (m >>= f).run d = m.run d >>= fun p => (f p.1).run p.2 := rfl
  unfold Visits at hm ⊢
  rw [hrun]
  cases hd : m.run d with
  | error e =>
    rw [hd] at hm
    obtain ⟨rule, hrule, site, hsite, hbreaks⟩ := hm
    exact ⟨rule, hrule, site, List.mem_append_left _ hsite, hbreaks⟩
  | ok p =>
    rw [hd] at hm
    have hnext := hf p.1 p.2 hm.2
    unfold Visits at hnext
    rw [except_bind_ok]
    cases hp : (f p.1).run p.2 with
    | error e =>
      rw [hp] at hnext
      obtain ⟨rule, hrule, site, hsite, hbreaks⟩ := hnext
      exact ⟨rule, hrule, site, List.mem_append_right _ hsite, hbreaks⟩
    | ok q =>
      rw [hp] at hnext
      refine ⟨fun site hsite => ?_, hnext.2⟩
      rcases List.mem_append.mp hsite with hsite | hsite
      · exact hm.1 site hsite
      · exact hnext.1 site hsite

theorem cons {site : Site} (hsound : site.Sound) (hm : Visits sites m d done) :
    Visits (site :: sites) m d done := by
  unfold Visits at hm ⊢
  split at hm
  · exact ⟨List.forall_mem_cons.mpr ⟨hsound, hm.1⟩, hm.2⟩
  · obtain ⟨rule, hrule, site, hsite, hbreaks⟩ := hm
    exact ⟨rule, hrule, site, List.mem_cons_of_mem _ hsite, hbreaks⟩

theorem after (hm : Visits [] m d done) (hf : ∀ a d', done a d' → Visits sites (f a) d' done') :
    Visits sites (m >>= f) d done' :=
  hm.bind hf

theorem andThen (hm : Visits sites m d done) (hf : ∀ a d', done a d' → Visits [] (f a) d' done') :
    Visits sites (m >>= f) d done' :=
  List.append_nil sites ▸ hm.bind hf

theorem get {f : Draft → BuildM β} (h : Visits sites (f d) d done') :
    Visits sites (MonadState.get >>= f) d done' := h

theorem mono {done'' : α → Draft → Prop} (hm : Visits sites m d done)
    (h : ∀ a d', done a d' → done'' a d') : Visits sites m d done'' := by
  unfold Visits at hm ⊢
  split at hm
  · exact ⟨hm.1, h _ _ hm.2⟩
  · exact hm

theorem congr (hm : Visits sites m d done) (h : ∀ site, site ∈ sites ↔ site ∈ sites') :
    Visits sites' m d done := by
  unfold Visits at hm ⊢
  split at hm
  · exact ⟨fun site hsite => hm.1 site ((h site).mpr hsite), hm.2⟩
  · obtain ⟨rule, hrule, site, hsite, hbreaks⟩ := hm
    exact ⟨rule, hrule, site, (h site).mp hsite, hbreaks⟩

end Visits

namespace Draft

def Alike (d d' : Draft) : Prop :=
  ∃ scopes diagnostics renamed, d' = { d with scopes, diagnostics, renamed }

theorem Alike.refl (d : Draft) : d.Alike d := ⟨_, _, _, rfl⟩

theorem Alike.trans {d d' d'' : Draft} (h : d.Alike d') (h' : d'.Alike d'') : d.Alike d'' := by
  obtain ⟨_, _, _, rfl⟩ := h
  obtain ⟨_, _, _, rfl⟩ := h'
  exact ⟨_, _, _, rfl⟩

theorem Alike.variables_eq {d d' : Draft} (h : d.Alike d') : d'.variables = d.variables := by
  obtain ⟨_, _, _, rfl⟩ := h
  rfl

def Pending (d : Draft) (t : Term) (r : Meaning) : Prop :=
  (t.replaceAll d.scopes.visibleLets).Denotes d.variables r

def Same (d d' : Draft) : Prop := d.Alike d' ∧ d'.scopes.frames = d.scopes.frames

abbrev Within (d : Draft) (ctx : Context) : Prop := Scoped d.variables d.scopes.frames ctx

section

variable {d d' d'' : Draft} {ctx : Context}

theorem Same.refl (d : Draft) : d.Same d := ⟨.refl d, rfl⟩

theorem Same.trans (h : d.Same d') (h' : d'.Same d'') : d.Same d'' :=
  ⟨h.1.trans h'.1, h'.2.trans h.2⟩

theorem Same.within (h : d.Same d') (hctx : d.Within ctx) : d'.Within ctx := by
  unfold Within at hctx ⊢
  rwa [h.1.variables_eq, h.2]

theorem Same.pending (h : d.Same d') : d'.Pending = d.Pending := by
  funext t r
  rw [Pending, Pending, h.1.variables_eq, replaceAll_visibleLets h.2]

end

end Draft

theorem visits_checked {ε : Type} {fault : ε → BuildFault} {span : Span} {x : Except ε α} {d : Draft}
    {site : Site} {rule : Rule} {done : α → Draft → Prop} (hrule : ∀ e, (fault e).rule? = some rule)
    (hok : ∀ a, x = .ok a → site.Sound ∧ done a d) (herror : ∀ e, x = .error e → site.Breaks rule) :
    Visits [site] (Build.checked fault span x) d done := by
  cases x with
  | ok a => exact .pure_of_sound (hok a rfl).1 (hok a rfl).2
  | error e => exact .fail (hrule e) (by simp) (herror e rfl)

theorem sound_declaration {taken : List String} {name : String} (h : name ∉ taken) :
    (Site.declaration taken name).Sound := by
  rintro _ ⟨⟩
  contradiction

section

variable {d : Draft} {ctx : Context}

theorem visits_checkUndeclared (name : String) (span : Span) (d : Draft) :
    Visits [.declaration d.scopes.taken name] (Build.checkUndeclared name span) d
      fun _ d' => d = d' ∧ name ∉ d.scopes.taken := by
  refine .get (visits_checked (fun _ => rfl) (fun _ hok => ?_) fun e herror => ?_)
  · have hfresh : name ∉ d.scopes.taken := by
      intro htaken
      obtain ⟨e, he⟩ := ScopeStack.checkUndeclared_of_taken htaken
      rw [he] at hok
      cases hok
    exact ⟨sound_declaration hfresh, rfl, hfresh⟩
  · by_cases htaken : name ∈ d.scopes.taken
    · exact .declaration htaken
    · rw [ScopeStack.checkUndeclared_of_not_taken htaken] at herror
      cases herror

theorem visits_declare {b : Binding} (hfresh : b.name ∉ d.scopes.taken) (span : Span) :
    Visits [] (Build.declare b span) d fun _ d' =>
      d' = { d with scopes := { d.scopes with current := d.scopes.current ++ [b] } } := by
  refine .get ?_
  rw [declare_of_not_taken hfresh]
  exact .modify rfl

theorem visits_closed (t : Term) (d : Draft) :
    Visits [] (Build.closed t) d fun u d' => d = d' ∧ u = t.replaceAll d.scopes.visibleLets :=
  .get (.pure ⟨rfl, rfl⟩)

theorem visits_enter (h : d.Within ctx) :
    Visits [] Build.enter d fun _ d' => d.Alike d' ∧ d'.scopes.frames.tail = d.scopes.frames ∧
      d'.scopes.taken = [] ∧ d'.Within ctx :=
  .modify ⟨⟨_, _, _, rfl⟩, rfl, rfl, h.push⟩

theorem visits_leave {frames : List Scope} (hne : frames ≠ []) (hd : d.scopes.frames.tail = frames) :
    Visits [] Build.leave d fun _ d' => d.Alike d' ∧ d'.scopes.frames = frames := by
  have hreport : Visits [] Build.reportUnused d fun _ d' => d.Alike d' ∧ d'.scopes = d.scopes :=
    .modify ⟨⟨_, _, _, rfl⟩, rfl⟩
  refine hreport.andThen fun _ d' ⟨halike, hscopes⟩ => .modify ⟨halike.trans ⟨_, _, _, rfl⟩, ?_⟩
  rw [← hscopes] at hd
  exact (ScopeStack.frames_pop (hd ▸ hne)).trans hd

theorem Binding.Stands.isLet {vs : List Variable} {b : Binding} {name : String} {named : Named}
    (h : b.bare.Stands vs (name, named)) : b.isLet = false ↔ ∃ i ty?, named = .state i ty? := by
  cases named with
  | state i ty? =>
    have hvalue : b.value = none := h.2.1
    simp [Binding.isLet, hvalue]
  | binding r =>
    obtain ⟨-, t, hvalue, -⟩ := h
    have hlet : b.isLet = true := Option.isSome_of_eq_some hvalue
    simp [hlet]

theorem visits_resolve (h : d.Within ctx) (ident : String) (next : Bool) (span : Span) :
    Visits [.name next (ctx.lookup ident)] (Build.resolve ident next span) d fun t d' =>
      d.Same d' ∧ d.Pending t (.name next (ctx.lookup ident)) := by
  refine .get ?_
  rcases h.find? ident with ⟨hnone, hlookup⟩ | ⟨b, named, hfind, hlookup, hstands, hnewest⟩
  · rw [hnone, hlookup]
    cases next with
    | false => exact .fail rfl List.mem_cons_self .unreached
    | true => exact .fail rfl List.mem_cons_self (.nextForm (by simp))
  · rw [hfind, hlookup]
    dsimp only
    split
    · next hlet =>
      obtain ⟨rfl, hlet⟩ : next = true ∧ b.isLet = true := by simpa using hlet
      refine .fail rfl List.mem_cons_self (.nextForm fun i ty? hnamed => ?_)
      rw [hstands.isLet.mpr ⟨i, ty?, Option.some.inj hnamed⟩] at hlet
      cases hlet
    · next hlet =>
      have hnext : (next && b.isLet) = false := by simpa using hlet
      have hsound : (Site.name next (some named)).Sound := by
        rintro _ ⟨⟩
        next hforms =>
          obtain ⟨i, ty?, rfl⟩ := hstands.isLet.mp (by simpa using hnext)
          exact hforms i ty? rfl
      refine ⟨by simpa using hsound, ⟨⟨_, _, _, rfl⟩, ScopeStack.frames_markUsed _ _⟩, ?_⟩
      exact h.denotes_name hstands hnewest hnext

theorem visits_operands (h : d.Within ctx) {symbol : String} {op : Op}
    (hop : Op.ofName? symbol = some op) {ts : List Term} {rs : List Meaning}
    (hargs : List.Forall₂ d.Pending ts rs) (span : Span) :
    Visits [.apply symbol rs] (Build.checked (.operands symbol) span (Term.apply op ts)) d
      fun t d' => d = d' ∧ d.Pending t (.apply (some op) rs) := by
  have htys : rs.map Meaning.ty? = (ts.map Term.ty).map some := by
    rw [List.map_map]
    refine (map_eq_of_forall₂ hargs fun t r _ ht => ?_).symm
    rw [ht.ty, h.ty_replaceAll]
    rfl
  refine visits_checked (fun _ => rfl) (fun t ht => ?_) fun e he => ?_
  · obtain ⟨ty, hty, hsimplified⟩ := except_bind_eq_ok.mp ht
    have htakes := Op.typeCheck_eq_ok.mp hty
    refine ⟨?_, rfl, ?_⟩
    · rintro _ ⟨⟩
      · simp_all
      · next hnone hop' htys' =>
        obtain rfl := Option.some.inj (hop.symm.trans hop')
        obtain rfl := List.map_injective_iff.mpr (fun _ _ => Option.some.inj) (htys.symm.trans htys')
        exact hnone ty htakes
    · rw [← Except.ok.inj hsimplified]
      exact h.denotes_simplified htakes hargs
  · refine .operands hop htys fun ty hty => ?_
    rw [Term.apply, Op.typeCheck_eq_ok.mpr hty] at he
    cases he

theorem visits_literal (h : d.Within ctx) (l : Literal) (span : Span) :
    Visits [.literal l] (Build.checked .literal span l.term) d fun t d' =>
      d = d' ∧ d.Pending t (.literal l) := by
  refine visits_checked (fun _ => rfl) (fun t ht => ?_) fun e he => .literal fun hvalue => ?_
  · rcases l.term_cases with ⟨hvalue, value, hscalar, hterm⟩ | ⟨-, e, he⟩
    · obtain rfl := Except.ok.inj (hterm.symm.trans ht)
      have hdenotes : (Term.const value).Denotes d.variables (.literal l) := by
        rw [Meaning.literal, hscalar]
        exact Term.denotes_const value
      refine ⟨?_, rfl, ?_⟩
      · rintro _ ⟨⟩
        contradiction
      · rwa [Draft.Pending, h.replaceAll_of_local hdenotes.refs]
    · rw [he] at ht
      cases ht
  · rcases l.term_cases with ⟨-, value, -, hterm⟩ | ⟨hno, -⟩
    · rw [hterm] at he
      cases he
    · exact hno hvalue

end

/-! ### Expressions and bindings -/

mutual

theorem visits_expr (e : Expr) {d : Draft} {ctx : Context} (h : d.Within ctx) :
    Visits (e.sites ctx) (Build.expr e) d fun t d' => d.Same d' ∧ d.Pending t (e.meaning ctx) := by
  match e with
  | .literal l span =>
    rw [Expr.sites, Expr.meaning, Build.expr]
    refine (visits_literal h l span).mono ?_
    rintro t _ ⟨rfl, ht⟩
    exact ⟨.refl _, ht⟩
  | .name ident next span =>
    rw [Expr.sites, Expr.meaning, Build.expr]
    exact visits_resolve h ident next span
  | .apply symbol args span =>
    rw [Expr.sites, Expr.meaning, Build.expr]
    cases hop : Op.ofName? symbol with
    | none => exact .fail rfl List.mem_cons_self (.operator hop)
    | some op =>
      -- the operator is looked up before its operands are visited, but checked after them
      have hsites : ∀ site, site ∈ Expr.sitesAll ctx args ++ [.apply symbol (Expr.meanings ctx args)] ↔
          site ∈ .apply symbol (Expr.meanings ctx args) :: Expr.sitesAll ctx args := by simp [or_comm]
      refine .congr ((visits_exprs args h).bind fun ts d' ⟨hsame, hargs⟩ => ?_) hsites
      rw [← hsame.pending] at hargs
      refine (visits_operands (hsame.within h) hop hargs span).mono ?_
      rintro t _ ⟨rfl, ht⟩
      exact ⟨hsame, hsame.pending ▸ ht⟩
  | .letIn bindings body span =>
    rw [Expr.sites, Expr.meaning, Build.expr]
    refine (visits_enter h).after fun _ d₁ ⟨halike₁, htail, htaken, hinner⟩ => ?_
    refine (htaken ▸ visits_binders bindings hinner).bind fun _ d₂ ⟨halike₂, htail₂, hwithin₂⟩ => ?_
    refine (visits_expr body hwithin₂).andThen fun t d₃ ⟨hsame, ht⟩ => ?_
    refine (visits_closed t d₃).andThen ?_
    rintro u _ ⟨rfl, rfl⟩
    rw [← hsame.pending] at ht
    have halike := (halike₁.trans halike₂).trans hsame.1
    have hframes : d₃.scopes.frames.tail = d.scopes.frames := by rw [hsame.2, htail₂, htail]
    refine (visits_leave (by simp [ScopeStack.frames, ScopeStack.scopes]) hframes).andThen ?_
    refine fun _ d₄ ⟨halike₄, hframes₄⟩ => .pure ⟨⟨halike.trans halike₄, hframes₄⟩, ?_⟩
    -- the bindings give way to their terms while their scope is open, so nothing is left to look up
    have hdenotes : (t.replaceAll d₃.scopes.visibleLets).Denotes d.variables
        (body.meaning (Binder.extendAll ctx bindings)) := by
      rwa [← halike.variables_eq]
    rwa [Draft.Pending, h.replaceAll_of_local hdenotes.refs]

theorem visits_exprs (es : List Expr) {d : Draft} {ctx : Context} (h : d.Within ctx) :
    Visits (Expr.sitesAll ctx es) (Build.exprs es) d fun ts d' =>
      d.Same d' ∧ List.Forall₂ d.Pending ts (Expr.meanings ctx es) := by
  match es with
  | [] =>
    rw [Expr.sitesAll, Expr.meanings, Build.exprs]
    exact .pure ⟨.refl d, .nil⟩
  | e :: es =>
    rw [Expr.sitesAll, Expr.meanings, Build.exprs]
    refine (visits_expr e h).bind fun t d' ⟨hsame, ht⟩ => ?_
    refine (visits_exprs es (hsame.within h)).andThen fun ts d'' ⟨hsame', hts⟩ => .pure ?_
    exact ⟨hsame.trans hsame', .cons ht (hsame.pending ▸ hts)⟩

theorem visits_binder (b : Binder) {d : Draft} {ctx : Context} (h : d.Within ctx) :
    Visits (b.sites ctx d.scopes.taken) (Build.binder b) d fun _ d' =>
      d.Alike d' ∧ d'.scopes.frames.tail = d.scopes.frames.tail ∧
        d'.scopes.taken = b.name :: d.scopes.taken ∧ d'.Within (b.extend ctx) := by
  match b with
  | .mk name value span =>
    rw [Binder.sites, Binder.extend, Build.binder]
    refine (visits_checkUndeclared name span d).bind ?_
    rintro - _ ⟨rfl, hfresh⟩
    refine (visits_expr value h).andThen fun t d' ⟨hsame, ht⟩ => ?_
    refine (visits_closed t d').andThen ?_
    rintro u _ ⟨rfl, rfl⟩
    have hvalue : (t.replaceAll d'.scopes.visibleLets).Denotes d'.variables (value.meaning ctx) := by
      rwa [← hsame.pending] at ht
    have hfresh' : name ∉ d'.scopes.taken := by rwa [ScopeStack.taken_of_frames hsame.2]
    refine (visits_declare hfresh' span).mono ?_
    rintro - _ rfl
    have htail : d'.scopes.frames.tail = d.scopes.frames.tail := congrArg List.tail hsame.2
    refine ⟨hsame.1.trans ⟨_, _, _, rfl⟩, htail, ?_, ?_⟩
    · rw [← ScopeStack.taken_of_frames hsame.2]
      simp [ScopeStack.taken, Binder.name]
    · exact (hsame.within h).declare hfresh' ⟨rfl, _, rfl, rfl, hvalue⟩

theorem visits_binders (bs : List Binder) {d : Draft} {ctx : Context} (h : d.Within ctx) :
    Visits (Binder.sitesAll ctx d.scopes.taken bs) (Build.binders bs) d fun _ d' =>
      d.Alike d' ∧ d'.scopes.frames.tail = d.scopes.frames.tail ∧
        d'.Within (Binder.extendAll ctx bs) := by
  match bs with
  | [] =>
    rw [Binder.sitesAll, Binder.extendAll, Build.binders]
    exact .pure ⟨.refl d, rfl, h⟩
  | b :: bs =>
    rw [Binder.sitesAll, Binder.extendAll, Build.binders]
    refine (visits_binder b h).bind fun _ d' ⟨halike, htail, htaken, hwithin⟩ => ?_
    rw [← htaken]
    refine (visits_binders bs hwithin).mono fun _ d'' ⟨halike', htail', hwithin'⟩ => ?_
    exact ⟨halike.trans halike', htail'.trans htail, hwithin'⟩

end

end InvariantProver
