import InvariantProver.Proofs.Data.Pairs
import InvariantProver.Proofs.TransitionSystem.Denotation

/-!
Scopes of a build and the context that a reader of the script has at the same place. A binding
stands for a name of the context; a reference to the newest binding of a name is replaced by the
term of that binding, whatever older bindings have the same name.
-/

namespace InvariantProver

namespace Entries

theorem get?_foldl_put_eq {κ α : Type} [DecidableEq κ] (key : κ) (pairs : List (κ × α))
    (entries : Entries κ α) :
    get? key (pairs.foldl (fun entries (k, v) => put k v entries) entries) =
      (pairs.reverse.lookup key).or (get? key entries) := by
  induction pairs generalizing entries with
  | nil => rfl
  | cons pair pairs ih =>
    obtain ⟨k, v⟩ := pair
    rw [List.foldl_cons, ih, get?_put, List.reverse_cons, List.lookup_append]
    by_cases hkey : k = key
    · subst hkey
      simp
    · have hne : (key == k) = false := by simpa using fun h => hkey h.symm
      simp [List.lookup_cons, hkey, hne]

theorem get?_ofList {κ α : Type} [DecidableEq κ] (key : κ) (pairs : List (κ × α)) :
    get? key (ofList pairs) = pairs.reverse.lookup key := by
  rw [ofList, get?_foldl_put_eq]
  simp [get?]

end Entries

def Binding.bare (b : Binding) : Binding := { b with span := none, used := false }

namespace ScopeStack

def frames (s : ScopeStack) : List Scope := s.scopes.map fun scope => scope.map Binding.bare

def newest (s : ScopeStack) : List Binding := s.frames.flatMap List.reverse

end ScopeStack

def Binding.placeholder? (b : Binding) : Option (Variable × Term) := b.value.map (b.var, ·)

def Binding.Stands (vs : List Variable) (b : Binding) (entry : String × Named) : Prop :=
  b.name = entry.1 ∧
    match entry.2 with
    | .state i ty? =>
      b.value = none ∧ b.var.role = .state ∧ vs[i]? = some b.var ∧ ty? = some b.var.ty
    | .binding r => ∃ t, b.value = some t ∧ b.var = ⟨b.name, t.ty, .binding⟩ ∧ t.Denotes vs r

structure Scoped (vs : List Variable) (frames : List Scope) (ctx : Context) : Prop where
  stands : List.Forall₂ (Binding.Stands vs) (frames.flatMap List.reverse) ctx
  names : ∀ frame ∈ frames, (frame.map Binding.name).Nodup

section

variable {vs : List Variable}

theorem Binding.Stands.append {b : Binding} {entry : String × Named} (h : b.Stands vs entry)
    (ws : List Variable) : b.Stands (vs ++ ws) entry := by
  obtain ⟨hname, h⟩ := h
  refine ⟨hname, ?_⟩
  obtain ⟨name, named⟩ := entry
  cases named with
  | state i ty? =>
    obtain ⟨hvalue, hrole, hvar, hty⟩ := h
    refine ⟨hvalue, hrole, ?_, hty⟩
    obtain ⟨hlt, -⟩ := List.getElem?_eq_some_iff.mp hvar
    rwa [List.getElem?_append_left hlt]
  | binding r =>
    obtain ⟨t, hvalue, hvar, hdenotes⟩ := h
    exact ⟨t, hvalue, hvar, hdenotes.append ws⟩

theorem Scoped.append {frames : List Scope} {ctx : Context} (h : Scoped vs frames ctx)
    (ws : List Variable) : Scoped (vs ++ ws) frames ctx :=
  ⟨h.stands.imp fun _ _ hb => hb.append ws, h.names⟩

/-! ### Looking up names -/

theorem lookup_of_stands {bs : List Binding} {ctx : Context}
    (h : List.Forall₂ (Binding.Stands vs) bs ctx) (name : String) :
    (bs.find? (·.name = name) = none ∧ ctx.lookup name = none) ∨
      ∃ b named, bs.find? (·.name = name) = some b ∧ ctx.lookup name = some named ∧
        b.Stands vs (name, named) := by
  induction h with
  | nil => exact .inl ⟨rfl, rfl⟩
  | @cons b entry bs ctx hb _ ih =>
    obtain ⟨n, named⟩ := entry
    obtain rfl : b.name = n := hb.1
    by_cases hname : b.name = name
    · subst hname
      exact .inr ⟨b, named, by simp, by simp, hb⟩
    · have hne : (name == b.name) = false := by simpa using fun h => hname h.symm
      simpa [List.lookup_cons, hname, hne] using ih

theorem find?_reverse_of_nodup {scope : Scope} (h : (scope.map Binding.name).Nodup) (name : String) :
    List.find? (·.name = name) scope.reverse = scope.find? name := by
  unfold Scope.find?
  induction scope with
  | nil => rfl
  | cons b scope ih =>
    obtain ⟨hfresh, hnodup⟩ := List.nodup_cons.mp h
    rw [List.reverse_cons, List.find?_append, ih hnodup]
    by_cases hname : b.name = name
    · subst hname
      have hnone : List.find? (·.name = b.name) scope = none := by
        rw [List.find?_eq_none]
        intro c hc
        simpa using fun he : c.name = b.name => hfresh (List.mem_map.mpr ⟨c, hc, he⟩)
      simp [hnone]
    · simp [hname]

theorem find?_bare (s : ScopeStack) (name : String) :
    (s.find? name).map Binding.bare = s.frames.findSome? (Scope.find? · name) := by
  unfold ScopeStack.find? ScopeStack.frames
  induction s.scopes with
  | nil => rfl
  | cons scope scopes ih =>
    have hfirst : Scope.find? (scope.map Binding.bare) name =
        (scope.find? name).map Binding.bare := by
      unfold Scope.find?
      rw [List.find?_map]
      rfl
    rw [List.map_cons, List.findSome?_cons, List.findSome?_cons, hfirst]
    cases scope.find? name with
    | none => exact ih
    | some b => rfl

theorem find?_newest {frames : List Scope} (h : ∀ frame ∈ frames, (frame.map Binding.name).Nodup)
    (name : String) :
    (frames.flatMap List.reverse).find? (·.name = name) = frames.findSome? (Scope.find? · name) := by
  rw [List.find?_flatMap]
  induction frames with
  | nil => rfl
  | cons frame frames ih =>
    rw [List.findSome?_cons, List.findSome?_cons, find?_reverse_of_nodup (h frame (by simp)),
      ih fun f hf => h f (List.mem_cons_of_mem _ hf)]

theorem Scoped.find? {s : ScopeStack} {ctx : Context} (h : Scoped vs s.frames ctx)
    (name : String) :
    (s.find? name = none ∧ ctx.lookup name = none) ∨
      ∃ b named, s.find? name = some b ∧ ctx.lookup name = some named ∧
        b.bare.Stands vs (name, named) ∧ s.newest.find? (·.name = name) = some b.bare := by
  have hfind : (s.find? name).map Binding.bare = s.newest.find? (·.name = name) := by
    rw [find?_bare, ScopeStack.newest, find?_newest h.names]
  rcases lookup_of_stands h.stands name with ⟨hnone, hlookup⟩ | ⟨b, named, hsome, hlookup, hb⟩
  · refine .inl ⟨?_, hlookup⟩
    rw [ScopeStack.newest, hnone] at hfind
    exact Option.map_eq_none_iff.mp hfind
  · rw [ScopeStack.newest, hsome] at hfind
    obtain ⟨b', hb', rfl⟩ := Option.map_eq_some_iff.mp hfind
    exact .inr ⟨b', named, hb', hlookup, hb, hsome⟩

/-! ### Replacing placeholders -/

theorem get?_visibleLets (s : ScopeStack) (v : Variable) :
    Entries.get? v s.visibleLets = (s.newest.filterMap Binding.placeholder?).lookup v := by
  have hnewest : s.newest = (s.scopes.flatMap List.reverse).map Binding.bare := by
    simp [ScopeStack.newest, ScopeStack.frames, List.flatMap_map, List.map_flatMap]
  have hbare : Binding.placeholder? ∘ Binding.bare = Binding.placeholder? := rfl
  rw [ScopeStack.visibleLets, Entries.get?_ofList, hnewest, List.filterMap_map, hbare,
    ← List.filterMap_reverse, List.reverse_flatten]
  simp [List.flatMap_def]
  rfl

theorem mem_of_lookup {κ α : Type} [DecidableEq κ] {key : κ} {value : α} {pairs : List (κ × α)}
    (h : pairs.lookup key = some value) : (key, value) ∈ pairs := by
  obtain ⟨before, after, rfl, -⟩ := List.lookup_eq_some_iff.mp h
  simp

theorem Binding.Stands.placeholder {b : Binding} {entry : String × Named} (h : b.Stands vs entry)
    {t : Term} (ht : b.value = some t) : b.var = ⟨b.name, t.ty, .binding⟩ ∧ ∃ r, t.Denotes vs r := by
  obtain ⟨name, state | r⟩ := entry
  · obtain ⟨-, hnone, -⟩ := h
    rw [hnone] at ht
    cases ht
  · obtain ⟨-, u, hu, hvar, hdenotes⟩ := h
    obtain rfl : u = t := Option.some.inj (hu.symm.trans ht)
    exact ⟨hvar, r, hdenotes⟩

theorem placeholder_of_stands {bs : List Binding} {ctx : Context}
    (h : List.Forall₂ (Binding.Stands vs) bs ctx) {v : Variable} {t : Term}
    (hv : (bs.filterMap Binding.placeholder?).lookup v = some t) :
    v.role = .binding ∧ t.ty = v.ty ∧ t.Local vs := by
  obtain ⟨b, hb, hplaceholder⟩ := List.mem_filterMap.mp (mem_of_lookup hv)
  obtain ⟨u, hu, hpair⟩ := Option.map_eq_some_iff.mp hplaceholder
  obtain ⟨rfl, rfl⟩ := Prod.mk.inj hpair
  obtain ⟨entry, -, hstands⟩ := exists_of_forall₂ h hb
  obtain ⟨hvar, r, hdenotes⟩ := hstands.placeholder hu
  rw [hvar]
  exact ⟨rfl, rfl, hdenotes.refs⟩

theorem lookup_placeholder {bs : List Binding} {ctx : Context}
    (h : List.Forall₂ (Binding.Stands vs) bs ctx) {b : Binding} {name : String} {t : Term}
    (hb : bs.find? (·.name = name) = some b) (ht : b.value = some t) :
    (bs.filterMap Binding.placeholder?).lookup b.var = some t := by
  have hname : b.name = name := by simpa using List.find?_some hb
  have hvar : b.var = ⟨name, t.ty, .binding⟩ := by
    obtain ⟨entry, -, hstands⟩ := exists_of_forall₂ h (List.mem_of_find?_eq_some hb)
    rw [(hstands.placeholder ht).1, hname]
  induction h with
  | nil => cases hb
  | @cons first entry bs ctx hfirst hrest ih =>
    by_cases hn : first.name = name
    · obtain rfl : first = b := by simpa [hn] using hb
      simp [Binding.placeholder?, ht]
    · have hlater := ih (by simpa [hn] using hb)
      cases hvalue : first.value with
      | none => simpa [Binding.placeholder?, hvalue] using hlater
      | some u =>
        have hne : (b.var == first.var) = false := by
          rw [(hfirst.placeholder hvalue).1, hvar]
          simpa using fun he : name = first.name => absurd he.symm hn
        simpa [Binding.placeholder?, hvalue, List.lookup_cons, hne] using hlater

section

variable {s : ScopeStack} {ctx : Context}

theorem replaceAll_visibleLets {s' : ScopeStack} (h : s.frames = s'.frames) (t : Term) :
    t.replaceAll s.visibleLets = t.replaceAll s'.visibleLets := by
  have hreplacement : Term.replacement s.visibleLets = Term.replacement s'.visibleLets := by
    funext r
    simp only [Term.replacement, get?_visibleLets, ScopeStack.newest, h]
  rw [Term.replaceAll, Term.replaceAll, hreplacement]

theorem Scoped.ty_replaceAll (h : Scoped vs s.frames ctx) (t : Term) :
    (t.replaceAll s.visibleLets).ty = t.ty := by
  refine Term.ty_replaceAll (fun v u hv => ?_) t
  rw [get?_visibleLets] at hv
  exact (placeholder_of_stands h.stands hv).2.1

theorem Scoped.replaceAll_of_local (h : Scoped vs s.frames ctx) {t : Term} (ht : t.Local vs) :
    t.replaceAll s.visibleLets = t := by
  refine Term.mapRefs_eq_self fun r hr => ?_
  have hnone : Entries.get? r.var s.visibleLets = none := by
    rw [get?_visibleLets, Option.eq_none_iff_forall_ne_some]
    intro u hu
    have hbinding := (placeholder_of_stands h.stands hu).1
    rw [(ht r hr).2.1] at hbinding
    cases hbinding
  rw [Term.replacement, hnone]

theorem Scoped.denotes_name (h : Scoped vs s.frames ctx) {name : String} {b : Binding} {named : Named}
    {next : Bool} (hstands : b.bare.Stands vs (name, named))
    (hnewest : s.newest.find? (·.name = name) = some b.bare) (hnext : (next && b.isLet) = false) :
    ((Term.ref ⟨b.var, if next then 1 else 0⟩).replaceAll s.visibleLets).Denotes vs
      (.name next (some named)) := by
  cases named with
  | state i ty? =>
    obtain ⟨-, -, hrole, hvar, rfl⟩ := hstands
    have hdenotes := Term.denotes_ref hvar hrole next
    change Term.Denotes vs ((Term.ref ⟨b.bare.var, _⟩).replaceAll s.visibleLets) _
    rwa [h.replaceAll_of_local hdenotes.refs]
  | binding r =>
    obtain ⟨-, t, hvalue, -, hdenotes⟩ := hstands
    have hlet : b.isLet = true := Option.isSome_of_eq_some hvalue
    obtain rfl : next = false := by simpa [hlet] using hnext
    have hget : Entries.get? b.var s.visibleLets = some t := by
      rw [get?_visibleLets]
      exact lookup_placeholder (b := b.bare) h.stands hnewest hvalue
    have hterm : (Term.ref ⟨b.var, 0⟩).replaceAll s.visibleLets = t := by
      simp [Term.replaceAll, Term.mapRefs, Term.replacement, hget, Term.reindex_zero]
    exact hterm ▸ hdenotes

/-- Simplification before the replacement of placeholders may differ from simplification after it,
but not in meaning. -/
theorem Scoped.denotes_simplified (h : Scoped vs s.frames ctx) {op : Op} {ts : List Term}
    {rs : List Meaning} {t : Ty} (htakes : op.Takes (ts.map Term.ty) t)
    (hargs : List.Forall₂ (fun t r => (t.replaceAll s.visibleLets).Denotes vs r) ts rs) :
    ((Term.simplified op ts).replaceAll s.visibleLets).Denotes vs (.apply (some op) rs) := by
  have htys : (ts.map (Term.replaceAll s.visibleLets)).map Term.ty = ts.map Term.ty := by
    rw [List.map_map]
    exact List.map_congr_left fun t _ => h.ty_replaceAll t
  rw [← htys] at htakes
  have happ := Term.denotes_app (List.forall₂_map_left_iff.mpr hargs) htakes
  have hsimplified := Term.denotes_simplified happ htakes
  rcases Term.simplified_cases op ts with ⟨heq, -⟩ | ⟨value, rfl, rfl, heq⟩ | ⟨u, hop, rfl, heq⟩
  · rw [heq]
    rwa [Term.replaceAll, Term.mapRefs_app]
  · rw [heq]
    simpa [Term.replaceAll, Term.mapRefs, Term.simplified] using hsimplified
  · rw [heq]
    rcases hop with rfl | rfl | rfl <;> exact hsimplified

end

/-! ### Opening scopes and declaring names -/

namespace ScopeStack

def taken (s : ScopeStack) : List String := (s.current.map Binding.name).reverse

theorem taken_of_frames {s s' : ScopeStack} (h : s.frames = s'.frames) : s.taken = s'.taken := by
  have hcurrent : s.current.map Binding.bare = s'.current.map Binding.bare := (List.cons.inj h).1
  have hnames : ∀ scope : Scope, scope.map Binding.name = (scope.map Binding.bare).map Binding.name :=
    fun scope => by rw [List.map_map]; rfl
  rw [taken, taken, hnames, hcurrent, ← hnames]

theorem mem_taken {s : ScopeStack} {name : String} :
    name ∈ s.taken ↔ ∃ b ∈ s.current, b.name = name := by
  simp [taken]

theorem checkUndeclared_of_taken {s : ScopeStack} {name : String} (h : name ∈ s.taken) :
    ∃ e, s.checkUndeclared name = .error e := by
  obtain ⟨b, hb, hname⟩ := mem_taken.mp h
  have hfind : (s.current.find? name).isSome := by
    rw [Scope.find?, List.find?_isSome]
    exact ⟨b, hb, by simpa using hname⟩
  obtain ⟨c, hc⟩ := Option.isSome_iff_exists.mp hfind
  exact ⟨⟨name, c.span⟩, by rw [checkUndeclared, hc]⟩

theorem checkUndeclared_of_not_taken {s : ScopeStack} {name : String} (h : name ∉ s.taken) :
    s.checkUndeclared name = .ok () := by
  have hnone : s.current.find? name = none := by
    rw [Scope.find?, List.find?_eq_none]
    intro b hb
    simpa using fun hname : b.name = name => h (mem_taken.mpr ⟨b, hb, hname⟩)
  rw [checkUndeclared, hnone]

theorem bare_markUsed (scope : Scope) (name : String) :
    (scope.markUsed name).map Binding.bare = scope.map Binding.bare := by
  rw [Scope.markUsed, List.map_map]
  refine List.map_congr_left fun b _ => ?_
  rw [Function.comp_apply]
  split <;> rfl

theorem bare_markIn (name : String) (scopes : List Scope) :
    (markIn name scopes).map (List.map Binding.bare) = scopes.map (List.map Binding.bare) := by
  induction scopes with
  | nil => rfl
  | cons scope rest ih =>
    unfold markIn
    split
    · rw [List.map_cons, List.map_cons, bare_markUsed]
    · rw [List.map_cons, List.map_cons, ih]

theorem frames_pop {s : ScopeStack} (h : s.frames.tail ≠ []) :
    ((s.pop?.map Prod.snd).getD {}).frames = s.frames.tail := by
  obtain ⟨current, outer⟩ := s
  cases outer with
  | nil => exact absurd rfl h
  | cons around outer => rfl

theorem frames_markUsed (s : ScopeStack) (name : String) : (s.markUsed name).frames = s.frames := by
  unfold markUsed
  split
  · exact congrArg (· :: _) (bare_markUsed s.current name)
  · exact congrArg (_ :: ·) (bare_markIn name s.outer)

end ScopeStack

theorem Scoped.push {s : ScopeStack} {ctx : Context} (h : Scoped vs s.frames ctx) :
    Scoped vs s.push.frames ctx where
  stands := h.stands
  names := List.forall_mem_cons.mpr ⟨List.nodup_nil, h.names⟩

theorem Scoped.declare {s : ScopeStack} {ctx : Context} {b : Binding} {named : Named}
    (h : Scoped vs s.frames ctx) (hfresh : b.name ∉ s.taken)
    (hstands : b.bare.Stands vs (b.name, named)) :
    Scoped vs ({ s with current := s.current ++ [b] } : ScopeStack).frames
      ((b.name, named) :: ctx) := by
  have hframes : ({ s with current := s.current ++ [b] } : ScopeStack).frames =
      (s.current.map Binding.bare ++ [b.bare]) :: s.frames.tail := by
    simp [ScopeStack.frames, ScopeStack.scopes]
  have hparts : s.frames = s.current.map Binding.bare :: s.frames.tail := rfl
  obtain ⟨hall, hnames⟩ := h
  rw [hparts] at hall hnames
  rw [hframes]
  refine ⟨?_, List.forall_mem_cons.mpr ⟨?_, fun f hf => hnames f (List.mem_cons_of_mem _ hf)⟩⟩
  · rw [List.flatMap_cons, List.reverse_append]
    exact .cons hstands hall
  · have hnodup := hnames _ List.mem_cons_self
    rw [List.map_append, List.nodup_append]
    refine ⟨hnodup, by simp, ?_⟩
    intro name hname other hother heq
    obtain rfl : other = b.name := by simpa [Binding.bare] using hother
    rw [List.map_map] at hname
    obtain ⟨c, hc, hcname⟩ := List.mem_map.mp hname
    exact hfresh (ScopeStack.mem_taken.mpr ⟨c, hc, hcname.trans heq⟩)

theorem declare_of_not_taken {s : ScopeStack} {b : Binding} (h : b.name ∉ s.taken) :
    s.declare b = .ok { s with current := s.current ++ [b] } := by
  rw [ScopeStack.declare, ScopeStack.checkUndeclared_of_not_taken h]
  rfl

end

end InvariantProver
