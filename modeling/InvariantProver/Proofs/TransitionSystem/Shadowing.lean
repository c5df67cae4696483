import InvariantProver.Proofs.TransitionSystem.Scopes
import Mathlib.Data.List.Induction
import Mathlib.Data.List.Nodup

namespace InvariantProver

inductive ScopeCall
  | push
  | pop
  | declare (b : Binding)
  | find (name : String)
  | lookup (name : String) (span : Option Span)

namespace ScopeCall

def rise? (call : ScopeCall) (level : Nat) : Option Nat :=
  match call, level with
  | push, level => some (level + 1)
  | pop, 0 => none
  | pop, level + 1 => some level
  | _, level => some level

def height? (level : Nat) : List ScopeCall → Option Nat
  | [] => some level
  | call :: calls => (call.rise? level).bind (height? · calls)

def Balanced (calls : List ScopeCall) : Prop := height? 0 calls = some 0

instance (calls : List ScopeCall) : Decidable (Balanced calls) :=
  inferInstanceAs (Decidable (height? 0 calls = some 0))

variable {call : ScopeCall} {calls more : List ScopeCall} {level level' : Nat}

theorem height?_append (level : Nat) (calls more : List ScopeCall) :
    height? level (calls ++ more) = (height? level calls).bind (height? · more) := by
  induction calls generalizing level with
  | nil => rfl
  | cons call calls ih =>
    rw [List.cons_append, height?, height?, Option.bind_assoc]
    exact Option.bind_congr fun next _ => ih next

theorem height?_concat (level : Nat) (calls : List ScopeCall) (call : ScopeCall) :
    height? level (calls ++ [call]) = (height? level calls).bind call.rise? := by
  rw [height?_append]
  exact Option.bind_congr fun next _ => Option.bind_fun_some (call.rise? next)

theorem rise?_add (h : call.rise? level = some level') (i : Nat) :
    call.rise? (level + i) = some (level' + i) := by
  cases call with
  | push =>
    obtain rfl := Option.some.inj h
    exact congrArg some (by omega)
  | pop =>
    cases level with
    | zero => cases h
    | succ level =>
      obtain rfl := Option.some.inj h
      rw [Nat.succ_add]
      rfl
  | _ =>
    obtain rfl := Option.some.inj h
    rfl

end ScopeCall

namespace ScopeStack

def call (s : ScopeStack) : ScopeCall → ScopeStack
  | .push => s.push
  | .pop => (s.pop?.map Prod.snd).getD s
  | .declare b => (s.declare b).toOption.getD s
  | .find _ | .lookup .. => s

def calls (s : ScopeStack) (cs : List ScopeCall) : ScopeStack := cs.foldl call s

/-- After the calls the scope that many levels out of the innermost one has this binding: it was
declared in a scope that no later call has closed, or was there at the start. -/
inductive Has (s : ScopeStack) (cs : List ScopeCall) : Nat → Binding → Prop
  | declared {before after : List ScopeCall} {b : Binding} {level : Nat}
    (hcalls : cs = before ++ .declare b :: after)
    (haccepted : (s.calls before).checkUndeclared b.name = .ok ())
    (hopen : ScopeCall.height? 0 after = some level) : Has s cs level b
  | earlier {height i : Nat} {scope : Scope} {b : Binding}
    (hheight : ScopeCall.height? 0 cs = some height) (hscope : s.scopes[i]? = some scope)
    (hb : b ∈ scope) : Has s cs (height + i) b

def Distinct (s : ScopeStack) : Prop := ∀ scope ∈ s.scopes, (scope.map Binding.name).Nodup

variable {s t : ScopeStack} {c : ScopeCall} {cs : List ScopeCall} {b : Binding} {level height : Nat}

theorem calls_concat (s : ScopeStack) (cs : List ScopeCall) (c : ScopeCall) :
    s.calls (cs ++ [c]) = (s.calls cs).call c := by
  rw [calls, List.foldl_append]
  rfl

/-! ### Declarations -/

theorem checkUndeclared_cases (s : ScopeStack) (name : String) :
    ((∀ c ∈ s.current, c.name ≠ name) ∧ s.checkUndeclared name = .ok ()) ∨
      ∃ c ∈ s.current, c.name = name ∧ s.checkUndeclared name = .error ⟨name, c.span⟩ := by
  unfold checkUndeclared
  cases hfind : s.current.find? name with
  | none => exact .inl ⟨by simpa [Scope.find?] using hfind, rfl⟩
  | some c =>
    exact .inr ⟨c, List.mem_of_find?_eq_some hfind, by simpa using List.find?_some hfind, rfl⟩

theorem call_declare_of_fresh (h : s.checkUndeclared b.name = .ok ()) :
    s.call (.declare b) = { s with current := s.current ++ [b] } := by
  rw [call, declare, h]
  rfl

theorem call_declare_of_taken {e : Redeclaration} (h : s.checkUndeclared b.name = .error e) :
    s.declare b = .error e ∧ s.call (.declare b) = s := by
  have hdeclare : s.declare b = .error e := by
    rw [declare, h]
    rfl
  rw [call, hdeclare]
  exact ⟨rfl, rfl⟩

/-! ### Scopes along calls -/

theorem Distinct.call (h : s.Distinct) (c : ScopeCall) : (s.call c).Distinct := by
  cases c with
  | push => exact List.forall_mem_cons.mpr ⟨List.nodup_nil, h⟩
  | pop =>
    obtain ⟨current, _ | ⟨around, outer⟩⟩ := s
    · exact h
    · exact (List.forall_mem_cons.mp h).2
  | declare b =>
    rcases checkUndeclared_cases s b.name with ⟨hnone, hcheck⟩ | ⟨_, _, _, hcheck⟩
    · obtain ⟨hcurrent, houter⟩ := List.forall_mem_cons.mp h
      rw [call_declare_of_fresh hcheck]
      refine List.forall_mem_cons.mpr ⟨?_, houter⟩
      rw [List.map_append, List.nodup_append]
      refine ⟨hcurrent, by simp, ?_⟩
      intro name hname other hother heq
      obtain ⟨d, hd, rfl⟩ := List.mem_map.mp hname
      exact hnone d hd (heq.trans (List.mem_singleton.mp hother))
    · rwa [(call_declare_of_taken hcheck).2]
  | find | lookup => exact h

theorem Distinct.calls (h : s.Distinct) (cs : List ScopeCall) : (s.calls cs).Distinct := by
  induction cs generalizing s with
  | nil => exact h
  | cons c cs ih => exact ih (h.call c)

theorem scopes_call {inner outer : List Scope} (hscopes : s.scopes = inner ++ outer)
    (hlength : inner.length = level + 1) {level' : Nat} (hrise : c.rise? level = some level') :
    ∃ inner', inner'.length = level' + 1 ∧ (s.call c).scopes = inner' ++ outer := by
  obtain ⟨scope, inner, rfl⟩ := List.exists_cons_of_ne_nil (List.ne_nil_of_length_eq_add_one hlength)
  obtain ⟨hcurrent, houter⟩ := List.cons.inj hscopes
  cases c with
  | push =>
    obtain rfl := Option.some.inj hrise
    exact ⟨[] :: scope :: inner, congrArg Nat.succ hlength, congrArg _ hscopes⟩
  | pop =>
    cases level with
    | zero => cases hrise
    | succ level =>
      obtain rfl := Option.some.inj hrise
      obtain ⟨around, inner, rfl⟩ :=
        List.exists_cons_of_ne_nil (List.ne_nil_of_length_eq_add_one (Nat.succ.inj hlength))
      refine ⟨around :: inner, Nat.succ.inj hlength, ?_⟩
      rw [call, pop?, houter]
      rfl
  | declare b =>
    obtain rfl := Option.some.inj hrise
    rcases checkUndeclared_cases s b.name with ⟨-, hcheck⟩ | ⟨_, _, _, hcheck⟩
    · rw [call_declare_of_fresh hcheck]
      exact ⟨(s.current ++ [b]) :: inner, hlength, congrArg _ houter⟩
    · rw [(call_declare_of_taken hcheck).2]
      exact ⟨scope :: inner, hlength, hscopes⟩
  | find | lookup =>
    obtain rfl := Option.some.inj hrise
    exact ⟨scope :: inner, hlength, hscopes⟩

theorem scopes_calls {inner outer : List Scope} (hscopes : s.scopes = inner ++ outer)
    (hlength : inner.length = level + 1) (hheight : ScopeCall.height? level cs = some height) :
    ∃ inner', inner'.length = height + 1 ∧ (s.calls cs).scopes = inner' ++ outer := by
  induction cs generalizing s inner level with
  | nil =>
    obtain rfl := Option.some.inj hheight
    exact ⟨inner, hlength, hscopes⟩
  | cons c cs ih =>
    obtain ⟨next, hrise, hrest⟩ := Option.bind_eq_some_iff.mp hheight
    obtain ⟨inner', hlength', hscopes'⟩ := scopes_call hscopes hlength hrise
    exact ih hscopes' hlength' hrest

theorem has_concat_iff (hheight : ScopeCall.height? 0 (cs ++ [c]) = some height) :
    s.Has (cs ++ [c]) level b ↔
      (c = .declare b ∧ (s.calls cs).checkUndeclared b.name = .ok () ∧ level = 0) ∨
        ∃ level', c.rise? level' = some level ∧ s.Has cs level' b := by
  obtain ⟨height', hheight', hrise⟩ :=
    Option.bind_eq_some_iff.mp ((ScopeCall.height?_concat 0 cs c).symm.trans hheight)
  constructor
  · rintro (⟨hcalls, haccepted, hopen⟩ | ⟨hheight'', hscope, hb⟩)
    · next before after =>
      rcases List.eq_nil_or_concat after with rfl | ⟨after, last, rfl⟩
      · obtain ⟨rfl, hlast⟩ := List.append_inj' hcalls rfl
        obtain rfl := List.singleton_inj.mp hlast
        exact .inl ⟨rfl, haccepted, (Option.some.inj hopen).symm⟩
      · rw [List.concat_eq_append, ← List.cons_append, ← List.append_assoc] at hcalls
        obtain ⟨rfl, hlast⟩ := List.append_inj' hcalls rfl
        obtain rfl := List.singleton_inj.mp hlast
        rw [List.concat_eq_append, ScopeCall.height?_concat] at hopen
        obtain ⟨level', hopen', hrise'⟩ := Option.bind_eq_some_iff.mp hopen
        exact .inr ⟨level', hrise', .declared rfl haccepted hopen'⟩
    · obtain rfl := Option.some.inj (hheight.symm.trans hheight'')
      exact .inr ⟨_, ScopeCall.rise?_add hrise _, .earlier hheight' hscope hb⟩
  · rintro (⟨rfl, haccepted, rfl⟩ | ⟨level', hrise', ⟨rfl, haccepted, hopen⟩ | ⟨hheight'', hscope, hb⟩⟩)
    · exact .declared rfl haccepted rfl
    · refine .declared (List.append_assoc ..) haccepted ?_
      exact (ScopeCall.height?_concat ..).trans (hopen ▸ hrise')
    · obtain rfl := Option.some.inj (hheight'.symm.trans hheight'')
      rw [ScopeCall.rise?_add hrise] at hrise'
      obtain rfl := Option.some.inj hrise'
      exact .earlier hheight hscope hb

theorem mem_call_iff {t : ScopeStack} (hpop : c = .pop → t.outer ≠ []) :
    (∃ scope, (t.call c).scopes[level]? = some scope ∧ b ∈ scope) ↔
      (c = .declare b ∧ t.checkUndeclared b.name = .ok () ∧ level = 0) ∨
        ∃ level', c.rise? level' = some level ∧ ∃ scope, t.scopes[level']? = some scope ∧ b ∈ scope := by
  cases c with
  | push =>
    change (∃ scope, ([] :: t.scopes)[level]? = some scope ∧ b ∈ scope) ↔ _
    cases level with
    | zero => simp [ScopeCall.rise?]
    | succ level => simp [ScopeCall.rise?]
  | pop =>
    obtain ⟨around, outer, houter⟩ := List.exists_cons_of_ne_nil (hpop rfl)
    have hcall : (t.call .pop).scopes = t.outer := by
      rw [call, pop?, houter]
      rfl
    rw [hcall]
    have hrise : ∀ level', ScopeCall.pop.rise? level' = some level ↔ level' = level + 1 := by
      rintro (_ | level') <;> simp [ScopeCall.rise?]
    simp [hrise, scopes]
  | declare d =>
    have hrise : ∀ level', (ScopeCall.declare d).rise? level' = some level ↔ level' = level := by
      simp [ScopeCall.rise?]
    simp only [hrise, exists_eq_left, ScopeCall.declare.injEq]
    rcases checkUndeclared_cases t d.name with ⟨-, hcheck⟩ | ⟨_, _, _, hcheck⟩
    · rw [call_declare_of_fresh hcheck]
      cases level with
      | zero =>
        simp only [scopes, List.getElem?_cons_zero, Option.some.injEq, exists_eq_left',
          List.mem_append, List.mem_singleton, and_true]
        constructor
        · rintro (hb | rfl)
          · exact .inr hb
          · exact .inl ⟨rfl, hcheck⟩
        · rintro (⟨rfl, -⟩ | hb)
          · exact .inr rfl
          · exact .inl hb
      | succ level => simp [scopes]
    · rw [(call_declare_of_taken hcheck).2]
      refine ⟨.inr, ?_⟩
      rintro (⟨rfl, hfree, -⟩ | hb)
      · rw [hcheck] at hfree
        cases hfree
      · exact hb
  | find | lookup => simp [ScopeCall.rise?, call]

theorem has_iff (hheight : ScopeCall.height? 0 cs = some height) :
    s.Has cs level b ↔ ∃ scope, (s.calls cs).scopes[level]? = some scope ∧ b ∈ scope := by
  induction cs using List.reverseRecOn generalizing height level with
  | nil =>
    obtain rfl := Option.some.inj hheight
    constructor
    · rintro (⟨hcalls, -, -⟩ | ⟨hnone, hscope, hb⟩)
      · simp at hcalls
      · obtain rfl := Option.some.inj hnone
        exact ⟨_, by rwa [Nat.zero_add], hb⟩
    · rintro ⟨scope, hscope, hb⟩
      rw [← Nat.zero_add level]
      exact .earlier rfl hscope hb
  | append_singleton cs c ih =>
    obtain ⟨height', hheight', hrise⟩ :=
      Option.bind_eq_some_iff.mp ((ScopeCall.height?_concat 0 cs c).symm.trans hheight)
    have hinner : s.scopes = [s.current] ++ s.outer := rfl
    obtain ⟨inner, hlength, hscopes⟩ := scopes_calls hinner rfl hheight'
    -- a pop closes a scope that one of the calls has opened
    have hpop : c = .pop → (s.calls cs).outer ≠ [] := by
      rintro rfl hnone
      have hcount := congrArg List.length hscopes
      rw [scopes, hnone, List.length_append, hlength] at hcount
      obtain rfl : height' = 0 := by
        simp only [List.length_cons, List.length_nil] at hcount
        omega
      cases hrise
    rw [has_concat_iff hheight, calls_concat, mem_call_iff hpop]
    simp only [ih hheight']

/-! ### Looking up names -/

theorem find?_scope_iff {scope : Scope} (h : (scope.map Binding.name).Nodup) {name : String} :
    scope.find? name = some b ↔ b ∈ scope ∧ b.name = name := by
  constructor
  · intro hfind
    exact ⟨List.mem_of_find?_eq_some hfind, by simpa using List.find?_some hfind⟩
  · rintro ⟨hb, rfl⟩
    obtain ⟨d, hd⟩ := Option.isSome_iff_exists.mp
      (List.find?_isSome (p := fun d : Binding => d.name = b.name).mpr ⟨b, hb, by simp⟩)
    have hname : d.name = b.name := by simpa using List.find?_some hd
    rw [Scope.find?, hd, List.inj_on_of_nodup_map h (List.mem_of_find?_eq_some hd) hb hname]

theorem find?_eq_none_iff {name : String} :
    s.find? name = none ↔ ∀ (level : Nat) scope, s.scopes[level]? = some scope →
      ∀ c ∈ scope, c.name ≠ name := by
  rw [find?, List.findSome?_eq_none_iff]
  simp only [Scope.find?, List.find?_eq_none, decide_eq_true_eq]
  constructor
  · exact fun h level scope hscope c hc => h scope (List.mem_of_getElem? hscope) c hc
  · intro h scope hscope c hc
    obtain ⟨level, hlevel⟩ := List.mem_iff_getElem?.mp hscope
    exact h level scope hlevel c hc

theorem find?_eq_some_iff (h : s.Distinct) {name : String} :
    s.find? name = some b ↔ ∃ level : Nat, (∃ scope, s.scopes[level]? = some scope ∧ b ∈ scope) ∧
      b.name = name ∧ ∀ level' < level, ∀ scope, s.scopes[level']? = some scope →
        ∀ c ∈ scope, c.name ≠ name := by
  rw [find?, List.findSome?_eq_some_iff]
  constructor
  · rintro ⟨inner, scope, outer, hscopes, hfind, hnone⟩
    have hscope : scope ∈ s.scopes := by simp [hscopes]
    obtain ⟨hb, hname⟩ := (find?_scope_iff (h scope hscope)).mp hfind
    refine ⟨inner.length, ⟨scope, by simp [hscopes], hb⟩, hname, ?_⟩
    intro level' hlevel' scope' hscope' c hc hcname
    rw [hscopes, List.getElem?_append_left hlevel'] at hscope'
    have hmiss := hnone scope' (List.mem_of_getElem? hscope')
    rw [Scope.find?, List.find?_eq_none] at hmiss
    exact hmiss c hc (by simpa using hcname)
  · rintro ⟨level, ⟨scope, hscope, hb⟩, hname, hinner⟩
    obtain ⟨hlt, hget⟩ := List.getElem?_eq_some_iff.mp hscope
    refine ⟨s.scopes.take level, scope, s.scopes.drop (level + 1), ?_, ?_, ?_⟩
    · rw [← hget, List.getElem_cons_drop, List.take_append_drop]
    · exact (find?_scope_iff (h scope (List.mem_of_getElem? hscope))).mpr ⟨hb, hname⟩
    · intro scope' hscope'
      obtain ⟨level', hlevel'⟩ := List.mem_iff_getElem?.mp hscope'
      obtain ⟨hlt', -⟩ := List.getElem?_eq_some_iff.mp hlevel'
      rw [List.length_take] at hlt'
      rw [List.getElem?_take_of_lt (by omega)] at hlevel'
      rw [Scope.find?, List.find?_eq_none]
      intro c hc
      simpa using hinner level' (by omega) scope' hlevel' c hc

structure Shadows (s : ScopeStack) (cs : List ScopeCall) : Prop where
  found : ∀ name b, (s.calls cs).find? name = some b ↔
    ∃ level, s.Has cs level b ∧ b.name = name ∧ ∀ level' < level, ∀ c, s.Has cs level' c → c.name ≠ name
  missed : ∀ name, (s.calls cs).find? name = none ↔ ∀ level b, s.Has cs level b → b.name ≠ name
  lookedUp : ∀ name span b, (s.calls cs).lookup name span = .ok b ↔ (s.calls cs).find? name = some b
  unbound : ∀ name span e, (s.calls cs).lookup name span = .error e ↔
    (s.calls cs).find? name = none ∧ e = ⟨.unbound name, span⟩
  refused : ∀ b e, (s.calls cs).declare b = .error e ↔
    ∃ c, s.Has cs 0 c ∧ c.name = b.name ∧ e = ⟨b.name, c.span⟩
  unchanged : ∀ b e, (s.calls cs).declare b = .error e → s.calls (cs ++ [.declare b]) = s.calls cs

theorem declare_eq_error_iff (h : s.Distinct) {e : Redeclaration} :
    s.declare b = .error e ↔ ∃ c ∈ s.current, c.name = b.name ∧ e = ⟨b.name, c.span⟩ := by
  rcases checkUndeclared_cases s b.name with ⟨hnone, hcheck⟩ | ⟨d, hd, hname, hcheck⟩
  · have hok : s.declare b = .ok { s with current := s.current ++ [b] } := by
      rw [declare, hcheck]
      rfl
    rw [hok]
    constructor
    · intro hdeclare
      cases hdeclare
    · rintro ⟨c, hc, hcname, -⟩
      exact absurd hcname (hnone c hc)
  · rw [(call_declare_of_taken hcheck).1, Except.error.injEq]
    constructor
    · rintro rfl
      exact ⟨d, hd, hname, rfl⟩
    · rintro ⟨c, hc, hcname, rfl⟩
      have hcurrent := (List.forall_mem_cons.mp h).1
      rw [List.inj_on_of_nodup_map hcurrent hd hc (hname.trans hcname.symm)]

theorem resolve_eq_lookup (name : String) (span : Span) (d : Draft) :
    (Build.resolve name false span).run d = (d.scopes.lookup name (some span)).map fun b =>
      (.ref ⟨b.var, 0⟩, { d with scopes := d.scopes.markUsed name }) := by
  unfold lookup Build.resolve
  rw [StateT.run_bind, StateT.run_get, pure_bind]
  cases d.scopes.find? name with
  | none => rfl
  | some b => rfl

theorem shadows_of_height (hs : s.Distinct) (hheight : ScopeCall.height? 0 cs = some height) :
    s.Shadows cs where
  found name b := by
    simp only [has_iff hheight, find?_eq_some_iff (hs.calls cs)]
    refine exists_congr fun level => and_congr_right fun _ => and_congr_right fun _ => ?_
    exact forall₂_congr fun _ _ => ⟨fun h c ⟨scope, hscope, hc⟩ => h scope hscope c hc,
      fun h scope hscope c hc => h c ⟨scope, hscope, hc⟩⟩
  missed name := by
    simp only [has_iff hheight, find?_eq_none_iff]
    exact forall_congr' fun _ => ⟨fun h c ⟨scope, hscope, hc⟩ => h scope hscope c hc,
      fun h scope hscope c hc => h c ⟨scope, hscope, hc⟩⟩
  lookedUp name span b := by
    unfold lookup
    cases (s.calls cs).find? name <;> simp
  unbound name span e := by
    unfold lookup
    cases (s.calls cs).find? name <;> simp [eq_comm]
  refused b e := by
    rw [declare_eq_error_iff (hs.calls cs)]
    simp [has_iff hheight, scopes]
  unchanged b e herror := by
    rw [calls_concat, call, herror]
    rfl

/-- Between a push and its pop every name means its innermost binding, and the pop brings back the
stack from before the push. -/
theorem shadows_and_restores (hs : s.Distinct) (hbalanced : ScopeCall.Balanced cs) :
    (∃ inner, (s.push.calls cs).pop? = some (inner, s)) ∧
      ∀ before, before <+: cs → s.push.Shadows before := by
  constructor
  · have hinner : s.push.scopes = [[]] ++ s.scopes := rfl
    obtain ⟨inner, hlength, hscopes⟩ := scopes_calls hinner rfl hbalanced
    obtain ⟨scope, rfl⟩ := List.length_eq_one_iff.mp hlength
    obtain ⟨hcurrent, houter⟩ := List.cons.inj hscopes
    refine ⟨scope, ?_⟩
    rw [pop?, houter, hcurrent]
    rfl
  · rintro before ⟨after, rfl⟩
    have hopen : ∃ height, ScopeCall.height? 0 before = some height := by
      rw [ScopeCall.Balanced, ScopeCall.height?_append] at hbalanced
      obtain ⟨height, hheight, -⟩ := Option.bind_eq_some_iff.mp hbalanced
      exact ⟨height, hheight⟩
    obtain ⟨height, hheight⟩ := hopen
    exact shadows_of_height (hs.call .push) hheight

def stateBinding (name : String) (ty : Ty) : Binding := ⟨name, ⟨name, ty, .state⟩, none, none, false⟩

def layers : List ScopeCall :=
  [.declare (stateBinding "x" .int), .push, .declare (stateBinding "x" .rat),
    .declare (stateBinding "x" .bool), .find "x", .pop, .lookup "y" none]

theorem layers_restore :
    (∃ inner, ((⟨[stateBinding "x" .bool], []⟩ : ScopeStack).push.calls layers).pop? =
      some (inner, ⟨[stateBinding "x" .bool], []⟩)) ∧
    (⟨[stateBinding "x" .bool], []⟩ : ScopeStack).push.Shadows (layers.take 4) ∧
    ((⟨[stateBinding "x" .bool], []⟩ : ScopeStack).push.calls (layers.take 4)).find? "x" =
      some (stateBinding "x" .rat) := by
  have hdistinct : (⟨[stateBinding "x" .bool], []⟩ : ScopeStack).Distinct := by simp [Distinct, scopes]
  have hbalanced : ScopeCall.Balanced layers := by decide
  obtain ⟨hpop, hshadows⟩ := shadows_and_restores hdistinct hbalanced
  exact ⟨hpop, hshadows _ (List.take_prefix 4 layers), by decide⟩

end ScopeStack

end InvariantProver
