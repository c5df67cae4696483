import InvariantProver.Proofs.Data.Checked
import InvariantProver.Proofs.TransitionSystem.Resolution
import InvariantProver.Proofs.TransitionSystem.Scopes
import Mathlib.Data.List.Nodup

/-!
Marks of use and the bindings that names resolve to. The mark on a binding in scope says whether a
name that has been read resolves to it. What is reported when its scope is left is therefore right,
and no later name can change it. Every operation on a draft keeps the account of this
(`Draft.Accounts`).
-/

namespace InvariantProver

/-! ### Marks of use -/

def Binding.Resolves (used : List LetDeclaration) (b : Binding) (entry : String × Option LetDeclaration) :
    Prop :=
  b.name = entry.1 ∧
    match entry.2 with
    | none => b.isLet = false
    | some l => b.isLet = true ∧ l.name = b.name ∧ b.span = some l.span ∧ (b.used = true ↔ l ∈ used)

abbrev Scope.Resolves (used : List LetDeclaration) (scope : Scope) (frame : Names) : Prop :=
  List.Forall₂ (Binding.Resolves used) scope.reverse frame

def Names.lets (names : Names) : List LetDeclaration := names.filterMap Prod.snd

namespace Binding.Resolves

variable {used : List LetDeclaration} {b : Binding} {entry : String × Option LetDeclaration}

theorem name_of_mem (h : b.Resolves used entry) {l : LetDeclaration} (hl : entry.2 = some l) :
    l.name = entry.1 := by
  obtain ⟨hname, h⟩ := h
  rw [hl] at h
  exact h.2.1.trans hname

theorem use_other (h : b.Resolves used entry) {l? : Option LetDeclaration}
    (hother : ∀ l, entry.2 = some l → l? ≠ some l) : b.Resolves (used ++ l?.toList) entry := by
  obtain ⟨name, none | l⟩ := entry
  · exact h
  · obtain ⟨hname, hlet, hl, hspan, hused⟩ := h
    refine ⟨hname, hlet, hl, hspan, hused.trans ?_⟩
    have hne : l ∉ l?.toList := fun hmem => hother l rfl (Option.mem_toList.mp hmem)
    simp [hne]

theorem use_this (h : b.Resolves used entry) :
    { b with used := true }.Resolves (used ++ entry.2.toList) entry := by
  obtain ⟨name, none | l⟩ := entry
  · exact h
  · obtain ⟨hname, hlet, hl, hspan, -⟩ := h
    exact ⟨hname, hlet, hl, hspan, by simp⟩

end Binding.Resolves

namespace Scope.Resolves

variable {used : List LetDeclaration} {scope : Scope} {frame : Names}

theorem name_of_mem (h : scope.Resolves used frame) {name : String} {l : LetDeclaration}
    (hl : (name, some l) ∈ frame) : l.name = name := by
  obtain ⟨b, -, hb⟩ := exists_of_forall₂ h.flip hl
  exact Binding.Resolves.name_of_mem hb rfl

theorem names_eq (h : scope.Resolves used frame) :
    scope.reverse.map Binding.name = frame.map Prod.fst :=
  map_eq_of_forall₂ h fun _ _ _ hb => hb.1

theorem contains_iff (h : scope.Resolves used frame) (name : String) :
    scope.contains name = true ↔ name ∈ frame.map Prod.fst := by
  rw [← h.names_eq, contains, Scope.find?, List.find?_isSome]
  simp

theorem not_contains (h : scope.Resolves used frame) {name : String} (hlookup : frame.lookup name = none) :
    ¬scope.contains name = true := by
  rw [h.contains_iff, List.mem_map]
  rintro ⟨entry, hentry, rfl⟩
  simpa using List.lookup_eq_none_iff.mp hlookup entry hentry

theorem use_other (h : scope.Resolves used frame) {l? : Option LetDeclaration}
    (hother : ∀ l ∈ frame.lets, l? ≠ some l) : scope.Resolves (used ++ l?.toList) frame := by
  refine forall₂_imp_of_mem h fun b entry hentry hb => hb.use_other fun l hl => hother l ?_
  exact List.mem_filterMap.mpr ⟨entry, hentry, hl⟩

theorem markUsed (h : scope.Resolves used frame) (hnames : (frame.map Prod.fst).Nodup)
    {name : String} {l? : Option LetDeclaration} (hl : (name, l?) ∈ frame) :
    (scope.markUsed name).Resolves (used ++ l?.toList) frame := by
  unfold Scope.Resolves Scope.markUsed
  rw [← List.map_reverse, List.forall₂_map_left_iff]
  refine forall₂_imp_of_mem h fun b entry hentry hb => ?_
  split
  · next hname =>
    obtain rfl : entry = (name, l?) :=
      List.inj_on_of_nodup_map hnames hentry hl (hb.1.symm.trans hname)
    exact hb.use_this
  · next hname =>
    -- a declaration knows its name, so one of another name is another one
    refine hb.use_other fun l hentryl hsame => hname ?_
    subst hsame
    rw [hb.1, ← hb.name_of_mem hentryl, h.name_of_mem hl]

theorem unusedLets_eq {bs : List Binding} (h : List.Forall₂ (Binding.Resolves used) bs frame) :
    Build.unusedLets bs = (frame.lets.filter (· ∉ used)).map LetDeclaration.unused := by
  unfold Build.unusedLets Names.lets
  induction h with
  | nil => rfl
  | @cons b entry bs entries hb _ ih =>
    obtain ⟨name, none | l⟩ := entry
    · have hstate : b.isLet = false := hb.2
      simpa [hstate] using ih
    · obtain ⟨-, hlet, hl, hspan, hused⟩ := hb
      by_cases hmem : l ∈ used
      · simpa [hlet, hused.mpr hmem, hmem] using ih
      · have hfalse : b.used = false := by simpa using fun h => hmem (hused.mp h)
        simpa [hlet, hfalse, hmem, LetDeclaration.unused, hl, hspan] using ih

theorem unusedLets_perm (h : scope.Resolves used frame) :
    (Build.unusedLets scope).Perm ((frame.lets.filter (· ∉ used)).map LetDeclaration.unused) := by
  rw [← unusedLets_eq h]
  exact (scope.reverse_perm.symm.filter _).map _

end Scope.Resolves

abbrev ScopesResolve (used : List LetDeclaration) (scopes : List Scope) (frames : List Names) : Prop :=
  List.Forall₂ (fun scope frame => Scope.Resolves used scope frame) scopes frames

theorem scopes_markUsed (s : ScopeStack) (name : String) :
    (s.markUsed name).scopes = ScopeStack.markIn name s.scopes := by
  unfold ScopeStack.markUsed ScopeStack.scopes
  rw [ScopeStack.markIn]
  split <;> rfl

theorem lets_append (names names' : Names) : (names ++ names').lets = names.lets ++ names'.lets :=
  List.filterMap_append

theorem mem_lets_of_lookup {names : Names} {name : String} {l : LetDeclaration}
    (h : names.lookup name = some (some l)) : l ∈ names.lets :=
  List.mem_filterMap.mpr ⟨_, mem_of_lookup h, rfl⟩

namespace ScopesResolve

variable {used : List LetDeclaration} {scopes : List Scope} {frames : List Names}

theorem use_other (h : ScopesResolve used scopes frames) {l? : Option LetDeclaration}
    (hother : ∀ l ∈ Names.lets frames.flatten, l? ≠ some l) :
    ScopesResolve (used ++ l?.toList) scopes frames := by
  refine forall₂_imp_of_mem h fun scope frame hframe hscope => hscope.use_other fun l hl => hother l ?_
  obtain ⟨entry, hentry, hl⟩ := List.mem_filterMap.mp hl
  exact List.mem_filterMap.mpr ⟨entry, List.mem_flatten.mpr ⟨frame, hframe, hentry⟩, hl⟩

theorem markIn (h : ScopesResolve used scopes frames)
    (hnames : ∀ frame ∈ frames, (frame.map Prod.fst).Nodup)
    (hlets : (Names.lets frames.flatten).Nodup) {name : String} {l? : Option LetDeclaration}
    (hlookup : frames.flatten.lookup name = some l?) :
    ScopesResolve (used ++ l?.toList) (ScopeStack.markIn name scopes) frames := by
  induction h with
  | nil => cases hlookup
  | @cons scope frame scopes frames hscope hscopes ih =>
    rw [List.flatten_cons, lets_append, List.nodup_append] at hlets
    rw [List.flatten_cons, List.lookup_append] at hlookup
    unfold ScopeStack.markIn
    cases hframe : frame.lookup name with
    | some found =>
      rw [hframe, Option.some_or] at hlookup
      obtain rfl := Option.some.inj hlookup
      have hmem := mem_of_lookup hframe
      rw [if_pos ((hscope.contains_iff name).mpr (List.mem_map_of_mem hmem))]
      refine .cons (hscope.markUsed (hnames frame List.mem_cons_self) hmem) (use_other hscopes ?_)
      rintro l hl rfl
      exact hlets.2.2 l (mem_lets_of_lookup hframe) l hl rfl
    | none =>
      rw [hframe, Option.none_or] at hlookup
      rw [if_neg (hscope.not_contains hframe)]
      have hnames' := (List.forall_mem_cons.mp hnames).2
      refine .cons (hscope.use_other ?_) (ih hnames' hlets.2.1 hlookup)
      rintro l hl rfl
      exact hlets.2.2 l hl l (mem_lets_of_lookup hlookup) rfl

theorem lookup_of_find? (h : ScopesResolve used scopes frames) {name : String} {b : Binding}
    (hb : scopes.findSome? (Scope.find? · name) = some b) :
    ∃ l?, frames.flatten.lookup name = some l? := by
  induction h with
  | nil => cases hb
  | @cons scope frame scopes frames hscope _ ih =>
    rw [List.flatten_cons, List.lookup_append]
    cases hframe : frame.lookup name with
    | some found => exact ⟨found, rfl⟩
    | none =>
      have hfree := hscope.not_contains hframe
      rw [Scope.contains, Option.not_isSome_iff_eq_none] at hfree
      rw [List.findSome?_cons, hfree] at hb
      rw [Option.none_or]
      exact ih hb

theorem declare {s : ScopeStack} {frame : Names} {b : Binding}
    {entry : String × Option LetDeclaration} (h : ScopesResolve used s.scopes (frame :: frames))
    (hb : b.Resolves used entry) :
    ScopesResolve used ({ s with current := s.current ++ [b] } : ScopeStack).scopes
      ((entry :: frame) :: frames) := by
  obtain ⟨hcurrent, houter⟩ := List.forall₂_cons.mp h
  refine .cons ?_ houter
  unfold Scope.Resolves
  rw [List.reverse_append]
  exact .cons hb hcurrent

end ScopesResolve

/-! ### Drafts and surveys -/

/-- A draft and what has been read of its script. Names in scope are those of `frames`, and the scopes
of the bindings in `closed` have been left. -/
structure Draft.Accounts (d : Draft) (frames : List Names) (r : Survey)
    (closed : List LetDeclaration) : Prop where
  scopes : ScopesResolve r.used d.scopes.scopes frames
  names : ∀ frame ∈ frames, (frame.map Prod.fst).Nodup
  numbers : r.lets.map LetDeclaration.number = List.range r.lets.length
  lets : (closed ++ Names.lets frames.flatten).Perm r.lets
  used : ∀ l ∈ r.used, l ∈ r.lets
  declared : List.Forall₂ IsVariableOf r.declared d.variables
  diagnostics : d.diagnostics.Perm
    ((closed.filter (· ∉ r.used)).map LetDeclaration.unused ++ r.renamings d.variables)

def Draft.Surveyed (frames : List Names) (r : Survey) (d : Draft) : Prop :=
  ∃ closed, d.Accounts frames r closed

namespace Draft.Accounts

variable {d : Draft} {frames outer : List Names} {frame : Names} {r : Survey}
  {closed : List LetDeclaration}

theorem nodup_lets (h : d.Accounts frames r closed) : r.lets.Nodup :=
  .of_map LetDeclaration.number (h.numbers ▸ List.nodup_range)

theorem nodup_split (h : d.Accounts frames r closed) : (closed ++ Names.lets frames.flatten).Nodup :=
  h.lets.nodup_iff.mpr h.nodup_lets

theorem nextLet_not_mem (h : d.Accounts frames r closed) (name : String) (span : Span) :
    r.nextLet name span ∉ r.lets := by
  intro hmem
  have hnumber := List.mem_map_of_mem (f := LetDeclaration.number) hmem
  rw [h.numbers, List.mem_range] at hnumber
  exact absurd hnumber (Nat.lt_irrefl _)

theorem taken_eq (h : d.Accounts (frame :: outer) r closed) :
    d.scopes.taken = frame.map Prod.fst := by
  rw [← (List.forall₂_cons.mp h.scopes).1.names_eq, List.map_reverse]
  rfl

theorem use (h : d.Accounts frames r closed) {name : String} {l? : Option LetDeclaration}
    (hlookup : frames.flatten.lookup name = some l?) :
    { d with scopes := d.scopes.markUsed name }.Accounts frames (r.use l?) closed := by
  have hsplit := List.nodup_append.mp h.nodup_split
  have hvisible : ∀ l, l? = some l → l ∈ Names.lets frames.flatten :=
    fun l hl => mem_lets_of_lookup (hl ▸ hlookup)
  refine { h with scopes := ?_, used := ?_, diagnostics := ?_ }
  · rw [scopes_markUsed]
    exact h.scopes.markIn h.names hsplit.2.1 hlookup
  · refine List.forall_mem_append.mpr ⟨h.used, fun l hl => ?_⟩
    exact h.lets.subset (List.mem_append_right _ (hvisible l (Option.mem_toList.mp hl)))
  · -- no name can resolve to a binding whose scope has been left
    have hclosed : closed.filter (· ∉ (r.use l?).used) = closed.filter (· ∉ r.used) := by
      refine List.filter_congr fun l hl => ?_
      have hother : l ∉ l?.toList := fun hmem =>
        hsplit.2.2 l hl l (hvisible l (Option.mem_toList.mp hmem)) rfl
      simp [Survey.use, hother]
    rw [hclosed]
    exact h.diagnostics

theorem names_cons (h : d.Accounts (frame :: outer) r closed) {entry : String × Option LetDeclaration}
    (hfree : entry.1 ∉ frame.map Prod.fst) :
    ∀ f ∈ (entry :: frame) :: outer, (f.map Prod.fst).Nodup := by
  obtain ⟨hframe, houter⟩ := List.forall_mem_cons.mp h.names
  exact List.forall_mem_cons.mpr ⟨List.nodup_cons.mpr ⟨hfree, hframe⟩, houter⟩

theorem complete (h : d.Accounts (frame :: outer) r closed) {b : Binding} {name : String} {span : Span}
    (hfree : name ∉ frame.map Prod.fst) (hname : b.name = name) (hlet : b.isLet = true)
    (hspan : b.span = some span) (hused : b.used = false) :
    { d with scopes := { d.scopes with current := d.scopes.current ++ [b] } }.Accounts
      (((name, some (r.nextLet name span)) :: frame) :: outer) (r.complete name span) closed := by
  have hnew := h.nextLet_not_mem name span
  refine { h with scopes := ?_, names := ?_, numbers := ?_, lets := ?_, used := ?_ }
  · have hfresh : r.nextLet name span ∉ r.used := fun hmem => hnew (h.used _ hmem)
    have hunused : b.used = true ↔ r.nextLet name span ∈ r.used := by simp [hused, hfresh]
    exact h.scopes.declare ⟨hname, hlet, hname.symm, hspan, hunused⟩
  · exact h.names_cons hfree
  · simp [Survey.complete, h.numbers, List.range_succ, Survey.nextLet]
  · have hsplit := h.lets.cons (r.nextLet name span)
    calc
      (closed ++ r.nextLet name span :: Names.lets (frame :: outer).flatten).Perm
          (r.nextLet name span :: (closed ++ Names.lets (frame :: outer).flatten)) := List.perm_middle
      List.Perm _ (r.nextLet name span :: r.lets) := hsplit
      List.Perm _ (r.lets ++ [r.nextLet name span]) := (List.perm_append_singleton _ _).symm
  · exact fun l hl => List.mem_append_left _ (h.used l hl)

theorem state (h : d.Accounts (frame :: outer) r closed) {b : Binding} {name : String} {span : Span}
    {v : Variable} (hfree : name ∉ frame.map Prod.fst) (hname : b.name = name) (hlet : b.isLet = false)
    (hv : IsVariableOf (name, span) v) {renamed : Nat} :
    { d with
        scopes := { d.scopes with current := d.scopes.current ++ [b] }
        «variables» := d.variables ++ [v]
        diagnostics := d.diagnostics ++ (renaming? (name, span) v).toList
        renamed := renamed }.Accounts
      (((name, none) :: frame) :: outer) (r.state name span) closed := by
  refine { h with scopes := ?_, names := ?_, declared := ?_, diagnostics := ?_ }
  · exact h.scopes.declare ⟨hname, hlet⟩
  · exact h.names_cons hfree
  · exact List.rel_append h.declared (.cons hv .nil)
  · have hrenamings : (r.state name span).renamings (d.variables ++ [v]) =
        r.renamings d.variables ++ (renaming? (name, span) v).toList := by
      unfold Survey.renamings Survey.state
      rw [List.zip_append h.declared.length_eq, List.filterMap_append]
      cases hrenaming : renaming? (name, span) v <;> simp [hrenaming]
    change (d.diagnostics ++ _).Perm (_ ++ (r.state name span).renamings (d.variables ++ [v]))
    rw [hrenamings, ← List.append_assoc]
    exact h.diagnostics.append_right _

theorem push (h : d.Accounts frames r closed) :
    { d with scopes := d.scopes.push }.Accounts ([] :: frames) r closed :=
  { h with
    scopes := .cons .nil h.scopes
    names := List.forall_mem_cons.mpr ⟨List.nodup_nil, h.names⟩ }

theorem report (h : d.Accounts (frame :: outer) r closed) :
    (d.diagnostics ++ Build.unusedLets d.scopes.current).Perm
      (((closed ++ frame.lets).filter (· ∉ r.used)).map LetDeclaration.unused ++
        r.renamings d.variables) := by
  have hcurrent := ((List.forall₂_cons.mp h.scopes).1).unusedLets_perm
  refine (h.diagnostics.append hcurrent).trans ?_
  rw [List.filter_append, List.map_append, List.append_assoc, List.append_assoc]
  exact List.perm_append_comm.append_left _

theorem leave {inner : Names} (h : d.Accounts (inner :: frame :: outer) r closed) :
    { d with
        scopes := (d.scopes.pop?.map Prod.snd).getD {}
        diagnostics := d.diagnostics ++ Build.unusedLets d.scopes.current }.Accounts
      (frame :: outer) r (closed ++ inner.lets) := by
  have houter := (List.forall₂_cons.mp h.scopes).2
  refine { h with scopes := ?_, names := ?_, lets := ?_, diagnostics := h.report }
  · cases hscopes : d.scopes.outer with
    | nil =>
      rw [hscopes] at houter
      cases houter
    | cons around rest =>
      rw [hscopes] at houter
      have hpop : (d.scopes.pop?.map Prod.snd).getD {} = ⟨around, rest⟩ := by
        simp [ScopeStack.pop?, hscopes]
      change ScopesResolve r.used ((d.scopes.pop?.map Prod.snd).getD {}).scopes _
      rw [hpop]
      exact houter
  · exact (List.forall_mem_cons.mp h.names).2
  · rw [List.append_assoc, ← lets_append]
    exact h.lets

end Draft.Accounts

end InvariantProver
