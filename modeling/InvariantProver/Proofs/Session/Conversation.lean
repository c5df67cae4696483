import InvariantProver.Proofs.Session.Oracles

namespace InvariantProver

namespace Act

def isEntry : Act → Bool
  | declare .. | assert _ | push | pop => true
  | _ => false

def isQuestion : Act → Bool
  | values _ => true
  | _ => false

def framesOf (acts : List Act) : List (List Term) :=
  acts.foldl (fun frames act => act.frames frames) [[]]

theorem framesOf_append (acts more : List Act) :
    framesOf (acts ++ more) = more.foldl (fun frames act => act.frames frames) (framesOf acts) :=
  List.foldl_append

theorem framesOf_concat (acts : List Act) (act : Act) :
    framesOf (acts ++ [act]) = act.frames (framesOf acts) := by
  rw [framesOf_append]
  rfl

theorem framesOf_asserts (acts : List Act) {frame : List Term} {outer : List (List Term)}
    (h : framesOf acts = frame :: outer) (ts : List Term) :
    framesOf (acts ++ ts.map assert) = (frame ++ ts) :: outer := by
  induction ts generalizing acts frame with
  | nil => rw [List.map_nil, List.append_nil, List.append_nil, h]
  | cons t ts ih =>
    have hone : framesOf (acts ++ [assert t]) = (frame ++ [t]) :: outer := by
      rw [framesOf_concat, h]
      rfl
    have hall := ih (acts ++ [assert t]) hone
    rwa [List.append_assoc, List.append_assoc] at hall

theorem framesOf_questions (acts : List Act) {more : List Act}
    (h : ∀ act ∈ more, act.isQuestion = true) : framesOf (acts ++ more) = framesOf acts := by
  induction more generalizing acts with
  | nil => rw [List.append_nil]
  | cons act more ih =>
    have hrest := ih (acts ++ [act]) fun act' hact' => h act' (List.mem_cons_of_mem act hact')
    have hfirst := h act (by simp)
    rw [List.append_cons, hrest, framesOf_concat]
    cases act with
    | values refs => rfl
    | _ => cases hfirst

def inquiry (ts : List Term) (reads : List Act) : List Act :=
  push :: (ts.map assert ++ check :: (reads ++ [pop]))

theorem framesOf_posed {acts : List Act} {frame : List Term} (h : framesOf acts = [frame])
    (ts : List Term) : framesOf (acts ++ push :: ts.map assert) = [ts, frame] := by
  have hpushed : framesOf (acts ++ [push]) = [[], frame] := by
    rw [framesOf_concat, h]
    rfl
  rw [List.append_cons, framesOf_asserts _ hpushed, List.nil_append]

theorem framesOf_inquiry {acts : List Act} {frame : List Term} (h : framesOf acts = [frame])
    (ts : List Term) {reads : List Act} (hreads : ∀ act ∈ reads, act.isQuestion = true) :
    framesOf (acts ++ inquiry ts reads) = [frame] := by
  have hsplit : acts ++ inquiry ts reads = acts ++ push :: ts.map assert ++ [check] ++ reads ++ [pop] := by
    simp [inquiry]
  rw [hsplit, framesOf_concat, framesOf_questions _ hreads, framesOf_concat, framesOf_posed h]
  rfl

def ChecksAt (P : List Term → Prop) (acts more : List Act) : Prop :=
  ∀ before later, more = before ++ check :: later → P (active (framesOf (acts ++ before)))

section

variable {P : List Term → Prop} {acts more more' : List Act}

theorem ChecksAt.nil : ChecksAt P acts [] := by
  intro before later h
  cases before <;> cases h

theorem ChecksAt.append (h : ChecksAt P acts more) (h' : ChecksAt P (acts ++ more) more') :
    ChecksAt P acts (more ++ more') := by
  intro before later hsplit
  rcases List.append_eq_append_iff.mp hsplit with ⟨rest, rfl, hrest⟩ | ⟨rest, rfl, hrest⟩
  · rw [← List.append_assoc]
    exact h' rest later hrest
  · cases rest with
    | nil =>
      have hfirst := h' [] later hrest.symm
      rwa [List.append_nil, List.append_nil] at hfirst
    | cons act rest =>
      obtain ⟨rfl, rfl⟩ := List.cons_eq_cons.mp hrest
      exact h before rest rfl

theorem ChecksAt.of_not_mem (h : check ∉ more) : ChecksAt P acts more := by
  rintro before later rfl
  exact absurd (by simp) h

theorem ChecksAt.single (h : P (active (framesOf acts))) : ChecksAt P acts [check] := by
  intro before later hsplit
  cases before with
  | nil => rwa [List.append_nil]
  | cons act before =>
    obtain ⟨-, hrest⟩ := List.cons_eq_cons.mp hsplit
    simp at hrest

theorem ChecksAt.inquiry {frame ts : List Term} {reads : List Act} (h : framesOf acts = [frame])
    (hreads : ∀ act ∈ reads, act.isQuestion = true) (hP : P (frame ++ ts)) :
    ChecksAt P acts (inquiry ts reads) := by
  have hsplit : Act.inquiry ts reads = push :: ts.map assert ++ [check] ++ (reads ++ [pop]) := by
    simp [Act.inquiry]
  have hbefore : check ∉ push :: ts.map assert := by simp
  have hlater : check ∉ reads ++ [pop] := by
    intro hmem
    rcases List.mem_append.mp hmem with hmem | hmem
    · cases hreads _ hmem
    · simp at hmem
  rw [hsplit]
  refine .append (.append (.of_not_mem hbefore) (.single ?_)) (.of_not_mem hlater)
  rw [framesOf_posed h]
  simpa [active] using hP

end

end Act

namespace Session

variable {σ : Type} [Backend σ]

def converse (s : Session σ) (acts : List Act) : Session σ :=
  acts.foldl (fun s act => (outcome (perform act) s).2) s

def posed (s : Session σ) (ts : List Term) : Session σ := s.converse (.push :: ts.map .assert)

/-- A new session whose back end does what needs no answer, and leaves it to the session to say when
a rule is broken. Checks and questions may fail. -/
structure Dependable (s₀ : Session σ) : Prop where
  scopes : s₀.scopes = [[]]
  isOpen : s₀.closed = false
  enters : ∀ ⦃frames s act⦄, Reached .any s₀ frames s → s.Accepts act → act.isEntry = true →
    (outcome (perform act) s).1 = .ok .done
  obeys : ∀ ⦃frames s act m⦄, Reached .any s₀ frames s → s.Accepts act →
    (outcome (perform act) s).1 ≠ .error (.misuse m)

structure Steady (s₀ : Session σ) (acts : List Act) (scopes : List (List Ref)) (s : Session σ) :
    Prop where
  said : s = s₀.converse acts
  opened : OpenWith .any s₀ (Act.framesOf acts) s
  scopes : s.scopes = scopes

section

variable {s₀ s s' : Session σ} {acts : List Act} {scopes : List (List Ref)} {α : Type}

theorem converse_append (acts more : List Act) :
    s.converse (acts ++ more) = (s.converse acts).converse more :=
  List.foldl_append

theorem Steady.new (hd : Dependable s₀) : Steady s₀ [] [[]] s₀ :=
  ⟨rfl, ⟨.new, hd.isOpen⟩, hd.scopes⟩

theorem Steady.proceed {op : SessionM σ α} {reply : α → Reply} {r : Except SessionError α}
    (hd : Dependable s₀) (h : Steady s₀ acts scopes s) (act : Act) (hclose : act ≠ .close)
    (hact : perform act = reply <$> op) (haccepts : s.Accepts act) (hs : outcome op s = (r, s')) :
    Steady s₀ (acts ++ [act]) (act.scopes scopes) s' ∧ (∀ m, r ≠ .error (.misuse m)) ∧
      (act.isEntry = true → ∃ x, r = .ok x) := by
  have hperform : outcome (perform act) s = (r.map reply, s') := by
    rw [hact, outcome_map, hs]
  have hentry : act.isEntry = true → ∃ x, r = .ok x := by
    intro hentry
    have hok := hd.enters h.opened.reached haccepts hentry
    rw [hperform] at hok
    cases r with
    | ok x => exact ⟨x, rfl⟩
    | error e => cases hok
  obtain ⟨hopened, hbooks⟩ := h.opened.after act hclose hact hs trivial
  have hscopes : s'.scopes = act.scopes scopes := by
    rcases op_cases act hact hs with ⟨hrefused, -⟩ | ⟨-, -, hscopes, -⟩
    · exact absurd haccepts hrefused
    · rw [hscopes, h.scopes]
  have hframes : act.after r s'.scopes (Act.framesOf acts) = Act.framesOf (acts ++ [act]) := by
    rw [Act.framesOf_concat]
    cases r with
    | ok x => rfl
    | error e =>
      -- an operation that can fail leaves scopes and assertions as they are
      obtain ⟨hlength, hpos⟩ := h.opened.reached.length hd.scopes
      have hsame : act.scopes s.scopes = s.scopes ∧ act.frames (Act.framesOf acts) = Act.framesOf acts := by
        cases act with
        | declare v step => exact absurd (hentry rfl) (by simp)
        | assert t => exact absurd (hentry rfl) (by simp)
        | push => exact absurd (hentry rfl) (by simp)
        | pop => exact absurd (hentry rfl) (by simp)
        | _ => exact ⟨rfl, rfl⟩
      rw [hsame.2, Act.after]
      apply aligned_of_length
      rw [hlength, hscopes, ← h.scopes, hsame.1]
  refine ⟨⟨?_, hframes ▸ hopened, hscopes⟩, fun m hm => ?_, hentry⟩
  · rw [converse_append, ← h.said]
    exact (congrArg Prod.snd hperform).symm
  · have hobeys := hd.obeys (m := m) h.opened.reached haccepts
    rw [hperform, hm] at hobeys
    exact hobeys rfl

theorem Steady.isDeclared (h : Steady s₀ acts scopes s) (r : Ref) :
    s.isDeclared r = true ↔ ∃ scope ∈ scopes, r ∈ scope := by
  simp [Session.isDeclared, h.scopes]

theorem Steady.declare {scope : List Ref} {outer : List (List Ref)} (hd : Dependable s₀)
    (h : Steady s₀ acts (scope :: outer) s) {v : Variable} {step : Nat}
    (hfresh : ∀ scope' ∈ scope :: outer, (⟨v, step⟩ : Ref) ∉ scope') :
    ∃ s', outcome (Session.declare v step) s = (.ok (), s') ∧
      Steady s₀ (acts ++ [.declare v step]) ((⟨v, step⟩ :: scope) :: outer) s' := by
  have hundeclared : s.isDeclared ⟨v, step⟩ = false := by
    rw [← Bool.not_eq_true, h.isDeclared]
    rintro ⟨scope', hmem, hr⟩
    exact hfresh scope' hmem hr
  have haccepts : s.Accepts (.declare v step) :=
    ⟨h.opened.isOpen, Int.natCast_nonneg step, hundeclared⟩
  rcases hs : outcome (Session.declare v step) s with ⟨r, s'⟩
  obtain ⟨hsteady, -, hok⟩ := h.proceed hd (.declare v step) (by simp) rfl haccepts hs
  obtain ⟨⟨⟩, rfl⟩ := hok rfl
  exact ⟨s', rfl, hsteady⟩

theorem Steady.assert (hd : Dependable s₀) (h : Steady s₀ acts scopes s) {t : Term}
    (hty : t.ty = .bool) (hrefs : ∀ r ∈ t.refs, ∃ scope ∈ scopes, r ∈ scope) :
    ∃ s', outcome (Session.assert t) s = (.ok (), s') ∧ Steady s₀ (acts ++ [.assert t]) scopes s' := by
  have haccepts : s.Accepts (.assert t) :=
    ⟨h.opened.isOpen, hty, fun r hr => (h.isDeclared r).mpr (hrefs r hr)⟩
  rcases hs : outcome (Session.assert t) s with ⟨r, s'⟩
  obtain ⟨hsteady, -, hok⟩ := h.proceed hd (.assert t) (by simp) rfl haccepts hs
  obtain ⟨⟨⟩, rfl⟩ := hok rfl
  exact ⟨s', rfl, hsteady⟩

theorem Steady.push (hd : Dependable s₀) (h : Steady s₀ acts scopes s) :
    ∃ s', outcome Session.push s = (.ok (), s') ∧ Steady s₀ (acts ++ [.push]) ([] :: scopes) s' := by
  rcases hs : outcome Session.push s with ⟨r, s'⟩
  obtain ⟨hsteady, -, hok⟩ := h.proceed hd .push (by simp) rfl h.opened.isOpen hs
  obtain ⟨⟨⟩, rfl⟩ := hok rfl
  exact ⟨s', rfl, hsteady⟩

theorem Steady.pop {scope : List Ref} (hscopes : scopes ≠ []) (hd : Dependable s₀)
    (h : Steady s₀ acts (scope :: scopes) s) :
    ∃ s', outcome Session.pop s = (.ok (), s') ∧ Steady s₀ (acts ++ [.pop]) scopes s' := by
  have htwo : 2 ≤ s.scopes.length := by
    have hpos := List.length_pos_iff.mpr hscopes
    rw [h.scopes, List.length_cons]
    omega
  rcases hs : outcome Session.pop s with ⟨r, s'⟩
  obtain ⟨hsteady, -, hok⟩ := h.proceed hd .pop (by simp) rfl ⟨h.opened.isOpen, htwo⟩ hs
  obtain ⟨⟨⟩, rfl⟩ := hok rfl
  exact ⟨s', rfl, hsteady⟩

theorem Steady.check {r : Except SessionError Answer} (hd : Dependable s₀)
    (h : Steady s₀ acts scopes s) (hs : outcome Session.check s = (r, s')) :
    Steady s₀ (acts ++ [.check]) scopes s' ∧ ∀ m, r ≠ .error (.misuse m) := by
  obtain ⟨hsteady, hobeys, -⟩ := h.proceed hd .check (by simp) rfl h.opened.isOpen hs
  exact ⟨hsteady, hobeys⟩

theorem Steady.values {refs : List Ref} {r : Except SessionError (Entries Ref Value)}
    (hd : Dependable s₀) (h : Steady s₀ acts scopes s) (hmodel : s.hasModel = true)
    (hrefs : ∀ r ∈ refs, ∃ scope ∈ scopes, r ∈ scope)
    (hs : outcome (Session.values refs) s = (r, s')) :
    Steady s₀ (acts ++ [.values refs]) scopes s' ∧ ∀ m, r ≠ .error (.misuse m) := by
  have haccepts : s.Accepts (.values refs) :=
    ⟨h.opened.isOpen, hmodel, fun r hr => (h.isDeclared r).mpr (hrefs r hr)⟩
  obtain ⟨hsteady, hobeys, -⟩ := h.proceed hd (.values refs) (by simp) rfl haccepts hs
  exact ⟨hsteady, hobeys⟩

end

end Session

end InvariantProver
