import InvariantProver.Proofs.Session.Scoping

namespace InvariantProver

namespace Act

def rise? (act : Act) (height : Nat) : Option Nat :=
  match act, height with
  | push, height => some (height + 1)
  | pop, 0 => none
  | pop, height + 1 => some height
  | _, height => some height

def height? (height : Nat) : List Act → Option Nat
  | [] => some height
  | act :: acts => (act.rise? height).bind (height? · acts)

def Balanced (acts : List Act) : Prop := height? 0 acts = some 0

instance (acts : List Act) : Decidable (Balanced acts) :=
  inferInstanceAs (Decidable (height? 0 acts = some 0))

variable {act : Act} {height height' : Nat}

theorem scopes_append {inner outer : List (List Ref)} (h : inner ≠ []) :
    act.scopes (inner ++ outer) = act.scopes inner ++ outer := by
  obtain ⟨scope, inner, rfl⟩ := List.exists_cons_of_ne_nil h
  cases act <;> rfl

theorem frames_append {inner outer : List (List Term)} (h : inner ≠ []) :
    act.frames (inner ++ outer) = act.frames inner ++ outer := by
  obtain ⟨frame, inner, rfl⟩ := List.exists_cons_of_ne_nil h
  cases act <;> rfl

theorem level_of_rise (h : act.rise? height = some height') : act.level (height + 1) = height' + 1 := by
  cases act with
  | pop =>
    cases height with
    | zero => cases h
    | succ height => exact congrArg Nat.succ (Option.some.inj h)
  | _ => exact congrArg Nat.succ (Option.some.inj h)

end Act

namespace Session

section

variable {σ : Type}

structure SameBooks (s t : Session σ) : Prop where
  name : s.name = t.name
  closed : s.closed = t.closed
  scopes : s.scopes = t.scopes

theorem SameBooks.refusal?_eq {s t : Session σ} (h : s.SameBooks t) {act : Act}
    (hmodel : act.isQuestion = true → s.hasModel = t.hasModel) : s.refusal? act = t.refusal? act := by
  have hdeclared : s.isDeclared = t.isDeclared := by
    funext r
    rw [isDeclared, isDeclared, h.scopes]
  rw [refusal?, refusal?, h.closed, h.name]
  cases act with
  | values refs => simp only [brokenRule?, undeclared?, hdeclared, hmodel rfl]
  | _ => simp only [brokenRule?, undeclared?, hdeclared, h.scopes]

theorem SameBooks.accepts_iff {s t : Session σ} (h : s.SameBooks t) {act : Act}
    (hmodel : act.isQuestion = true → s.hasModel = t.hasModel) : s.Accepts act ↔ t.Accepts act := by
  rw [← refusal?_eq_none, ← refusal?_eq_none, h.refusal?_eq hmodel]

end

variable {σ : Type} [Backend σ] {s t : Session σ} {act : Act} {acts : List Act}

theorem SameBooks.perform (h : s.SameBooks t) (act : Act) :
    (outcome (perform act) s).2.SameBooks (outcome (Session.perform act) t).2 where
  name := by rw [name_perform, name_perform, h.name]
  closed := by
    by_cases hact : act = .close
    · rw [hact, closed_close, closed_close]
    · rw [closed_perform hact, closed_perform hact, h.closed]
  scopes := by
    by_cases hentry : act.isEntry = true
    · have hiff : s.Accepts act ↔ t.Accepts act :=
        h.accepts_iff (by simp [Act.isQuestion_of_isEntry hentry])
      by_cases haccepts : s.Accepts act
      · rw [scopes_entry hentry haccepts, scopes_entry hentry (hiff.mp haccepts), h.scopes]
      · rw [scopes_other fun hboth => haccepts hboth.2,
          scopes_other fun hboth => haccepts (hiff.mpr hboth.2), h.scopes]
    · rw [scopes_other fun hboth => hentry hboth.1, scopes_other fun hboth => hentry hboth.1, h.scopes]

theorem SameBooks.converse (h : s.SameBooks t) (acts : List Act) :
    (s.converse acts).SameBooks (t.converse acts) := by
  induction acts generalizing s t with
  | nil => exact h
  | cons act acts ih => exact ih (h.perform act)

structure Above (L : Ledger σ) (before : Session σ) (fs : List (List Term)) (height : Nat)
    (s : Session σ) : Prop where
  isOpen : s.closed = false
  name : s.name = before.name
  scopes : ∃ inner, inner.length = height + 1 ∧ s.scopes = inner ++ before.scopes
  frames : ∃ inner, inner.length = height + 1 ∧ L.Shows (inner ++ fs) s.link

section

variable {L : Ledger σ} {before : Session σ} {fs : List (List Term)} {height height' : Nat}

theorem Above.perform (h : Above L before fs height s) (hbefore : before.scopes ≠ [])
    (hact : act ≠ .close) (hrise : act.rise? height = some height') (henters : s.Enters act) :
    Above L before fs height' (outcome (perform act) s).2 := by
  obtain ⟨inner, hinner, hscopes⟩ := h.scopes
  obtain ⟨frames, hframes, hshows⟩ := h.frames
  have hinner_ne : inner ≠ [] := List.ne_nil_of_length_eq_add_one hinner
  have hframes_ne : frames ≠ [] := List.ne_nil_of_length_eq_add_one hframes
  have hisOpen := (closed_perform hact).trans h.isOpen
  have hname := (name_perform s act).trans h.name
  by_cases hentry : act.isEntry = true ∧ s.Accepts act
  · refine ⟨hisOpen, hname, ⟨act.scopes inner, ?_, ?_⟩, act.frames frames, ?_, ?_⟩
    · rw [Act.length_scopes hinner_ne, hinner, Act.level_of_rise hrise]
    · rw [scopes_entry hentry.1 hentry.2, hscopes, Act.scopes_append hinner_ne]
    · rw [Act.length_frames hframes_ne, hframes, Act.level_of_rise hrise]
    · rw [← Act.frames_append hframes_ne]
      exact hshows.entry hentry.1 hentry.2 (fun _ _ => by simp [hframes_ne]) henters
  · -- pushes and pops are entered, so the height is the same
    obtain rfl : height' = height := by
      cases act with
      | push => exact absurd ⟨rfl, h.isOpen⟩ hentry
      | pop =>
        refine absurd ⟨rfl, h.isOpen, ?_⟩ hentry
        have hpos := List.length_pos_iff.mpr hbefore
        rw [hscopes, List.length_append]
        omega
      | _ => exact (Option.some.inj hrise).symm
    exact ⟨hisOpen, hname, ⟨inner, hinner, (scopes_other hentry).trans hscopes⟩, frames, hframes,
      hshows.other hact hentry⟩

theorem Above.converse (h : Above L before fs height s) (hbefore : before.scopes ≠ [])
    (hclose : .close ∉ acts) (hheight : Act.height? height acts = some height')
    (hunfailing : s.Unfailing acts) : Above L before fs height' (s.converse acts) := by
  induction acts generalizing s height with
  | nil =>
    obtain rfl := Option.some.inj hheight
    exact h
  | cons act acts ih =>
    rw [List.mem_cons, not_or] at hclose
    obtain ⟨next, hrise, hrest⟩ := Option.bind_eq_some_iff.mp hheight
    exact ih (h.perform hbefore (Ne.symm hclose.1) hrise hunfailing.1) hclose.2 hrest hunfailing.2

end

theorem unfailing_append {acts more : List Act} :
    s.Unfailing (acts ++ more) ↔ s.Unfailing acts ∧ (s.converse acts).Unfailing more := by
  induction acts generalizing s with
  | nil => simp [Unfailing, converse]
  | cons act acts ih =>
    rw [List.cons_append, Unfailing, Unfailing, ih, and_assoc]
    rfl

theorem converse_closed (h : s.closed = true) (acts : List Act) :
    (s.converse acts).SameBooks s ∧ (s.converse acts).link.backend = s.link.backend := by
  induction acts generalizing s with
  | nil => exact ⟨⟨rfl, rfl, rfl⟩, rfl⟩
  | cons act acts ih =>
    have hclosed : (outcome (perform act) s).2.closed = true := by
      by_cases hact : act = .close
      · rw [hact, closed_close]
      · rw [closed_perform hact, h]
    have hother : ¬ (act.isEntry = true ∧ s.Accepts act) := by
      rintro ⟨hentry, haccepts⟩
      have hopen := isOpen_of_accepts haccepts (Act.needsOpen_of_isEntry hentry)
      rw [h] at hopen
      cases hopen
    have hreaches : ¬ s.Reaches act := by
      rintro ⟨hopen, -⟩
      rw [h] at hopen
      cases hopen
    obtain ⟨hbooks, hbackend⟩ := ih hclosed
    refine ⟨⟨hbooks.name.trans (name_perform s act), ?_, hbooks.scopes.trans (scopes_other hother)⟩,
      hbackend.trans (backend_of_not_reaches hreaches)⟩
    rw [h, ← hclosed]
    exact hbooks.closed

section

variable (hscopes : s.scopes ≠ []) (hclose : .close ∉ acts) (hbalanced : Act.Balanced acts)
  (hunfailing : s.Unfailing (.push :: acts ++ [.pop]))
include hscopes hclose hbalanced hunfailing

theorem restored_of_open (L : Ledger σ) (hopen : s.closed = false) :
    (s.converse (.push :: acts ++ [.pop])).SameBooks s ∧
      L.Shows (L.frames s.link.backend) (s.converse (.push :: acts ++ [.pop])).link := by
  obtain ⟨hpush, hrest⟩ := hunfailing
  obtain ⟨hinner, hpop, -⟩ := unfailing_append.mp hrest
  have hpushed : s.Accepts .push := hopen
  have hstart : Above L s (L.frames s.link.backend) 0 (outcome (perform .push) s).2 := by
    refine ⟨(closed_perform (by simp)).trans hopen, name_perform s .push, ⟨[[]], rfl, ?_⟩, [[]], rfl, ?_⟩
    · exact scopes_entry rfl hpushed
    · exact Ledger.Shows.entry (.inl rfl) rfl hpushed (by simp) hpush
  have hend := hstart.converse hscopes hclose hbalanced hinner
  have hconverse : s.converse (.push :: acts ++ [.pop]) =
      (outcome (perform .pop) ((outcome (perform .push) s).2.converse acts)).2 :=
    converse_append (s := (outcome (perform .push) s).2) acts [.pop]
  rw [hconverse]
  obtain ⟨inner, hlength, hinner⟩ := hend.scopes
  obtain ⟨frames, hframes, hshows⟩ := hend.frames
  obtain ⟨scope, rfl⟩ := List.length_eq_one_iff.mp hlength
  obtain ⟨frame, rfl⟩ := List.length_eq_one_iff.mp hframes
  have hpopped : ((outcome (perform .push) s).2.converse acts).Accepts .pop := by
    have hpos := List.length_pos_iff.mpr hscopes
    refine ⟨hend.isOpen, ?_⟩
    rw [hinner, List.length_append]
    omega
  refine ⟨⟨(name_perform _ _).trans hend.name, ?_, ?_⟩, ?_⟩
  · rw [closed_perform (by simp), hend.isOpen, hopen]
  · rw [scopes_entry rfl hpopped, hinner]
    rfl
  · exact hshows.entry rfl hpopped (by simp) hpop

/-- Between a push and the pop that takes it back, a session may be asked for anything but its end. Then its
declarations and the assertions in force are those from before, and whatever comes later, it accepts and
refuses the same operations as without the push, but for a model that may be pending. -/
theorem pop_restores (L : Ledger σ) :
    let s' := s.converse (.push :: acts ++ [.pop])
    s'.scopes = s.scopes ∧ s'.depth = s.depth ∧
      (L.frames s'.link.backend = L.frames s.link.backend ∨ L.deaf s'.link) ∧
      ∀ later act, (act.isQuestion = true → (s'.converse later).hasModel = (s.converse later).hasModel) →
        ((s'.converse later).Accepts act ↔ (s.converse later).Accepts act) ∧
        (¬ (s.converse later).Accepts act →
          (outcome (perform act) (s'.converse later)).1 = (outcome (perform act) (s.converse later)).1) := by
  have hrestored : (s.converse (.push :: acts ++ [.pop])).SameBooks s ∧
      L.Shows (L.frames s.link.backend) (s.converse (.push :: acts ++ [.pop])).link := by
    cases hclosed : s.closed with
    | false => exact restored_of_open hscopes hclose hbalanced hunfailing L hclosed
    | true =>
      obtain ⟨hbooks, hbackend⟩ := converse_closed hclosed (.push :: acts ++ [.pop])
      exact ⟨hbooks, .inl (by rw [hbackend])⟩
  obtain ⟨hbooks, hshows⟩ := hrestored
  refine ⟨hbooks.scopes, by rw [depth, depth, hbooks.scopes], hshows, fun later act hmodel => ?_⟩
  have hlater := hbooks.converse later
  refine ⟨hlater.accepts_iff hmodel, fun hrefused => ?_⟩
  obtain ⟨m, hm⟩ := Option.ne_none_iff_exists'.mp fun hnone => hrefused (refusal?_eq_none.mp hnone)
  rw [outcome_refused hm, outcome_refused ((hlater.refusal?_eq hmodel).trans hm)]

end

def setting : List Act := [.declare ⟨"x", .bool, .state⟩ 0, .assert (.ref ⟨⟨"x", .bool, .state⟩, 0⟩)]

def interlude : List Act :=
  [.declare ⟨"y", .bool, .state⟩ 1, .push, .declare ⟨"z", .bool, .state⟩ 0,
    .assert (.ref ⟨⟨"z", .bool, .state⟩, 0⟩), .declare ⟨"x", .bool, .state⟩ 0, .check, .pop,
    .assert (.ref ⟨⟨"z", .bool, .state⟩, 0⟩), .declare ⟨"z", .bool, .state⟩ 0, .values [], .interrupt, .push,
    .assert (.ref ⟨⟨"y", .bool, .state⟩, 1⟩), .pop, .assert (.ref ⟨⟨"z", .bool, .state⟩, 0⟩)]

theorem pop_restores_setting :
    (((Memory.session "memory" Oracle.silent).converse setting).converse
        (.push :: interlude ++ [.pop])).link.backend.frames =
      [[.ref ⟨⟨"x", .bool, .state⟩, 0⟩]] ∧
    Act.framesOf (((Pipe.session (Solver.ofName "z3") 0 {}).converse setting).converse
        (.push :: interlude ++ [.pop])).link.backend.log =
      [[.ref ⟨⟨"x", .bool, .state⟩, 0⟩]] := by
  constructor
  · obtain ⟨-, -, hframes | hdeaf, -⟩ :=
      pop_restores (s := (Memory.session "memory" Oracle.silent).converse setting)
        (by decide +kernel) (by decide) (by decide) (unfailing_memory _ (.push :: interlude ++ [.pop]))
        Memory.ledger
    · rw [← Memory.frames_ledger, hframes]
      decide +kernel
    · exact hdeaf.elim
  · have hnew : Pipe.Receptive (Pipe.session (Solver.ofName "z3") 0 {}).link := rfl
    have hset := link_converse Pipe.receptive_stays hnew setting
    obtain ⟨-, -, hframes | hdeaf, -⟩ :=
      pop_restores (s := (Pipe.session (Solver.ofName "z3") 0 {}).converse setting)
        (by decide +kernel) (by decide) (by decide) (unfailing_pipe hset (.push :: interlude ++ [.pop]))
        Pipe.ledger
    · rw [← Pipe.frames_ledger, hframes]
      decide +kernel
    · have hreceptive := link_converse Pipe.receptive_stays hset (.push :: interlude ++ [.pop])
      cases hdeaf.2.symm.trans hreceptive

end Session

end InvariantProver
