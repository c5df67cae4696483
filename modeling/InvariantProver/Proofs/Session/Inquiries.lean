import InvariantProver.Proofs.Data.Pairs
import InvariantProver.Proofs.SExpr.Faults
import InvariantProver.Proofs.Session.Refusals
import InvariantProver.Proofs.Session.Unknowns

namespace InvariantProver

open SExpr

def SolverFault.isArithmetic : SolverFault → Bool
  | badValue e => e.isArithmetic
  | _ => false

def Informs (refs : List Ref) : Except SessionError (Entries Ref Value) → Prop
  | .ok entries => ∀ r ∈ refs, ∃ v ∈ Entries.get? r entries, v.HasTy r.ty
  | .error (.solver fault) => fault.isArithmetic = false
  | .error _ => False

instance (refs : List Ref) : (r : Except SessionError (Entries Ref Value)) → Decidable (Informs refs r)
  | .ok entries => inferInstanceAs (Decidable (∀ r ∈ refs, ∃ v ∈ Entries.get? r entries, v.HasTy r.ty))
  | .error (.solver fault) => inferInstanceAs (Decidable (fault.isArithmetic = false))
  | .error (.misuse _) | .error .unsupported => inferInstanceAs (Decidable False)

namespace Pipe

inductive EntriesFault : List Ref → List SExpr → Prop
  | here {r : Ref} {e head : SExpr} {refs : List Ref} {entries : List SExpr} : e.Faults r.ty →
      EntriesFault (r :: refs) (.list [head, e] :: entries)
  | there {r : Ref} {e head : SExpr} {v : Value} {refs : List Ref} {entries : List SExpr} :
      e.value r.ty = .ok v → EntriesFault refs entries → EntriesFault (r :: refs) (.list [head, e] :: entries)

def TextFaults (refs : List Ref) (text : String) : Prop :=
  ∃ entries, parseOne text = .ok (.list entries) ∧ entries.length = refs.length ∧ EntriesFault refs entries

section

variable {link link' : Link Pipe} {r : Ref} {refs : List Ref} {entries : List SExpr}

theorem outcome_entry_pair (r : Ref) (head e : SExpr) (link : Link Pipe) :
    outcome (entry r (.list [head, e])) link = (match e.value r.ty with
      | .ok v => .ok (r, v)
      | .error fault => .error (.solver (.badValue fault)), link) := by
  unfold entry
  dsimp only
  cases e.value r.ty <;> rfl

theorem entry_cases (r : Ref) (item : SExpr) (link : Link Pipe) :
    (∃ head e, item = .list [head, e]) ∨
      outcome (entry r item) link = (.error (.solver (.unexpectedEntry link.backend.solver.name item)), link) := by
  unfold entry
  split
  · exact .inl ⟨_, _, rfl⟩
  · exact .inr rfl

theorem entries_of_fault (link : Link Pipe) (h : EntriesFault refs entries) :
    ∃ n, outcome ((refs.zip entries).mapM fun (r, e) => entry r e) link =
      (.error (.solver (.badValue (.fraction (.zeroDenominator n)))), link) := by
  induction h with
  | @here r e head refs entries h =>
    obtain ⟨n, hn⟩ := value_of_divides h.1 h.2
    refine ⟨n, ?_⟩
    rw [List.zip_cons_cons, List.mapM_cons, outcome_bind, outcome_entry_pair, hn]
  | @there r e head v refs entries hv _ ih =>
    obtain ⟨n, hn⟩ := ih
    refine ⟨n, ?_⟩
    have hentry : outcome (entry r (.list [head, e])) link = (.ok (r, v), link) := by
      rw [outcome_entry_pair, hv]
    rw [List.zip_cons_cons, List.mapM_cons, outcome_bind_of_ok hentry, outcome_bind, hn]

def Typed (refs : List Ref) (pairs : List (Ref × Value)) : Prop :=
  pairs.map Prod.fst = refs ∧ ∀ pair ∈ pairs, pair.2.HasTy pair.1.ty

theorem entries_of_not_fault (link : Link Pipe) (hlength : entries.length = refs.length)
    (h : ¬ EntriesFault refs entries) :
    (∃ pairs, outcome ((refs.zip entries).mapM fun (r, e) => entry r e) link = (.ok pairs, link) ∧
        Typed refs pairs) ∨
      ∃ fault, outcome ((refs.zip entries).mapM fun (r, e) => entry r e) link = (.error (.solver fault), link) ∧
        fault.isArithmetic = false := by
  induction refs generalizing entries with
  | nil => exact .inl ⟨[], rfl, rfl, by simp⟩
  | cons r refs ih =>
    cases entries with
    | nil => cases hlength
    | cons item entries =>
      rw [List.zip_cons_cons, List.mapM_cons]
      rcases entry_cases r item link with ⟨head, e, rfl⟩ | hodd
      · have hreported := reported_of_not_faults fun hfaults => h (.here hfaults)
        have hentry := outcome_entry_pair r head e link
        cases hvalue : e.value r.ty with
        | error fault =>
          rw [hvalue] at hreported hentry
          exact .inr ⟨.badValue fault, by rw [outcome_bind, hentry], hreported⟩
        | ok v =>
          rw [hvalue] at hreported hentry
          rw [outcome_bind_of_ok hentry]
          rcases ih (Nat.succ.inj hlength) fun hlater => h (.there hvalue hlater) with
            ⟨pairs, hpairs, hkeys, htyped⟩ | ⟨fault, hfault, hother⟩
          · refine .inl ⟨(r, v) :: pairs, by rw [outcome_bind_of_ok hpairs]; rfl, by rw [List.map_cons, hkeys], ?_⟩
            intro pair hpair
            rcases List.mem_cons.mp hpair with rfl | hpair
            · exact hreported
            · exact htyped pair hpair
          · exact .inr ⟨fault, by rw [outcome_bind, hfault], hother⟩
      · exact .inr ⟨_, by rw [outcome_bind, hodd], rfl⟩

theorem Typed.informs {pairs : List (Ref × Value)} (h : Typed refs pairs) :
    Informs refs (.ok (Entries.ofList pairs)) := by
  intro r hr
  obtain ⟨v, hv⟩ := Entries.exists_get?_ofList (by rwa [h.1] : r ∈ pairs.map Prod.fst)
  exact ⟨v, hv, h.2 _ (Entries.mem_of_get?_ofList hv)⟩

def answer? (refs : List Ref) (link : Link Pipe) : Option String :=
  match outcome (do send (.getValue refs); response?) link with
  | (.ok text?, _) => text?
  | (.error _, _) => none

theorem error_of_send {c : Command} {e : SessionError} (h : outcome (send c) link = (.error e, link')) :
    ∃ reason, e = .solver (.stopped link.backend.solver.name reason) := by
  unfold send at h
  rw [outcome_bind_of_ok (outcome_get link)] at h
  cases hwrite : link.backend.peer.write c with
  | ok peer =>
    simp only [hwrite] at h
    cases h
  | error fault =>
    simp only [hwrite] at h
    split at h
    · cases h
      exact ⟨_, rfl⟩
    · cases h

theorem error_of_response {e : SessionError} (h : outcome response? link = (.error e, link')) :
    ∃ text, e = .solver (.reported link.backend.solver.name text) := by
  rcases hread : link.backend.peer.read with ⟨reading, peer⟩
  by_cases htext : ∃ text, reading = .response text
  · obtain ⟨text, rfl⟩ := htext
    rw [outcome_read hread] at h
    split at h
    · cases h
      exact ⟨text, rfl⟩
    · cases h
  · obtain ⟨later, hnone⟩ := outcome_unread hread fun text htext' => htext ⟨text, htext'⟩
    rw [hnone] at h
    cases h

theorem error_of_asked {c : Command} {e : SessionError}
    (h : outcome (do send c; response?) link = (.error e, link')) :
    ∃ fault, e = .solver fault ∧ fault.isArithmetic = false := by
  rw [outcome_bind] at h
  cases hsend : outcome (send c) link with
  | mk r sent =>
    rw [hsend] at h
    cases r with
    | error e' =>
      obtain ⟨reason, hreason⟩ := error_of_send hsend
      obtain rfl := Except.error.inj (Prod.mk.inj h).1
      exact ⟨_, hreason, rfl⟩
    | ok _ =>
      obtain ⟨text, rfl⟩ := error_of_response h
      exact ⟨_, rfl, rfl⟩

theorem ask_of_text {text : String} (h : answer? refs link = some text) (hfaults : TextFaults refs text) :
    ∃ n link', outcome (ask refs) link = (.error (.solver (.badValue (.fraction (.zeroDenominator n)))), link') := by
  unfold answer? at h
  split at h
  · next text? heard hasked =>
    subst h
    obtain ⟨entries, hparse, hlength, hentries⟩ := hfaults
    obtain ⟨n, hn⟩ := entries_of_fault heard hentries
    refine ⟨n, heard, ?_⟩
    unfold ask
    rw [outcome_asked hasked]
    dsimp only
    rw [outcome_bind_of_ok (outcome_parsed hparse)]
    dsimp only
    rw [if_neg (by simp [hlength]), outcome_bind, hn]
  · cases h

theorem ask_informs (h : ∀ text, answer? refs link = some text → ¬ TextFaults refs text) :
    Informs refs (outcome (ask refs) link).1 := by
  rcases hasked : outcome (do send (.getValue refs); response?) link with ⟨e | text?, heard⟩
  · obtain ⟨fault, rfl, hfault⟩ := error_of_asked hasked
    have hask : outcome (ask refs) link = (.error (.solver fault), heard) := by
      unfold ask
      rw [← bind_assoc, outcome_bind, hasked]
    rw [hask]
    exact hfault
  · have hanswer : answer? refs link = text? := by
      unfold answer?
      rw [hasked]
    unfold ask
    rw [outcome_asked hasked]
    cases text? with
    | none => rfl
    | some text =>
      dsimp only
      cases hparse : parseOne text with
      | error e =>
        rw [outcome_bind, outcome_parsed_of_error hparse]
        rfl
      | ok e =>
        rw [outcome_bind_of_ok (outcome_parsed hparse)]
        cases e with
        | atom text => rfl
        | list entries =>
          dsimp only
          by_cases hlength : entries.length = refs.length
          · rw [if_neg (by simp [hlength])]
            rcases entries_of_not_fault heard hlength fun hentries =>
              h text hanswer ⟨entries, hparse, hlength, hentries⟩ with
              ⟨pairs, hpairs, htyped⟩ | ⟨fault, hfault, hother⟩
            · rw [outcome_bind_of_ok hpairs]
              exact htyped.informs
            · rw [outcome_bind, hfault]
              exact hother
          · rw [if_pos hlength]
            rfl

theorem outcome_declared {s : Session Pipe} (hopen : s.closed = false) (hmodel : s.hasModel = true)
    (hrefs : s.undeclared? refs = none) : outcome (Session.values refs) s =
      ((outcome (Pipe.values refs) s.link).1, { s with link := (outcome (Pipe.values refs) s.link).2 }) := by
  unfold Session.undeclared? at hrefs
  rw [Session.outcome_values, if_neg (by simp [hopen]), if_pos hmodel, hrefs]
  rfl

theorem not_textFaults_nil (text : String) : ¬ TextFaults [] text := by
  rintro ⟨entries, -, -, hentries⟩
  cases hentries

end

/-- An expression that is no value of a type is reported as none, and to a question for values a session answers
with values of the right types or reports a failure of the solver, but where a division by zero comes up first:
that escapes as it is. -/
theorem malformed_reported_unless_divided (e : SExpr) (ty : Ty) {s : Session Pipe} (refs : List Ref)
    (hopen : s.closed = false) (hmodel : s.hasModel = true) :
    (¬ e.Faults ty → Reported ty (e.value ty)) ∧
      (e.Faults ty → ∃ n, e.value ty = .error (.fraction (.zeroDenominator n))) ∧
      (∀ r, s.undeclared? refs = some r →
        outcome (Session.values refs) s = (.error (.misuse (.undeclaredValue r)), s)) ∧
      (s.undeclared? refs = none →
        ((∀ text, answer? refs s.link = some text → ¬ TextFaults refs text) →
          Informs refs (outcome (Session.values refs) s).1) ∧
        ∀ text, answer? refs s.link = some text → TextFaults refs text → ∃ n s',
          outcome (Session.values refs) s = (.error (.solver (.badValue (.fraction (.zeroDenominator n)))), s')) := by
  refine ⟨reported_of_not_faults, fun h => value_of_divides h.1 h.2, fun r hr => ?_, fun hrefs => ?_⟩
  · unfold Session.undeclared? at hr
    rw [Session.outcome_values, if_neg (by simp [hopen]), if_pos hmodel, hr]
  rw [outcome_declared hopen hmodel hrefs]
  unfold Pipe.values
  by_cases hempty : refs = []
  · subst hempty
    refine ⟨fun _ => ?_, fun text _ hfaults => absurd hfaults (not_textFaults_nil text)⟩
    rw [if_pos rfl]
    intro r hr
    cases hr
  · rw [if_neg hempty]
    refine ⟨ask_informs, fun text htext hfaults => ?_⟩
    obtain ⟨n, link', hask⟩ := ask_of_text htext hfaults
    rw [hask]
    exact ⟨n, _, rfl⟩

def level : Ref := ⟨⟨"x", .rat, .state⟩, 0⟩

def responding (text : String) : Session Pipe :=
  let reply (commands : List Command) : List Line :=
    match commands.getLast? with
    | some (.getValue _) => [.text text]
    | _ => []
  { Pipe.session ⟨"z3", "z3", ["-in", "-smt2"]⟩ 0 { react := reply } with scopes := [[level]], hasModel := true }

theorem eq_ok_of_toOption {ε α : Type} {r : Except ε α} {a : α} (h : r.toOption = some a) : r = .ok a := by
  cases r with
  | error e => cases h
  | ok b => exact congrArg Except.ok (Option.some.inj h)

theorem truth_value_reported :
    Reported .rat ((SExpr.atom "true").value .rat) ∧
      Informs [level] (outcome (Session.values [level]) (responding "((|x@0| true))")).1 := by
  obtain ⟨hreported, -, -, hinforms⟩ := malformed_reported_unless_divided (.atom "true") .rat [level]
    (rfl : (responding "((|x@0| true))").closed = false) rfl
  have hword : ¬ (SExpr.atom "true").Faults .rat := by
    intro hfaults
    obtain ⟨n, hn⟩ := (divides_atom_iff "true").mp hfaults.2
    have hnone : Fraction.quotient? (Text.takeSign (Text.trim "true".toList)).2 = none := by decide +kernel
    rw [hnone] at hn
    cases hn
  refine ⟨hreported hword, (hinforms (by decide)).1 fun text htext => ?_⟩
  have hanswer : answer? [level] (responding "((|x@0| true))").link = some "((|x@0| true))" := by rfl
  obtain rfl := Option.some.inj (hanswer.symm.trans htext)
  rintro ⟨entries, hparse, -, hentries⟩
  have hread : parseOne "((|x@0| true))" = .ok (.list [.list [.atom "x@0", .atom "true"]]) := by
    apply parseOne_of_ofText
    apply eq_ok_of_toOption
    simp only [tokens_list, tokens_atom, List.flatMap_cons, List.flatMap_nil]
    decide +kernel
  obtain rfl := SExpr.list.inj (Except.ok.inj (hread.symm.trans hparse))
  cases hentries with
  | here hfaults => exact hword hfaults
  | there _ hlater => cases hlater

/-- `(/ 1 0)` -/
def unbounded : SExpr := .list [.atom "/", .atom "1", .atom "0"]

theorem unbounded_not_reported : ¬ Reported .rat (unbounded.value .rat) ∧
    ∃ s : Session Pipe, s.closed = false ∧ s.hasModel = true ∧ s.isDeclared level = true ∧
      answer? [level] s.link = some "((|x@0| (/ 1 0)))" ∧
      ¬ Informs [level] (outcome (Session.values [level]) s).1 := by
  constructor
  · decide +kernel
  · exact ⟨responding "((|x@0| (/ 1 0)))", rfl, rfl, rfl, rfl, by decide +kernel⟩

end Pipe

end InvariantProver
