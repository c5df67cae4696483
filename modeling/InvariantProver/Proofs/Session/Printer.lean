import InvariantProver.Proofs.Session.Dialogue
import InvariantProver.Proofs.Smt.Meaning

namespace InvariantProver

open Text Peer

namespace SExpr

theorem written_plain {text : String} (hne : text ≠ "")
    (h : ∀ c ∈ text.toList, Token.isPlain c = true) : Token.Written (atom text).tokens text.toList := by
  obtain ⟨c, cs, hcs⟩ := List.exists_cons_of_ne_nil fun hnil => hne (String.toList_eq_nil_iff.mp hnil)
  rw [hcs] at h
  have hwritten := Token.Written.one (.plain h)
  rwa [← hcs, String.ofList_toList] at hwritten

theorem written_symbol {r : Ref} (h : '|' ∉ r.var.name.toList) :
    Token.Written (atom r.text).tokens r.smt.toList := by
  have hwritten := Token.Written.one (.barred (Ref.not_mem_text h))
  rw [String.ofList_toList] at hwritten
  have htext : r.smt.toList = '|' :: (r.text.toList ++ ['|']) := by simp [Ref.smt]
  rwa [htext]

def quotedText (s : String) : String := String.ofList ('"' :: (Token.doubled s.toList ++ ['"']))

theorem written_quoted (s : String) : Token.Written (atom s).tokens (quotedText s).toList := by
  have hwritten := Token.Written.one (.quoted s.toList)
  rw [String.ofList_toList] at hwritten
  rwa [quotedText, String.toList_ofList]

theorem written_natText (n : Nat) : Token.Written (atom (natText n)).tokens (natText n).toList :=
  written_plain (natText_ne_empty n) fun _ hc => Token.isPlain_of_isDigit (isDigit_of_mem_natText hc)

theorem written_decimalText (n : Nat) :
    Token.Written (atom (Scalar.decimalText n)).tokens (Scalar.decimalText n).toList := by
  apply written_plain
  · intro hempty
    have hlist := congrArg String.toList hempty
    simp [Scalar.decimalText] at hlist
  · intro c hc
    rw [Scalar.decimalText, String.toList_append, List.mem_append] at hc
    rcases hc with hc | hc
    · exact Token.isPlain_of_isDigit (isDigit_of_mem_natText hc)
    · have hpoint : ".0".toList.all Token.isPlain = true := by decide
      exact List.all_eq_true.mp hpoint c hc

theorem written_items {parts : List (SExpr × String)} (hne : parts ≠ [])
    (h : ∀ part ∈ parts, Token.Written part.1.tokens part.2.toList) :
    Token.Written (list (parts.map Prod.fst)).tokens (parenthesized (parts.map Prod.snd)).toList := by
  obtain ⟨part, parts, rfl⟩ := List.exists_cons_of_ne_nil hne
  exact written_parenthesized Prod.fst Prod.snd part parts h

theorem written_signed {body : SExpr} {text : String} (h : Token.Written body.tokens text.toList)
    (negative : Bool) :
    Token.Written (Scalar.signedExpr negative body).tokens (signedText negative text).toList := by
  cases negative with
  | false => exact h
  | true =>
    have hminus : Token.Written (atom "-").tokens "-".toList :=
      written_plain (by decide) (List.all_eq_true.mp (by decide))
    have hparts : ∀ part ∈ [(atom "-", "-"), (body, text)], Token.Written part.1.tokens part.2.toList := by
      simp only [List.mem_cons, List.not_mem_nil, or_false]
      rintro part (rfl | rfl)
      · exact hminus
      · exact h
    exact written_items (by simp) hparts

theorem written_scalar (value : Scalar) : Token.Written value.sexpr.tokens value.smt.toList := by
  cases value with
  | bool b => cases b <;> exact written_plain (by decide) (List.all_eq_true.mp (by decide))
  | int i => exact written_signed (written_natText _) _
  | rat q =>
    apply written_signed
    split
    · exact written_decimalText _
    · have hparts : ∀ part ∈ [(atom "/", "/"),
          (atom (Scalar.decimalText q.num.natAbs), Scalar.decimalText q.num.natAbs),
          (atom (Scalar.decimalText q.den), Scalar.decimalText q.den)],
          Token.Written part.1.tokens part.2.toList := by
        simp only [List.mem_cons, List.not_mem_nil, or_false]
        rintro part (rfl | rfl | rfl)
        · exact written_plain (by decide) (List.all_eq_true.mp (by decide))
        · exact written_decimalText _
        · exact written_decimalText _
      exact written_items (by simp) hparts

end SExpr

namespace Command

def frames : Command → List (List Term) → List (List Term)
  | assert t => (Act.assert t).frames
  | push => Act.push.frames
  | pop => Act.pop.frames
  | _ => id

def inForce (commands : List Command) : List Term :=
  active (commands.foldl (fun frames c => c.frames frames) [[]])

theorem inForce_eq {vs : List Variable} {commands : List Command} {scopes : List (List Ref)}
    {frames : List (List Term)} (h : Dialogue vs commands scopes frames) :
    inForce commands = active frames := by
  have hfold : commands.foldl (fun frames c => c.frames frames) [[]] = frames := by
    induction h with
    | new => rfl
    | _ => simp_all [List.foldl_append, Command.frames, Act.frames]
  rw [inForce, hfold]

end Command

def Value.printed : Value → String
  | .exact s => s.smt
  | .algebraic text _ => text

def Opinion.entryText (o : Opinion) (r : Ref) : String :=
  parenthesized [r.smt, (Memory.valueOf o r).printed]

def Opinion.responseText? (o : Opinion) : Command → Option String
  | .checkSat => some o.answer.text
  | .getValue refs => some (parenthesized (refs.map o.entryText))
  | .reasonUnknown =>
    match o.answer with
    | .unknown (some reason) => some (parenthesized [":reason-unknown", SExpr.quotedText reason])
    | _ => none
  | _ => none

def Oracle.printer (oracle : Oracle) (commands : List Command) : List Line :=
  match commands.getLast? with
  | some c => ((oracle (Command.inForce commands)).responseText? c).toList.map .text
  | none => []

structure Oracle.Sensible (vs : List Variable) (oracle : Oracle) : Prop where
  reasons : ∀ ts, (oracle ts).answer ≠ .unknown none
  values : ∀ ts r, (oracle ts).answer = .sat → r.var ∈ vs →
    ∃ value : Scalar, Memory.valueOf (oracle ts) r = .exact value ∧ value.ty = r.ty

theorem content?_answerText (a : Answer) : content? a.text = some a.text := by
  have hwords : ∀ word ∈ ["sat", "unsat", "unknown"],
      word ≠ "" ∧ word.toList.all Token.isPlain = true := by decide
  have hword : a.text ∈ ["sat", "unsat", "unknown"] := by cases a <;> simp [Answer.text]
  obtain ⟨hne, hplain⟩ := hwords a.text hword
  exact content?_written (SExpr.written_plain hne (List.all_eq_true.mp hplain))

theorem says_answer (a : Answer) : Says a.text [.text a.text] :=
  ⟨[], a.text, [], rfl, content?_answerText a, quiet_nil, quiet_nil⟩

theorem lays_reason (reason : String) :
    Lays (SExpr.list [.atom ":reason-unknown", .atom reason]).tokens
      [.text (parenthesized [":reason-unknown", SExpr.quotedText reason])] := by
  have hparts : ∀ part ∈ [(SExpr.atom ":reason-unknown", ":reason-unknown"),
      (SExpr.atom reason, SExpr.quotedText reason)], Token.Written part.1.tokens part.2.toList := by
    simp only [List.mem_cons, List.not_mem_nil, or_false]
    rintro part (rfl | rfl)
    · exact SExpr.written_plain (by decide) (List.all_eq_true.mp (by decide))
    · exact SExpr.written_quoted reason
  exact lays_one (SExpr.written_items (by simp) hparts)

def Ref.entry (r : Ref) (value : Scalar) : SExpr := .list [.atom r.text, value.sexpr]

theorem Opinion.written_entry {o : Opinion} {r : Ref} {value : Scalar}
    (hname : '|' ∉ r.var.name.toList) (hvalue : Memory.valueOf o r = .exact value) :
    Token.Written (r.entry value).tokens (o.entryText r).toList := by
  have hparts : ∀ part ∈ [(SExpr.atom r.text, r.smt), (value.sexpr, value.smt)],
      Token.Written part.1.tokens part.2.toList := by
    simp only [List.mem_cons, List.not_mem_nil, or_false]
    rintro part (rfl | rfl)
    · exact SExpr.written_symbol hname
    · exact SExpr.written_scalar value
  rw [Opinion.entryText, hvalue]
  exact SExpr.written_items (by simp) hparts

theorem Opinion.entries {o : Opinion} {refs : List Ref}
    (h : ∀ r ∈ refs, '|' ∉ r.var.name.toList ∧
      ∃ value : Scalar, Memory.valueOf o r = .exact value ∧ value.ty = r.ty) :
    ∃ parts : List (SExpr × String), parts.map Prod.snd = refs.map o.entryText ∧
      List.Forall₂ (Shows o) refs (parts.map Prod.fst) ∧
      ∀ part ∈ parts, Token.Written part.1.tokens part.2.toList := by
  induction refs with
  | nil => exact ⟨[], rfl, .nil, by simp⟩
  | cons r refs ih =>
    obtain ⟨parts, htexts, hshown, hwritten⟩ := ih fun r hr => h r (List.mem_cons_of_mem _ hr)
    obtain ⟨hname, value, hvalue, hty⟩ := h r (by simp)
    have hshows : Shows o r (r.entry value) := by
      refine ⟨value.sexpr, rfl, ?_⟩
      rw [hvalue, ← hty]
      exact SExpr.prints_sexpr value
    refine ⟨(r.entry value, o.entryText r) :: parts, by simp [htexts], .cons hshows hshown, ?_⟩
    intro part hpart
    rcases List.mem_cons.mp hpart with rfl | hpart
    · exact written_entry hname hvalue
    · exact hwritten part hpart

theorem Dialogue.questioned {vs : List Variable} {commands : List Command} {scopes : List (List Ref)}
    {frames : List (List Term)} {refs : List Ref}
    (h : Dialogue vs (commands ++ [.getValue refs]) scopes frames) :
    refs ≠ [] ∧ ∀ r ∈ refs, r.var ∈ vs := by
  generalize hsaid : commands ++ [.getValue refs] = said at h
  cases h with
  | values hd _ hne hdeclared =>
    obtain ⟨-, hlast⟩ := List.append_inj' hsaid rfl
    obtain rfl := Command.getValue.inj (List.singleton_inj.mp hlast)
    refine ⟨hne, fun r hr => ?_⟩
    obtain ⟨scope, hscope, hmem⟩ := hdeclared r hr
    exact hd.mem scope hscope r hmem
  | new => simp at hsaid
  | _ => cases List.singleton_inj.mp (List.append_inj' hsaid rfl).2

theorem Oracle.solves_printer {vs : List Variable} {oracle : Oracle} (h : oracle.Sensible vs)
    (hnames : ∀ v ∈ vs, '|' ∉ v.name.toList) :
    Solves vs oracle (fun _ => False) oracle.printer where
  reasons := h.reasons
  replies := by
    intro commands c scopes frames hd
    refine .inl ?_
    have hlast : (commands ++ [c]).getLast? = some c := by simp
    have hprinted : oracle.printer (commands ++ [c]) =
        ((oracle (active frames)).responseText? c).toList.map .text := by
      unfold printer
      rw [hlast, Command.inForce_eq hd]
    rw [hprinted]
    cases c with
    | checkSat => exact says_answer _
    | reasonUnknown =>
      intro reason hreason
      simp only [Opinion.responseText?, hreason]
      exact lays_reason reason
    | getValue refs =>
      intro hsat
      obtain ⟨hne, hvars⟩ := hd.questioned
      obtain ⟨parts, htexts, hshown, hwritten⟩ := Opinion.entries fun r hr =>
        ⟨hnames r.var (hvars r hr), h.values (active frames) r hsat (hvars r hr)⟩
      have hparts : parts ≠ [] := by
        rintro rfl
        exact hne (List.map_eq_nil_iff.mp htexts.symm)
      refine ⟨_, hshown, ?_⟩
      simp only [Opinion.responseText?, ← htexts]
      exact lays_one (SExpr.written_items hparts hwritten)
    | _ => exact quiet_nil

end InvariantProver
