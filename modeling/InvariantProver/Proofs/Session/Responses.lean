import InvariantProver.Proofs.Session.Dialogue
import Mathlib.Data.List.Induction

/-!
Responses in the order in which they are printed. Whoever reads one response for each question gets the
response to the question that was just put, as long as nothing else has been printed: a report of an
error on a command that asks nothing puts every later response off by one.
-/

namespace InvariantProver

def PeerEvent.isEnd : PeerEvent → Bool
  | killed | closed => true
  | _ => false

namespace Peer

def heard? (lines : List Line) : Option String :=
  match gather none lines with
  | (.response text, _) => some text
  | _ => none

def Prints (text : String) (lines : List Line) : Prop :=
  ∃ rest, gather none lines = (.response text, rest) ∧ Quiet rest

def reportsError (text : String) : Bool := "(error".toList.isPrefixOf text.toList

/-- A process prints one response to each question, and after any other command nothing or one report
of an error. -/
structure Lawful (react : List Command → List Line) : Prop where
  answers : ∀ commands c, c.isQuestion = true → ∃ text, Prints text (react (commands ++ [c]))
  reports : ∀ commands c, c.isQuestion = false → Quiet (react (commands ++ [c])) ∨
    ∃ text, Prints text (react (commands ++ [c])) ∧ reportsError text = true

inductive Queue : List String → List Line → Prop
  | nil {lines : List Line} : Quiet lines → Queue [] lines
  | cons {text : String} {texts : List String} {lines rest : List Line} :
    gather none lines = (.response text, rest) → Queue texts rest → Queue (text :: texts) lines

section

variable {lines more rest : List Line} {text : String} {texts others : List String}

theorem gather_append {text? : Option String} (h : gather text? lines = (.response text, rest)) :
    gather text? (lines ++ more) = (.response text, rest ++ more) := by
  induction lines generalizing text? with
  | nil => cases h
  | cons line lines ih =>
    cases line with
    | interruption cancels => cases h
    | text s =>
      rw [List.cons_append]
      cases hs : content? s with
      | none =>
        rw [gather, hs] at h ⊢
        exact ih h
      | some line =>
        rw [gather_line hs] at h ⊢
        split at h
        · next hcomplete =>
          obtain ⟨htext, rfl⟩ := Prod.mk.inj h
          rw [if_pos hcomplete, htext]
        · next hopen =>
          rw [if_neg hopen]
          exact ih h

theorem Queue.append (h : Queue texts lines) (h' : Queue others more) :
    Queue (texts ++ others) (lines ++ more) := by
  induction h with
  | nil hquiet =>
    cases h' with
    | nil hquiet' => exact .nil (hquiet.append hquiet')
    | cons hgather hrest => exact .cons (by rw [gather_quiet hquiet, hgather]) hrest
  | cons hgather _ ih => exact .cons (gather_append hgather) ih

theorem Prints.heard (h : Prints text lines) : heard? lines = some text := by
  obtain ⟨rest, hgather, -⟩ := h
  rw [heard?, hgather]

theorem heard_of_quiet (h : Quiet lines) : heard? lines = none := by
  rw [heard?, gather_of_quiet h]

end

section

variable {react : List Command → List Line} {commands before : List Command} {c : Command}
  {text : String}

theorem Lawful.queue (h : Lawful react) (commands : List Command) (c : Command) :
    Queue (heard? (react (commands ++ [c]))).toList (react (commands ++ [c])) := by
  have hprints {text : String} (hprints : Prints text (react (commands ++ [c]))) :
      Queue (heard? (react (commands ++ [c]))).toList (react (commands ++ [c])) := by
    rw [hprints.heard]
    obtain ⟨rest, hgather, hquiet⟩ := hprints
    exact .cons hgather (.nil hquiet)
  by_cases hc : c.isQuestion = true
  · obtain ⟨text, htext⟩ := h.answers commands c hc
    exact hprints htext
  · rcases h.reports commands c (by simpa using hc) with hquiet | ⟨text, htext, -⟩
    · rw [heard_of_quiet hquiet]
      exact .nil hquiet
    · exact hprints htext

theorem Lawful.heard (h : Lawful react) (commands : List Command) (hc : c.isQuestion = true) :
    ∃ text, heard? (react (commands ++ [c])) = some text := by
  obtain ⟨text, htext⟩ := h.answers commands c hc
  exact ⟨text, htext.heard⟩

def responses (react : List Command → List Line) (before : List Command) : List Command → List String
  | [] => []
  | c :: commands => (heard? (react (before ++ [c]))).toList ++ responses react (before ++ [c]) commands

def questions (commands : List Command) : Nat := commands.countP Command.isQuestion

theorem responses_append (before commands more : List Command) :
    responses react before (commands ++ more) =
      responses react before commands ++ responses react (before ++ commands) more := by
  induction commands generalizing before with
  | nil => rw [List.nil_append, List.append_nil, responses, List.nil_append]
  | cons c commands ih =>
    rw [List.cons_append, responses, responses, ih, List.append_assoc, List.append_assoc,
      List.singleton_append]

theorem responses_concat (commands : List Command) (c : Command) :
    responses react [] (commands ++ [c]) =
      responses react [] commands ++ (heard? (react (commands ++ [c]))).toList := by
  rw [responses_append, List.nil_append]
  simp [responses]

theorem questions_concat (commands : List Command) (c : Command) :
    questions (commands ++ [c]) = questions commands + if c.isQuestion then 1 else 0 := by
  simp [questions, List.countP_cons]

theorem Lawful.questions_le (h : Lawful react) (commands : List Command) :
    questions commands ≤ (responses react [] commands).length := by
  induction commands using List.reverseRecOn with
  | nil => exact Nat.zero_le _
  | append_singleton commands c ih =>
    rw [questions_concat, responses_concat, List.length_append]
    split
    · next hc =>
      obtain ⟨text, htext⟩ := h.heard commands hc
      rw [htext]
      exact Nat.succ_le_succ ih
    · omega

def Unreported (react : List Command → List Line) (commands : List Command) : Prop :=
  ∀ before c, before ++ [c] <+: commands → c.isQuestion = false → heard? (react (before ++ [c])) = none

theorem Unreported.of_concat (h : Unreported react (commands ++ [c])) : Unreported react commands :=
  fun before d hinitial => h before d (hinitial.trans (List.prefix_append _ _))

theorem Unreported.question (h : Unreported react commands) (hc : c.isQuestion = true) :
    Unreported react (commands ++ [c]) := by
  intro before d hinitial hd
  rcases List.prefix_concat_iff.mp hinitial with heq | hinitial
  · obtain ⟨-, hlast⟩ := List.append_inj' heq rfl
    obtain rfl := List.singleton_inj.mp hlast
    rw [hc] at hd
    cases hd
  · exact h before d hinitial hd

theorem Lawful.length_responses (h : Lawful react) (hunreported : Unreported react commands) :
    (responses react [] commands).length = questions commands := by
  induction commands using List.reverseRecOn with
  | nil => rfl
  | append_singleton commands c ih =>
    rw [responses_concat, questions_concat, List.length_append, ih hunreported.of_concat]
    split
    · next hc =>
      obtain ⟨text, htext⟩ := h.heard commands hc
      rw [htext]
      rfl
    · next hc =>
      rw [hunreported commands c List.prefix_rfl (by simpa using hc)]
      rfl

theorem Lawful.questions_lt (h : Lawful react) (hreported : ¬ Unreported react commands) :
    questions commands < (responses react [] commands).length := by
  induction commands using List.reverseRecOn with
  | nil =>
    refine absurd (fun before c hinitial => ?_) hreported
    simp at hinitial
  | append_singleton commands c ih =>
    rw [responses_concat, questions_concat, List.length_append]
    by_cases hbefore : Unreported react commands
    · have hc : c.isQuestion = false := by
        rw [← Bool.not_eq_true]
        exact fun hc => hreported (hbefore.question hc)
      have hlast : heard? (react (commands ++ [c])) ≠ none := by
        intro hnone
        refine hreported fun before d hinitial hd => ?_
        rcases List.prefix_concat_iff.mp hinitial with heq | hinitial
        · rw [heq, hnone]
        · exact hbefore before d hinitial hd
      obtain ⟨text, htext⟩ := Option.ne_none_iff_exists'.mp hlast
      rw [h.length_responses hbefore, htext, hc]
      exact Nat.lt_succ_self _
    · have hfewer := ih hbefore
      split
      · next hc =>
        obtain ⟨text, htext⟩ := h.heard commands hc
        rw [htext]
        exact Nat.succ_lt_succ hfewer
      · omega

theorem Lawful.unreported_iff (h : Lawful react) :
    Unreported react commands ↔ (responses react [] commands).length = questions commands := by
  refine ⟨h.length_responses, fun hsame => ?_⟩
  by_contra hreported
  exact absurd hsame (h.questions_lt hreported).ne'

def HeardBefore (react : List Command → List Line) (commands : List Command) (text : String) : Prop :=
  ∃ before c, before ++ [c] <+: commands ∧ heard? (react (before ++ [c])) = some text

theorem heardBefore_of_mem_responses (h : text ∈ responses react [] commands) :
    HeardBefore react commands text := by
  induction commands using List.reverseRecOn with
  | nil => cases h
  | append_singleton commands c ih =>
    rw [responses_concat, List.mem_append] at h
    rcases h with h | h
    · obtain ⟨before, d, hinitial, htext⟩ := ih h
      exact ⟨before, d, hinitial.trans (List.prefix_append _ _), htext⟩
    · exact ⟨commands, c, List.prefix_rfl, Option.mem_toList.mp h⟩

/-- The response whose turn it is when a question is put after some commands, each earlier question
having taken one. -/
def turn (react : List Command → List Line) (commands : List Command) (c : Command) : Option String :=
  (responses react [] (commands ++ [c]))[questions commands]?

theorem Lawful.turn_eq (h : Lawful react) (hunreported : Unreported react commands) (c : Command) :
    turn react commands c = heard? (react (commands ++ [c])) := by
  rw [turn, responses_concat, ← h.length_responses hunreported,
    List.getElem?_append_right (Nat.le_refl _), Nat.sub_self]
  cases heard? (react (commands ++ [c])) <;> rfl

theorem Lawful.turn_earlier (h : Lawful react) (hreported : ¬ Unreported react commands)
    (htext : turn react commands c = some text) : HeardBefore react commands text := by
  rw [turn, responses_concat, List.getElem?_append_left (h.questions_lt hreported)] at htext
  exact heardBefore_of_mem_responses (List.mem_of_getElem? htext)

end

def heeded (p : Peer) : List Command :=
  { p with events := p.events.takeWhile fun event => !event.isEnd }.received

def unclaimed (p : Peer) : List String :=
  (responses p.react [] p.heeded).drop (questions p.heeded)

def listens (p : Peer) : Bool := p.isRunning && decide (p.accepts ≠ some 0)

def given (p : Peer) (c : Command) : Peer := { p.told c with accepts := p.accepts.map (· - 1) }

/-- What is there to be read are the last of the responses that are not claimed; all of them, as long as
the process takes commands. -/
structure InTurn (react : List Command → List Line) (p : Peer) : Prop where
  react : p.react = react
  current : p.listens = true → ∀ event ∈ p.events, event.isEnd = false
  past : p.listens = false → p.accepts = some 0 ∨ ∃ event ∈ p.events, event.isEnd = true
  queue : ∃ owed, Queue owed p.unread ∧ owed <:+ p.unclaimed ∧ (p.listens = true → owed = p.unclaimed)

section

variable {react : List Command → List Line} {p p' : Peer} {c : Command} {event : PeerEvent}

theorem listens_iff : p.listens = true ↔ p.isRunning = true ∧ p.accepts ≠ some 0 := by
  simp [listens]

theorem heeded_eq (h : ∀ event ∈ p.events, event.isEnd = false) : p.heeded = p.received := by
  unfold heeded
  rw [List.takeWhile_eq_self_iff.mpr fun event hevent => by simp [h event hevent]]

theorem heeded_note_of_past (h : ∃ event ∈ p.events, event.isEnd = true) (event : PeerEvent) :
    (p.note event).heeded = p.heeded := by
  obtain ⟨last, hlast, hend⟩ := h
  unfold heeded note
  rw [List.takeWhile_append, if_neg]
  intro hlength
  have hall := List.takeWhile_eq_self_iff.mp ((List.takeWhile_prefix _).eq_of_length hlength) last hlast
  rw [hend] at hall
  cases hall

theorem heeded_note_of_current (h : ∀ event ∈ p.events, event.isEnd = false) (c : Command) :
    (p.note (.received c)).heeded = p.heeded ++ [c] := by
  rw [heeded_eq h, heeded_eq, received_note]
  intro event hevent
  rcases List.mem_append.mp hevent with hevent | hevent
  · exact h event hevent
  · obtain rfl := List.mem_singleton.mp hevent
    rfl

theorem received_append (p : Peer) (events more : List PeerEvent) :
    ({ p with events := events ++ more } : Peer).received =
      ({ p with events := events } : Peer).received ++ ({ p with events := more } : Peer).received :=
  List.filterMap_append

theorem heeded_note (h : ∀ c, event ≠ .received c) : (p.note event).heeded = p.heeded := by
  by_cases hpast : ∃ event ∈ p.events, event.isEnd = true
  · exact heeded_note_of_past hpast event
  have hall : ∀ a ∈ p.events, (!a.isEnd) = true := by
    intro a ha
    have hend : ¬ a.isEnd = true := fun hend => hpast ⟨a, ha, hend⟩
    simp [hend]
  have hnone : ({ p with events := [event].takeWhile fun event => !event.isEnd } : Peer).received = [] := by
    refine List.filterMap_eq_nil_iff.mpr fun a ha => ?_
    have hevent : a ∈ [event] := (List.takeWhile_prefix fun event : PeerEvent => !event.isEnd).subset ha
    obtain rfl := List.mem_singleton.mp hevent
    cases a with
    | received c => exact absurd rfl (h c)
    | _ => rfl
  unfold heeded note
  rw [List.takeWhile_append_of_pos hall, List.takeWhile_eq_self_iff.mpr hall]
  exact (received_append p _ _).trans (by rw [hnone, List.append_nil])

theorem InTurn.stopped (h : InTurn react p) (hreact : p'.react = p.react) (hlistens : p'.listens = false)
    (hpast : p'.accepts = some 0 ∨ ∃ event ∈ p'.events, event.isEnd = true)
    (hunread : p'.unread = p.unread) (hheeded : p'.heeded = p.heeded) : InTurn react p' := by
  obtain ⟨owed, hqueue, hsuffix, -⟩ := h.queue
  refine ⟨hreact.trans h.react, fun hl => ?_, fun _ => hpast, owed, hunread ▸ hqueue, ?_, fun hl => ?_⟩
  · rw [hlistens] at hl
    cases hl
  · rwa [unclaimed, hreact, hheeded]
  · rw [hlistens] at hl
    cases hl

structure Unused (p : Peer) : Prop where
  events : p.events = []
  running : p.exited = none
  quiet : Quiet p.unread

theorem Unused.inTurn (h : Unused p) : InTurn p.react p := by
  have hheeded : p.heeded = [] := by
    rw [heeded, h.events]
    rfl
  have hunclaimed : p.unclaimed = [] := by
    rw [unclaimed, hheeded]
    rfl
  refine ⟨rfl, fun _ => by simp [h.events], fun hlistens => .inl ?_, [], .nil h.quiet, ?_, fun _ => ?_⟩
  · by_contra haccepts
    rw [listens_iff.mpr ⟨by simp [isRunning, h.running], haccepts⟩] at hlistens
    cases hlistens
  · exact List.nil_suffix
  · exact hunclaimed.symm

theorem listens_of_ended (h : p.isRunning = false) : p.listens = false := by simp [listens, h]

theorem heeded_kill (p : Peer) : p.kill.heeded = p.heeded := by
  unfold Peer.kill
  split
  · exact heeded_note (p := p) fun c => by simp
  · rfl

theorem react_kill (p : Peer) : p.kill.react = p.react := by
  unfold Peer.kill
  split <;> rfl

theorem unread_kill (p : Peer) : p.kill.unread = p.unread := by
  unfold Peer.kill
  split <;> rfl

theorem InTurn.kill (h : InTurn react p) : InTurn react p.kill := by
  by_cases hrunning : p.isRunning = true
  · have hkill : p.kill = { p.note .killed with exited := some killedCode } := if_pos hrunning
    have hlast : PeerEvent.killed ∈ p.kill.events := by
      rw [hkill]
      exact List.mem_append_right _ (List.mem_singleton.mpr rfl)
    exact h.stopped (react_kill p) (listens_of_ended (hkill ▸ rfl)) (.inr ⟨.killed, hlast, rfl⟩)
      (unread_kill p) (heeded_kill p)
  · rwa [Peer.kill, if_neg hrunning]

theorem InTurn.finish (h : InTurn react p) (hlistens : p.listens = false) : InTurn react p.finish :=
  h.stopped rfl (listens_of_ended rfl) (h.past hlistens) rfl rfl

theorem InTurn.shut (h : InTurn react p) : InTurn react p.shut := by
  have hlast : PeerEvent.closed ∈ p.shut.events := List.mem_append_right _ (List.mem_singleton.mpr rfl)
  have hclosed (q : Peer) : (q.note .closed).heeded = q.heeded := heeded_note fun c => by simp
  refine h.stopped ?_ (listens_of_ended rfl) (.inr ⟨.closed, hlast, rfl⟩) ?_ ?_
  · exact (apply_ite Peer.react _ _ _).trans (by rw [react_kill]; exact ite_self _)
  · exact (apply_ite Peer.unread _ _ _).trans (by rw [unread_kill]; exact ite_self _)
  · unfold Peer.shut
    rw [hclosed]
    change (if p.hangs then (p.note .closed).kill else p.note .closed).heeded = _
    split
    · rw [heeded_kill, hclosed]
    · exact hclosed p

theorem InTurn.note_started (h : InTurn react p) (argv : List String) :
    InTurn react (p.note (.started argv)) := by
  have hheeded : (p.note (.started argv)).heeded = p.heeded := heeded_note fun c => by simp
  have hunclaimed : (p.note (.started argv)).unclaimed = p.unclaimed := by
    rw [unclaimed, hheeded]
    rfl
  refine ⟨h.react, fun hl event hevent => ?_, fun hl => ?_, hunclaimed ▸ h.queue⟩
  · rcases List.mem_append.mp hevent with hevent | hevent
    · exact h.current hl event hevent
    · obtain rfl := List.mem_singleton.mp hevent
      rfl
  · exact (h.past hl).imp_right fun ⟨event, hevent, hend⟩ => ⟨event, List.mem_append_left _ hevent, hend⟩

theorem InTurn.write_past (h : InTurn react p) (hlistens : p.listens = false)
    (hwrite : p.write c = .ok p') :
    InTurn react p' ∧ p'.listens = false ∧ p'.unclaimed = p.unclaimed := by
  unfold Peer.write at hwrite
  split at hwrite
  · cases hwrite
  · next haccepts =>
    have hended : ¬ p.isRunning = true := fun hrunning => by
      rw [listens_iff.mpr ⟨hrunning, haccepts⟩] at hlistens
      cases hlistens
    have hpast : ∃ event ∈ p.events, event.isEnd = true := (h.past hlistens).resolve_left haccepts
    have hheeded := heeded_note_of_past hpast (.received c)
    obtain rfl := Except.ok.inj hwrite
    rw [if_neg (by exact hended)]
    have hlistens' := listens_of_ended
      (p := { p.note (.received c) with accepts := p.accepts.map (· - 1) }) ((Bool.not_eq_true _).mp hended)
    refine ⟨h.stopped rfl hlistens' (.inr ?_) rfl hheeded, hlistens', ?_⟩
    · obtain ⟨event, hevent, hend⟩ := hpast
      exact ⟨event, List.mem_append_left _ hevent, hend⟩
    · exact congrArg (fun commands => (responses p.react [] commands).drop (questions commands)) hheeded

theorem InTurn.read (h : InTurn react p) (hlistens : p.listens = false) {owed : List String}
    {unread : List Line} (hqueue : Queue owed unread) (hsuffix : owed <:+ p.unclaimed) :
    InTurn react { p with unread := unread } :=
  ⟨h.react, h.current, h.past, owed, hqueue, hsuffix,
    fun hl => absurd (hlistens.symm.trans hl) Bool.false_ne_true⟩

theorem write_given (hlistens : p.listens = true) : p.write c = .ok (p.given c) := by
  obtain ⟨hrunning, haccepts⟩ := listens_iff.mp hlistens
  have hreceived : ({ p.note (.received c) with accepts := p.accepts.map (· - 1) } : Peer).received =
      p.received ++ [c] := received_note p c
  unfold Peer.write
  rw [if_neg haccepts]
  simp only [hreceived]
  rw [if_pos (by exact hrunning)]
  rfl

theorem InTurn.heeded_given (h : InTurn react p) (hlistens : p.listens = true) (c : Command) :
    (p.given c).heeded = p.heeded ++ [c] :=
  heeded_note_of_current (h.current hlistens) c

theorem InTurn.unclaimed_given (hlawful : Lawful react) (h : InTurn react p) (hlistens : p.listens = true)
    (c : Command) :
    ((responses react [] (p.given c).heeded).drop (questions p.heeded)) =
      p.unclaimed ++ (heard? (react (p.heeded ++ [c]))).toList := by
  rw [h.heeded_given hlistens, responses_concat,
    List.drop_append_of_le_length (hlawful.questions_le p.heeded), unclaimed, h.react]

theorem InTurn.queue_given (hlawful : Lawful react) (h : InTurn react p) (hlistens : p.listens = true)
    (c : Command) :
    Queue (p.unclaimed ++ (heard? (react (p.heeded ++ [c]))).toList) (p.given c).unread := by
  obtain ⟨owed, hqueue, -, howed⟩ := h.queue
  obtain rfl := howed hlistens
  have hunread : (p.given c).unread = p.unread ++ react (p.heeded ++ [c]) := by
    rw [heeded_eq (h.current hlistens), ← h.react]
    rfl
  rw [hunread]
  exact hqueue.append (hlawful.queue p.heeded c)

theorem InTurn.given (h : InTurn react p) (hlistens : p.listens = true) {unread : List Line}
    (hqueue : Queue (p.given c).unclaimed unread) :
    InTurn react { p.given c with unread := unread } := by
  refine ⟨h.react, fun _ event hevent => ?_, fun hl => .inl ?_, _, hqueue, List.suffix_rfl, fun _ => rfl⟩
  · rcases List.mem_append.mp hevent with hevent | hevent
    · exact h.current hlistens event hevent
    · obtain rfl := List.mem_singleton.mp hevent
      rfl
  · by_contra haccepts
    have hgoing : ({ p.given c with unread := unread } : Peer).listens = true :=
      listens_iff.mpr ⟨(listens_iff.mp hlistens).1, haccepts⟩
    rw [hgoing] at hl
    cases hl

theorem InTurn.tell (hlawful : Lawful react) (h : InTurn react p) (hlistens : p.listens = true)
    (hc : c.isQuestion = false) : InTurn react (p.given c) := by
  have hquestions : questions (p.given c).heeded = questions p.heeded := by
    rw [h.heeded_given hlistens, questions_concat, hc]
    rfl
  have hreact : (p.given c).react = react := h.react
  have hqueue : Queue (p.given c).unclaimed (p.given c).unread := by
    rw [unclaimed, hreact, hquestions, h.unclaimed_given hlawful hlistens]
    exact h.queue_given hlawful hlistens c
  exact h.given hlistens hqueue

theorem InTurn.ask (hlawful : Lawful react) (h : InTurn react p) (hlistens : p.listens = true)
    (hc : c.isQuestion = true) :
    ∃ text rest, gather none (p.given c).unread = (.response text, rest) ∧
      turn react p.heeded c = some text ∧ InTurn react { p.given c with unread := rest } := by
  obtain ⟨own, hown⟩ := hlawful.heard p.heeded hc
  have hall := h.unclaimed_given hlawful hlistens c
  have hqueue := h.queue_given hlawful hlistens c
  rw [← hall] at hqueue
  have hquestions : questions (p.given c).heeded = questions p.heeded + 1 := by
    rw [h.heeded_given hlistens, questions_concat, hc]
    rfl
  have hreact : (p.given c).react = react := h.react
  have hunclaimed : (p.given c).unclaimed =
      ((responses react [] (p.given c).heeded).drop (questions p.heeded)).tail := by
    rw [unclaimed, hreact, hquestions, List.tail_drop]
  have hturn : turn react p.heeded c =
      ((responses react [] (p.given c).heeded).drop (questions p.heeded)).head? := by
    rw [List.head?_drop, h.heeded_given hlistens, turn]
  generalize (responses react [] (p.given c).heeded).drop (questions p.heeded) = texts at *
  cases hqueue with
  | nil =>
    rw [hown] at hall
    exact absurd hall (by simp)
  | @cons text texts _ rest hgather hrest =>
    exact ⟨text, rest, hgather, hturn, h.given hlistens (hunclaimed ▸ hrest)⟩

end

end Peer

end InvariantProver
