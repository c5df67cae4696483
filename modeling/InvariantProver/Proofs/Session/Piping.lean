import InvariantProver.Proofs.Data.Pairs
import InvariantProver.Proofs.Session.Dialogue
import InvariantProver.Session.Pipe
import Mathlib.Data.List.Forall2

namespace InvariantProver.Pipe

open Peer

def withPeer (peer : Peer) (link : Link Pipe) : Link Pipe :=
  { link with backend := { link.backend with peer := peer } }

def Struck (link link' : Link Pipe) : Prop :=
  ∃ peer k, peer.Dead ∧
    link' = { withPeer peer link with interrupted := true, cancels := link.cancels + k }

def Down (link : Link Pipe) : Prop := link.interrupted = true ∧ link.backend.peer.Dead

theorem Down.not_going {link : Link Pipe} (h : Down link) : ¬ link.interrupted = false := by
  simp [h.1]

theorem Struck.down {link link' : Link Pipe} (h : Struck link link') : Down link' := by
  obtain ⟨peer, k, hdead, rfl⟩ := h
  exact ⟨rfl, hdead⟩

section

variable {link link' : Link Pipe}

def Lists (text : String) (refs : List Ref) (entries : Entries Ref Value) : Prop :=
  ∃ items pairs, SExpr.parseOne text = .ok (.list items) ∧ items.length = refs.length ∧
    List.Forall₂ (fun (r, item) (r', v) => r' = r ∧
      ∃ first e : SExpr, item = .list [first, e] ∧ e.value r.ty = .ok v) (refs.zip items) pairs ∧
    entries = Entries.ofList pairs

theorem parsed_eq_ok {text : String} {e : SExpr} (hs : outcome (parsed text) link = (.ok e, link')) :
    SExpr.parseOne text = .ok e ∧ link' = link := by
  unfold parsed at hs
  split at hs
  · next hparse =>
    obtain ⟨rfl, rfl⟩ := outcome_pure_ok.mp hs
    exact ⟨hparse, rfl⟩
  · cases (Prod.mk.inj hs).1

theorem entry_eq_ok {r : Ref} {item : SExpr} {pair : Ref × Value}
    (hs : outcome (entry r item) link = (.ok pair, link')) :
    pair.1 = r ∧ ∃ first e : SExpr, item = .list [first, e] ∧ e.value r.ty = .ok pair.2 := by
  unfold entry at hs
  split at hs
  · next first e =>
    split at hs
    · next v hv =>
      obtain ⟨rfl, -⟩ := outcome_pure_ok.mp hs
      exact ⟨rfl, first, e, rfl, hv⟩
    · cases (Prod.mk.inj hs).1
  · cases (Prod.mk.inj hs).1

theorem entries_eq_ok {items : List (Ref × SExpr)} {pairs : List (Ref × Value)}
    (hs : outcome (items.mapM fun (r, e) => entry r e) link = (.ok pairs, link')) :
    List.Forall₂ (fun (r, item) (r', v) => r' = r ∧
      ∃ first e : SExpr, item = .list [first, e] ∧ e.value r.ty = .ok v) items pairs := by
  induction items generalizing link link' pairs with
  | nil =>
    rw [List.mapM_nil] at hs
    obtain ⟨rfl, -⟩ := outcome_pure_ok.mp hs
    exact .nil
  | cons item items ih =>
    rw [List.mapM_cons] at hs
    obtain ⟨pair, link₁, hone, hs⟩ := outcome_bind_ok.mp hs
    obtain ⟨pairs', link₂, hrest, hs⟩ := outcome_bind_ok.mp hs
    obtain ⟨rfl, -⟩ := outcome_pure_ok.mp hs
    exact .cons (entry_eq_ok hone) (ih hrest)

theorem ask_eq_ok {refs : List Ref} {entries : Entries Ref Value}
    (hs : outcome (ask refs) link = (.ok entries, link')) :
    ∃ text link₁, outcome (do send (.getValue refs); response?) link = (.ok (some text), link₁) ∧
      Lists text refs entries := by
  unfold ask at hs
  rw [← bind_assoc] at hs
  obtain ⟨x, link₁, hasked, hs⟩ := outcome_bind_ok.mp hs
  cases x with
  | none => cases (Prod.mk.inj hs).1
  | some text =>
    obtain ⟨e, link₂, hparsed, hgiven⟩ := outcome_bind_ok.mp hs
    obtain ⟨hparse, rfl⟩ := parsed_eq_ok hparsed
    split at hgiven
    · next items =>
      rw [outcome_ite] at hgiven
      split at hgiven
      · cases (Prod.mk.inj hgiven).1
      · next hlength =>
        obtain ⟨pairs, link₃, hpairs, hgiven⟩ := outcome_bind_ok.mp hgiven
        obtain ⟨rfl, -⟩ := outcome_pure_ok.mp hgiven
        exact ⟨text, _, hasked, items, pairs, hparse, not_not.mp hlength, entries_eq_ok hpairs, rfl⟩
    · cases (Prod.mk.inj hgiven).1

theorem Lists.complete {text : String} {refs : List Ref} {entries : Entries Ref Value}
    (h : Lists text refs entries) {r : Ref} (hr : r ∈ refs) : ∃ v, Entries.get? r entries = some v := by
  obtain ⟨items, pairs, -, hlength, hpairs, rfl⟩ := h
  obtain ⟨i, hi, rfl⟩ := List.getElem_of_mem hr
  have hzip : i < (refs.zip items).length := by
    rw [List.length_zip]
    omega
  have hpair : i < pairs.length := hpairs.length_eq ▸ hzip
  obtain ⟨hkey, -⟩ := hpairs.get hzip hpair
  refine Entries.exists_get?_ofList (List.mem_map.mpr ⟨_, List.getElem_mem hpair, ?_⟩)
  simpa using hkey

theorem givesAll : Backend.GivesAll Pipe := by
  intro link link' refs entries hs r hr
  change outcome (values refs) link = _ at hs
  unfold values at hs
  rw [if_neg (List.ne_nil_of_mem hr)] at hs
  obtain ⟨text, link₁, -, hlists⟩ := ask_eq_ok hs
  exact hlists.complete hr

end

section

variable {vs : List Variable} {oracle : Oracle} {cuts : Command → Prop} {link : Link Pipe}
  {c : Command} {scopes scopes' : List (List Ref)} {frames frames' : List (List Term)}

theorem outcome_setPeer (peer : Peer) (link : Link Pipe) :
    outcome (setPeer peer) link = (.ok (), withPeer peer link) := rfl

theorem outcome_send {peer : Peer} (h : link.backend.peer.write c = .ok peer) :
    outcome (send c) link = (.ok (), withPeer peer link) := by
  unfold send
  rw [outcome_bind_of_ok (outcome_get link)]
  simp only [h]
  rfl

theorem outcome_send_of_fault {fault : PeerFault} (hgoing : link.interrupted = false)
    (hwrite : link.backend.peer.write c = .error fault) :
    outcome (send c) link = (.error (.solver (.stopped link.backend.solver.name fault.message)), link) := by
  unfold send
  rw [outcome_bind_of_ok (outcome_get link)]
  simp only [hwrite, hgoing]
  rfl

theorem send_cases {link' : Link Pipe} {r : Except SessionError Unit} (hs : outcome (send c) link = (r, link')) :
    (∃ peer, link.backend.peer.write c = .ok peer ∧ r = .ok () ∧ link' = withPeer peer link) ∨
      (∃ fault, link.backend.peer.write c = .error fault) ∧ link' = link ∧
        (link.interrupted = false → ∃ e, r = .error e) := by
  cases hwrite : link.backend.peer.write c with
  | ok peer =>
    rw [outcome_send hwrite] at hs
    obtain ⟨rfl, rfl⟩ := Prod.mk.inj hs
    exact .inl ⟨peer, rfl, rfl, rfl⟩
  | error fault =>
    cases hinterrupted : link.interrupted with
    | false =>
      rw [outcome_send_of_fault hinterrupted hwrite] at hs
      obtain ⟨rfl, rfl⟩ := Prod.mk.inj hs
      exact .inr ⟨⟨fault, rfl⟩, rfl, fun _ => ⟨_, rfl⟩⟩
    | true =>
      unfold send at hs
      rw [outcome_bind_of_ok (outcome_get link)] at hs
      simp only [hwrite, hinterrupted] at hs
      obtain ⟨rfl, rfl⟩ := Prod.mk.inj hs
      exact .inr ⟨⟨fault, rfl⟩, rfl, by simp⟩

theorem outcome_read {text : String} {peer : Peer} (hread : link.backend.peer.read = (.response text, peer)) :
    outcome response? link =
      (if "(error".toList.isPrefixOf text.toList then
        .error (.solver (.reported link.backend.solver.name text)) else .ok (some text), withPeer peer link) := by
  unfold response?
  rw [outcome_bind_of_ok (outcome_get link)]
  simp only [hread]
  rw [outcome_bind_of_ok (outcome_setPeer peer link)]
  split <;> rfl

theorem outcome_response (link : Link Pipe) {text : String} {rest : List Line}
    (h : gather none link.backend.peer.unread = (.response text, rest))
    (herror : "(error".toList.isPrefixOf text.toList = false) :
    outcome response? link =
      (.ok (some text), withPeer { link.backend.peer with unread := rest } link) := by
  rw [outcome_read (read_of_gather h), if_neg (by rw [herror]; exact Bool.false_ne_true)]

theorem outcome_ended (link : Link Pipe) {rest : List Line}
    (h : gather none link.backend.peer.unread = (.ended, rest)) : outcome response? link =
      (.ok none, withPeer ({ link.backend.peer with unread := rest } : Peer).finish link) := by
  unfold response?
  rw [outcome_bind_of_ok (outcome_get link)]
  simp only [Peer.read, h]
  rfl

theorem outcome_cut (link : Link Pipe) {cancels : Bool}
    (h : gather none link.backend.peer.unread = (.interruption cancels, [])) :
    ∃ link', outcome response? link = (.ok none, link') ∧ Struck link link' := by
  refine ⟨{ withPeer ({ link.backend.peer with unread := [] } : Peer).kill.finish link with
    interrupted := true, cancels := link.cancels + (if cancels then 1 else 0) }, ?_, ?_⟩
  · unfold response?
    rw [outcome_bind_of_ok (outcome_get link)]
    simp only [Peer.read, h]
    rfl
  · have hquiet : Quiet ({ link.backend.peer with unread := [] } : Peer).kill.unread :=
      (dead_kill _ quiet_nil).quiet
    exact ⟨_, _, dead_finish _ hquiet, rfl⟩

theorem send_alive (h : link.backend.peer.Alive vs oracle cuts scopes frames)
    (hc : c.isQuestion = false) (hd : Dialogue vs (link.backend.peer.received ++ [c]) scopes' frames') :
    ∃ peer, outcome (send c) link = (.ok (), withPeer peer link) ∧
      peer.Alive vs oracle cuts scopes' frames' ∧
      peer.received = link.backend.peer.received ++ [c] :=
  ⟨_, Pipe.outcome_send (h.write c), h.tell hc hd, received_told _ c⟩

def Reads (P : String → Prop) (unread : List Line) : Prop :=
  ∃ text rest, gather none unread = (.response text, rest) ∧ Quiet rest ∧
    "(error".toList.isPrefixOf text.toList = false ∧ P text

theorem ask_alive {P : String → Prop}
    (h : link.backend.peer.Alive vs oracle cuts scopes frames)
    (hd : Dialogue vs (link.backend.peer.received ++ [c]) scopes frames)
    (hreply : ∀ lines, Responds (oracle (active frames)) c lines →
      Reads P (link.backend.peer.unread ++ lines)) :
    (∃ text peer, outcome (do send c; response?) link = (.ok (some text), withPeer peer link) ∧ P text ∧
      peer.Alive vs oracle cuts scopes frames ∧
      peer.received = link.backend.peer.received ++ [c]) ∨
    cuts c ∧ ∃ link', outcome (do send c; response?) link = (.ok none, link') ∧ Struck link link' := by
  rw [outcome_bind_of_ok (Pipe.outcome_send (h.write c))]
  rcases h.solves.replies hd with hresponds | ⟨-, hcuts, hcut⟩
  · obtain ⟨text, rest, hgather, hrest, herror, htext⟩ := hreply _ hresponds
    exact .inl ⟨text, _, outcome_response (withPeer (link.backend.peer.told c) link) hgather herror,
      htext, h.heard hd hrest, received_told _ c⟩
  · obtain ⟨cancels, hgather⟩ := hcut.after h.quiet
    obtain ⟨link', houtcome, peer, k, hdead, hlink'⟩ :=
      outcome_cut (withPeer (link.backend.peer.told c) link) hgather
    exact .inr ⟨hcuts, link', houtcome, peer, k, hdead, hlink'⟩

theorem outcome_asked {α : Type} {x : Option String} {f : Option String → Hook Pipe α}
    {link' : Link Pipe} (h : outcome (do send c; response?) link = (.ok x, link')) :
    outcome (do send c; let x ← response?; f x) link = outcome (f x) link' := by
  rw [← bind_assoc, outcome_bind_of_ok h]

theorem not_error_of_answer (a : Answer) : "(error".toList.isPrefixOf a.text.toList = false := by
  cases a with
  | unknown _ => exact (by decide : "(error".toList.isPrefixOf "unknown".toList = false)
  | _ => decide

theorem isComplete_answer (a : Answer) : SExpr.isComplete a.text = true := by
  cases a with
  | unknown _ => exact (by decide : SExpr.isComplete "unknown" = true)
  | _ => decide

theorem trim_answer (a : Answer) : String.ofList (Text.trim a.text.toList) = a.text := by
  cases a with
  | unknown _ => exact (by decide : String.ofList (Text.trim "unknown".toList) = "unknown")
  | _ => decide

section

variable {o : Opinion} {unread lines : List Line}

theorem reads_reason {reason : String} (hquiet : Quiet unread) (hanswer : o.answer = .unknown (some reason))
    (h : Responds o .reasonUnknown lines) :
    Reads (SExpr.parseOne · = .ok (.list [.atom ":reason-unknown", .atom reason])) (unread ++ lines) := by
  obtain ⟨text, rest, hgather, hrest, hwritten⟩ := gather_response (h reason hanswer) hquiet
  refine ⟨text, rest, hgather, hrest, ?_, SExpr.parseOne_of_written hwritten⟩
  rw [SExpr.tokens_list, List.flatMap_cons, SExpr.tokens_atom] at hwritten
  refine Token.Written.not_error hwritten fun text htext => ?_
  obtain rfl := Token.atom.inj htext
  decide

theorem reads_answer (hquiet : Quiet unread) (h : Responds o .checkSat lines) :
    Reads (· = o.answer.text) (unread ++ lines) := by
  obtain ⟨rest, hgather, hrest⟩ := gather_says h (isComplete_answer _)
  exact ⟨_, rest, by rw [gather_quiet hquiet, hgather], hrest, not_error_of_answer _, rfl⟩

theorem reads_values {refs : List Ref} (hquiet : Quiet unread) (hsat : o.answer = .sat) (hne : refs ≠ [])
    (h : Responds o (.getValue refs) lines) :
    Reads (fun text => ∃ items, SExpr.parseOne text = .ok (.list items) ∧
      List.Forall₂ (Shows o) refs items) (unread ++ lines) := by
  obtain ⟨items, hitems, hlays⟩ := h hsat
  obtain ⟨text, rest, hgather, hrest, hwritten⟩ := gather_response hlays hquiet
  refine ⟨text, rest, hgather, hrest, ?_, items, SExpr.parseOne_of_written hwritten, hitems⟩
  cases hitems with
  | nil => exact absurd rfl hne
  | cons hshows _ =>
    obtain ⟨e, rfl, -⟩ := hshows
    rw [SExpr.tokens_list, List.flatMap_cons, SExpr.tokens_list] at hwritten
    exact Token.Written.not_error hwritten (by simp)

end

theorem reason_alive (link : Link Pipe) {reason : String}
    (h : link.backend.peer.Alive vs oracle cuts scopes frames)
    (hd : Dialogue vs (link.backend.peer.received ++ [.reasonUnknown]) scopes frames)
    (hanswer : (oracle (active frames)).answer = .unknown (some reason)) :
    (∃ peer, outcome reasonUnknown link = (.ok reason, withPeer peer link) ∧
      peer.Alive vs oracle cuts scopes frames) ∨
    cuts .reasonUnknown ∧
      ∃ text link', outcome reasonUnknown link = (.ok text, link') ∧ Struck link link' := by
  unfold reasonUnknown
  rcases ask_alive h hd fun _ => reads_reason h.quiet hanswer with
    ⟨text, peer, hasked, hparse, hpeer, -⟩ | ⟨hcuts, link', hasked, hstruck⟩
  · rw [outcome_asked hasked]
    refine .inl ⟨peer, ?_, hpeer⟩
    simp [parsed, hparse]
  · rw [outcome_asked hasked]
    refine .inr ⟨hcuts, cancelledReason, link', ?_, hstruck⟩
    simp [Except.map, hstruck.down.1]

theorem check_alive (h : link.backend.peer.Alive vs oracle cuts scopes frames) :
    (∃ peer, outcome check link = (.ok (oracle (active frames)).answer, withPeer peer link) ∧
      peer.Alive vs oracle cuts scopes frames ∧
      ((oracle (active frames)).answer = .sat → Modelled peer.received)) ∨
    (∃ c, cuts c) ∧ ∃ a link', outcome check link = (.ok a, link') ∧ Struck link link' := by
  unfold check
  rcases ask_alive h h.dialogue.check fun _ => reads_answer h.quiet with
    ⟨text, peer, hasked, rfl, hpeer, hreceived⟩ | ⟨hcuts, link', hasked, hstruck⟩
  · rw [outcome_asked hasked]
    have hmodelled : Modelled peer.received := hreceived ▸ .check _
    simp only [trim_answer]
    cases hanswer : (oracle (active frames)).answer with
    | sat => exact .inl ⟨peer, rfl, hpeer, fun _ => hmodelled⟩
    | unsat => exact .inl ⟨peer, rfl, hpeer, fun _ => hmodelled⟩
    | unknown reason? =>
      simp only [Answer.text]
      obtain ⟨reason, rfl⟩ : ∃ reason, reason? = some reason :=
        Option.ne_none_iff_exists'.mp fun hnone => h.solves.reasons _ (hnone ▸ hanswer)
      have hd : Dialogue vs (peer.received ++ [.reasonUnknown]) scopes frames := by
        have hdialogue := hpeer.dialogue
        rw [hreceived] at hdialogue ⊢
        exact hdialogue.reason
      have hmore : ∀ r link', outcome reasonUnknown (withPeer peer link) = (.ok r, link') →
          outcome (do return Answer.unknown (some (← reasonUnknown)) : Hook Pipe Answer)
            (withPeer peer link) = (.ok (.unknown (some r)), link') := by
        intro r link' hr
        rw [outcome_bind_of_ok hr]
        rfl
      rcases reason_alive (withPeer peer link) hpeer hd hanswer with
        ⟨peer', hr, hpeer'⟩ | ⟨hcuts, r, link', hr, hstruck⟩
      · exact .inl ⟨peer', hmore _ _ hr, hpeer', by simp⟩
      · obtain ⟨peer', k, hdead, rfl⟩ := hstruck
        exact .inr ⟨⟨_, hcuts⟩, _, _, hmore _ _ hr, peer', k, hdead, rfl⟩
  · rw [outcome_asked hasked]
    refine .inr ⟨⟨_, hcuts⟩, .unknown none, link', ?_, hstruck⟩
    simp [outcome_bind, hstruck.down.1]

theorem outcome_entries {o : Opinion} {refs : List Ref} {items : List SExpr}
    (h : List.Forall₂ (Shows o) refs items) (link : Link Pipe) :
    outcome ((refs.zip items).mapM fun (r, e) => entry r e) link =
      (.ok (refs.map fun r => (r, Memory.valueOf o r)), link) := by
  induction h with
  | nil => rfl
  | @cons r item refs items hshows _ ih =>
    obtain ⟨e, rfl, hprints⟩ := hshows
    have hentry : outcome (entry r (.list [.atom r.text, e])) link =
        (.ok (r, Memory.valueOf o r), link) := by
      simp [entry, SExpr.value_of_prints hprints]
    rw [List.zip_cons_cons, List.mapM_cons, outcome_bind_of_ok hentry, outcome_bind_of_ok ih]
    rfl

theorem values_alive {refs : List Ref} (h : link.backend.peer.Alive vs oracle cuts scopes frames)
    (hmodelled : Modelled link.backend.peer.received) (hsat : (oracle (active frames)).answer = .sat)
    (hrefs : ∀ r ∈ refs, ∃ scope ∈ scopes, r ∈ scope) :
    (∃ peer, outcome (values refs) link =
        (.ok (Entries.ofList (refs.map fun r => (r, Memory.valueOf (oracle (active frames)) r))),
          withPeer peer link) ∧
      peer.Alive vs oracle cuts scopes frames ∧ Modelled peer.received) ∨
    cuts (.getValue refs) ∧ ∃ link' code, outcome (values refs) link =
        (.error (.solver (.exited link.backend.solver.name code)), link') ∧ Struck link link' := by
  unfold values
  by_cases hne : refs = []
  · subst hne
    exact .inl ⟨link.backend.peer, rfl, h, hmodelled⟩
  rw [if_neg hne]
  unfold ask
  rcases ask_alive h (h.dialogue.values hmodelled hne hrefs) fun _ => reads_values h.quiet hsat hne with
    ⟨text, peer, hasked, ⟨items, hparse, hitems⟩, hpeer, hreceived⟩ | ⟨hcuts, link', hasked, hstruck⟩
  · rw [outcome_asked hasked]
    refine .inl ⟨peer, ?_, hpeer, hreceived ▸ hmodelled.values refs⟩
    have hlength : ¬ items.length ≠ refs.length := by simp [hitems.length_eq]
    simp only [parsed, hparse, pure_bind]
    rw [if_neg hlength, outcome_bind_of_ok (outcome_entries hitems _)]
    rfl
  · rw [outcome_asked hasked]
    obtain ⟨peer, k, hdead, rfl⟩ := hstruck
    exact .inr ⟨hcuts, _, peer.exited, rfl, peer, k, hdead, rfl⟩

theorem close_alive (h : link.backend.peer.Alive vs oracle cuts scopes frames) :
    ∃ peer, outcome close link = (.ok (), withPeer peer link) := by
  have hrunning : link.backend.peer.isRunning = true := by simp [isRunning, h.running]
  refine ⟨(link.backend.peer.told .exit).shut, ?_⟩
  unfold close
  rw [outcome_bind_of_ok (outcome_get link), if_pos hrunning,
    outcome_bind_of_ok (outcome_send (h.write .exit))]
  rfl

structure Ready (vs : List Variable) (oracle : Oracle) (cuts : Command → Prop) (p : Peer) : Prop where
  solves : Solves vs oracle cuts p.react
  present : p.missing = false
  accepts : p.accepts = none
  running : p.exited = none
  untold : p.received = []
  quiet : Quiet p.unread

theorem Ready.alive {p : Peer} (h : Ready vs oracle cuts p) : p.Alive vs oracle cuts [[]] [[]] :=
  ⟨h.solves, h.accepts, h.running, h.quiet, h.untold ▸ .new⟩

theorem Ready.start {p : Peer} (h : Ready vs oracle cuts p) (argv : List String) :
    ∃ started, p.start argv = .ok started ∧ started.Alive vs oracle cuts [[]] [[]] := by
  refine ⟨p.note (.started argv), by simp [Peer.start, h.present], ?_⟩
  have hreceived : (p.note (.started argv)).received = p.received := by simp [received, note]
  exact ⟨h.solves, h.accepts, h.running, h.quiet, hreceived ▸ h.alive.dialogue⟩

theorem option_alive (name value : String) (link : Link Pipe)
    (h : link.backend.peer.Alive vs oracle cuts [[]] [[]]) :
    ∃ peer, outcome (send (.setOption name value)) link = (.ok (), withPeer peer link) ∧
      peer.Alive vs oracle cuts [[]] [[]] := by
  obtain ⟨peer, hsend, hpeer, -⟩ := send_alive h rfl (h.dialogue.option name value)
  exact ⟨peer, hsend, hpeer⟩

theorem start_alive (link : Link Pipe) (h : Ready vs oracle cuts link.backend.peer) :
    ∃ peer, outcome start link = (.ok (), withPeer peer link) ∧ peer.Alive vs oracle cuts [[]] [[]] := by
  obtain ⟨started, hstart, hstarted⟩ := h.start link.backend.argv
  obtain ⟨first, hfirst, hfirst'⟩ := option_alive "print-success" "false" (withPeer started link) hstarted
  obtain ⟨second, hsecond, hsecond'⟩ :=
    option_alive "produce-models" "true" (withPeer first (withPeer started link)) hfirst'
  unfold start
  rw [outcome_bind_of_ok (outcome_get link)]
  simp only [hstart]
  rw [outcome_bind_of_ok (outcome_setPeer started link), outcome_bind_of_ok hfirst,
    outcome_bind_of_ok hsecond, outcome_ite]
  split
  · exact option_alive "timeout" _ (withPeer second _) hsecond'
  · exact ⟨second, rfl, hsecond'⟩

theorem send_down (c : Command) (h : Down link) :
    ∃ peer, outcome (send c) link = (.ok (), withPeer peer link) ∧ peer.Dead := by
  rcases h.2.write c with hbroken | ⟨peer, hwrite, hdead⟩
  · refine ⟨link.backend.peer, ?_, h.2⟩
    have hsame : withPeer link.backend.peer link = link := rfl
    unfold send
    rw [outcome_bind_of_ok (outcome_get link), hsame]
    simp [hbroken, h.1]
  · exact ⟨peer, outcome_send hwrite, hdead⟩

theorem response_down (h : Down link) :
    ∃ peer, outcome response? link = (.ok none, withPeer peer link) ∧ peer.Dead := by
  exact ⟨_, outcome_ended link h.2.gather, dead_finish _ quiet_nil⟩

theorem ask_down (c : Command) (h : Down link) :
    ∃ peer, outcome (do send c; response?) link = (.ok none, withPeer peer link) ∧ peer.Dead := by
  obtain ⟨peer, hsend, hdead⟩ := send_down c h
  have hdown : Down (withPeer peer link) := ⟨h.1, hdead⟩
  obtain ⟨peer', hresponse, hdead'⟩ := response_down hdown
  exact ⟨peer', by rw [outcome_bind_of_ok hsend, hresponse]; rfl, hdead'⟩

theorem check_down (h : Down link) :
    ∃ peer, outcome check link = (.ok (.unknown none), withPeer peer link) ∧ peer.Dead := by
  obtain ⟨peer, hasked, hdead⟩ := ask_down .checkSat h
  refine ⟨peer, ?_, hdead⟩
  have hinterrupted : (withPeer peer link).interrupted = true := h.1
  unfold check
  rw [outcome_asked hasked]
  simp [outcome_bind, hinterrupted]

/-- Nobody looks whether the session has been interrupted. -/
theorem values_down {refs : List Ref} (hne : refs ≠ []) (h : Down link) :
    ∃ peer, outcome (values refs) link =
      (.error (.solver (.exited link.backend.solver.name peer.exited)), withPeer peer link) ∧
      peer.Dead := by
  obtain ⟨peer, hasked, hdead⟩ := ask_down (.getValue refs) h
  refine ⟨peer, ?_, hdead⟩
  unfold values
  rw [if_neg hne]
  unfold ask
  rw [outcome_asked hasked]
  rfl

theorem close_down (h : Down link) : ∃ peer, outcome close link = (.ok (), withPeer peer link) := by
  refine ⟨link.backend.peer.shut, ?_⟩
  unfold close
  rw [outcome_bind_of_ok (outcome_get link), if_neg (by simp [h.2.ended])]
  rfl

end

end InvariantProver.Pipe
