import InvariantProver.Proofs.Session.Exchanges
import InvariantProver.Proofs.Session.Obliging
import InvariantProver.Proofs.Smt.Legality

namespace InvariantProver

inductive Legible : List Command → Smt.Stage → Prop
  | new : Legible [] {}
  | sent {commands : List Command} {c : Command} {stage stage' : Smt.Stage} :
    Legible commands stage → c.Legal stage stage' → Legible (commands ++ [c]) stage'

theorem Legible.legal {commands : List Command} {stage : Smt.Stage} (h : Legible commands stage) {c : Command}
    (hc : c ∈ commands) : ∃ before after, c.Legal before after := by
  induction h with
  | new => cases hc
  | @sent commands c' stage stage' _ hlegal ih =>
    rcases List.mem_append.mp hc with hc | hc
    · exact ih hc
    · obtain rfl := List.mem_singleton.mp hc
      exact ⟨stage, stage', hlegal⟩

namespace Peer

variable {p p' : Peer} {c : Command}

theorem write_eq_ok (h : p.write c = .ok p') : p.accepts ≠ some 0 ∧ p'.received = p.received ++ [c] := by
  unfold write at h
  split at h
  · cases h
  · next haccepts =>
    obtain rfl := Except.ok.inj h
    refine ⟨haccepts, ?_⟩
    split <;> exact received_note p c

theorem write_eq_error {fault : PeerFault} (h : p.write c = .error fault) : p.accepts = some 0 := by
  unfold write at h
  split at h
  · next haccepts => exact haccepts
  · cases h

theorem received_kill (p : Peer) : p.kill.received = p.received := by
  unfold kill
  split
  · simp [received, note]
  · rfl

theorem received_shut (p : Peer) : p.shut.received = p.received := by
  have hnote (p : Peer) : (p.note .closed).received = p.received := by simp [received, note]
  unfold shut
  rw [hnote]
  change Peer.received (if p.hangs then (p.note .closed).kill else p.note .closed) = _
  split
  · rw [received_kill, hnote]
  · exact hnote p

theorem accepts_kill (p : Peer) : p.kill.accepts = p.accepts := by
  unfold kill
  split <;> rfl

theorem accepts_shut (p : Peer) : p.shut.accepts = p.accepts := by
  unfold shut
  change Peer.accepts (if p.hangs then (p.note .closed).kill else p.note .closed) = _
  split
  · exact accepts_kill _
  · rfl

end Peer

namespace Pipe

open Peer

variable {vs : List Variable} {scopes scopes' : List (List Ref)} {checked checked' : Bool} {link link' : Link Pipe}
  {c : Command}

/-- What the process has got can be read. As long as it takes commands, a solver that has read it knows the
declarations in these scopes, and whether a check is still good. -/
def Written (vs : List Variable) (scopes : List (List Ref)) (checked : Bool) (link : Link Pipe) : Prop :=
  ∃ stage, Legible link.backend.peer.received stage ∧
    (link.backend.peer.accepts = some 0 ∨ stage.Has vs scopes ∧ (checked = true → stage.checked = true))

theorem Written.mono (hchecked : checked' = true → checked = true) (h : Written vs scopes checked link) :
    Written vs scopes checked' link := by
  obtain ⟨stage, hlegible, hknown⟩ := h
  exact ⟨stage, hlegible, hknown.imp_right fun hknown => ⟨hknown.1, fun hc => hknown.2 (hchecked hc)⟩⟩

theorem Written.of_peer (h : Written vs scopes checked link)
    (hreceived : link'.backend.peer.received = link.backend.peer.received)
    (haccepts : link'.backend.peer.accepts = link.backend.peer.accepts) :
    Written vs scopes checked link' := by
  unfold Written
  rwa [hreceived, haccepts]

theorem leads_send (h : ∀ stage : Smt.Stage, stage.Has vs scopes → (checked = true → stage.checked = true) →
      ∃ stage', c.Legal stage stage' ∧ stage'.Has vs scopes' ∧ (checked' = true → stage'.checked = true)) :
    Leads (Written vs scopes checked) (Written vs scopes' checked') (send c) := by
  rintro link link' r ⟨stage, hlegible, hknown⟩ hs
  rcases send_cases hs with ⟨peer, hwrite, -, rfl⟩ | ⟨⟨fault, hwrite⟩, rfl, -⟩
  · obtain ⟨haccepts, hreceived⟩ := write_eq_ok hwrite
    obtain ⟨hhas, hchecked⟩ := hknown.resolve_left haccepts
    obtain ⟨stage', hlegal, hknown'⟩ := h stage hhas hchecked
    refine ⟨stage', ?_, .inr hknown'⟩
    change Legible peer.received stage'
    rw [hreceived]
    exact hlegible.sent hlegal
  · exact ⟨stage, hlegible, .inl (write_eq_error hwrite)⟩

theorem keeps_response {J : Link Pipe → Prop}
    (h : ∀ link link', link'.backend.peer.received = link.backend.peer.received →
      link'.backend.peer.accepts = link.backend.peer.accepts →
      (link.interrupted = true → link'.interrupted = true) → J link → J link') :
    Keeps .any J response? := by
  intro link link' r hJ hs _
  have hread : link.backend.peer.read = ((gather none link.backend.peer.unread).1,
      { link.backend.peer with unread := (gather none link.backend.peer.unread).2 }) := rfl
  have hreceived := received_kill { link.backend.peer with unread := (gather none link.backend.peer.unread).2 }
  have haccepts := accepts_kill { link.backend.peer with unread := (gather none link.backend.peer.unread).2 }
  unfold response? at hs
  rw [outcome_bind_of_ok (outcome_get link)] at hs
  simp only [hread] at hs
  split at hs
  · rw [outcome_bind_of_ok (outcome_setPeer _ link)] at hs
    split at hs <;> exact (Prod.mk.inj hs).2 ▸ h link _ rfl rfl id hJ
  · rw [outcome_bind_of_ok (outcome_setPeer _ link)] at hs
    exact (Prod.mk.inj hs).2 ▸ h link _ hreceived haccepts (fun _ => rfl) hJ
  · rw [outcome_bind_of_ok (outcome_setPeer _ link)] at hs
    exact (Prod.mk.inj hs).2 ▸ h link _ rfl rfl id hJ

theorem written_ask (h : ∀ stage : Smt.Stage, stage.Has vs scopes → (checked = true → stage.checked = true) →
      ∃ stage', c.Legal stage stage' ∧ stage'.Has vs scopes' ∧ (checked' = true → stage'.checked = true)) :
    Leads (Written vs scopes checked) (Written vs scopes' checked') (do send c; response?) :=
  (leads_send h).bind fun _ => keeps_response fun _ _ hreceived haccepts _ h => h.of_peer hreceived haccepts

theorem written_check : Leads (Written vs scopes checked) (Written vs scopes true) check := by
  refine leads_check (written_ask fun stage hhas _ => ?_) (written_ask fun stage hhas hchecked => ?_).keeps
  · exact ⟨_, Command.legal_checkSat stage, ⟨hhas.declared, hhas.mem⟩, fun _ => rfl⟩
  · exact ⟨stage, Command.legal_reasonUnknown (hchecked rfl), hhas, hchecked⟩

variable (hnames : (vs.map Variable.name).Nodup) (hbars : ∀ v ∈ vs, '|' ∉ v.name.toList)
include hnames hbars

theorem written_values {refs : List Ref} (hrefs : ∀ r ∈ refs, ∃ scope ∈ scopes, r ∈ scope) :
    Keeps .any (Written vs scopes true) (values refs) :=
  keeps_values fun hne => Leads.keeps <| written_ask fun stage hhas hchecked =>
    ⟨stage, Command.legal_getValue hnames hbars hhas (hchecked rfl) hne hrefs, hhas, hchecked⟩

theorem written_declare {scope : List Ref} {outer : List (List Ref)} {r : Ref} (hr : r.var ∈ vs)
    (hfresh : ∀ scope' ∈ scope :: outer, r ∉ scope') :
    Leads (Written vs (scope :: outer) checked) (Written vs ((r :: scope) :: outer) false)
      (send (.declare r)) :=
  leads_send fun _ hhas _ => by
    obtain ⟨stage', hlegal, hhas'⟩ := Command.legal_declare hnames hbars hhas hr hfresh
    exact ⟨stage', hlegal, hhas', by simp⟩

theorem written_assert {t : Term} (hrefs : ∀ r ∈ t.refs, ∃ scope ∈ scopes, r ∈ scope) :
    Leads (Written vs scopes checked) (Written vs scopes false) (send (.assert t)) :=
  leads_send fun _ hhas _ =>
    ⟨_, Command.legal_assert hnames hbars hhas hrefs, ⟨hhas.declared, hhas.mem⟩, by simp⟩

omit hnames hbars

theorem written_push : Leads (Written vs scopes checked) (Written vs ([] :: scopes) false) (send .push) :=
  leads_send fun stage hhas _ => by
    refine ⟨_, Command.legal_push stage, ⟨by simp [hhas.declared], ?_⟩, by simp⟩
    simpa using hhas.mem

theorem written_pop {scope scope' : List Ref} {outer : List (List Ref)} :
    Leads (Written vs (scope :: scope' :: outer) checked) (Written vs (scope' :: outer) false) (send .pop) :=
  leads_send fun stage hhas _ => by
    refine ⟨_, Command.legal_pop hhas, ⟨by simp [hhas.declared], ?_⟩, by simp⟩
    exact fun first hfirst => hhas.mem first (List.mem_cons_of_mem scope hfirst)

theorem written_start : Keeps .any (Written vs [[]] false) start := by
  refine keeps_start (fun link argv h => h.of_peer (by simp [received, note, withPeer]) rfl) ?_
  intro name value hname hvalue
  exact Leads.keeps <| leads_send fun stage hhas hchecked =>
    ⟨stage, Command.legal_setOption ⟨hname, hvalue⟩ stage, hhas, hchecked⟩

end Pipe

namespace Session

open Pipe

structure Transcribed (vs : List Variable) (s : Session Pipe) : Prop where
  scopes : s.scopes ≠ []
  written : Written vs s.scopes s.hasModel s.link

variable {vs : List Variable} {s : Session Pipe}

theorem exists_scope_of_find {refs : List Ref} (h : refs.find? (fun r => !s.isDeclared r) = none) :
    ∀ r ∈ refs, ∃ scope ∈ s.scopes, r ∈ scope := by
  intro r hr
  rw [← isDeclared_iff]
  simpa using List.find?_eq_none.mp h r hr

theorem Transcribed.push (h : Transcribed vs s) : Transcribed vs (outcome Session.push s).2 := by
  rw [outcome_push]
  split
  · exact h
  · exact ⟨List.cons_ne_nil _ _, written_push h.written rfl⟩

theorem Transcribed.pop (h : Transcribed vs s) : Transcribed vs (outcome Session.pop s).2 := by
  rw [outcome_pop]
  split
  · exact h
  split
  · exact h
  · next hlength =>
    obtain ⟨scope, outer, hscopes⟩ := List.exists_cons_of_ne_nil h.scopes
    have hwritten := h.written
    cases outer with
    | nil => simp [hscopes] at hlength
    | cons scope' outer =>
      simp only [hscopes, List.tail_cons] at hwritten ⊢
      exact ⟨List.cons_ne_nil _ _, written_pop hwritten rfl⟩

theorem Transcribed.check (h : Transcribed vs s) : Transcribed vs (outcome Session.check s).2 := by
  rw [outcome_check]
  split
  · exact h
  split
  · exact ⟨h.scopes, h.written.mono (by simp)⟩
  split
  · next hcheck => exact ⟨h.scopes, (written_check h.written hcheck).mono (by simp)⟩
  · next hcheck =>
    have hsent := written_check h.written hcheck
    split <;> exact ⟨h.scopes, hsent.mono fun _ => rfl⟩

theorem Transcribed.interrupt (h : Transcribed vs s) : Transcribed vs s.interrupt := by
  unfold Session.interrupt
  split
  · exact ⟨h.scopes, h.written.of_peer rfl rfl⟩
  · exact ⟨h.scopes, h.written.of_peer (Peer.received_kill _) (Peer.accepts_kill _)⟩

variable (hnames : (vs.map Variable.name).Nodup) (hbars : ∀ v ∈ vs, '|' ∉ v.name.toList)
include hnames hbars

theorem Transcribed.declare (h : Transcribed vs s) {v : Variable} (hv : v ∈ vs) (step : Int) :
    Transcribed vs (outcome (Session.declare v step) s).2 := by
  rw [outcome_declare]
  split
  · exact h
  split
  · exact h
  split
  · exact h
  · next hnew =>
    obtain ⟨scope, outer, hscopes⟩ := List.exists_cons_of_ne_nil h.scopes
    have hwritten := h.written
    have hfresh : ∀ scope' ∈ s.scopes, (⟨v, step⟩ : Ref) ∉ scope' := by
      intro scope' hscope' hmem
      exact hnew ((isDeclared_iff s _).mpr ⟨scope', hscope', hmem⟩)
    rw [addDeclared_eq]
    simp only [hscopes] at hwritten hfresh ⊢
    refine ⟨by simp [Act.scopes, outcome_hook], ?_⟩
    exact written_declare (r := ⟨v, step⟩) hnames hbars hv hfresh hwritten rfl

theorem Transcribed.assert (h : Transcribed vs s) (t : Term) :
    Transcribed vs (outcome (Session.assert t) s).2 := by
  rw [outcome_assert]
  split
  · exact h
  split
  · exact h
  split
  · exact h
  · next hfind =>
    exact ⟨h.scopes, written_assert hnames hbars (exists_scope_of_find hfind) h.written (s := s.link) rfl⟩

theorem Transcribed.values (h : Transcribed vs s) (refs : List Ref) :
    Transcribed vs (outcome (Session.values refs) s).2 := by
  rw [outcome_values]
  split
  · exact h
  split
  · next hmodel =>
    split
    · exact h
    · next hfind =>
      have hwritten := h.written
      rw [hmodel] at hwritten
      have hsent := written_values hnames hbars (exists_scope_of_find hfind) hwritten (s := s.link) rfl trivial
      rw [← hmodel] at hsent
      exact ⟨h.scopes, hsent⟩
  · exact h

theorem transcribed_perform {act : Act} (hconcerns : act.Concerns vs) (hclose : act ≠ .close) :
    Keeps .any (Transcribed vs) (perform act : SessionM Pipe Reply) := by
  intro s t r h hs _
  obtain rfl := (congrArg Prod.snd hs).symm
  cases act with
  | declare v step =>
    rw [perform, outcome_map]
    exact h.declare hnames hbars hconcerns step
  | assert t =>
    rw [perform, outcome_map]
    exact h.assert hnames hbars t
  | push =>
    rw [perform, outcome_map]
    exact h.push
  | pop =>
    rw [perform, outcome_map]
    exact h.pop
  | check =>
    rw [perform, outcome_map]
    exact h.check
  | values refs =>
    rw [perform, outcome_map]
    exact h.values hnames hbars refs
  | interrupt => exact h.interrupt
  | close => exact absurd rfl hclose

end Session

namespace Pipe

open Peer

/-- What outlives every command, and depends on nothing else than commands and interruptions, outlives all
that sessions do. -/
theorem preserves_of_send {J : Link Pipe → Prop} (hsend : ∀ c, Keeps .any J (send c))
    (hsame : ∀ link link', link'.backend.peer.received = link.backend.peer.received →
      link'.backend.peer.accepts = link.backend.peer.accepts →
      (link.interrupted = true → link'.interrupted = true) → J link → J link') :
    Backend.Preserves J := by
  have hask (c : Command) : Keeps .any J (do send c; response?) :=
    .bind (hsend c) fun _ => keeps_response hsame
  exact {
    start := keeps_start (fun link argv => hsame link _ (by simp [received, note, withPeer]) rfl id)
      fun _ _ _ _ => hsend _
    declare := fun r => hsend (.declare r)
    assert := fun t => hsend (.assert t)
    push := hsend .push
    pop := hsend .pop
    check := (leads_check (hask .checkSat).leads (hask .reasonUnknown)).keeps
    values := fun refs => keeps_values fun _ => hask (.getValue refs)
    close := keeps_close (hsend .exit) fun link => hsame link _ (received_shut _) (accepts_shut _) id
    interrupted := fun link => hsame link _ rfl rfl fun _ => rfl
    interrupt := fun link => hsame link _ (received_kill _) (accepts_kill _) id }

theorem written_stays (c : Command) :
    Backend.Preserves (σ := Pipe) fun link => c ∈ link.backend.peer.received := by
  refine preserves_of_send (fun c' => ?_) fun _ _ hreceived _ _ h => hreceived ▸ h
  intro link link' r h hs _
  rcases send_cases hs with ⟨peer, hwrite, -, rfl⟩ | ⟨-, rfl, -⟩
  · change c ∈ peer.received
    rw [(write_eq_ok hwrite).2]
    exact List.mem_append_left _ h
  · exact h

theorem firm : Backend.Firm Pipe := by
  refine preserves_of_send (fun c => ?_) fun _ _ _ _ hinterrupted h => hinterrupted h
  intro link link' r h hs _
  rcases send_cases hs with ⟨peer, -, -, rfl⟩ | ⟨-, rfl, -⟩ <;> exact h

end Pipe

end InvariantProver
