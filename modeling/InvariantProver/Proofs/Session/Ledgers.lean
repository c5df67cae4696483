import InvariantProver.Proofs.Session.Recordings
import InvariantProver.Proofs.Session.Transcripts

/-!
Where the assertions of a session are. A ledger reads the assertions of each open scope off a back end:
off the solver in memory, off the commands that a solver in a process of its own has got, or off the
requests in a record. What is entered without failing changes the ledger by the rules, and nothing else
does (`Ledger.Shows.perform`).
-/

namespace InvariantProver

structure Ledger (σ : Type) [Backend σ] where
  frames : σ → List (List Term)
  deaf : Link σ → Prop
  deafness : Backend.Preserves deaf
  entry : ∀ {act : Act} {link link' : Link σ}, act.isEntry = true →
    (∀ t, act = .assert t → frames link.backend ≠ []) → outcome act.hook link = (.ok (), link') →
    frames link'.backend = act.frames (frames link.backend) ∨ deaf link'
  check : ∀ fs, Keeps .any (fun link => frames link.backend = fs) (Backend.check : Hook σ Answer)
  values : ∀ fs refs,
    Keeps .any (fun link => frames link.backend = fs) (Backend.values refs : Hook σ (Entries Ref Value))
  interrupt : ∀ b, frames (Backend.interrupt b) = frames b

section

variable {σ : Type} [Backend σ]

def Ledger.Shows (L : Ledger σ) (fs : List (List Term)) (link : Link σ) : Prop :=
  L.frames link.backend = fs ∨ L.deaf link

def Session.Enters (s : Session σ) (act : Act) : Prop :=
  act.isEntry = true → s.Accepts act → (outcome (Session.perform act) s).1 = .ok .done

theorem Ledger.Shows.entry {L : Ledger σ} {fs : List (List Term)} {s : Session σ} {act : Act}
    (h : L.Shows fs s.link) (hentry : act.isEntry = true) (haccepts : s.Accepts act)
    (hassert : ∀ t, act = .assert t → fs ≠ []) (henters : s.Enters act) :
    L.Shows (act.frames fs) (outcome (Session.perform act) s).2.link := by
  rcases h with rfl | hdeaf
  · have hlink := Session.link_of_reaches ((Session.reaches_entry hentry).mpr haccepts)
    have hok := henters hentry haccepts
    rw [Session.outcome_entry hentry haccepts] at hok
    obtain ⟨⟨⟩, hhook, -⟩ := except_map_eq_ok.mp hok
    have heffect : act.effect s.link = (outcome act.hook s.link).2 := by
      cases act <;> first | rfl | cases hentry
    rw [hlink, heffect]
    exact L.entry hentry hassert (Prod.ext hhook rfl)
  · exact .inr (Session.keeps_perform L.deafness act hdeaf rfl trivial)

theorem Ledger.Shows.other {L : Ledger σ} {fs : List (List Term)} {s : Session σ} {act : Act}
    (h : L.Shows fs s.link) (hclose : act ≠ .close) (hother : ¬ (act.isEntry = true ∧ s.Accepts act)) :
    L.Shows fs (outcome (Session.perform act) s).2.link := by
  rcases h with rfl | hdeaf
  · left
    by_cases hreaches : s.Reaches act
    · rw [Session.link_of_reaches hreaches]
      cases act with
      | check => exact L.check _ rfl rfl trivial
      | values refs => exact L.values _ refs rfl rfl trivial
      | interrupt => exact L.interrupt _
      | close => exact absurd rfl hclose
      | _ => exact absurd ⟨rfl, hreaches.2.1⟩ hother
    · rw [Session.backend_of_not_reaches hreaches]
  · exact .inr (Session.keeps_perform L.deafness act hdeaf rfl trivial)

theorem Backend.preserves_const (p : Prop) : Backend.Preserves (σ := σ) fun _ => p where
  start _ _ _ h _ _ := h
  declare _ _ _ _ h _ _ := h
  assert _ _ _ _ h _ _ := h
  push _ _ _ h _ _ := h
  pop _ _ _ h _ _ := h
  check _ _ _ h _ _ := h
  values _ _ _ _ h _ _ := h
  close _ _ _ h _ _ := h
  interrupted _ h := h
  interrupt _ h := h

end

def Memory.ledger : Ledger Memory where
  frames := Memory.frames
  deaf _ := False
  deafness := Backend.preserves_const False
  entry {act link link'} hentry hassert h := by
    left
    obtain rfl : (outcome act.hook link).2 = link' := congrArg Prod.snd h
    cases act with
    | assert t =>
      obtain ⟨frame, outer, hframes⟩ := List.exists_cons_of_ne_nil (hassert t rfl)
      change (link.backend.addAssertion t).frames = _
      rw [Memory.addAssertion, hframes]
      rfl
    | declare | push | pop => rfl
    | _ => cases hentry
  check fs link link' r h hs _ := by
    obtain rfl : link = link' := congrArg Prod.snd hs
    exact h
  values fs refs link link' r h hs _ := by
    obtain rfl : link = link' := congrArg Prod.snd hs
    exact h
  interrupt _ := rfl

@[simp] theorem Memory.frames_ledger (m : Memory) : Memory.ledger.frames m = m.frames := rfl

def Ledger.ofLog {σ : Type} [Backend σ] (log : σ → List Act) (deaf : Link σ → Prop)
    (deafness : Backend.Preserves deaf)
    (entry : ∀ {act : Act} {link link' : Link σ}, act.isEntry = true →
      outcome act.hook link = (.ok (), link') →
      log link'.backend = log link.backend ++ [act] ∨ deaf link')
    (check : ∀ acts, Keeps .any (fun link => log link.backend = acts) (Backend.check : Hook σ Answer))
    (values : ∀ acts refs, Keeps .any (fun link => log link.backend = acts)
      (Backend.values refs : Hook σ (Entries Ref Value)))
    (interrupt : ∀ b, log (Backend.interrupt b) = log b) : Ledger σ where
  frames b := Act.framesOf (log b)
  deaf := deaf
  deafness := deafness
  entry hentry _ h := (entry hentry h).imp_left fun hlog => by rw [hlog, Act.framesOf_concat]
  check fs link link' r h hs hr := (congrArg Act.framesOf (check _ rfl hs hr)).trans h
  values fs refs link link' r h hs hr := (congrArg Act.framesOf (values _ refs rfl hs hr)).trans h
  interrupt b := by rw [interrupt]

def Recorded.ledger (σ : Type) [Backend σ] : Ledger (Recorded σ) :=
  .ofLog (fun b => b.calls.filter Act.isEntry) (fun _ => False) (Backend.preserves_const False)
    (fun {act link link'} hentry h => by
      obtain rfl : (outcome act.hook link).2 = link' := congrArg Prod.snd h
      rw [hook_eq hentry, outcome_relay]
      simp [Link.map, hentry])
    (fun acts link link' r h hs _ => by
      obtain rfl : (outcome (relay .check Backend.check) link).2 = link' := congrArg Prod.snd hs
      simpa [outcome_relay, Link.map, Act.isEntry] using h)
    (fun acts refs link link' r h hs _ => by
      obtain rfl : (outcome (relay (.values refs) (Backend.values refs)) link).2 = link' :=
        congrArg Prod.snd hs
      simpa [outcome_relay, Link.map, Act.isEntry] using h)
    (fun b => by simp [Backend.interrupt, Act.isEntry])

def Command.entry? : Command → Option Act
  | declare r => some (.declare r.var r.step)
  | assert t => some (.assert t)
  | push => some .push
  | pop => some .pop
  | _ => none

namespace Pipe

open Peer

def log (p : Pipe) : List Act := p.peer.received.filterMap Command.entry?

def Deaf (link : Link Pipe) : Prop := link.interrupted = true ∧ link.backend.peer.accepts = some 0

theorem log_of_received {link link' : Link Pipe}
    (h : link'.backend.peer.received = link.backend.peer.received) : log link'.backend = log link.backend := by
  rw [log, log, h]

theorem log_send {c : Command} {link link' : Link Pipe} (hs : outcome (send c) link = (.ok (), link')) :
    log link'.backend = log link.backend ++ c.entry?.toList ∨ Deaf link' := by
  rcases send_cases hs with ⟨peer, hwrite, -, rfl⟩ | ⟨⟨fault, hwrite⟩, rfl, hfails⟩
  · left
    change peer.received.filterMap Command.entry? = _
    rw [(write_eq_ok hwrite).2, log, List.filterMap_append]
    cases c <;> rfl
  · right
    refine ⟨?_, write_eq_error hwrite⟩
    cases hinterrupted : link'.interrupted with
    | true => rfl
    | false =>
      obtain ⟨e, he⟩ := hfails hinterrupted
      cases he

theorem keeps_log_send {acts : List Act} {c : Command} (hc : c.entry? = none) :
    Keeps .any (fun link => log link.backend = acts) (send c) := by
  intro link link' r h hs _
  rcases send_cases hs with ⟨peer, hwrite, -, rfl⟩ | ⟨-, rfl, -⟩
  · change peer.received.filterMap Command.entry? = _
    rw [(write_eq_ok hwrite).2, List.filterMap_append, ← h]
    simp [log, hc]
  · exact h

theorem keeps_log_ask {acts : List Act} {c : Command} (hc : c.entry? = none) :
    Keeps .any (fun link => log link.backend = acts) (do send c; response?) :=
  .bind (keeps_log_send hc) fun _ => keeps_response fun _ _ hreceived _ _ h =>
    (log_of_received hreceived).trans h

theorem deafness : Backend.Preserves Deaf := by
  refine preserves_of_send (fun c => ?_) fun _ _ _ haccepts hinterrupted h =>
    ⟨hinterrupted h.1, haccepts.trans h.2⟩
  rintro link link' r ⟨hinterrupted, haccepts⟩ hs _
  rcases send_cases hs with ⟨peer, hwrite, -, rfl⟩ | ⟨-, rfl, -⟩
  · exact absurd haccepts (write_eq_ok hwrite).1
  · exact ⟨hinterrupted, haccepts⟩

def Receptive (link : Link Pipe) : Prop := link.backend.peer.accepts = none

theorem Receptive.write {link : Link Pipe} (h : Receptive link) (c : Command) :
    ∃ peer, link.backend.peer.write c = .ok peer ∧ peer.accepts = none := by
  have haccepts : link.backend.peer.accepts = none := h
  refine ⟨_, by rw [Peer.write, if_neg (by simp [haccepts])], ?_⟩
  split <;> simp [haccepts]

theorem receptive_stays : Backend.Preserves Receptive := by
  refine preserves_of_send (fun c => ?_) fun _ _ _ haccepts _ h => haccepts.trans h
  intro link link' r h hs _
  obtain ⟨peer, hwrite, haccepts⟩ := h.write c
  rw [outcome_send hwrite] at hs
  exact (Prod.mk.inj hs).2 ▸ haccepts

def ledger : Ledger Pipe :=
  .ofLog log Deaf deafness
    (fun {act link link'} hentry h => by
      cases act with
      | declare | assert | push | pop => exact log_send h
      | _ => cases hentry)
    (fun _ => (leads_check (keeps_log_ask rfl).leads (keeps_log_ask rfl)).keeps)
    (fun _ refs => keeps_values fun _ => keeps_log_ask rfl)
    (fun p => by
      change (p.peer.kill.received.filterMap Command.entry?) = _
      rw [received_kill, log])

@[simp] theorem frames_ledger (p : Pipe) : ledger.frames p = Act.framesOf p.log := rfl

end Pipe

end InvariantProver
