import InvariantProver.Proofs.SExpr.Values
import InvariantProver.Proofs.Session.Reached
import InvariantProver.Proofs.Solver.Lines
import InvariantProver.Session.Memory

namespace InvariantProver

open Peer

inductive Modelled : List Command → Prop
  | check (commands : List Command) : Modelled (commands ++ [.checkSat])
  | values {commands : List Command} (refs : List Ref) :
    Modelled commands → Modelled (commands ++ [.getValue refs])

inductive Dialogue (vs : List Variable) : List Command → List (List Ref) → List (List Term) → Prop
  | new : Dialogue vs [] [[]] [[]]
  | option {commands : List Command} (name value : String) :
    Dialogue vs commands [[]] [[]] → Dialogue vs (commands ++ [.setOption name value]) [[]] [[]]
  | declare {commands : List Command} {scopes : List (List Ref)} {frames : List (List Term)}
    {v : Variable} {step : Int} :
    Dialogue vs commands scopes frames → v ∈ vs → 0 ≤ step → (∀ scope ∈ scopes, ⟨v, step⟩ ∉ scope) →
    Dialogue vs (commands ++ [.declare ⟨v, step⟩]) ((Act.declare v step).scopes scopes) frames
  | assert {commands : List Command} {scopes : List (List Ref)} {frames : List (List Term)} {t : Term} :
    Dialogue vs commands scopes frames → t.ty = .bool →
    (∀ r ∈ t.refs, ∃ scope ∈ scopes, r ∈ scope) →
    Dialogue vs (commands ++ [.assert t]) scopes ((Act.assert t).frames frames)
  | push {commands : List Command} {scopes : List (List Ref)} {frames : List (List Term)} :
    Dialogue vs commands scopes frames → Dialogue vs (commands ++ [.push]) ([] :: scopes) ([] :: frames)
  | pop {commands : List Command} {scopes : List (List Ref)} {frames : List (List Term)} :
    Dialogue vs commands scopes frames → 2 ≤ scopes.length →
    Dialogue vs (commands ++ [.pop]) scopes.tail frames.tail
  | check {commands : List Command} {scopes : List (List Ref)} {frames : List (List Term)} :
    Dialogue vs commands scopes frames → Dialogue vs (commands ++ [.checkSat]) scopes frames
  | reason {commands : List Command} {scopes : List (List Ref)} {frames : List (List Term)} :
    Dialogue vs (commands ++ [.checkSat]) scopes frames →
    Dialogue vs (commands ++ [.checkSat] ++ [.reasonUnknown]) scopes frames
  | values {commands : List Command} {scopes : List (List Ref)} {frames : List (List Term)}
    {refs : List Ref} :
    Dialogue vs commands scopes frames → Modelled commands → refs ≠ [] →
    (∀ r ∈ refs, ∃ scope ∈ scopes, r ∈ scope) →
    Dialogue vs (commands ++ [.getValue refs]) scopes frames

def Shows (o : Opinion) (r : Ref) (item : SExpr) : Prop :=
  ∃ e, item = .list [.atom r.text, e] ∧ e.Prints r.ty (Memory.valueOf o r)

def Responds (o : Opinion) : Command → List Line → Prop
  | .checkSat, lines => Says o.answer.text lines
  | .reasonUnknown, lines => ∀ reason, o.answer = .unknown (some reason) →
    Lays (SExpr.list [.atom ":reason-unknown", .atom reason]).tokens lines
  | .getValue refs, lines => o.answer = .sat →
    ∃ items, List.Forall₂ (Shows o) refs items ∧ Lays (SExpr.list items).tokens lines
  | _, lines => Quiet lines

def Command.isQuestion : Command → Bool
  | checkSat | reasonUnknown | getValue _ => true
  | _ => false

def Cut (lines : List Line) : Prop := ∃ cancels, gather none lines = (.interruption cancels, [])

/-- A solver prints what an oracle answers, unless it is interrupted while it answers one of some
questions. -/
structure Solves (vs : List Variable) (oracle : Oracle) (cuts : Command → Prop)
    (react : List Command → List Line) : Prop where
  reasons : ∀ ts, (oracle ts).answer ≠ .unknown none
  replies : ∀ ⦃commands c scopes frames⦄, Dialogue vs (commands ++ [c]) scopes frames →
    Responds (oracle (active frames)) c (react (commands ++ [c])) ∨
      c.isQuestion = true ∧ cuts c ∧ Cut (react (commands ++ [c]))

section

variable {vs : List Variable} {commands : List Command} {scopes : List (List Ref)}
  {frames : List (List Term)}

theorem Dialogue.lengths (h : Dialogue vs commands scopes frames) :
    frames.length = scopes.length ∧ 0 < scopes.length := by
  induction h with
  | new => simp
  | option _ _ _ _ => simp
  | @declare _ scopes _ _ _ _ _ _ _ ih =>
    cases scopes with
    | nil => simp at ih
    | cons scope outer => exact ih
  | @assert _ _ frames _ _ _ _ ih =>
    cases frames with
    | nil => exact ih
    | cons frame outer => exact ih
  | push _ ih => simpa using ih.1
  | pop _ htwo ih =>
    simp only [List.length_tail]
    omega
  | check _ ih => exact ih
  | reason _ ih => exact ih
  | values _ _ _ _ ih => exact ih

theorem Dialogue.frames_ne_nil (h : Dialogue vs commands scopes frames) : frames ≠ [] := by
  have hlengths := h.lengths
  exact List.length_pos_iff.mp (by omega)

theorem Dialogue.mem (h : Dialogue vs commands scopes frames) :
    ∀ scope ∈ scopes, ∀ r ∈ scope, r.var ∈ vs := by
  induction h with
  | new => simp
  | option _ _ _ _ => simp
  | @declare _ scopes _ v step _ hv _ _ ih =>
    cases scopes with
    | nil =>
      intro scope hscope r hr
      obtain rfl := List.mem_singleton.mp hscope
      obtain rfl := List.mem_singleton.mp hr
      exact hv
    | cons first outer =>
      intro scope hscope r hr
      rcases List.mem_cons.mp hscope with rfl | hscope
      · rcases List.mem_cons.mp hr with rfl | hr
        · exact hv
        · exact ih first (by simp) r hr
      · exact ih scope (List.mem_cons_of_mem _ hscope) r hr
  | assert _ _ _ ih => exact ih
  | push _ ih =>
    intro scope hscope r hr
    rcases List.mem_cons.mp hscope with rfl | hscope
    · cases hr
    · exact ih scope hscope r hr
  | pop _ _ ih => exact fun scope hscope => ih scope (List.mem_of_mem_tail hscope)
  | check _ ih => exact ih
  | reason _ ih => exact ih
  | values _ _ _ _ ih => exact ih

theorem Cut.after {lines more : List Line} (h : Cut more) (hquiet : Quiet lines) :
    Cut (lines ++ more) := by
  obtain ⟨cancels, h⟩ := h
  exact ⟨cancels, by rw [gather_quiet hquiet, h]⟩

end

namespace Peer

structure Alive (vs : List Variable) (oracle : Oracle) (cuts : Command → Prop) (p : Peer)
    (scopes : List (List Ref)) (frames : List (List Term)) : Prop where
  solves : Solves vs oracle cuts p.react
  accepts : p.accepts = none
  running : p.exited = none
  quiet : Quiet p.unread
  dialogue : Dialogue vs p.received scopes frames

structure Dead (p : Peer) : Prop where
  ended : p.isRunning = false
  quiet : Quiet p.unread

def told (p : Peer) (c : Command) : Peer :=
  { p.note (.received c) with unread := p.unread ++ p.react (p.received ++ [c]) }

section

variable {vs : List Variable} {oracle : Oracle} {cuts : Command → Prop} {p : Peer} {c : Command}
  {scopes scopes' : List (List Ref)} {frames frames' : List (List Term)}

theorem received_note (p : Peer) (c : Command) :
    (p.note (.received c)).received = p.received ++ [c] := by
  simp [received, note]

@[simp] theorem received_told (p : Peer) (c : Command) : (p.told c).received = p.received ++ [c] :=
  received_note p c

theorem Alive.write (h : Alive vs oracle cuts p scopes frames) (c : Command) :
    p.write c = .ok (p.told c) := by
  have hrunning : p.isRunning = true := by simp [isRunning, h.running]
  have haccepts : ¬ p.accepts = some 0 := by simp [h.accepts]
  have hreceived : ({ p.note (.received c) with accepts := p.accepts.map (· - 1) } : Peer).received =
      p.received ++ [c] := received_note p c
  unfold Peer.write
  rw [if_neg haccepts]
  simp only [hreceived]
  rw [if_pos (by exact hrunning)]
  simp [told, note, h.accepts]

theorem Alive.tell (h : Alive vs oracle cuts p scopes frames) (hc : c.isQuestion = false)
    (hd : Dialogue vs (p.received ++ [c]) scopes' frames') :
    Alive vs oracle cuts (p.told c) scopes' frames' := by
  refine ⟨h.solves, h.accepts, h.running, h.quiet.append ?_, by rwa [received_told]⟩
  rcases h.solves.replies hd with hreply | ⟨hquestion, -⟩
  · cases c with
    | checkSat => cases hc
    | reasonUnknown => cases hc
    | getValue refs => cases hc
    | _ => exact hreply
  · rw [hc] at hquestion
    cases hquestion

theorem Alive.heard (h : Alive vs oracle cuts p scopes frames)
    (hd : Dialogue vs (p.received ++ [c]) scopes' frames') {rest : List Line} (hrest : Quiet rest) :
    Alive vs oracle cuts { p.told c with unread := rest } scopes' frames' :=
  ⟨h.solves, h.accepts, h.running, hrest, by simpa using received_told p c ▸ hd⟩

theorem Dead.write (h : Dead p) (c : Command) :
    p.write c = .error .brokenPipe ∨ ∃ p', p.write c = .ok p' ∧ Dead p' := by
  unfold Peer.write
  split
  · exact .inl rfl
  · have hended : ¬ p.isRunning = true := by simp [h.ended]
    refine .inr ⟨_, rfl, ?_⟩
    rw [if_neg (by exact hended)]
    exact ⟨h.ended, h.quiet⟩

theorem Dead.gather (h : Dead p) : gather none p.unread = (.ended, []) := by
  have hquiet : Peer.gather none (p.unread ++ []) = Peer.gather none [] := gather_quiet h.quiet
  rwa [List.append_nil] at hquiet

theorem dead_kill (p : Peer) (h : Quiet p.unread) : Dead p.kill := by
  unfold kill
  split
  · exact ⟨rfl, h⟩
  · next hended => exact ⟨by simpa using hended, h⟩

theorem dead_finish (p : Peer) (h : Quiet p.unread) : Dead p.finish := ⟨rfl, h⟩

end

end Peer

end InvariantProver
