import InvariantProver.Proofs.Session.Links
import InvariantProver.Proofs.Session.Obliging
import InvariantProver.Session.Scripted

namespace InvariantProver.Scripted

open Session

structure Willing (s : Scripted) : Prop where
  answers : ∀ a ∈ s.answers, ∃ x, a.result = .ok x
  fallback : ∃ a x, s.fallback = some a ∧ a.result = .ok x

abbrev Follows (link : Link Scripted) : Prop := link.backend.Willing

theorem Willing.note {s : Scripted} (h : s.Willing) (entry : LogEntry) : (s.note entry).Willing :=
  ⟨h.answers, h.fallback⟩

theorem returns_note (entry : LogEntry) : Returns Follows (update (note entry)) fun _ => True :=
  .modify fun _ h => h.note entry

theorem returns_interruptHere : Returns Follows interruptHere fun _ => True :=
  .modify fun _ h => h.note .interrupt

theorem returns_wait : Returns Follows wait fun _ => True := by
  refine .get_bind fun link h => ?_
  have hstruck : Returns Follows (do
      interruptHere
      modify fun link => { link with waited := true } : Hook Scripted Unit) fun _ => True :=
    returns_interruptHere.bind fun _ _ => .modify fun _ h => h
  exact Returns.ite hstruck (.pure trivial) link h

theorem returns_take : Returns Follows take fun answer => ∃ x, answer.result = .ok x := by
  refine .get_bind fun link h => ?_
  obtain ⟨last, x, hlast, hx⟩ := h.fallback
  dsimp only
  cases hrest : link.backend.answers with
  | nil =>
    rw [hlast]
    exact Returns.bind (.modify fun _ h => ⟨h.answers, h.fallback⟩) (fun _ _ => .pure ⟨x, hx⟩) link h
  | cons answer rest =>
    have hanswers : ∀ a ∈ answer :: rest, ∃ x, a.result = .ok x := hrest ▸ h.answers
    refine ⟨answer, _, rfl, hanswers answer (by simp), fun a ha => ?_, h.fallback⟩
    exact hanswers a (List.mem_cons_of_mem answer ha)

theorem returns_check : Returns Follows check fun _ => True := by
  refine (returns_note .check).bind fun _ _ => returns_take.bind fun answer ⟨x, hx⟩ => ?_
  refine .detour (fun h => returns_interruptHere.bind fun _ _ => .bind (.modify fun _ h => h) fun _ _ => h) ?_
  refine .detour (fun h => returns_interruptHere.bind fun _ _ => h) ?_
  refine .detour (fun h => returns_wait.bind fun _ _ => h) ?_
  rw [hx]
  exact .pure trivial

theorem performs : Backend.Performs (fun _ => False) Follows where
  start := .pure trivial
  declare r := returns_note (.declare r)
  assert t := returns_note (.assert t)
  push := returns_note .push
  pop := returns_note .pop
  check := returns_check
  values refs := (Returns.bind (Q := fun _ => True) (returns_note (.values refs)) fun _ _ =>
    .get_bind fun link h => ⟨_, link, rfl, trivial, h⟩).keeps
  questions _ _ _ := .ok _
  close := returns_note .close
  interrupted _ h := h
  interrupt _ h := h.note .interrupt

theorem givesAll : Backend.GivesAll Scripted := by
  intro link link' refs entries hs r hr
  obtain ⟨hentries, -⟩ := Prod.mk.inj hs
  obtain rfl := Except.ok.inj hentries
  exact Entries.exists_get?_ofList (by simpa using hr)

theorem obliging_session (vs : List Variable) (name : String) {script : Scripted} (h : script.Willing) :
    Obliging vs (fun _ => False) (session name script) :=
  obliging_of_performs vs performs rfl rfl h

section

/-- Interruptions and requests to cancel the attempt, which a script may make, leave this as it is. -/
abbrev Stands (J : Link Scripted → Prop) : Prop :=
  ∀ link link', (link.interrupted = true → link'.interrupted = true) → link.cancels ≤ link'.cancels →
    J link → J link'

variable {J : Link Scripted → Prop} (hJ : Stands J)
include hJ

theorem keeps_update (f : Scripted → Scripted) : Keeps .any J (update f) :=
  .modify fun link => hJ link _ id (Nat.le_refl _)

theorem keeps_interruptHere : Keeps .any J interruptHere :=
  .modify fun link => hJ link _ (fun _ => rfl) (Nat.le_refl _)

theorem keeps_take : Keeps .any J take := by
  refine .bind .get fun link => ?_
  dsimp only
  split
  · exact .bind (keeps_update hJ _) fun _ => .pure _
  · exact .bind (keeps_update hJ _) fun _ => .pure _
  · exact .throw _

theorem keeps_wait : Keeps .any J wait := by
  refine .bind .get fun link => ?_
  split
  · exact .bind (keeps_interruptHere hJ) fun _ => .modify fun link => hJ link _ id (Nat.le_refl _)
  · exact .pure _

theorem keeps_check : Keeps .any J check := by
  refine .bind (keeps_update hJ _) fun _ => .bind (keeps_take hJ) fun answer => ?_
  have hcancels : Keeps .any J
      (modify fun link => { link with cancels := link.cancels + 1 } : Hook Scripted Unit) :=
    .modify fun link => hJ link _ id (Nat.le_succ _)
  refine .detour (fun h => .bind (keeps_interruptHere hJ) fun _ => .bind hcancels fun _ => h) ?_
  refine .detour (fun h => .bind (keeps_interruptHere hJ) fun _ => h) ?_
  refine .detour (fun h => .bind (keeps_wait hJ) fun _ => h) ?_
  split
  · exact .pure _
  · exact .throw _

theorem preserves_of_stands : Backend.Preserves J where
  start := .pure _
  declare r := keeps_update hJ (note (.declare r))
  assert t := keeps_update hJ (note (.assert t))
  push := keeps_update hJ (note .push)
  pop := keeps_update hJ (note .pop)
  check := keeps_check hJ
  values refs := .bind (keeps_update hJ (note (.values refs))) fun _ => .bind .get fun _ => .pure _
  close := keeps_update hJ (note .close)
  interrupted link := hJ link _ (fun _ => rfl) (Nat.le_refl _)
  interrupt link := hJ link _ id (Nat.le_refl _)

end

theorem lasting : Backend.Lasting Scripted := fun _ =>
  preserves_of_stands fun _ _ _ hcancels h => Nat.le_trans h hcancels

theorem firm : Backend.Firm Scripted := preserves_of_stands fun _ _ hinterrupted _ h => hinterrupted h

theorem obeys_interruptHere : Hook.Obeys interruptHere := .modify _

theorem obeys_take : Hook.Obeys take := by
  refine .bind .get fun link => ?_
  dsimp only
  split
  · exact .bind (.modify _) fun _ => .pure _
  · exact .bind (.modify _) fun _ => .pure _
  · exact .fault _

theorem obeys_wait : Hook.Obeys wait := by
  refine .bind .get fun link => ?_
  split
  · exact .bind obeys_interruptHere fun _ => .modify _
  · exact .pure _

theorem obeys_check : Hook.Obeys check := by
  refine .bind (.modify _) fun _ => .bind obeys_take fun answer => ?_
  refine .detour (fun h => .bind obeys_interruptHere fun _ => .bind (.modify _) fun _ => h) ?_
  refine .detour (fun h => .bind obeys_interruptHere fun _ => h) ?_
  refine .detour (fun h => .bind obeys_wait fun _ => h) ?_
  split
  · exact .pure _
  · exact .fault _

theorem obeys : Backend.Obeys Scripted where
  declare _ := .modify _
  assert _ := .modify _
  push := .modify _
  pop := .modify _
  check := obeys_check
  values _ := .bind (.modify _) fun _ => .bind .get fun _ => .pure _
  close := .modify _

end InvariantProver.Scripted
