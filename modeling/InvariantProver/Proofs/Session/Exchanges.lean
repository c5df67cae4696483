import InvariantProver.Proofs.Session.Links
import InvariantProver.Proofs.Session.Piping
import InvariantProver.Proofs.Smt.Literals

namespace InvariantProver

namespace Pipe

variable {α : Type} {I J : Link Pipe → Prop}

theorem keeps_fail (fault : SolverFault) : Keeps .any J (fail fault : Hook Pipe α) := .throw _

theorem keeps_lost : Keeps .any J (lost : Hook Pipe α) := .bind .get fun _ => keeps_fail _

theorem keeps_parsed (text : String) : Keeps .any J (parsed text) := by
  unfold parsed
  split
  · exact .pure _
  · exact keeps_fail _

theorem keeps_entry (r : Ref) (e : SExpr) : Keeps .any J (entry r e) := by
  unfold entry
  split
  · split
    · exact .pure _
    · exact keeps_fail _
  · exact .bind .get fun _ => keeps_fail _

theorem keeps_reasonUnknown (hask : Keeps .any J (do send .reasonUnknown; response?)) :
    Keeps .any J reasonUnknown := by
  unfold reasonUnknown
  rw [← bind_assoc]
  refine .bind hask fun x => ?_
  cases x with
  | none => exact .bind .get fun _ => .pure _
  | some text =>
    refine .bind (keeps_parsed text) fun e => ?_
    split <;> exact .pure _

theorem leads_check (hask : Leads I J (do send .checkSat; response?))
    (hreason : Keeps .any J (do send .reasonUnknown; response?)) : Leads I J check := by
  unfold check
  rw [← bind_assoc]
  refine hask.bind fun x => ?_
  cases x with
  | none => exact .bind .get fun _ => .ite (.pure _) keeps_lost
  | some text =>
    dsimp only
    split
    · exact .pure _
    · exact .pure _
    · exact .bind (keeps_reasonUnknown hreason) fun _ => .pure _
    · exact .bind .get fun _ => keeps_fail _

theorem keeps_values {refs : List Ref}
    (hask : refs ≠ [] → Keeps .any J (do send (.getValue refs); response?)) :
    Keeps .any J (values refs) := by
  unfold values
  split
  · exact .pure _
  · next hne =>
    unfold ask
    rw [← bind_assoc]
    refine .bind (hask hne) fun x => ?_
    cases x with
    | none => exact keeps_lost
    | some text =>
      refine .bind (keeps_parsed text) fun e => ?_
      split
      · refine .ite (.bind .get fun _ => keeps_fail _) (.bind (.mapM _ fun entry _ => ?_) fun _ => .pure _)
        exact keeps_entry entry.1 entry.2
      · exact .bind .get fun _ => keeps_fail _

theorem keeps_start
    (hstarted : ∀ link argv, J link → J (withPeer (link.backend.peer.note (.started argv)) link))
    (hoption : ∀ name value, isWord (":" ++ name) = true → isWord value = true →
      Keeps .any J (send (.setOption name value))) : Keeps .any J start := by
  intro link link' r h hs _
  unfold start at hs
  rw [outcome_bind_of_ok (outcome_get link)] at hs
  cases hstart : link.backend.peer.start link.backend.argv with
  | error fault =>
    simp only [hstart] at hs
    exact (Prod.mk.inj hs).2 ▸ h
  | ok peer =>
    simp only [hstart] at hs
    rw [outcome_bind_of_ok (outcome_setPeer peer link)] at hs
    have hpeer : J (withPeer peer link) := by
      unfold Peer.start at hstart
      split at hstart
      · cases hstart
      · obtain rfl := Except.ok.inj hstart
        exact hstarted link _ h
    refine Keeps.bind (hoption _ _ (by decide) (by decide)) (fun _ =>
      .bind (hoption _ _ (by decide) (by decide)) fun _ => ?_) hpeer hs trivial
    exact .ite (hoption _ _ (by decide) (isWord_intText _)) (.pure _)

theorem keeps_close (hsend : Keeps .any J (send .exit))
    (hshut : ∀ link, J link → J (withPeer link.backend.peer.shut link)) : Keeps .any J close := by
  have hshut' : Keeps .any J (do setPeer (← get).backend.peer.shut : Hook Pipe Unit) := by
    intro link link' r h hs _
    rw [outcome_bind_of_ok (outcome_get link)] at hs
    exact (Prod.mk.inj hs).2 ▸ hshut link h
  unfold close
  refine .bind .get fun link => ?_
  dsimp only
  split
  · exact .bind hsend fun _ => hshut'
  · exact hshut'

end Pipe

end InvariantProver
