import InvariantProver.Proofs.Data.Pairs
import InvariantProver.Proofs.Session.Reached
import InvariantProver.Session.Memory

namespace InvariantProver.Memory

open Session

structure Tracks (oracle : Oracle) (frames : List (List Term)) (s : Session Memory) : Prop where
  backend : s.closed = false → s.link.backend = ⟨oracle, frames⟩
  model : s.hasModel = true → (oracle (active frames)).answer = .sat
  uncancelled : s.link.cancels = 0 ∧ s.link.waited = false

section

variable {name : String} {oracle : Oracle} {frames : List (List Term)} {s s' : Session Memory}
  {course : Course} {z : ZeroReading}

def after (oracle : Oracle) (active : List Term) (s : Session Memory) : Act → Reply × Session Memory
  | .declare v step =>
    (.done, { s with scopes := (Act.declare v step).scopes s.scopes, hasModel := false })
  | .assert t =>
    (.done, { s with
      hasModel := false
      link := { s.link with backend := s.link.backend.addAssertion t } })
  | .push =>
    (.done, { s with
      scopes := [] :: s.scopes
      hasModel := false
      link := { s.link with
        backend := { s.link.backend with frames := [] :: s.link.backend.frames } } })
  | .pop =>
    (.done, { s with
      scopes := s.scopes.tail
      hasModel := false
      link := { s.link with
        backend := { s.link.backend with frames := s.link.backend.frames.tail } } })
  | .check =>
    if s.interrupted then
      (.answer (.unknown (some cancelledReason)),
        { s with hasModel := false, reason := some cancelledReason })
    else (.answer (oracle active).answer, s.answered (oracle active).answer s.link)
  | .values refs => (.values (Entries.ofList (refs.map fun r => (r, valueOf (oracle active) r))), s)
  | .interrupt => (.done, s.interrupt)
  | .close =>
    (.done,
      if s.closed then s
      else { s with
        closed := true
        link := { s.link with backend := { s.link.backend with frames := [[]] } } })

theorem opinion_eq (h : Tracks oracle frames s) (hopen : s.closed = false) :
    s.link.backend.oracle s.link.backend.assertions = oracle (active frames) := by
  rw [h.backend hopen]
  rfl

theorem not_closed (hopen : s.closed = false) : ¬ s.closed = true := by simp [hopen]

theorem perform_eq {act : Act} (h : Tracks oracle frames s) (haccepts : s.Accepts act) :
    outcome (perform act) s =
      (.ok (after oracle (active frames) s act).1, (after oracle (active frames) s act).2) := by
  cases act with
  | declare v step =>
    obtain ⟨hopen, hstep, hdeclared⟩ := haccepts
    have hstep' : ¬ step < 0 := by omega
    have hfresh : ¬ s.isDeclared ⟨v, step⟩ = true := by simp [hdeclared]
    rw [perform, outcome_map, outcome_declare, if_neg (not_closed hopen), if_neg hstep', if_neg hfresh,
      addDeclared_eq]
    rfl
  | assert t =>
    obtain ⟨hopen, hty, hrefs⟩ := haccepts
    have hfind : t.refs.find? (fun r => !s.isDeclared r) = none := by simpa using hrefs
    rw [perform, outcome_map, outcome_assert, if_neg (not_closed hopen), if_neg (not_not_intro hty),
      hfind]
    rfl
  | push =>
    have hopen : s.closed = false := haccepts
    rw [perform, outcome_map, outcome_push, if_neg (not_closed hopen)]
    rfl
  | pop =>
    obtain ⟨hopen, hlength⟩ := haccepts
    have hlength' : ¬ s.scopes.length < 2 := by omega
    rw [perform, outcome_map, outcome_pop, if_neg (not_closed hopen), if_neg hlength']
    rfl
  | check =>
    have hopen : s.closed = false := haccepts
    by_cases hinterrupted : s.interrupted = true
    · simp [perform, outcome_check, hopen, hinterrupted, after, Except.map]
    · have hlink : ¬ s.link.interrupted = true := hinterrupted
      have hcheck : outcome (Backend.check : Hook Memory Answer) s.link =
          (.ok (oracle (active frames)).answer, s.link) := by
        rw [← opinion_eq h hopen]
        rfl
      simp [perform, outcome_check, hopen, hinterrupted, hlink, hcheck, after, Except.map]
  | values refs =>
    obtain ⟨hopen, hmodel, hrefs⟩ := haccepts
    have hfind : refs.find? (fun r => !s.isDeclared r) = none := by simpa using hrefs
    rw [perform, outcome_map, outcome_values, if_neg (not_closed hopen), if_pos hmodel, hfind, after,
      ← opinion_eq h hopen]
    rfl
  | interrupt => rfl
  | close =>
    by_cases hclosed : s.closed = true
    · simp [perform, outcome_close, hclosed, after, Except.map]
    · rw [perform, outcome_map, outcome_close, if_neg hclosed, after, if_neg hclosed]
      rfl

theorem Tracks.after {act : Act} (h : Tracks oracle frames s) (hframes : frames ≠ [])
    (haccepts : s.Accepts act) :
    Tracks oracle (act.frames frames) (after oracle (active frames) s act).2 := by
  obtain ⟨hbackend, hmodel, huncancelled⟩ := h
  cases act with
  | declare v step =>
    exact ⟨hbackend, by rintro ⟨⟩, huncancelled⟩
  | assert t =>
    refine ⟨fun hopen => ?_, by rintro ⟨⟩, huncancelled⟩
    obtain ⟨frame, outer, rfl⟩ := List.exists_cons_of_ne_nil hframes
    simp [Memory.after, hbackend hopen, addAssertion, Act.frames]
  | push =>
    exact ⟨fun hopen => by simp [Memory.after, hbackend hopen, Act.frames], by rintro ⟨⟩, huncancelled⟩
  | pop =>
    exact ⟨fun hopen => by simp [Memory.after, hbackend hopen, Act.frames], by rintro ⟨⟩, huncancelled⟩
  | check =>
    by_cases hinterrupted : s.interrupted = true
    · rw [Memory.after, if_pos hinterrupted]
      exact ⟨hbackend, by rintro ⟨⟩, huncancelled⟩
    · rw [Memory.after, if_neg hinterrupted]
      exact ⟨hbackend, of_decide_eq_true, huncancelled⟩
  | values refs => exact ⟨hbackend, hmodel, huncancelled⟩
  | interrupt =>
    have hclosed : s.interrupt.closed = s.closed := by
      unfold Session.interrupt
      split <;> rfl
    have hlink : s.interrupt.link = { s.link with interrupted := true } := by
      unfold Session.interrupt
      split <;> rfl
    have hsame : s.interrupt.hasModel = s.hasModel := by
      unfold Session.interrupt
      split <;> rfl
    refine ⟨fun hopen => ?_, fun hhas => hmodel (hsame ▸ hhas), ?_⟩
    · change s.interrupt.link.backend = _
      rw [hlink]
      exact hbackend (hclosed ▸ hopen)
    · change s.interrupt.link.cancels = 0 ∧ s.interrupt.link.waited = false
      rw [hlink]
      exact huncancelled
  | close =>
    by_cases hclosed : s.closed = true
    · simp only [Memory.after, hclosed, if_true]
      exact ⟨hbackend, hmodel, huncancelled⟩
    · simp only [Memory.after, hclosed]
      exact ⟨by rintro ⟨⟩, hmodel, huncancelled⟩

theorem tracks_of_reached (h : Reached course (session name oracle) frames s) :
    Tracks oracle frames s := by
  induction h with
  | new => exact ⟨fun _ => rfl, by rintro ⟨⟩, rfl, rfl⟩
  | started hs =>
    obtain ⟨-, rfl⟩ := Prod.mk.inj hs
    exact ⟨fun _ => rfl, by rintro ⟨⟩, rfl, rfl⟩
  | @act frames s s' r act hreached hs hr ih =>
    obtain ⟨hlength, hpos⟩ := hreached.length rfl
    rcases perform_cases hs with ⟨hrefused, rfl, m, rfl⟩ | ⟨haccepts, -⟩
    · rwa [Act.after, aligned_of_length hlength]
    · rw [perform_eq ih haccepts] at hs
      obtain ⟨rfl, rfl⟩ := Prod.mk.inj hs
      have hframes : frames ≠ [] := List.length_pos_iff.mp (by omega)
      exact ih.after hframes haccepts

theorem check_eq_ok {a : Answer} (h : Tracks oracle frames s) (hs : outcome check s = (.ok a, s')) :
    a = (oracle (active frames)).answer ∨
      s'.interrupted = true ∧ a = .unknown (some cancelledReason) := by
  have hperform : outcome (perform .check) s = (.ok (.answer a), s') := by
    rw [perform, outcome_map, hs]
    rfl
  rcases perform_cases hperform with ⟨-, -, m, hm⟩ | ⟨haccepts, -⟩
  · cases hm
  rw [perform_eq h haccepts] at hperform
  simp only [Memory.after] at hperform
  split at hperform
  · next hinterrupted =>
    obtain ⟨ha, rfl⟩ := Prod.mk.inj hperform
    exact .inr ⟨hinterrupted, (Reply.answer.inj (Except.ok.inj ha)).symm⟩
  · obtain ⟨ha, -⟩ := Prod.mk.inj hperform
    exact .inl (Reply.answer.inj (Except.ok.inj ha)).symm

theorem truthful_session (h : ∀ ts, (oracle ts).answer = .unsat → ¬ Satisfiable z ts) :
    Truthful course z (session name oracle) := by
  refine ⟨rfl, rfl, fun hreached hs => ?_⟩
  rcases check_eq_ok (tracks_of_reached hreached) hs with hanswer | ⟨-, hunknown⟩
  · exact h _ hanswer.symm
  · cases hunknown

theorem values_ok {refs : List Ref} {entries : Entries Ref Value} (h : Tracks oracle frames s)
    (hs : outcome (values refs) s = (.ok entries, s')) :
    (oracle (active frames)).answer = .sat ∧
      ∀ r ∈ refs, Entries.get? r entries = some (valueOf (oracle (active frames)) r) := by
  have hperform : outcome (perform (.values refs)) s = (.ok (.values entries), s') := by
    rw [perform, outcome_map, hs]
    rfl
  rcases perform_cases hperform with ⟨-, -, m, hm⟩ | ⟨haccepts, -⟩
  · cases hm
  rw [perform_eq h haccepts] at hperform
  obtain ⟨hentries, -⟩ := Prod.mk.inj hperform
  obtain rfl := Reply.values.inj (Except.ok.inj hentries)
  refine ⟨h.model haccepts.2.1, fun r hr => ?_⟩
  have hmem : r ∈ (refs.map fun r => (r, valueOf (oracle (active frames)) r)).map Prod.fst := by
    simpa using hr
  obtain ⟨value, hvalue⟩ := Entries.exists_get?_ofList hmem
  obtain ⟨r', -, heq⟩ := List.mem_map.mp (Entries.mem_of_get?_ofList hvalue)
  obtain ⟨rfl, rfl⟩ := Prod.mk.inj heq
  exact hvalue

theorem givesAll : Backend.GivesAll Memory := by
  intro link link' refs entries hs r hr
  obtain ⟨hentries, -⟩ := Prod.mk.inj hs
  obtain rfl := Except.ok.inj hentries
  exact Entries.exists_get?_ofList (by simpa using hr)

theorem givesModels_session
    (h : ∀ ts, (oracle ts).answer = .sat →
      ∃ a : Assignment, (∀ t ∈ ts, t.Holds z a) ∧ ∀ r, valueOf (oracle ts) r = .exact (a.value r)) :
    GivesModels course z (session name oracle) := by
  intro frames s s' refs entries hreached hs
  obtain ⟨hsat, hall⟩ := values_ok (tracks_of_reached hreached) hs
  obtain ⟨a, ha, hvalues⟩ := h _ hsat
  exact ⟨a, ha, fun r hr => by rw [hall r hr, hvalues]⟩

end

end InvariantProver.Memory
