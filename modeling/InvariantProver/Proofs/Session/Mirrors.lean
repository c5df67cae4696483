import InvariantProver.Proofs.Prover.Likeness
import InvariantProver.Proofs.Session.Piping

namespace InvariantProver.Pipe

open Session Peer

structure Mirrors (vs : List Variable) (oracle : Oracle) (frames : List (List Term)) (s : Session Pipe)
    (t : Session Memory) : Prop where
  scopes : s.scopes = t.scopes
  hasModel : s.hasModel = t.hasModel
  reason : s.reason = t.reason
  isOpen : s.closed = false ∧ t.closed = false
  going : s.link.interrupted = false ∧ t.link.interrupted = false
  calm : (s.link.cancels = 0 ∧ s.link.waited = false) ∧ t.link.cancels = 0 ∧ t.link.waited = false
  alive : s.link.backend.peer.Alive vs oracle (fun _ => False) s.scopes frames
  memory : t.link.backend = ⟨oracle, frames⟩
  model : s.hasModel = true → Modelled s.link.backend.peer.received ∧
    (oracle (active frames)).answer = .sat

def Mirror (vs : List Variable) (oracle : Oracle) (s : Session Pipe) (t : Session Memory) : Prop :=
  ∃ frames, Mirrors vs oracle frames s t

section

variable {vs : List Variable} {oracle : Oracle} {frames frames' : List (List Term)} {s : Session Pipe}
  {t : Session Memory}

theorem Mirrors.isDeclared (h : Mirrors vs oracle frames s t) (r : Ref) :
    s.isDeclared r = t.isDeclared r := by
  simp [Session.isDeclared, h.scopes]

theorem Mirrors.left_open (h : Mirrors vs oracle frames s t) : ¬ s.closed = true := by
  simp [h.isOpen.1]

theorem Mirrors.right_open (h : Mirrors vs oracle frames s t) : ¬ t.closed = true := by
  simp [h.isOpen.2]

theorem Mirrors.enter {c : Command} {scopes' : List (List Ref)} {m : Hook Memory Unit}
    (h : Mirrors vs oracle frames s t) (hc : c.isQuestion = false)
    (hd : Dialogue vs (s.link.backend.peer.received ++ [c]) scopes' frames')
    (hm : outcome m t.link = (.ok (), { t.link with backend := ⟨oracle, frames'⟩ })) :
    EndsAlike (Mirror vs oracle) (hook (send c)) (hook m)
      { s with scopes := scopes', hasModel := false } { t with scopes := scopes', hasModel := false } := by
  obtain ⟨peer, hsend, hpeer, -⟩ := send_alive h.alive hc hd
  refine ⟨.ok (), { s with scopes := scopes', hasModel := false, link := withPeer peer s.link },
    { t with scopes := scopes', hasModel := false, link := { t.link with backend := ⟨oracle, frames'⟩ } },
    ?_, ?_, frames', ?_⟩
  · rw [outcome_hook, hsend]
  · rw [outcome_hook, hm]
  · exact ⟨rfl, rfl, h.reason, h.isOpen, h.going, h.calm, hpeer, rfl, by simp⟩

theorem alike_declare {v : Variable} (hv : v ∈ vs) (step : Int) :
    Alike (Mirror vs oracle) (declare v step) (declare v step) := by
  rintro s t ⟨frames, h⟩
  unfold EndsAlike
  rw [outcome_declare, outcome_declare, if_neg h.left_open, if_neg h.right_open,
    ← h.isDeclared]
  by_cases hstep : step < 0
  · rw [if_pos hstep, if_pos hstep]
    exact ⟨_, s, t, rfl, rfl, frames, h⟩
  rw [if_neg hstep, if_neg hstep]
  by_cases hdeclared : s.isDeclared ⟨v, step⟩ = true
  · rw [if_pos hdeclared, if_pos hdeclared]
    exact ⟨_, s, t, rfl, rfl, frames, h⟩
  rw [if_neg hdeclared, if_neg hdeclared, addDeclared_eq, addDeclared_eq, ← h.scopes]
  have hd : Dialogue vs (s.link.backend.peer.received ++ [.declare ⟨v, step⟩])
      ((Act.declare v step).scopes s.scopes) frames := by
    refine h.alive.dialogue.declare hv (by omega) fun scope hscope hmem => hdeclared ?_
    exact (isDeclared_iff s _).mpr ⟨scope, hscope, hmem⟩
  exact h.enter rfl hd (by rw [← h.memory]; rfl)

theorem alike_assert (p : Term) :
    Alike (Mirror vs oracle) (Session.assert p) (Session.assert p) := by
  rintro s t ⟨frames, h⟩
  unfold EndsAlike
  rw [outcome_assert, outcome_assert, if_neg h.left_open, if_neg h.right_open]
  by_cases hty : p.ty ≠ .bool
  · rw [if_pos hty, if_pos hty]
    exact ⟨_, s, t, rfl, rfl, frames, h⟩
  have hsame : (fun r => !s.isDeclared r) = fun r => !t.isDeclared r := by
    funext r
    rw [h.isDeclared]
  rw [if_neg hty, if_neg hty, ← hsame]
  cases hfind : p.refs.find? fun r => !s.isDeclared r with
  | some r => exact ⟨_, s, t, rfl, rfl, frames, h⟩
  | none =>
    have hrefs : ∀ r ∈ p.refs, ∃ scope ∈ s.scopes, r ∈ scope := by
      intro r hr
      have hdeclared := List.find?_eq_none.mp hfind r hr
      exact (isDeclared_iff s r).mp (by simpa using hdeclared)
    have hd := h.alive.dialogue.assert (Decidable.not_not.mp hty) hrefs
    dsimp only
    rw [← h.scopes]
    refine h.enter rfl hd ?_
    obtain ⟨frame, outer, rfl⟩ := List.exists_cons_of_ne_nil h.alive.dialogue.frames_ne_nil
    change (_, { t.link with backend := t.link.backend.addAssertion p }) = _
    rw [h.memory]
    rfl

theorem alike_push : Alike (Mirror vs oracle) Session.push Session.push := by
  rintro s t ⟨frames, h⟩
  unfold EndsAlike
  rw [outcome_push, outcome_push, if_neg h.left_open, if_neg h.right_open, ← h.scopes]
  refine h.enter rfl h.alive.dialogue.push ?_
  change (_, { t.link with backend := { t.link.backend with frames := [] :: t.link.backend.frames } }) = _
  rw [h.memory]

theorem alike_pop : Alike (Mirror vs oracle) Session.pop Session.pop := by
  rintro s t ⟨frames, h⟩
  unfold EndsAlike
  rw [outcome_pop, outcome_pop, if_neg h.left_open, if_neg h.right_open, ← h.scopes]
  by_cases hlength : s.scopes.length < 2
  · rw [if_pos hlength, if_pos hlength]
    exact ⟨_, s, t, rfl, rfl, frames, h⟩
  rw [if_neg hlength, if_neg hlength]
  refine h.enter rfl (h.alive.dialogue.pop (by omega)) ?_
  change (_, { t.link with backend := { t.link.backend with frames := t.link.backend.frames.tail } }) = _
  rw [h.memory]

theorem alike_check : Alike (Mirror vs oracle) Session.check Session.check := by
  rintro s t ⟨frames, h⟩
  unfold EndsAlike
  have hgoing : ¬ s.interrupted = true := by simp [interrupted, h.going.1]
  have hgoing' : ¬ t.interrupted = true := by simp [interrupted, h.going.2]
  rw [outcome_check, outcome_check, if_neg h.left_open, if_neg h.right_open, if_neg hgoing, if_neg hgoing']
  rcases check_alive h.alive with ⟨peer, hs, hpeer, hmodelled⟩ | ⟨⟨c, hcut⟩, -⟩
  · have ht : outcome (Backend.check : Hook Memory Answer) t.link =
        (.ok (oracle (active frames)).answer, t.link) := by
      change (Except.ok (t.link.backend.oracle t.link.backend.assertions).answer, t.link) = _
      rw [h.memory]
      rfl
    have hs' : outcome (Backend.check : Hook Pipe Answer) s.link =
        (.ok (oracle (active frames)).answer, withPeer peer s.link) := hs
    have hleft : ¬ (withPeer peer s.link).interrupted = true := by simp [withPeer, h.going.1]
    have hright : ¬ t.link.interrupted = true := by simp [h.going.2]
    simp only [hs', ht]
    rw [if_neg hleft, if_neg hright]
    refine ⟨_, _, _, rfl, rfl, frames, ?_⟩
    exact ⟨h.scopes, rfl, rfl, h.isOpen, h.going, h.calm, hpeer, h.memory, fun hmodel =>
      ⟨hmodelled (of_decide_eq_true hmodel), of_decide_eq_true hmodel⟩⟩
  · exact hcut.elim

theorem alike_values (refs : List Ref) : Alike (Mirror vs oracle) (Session.values refs) (Session.values refs) := by
  rintro s t ⟨frames, h⟩
  unfold EndsAlike
  rw [outcome_values, outcome_values, if_neg h.left_open, if_neg h.right_open, ← h.hasModel]
  by_cases hmodel : s.hasModel = true
  · have hsame : (fun r => !s.isDeclared r) = fun r => !t.isDeclared r := by
      funext r
      rw [h.isDeclared]
    rw [if_pos hmodel, if_pos hmodel, ← hsame]
    cases hfind : refs.find? fun r => !s.isDeclared r with
    | some r => exact ⟨_, s, t, rfl, rfl, frames, h⟩
    | none =>
      have hrefs : ∀ r ∈ refs, ∃ scope ∈ s.scopes, r ∈ scope := by
        intro r hr
        have hdeclared := List.find?_eq_none.mp hfind r hr
        exact (isDeclared_iff s r).mp (by simpa using hdeclared)
      obtain ⟨hmodelled, hsat⟩ := h.model hmodel
      rcases values_alive h.alive hmodelled hsat hrefs with ⟨peer, hs, hpeer, hlater⟩ | ⟨hcut, -⟩
      · have ht : outcome (Backend.values refs : Hook Memory (Entries Ref Value)) t.link =
            (.ok (Entries.ofList (refs.map fun r => (r, Memory.valueOf (oracle (active frames)) r))),
              t.link) := by
          change (Except.ok (Entries.ofList (refs.map fun r =>
            (r, Memory.valueOf (t.link.backend.oracle t.link.backend.assertions) r))), t.link) = _
          rw [h.memory]
          rfl
        have hs' : outcome (Backend.values refs : Hook Pipe (Entries Ref Value)) s.link =
            (.ok (Entries.ofList (refs.map fun r => (r, Memory.valueOf (oracle (active frames)) r))),
              withPeer peer s.link) := hs
        simp only [outcome_hook, hs', ht]
        refine ⟨_, _, _, rfl, rfl, frames, ?_⟩
        exact ⟨h.scopes, h.hasModel, h.reason, h.isOpen, h.going, h.calm, hpeer, h.memory,
          fun _ => ⟨hlater, hsat⟩⟩
      · exact hcut.elim
  · rw [if_neg hmodel, if_neg hmodel]
    exact ⟨_, s, t, rfl, rfl, frames, h⟩

structure Fresh (vs : List Variable) (oracle : Oracle) (s : Session Pipe) (t : Session Memory) : Prop where
  left : ∃ solver timeout peer, s = session solver timeout peer ∧ Ready vs oracle (fun _ => False) peer
  right : ∃ name, t = Memory.session name oracle

theorem twins (vs : List Variable) (oracle : Oracle) : Twins vs (Fresh vs oracle) (Mirror vs oracle) where
  new := by
    rintro s t ⟨⟨solver, timeout, peer, rfl, -⟩, name, rfl⟩
    exact ⟨rfl, rfl⟩
  start := by
    rintro s t ⟨⟨solver, timeout, peer, rfl, hready⟩, name, rfl⟩
    obtain ⟨started, hstart, halive⟩ :=
      start_alive (session solver timeout peer).link hready
    have hstart' : outcome (Backend.start : Hook Pipe Unit) (session solver timeout peer).link =
        (.ok (), withPeer started (session solver timeout peer).link) := hstart
    refine ⟨_, _, by rw [Session.start, outcome_hook, hstart'], rfl, [[]], ?_⟩
    exact ⟨rfl, rfl, rfl, ⟨rfl, rfl⟩, ⟨rfl, rfl⟩, ⟨⟨rfl, rfl⟩, rfl, rfl⟩, halive, rfl, by simp [session]⟩
  declare v hv step := alike_declare hv step
  assert := alike_assert
  push := alike_push
  pop := alike_pop
  check := alike_check
  values := alike_values
  reason := by
    rintro s t ⟨frames, h⟩
    exact h.reason
  calm := by
    rintro s t ⟨frames, h⟩
    exact h.calm
  close := by
    rintro s t ⟨frames, h⟩
    obtain ⟨peer, hclose⟩ := close_alive h.alive
    have hclose' : outcome (Backend.close : Hook Pipe Unit) s.link = (.ok (), withPeer peer s.link) :=
      hclose
    refine ⟨{ s with closed := true, link := withPeer peer s.link },
      { t with
        closed := true
        link := { t.link with backend := { t.link.backend with frames := [[]] } } }, ?_, ?_⟩
    · rw [outcome_close, if_neg h.left_open, outcome_hook, hclose']
    · rw [outcome_close, if_neg h.right_open]
      rfl

end

end InvariantProver.Pipe
