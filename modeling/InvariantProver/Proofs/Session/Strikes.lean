import InvariantProver.Proofs.Session.Obliging
import InvariantProver.Proofs.Session.Piping

namespace InvariantProver

open Session Peer Pipe

/-- The attempt is cancelled or its time is over. What is sent to the killed process afterwards may be
refused at once or only later. -/
structure Strike where
  cancels : Bool := false
  expires : Bool := false
  accepts : Option Nat := some 0

structure Occasion where
  time : Nat
  act : Act
  done : Bool

structure Exposed where
  pipe : Pipe
  strikes : Occasion → Option Strike := fun _ => none
  time : Nat := 0
  /-- The attempt is cancelled while the process starts, when nobody can kill it yet. -/
  early : Bool := false

def Link.on {σ τ : Type} (link : Link σ) (backend : τ) : Link τ :=
  ⟨backend, link.interrupted, link.cancels, link.waited⟩

namespace Exposed

def hit (strike : Strike) (e : Exposed) : Exposed :=
  { e with pipe := { e.pipe with peer := { e.pipe.peer.kill with accepts := strike.accepts } } }

def pass (act : Act) (done : Bool) : Hook Exposed Unit := modify fun link =>
  let e := { link.backend with time := link.backend.time + 1 }
  match e.strikes ⟨link.backend.time, act, done⟩ with
  | none => { link with backend := e }
  | some strike =>
    { backend := e.hit strike
      interrupted := true
      cancels := link.cancels + strike.cancels.toNat
      waited := link.waited || strike.expires }

def within {α : Type} (h : Hook Pipe α) : Hook Exposed α := fun link =>
  let (result, inner) := h.run (link.on link.backend.pipe)
  (result, inner.on { link.backend with pipe := inner.backend })

def exposed {α : Type} (act : Act) (h : Hook Pipe α) : Hook Exposed α := do
  pass act false
  let result ← within h
  pass act true
  return result

instance : Backend Exposed where
  start := do
    within Pipe.start
    modify fun link => { link with cancels := link.cancels + link.backend.early.toNat }
  declare r := exposed (.declare r.var r.step) (Pipe.send (.declare r))
  assert t := exposed (.assert t) (Pipe.send (.assert t))
  push := exposed .push (Pipe.send .push)
  pop := exposed .pop (Pipe.send .pop)
  check := exposed .check Pipe.check
  values refs := exposed (.values refs) (Pipe.values refs)
  interrupt e := { e with pipe := e.pipe.interrupt }
  close := exposed .close Pipe.close

theorem givesAll : Backend.GivesAll Exposed := by
  intro link link' refs entries hs
  change outcome (exposed (.values refs) (Pipe.values refs)) link = _ at hs
  unfold exposed at hs
  obtain ⟨⟨⟩, link₁, -, hs⟩ := outcome_bind_ok.mp hs
  obtain ⟨entries', link₂, hwithin, hs⟩ := outcome_bind_ok.mp hs
  obtain ⟨⟨⟩, link₃, -, hs⟩ := outcome_bind_ok.mp hs
  obtain ⟨rfl, -⟩ := outcome_pure_ok.mp hs
  have hinner : (outcome (Backend.values refs) (link₁.on link₁.backend.pipe)).1 = .ok entries' :=
    congrArg Prod.fst hwithin
  exact Pipe.givesAll (Prod.ext hinner rfl)

def session (e : Exposed) : Session Exposed := { name := e.pipe.solver.name, link := { backend := e } }

structure Spares (cuts : Command → Prop) (strikes : Occasion → Option Strike) : Prop where
  before : ∀ time refs, strikes ⟨time, .values refs, false⟩ = none
  response : ∀ refs, ¬ cuts (.getValue refs)

def Exited (cuts : Command → Prop) (strikes : Occasion → Option Strike) (e : SessionError) : Prop :=
  (∃ name code, e = .solver (.exited name code)) ∧ ¬ Spares cuts strikes

section

variable (vs : List Variable) (oracle : Oracle) (cuts : Command → Prop)
  (strikes : Occasion → Option Strike)

structure KnowsPeer (scopes : List (List Ref)) (frames : List (List Term)) (link : Link Exposed) : Prop where
  alive : link.interrupted = false → link.backend.pipe.peer.Alive vs oracle cuts scopes frames
  dead : link.interrupted = true → link.backend.pipe.peer.Dead
  strikes : link.backend.strikes = strikes

def Answered (frames : List (List Term)) (link : Link Exposed) : Prop :=
  Modelled link.backend.pipe.peer.received ∧ (oracle (active frames)).answer = .sat

end

section

variable {vs : List Variable} {oracle : Oracle} {cuts : Command → Prop}
  {strikes : Occasion → Option Strike} {scopes scopes' : List (List Ref)}
  {frames frames' : List (List Term)} {link : Link Exposed}

theorem outcome_within {α : Type} {h : Hook Pipe α} {r : Except SessionError α} {inner : Link Pipe}
    (hs : outcome h (link.on link.backend.pipe) = (r, inner)) :
    outcome (within h) link = (r, inner.on { link.backend with pipe := inner.backend }) := by
  change ((outcome h (link.on link.backend.pipe)).1, (outcome h (link.on link.backend.pipe)).2.on
    { link.backend with pipe := (outcome h (link.on link.backend.pipe)).2.backend }) = _
  rw [hs]

theorem KnowsPeer.quiet (h : KnowsPeer vs oracle cuts strikes scopes frames link) :
    Quiet link.backend.pipe.peer.unread := by
  cases hinterrupted : link.interrupted with
  | false => exact (h.alive hinterrupted).quiet
  | true => exact (h.dead hinterrupted).quiet

theorem outcome_pass (act : Act) (done : Bool) (link : Link Exposed) :
    ∃ link', outcome (pass act done) link = (.ok (), link') :=
  ⟨_, outcome_modify _ link⟩

theorem KnowsPeer.pass (h : KnowsPeer vs oracle cuts strikes scopes frames link) (act : Act) (done : Bool) :
    ∃ link', outcome (pass act done) link = (.ok (), link') ∧
      KnowsPeer vs oracle cuts strikes scopes frames link' ∧
      (link'.interrupted = false → link.interrupted = false ∧ link'.backend.pipe = link.backend.pipe) ∧
      (strikes ⟨link.backend.time, act, done⟩ = none → link'.interrupted = link.interrupted) := by
  refine ⟨_, outcome_modify _ link, ?_⟩
  have hstrikes : link.backend.strikes = strikes := h.strikes
  dsimp only
  rw [hstrikes]
  cases hstrike : strikes ⟨link.backend.time, act, done⟩ with
  | none => exact ⟨⟨h.alive, h.dead, rfl⟩, fun hgoing => ⟨hgoing, rfl⟩, fun _ => rfl⟩
  | some strike =>
    have hdead : Dead { link.backend.pipe.peer.kill with accepts := strike.accepts } :=
      ⟨(dead_kill _ h.quiet).ended, (dead_kill _ h.quiet).quiet⟩
    exact ⟨⟨by simp, fun _ => hdead, rfl⟩, by simp, by simp⟩

theorem KnowsPeer.inner (h : KnowsPeer vs oracle cuts strikes scopes frames link) :
    (link.on link.backend.pipe).interrupted = false ∧
        (link.on link.backend.pipe).backend.peer.Alive vs oracle cuts scopes frames ∨
      Down (link.on link.backend.pipe) := by
  cases hinterrupted : link.interrupted with
  | false => exact .inl ⟨hinterrupted, h.alive hinterrupted⟩
  | true => exact .inr ⟨hinterrupted, h.dead hinterrupted⟩

theorem knowsPeer_of_down {inner : Link Pipe} (hstrikes : link.backend.strikes = strikes) (h : Down inner) :
    KnowsPeer vs oracle cuts strikes scopes frames (inner.on { link.backend with pipe := inner.backend }) :=
  ⟨fun hgoing => absurd hgoing h.not_going, fun _ => h.2, hstrikes⟩

theorem knowsPeer_of_alive {inner : Link Pipe} (hstrikes : link.backend.strikes = strikes)
    (hgoing : inner.interrupted = false)
    (h : inner.backend.peer.Alive vs oracle cuts scopes frames) :
    KnowsPeer vs oracle cuts strikes scopes frames (inner.on { link.backend with pipe := inner.backend }) :=
  ⟨fun _ => h, fun hinterrupted => Bool.noConfusion (hgoing.symm.trans hinterrupted), hstrikes⟩

theorem KnowsPeer.exposed {α : Type} {P : α → Peer → Prop} (act : Act) (op : Hook Pipe α)
    (h : KnowsPeer vs oracle cuts strikes scopes frames link)
    (halive : ∀ inner : Link Pipe, inner.backend.peer.Alive vs oracle cuts scopes frames →
      (∃ a peer, outcome op inner = (.ok a, withPeer peer inner) ∧
        peer.Alive vs oracle cuts scopes' frames' ∧ P a peer) ∨
      ∃ a inner', outcome op inner = (.ok a, inner') ∧ Struck inner inner')
    (hdown : ∀ inner : Link Pipe, Down inner →
      ∃ a peer, outcome op inner = (.ok a, withPeer peer inner) ∧ peer.Dead) :
    ∃ a link', outcome (Exposed.exposed act op) link = (.ok a, link') ∧
      KnowsPeer vs oracle cuts strikes scopes' frames' link' ∧
      (link'.interrupted = false → P a link'.backend.pipe.peer) := by
  obtain ⟨link₁, hbefore, h₁, -, -⟩ := h.pass act false
  suffices hwithin : ∃ a link₂, outcome (within op) link₁ = (.ok a, link₂) ∧
      KnowsPeer vs oracle cuts strikes scopes' frames' link₂ ∧
      (link₂.interrupted = false → P a link₂.backend.pipe.peer) by
    obtain ⟨a, link₂, hwithin, h₂, ha⟩ := hwithin
    obtain ⟨link₃, hafter, h₃, hsame, -⟩ := h₂.pass act true
    refine ⟨a, link₃, ?_, h₃, fun hgoing => ?_⟩
    · unfold Exposed.exposed
      rw [outcome_bind_of_ok hbefore, outcome_bind_of_ok hwithin, outcome_bind_of_ok hafter]
      rfl
    · obtain ⟨hgoing₂, hpipe⟩ := hsame hgoing
      rw [hpipe]
      exact ha hgoing₂
  rcases h₁.inner with ⟨hgoing, hpeer⟩ | hinner
  · rcases halive _ hpeer with ⟨a, peer, hs, hpeer', ha⟩ | ⟨a, inner, hs, hstruck⟩
    · exact ⟨a, _, outcome_within hs, knowsPeer_of_alive h₁.strikes hgoing hpeer', fun _ => ha⟩
    · exact ⟨a, _, outcome_within hs, knowsPeer_of_down h₁.strikes hstruck.down,
        fun hgoing => absurd hgoing hstruck.down.not_going⟩
  · obtain ⟨a, peer, hs, hdead⟩ := hdown _ hinner
    have hinner' : Down (withPeer peer (link₁.on link₁.backend.pipe)) := ⟨hinner.1, hdead⟩
    exact ⟨a, _, outcome_within hs, knowsPeer_of_down h₁.strikes hinner',
      fun hgoing => absurd hgoing hinner'.not_going⟩

theorem KnowsPeer.send {c : Command} (act : Act) (h : KnowsPeer vs oracle cuts strikes scopes frames link)
    (hc : c.isQuestion = false)
    (hd : ∀ commands, Dialogue vs commands scopes frames → Dialogue vs (commands ++ [c]) scopes' frames') :
    ∃ link', outcome (Exposed.exposed act (Pipe.send c)) link = (.ok (), link') ∧
      KnowsPeer vs oracle cuts strikes scopes' frames' link' := by
  obtain ⟨⟨⟩, link', hs, h', -⟩ := h.exposed (P := fun _ _ => True) act (Pipe.send c)
    (fun inner hpeer => by
      obtain ⟨peer, hs, hpeer', -⟩ := send_alive hpeer hc (hd _ hpeer.dialogue)
      exact .inl ⟨(), peer, hs, hpeer', trivial⟩)
    (fun inner hinner => ⟨(), send_down c hinner⟩)
  exact ⟨link', hs, h'⟩

theorem KnowsPeer.check (h : KnowsPeer vs oracle cuts strikes scopes frames link) :
    ∃ a link', outcome (Backend.check : Hook Exposed Answer) link = (.ok a, link') ∧
      KnowsPeer vs oracle cuts strikes scopes frames link' ∧
      (link'.interrupted = false → a = .sat → Answered oracle frames link') := by
  obtain ⟨a, link', hs, h', ha⟩ := h.exposed
    (P := fun a peer => a = .sat → Modelled peer.received ∧ (oracle (active frames)).answer = .sat)
    .check Pipe.check
    (fun inner hpeer => by
      rcases check_alive hpeer with ⟨peer, hs, hpeer', hmodelled⟩ | ⟨-, hstruck⟩
      · exact .inl ⟨_, peer, hs, hpeer', fun hsat => ⟨hmodelled hsat, hsat⟩⟩
      · exact .inr hstruck)
    (fun inner hinner => ⟨_, check_down hinner⟩)
  exact ⟨a, link', hs, h', ha⟩

theorem KnowsPeer.within_values {refs : List Ref} (h : KnowsPeer vs oracle cuts strikes scopes frames link)
    (hanswered : link.interrupted = false → Answered oracle frames link)
    (hrefs : ∀ r ∈ refs, ∃ scope ∈ scopes, r ∈ scope) :
    ∃ r link', outcome (within (Pipe.values refs)) link = (r, link') ∧
      KnowsPeer vs oracle cuts strikes scopes frames link' ∧
      (link'.interrupted = false → Answered oracle frames link') ∧
      ∀ e, r = .error e → (∃ name code, e = .solver (.exited name code)) ∧ link'.interrupted = true ∧
        (link.interrupted = false → cuts (.getValue refs)) := by
  rcases h.inner with ⟨hgoing, hpeer⟩ | hinner
  · obtain ⟨hmodelled, hsat⟩ := hanswered hgoing
    rcases values_alive hpeer hmodelled hsat hrefs with
      ⟨peer, hs, hpeer', hmodelled'⟩ | ⟨hcuts, inner, code, hs, hstruck⟩
    · exact ⟨_, _, outcome_within hs, knowsPeer_of_alive h.strikes hgoing hpeer',
        fun _ => ⟨hmodelled', hsat⟩, by simp⟩
    · refine ⟨_, _, outcome_within hs, knowsPeer_of_down h.strikes hstruck.down,
        fun hgoing => absurd hgoing hstruck.down.not_going, fun e he => ?_⟩
      exact ⟨⟨_, code, (Except.error.inj he).symm⟩, hstruck.down.1, fun _ => hcuts⟩
  · by_cases hne : refs = []
    · subst hne
      exact ⟨.ok [], link, rfl, h, hanswered, by simp⟩
    · obtain ⟨peer, hs, hdead⟩ := values_down hne hinner
      have hinner' : Down (withPeer peer (link.on link.backend.pipe)) := ⟨hinner.1, hdead⟩
      refine ⟨_, _, outcome_within hs, knowsPeer_of_down h.strikes hinner',
        fun hgoing => absurd hgoing hinner'.not_going, fun e he => ?_⟩
      exact ⟨⟨_, _, (Except.error.inj he).symm⟩, hinner'.1,
        fun hgoing => absurd hgoing hinner.not_going⟩

theorem KnowsPeer.values {refs : List Ref} (h : KnowsPeer vs oracle cuts strikes scopes frames link)
    (hanswered : link.interrupted = false → Answered oracle frames link)
    (hrefs : ∀ r ∈ refs, ∃ scope ∈ scopes, r ∈ scope) :
    ∃ r link', outcome (Backend.values refs : Hook Exposed (Entries Ref Value)) link = (r, link') ∧
      KnowsPeer vs oracle cuts strikes scopes frames link' ∧
      (link'.interrupted = false → Answered oracle frames link') ∧
      (link.interrupted = false → FailsOnlyBy (Exited cuts strikes) r) := by
  obtain ⟨link₁, hbefore, h₁, hsame₁, hspared⟩ := h.pass (.values refs) false
  have hanswered₁ : link₁.interrupted = false → Answered oracle frames link₁ := by
    intro hgoing
    obtain ⟨hgoing₀, hpipe⟩ := hsame₁ hgoing
    unfold Answered
    rw [hpipe]
    exact hanswered hgoing₀
  obtain ⟨r, link₂, hwithin, h₂, hanswered₂, herror⟩ := h₁.within_values hanswered₁ hrefs
  change ∃ r link', outcome (Exposed.exposed (.values refs) (Pipe.values refs)) link = (r, link') ∧ _
  unfold Exposed.exposed
  rw [outcome_bind_of_ok hbefore, outcome_bind, hwithin]
  cases r with
  | error e =>
    obtain ⟨hexited, hinterrupted, hcuts⟩ := herror e rfl
    refine ⟨_, link₂, rfl, h₂, hanswered₂, fun hgoing e' he => ?_⟩
    obtain rfl := Except.error.inj he
    refine ⟨hexited, fun hspares => hspares.response refs (hcuts ?_)⟩
    rw [hspared (hspares.before _ refs), hgoing]
  | ok entries =>
    obtain ⟨link₃, hafter, h₃, hsame₃, -⟩ := h₂.pass (.values refs) true
    refine ⟨.ok entries, link₃, ?_, h₃, fun hgoing => ?_, fun _ e he => by cases he⟩
    · dsimp only
      rw [outcome_bind_of_ok hafter]
      rfl
    · obtain ⟨hgoing₂, hpipe⟩ := hsame₃ hgoing
      unfold Answered
      rw [hpipe]
      exact hanswered₂ hgoing₂

theorem KnowsPeer.close (h : KnowsPeer vs oracle cuts strikes scopes frames link) :
    ∃ link', outcome (Backend.close : Hook Exposed Unit) link = (.ok (), link') := by
  obtain ⟨link₁, hbefore, h₁, -, -⟩ := h.pass .close false
  have hclose : ∃ peer, outcome Pipe.close (link₁.on link₁.backend.pipe) =
      (.ok (), withPeer peer (link₁.on link₁.backend.pipe)) := by
    rcases h₁.inner with ⟨-, hpeer⟩ | hinner
    · exact close_alive hpeer
    · exact close_down hinner
  obtain ⟨peer, hclose⟩ := hclose
  obtain ⟨link₃, hafter⟩ := outcome_pass .close true
    ((withPeer peer (link₁.on link₁.backend.pipe)).on
      { link₁.backend with pipe := (withPeer peer (link₁.on link₁.backend.pipe)).backend })
  refine ⟨link₃, ?_⟩
  change outcome (Exposed.exposed .close Pipe.close) link = _
  unfold Exposed.exposed
  rw [outcome_bind_of_ok hbefore, outcome_bind_of_ok (outcome_within hclose), outcome_bind_of_ok hafter]
  rfl

end

section

variable {vs : List Variable} {oracle : Oracle} {cuts : Command → Prop}
  {strikes : Occasion → Option Strike} {scopes : List (List Ref)} {frames frames' : List (List Term)}
  {s : Session Exposed}

def Operable (vs : List Variable) (oracle : Oracle) (cuts : Command → Prop)
    (strikes : Occasion → Option Strike) (frames : List (List Term)) (s : Session Exposed) : Prop :=
  s.closed = false → KnowsPeer vs oracle cuts strikes s.scopes frames s.link ∧
    (s.hasModel = true → s.link.interrupted = false → Answered oracle frames s.link)

theorem operable_enter {c : Command} (act : Act) (h : KnowsPeer vs oracle cuts strikes s.scopes frames s.link)
    (hc : c.isQuestion = false)
    (hd : ∀ commands, Dialogue vs commands s.scopes frames →
      Dialogue vs (commands ++ [c]) scopes frames') :
    ∃ s', outcome (hook (exposed act (Pipe.send c))) { s with scopes := scopes, hasModel := false } =
        (.ok (), s') ∧ Operable vs oracle cuts strikes frames' s' := by
  obtain ⟨link, hs, h'⟩ := h.send act hc hd
  refine ⟨{ s with scopes := scopes, hasModel := false, link := link }, ?_, fun _ => ⟨h', by simp⟩⟩
  rw [outcome_hook, hs]

theorem operable_check (hopen : s.closed = false) (h : Operable vs oracle cuts strikes frames s) :
    ∃ a s', outcome Session.check s = (.ok a, s') ∧ Operable vs oracle cuts strikes frames s' := by
  rw [outcome_check, if_neg (by simp [hopen])]
  split
  · exact ⟨_, _, rfl, fun _ => ⟨(h hopen).1, by simp⟩⟩
  · obtain ⟨a, link, hs, halive, hanswered⟩ := (h hopen).1.check
    simp only [hs]
    split
    · exact ⟨_, _, rfl, fun _ => ⟨halive, by simp [answered]⟩⟩
    · exact ⟨a, _, rfl, fun _ => ⟨halive, fun hmodel hgoing => hanswered hgoing (of_decide_eq_true hmodel)⟩⟩

theorem operable_values {refs : List Ref} (haccepts : s.Accepts (.values refs))
    (h : Operable vs oracle cuts strikes frames s) :
    ∃ r s', outcome (Session.values refs) s = (r, s') ∧ s'.scopes = s.scopes ∧
      Operable vs oracle cuts strikes frames s' ∧ (s.interrupted = false → FailsOnlyBy (Exited cuts strikes) r) := by
  obtain ⟨hopen, hmodel, hrefs⟩ := haccepts
  obtain ⟨halive, hanswered⟩ := h hopen
  have hfind : refs.find? (fun r => !s.isDeclared r) = none := by simpa using hrefs
  obtain ⟨r, link, hs, halive', hanswered', hfails⟩ :=
    halive.values (hanswered hmodel) fun r hr => (isDeclared_iff s r).mp (hrefs r hr)
  refine ⟨r, { s with link := link }, ?_, rfl, fun _ => ⟨halive', fun _ => hanswered'⟩, hfails⟩
  rw [outcome_values, if_neg (by simp [hopen]), if_pos hmodel, hfind]
  dsimp only
  rw [outcome_hook, hs]

theorem operable_interrupt (h : Operable vs oracle cuts strikes frames s) :
    Operable vs oracle cuts strikes frames s.interrupt := by
  unfold Session.interrupt
  split
  · next hclosed => exact fun hopen => Bool.noConfusion (hclosed.symm.trans hopen)
  · intro hopen
    exact ⟨⟨by simp, fun _ => dead_kill _ (h hopen).1.quiet, (h hopen).1.strikes⟩, by simp⟩

theorem operable_close (h : Operable vs oracle cuts strikes frames s) :
    ∃ s', outcome Session.close s = (.ok (), s') ∧ Operable vs oracle cuts strikes frames s' := by
  rw [outcome_close]
  by_cases hclosed : s.closed = true
  · exact ⟨s, if_pos hclosed, h⟩
  · obtain ⟨link, hs⟩ := (h (by simpa using hclosed)).1.close
    refine ⟨{ s with closed := true, link := link }, ?_, fun hopen => by cases hopen⟩
    rw [if_neg hclosed, outcome_hook, hs]

theorem Operable.perform {act : Act} (h : Operable vs oracle cuts strikes frames s)
    (hlength : frames.length = s.scopes.length) (haccepts : s.Accepts act) (hconcerns : act.Concerns vs) :
    ∃ r s', outcome (Session.perform act) s = (r, s') ∧
      Operable vs oracle cuts strikes (act.after r s'.scopes frames) s' ∧
      (act.isQuestion = false → ∃ reply, r = .ok reply) := by
  cases act with
  | declare v step =>
    obtain ⟨hopen, hstep, hdeclared⟩ := haccepts
    have hfresh : ∀ scope ∈ s.scopes, (⟨v, step⟩ : Ref) ∉ scope := fun scope hscope hmem =>
      Bool.noConfusion (hdeclared.symm.trans ((isDeclared_iff s _).mpr ⟨scope, hscope, hmem⟩))
    obtain ⟨s', hs, h'⟩ := operable_enter (.declare v step) (h hopen).1 (c := .declare ⟨v, step⟩) rfl
      fun _ hd => hd.declare hconcerns hstep hfresh
    refine ⟨_, s', outcome_performed (a := ()) rfl ?_, h', fun _ => ⟨_, rfl⟩⟩
    rw [outcome_declare, if_neg (by simp [hopen]), if_neg (by omega), if_neg (by simp [hdeclared]),
      addDeclared_eq]
    exact hs
  | assert t =>
    obtain ⟨hopen, hty, hrefs⟩ := haccepts
    have hfind : t.refs.find? (fun r => !s.isDeclared r) = none := by simpa using hrefs
    obtain ⟨s', hs, h'⟩ := operable_enter (.assert t) (h hopen).1 (c := .assert t) rfl
      fun _ hd => hd.assert hty fun r hr => (isDeclared_iff s r).mp (hrefs r hr)
    refine ⟨_, s', outcome_performed (a := ()) rfl ?_, h', fun _ => ⟨_, rfl⟩⟩
    rw [outcome_assert, if_neg (by simp [hopen]), if_neg (not_not_intro hty), hfind]
    exact hs
  | push =>
    have hopen : s.closed = false := haccepts
    obtain ⟨s', hs, h'⟩ := operable_enter .push (h hopen).1 (c := .push) rfl fun _ hd => hd.push
    refine ⟨_, s', outcome_performed (a := ()) rfl ?_, h', fun _ => ⟨_, rfl⟩⟩
    rw [outcome_push, if_neg (by simp [hopen])]
    exact hs
  | pop =>
    obtain ⟨hopen, htwo⟩ := haccepts
    obtain ⟨s', hs, h'⟩ := operable_enter .pop (h hopen).1 (c := .pop) rfl fun _ hd => hd.pop htwo
    refine ⟨_, s', outcome_performed (a := ()) rfl ?_, h', fun _ => ⟨_, rfl⟩⟩
    rw [outcome_pop, if_neg (by simp [hopen]), if_neg (by omega)]
    exact hs
  | check =>
    obtain ⟨a, s', hs, h'⟩ := operable_check haccepts h
    exact ⟨_, s', outcome_performed rfl hs, h', fun _ => ⟨_, rfl⟩⟩
  | values refs =>
    obtain ⟨r, s', hs, hscopes, h', -⟩ := operable_values haccepts h
    have hsame : (Act.values refs).after (r.map Reply.values) s'.scopes frames = frames := by
      cases r with
      | ok entries => rfl
      | error e =>
        change aligned s'.scopes frames = frames
        rw [hscopes, aligned_of_length hlength]
    refine ⟨r.map .values, s', ?_, by rwa [hsame], by simp [Act.isQuestion]⟩
    change outcome (Reply.values <$> Session.values refs) s = _
    rw [outcome_map, hs]
  | interrupt => exact ⟨_, _, rfl, operable_interrupt h, fun _ => ⟨_, rfl⟩⟩
  | close =>
    obtain ⟨s', hs, h'⟩ := operable_close h
    exact ⟨_, s', outcome_performed rfl hs, h', fun _ => ⟨_, rfl⟩⟩

end

section

variable {vs : List Variable} {oracle : Oracle} {cuts : Command → Prop} {e : Exposed}

theorem operable_start (h : Ready vs oracle cuts e.pipe.peer) :
    ∃ s, outcome Session.start e.session = (.ok (), s) ∧ Operable vs oracle cuts e.strikes [[]] s := by
  obtain ⟨peer, hstart, hpeer⟩ := start_alive (e.session.link.on e.pipe) h
  have hbackend : outcome (Backend.start : Hook Exposed Unit) e.session.link =
      (.ok (), { backend := { e with pipe := { e.pipe with peer := peer } }, cancels := 0 + e.early.toNat }) := by
    change outcome (within Pipe.start >>= fun _ => _) e.session.link = _
    rw [outcome_bind_of_ok (outcome_within hstart)]
    rfl
  refine ⟨_, by rw [Session.start, outcome_hook, hbackend], fun _ => ⟨⟨fun _ => hpeer, ?_, rfl⟩, ?_⟩⟩
  · simp
  · simp [session]

theorem operable_of_reachedOn {s : Session Exposed} {frames : List (List Term)}
    (h : Ready vs oracle cuts e.pipe.peer) (hreached : ReachedOn vs e.session frames s) :
    Operable vs oracle cuts e.strikes frames s := by
  induction hreached with
  | new => exact fun _ => ⟨⟨fun _ => h.alive, by simp [session], rfl⟩, by simp [session]⟩
  | started hs =>
    obtain ⟨s, hs', hoperable⟩ := operable_start h
    obtain ⟨-, rfl⟩ := Prod.mk.inj (hs.symm.trans hs')
    exact hoperable
  | @act frames s s' r act hreached hconcerns hs ih =>
    obtain ⟨hlength, -⟩ := hreached.reached.length rfl
    by_cases haccepts : s.Accepts act
    · obtain ⟨r', s'', hs', hoperable, -⟩ := ih.perform hlength haccepts hconcerns
      obtain ⟨rfl, rfl⟩ := Prod.mk.inj (hs'.symm.trans hs)
      exact hoperable
    · rcases perform_cases hs with ⟨-, rfl, m, rfl⟩ | ⟨haccepted, -⟩
      · rwa [Act.after, aligned_of_length hlength]
      · exact absurd haccepted haccepts

theorem obliging_session (h : Ready vs oracle cuts e.pipe.peer) :
    Obliging vs (Exited cuts e.strikes) e.session where
  scopes := rfl
  isOpen := rfl
  starts := by
    obtain ⟨s, hs, -⟩ := operable_start h
    exact ⟨s, hs⟩
  performs frames s act hreached haccepts hconcerns hanswer := by
    obtain ⟨hlength, -⟩ := hreached.reached.length rfl
    obtain ⟨r, s', hs, -, hok⟩ := (operable_of_reachedOn h hreached).perform hlength haccepts hconcerns
    obtain ⟨reply, rfl⟩ := hok hanswer
    exact ⟨reply, by rw [hs]⟩
  questions frames s refs hreached haccepts hgoing := by
    obtain ⟨r, s', hs, -, -, hfails⟩ := operable_values haccepts (operable_of_reachedOn h hreached)
    rw [hs]
    exact hfails hgoing

end

end Exposed

end InvariantProver
