import InvariantProver.Proofs.Prover.Reasons
import InvariantProver.Proofs.Prover.Standalone

/-!
Bounded model checking on an engine that has been used before. A run checks the depths from that of its
engine on, and its result speaks of all depths. So the result is justified exactly if no execution
violates the property at a depth that the engine has left behind (`justified_iff_of_run`).
-/

namespace InvariantProver.BaseCase

open Session Engine

inductive Use
  | advance
  | check (names : List String)
  | run (name : String) (bound : Option Int) (fuel : Nat)

def Use.first? : Use → Option String
  | advance => none
  | check names => names.head?
  | run name _ _ => some name

section

variable {σ : Type} [Backend σ]

def use : Use → EngineM σ Unit
  | .advance => Engine.advance
  | .check names => do let _ ← checkAll names
  | .run name bound fuel => do let _ ← run name bound fuel

def after (e : Engine σ) (uses : List Use) : Engine σ := uses.foldl (fun e u => (outcome (use u) e).2) e

def Asked (e : Engine σ) (uses : List Use) (name : String) (n : Nat) : Prop :=
  ∃ earlier u later o e', uses = earlier ++ u :: later ∧ u.first? = some name ∧
    (after e earlier).depth = n ∧ outcome (check name) (after e earlier) = (.ok o, e') ∧
    o.finding = .nothing

end

/-- What the checks from a depth on say of a result: nothing is proved, and up to the violation or the
depth reached there is none. -/
def Covers (z : ZeroReading) (s : TransitionSystem) (exact : Prop) (p : Term) (n : Nat)
    (r : ProofResult) : Prop :=
  match r.verdict with
  | .proved => False
  | .falsified t => ∃ d : Nat, r.depth = d ∧ n ≤ d ∧ (∀ m, n ≤ m → m < d → ¬ s.Violates z p m) ∧
      (exact → ∃ π, s.Execution z π d ∧ ¬ p.TrueIn z (π d) ∧ t.Records s π d)
  | .unknown _ => n ≤ r.depth + 1 ∧ ∀ m : Nat, n ≤ m → m ≤ r.depth → ¬ s.Violates z p m

section

variable {z : ZeroReading} {s : TransitionSystem} {exact : Prop} {p : Term} {n : Nat} {r : ProofResult}

theorem Covers.of_succ (h : Covers z s exact p (n + 1) r) (hclear : ¬ s.Violates z p n) :
    Covers z s exact p n r := by
  have hextend {m : Nat} (hle : n ≤ m) (hlater : n + 1 ≤ m → ¬ s.Violates z p m) :
      ¬ s.Violates z p m := by
    rcases Nat.eq_or_lt_of_le hle with rfl | hlt
    · exact hclear
    · exact hlater hlt
  unfold Covers at h ⊢
  cases hverdict : r.verdict with
  | proved =>
    rw [hverdict] at h
    exact h
  | falsified t =>
    rw [hverdict] at h
    obtain ⟨d, hd, hle, hbefore, hrecords⟩ := h
    exact ⟨d, hd, by omega, fun m hm hlt => hextend hm fun hm => hbefore m hm hlt, hrecords⟩
  | unknown reason =>
    rw [hverdict] at h
    obtain ⟨hle, hbefore⟩ := h
    exact ⟨by omega, fun m hm hlt => hextend hm fun hm => hbefore m hm hlt⟩

theorem Covers.justified_iff (h : Covers z s exact p n r) (hp : s.property r.property = .ok p) :
    r.Justified z s exact ↔ ∀ m < n, ¬ s.Violates z p m := by
  unfold Covers at h
  unfold ProofResult.Justified
  cases hverdict : r.verdict with
  | proved =>
    rw [hverdict] at h
    exact h.elim
  | falsified t =>
    rw [hverdict] at h
    obtain ⟨d, hd, hle, hbefore, hrecords⟩ := h
    constructor
    · rintro ⟨p', hp', d', hd', hleast, -⟩ m hm
      obtain rfl := Except.ok.inj (hp.symm.trans hp')
      exact hleast m (by omega)
    · intro hclear
      refine ⟨p, hp, d, hd, fun m hm => ?_, hrecords⟩
      by_cases hmn : m < n
      · exact hclear m hmn
      · exact hbefore m (by omega) hm
  | unknown reason =>
    rw [hverdict] at h
    obtain ⟨hle, hbefore⟩ := h
    constructor
    · rintro ⟨p', hp', hclear⟩ m hm
      obtain rfl := Except.ok.inj (hp.symm.trans hp')
      exact hclear m (by omega)
    · intro hclear
      refine ⟨p, hp, fun m hm => ?_⟩
      by_cases hmn : m < n
      · exact hclear m hmn
      · exact hbefore m (by omega) hm

end

variable {σ : Type} [Backend σ] {z : ZeroReading} {course : Course} {session : Session σ}
  {s : TransitionSystem} {name : String} {bound : Option Int} {fuel n : Nat} {e e' : Engine σ}
  {r : ProofResult}

theorem keeps_use {I : Engine σ → Prop} (hI : Engine.Bears course I) (u : Use) : Keeps course I (use u) := by
  cases u with
  | advance => exact hI.advance
  | check names => exact .bind (keeps_queryAll hI.base names) fun _ => .pure _
  | run name bound fuel => exact .bind (keeps_run hI name bound fuel) fun _ => .pure _

theorem holds_after {I : Engine σ → Prop} (hI : Engine.Bears .any I) (h : I e) (uses : List Use) :
    I (after e uses) := by
  induction uses generalizing e with
  | nil => exact h
  | cons u uses ih => exact ih (keeps_use hI u h rfl trivial)

theorem standing_start (hscopes : session.scopes = [[]]) (hopen : session.closed = false)
    (hs : outcome start (new s session) = (.ok (), e)) :
    e.Standing course session s .base (1 ≤ ·) := by
  have hnew : (new s session).Standing course session s .base (· = 0) := ⟨.new hopen, rfl⟩
  obtain ⟨hfollows, hone⟩ := hnew.advance hscopes hs
  exact ⟨hfollows, Nat.le_of_eq hone.symm⟩

theorem covers_of_run (hsession : Truthful course z session)
    (h : e.Standing course session s .base (· = n + 1))
    (hs : outcome (run name bound fuel) e = (.ok (some r), e')) :
    r.property = name ∧ ∃ p, s.property name = .ok p ∧
      Covers z s (GivesModels course z session) p n r := by
  -- one turn checks the depth where the engine stands, the others those after it
  induction fuel generalizing e n with
  | zero =>
    obtain ⟨hr, -⟩ := outcome_pure_ok.mp hs
    cases hr
  | succ fuel ih =>
    obtain ⟨o, e₁, hcheck, hrest⟩ := run_cases hs
    obtain ⟨p, hp, hdepth, hfound⟩ := supports_of_check hsession h hcheck
    have h₁ := keeps_check hsession.scopes name h hcheck (course.allows_ok _)
    have hdepth₁ : e₁.depth = n := depth_of_placed h₁.2
    rcases hrest with ⟨t, hfinding, rfl⟩ | ⟨reason, hfinding, rfl⟩ | ⟨hfinding, hrest⟩
    · rw [hfinding] at hfound
      obtain ⟨ht, hrecords⟩ := hfound
      exact ⟨rfl, p, hp, n, ht, Nat.le_refl n, fun m hle hlt => absurd hlt (Nat.not_lt.mpr hle), hrecords⟩
    · refine ⟨rfl, p, hp, ?_, fun m hle hlt => ?_⟩
      · change (n : Int) ≤ e₁.depth - 1 + 1
        omega
      · change (m : Int) ≤ e₁.depth - 1 at hlt
        omega
    · rw [hfinding] at hfound
      rcases hrest with rfl | ⟨e₂, honward, hs⟩
      · refine ⟨rfl, p, hp, ?_, fun m hle hlt => ?_⟩
        · change (n : Int) ≤ e₁.depth + 1
          omega
        · change (m : Int) ≤ e₁.depth at hlt
          obtain rfl : m = n := by omega
          exact hfound
      · obtain ⟨o', e₁', hcheck', -, -, hadvance⟩ := honward
        obtain ⟨-, rfl⟩ := Prod.mk.inj (hcheck.symm.trans hcheck')
        obtain ⟨hproperty, p', hp', hcovers⟩ := ih (h₁.advance hsession.scopes hadvance) hs
        obtain rfl := Except.ok.inj (hp.symm.trans hp')
        exact ⟨hproperty, p, hp, hcovers.of_succ hfound⟩

section

variable (hsession : Truthful .any z session) (hstart : outcome start (new s session) = (.ok (), e))
include hsession hstart

theorem standing_after (uses : List Use) :
    ∃ n, (after e uses).depth = (n : Nat) ∧ (after e uses).Standing .any session s .base (· = n + 1) := by
  have hfresh : e.Standing .any session s .base (1 ≤ ·) :=
    standing_start hsession.scopes hsession.isOpen hstart
  obtain ⟨hfollows, hplaced⟩ := holds_after (bears_standing hsession.scopes .base 1) hfresh uses
  obtain ⟨n, hn⟩ : ∃ n, (after e uses).placed = n + 1 := ⟨(after e uses).placed - 1, by omega⟩
  exact ⟨n, depth_of_placed hn, hfollows, hn⟩

/-- After any uses, a run falsifies a property by an execution of the depth it says, or leaves it
unknown, and is right about all depths from the one where it began. So its result is justified exactly
if the property is not violated before that depth. -/
theorem justified_iff_of_run (uses : List Use)
    (hs : outcome (run name bound fuel) (after e uses) = (.ok (some r), e')) :
    ∃ p n, s.property name = .ok p ∧ (after e uses).depth = (n : Nat) ∧ r.property = name ∧
      Covers z s (GivesModels .any z session) p n r ∧
      (r.Justified z s (GivesModels .any z session) ↔ ∀ m < n, ¬ s.Violates z p m) := by
  obtain ⟨n, hdepth, hstanding⟩ := standing_after hsession hstart uses
  obtain ⟨rfl, p, hp, hcovers⟩ := covers_of_run hsession hstanding hs
  exact ⟨p, n, hp, hdepth, rfl, hcovers, hcovers.justified_iff hp⟩

theorem not_violates_of_asked {uses : List Use} {m : Nat} (h : Asked e uses name m) :
    ∃ p, s.property name = .ok p ∧ ¬ s.Violates z p m := by
  obtain ⟨earlier, u, later, o, e₁, -, -, hdepth, hcheck, hnothing⟩ := h
  obtain ⟨n, hn, hstanding⟩ := standing_after hsession hstart earlier
  obtain rfl : m = n := by omega
  obtain ⟨p, hp, -, hclear⟩ := supports_of_check hsession hstanding hcheck
  rw [hnothing] at hclear
  exact ⟨p, hp, hclear⟩

theorem justified_of_asked (uses : List Use)
    (hs : outcome (run name bound fuel) (after e uses) = (.ok (some r), e'))
    (hasked : ∀ m : Nat, m < (after e uses).depth → Asked e uses name m) :
    r.Justified z s (GivesModels .any z session) := by
  obtain ⟨n, hdepth, hstanding⟩ := standing_after hsession hstart uses
  obtain ⟨rfl, p, hp, hcovers⟩ := covers_of_run hsession hstanding hs
  refine (hcovers.justified_iff hp).mpr fun m hm => ?_
  obtain ⟨p', hp', hclear⟩ := not_violates_of_asked hsession hstart (hasked m (by omega))
  obtain rfl := Except.ok.inj (hp.symm.trans hp')
  exact hclear

end

section

open Attempt InductionStep

def exhaustiveEngine (s : TransitionSystem) : Engine Memory :=
  (outcome start (new s (exhaustiveSessions .base))).2

def reports (m : EngineM Memory (Option ProofResult)) (e : Engine Memory) (h : ProofResult → Bool) :
    Bool :=
  match (outcome m e).1 with
  | .ok (some r) => h r
  | _ => false

theorem exists_of_reports {m : EngineM Memory (Option ProofResult)} {e : Engine Memory}
    {h : ProofResult → Bool} (hs : reports m e h = true) :
    ∃ r e', outcome m e = (.ok (some r), e') ∧ h r = true := by
  unfold reports at hs
  rcases houtcome : outcome m e with ⟨_ | _ | r, e'⟩ <;> rw [houtcome] at hs
  · cases hs
  · cases hs
  · exact ⟨r, e', rfl, hs⟩

theorem third_flag_falsified :
    ∃ r e', outcome (run "third" none 1) (after (exhaustiveEngine flags) [.run "first" (some 1) 2]) =
        (.ok (some r), e') ∧
      r.isFalsified = true ∧
      r.Justified zeroReading flags (GivesModels .any zeroReading (exhaustiveSessions .base)) := by
  have hstart : outcome start (new flags (exhaustiveSessions .base)) = (.ok (), exhaustiveEngine flags) :=
    outcome_of_isOk (by decide +kernel)
  have hfresh : reports (run "third" none 2) (exhaustiveEngine flags)
      (fun r => r.isFalsified && r.depth = 1) = true := by decide +kernel
  have hused : reports (run "third" none 1) (after (exhaustiveEngine flags) [.run "first" (some 1) 2])
      (·.isFalsified) = true := by decide +kernel
  have hdepths : (after (exhaustiveEngine flags) []).depth = 0 ∧
      (after (exhaustiveEngine flags) [.run "first" (some 1) 2]).depth = 1 := by decide +kernel
  obtain ⟨r₀, e₀, hs₀, hr₀⟩ := exists_of_reports hfresh
  obtain ⟨r, e, hs, hr⟩ := exists_of_reports hused
  obtain ⟨p, n₀, hp, hn₀, hname₀, -, hiff₀⟩ :=
    justified_iff_of_run (truthful_exhaustiveSessions .base) hstart [] hs₀
  obtain ⟨p', n, hp', hn, -, -, hiff⟩ :=
    justified_iff_of_run (truthful_exhaustiveSessions .base) hstart [.run "first" (some 1) 2] hs
  obtain rfl := Except.ok.inj (hp.symm.trans hp')
  refine ⟨r, e, hs, hr, hiff.mpr fun m hm => ?_⟩
  rw [Bool.and_eq_true, decide_eq_true_iff, ProofResult.isFalsified_iff] at hr₀
  obtain ⟨⟨t, ht⟩, hdepth⟩ := hr₀
  obtain ⟨p', hp', hjustified⟩ := hiff₀.mpr fun m hm => by omega
  rw [hname₀] at hp'
  obtain rfl := Except.ok.inj (hp.symm.trans hp')
  rw [ht] at hjustified
  obtain ⟨d, hd, hleast, -⟩ := hjustified
  exact hleast m (by omega)

/-- A run that starts after a step without checks says that there is no violation up to depth 1, but
the flag is down at first. -/
theorem latch_unknown :
    Truthful .any zeroReading (exhaustiveSessions .base) ∧ ∃ e r e' p,
      outcome start (new latch (exhaustiveSessions .base)) = (.ok (), e) ∧
      outcome (run "up" (some 1) 1) (after e [.advance]) = (.ok (some r), e') ∧
      r.isUnknown = true ∧ r.depth = 1 ∧
      latch.property "up" = .ok p ∧ latch.Violates zeroReading p 0 := by
  have hstart : outcome start (new latch (exhaustiveSessions .base)) = (.ok (), exhaustiveEngine latch) :=
    outcome_of_isOk (by decide +kernel)
  have hrun : reports (run "up" (some 1) 1) (after (exhaustiveEngine latch) [.advance])
      (fun r => r.isUnknown && r.depth = 1) = true := by decide +kernel
  obtain ⟨r, e', hs, hr⟩ := exists_of_reports hrun
  rw [Bool.and_eq_true, decide_eq_true_iff] at hr
  refine ⟨truthful_exhaustiveSessions .base, exhaustiveEngine latch, r, e', flag "up" 0, hstart, hs,
    hr.1, hr.2, rfl, fun _ => allDown, ⟨?_, by simp [TransitionSystem.Chain]⟩, ?_⟩
  · unfold TransitionSystem.Initial Term.TrueIn Term.Holds
    decide +kernel
  · unfold Term.TrueIn Term.Holds
    decide +kernel

end

end InvariantProver.BaseCase
