import InvariantProver.Proofs.Prover.Ordering
import InvariantProver.Proofs.Prover.Sequential
import InvariantProver.Proofs.Prover.Unhindered

namespace InvariantProver

section

variable {conclude : Nat → Option ProofResult} {m n : Nat} {r : ProofResult}

theorem firstConclusion_concat (conclude : Nat → Option ProofResult) (n : Nat) :
    firstConclusion conclude 0 (n + 1) = (firstConclusion conclude 0 n).or (conclude n) := by
  rw [firstConclusion, List.range'_1_concat, List.findSome?_append, Nat.zero_add, List.findSome?_singleton]
  rfl

theorem firstConclusion_mono (h : firstConclusion conclude 0 n = some r) (hn : n ≤ m) :
    firstConclusion conclude 0 m = some r := by
  induction hn with
  | refl => exact h
  | @step m _ ih => rw [firstConclusion_concat, ih, Option.some_or]

end

namespace Attempt

open Session Engine

variable {σ : Type} [Backend σ] {oracles : Task → Oracle} {sessions : Task → Session σ}
  {s : TransitionSystem} {c : Config} {names : List String} {n fuel : Nat} {a a' : Attempt σ}
  {name : String} {p : Term} {r : ProofResult}

def alone (oracles : Task → Oracle) (sessions : Task → Session σ) (s : TransitionSystem) (c : Config)
    (name : String) (p : Term) : Nat → Option ProofResult :=
  conclusion oracles (fun task => (sessions task).name) .base s name p c.depthBound

theorem Deciding.lemmas_eq_nil (h : Deciding sessions s c names n a) (hoff : c.strengthen = false) :
    a.lemmas = [] := by
  unfold lemmas
  rw [h.config, hoff]
  rfl

section

variable (hs : ∀ task, Speaks (oracles task) (sessions task))
  (hknown : ∀ name ∈ names, ∃ p, s.property name = .ok p) (hoff : c.strengthen = false)
  (hp : s.property name = .ok p)
include hs hknown hoff hp

theorem Deciding.finishes_alone (h : Deciding sessions s c names n a) (hopen : name ∈ a.pending) :
    a.Finishes name r ↔ alone oracles sessions s c name p n = some r := by
  rw [h.finishes_iff hs hknown hp hopen, h.lemmas_eq_nil hoff]
  rfl

theorem Deciding.rounds_alone (h : Deciding sessions s c names 0 a) (hname : name ∈ a.pending)
    (hrounds : outcome (Attempt.rounds fuel) a = (.ok true, a')) :
    ∃ r, firstConclusion (alone oracles sessions s c name p) 0 fuel = some r ∧
      Entries.get? name a'.results = some r := by
  obtain ⟨n, hn, b, r, hreaches, hopen, hfinishes, hr⟩ := h.finished_in_rounds hs hknown hname hrounds
  have hiff {m : Nat} {b : Attempt σ} (hreaches : Reaches a m b) (hopen : name ∈ b.pending)
      {r : ProofResult} : b.Finishes name r ↔ alone oracles sessions s c name p m = some r :=
    (hreaches.deciding hs hknown h).finishes_alone hs hknown hoff hp hopen
  have hbefore : firstConclusion (alone oracles sessions s c name p) 0 n = none := by
    refine hreaches.holds_while_open (P := fun n => firstConclusion _ 0 n = none) rfl ?_ hopen
    intro m b₁ hreaches₁ hopen₁ hnone hunfinished
    rw [firstConclusion_concat, hnone, Option.none_or]
    exact Option.eq_none_iff_forall_ne_some.mpr fun r hr =>
      hunfinished r ((hiff hreaches₁ hopen₁).mpr hr)
  have hfirst : firstConclusion (alone oracles sessions s c name p) 0 (n + 1) = some r := by
    rw [firstConclusion_concat, hbefore, Option.none_or, (hiff hreaches hopen).mp hfinishes]
  exact ⟨r, firstConclusion_mono hfirst hn, hr⟩

end

/-- Properties are tracked independently: if an attempt without lemmas returns, then so does an attempt
on each of its properties alone, and with the same result for that property. -/
theorem independent (hs : ∀ task, Speaks (oracles task) (sessions task)) (hoff : c.strengthen = false)
    (hname : name ∈ names) {results : Entries String ProofResult}
    (hrun : (outcome (run names fuel) (new s c false sessions)).1 = .ok (some results)) :
    ∃ r, Entries.get? name results = some r ∧
      (∀ fuel', fuel ≤ fuel' →
        (outcome (run [name] fuel') (new s c false sessions)).1 = .ok (some [(name, r)])) ∧
      ∀ fuel' single, (outcome (run [name] fuel') (new s c false sessions)).1 = .ok (some single) →
        single = [(name, r)] := by
  have hw (task : Task) : Willing (sessions task) := (hs task).toWilling
  have hknown := known_of_run hrun
  obtain ⟨p, hp⟩ := hknown name hname
  obtain ⟨-, -, -, -, -, -, -, h, hbegun⟩ := begun_returns hw s c names
  have hopen : name ∈ ((new s c false sessions).begun names).pending := by
    rw [hbegun]
    exact hname
  obtain ⟨finished, m, a', hrounds, h'⟩ := h.rounds_returns hs hknown fuel
  rw [run_of_rounds hw (List.ne_nil_of_mem hname) hknown hrounds h'] at hrun
  cases finished with
  | false => cases Except.ok.inj hrun
  | true =>
    obtain rfl := Option.some.inj (Except.ok.inj hrun)
    obtain ⟨r, hr, hresult⟩ := h.rounds_alone hs hknown hoff hp hopen hrounds
    have halone (fuel' : Nat) : (outcome (run [name] fuel') (new s c false sessions)).1 =
        .ok ((firstConclusion (alone oracles sessions s c name p) 0 fuel').map fun r => [(name, r)]) :=
      run_alone hs hp fuel'
    refine ⟨r, get?_resultsFor_of_mem hname hresult, fun fuel' hfuel => ?_, fun fuel' single hsingle => ?_⟩
    · rw [halone, firstConclusion_mono hr hfuel]
      rfl
    · -- of two lengths of a run alone, the longer one has the result of the shorter one
      rw [halone] at hsingle
      obtain ⟨r', hr', rfl⟩ := Option.map_eq_some_iff.mp (Except.ok.inj hsingle)
      have hmore := firstConclusion_mono hr' (le_max_right fuel fuel')
      rw [firstConclusion_mono hr (le_max_left fuel fuel')] at hmore
      rw [Option.some.inj hmore]

theorem third_flag_falsified_in_company :
    ∃ results r, (outcome (run ["first", "second", "third"] 2) (new flags
        ⟨{ strengthen := false, depthBound := some 1 }, rfl⟩ false exhaustiveSessions)).1 =
          .ok (some results) ∧
      Entries.get? "third" results = some r ∧ r.depth = 1 ∧
      (outcome (run ["third"] 2) (new flags ⟨{ strengthen := false, depthBound := some 1 }, rfl⟩ false
        exhaustiveSessions)).1 = .ok (some [("third", r)]) := by
  have hreport : ((new flags ⟨{ strengthen := false, depthBound := some 1 }, rfl⟩ false
      exhaustiveSessions).report ["first", "second", "third"] 2 "third").any (fun r => r.depth = 1) =
        true := by decide +kernel
  obtain ⟨r, hr, hdepth⟩ := (Option.any_eq_true _ _).mp hreport
  obtain ⟨results, a', hs, hget⟩ := report_eq_some.mp hr
  have hrun := congrArg Prod.fst hs
  obtain ⟨r', hget', halone, -⟩ := independent speaks_exhaustiveSessions
    (c := ⟨{ strengthen := false, depthBound := some 1 }, rfl⟩) rfl
    (show "third" ∈ ["first", "second", "third"] by simp) hrun
  rw [hget] at hget'
  obtain rfl := Option.some.inj hget'
  exact ⟨results, r, hrun, hget, of_decide_eq_true hdepth, halone 2 le_rfl⟩

end Attempt

end InvariantProver
