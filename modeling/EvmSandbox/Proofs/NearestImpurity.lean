/-
The reason that a purity check gives for its verdict is true, and it is a
nearest one. The walk ends in the first level at which a contract is at fault
(`walk_error`), and a level is a distance, so whatever is nearer to the root
has passed. The walk can end in two ways: the inspection finds fault with a
contract of the level, or a contract of the last level calls one that is a
call too far. The inspection speaks of the contract that it inspects and of
nothing else (`about_of_inspect`), so the two ways are told apart by the
reason.
-/
import EvmSandbox.Proofs.PurityWalk

namespace EvmSandbox.Purity

/-! ## What an inspection complains of -/

/-- The reason is about the code of the contract at `address`, not about the bound. -/
structure Impurity.About (reason : Impurity) (address : Address) : Prop where
  address_eq : reason.address = address
  not_bound : ∀ b maxDepth, reason ≠ .depthExceeded b maxDepth

section Inspection

variable {whitelist : Whitelist} {seqs : List (UInt8 × Bytes)} {address : Address} {reason : Impurity}

theorem about_of_resolveCall {target : Option Address} {i : Instruction} {calls : Bool}
    (h : resolveCall address target i calls = .error reason) : reason.About address := by
  unfold resolveCall at h
  split at h
  · split at h
    · cases h
    · cases h
      exact ⟨rfl, by simp⟩
  · cases h

theorem about_of_inspectOne {p : Position} {i : Instruction}
    (h : inspectOne whitelist seqs address p i = .error reason) : reason.About address := by
  -- with or without a sequence, only resolving a call can fail behind the test of the code
  have hbind : ∀ {calls : Bool} {next : Position},
      (do let targets ← resolveCall address (callTarget p.before) i calls
          return (next, targets) : Except Impurity (Position × List Address)) = .error reason →
        reason.About address := by
    intro calls next h
    cases hresolve : resolveCall address (callTarget p.before) i calls with
    | error r =>
      rw [hresolve] at h
      cases h
      exact about_of_resolveCall hresolve
    | ok targets =>
      rw [hresolve] at h
      cases h
  simp only [inspectOne] at h
  split at h
  · cases h
  · split at h
    · exact hbind h
    · split at h
      · exact hbind h
      · cases h
        exact ⟨rfl, by simp⟩

theorem about_of_inspectFrom {p : Position} {targets : List Address} {instructions : List Instruction}
    (h : inspectFrom whitelist seqs address p targets instructions = .error reason) :
    reason.About address := by
  induction instructions generalizing p targets with
  | nil => cases h
  | cons i rest ih =>
    rw [inspectFrom] at h
    split at h
    · rename_i hone
      cases h
      exact about_of_inspectOne hone
    · exact ih h

/-- The inspection of a contract finds fault with that contract. -/
theorem about_of_inspect {c : Checker} (h : c.inspect address = .error reason) :
    reason.About address := by
  rw [Checker.inspect] at h
  split at h
  · cases h
    exact ⟨rfl, by simp⟩
  · cases h
    exact ⟨rfl, by simp⟩
  · simp only at h
    split at h
    · cases h
      exact ⟨rfl, by simp⟩
    · exact about_of_inspectFrom h

end Inspection

/-! ## Where the walk ends -/

/-- All contracts that are nearer to `root` than `n` calls pass the inspection. -/
def Checker.PassesWithin (c : Checker) (root : Address) (n : Nat) : Prop :=
  ∀ a k, c.Distance root a k → k < n → c.Passes a

theorem Level.passesWithin {c : Checker} {root : Address} {d : Nat} {f : Frontier}
    (h : Level c root d f) : c.PassesWithin root d :=
  fun a k hdistance hlt => h.passes k a hdistance.path hlt

/-- A walk that fails has come to a level of which one contract is at fault. Only at the bound may
the fault be a call that leads too far. -/
theorem walk_error {c : Checker} {root : Address} {remaining d : Nat} {f : Frontier}
    (h : Level c root d f) (hbound : d + remaining = c.maxDepth) (events : List Event)
    {reason : Impurity} (herror : (c.walk f d events remaining).result = .error reason) :
    ∃ n g, n ≤ c.maxDepth ∧ Level c root n g ∧
      ∃ a ∈ g.next, c.Faults (decide (n < c.maxDepth)) ⟨g.visited, []⟩ a reason := by
  induction remaining generalizing d f events with
  | zero =>
    have hlast : decide (d < c.maxDepth) = false := by
      simp only [decide_eq_false_iff_not]
      omega
    rw [Checker.walk] at herror
    rcases visitAll_spec c false d ⟨f.visited, []⟩ events f.next with
      ⟨f', hresult, -⟩ | ⟨found, hresult, a, ha, hfault⟩
    · rw [hresult] at herror
      cases herror
    · rw [hresult] at herror
      cases herror
      exact ⟨d, f, by omega, h, a, ha, by rwa [hlast]⟩
  | succ remaining ih =>
    have hmore : decide (d < c.maxDepth) = true := by
      simp only [decide_eq_true_eq]
      omega
    rw [Checker.walk] at herror
    rcases visitAll_spec c true d ⟨f.visited, []⟩ events f.next with
      ⟨f', hresult, hclear, hnotes⟩ | ⟨found, hresult, a, ha, hfault⟩
    · split at herror
      · rename_i heq
        simp [heq] at hresult
      · rename_i g events' heq
        obtain rfl : g = f' := by simpa [heq] using hresult
        split at herror
        · cases herror
        · exact ih (h.step (fun a ha => (hclear a ha).passes) hnotes) (by omega) events' herror
    · split at herror
      · rename_i heq
        rw [heq] at hresult
        cases hresult
        cases herror
        exact ⟨d, f, by omega, h, a, ha, by rwa [hmore]⟩
      · rename_i heq
        simp [heq] at hresult

/-! ## The reason of a verdict -/

/-- What the reason of a verdict on `root` says of the contracts within reach. A call that leads too
far leads to a contract just beyond the bound. Any other reason is what the inspection finds at the
contract it names. Whatever is nearer than the contract at fault passes the inspection; if that is
a caller at the bound, whatever is nearer than the caller. -/
def Checker.Explains (c : Checker) (root : Address) : Impurity → Prop
  | .depthExceeded b maxDepth =>
    maxDepth = c.maxDepth ∧ c.Distance root b (maxDepth + 1) ∧ c.PassesWithin root maxDepth
  | reason =>
    ∃ n ≤ c.maxDepth, c.Distance root reason.address n ∧
      c.inspect reason.address = .error reason ∧ c.PassesWithin root n

theorem Checker.explains_of_about {c : Checker} {root a : Address} {reason : Impurity} {n : Nat}
    (habout : reason.About a) (hle : n ≤ c.maxDepth) (hdistance : c.Distance root a n)
    (hinspect : c.inspect a = .error reason) (hnearer : c.PassesWithin root n) :
    c.Explains root reason := by
  obtain ⟨rfl, hother⟩ := habout
  cases reason with
  | depthExceeded b maxDepth => exact absurd rfl (hother b maxDepth)
  | missingCode | sourceFailed | undecodable | disallowed | unresolvableTarget =>
    exact ⟨n, hle, hdistance, hinspect, hnearer⟩

theorem Level.explains {c : Checker} {root a : Address} {n : Nat} {g : Frontier} {reason : Impurity}
    (h : Level c root n g) (hle : n ≤ c.maxDepth) (ha : a ∈ g.next)
    (hfault : c.Faults (decide (n < c.maxDepth)) ⟨g.visited, []⟩ a reason) : c.Explains root reason := by
  cases hfault with
  | inspection hinspect =>
    exact c.explains_of_about (about_of_inspect hinspect) hle ((h.next a).1 ha) hinspect h.passesWithin
  | bound hinspect hdescend hcall hnew =>
    obtain rfl : n = c.maxDepth := by
      rw [decide_eq_false_iff_not] at hdescend
      omega
    exact ⟨rfl, h.calls_iff.1 ⟨⟨a, ha, _, hinspect, hcall⟩, hnew⟩, h.passesWithin⟩

/-- **The reason of a verdict is true and nearest.** A contract is found impure if and only if it is
not pure within the bound, and the reason holds of the contract that it names, while the contracts
that are nearer pass the inspection. -/
theorem impurity_nearest (c : Checker) (root : Address) :
    ((∃ reason, (c.check root).1 = .impure reason) ↔ ¬ c.BoundedPure root) ∧
      ∀ reason, (c.check root).1 = .impure reason → c.Explains root reason := by
  refine ⟨?_, fun reason hverdict => ?_⟩
  · rw [← check_eq_pure_iff_boundedPure]
    cases (c.check root).1 with
    | pure => simp
    | impure reason => simp
  · have herror := ((verdict_spec root _).2.1 reason).1 hverdict
    obtain ⟨n, g, hle, hlevel, a, ha, hfault⟩ :=
      walk_error (level_start c root) (Nat.zero_add _) [] herror
    exact hlevel.explains hle ha hfault

def contractC : Address := .ofNat 20 0xc

/-- Where one call may be followed, a contract that calls on leads too far; a contract without code
is found on the way. -/
theorem impurity_nearest_chain :
    ((pairChecker [contractB] [contractC]).check contractA).1 = .impure (.depthExceeded contractC 1) ∧
      (pairChecker [contractB] [contractC]).Distance contractA contractC 2 ∧
      ((pairChecker [contractC, contractB] [contractA]).check contractA).1 =
        .impure (.missingCode contractC) ∧
      (pairChecker [contractC, contractB] [contractA]).Explains contractA (.missingCode contractC) := by
  have hchain : ((pairChecker [contractB] [contractC]).check contractA).1 =
      .impure (.depthExceeded contractC 1) := by decide +kernel
  have hmissing : ((pairChecker [contractC, contractB] [contractA]).check contractA).1 =
      .impure (.missingCode contractC) := by decide +kernel
  obtain ⟨-, hdistance, -⟩ := (impurity_nearest _ contractA).2 _ hchain
  exact ⟨hchain, hdistance, hmissing, (impurity_nearest _ contractA).2 _ hmissing⟩

end EvmSandbox.Purity
