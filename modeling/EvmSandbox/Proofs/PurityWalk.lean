/-
The purity walk decides whether a contract and all that it can reach by calls
pass the inspection, within the bound on the number of calls.

The walk goes through the contracts level by level. What carries the proof is
that a level is a distance (`Level`): when the contracts at distance `d` are
up, those seen so far are the ones that some path of at most `d` calls leads
to, and those up next are the ones to which no shorter path leads. A level
without contracts, or one that calls nothing new, therefore closes the set of
contracts seen (`path_le_of_no_distance`). Which contracts are within reach
depends on who calls whom and on nothing else, and no contract is visited
twice.
-/
import EvmSandbox.Purity
import Mathlib.Logic.Relation
import Mathlib.Tactic

namespace EvmSandbox.Purity

/-! ## Calls, paths and distances -/

/-- The inspection of the contract at `a` finds a call to `b`. -/
def Checker.Calls (c : Checker) (a b : Address) : Prop :=
  ∃ targets, c.inspect a = .ok targets ∧ b ∈ targets

/-- The inspection finds nothing wrong with the contract at `a`. -/
def Checker.Passes (c : Checker) (a : Address) : Prop :=
  ∃ targets, c.inspect a = .ok targets

/-- Calls lead from `a` to `b`, or `b` is `a`. -/
def Checker.Reaches (c : Checker) : Address → Address → Prop :=
  Relation.ReflTransGen c.Calls

/-- A path of `n` calls leads from `root` to a contract. -/
inductive Checker.Path (c : Checker) (root : Address) : Nat → Address → Prop where
  | root : Path c root 0 root
  | call {n : Nat} {a b : Address} (hpath : Path c root n a) (hcall : c.Calls a b) :
    Path c root (n + 1) b

/-- The shortest path of calls from `root` to `a` has `n` calls. -/
structure Checker.Distance (c : Checker) (root a : Address) (n : Nat) : Prop where
  path : c.Path root n a
  least : ∀ m, c.Path root m a → n ≤ m

/-- Every contract within reach of `root` passes the inspection, and no more calls than the bound
allows lead to it. -/
def Checker.BoundedPure (c : Checker) (root : Address) : Prop :=
  ∀ a, c.Reaches root a → c.Passes a ∧ ∃ n ≤ c.maxDepth, c.Distance root a n

section Paths

variable {c : Checker} {root : Address}

theorem reaches_iff_exists_path {a : Address} : c.Reaches root a ↔ ∃ n, c.Path root n a := by
  constructor
  · intro h
    induction h with
    | refl => exact ⟨0, .root⟩
    | tail _ hcall ih =>
      obtain ⟨n, hpath⟩ := ih
      exact ⟨n + 1, hpath.call hcall⟩
  · rintro ⟨n, hpath⟩
    induction hpath with
    | root => exact .refl
    | call _ hcall ih => exact .tail ih hcall

theorem path_zero_iff {a : Address} : c.Path root 0 a ↔ a = root := by
  constructor
  · intro h
    cases h
    rfl
  · rintro rfl
    exact .root

theorem path_succ_iff {n : Nat} {b : Address} :
    c.Path root (n + 1) b ↔ ∃ a, c.Path root n a ∧ c.Calls a b := by
  constructor
  · intro h
    cases h with
    | call hpath hcall => exact ⟨_, hpath, hcall⟩
  · rintro ⟨a, hpath, hcall⟩
    exact hpath.call hcall

theorem exists_distance {n : Nat} {a : Address} (h : c.Path root n a) :
    ∃ m ≤ n, c.Distance root a m := by
  classical
  have hexists : ∃ m, c.Path root m a := ⟨n, h⟩
  exact ⟨Nat.find hexists, Nat.find_min' hexists h, Nat.find_spec hexists,
    fun m hm => Nat.find_min' hexists hm⟩

theorem Checker.Distance.unique {a : Address} {m n : Nat} (hm : c.Distance root a m)
    (hn : c.Distance root a n) : m = n :=
  le_antisymm (hm.least n hn.path) (hn.least m hm.path)

/-- The last call of a path leads away from a contract that is one call nearer, or there is a
shorter path. -/
theorem distance_of_path_succ {n : Nat} {b : Address} (h : c.Path root (n + 1) b) :
    (∃ a, c.Distance root a n ∧ c.Calls a b) ∨ ∃ m ≤ n, c.Path root m b := by
  obtain ⟨a, hpath, hcall⟩ := path_succ_iff.1 h
  obtain ⟨m, hle, hdistance⟩ := exists_distance hpath
  rcases hle.lt_or_eq with hlt | rfl
  · exact .inr ⟨m + 1, hlt, hdistance.path.call hcall⟩
  · exact .inl ⟨a, hdistance, hcall⟩

/-- Where no contract is at distance `d + 1`, none is farther than `d`. -/
theorem path_le_of_no_distance {d : Nat} (h : ∀ a, ¬ c.Distance root a (d + 1)) {n : Nat}
    {a : Address} (hpath : c.Path root n a) : ∃ m ≤ d, c.Path root m a := by
  induction hpath with
  | root => exact ⟨0, by omega, .root⟩
  | @call n a b _ hcall ih =>
    obtain ⟨m, hle, hm⟩ := ih
    obtain ⟨k, hk, hdistance⟩ := exists_distance (hm.call hcall)
    rcases Nat.lt_or_ge d k with hlt | hge
    · obtain rfl : k = d + 1 := by omega
      exact absurd hdistance (h b)
    · exact ⟨k, hge, hdistance.path⟩

end Paths

/-! ## Taking note of targets -/

/-- `f'` is `f` with the contracts of `found` seen; those not seen before come next. -/
structure Frontier.Notes (f f' : Frontier) (found : Address → Prop) : Prop where
  visited : ∀ a, a ∈ f'.visited ↔ a ∈ f.visited ∨ found a
  next : ∀ a, a ∈ f'.next ↔ a ∈ f.next ∨ found a ∧ a ∉ f.visited
  nodup : f.next.Nodup → (∀ a ∈ f.next, a ∈ f.visited) → f'.next.Nodup

namespace Frontier.Notes

theorem nothing (f : Frontier) : f.Notes f fun _ => False :=
  ⟨by simp, by simp, fun h _ => h⟩

theorem trans {f g h : Frontier} {p q : Address → Prop} (hfg : f.Notes g p) (hgh : g.Notes h q) :
    f.Notes h fun a => p a ∨ q a where
  visited a := by rw [hgh.visited, hfg.visited, or_assoc]
  next a := by
    rw [hgh.next, hfg.next, hfg.visited]
    tauto
  nodup hnodup hseen := by
    refine hgh.nodup (hfg.nodup hnodup hseen) fun a ha => ?_
    rcases (hfg.next a).1 ha with ha | ⟨ha, -⟩
    · exact (hfg.visited a).2 (.inl (hseen a ha))
    · exact (hfg.visited a).2 (.inr ha)

theorem congr {f g : Frontier} {p q : Address → Prop} (h : f.Notes g p) (hpq : ∀ a, p a ↔ q a) :
    f.Notes g q := by
  obtain rfl : p = q := funext fun a => propext (hpq a)
  exact h

/-- A contract that has been seen is passed over. -/
theorem seen {f : Frontier} {target : Address} (h : target ∈ f.visited) :
    f.Notes f fun a => a = target where
  visited a := by
    constructor
    · exact .inl
    · rintro (ha | rfl)
      · exact ha
      · exact h
  next a := by
    constructor
    · exact .inl
    · rintro (ha | ⟨rfl, hnew⟩)
      · exact ha
      · exact absurd h hnew
  nodup hnodup _ := hnodup

theorem new {f : Frontier} {target : Address} (h : target ∉ f.visited) :
    f.Notes ⟨target :: f.visited, f.next ++ [target]⟩ fun a => a = target where
  visited a := by simp [or_comm]
  next a := by
    simp only [List.mem_append, List.mem_singleton]
    constructor
    · rintro (ha | rfl)
      · exact .inl ha
      · exact .inr ⟨rfl, h⟩
    · rintro (ha | ⟨rfl, -⟩)
      · exact .inl ha
      · exact .inr rfl
  nodup hnodup hseen := by
    refine List.nodup_append.2 ⟨hnodup, List.nodup_singleton _, ?_⟩
    rintro a ha b hb rfl
    rw [List.mem_singleton] at hb
    exact h (hb ▸ hseen a ha)

end Frontier.Notes

/-- As long as calls may be followed, all targets are taken note of. -/
theorem note_true (c : Checker) (f : Frontier) (targets : List Address) :
    ∃ f', c.note true f targets = .ok f' ∧ f.Notes f' (· ∈ targets) := by
  induction targets generalizing f with
  | nil => exact ⟨f, rfl, (Frontier.Notes.nothing f).congr (by simp)⟩
  | cons target targets ih =>
    rw [Checker.note]
    by_cases hseen : target ∈ f.visited
    · obtain ⟨f', hok, hnotes⟩ := ih f
      refine ⟨f', by simpa [hseen] using hok, ?_⟩
      exact ((Frontier.Notes.seen hseen).trans hnotes).congr fun a => by simp
    · obtain ⟨f', hok, hnotes⟩ := ih ⟨target :: f.visited, f.next ++ [target]⟩
      refine ⟨f', by simpa [hseen] using hok, ?_⟩
      exact ((Frontier.Notes.new hseen).trans hnotes).congr fun a => by simp

/-- At the bound, a target that has not been seen is one call too far. -/
theorem note_false (c : Checker) (f : Frontier) (targets : List Address) :
    ((∀ a ∈ targets, a ∈ f.visited) ∧ c.note false f targets = .ok f) ∨
      ∃ a ∈ targets, a ∉ f.visited ∧
        c.note false f targets = .error (.depthExceeded a c.maxDepth) := by
  induction targets with
  | nil => exact .inl ⟨by simp, rfl⟩
  | cons target targets ih =>
    rw [Checker.note]
    by_cases hseen : target ∈ f.visited
    · rcases ih with ⟨hall, hok⟩ | ⟨a, ha, hnew, herror⟩
      · exact .inl ⟨by simpa [hseen] using hall, by simpa [hseen] using hok⟩
      · exact .inr ⟨a, by simp [ha], hnew, by simpa [hseen] using herror⟩
    · exact .inr ⟨target, by simp, hseen, by simp [hseen]⟩

/-! ## Visiting the contracts of a level -/

/-- The contract at `a` passes, and its calls may be followed: there is a call left to follow, or
they lead to contracts that have been seen. -/
def Checker.Clears (c : Checker) (mayDescend : Bool) (f : Frontier) (a : Address) : Prop :=
  ∃ targets, c.inspect a = .ok targets ∧ (mayDescend = false → ∀ b ∈ targets, b ∈ f.visited)

theorem Checker.Clears.passes {c : Checker} {mayDescend : Bool} {f : Frontier} {a : Address}
    (h : c.Clears mayDescend f a) : c.Passes a := by
  obtain ⟨targets, hinspect, -⟩ := h
  exact ⟨targets, hinspect⟩

/-- What a visit of the contract at `a` may find: the inspection finds fault with it, or it calls a
contract that is one call too far. -/
inductive Checker.Faults (c : Checker) (mayDescend : Bool) (f : Frontier) (a : Address) :
    Impurity → Prop where
  | inspection {reason : Impurity} (hinspect : c.inspect a = .error reason) :
    Faults c mayDescend f a reason
  | bound {targets : List Address} {b : Address} (hinspect : c.inspect a = .ok targets)
    (hdescend : mayDescend = false) (hcall : b ∈ targets) (hnew : b ∉ f.visited) :
    Faults c mayDescend f a (.depthExceeded b c.maxDepth)

theorem Checker.Faults.not_clears {c : Checker} {mayDescend : Bool} {f : Frontier} {a : Address}
    {reason : Impurity} (h : c.Faults mayDescend f a reason) : ¬ c.Clears mayDescend f a := by
  rintro ⟨targets, hok, hseen⟩
  cases h with
  | inspection hinspect => simp [hinspect] at hok
  | bound hinspect hdescend hcall hnew =>
    rw [hinspect] at hok
    cases hok
    exact hnew (hseen hdescend _ hcall)

/-- What is too far once more contracts have been seen was too far before. -/
theorem Checker.Faults.of_notes {c : Checker} {mayDescend : Bool} {f f' : Frontier} {a : Address}
    {reason : Impurity} {found : Address → Prop} (hnotes : f.Notes f' found)
    (h : c.Faults mayDescend f' a reason) : c.Faults mayDescend f a reason := by
  cases h with
  | inspection hinspect => exact .inspection hinspect
  | bound hinspect hdescend hcall hnew =>
    exact .bound hinspect hdescend hcall fun hseen => hnew ((hnotes.visited _).2 (.inl hseen))

theorem note_cases (c : Checker) (mayDescend : Bool) (f : Frontier) (targets : List Address) :
    (∃ f', c.note mayDescend f targets = .ok f' ∧ f.Notes f' (· ∈ targets) ∧
      (mayDescend = false → ∀ a ∈ targets, a ∈ f.visited)) ∨
    mayDescend = false ∧ ∃ a ∈ targets, a ∉ f.visited ∧
      c.note mayDescend f targets = .error (.depthExceeded a c.maxDepth) := by
  cases mayDescend with
  | true =>
    obtain ⟨f', hok, hnotes⟩ := note_true c f targets
    exact .inl ⟨f', hok, hnotes, by simp⟩
  | false =>
    rcases note_false c f targets with ⟨hall, hok⟩ | herror
    · refine .inl ⟨f, hok, ⟨fun a => ?_, fun a => ?_, fun hnodup _ => hnodup⟩, fun _ => hall⟩
      · exact ⟨.inl, fun h => h.elim id (hall a)⟩
      · exact ⟨.inl, fun h => h.elim id fun h => absurd (hall a h.1) h.2⟩
    · exact .inr ⟨rfl, herror⟩

/-- At the bound nothing new is ever taken note of. -/
theorem Frontier.Notes.clears_iff {c : Checker} {mayDescend : Bool} {f f' : Frontier}
    {targets : List Address} (h : f.Notes f' (· ∈ targets))
    (hbound : mayDescend = false → ∀ a ∈ targets, a ∈ f.visited) (a : Address) :
    c.Clears mayDescend f' a ↔ c.Clears mayDescend f a := by
  refine exists_congr fun found => and_congr_right fun _ => forall_congr' fun hdescend =>
    forall₂_congr fun b _ => ?_
  rw [h.visited]
  exact ⟨fun hb => hb.elim id (hbound hdescend b), .inl⟩

/-- Visiting contracts succeeds if all of them are clear, and then takes note of whatever they call;
otherwise it ends with what is at fault with one of them. -/
theorem visitAll_spec (c : Checker) (mayDescend : Bool) (depth : Nat) (f : Frontier)
    (events : List Event) (addresses : List Address) :
    (∃ f', (c.visitAll mayDescend depth f events addresses).result = .ok f' ∧
      (∀ a ∈ addresses, c.Clears mayDescend f a) ∧
      f.Notes f' fun b => ∃ a ∈ addresses, c.Calls a b) ∨
    ∃ reason, (c.visitAll mayDescend depth f events addresses).result = .error reason ∧
      ∃ a ∈ addresses, c.Faults mayDescend f a reason := by
  induction addresses generalizing f events with
  | nil => exact .inl ⟨f, rfl, by simp, (Frontier.Notes.nothing f).congr (by simp)⟩
  | cons address rest ih =>
    simp only [Checker.visitAll]
    cases hinspect : c.inspect address with
    | error reason => exact .inr ⟨reason, rfl, address, by simp, .inspection hinspect⟩
    | ok targets =>
      simp only
      rcases note_cases c mayDescend f targets with
        ⟨g, hok, hnotes, hbound⟩ | ⟨hdescend, b, hb, hnew, herror⟩
      · rw [hok]
        rcases ih g (events ++ [checking address depth]) with
          ⟨f', hresult, hclear, hrest⟩ | ⟨reason, hresult, a, ha, hfault⟩
        · refine .inl ⟨f', hresult, ?_, ?_⟩
          · intro a ha
            rcases List.mem_cons.1 ha with rfl | ha
            · exact ⟨targets, hinspect, hbound⟩
            · exact (hnotes.clears_iff hbound a).1 (hclear a ha)
          · refine (hnotes.trans hrest).congr fun b => ?_
            simp only [List.mem_cons, exists_eq_or_imp]
            refine or_congr_left ⟨fun hb => ⟨targets, hinspect, hb⟩, ?_⟩
            rintro ⟨found, hfound, hb⟩
            rw [hinspect] at hfound
            cases hfound
            exact hb
        · exact .inr ⟨reason, hresult, a, by simp [ha], hfault.of_notes hnotes⟩
      · rw [herror]
        exact .inr ⟨_, rfl, address, by simp, .bound hinspect hdescend hb hnew⟩

/-- The events of visiting contracts name contracts visited, in their order. -/
theorem visitAll_events (c : Checker) (mayDescend : Bool) (depth : Nat) (f : Frontier)
    (events : List Event) (addresses : List Address) :
    ∃ seen, List.Sublist seen addresses ∧
      (c.visitAll mayDescend depth f events addresses).events =
        events ++ seen.map fun a => checking a depth := by
  induction addresses generalizing f events with
  | nil => exact ⟨[], .slnil, by simp [Checker.visitAll]⟩
  | cons address rest ih =>
    simp only [Checker.visitAll]
    split
    · exact ⟨[address], by simp, rfl⟩
    · split
      · exact ⟨[address], by simp, rfl⟩
      · rename_i g _
        obtain ⟨seen, hsub, hevents⟩ := ih g (events ++ [checking address depth])
        exact ⟨address :: seen, hsub.cons_cons address, by simp [hevents]⟩

/-! ## Levels -/

/-- The walk has come to the contracts at distance `d`: those seen are at most that far away, and
all nearer ones pass the inspection. -/
structure Level (c : Checker) (root : Address) (d : Nat) (f : Frontier) : Prop where
  visited : ∀ a, a ∈ f.visited ↔ ∃ n ≤ d, c.Path root n a
  next : ∀ a, a ∈ f.next ↔ c.Distance root a d
  nodup : f.next.Nodup
  passes : ∀ n a, c.Path root n a → n < d → c.Passes a

section Levels

variable {c : Checker} {root : Address} {d : Nat} {f f' : Frontier}

theorem level_start (c : Checker) (root : Address) : Level c root 0 ⟨[root], [root]⟩ where
  visited a := by
    simp only [List.mem_singleton, Nat.le_zero, exists_eq_left]
    exact path_zero_iff.symm
  next a := by
    rw [List.mem_singleton]
    constructor
    · rintro rfl
      exact ⟨.root, fun m _ => m.zero_le⟩
    · exact fun h => path_zero_iff.1 h.path
  nodup := List.nodup_singleton root
  passes _ _ _ hlt := absurd hlt (Nat.not_lt_zero _)

/-- What the contracts of a level call and has not been seen is the next level. -/
theorem Level.calls_iff (h : Level c root d f) {b : Address} :
    (∃ a ∈ f.next, c.Calls a b) ∧ b ∉ f.visited ↔ c.Distance root b (d + 1) := by
  constructor
  · rintro ⟨⟨a, ha, hcall⟩, hnew⟩
    refine ⟨((h.next a).1 ha).path.call hcall, fun m hm => ?_⟩
    by_contra hlt
    exact hnew ((h.visited b).2 ⟨m, by omega, hm⟩)
  · intro hdistance
    have hnew : b ∉ f.visited := fun hseen => by
      obtain ⟨n, hle, hpath⟩ := (h.visited b).1 hseen
      have := hdistance.least n hpath
      omega
    rcases distance_of_path_succ hdistance.path with ⟨a, ha, hcall⟩ | ⟨m, hle, hpath⟩
    · exact ⟨⟨a, (h.next a).2 ha, hcall⟩, hnew⟩
    · exact absurd ((h.visited b).2 ⟨m, hle, hpath⟩) hnew

/-- Contracts of a level and of nearer ones pass, once the level has been visited. -/
theorem Level.passes_le (h : Level c root d f) (hclear : ∀ a ∈ f.next, c.Passes a) {n : Nat}
    {a : Address} (hpath : c.Path root n a) (hle : n ≤ d) : c.Passes a := by
  obtain ⟨m, hm, hdistance⟩ := exists_distance hpath
  rcases (hm.trans hle).lt_or_eq with hlt | rfl
  · exact h.passes m a hdistance.path hlt
  · exact hclear a ((h.next a).2 hdistance)

/-- One level leads to the next. -/
theorem Level.step (h : Level c root d f) (hclear : ∀ a ∈ f.next, c.Passes a)
    (hnotes : Frontier.Notes ⟨f.visited, []⟩ f' fun b => ∃ a ∈ f.next, c.Calls a b) :
    Level c root (d + 1) f' where
  visited b := by
    rw [hnotes.visited]
    constructor
    · rintro (hseen | ⟨a, ha, hcall⟩)
      · obtain ⟨n, hle, hpath⟩ := (h.visited b).1 hseen
        exact ⟨n, by omega, hpath⟩
      · exact ⟨d + 1, le_rfl, ((h.next a).1 ha).path.call hcall⟩
    · rintro ⟨n, hle, hpath⟩
      obtain ⟨m, hm, hdistance⟩ := exists_distance hpath
      rcases (hm.trans hle).lt_or_eq with hlt | rfl
      · exact .inl ((h.visited b).2 ⟨m, by omega, hdistance.path⟩)
      · exact .inr (h.calls_iff.2 hdistance).1
  next b := by
    rw [hnotes.next]
    simp only [List.not_mem_nil, false_or]
    exact h.calls_iff
  nodup := hnotes.nodup List.nodup_nil (by simp)
  passes n a hpath hlt := h.passes_le hclear hpath (by omega)

/-- Where a level calls nothing new, everything within reach has been seen. -/
theorem Level.boundedPure (h : Level c root d f) (hclear : ∀ a ∈ f.next, c.Passes a)
    (hnew : ∀ a, ¬ c.Distance root a (d + 1)) (hle : d ≤ c.maxDepth) : c.BoundedPure root := by
  intro a hreaches
  obtain ⟨n, hpath⟩ := reaches_iff_exists_path.1 hreaches
  obtain ⟨m, hm, hpath⟩ := path_le_of_no_distance hnew hpath
  obtain ⟨k, hk, hdistance⟩ := exists_distance hpath
  exact ⟨h.passes_le hclear hpath hm, k, by omega, hdistance⟩

/-- In a contract of bounded purity, every level is clear. -/
theorem Level.clears (h : Level c root d f) (hpure : c.BoundedPure root) {mayDescend : Bool}
    (hbound : mayDescend = false → c.maxDepth = d) :
    ∀ a ∈ f.next, c.Clears mayDescend ⟨f.visited, []⟩ a := by
  intro a ha
  have hpath := ((h.next a).1 ha).path
  obtain ⟨⟨targets, hinspect⟩, -⟩ := hpure a (reaches_iff_exists_path.2 ⟨d, hpath⟩)
  refine ⟨targets, hinspect, fun hdescend b hb => ?_⟩
  have hcall : c.Path root (d + 1) b := hpath.call ⟨targets, hinspect, hb⟩
  obtain ⟨-, n, hle, hdistance⟩ := hpure b (reaches_iff_exists_path.2 ⟨d + 1, hcall⟩)
  exact (h.visited b).2 ⟨n, hbound hdescend ▸ hle, hdistance.path⟩

end Levels

/-! ## The walk -/

/-- The events are visits of contracts at their distances from `root`, of which none is nearer than
`d`, and no contract is visited twice. -/
def Visits (c : Checker) (root : Address) (d : Nat) (visits : List (Address × Nat)) : Prop :=
  (visits.map Prod.fst).Nodup ∧ ∀ visit ∈ visits, c.Distance root visit.1 visit.2 ∧ d ≤ visit.2

def visitEvents (visits : List (Address × Nat)) : List Event :=
  visits.map fun visit => checking visit.1 visit.2

theorem Level.visits {c : Checker} {root : Address} {d : Nat} {f : Frontier}
    (h : Level c root d f) {seen : List Address} (hseen : List.Sublist seen f.next) :
    Visits c root d (seen.map (·, d)) := by
  refine ⟨by simpa [Function.comp_def] using hseen.nodup h.nodup, ?_⟩
  simp only [List.mem_map, forall_exists_index, and_imp, forall_apply_eq_imp_iff₂]
  exact fun a ha => ⟨(h.next a).1 (hseen.subset ha), le_rfl⟩

theorem Visits.append {c : Checker} {root : Address} {d : Nat} {f : Frontier}
    (h : Level c root d f) {seen : List Address} (hseen : List.Sublist seen f.next)
    {visits : List (Address × Nat)} (hvisits : Visits c root (d + 1) visits) :
    Visits c root d (seen.map (·, d) ++ visits) := by
  obtain ⟨hnodup, hdistance⟩ := h.visits hseen
  refine ⟨?_, ?_⟩
  · rw [List.map_append]
    refine List.nodup_append.2 ⟨hnodup, hvisits.1, ?_⟩
    -- a contract has one distance, and the later visits are farther away
    rintro a ha b hb rfl
    obtain ⟨visit, hvisit, rfl⟩ := List.mem_map.1 ha
    obtain ⟨other, hother, heq⟩ := List.mem_map.1 hb
    obtain ⟨hfar, hle⟩ := hvisits.2 other hother
    obtain ⟨hnear, -⟩ := hdistance visit hvisit
    have hd : visit.2 = d := by
      obtain ⟨_, -, rfl⟩ := List.mem_map.1 hvisit
      rfl
    rw [heq] at hfar
    have := hfar.unique hnear
    omega
  · intro visit hvisit
    rcases List.mem_append.1 hvisit with hvisit | hvisit
    · exact hdistance visit hvisit
    · obtain ⟨hfar, hle⟩ := hvisits.2 visit hvisit
      exact ⟨hfar, by omega⟩

theorem walk_ok_iff {c : Checker} {root : Address} {remaining d : Nat} {f : Frontier}
    (h : Level c root d f) (hbound : d + remaining = c.maxDepth) (events : List Event) :
    (∃ f', (c.walk f d events remaining).result = .ok f') ↔ c.BoundedPure root := by
  induction remaining generalizing d f events with
  | zero =>
    rw [Checker.walk]
    rcases visitAll_spec c false d ⟨f.visited, []⟩ events f.next with
      ⟨f', hresult, hclear, -⟩ | ⟨reason, hresult, a, ha, hfault⟩
    · refine iff_of_true ⟨f', hresult⟩
        (h.boundedPure (fun a ha => (hclear a ha).passes) (fun b hb => ?_) (by omega))
      obtain ⟨⟨a, ha, found, hfound, hcall⟩, hnew⟩ := h.calls_iff.2 hb
      obtain ⟨targets, hinspect, hseen⟩ := hclear a ha
      rw [hinspect] at hfound
      cases hfound
      exact hnew (hseen rfl b hcall)
    · refine iff_of_false (by simp [hresult]) fun hpure => hfault.not_clears ?_
      exact h.clears hpure (fun _ => by omega) a ha
  | succ remaining ih =>
    rw [Checker.walk]
    rcases visitAll_spec c true d ⟨f.visited, []⟩ events f.next with
      ⟨f', hresult, hclear, hnotes⟩ | ⟨reason, hresult, a, ha, hfault⟩
    · have hpasses : ∀ a ∈ f.next, c.Passes a := fun a ha => (hclear a ha).passes
      have hlevel := h.step hpasses hnotes
      split
      · rename_i heq
        simp [heq] at hresult
      · rename_i g events' heq
        obtain rfl : g = f' := by simpa [heq] using hresult
        split
        · rename_i hempty
          refine iff_of_true ⟨g, rfl⟩ (h.boundedPure hpasses (fun b hb => ?_) (by omega))
          have hb := (hlevel.next b).2 hb
          rw [List.isEmpty_iff.1 hempty] at hb
          cases hb
        · exact ih hlevel (by omega) events'
    · refine iff_of_false ?_ fun hpure =>
        hfault.not_clears (h.clears hpure (by simp) a ha)
      split
      · simp
      · rename_i heq
        simp [heq] at hresult

theorem walk_visits {c : Checker} {root : Address} {d : Nat} {f : Frontier}
    (h : Level c root d f) (events : List Event) (remaining : Nat) :
    ∃ visits, Visits c root d visits ∧
      (c.walk f d events remaining).events = events ++ visitEvents visits := by
  induction remaining generalizing d f events with
  | zero =>
    obtain ⟨seen, hseen, hevents⟩ := visitAll_events c false d ⟨f.visited, []⟩ events f.next
    exact ⟨_, h.visits hseen, by simp [Checker.walk, hevents, visitEvents, Function.comp_def]⟩
  | succ remaining ih =>
    obtain ⟨seen, hseen, hevents⟩ := visitAll_events c true d ⟨f.visited, []⟩ events f.next
    rw [Checker.walk]
    split
    · rename_i reason events' heq
      rw [heq] at hevents
      exact ⟨_, h.visits hseen, by simpa [visitEvents, Function.comp_def] using hevents⟩
    · rename_i g events' heq
      rw [heq] at hevents
      split
      · exact ⟨_, h.visits hseen, by simpa [visitEvents, Function.comp_def] using hevents⟩
      · rcases visitAll_spec c true d ⟨f.visited, []⟩ events f.next with
          ⟨f', hresult, hclear, hnotes⟩ | ⟨reason, hresult, -⟩
        · obtain rfl : g = f' := by simpa [heq] using hresult
          have hlevel := h.step (fun a ha => (hclear a ha).passes) hnotes
          obtain ⟨visits, hvisits, hwalk⟩ := ih hlevel events'
          refine ⟨_, hvisits.append h hseen, ?_⟩
          rw [hwalk, show events' = _ from hevents]
          simp [visitEvents, Function.comp_def]
        · simp [heq] at hresult

/-- The verdict is that of the last visit, and one event follows the others. -/
theorem verdict_spec (root : Address) (v : Visit) :
    ((v.verdict root).1 = .pure ↔ ∃ f, v.result = .ok f) ∧
      (∀ reason, (v.verdict root).1 = .impure reason ↔ v.result = .error reason) ∧
      ∃ last, (v.verdict root).2 = v.events ++ [last] := by
  obtain ⟨result, events⟩ := v
  cases result <;> simp [Visit.verdict]

theorem check_eq_pure_iff_boundedPure (c : Checker) (root : Address) :
    (c.check root).1 = .pure ↔ c.BoundedPure root := by
  rw [Checker.check, (verdict_spec root _).1]
  exact walk_ok_iff (level_start c root) (Nat.zero_add _) []

/-! ## Calls that do not matter -/

/-- `other` finds fault with the same contracts as `c` and finds the calls that `c` finds, in any
order and any number of times. Beyond them it finds only calls that are no short cut from `root`,
such as calls of a contract to itself or back to a contract on the way to it. -/
structure Checker.SameReach (c other : Checker) (root : Address) : Prop where
  maxDepth_eq : other.maxDepth = c.maxDepth
  passes_iff : ∀ a, other.Passes a ↔ c.Passes a
  keeps : ∀ a b, c.Calls a b → other.Calls a b
  noShortCut : ∀ a b n, other.Calls a b → c.Path root n a → ∃ m ≤ n + 1, c.Path root m b

section SameReach

variable {c other : Checker} {root : Address} (h : c.SameReach other root)
include h

theorem Checker.SameReach.path {n : Nat} {a : Address} (hpath : c.Path root n a) :
    other.Path root n a := by
  induction hpath with
  | root => exact .root
  | call _ hcall ih => exact ih.call (h.keeps _ _ hcall)

theorem Checker.SameReach.path_of_other {n : Nat} {a : Address} (hpath : other.Path root n a) :
    ∃ m ≤ n, c.Path root m a := by
  induction hpath with
  | root => exact ⟨0, le_rfl, .root⟩
  | call _ hcall ih =>
    obtain ⟨m, hle, hm⟩ := ih
    obtain ⟨k, hk, hpath⟩ := h.noShortCut _ _ m hcall hm
    exact ⟨k, by omega, hpath⟩

theorem Checker.SameReach.distance_iff {n : Nat} {a : Address} :
    other.Distance root a n ↔ c.Distance root a n := by
  constructor
  · intro hdistance
    obtain ⟨m, hle, hpath⟩ := h.path_of_other hdistance.path
    obtain rfl : m = n := le_antisymm hle (hdistance.least m (h.path hpath))
    exact ⟨hpath, fun k hk => hdistance.least k (h.path hk)⟩
  · intro hdistance
    refine ⟨h.path hdistance.path, fun k hk => ?_⟩
    obtain ⟨m, hle, hpath⟩ := h.path_of_other hk
    exact (hdistance.least m hpath).trans hle

theorem Checker.SameReach.boundedPure_iff : other.BoundedPure root ↔ c.BoundedPure root := by
  have hreaches : ∀ a, other.Reaches root a ↔ c.Reaches root a := fun a => by
    rw [reaches_iff_exists_path, reaches_iff_exists_path]
    constructor
    · rintro ⟨n, hpath⟩
      obtain ⟨m, -, hpath⟩ := h.path_of_other hpath
      exact ⟨m, hpath⟩
    · rintro ⟨n, hpath⟩
      exact ⟨n, h.path hpath⟩
  simp only [Checker.BoundedPure, hreaches, h.passes_iff, h.distance_iff, h.maxDepth_eq]

end SameReach

/-- **The purity walk decides bounded purity.** The verdict on `root` is that it is pure if and only
if every contract within reach passes the inspection and is within the bound. The walk visits each
contract at most once, at its distance from `root`. Only who calls whom counts: calls found in
another order, repeated, or leading back do not change whether the verdict is pure. -/
theorem check_decides_bounded_purity (c : Checker) (root : Address) :
    ((c.check root).1 = .pure ↔ c.BoundedPure root) ∧
      (∃ visits last, Visits c root 0 visits ∧ (c.check root).2 = visitEvents visits ++ [last]) ∧
      ∀ other : Checker, c.SameReach other root →
        ((other.check root).1 = .pure ↔ (c.check root).1 = .pure) := by
  refine ⟨check_eq_pure_iff_boundedPure c root, ?_, fun other h => ?_⟩
  · obtain ⟨visits, hvisits, hevents⟩ := walk_visits (level_start c root) [] c.maxDepth
    rw [List.nil_append] at hevents
    obtain ⟨last, hlast⟩ := (verdict_spec root (c.walk ⟨[root], [root]⟩ 0 [] c.maxDepth)).2.2
    exact ⟨visits, last, hvisits, by rw [Checker.check, hlast, hevents]⟩
  · rw [check_eq_pure_iff_boundedPure, check_eq_pure_iff_boundedPure, h.boundedPure_iff]

/-! ## Two contracts that call each other -/

/-- A code that calls `targets` one after the other and stops. -/
def callingCode (targets : List Address) : Bytes :=
  (targets.flatMap fun target =>
    [0x5f, 0x5f, 0x5f, 0x5f, 0x73] ++ target.bytes ++ [0x5a, 0xfa, 0x50]) ++ [0x00]

def contractA : Address := .ofNat 20 0xa

def contractB : Address := .ofNat 20 0xb

/-- A check of two contracts that call `first` and `second`; one call may be followed. -/
def pairChecker (first second : List Address) : Checker where
  source := ⟨fun a => .ok
    (if a = contractA then some (callingCode first)
    else if a = contractB then some (callingCode second) else none)⟩
  manager := .ofNat 20 0xee
  whitelist := Whitelist.standard.allow Opcode.staticCall
  maxDepth := 1

theorem passes_pairChecker {first second : List Address} {a : Address} {targets : List Address}
    (h : (pairChecker first second).inspect a = .ok targets) : a = contractA ∨ a = contractB := by
  by_contra hne
  rw [not_or] at hne
  simp [Checker.inspect, pairChecker, hne.1, hne.2] at h

/-- Whether the first contract calls the second once, or twice and itself in between, and is called
back, both are pure. -/
theorem check_decides_bounded_purity_pair :
    (pairChecker [contractB] []).SameReach
        (pairChecker [contractB, contractA, contractB] [contractA]) contractA ∧
      ((pairChecker [contractB, contractA, contractB] [contractA]).check contractA).1 = .pure := by
  have hA : (pairChecker [contractB] []).inspect contractA = .ok [contractB] := by decide +kernel
  have hB : (pairChecker [contractB] []).inspect contractB = .ok [] := by decide +kernel
  have hA' : (pairChecker [contractB, contractA, contractB] [contractA]).inspect contractA =
      .ok [contractB, contractA, contractB] := by decide +kernel
  have hB' : (pairChecker [contractB, contractA, contractB] [contractA]).inspect contractB =
      .ok [contractA] := by decide +kernel
  have hsame : (pairChecker [contractB] []).SameReach
      (pairChecker [contractB, contractA, contractB] [contractA]) contractA := by
    refine ⟨rfl, fun a => ⟨?_, ?_⟩, ?_, ?_⟩
    · rintro ⟨targets, h⟩
      rcases passes_pairChecker h with rfl | rfl
      · exact ⟨_, hA⟩
      · exact ⟨_, hB⟩
    · rintro ⟨targets, h⟩
      rcases passes_pairChecker h with rfl | rfl
      · exact ⟨_, hA'⟩
      · exact ⟨_, hB'⟩
    · rintro a b ⟨targets, h, hb⟩
      rcases passes_pairChecker h with rfl | rfl
      · rw [hA] at h
        cases h
        exact ⟨_, hA', by simp [List.mem_singleton.1 hb]⟩
      · rw [hB] at h
        cases h
        cases hb
    · rintro a b n ⟨targets, h, hb⟩ -
      have hpath : (pairChecker [contractB] []).Path contractA 1 contractB :=
        .call .root ⟨_, hA, by simp⟩
      have hb : b = contractA ∨ b = contractB := by
        rcases passes_pairChecker h with rfl | rfl
        · rw [hA'] at h
          cases h
          simp only [List.mem_cons, List.not_mem_nil, or_false] at hb
          tauto
        · rw [hB'] at h
          cases h
          exact .inl (List.mem_singleton.1 hb)
      rcases hb with rfl | rfl
      · exact ⟨0, by omega, .root⟩
      · exact ⟨1, by omega, hpath⟩
  have hpure : ((pairChecker [contractB] []).check contractA).1 = .pure := by decide +kernel
  exact ⟨hsame, ((check_decides_bounded_purity _ contractA).2.2 _ hsame).2 hpure⟩

end EvmSandbox.Purity
