/-
The check of a contract as two loops: one over the indexes of a contract's
instructions, which passes over a whole call to the manager at a time, and
one over a queue of contracts with their distances. Neither is bounded in
advance; the theorems say that they end, and with what. The first advances
because no sequence is empty (`lt_of_inspectStep`). The second ends because
the queue holds at most two distances at a time, a rest of one and a
beginning of the next, and no distance beyond the bound (`ends_level`,
`ends_walk`).
-/
import EvmSandbox.Proofs.InspectionScan
import EvmSandbox.Proofs.PurityWalk

namespace EvmSandbox.Purity

open Instruction (locate)

/-- From a state on, a loop ends with a result: each round gives the next state or the result. -/
inductive Ends {σ ρ : Type} (round : σ → ρ ⊕ σ) : σ → ρ → Prop where
  | done {s : σ} {result : ρ} (hround : round s = .inl result) : Ends round s result
  | next {s s' : σ} {result : ρ} (hround : round s = .inr s') (hrest : Ends round s' result) :
    Ends round s result

theorem Ends.unique {σ ρ : Type} {round : σ → ρ ⊕ σ} {s : σ} {a b : ρ} (ha : Ends round s a)
    (hb : Ends round s b) : a = b := by
  induction ha with
  | done hround =>
    cases hb with
    | done hround' => exact Sum.inl.inj (hround.symm.trans hround')
    | next hround' hrest => cases hround.symm.trans hround'
  | next hround _ ih =>
    cases hb with
    | done hround' => cases hround.symm.trans hround'
    | next hround' hrest =>
      obtain rfl := Sum.inr.inj (hround.symm.trans hround')
      exact ih hrest

/-! ## The loop over the instructions of a contract -/

/-- The first index from `index` on whose instruction does not start before `stop`. -/
def skipTo (instructions : List Instruction) (stop index : Nat) : Nat :=
  if h : index < instructions.length then
    if instructions[index].offset < stop then skipTo instructions stop (index + 1) else index
  else index
  termination_by instructions.length - index

/-- The target of a call at `index`. -/
def callTargetAt (instructions : List Instruction) (index : Nat) : Option Address :=
  if index < 2 then none
  else
    match instructions[index - 1]?, instructions[index - 2]? with
    | some gas, some push =>
      if pushesGas gas.code && push.code == Opcode.push20 then
        FixedBytes.ofBytes? 20 push.immediate
      else none
    | _, _ => none

/-- Inspects the instruction `i` at `index`: the index to go on with, and the target if it calls. -/
def inspectStep (whitelist : Whitelist) (sequences : List (UInt8 × Bytes)) (address : Address)
    (code : Bytes) (instructions : List Instruction) (index : Nat) (i : Instruction) :
    Except Impurity (Nat × List Address) :=
  match sequenceAt sequences (code.drop i.offset) with
  | some (replaced, sequence) => do
    let targets ← resolveCall address (callTargetAt instructions index) i (Opcode.isCall replaced)
    return (skipTo instructions (i.offset + sequence.length) index, targets)
  | none =>
    if whitelist.isAllowed i.code then do
      let targets ← resolveCall address (callTargetAt instructions index) i (Opcode.isCall i.code)
      return (index + 1, targets)
    else .error (.disallowed address i.offset i.code)

/-- One round of the loop over an index and the targets found so far. -/
def inspectRound (whitelist : Whitelist) (sequences : List (UInt8 × Bytes)) (address : Address)
    (code : Bytes) (instructions : List Instruction) (s : Nat × List Address) :
    Except Impurity (List Address) ⊕ Nat × List Address :=
  match instructions[s.1]? with
  | none => .inl (.ok s.2)
  | some i =>
    match inspectStep whitelist sequences address code instructions s.1 i with
    | .error reason => .inl (.error reason)
    | .ok (index, found) => .inr (index, s.2 ++ found)

section InspectRound

variable {whitelist : Whitelist} {seqs : List (UInt8 × Bytes)} {address : Address} {code : Bytes}
  {instructions : List Instruction}

theorem skipTo_inside {stop index : Nat} {i : Instruction} (hi : instructions[index]? = some i)
    (h : i.offset < stop) :
    skipTo instructions stop index = skipTo instructions stop (index + 1) := by
  obtain ⟨hlt, rfl⟩ := List.getElem?_eq_some_iff.1 hi
  rw [skipTo, dif_pos hlt, if_pos h]

theorem skipTo_outside {stop index : Nat}
    (h : ∀ i, instructions[index]? = some i → stop ≤ i.offset) :
    skipTo instructions stop index = index := by
  rw [skipTo]
  split
  · rename_i hlt
    rw [if_neg (Nat.not_lt.2 (h _ (List.getElem?_eq_getElem hlt)))]
  · rfl

theorem le_skipTo (stop index : Nat) : index ≤ skipTo instructions stop index := by
  fun_induction skipTo instructions stop index with
  | case1 index hlt hless ih => omega
  | case2 => exact le_rfl
  | case3 => exact le_rfl

/-- A sequence has at least one byte, so the instruction at which it begins is passed over. -/
theorem skipTo_sequence (hseqs : ∀ entry ∈ seqs, entry.2 ≠ []) {index : Nat} {i : Instruction}
    {bytes : Bytes} {entry : UInt8 × Bytes} (hi : instructions[index]? = some i)
    (hsequence : sequenceAt seqs bytes = some entry) :
    skipTo instructions (i.offset + entry.2.length) index =
      skipTo instructions (i.offset + entry.2.length) (index + 1) := by
  have hpos := List.length_pos_iff.2 (hseqs entry (List.mem_of_find?_eq_some hsequence))
  exact skipTo_inside hi (Nat.lt_add_of_pos_right hpos)

/-- What is found where a call is resolved is one target or none. -/
theorem bind_resolveCall_eq_ok {α : Type} {target : Option Address} {i : Instruction} {calls : Bool}
    {next : List Address → Except Impurity α} {result : α}
    (h : (resolveCall address target i calls).bind next = .ok result) :
    ∃ found, found.reverse = found ∧ next found = .ok result := by
  unfold resolveCall at h
  split at h
  · split at h
    · exact ⟨_, rfl, h⟩
    · cases h
  · exact ⟨_, rfl, h⟩

/-- Every round leads on. -/
theorem lt_of_inspectStep (hseqs : ∀ entry ∈ seqs, entry.2 ≠ []) {index index' : Nat}
    {i : Instruction} {found : List Address} (hi : instructions[index]? = some i)
    (h : inspectStep whitelist seqs address code instructions index i = .ok (index', found)) :
    index < index' := by
  unfold inspectStep at h
  split at h
  · rename_i replaced sequence hsequence
    obtain ⟨targets, -, hreturn⟩ := bind_resolveCall_eq_ok h
    cases hreturn
    rw [skipTo_sequence hseqs hi hsequence]
    exact le_skipTo _ (index + 1)
  · split at h
    · obtain ⟨targets, -, hreturn⟩ := bind_resolveCall_eq_ok h
      cases hreturn
      exact Nat.lt_succ_self index
    · cases h

/-- The two instructions before an index are the nearest of those before it. -/
theorem callTargetAt_length (before rest : List Instruction) :
    callTargetAt (before ++ rest) before.length = callTarget before.reverse := by
  induction before using List.reverseRecOn with
  | nil => rfl
  | append_singleton before gas _ =>
    induction before using List.reverseRecOn with
    | nil => simp [callTargetAt, callTarget]
    | append_singleton before push _ => simp [callTargetAt, callTarget]

/-- The position after one instruction, which has one target or none. -/
theorem inspectOne_eq_ok {p next : Position} {i : Instruction} {found : List Address}
    (h : inspectOne whitelist seqs address p i = .ok (next, found)) :
    next = ⟨p.bytes.drop i.size, i :: p.before, next.resume⟩ ∧ found.reverse = found := by
  by_cases hinside : i.offset < p.resume
  · rw [inspectOne_inside hinside] at h
    cases h
    exact ⟨rfl, rfl⟩
  · cases hsequence : sequenceAt seqs p.bytes with
    | some entry =>
      rw [inspectOne_sequence (Nat.le_of_not_lt hinside) hsequence] at h
      obtain ⟨targets, htargets, hreturn⟩ := bind_resolveCall_eq_ok h
      cases hreturn
      exact ⟨rfl, htargets⟩
    | none =>
      rw [inspectOne_single (Nat.le_of_not_lt hinside) hsequence] at h
      split at h
      · obtain ⟨targets, htargets, hreturn⟩ := bind_resolveCall_eq_ok h
        cases hreturn
        exact ⟨rfl, htargets⟩
      · cases h

/-- One round of the loop takes one instruction and all that start inside the sequence it begins. -/
theorem inspectStep_eq (hseqs : ∀ entry ∈ seqs, entry.2 ≠ []) {before : List Instruction}
    {op : Operation} {ops : List Operation} {offset resume : Nat}
    (hsplit : instructions = before ++ locate offset (op :: ops)) (hle : resume ≤ offset) :
    inspectStep whitelist seqs address code instructions before.length ⟨op, offset⟩ =
      (inspectOne whitelist seqs address ⟨code.drop offset, before.reverse, resume⟩
        ⟨op, offset⟩).map fun result =>
          (skipTo instructions result.1.resume (before.length + 1), result.2) := by
  have hi : instructions[before.length]? = some ⟨op, offset⟩ := by simp [hsplit, locate]
  have htarget : callTargetAt instructions before.length = callTarget before.reverse := by
    rw [hsplit, callTargetAt_length]
  unfold inspectStep
  cases hsequence : sequenceAt seqs (code.drop offset) with
  | some entry =>
    have hskip := skipTo_sequence hseqs hi hsequence
    rw [inspectOne_sequence hle hsequence]
    simp only [htarget, hskip]
    cases resolveCall address (callTarget before.reverse) ⟨op, offset⟩ (Opcode.isCall entry.1) <;>
      rfl
  | none =>
    -- the last sequence ends before the next instruction too
    have hbehind : skipTo instructions resume (before.length + 1) = before.length + 1 := by
      refine skipTo_outside fun i hnext => ?_
      cases ops with
      | nil => simp [hsplit, locate] at hnext
      | cons next ops =>
        have : i = ⟨next, offset + op.size⟩ := by simpa [hsplit, locate] using hnext.symm
        exact this ▸ hle.trans (Nat.le_add_right offset op.size)
    rw [inspectOne_single hle hsequence]
    simp only [htarget]
    cases whitelist.isAllowed op.code with
    | false => rfl
    | true =>
      cases resolveCall address (callTarget before.reverse) ⟨op, offset⟩
          (Opcode.isCall op.code) with
      | error reason => rfl
      | ok found => exact congrArg (fun index => Except.ok (index, found)) hbehind.symm

/-- **The loop over the indexes ends with what the recursion over the instructions gives**, from the
end of the last sequence on. -/
theorem ends_inspectFrom (hseqs : ∀ entry ∈ seqs, entry.2 ≠ []) (ops : List Operation)
    {before : List Instruction} {offset : Nat} (hsplit : instructions = before ++ locate offset ops)
    (resume : Nat) (targets : List Address) :
    Ends (inspectRound whitelist seqs address code instructions)
      (skipTo instructions resume before.length, targets.reverse)
      (inspectFrom whitelist seqs address ⟨code.drop offset, before.reverse, resume⟩ targets
        (locate offset ops)) := by
  induction ops generalizing before offset resume targets with
  | nil =>
    have hend : instructions[before.length]? = none := by simp [hsplit, locate]
    rw [skipTo_outside (by simp [hend])]
    exact .done (by rw [inspectRound, hend]; rfl)
  | cons op ops ih =>
    have hi : instructions[before.length]? = some ⟨op, offset⟩ := by simp [hsplit, locate]
    have hnext : instructions = (before ++ [⟨op, offset⟩]) ++ locate (offset + op.size) ops := by
      simp [hsplit, locate]
    -- what follows the instruction, wherever the last sequence ends
    have hrest : ∀ resume found, found.reverse = found →
        Ends (inspectRound whitelist seqs address code instructions)
          (skipTo instructions resume (before.length + 1), targets.reverse ++ found)
          (inspectFrom whitelist seqs address ⟨(code.drop offset).drop op.size,
            ⟨op, offset⟩ :: before.reverse, resume⟩ (found ++ targets)
            (locate (offset + op.size) ops)) := by
      intro resume found hfound
      simpa [List.drop_drop, hfound] using ih hnext resume (found ++ targets)
    rw [locate, inspectFrom_cons]
    by_cases hinside : offset < resume
    · rw [skipTo_inside hi hinside, inspectOne_inside hinside, ← List.append_nil targets.reverse]
      exact hrest resume [] rfl
    · have hle := Nat.le_of_not_lt hinside
      have hstep := @inspectStep_eq whitelist seqs address code _ hseqs _ _ _ _ _ hsplit hle
      rw [skipTo_outside (by simpa [hi] using hle)]
      cases hone : inspectOne whitelist seqs address ⟨code.drop offset, before.reverse, resume⟩
          ⟨op, offset⟩ with
      | error reason =>
        rw [hone] at hstep
        exact .done (by simp only [inspectRound, hi, hstep]; rfl)
      | ok result =>
        obtain ⟨next, found⟩ := result
        obtain ⟨hposition, hfound⟩ := inspectOne_eq_ok hone
        rw [hone] at hstep
        refine .next (by simp only [inspectRound, hi, hstep]; rfl) ?_
        rw [hposition]
        exact hrest next.resume found hfound

end InspectRound

/-- A call to the manager has at least one byte. -/
theorem sequences_ne_nil (manager : Address) : ∀ entry ∈ sequences manager, entry.2 ≠ [] := by
  intro entry hentry
  obtain ⟨⟨replaced, call⟩, -, rfl⟩ := List.mem_map.1 hentry
  obtain ⟨rest, hops⟩ := call.operations_eq_cons manager
  simp [ManagerCall.encode, hops, Operation.encode]

/-- **The loop over the instructions of a contract ends, with the targets or the reason that the
inspection gives and with nothing else.** -/
theorem ends_inspectRound_iff {c : Checker} {address : Address} {stored : Bytes}
    {instructions : List Instruction} (hstored : c.source.code address = .ok (some stored))
    (hdecode : Instruction.decode (Metadata.strip stored) = .ok instructions)
    {result : Except Impurity (List Address)} :
    Ends (inspectRound c.whitelist (sequences c.manager) address (Metadata.strip stored)
      instructions) (0, []) result ↔ result = c.inspect address := by
  obtain ⟨-, ops, -, -, hops⟩ := Instruction.decode_eq_ok_iff.1 hdecode
  have hends := @ends_inspectFrom c.whitelist _ address (Metadata.strip stored) instructions
    (sequences_ne_nil c.manager) ops [] 0 hops 0 []
  rw [skipTo_outside (fun i _ => Nat.zero_le i.offset), ← hops] at hends
  simp only [Checker.inspect, hstored, hdecode]
  exact ⟨fun h => h.unique hends, fun h => h ▸ hends⟩

/-! ## The loop over the contracts within reach -/

/-- The contracts seen so far, latest first, those still to be visited with their distances, in the
order in which they were found, and the events so far. -/
structure Worklist where
  visited : List Address
  queue : List (Address × Nat)
  events : List Event

/-- Puts the targets of a contract at distance `depth` that have not been seen into the queue. -/
def Checker.enqueue (c : Checker) (depth : Nat) (w : Worklist) :
    List Address → Except Impurity Worklist
  | [] => .ok w
  | target :: targets =>
    if w.visited.contains target then c.enqueue depth w targets
    else if c.maxDepth < depth + 1 then .error (.depthExceeded target c.maxDepth)
    else
      c.enqueue depth
        { w with visited := target :: w.visited, queue := w.queue ++ [(target, depth + 1)] } targets

/-- One round of the loop: visits the contract at the front of the queue, on behalf of the contract
at `root`. -/
def Checker.searchRound (c : Checker) (root : Address) (w : Worklist) :
    (Verdict × List Event) ⊕ Worklist :=
  match w.queue with
  | [] => .inl (.pure, w.events ++ [foundPure root w.visited.length])
  | (address, depth) :: queue =>
    let events := w.events ++ [checking address depth]
    match c.inspect address with
    | .error reason => .inl (.impure reason, events ++ [foundImpure root reason])
    | .ok targets =>
      match c.enqueue depth ⟨w.visited, queue, events⟩ targets with
      | .error reason => .inl (.impure reason, events ++ [foundImpure root reason])
      | .ok w => .inr w

/-- The queue while the contracts at distance `depth` are up: those of them that are left, and
those found for the next distance. -/
def Frontier.worklist (f : Frontier) (depth : Nat) (events : List Event) (level : List Address) :
    Worklist where
  visited := f.visited
  queue := level.map (·, depth) ++ f.next.map (·, depth + 1)
  events := events

/-- How the loop ends after a visit of the contracts at distance `depth`. -/
def Checker.EndsAfter (c : Checker) (root : Address) (depth : Nat) (v : Visit)
    (result : Verdict × List Event) : Prop :=
  match v.result with
  | .error reason => result = (.impure reason, v.events ++ [foundImpure root reason])
  | .ok f => Ends (c.searchRound root) (f.worklist depth v.events []) result

section Search

variable {c : Checker} {root : Address}

/-- Targets are put into the queue behind all that it holds. -/
theorem enqueue_eq (depth : Nat) (f : Frontier) (events : List Event)
    (level targets : List Address) :
    c.enqueue depth (f.worklist depth events level) targets =
      (c.note (decide (depth < c.maxDepth)) f targets).map (·.worklist depth events level) := by
  induction targets generalizing f with
  | nil => rfl
  | cons target targets ih =>
    have hpush : (⟨target :: f.visited, (f.worklist depth events level).queue ++
        [(target, depth + 1)], events⟩ : Worklist) =
          Frontier.worklist ⟨target :: f.visited, f.next ++ [target]⟩ depth events level := by
      simp [Frontier.worklist]
    have hvisited : (f.worklist depth events level).visited = f.visited := rfl
    have hevents : (f.worklist depth events level).events = events := rfl
    rw [Checker.enqueue, Checker.note, hvisited, hevents, hpush, ih, ih]
    by_cases hseen : f.visited.contains target = true
    · rw [if_pos hseen, if_pos hseen]
    · rw [if_neg hseen, if_neg hseen]
      by_cases hbound : depth < c.maxDepth
      · rw [if_neg (by omega), if_pos (by simpa using hbound)]
      · rw [if_pos (by omega), if_neg (by simpa using hbound)]
        rfl

/-- **One distance of the queue is one level of the walk.** -/
theorem ends_level {depth : Nat} {f : Frontier} {events : List Event} {level : List Address}
    {result : Verdict × List Event}
    (h : c.EndsAfter root depth
      (c.visitAll (decide (depth < c.maxDepth)) depth f events level) result) :
    Ends (c.searchRound root) (f.worklist depth events level) result := by
  induction level generalizing f events with
  | nil => exact h
  | cons address level ih =>
    have henqueue : ∀ targets, c.enqueue depth ⟨f.visited, level.map (·, depth) ++
        f.next.map (·, depth + 1), events ++ [checking address depth]⟩ targets = _ :=
      enqueue_eq depth f (events ++ [checking address depth]) level
    simp only [Checker.visitAll] at h
    cases hinspect : c.inspect address with
    | error reason =>
      rw [hinspect] at h
      obtain rfl := h
      exact .done (by simp [Checker.searchRound, Frontier.worklist, hinspect])
    | ok targets =>
      simp only [hinspect] at h
      cases hnote : c.note (decide (depth < c.maxDepth)) f targets with
      | error reason =>
        rw [hnote] at h
        obtain rfl := h
        exact .done (by
          simp [Checker.searchRound, Frontier.worklist, hinspect, henqueue, hnote, Except.map])
      | ok g =>
        rw [hnote] at h
        refine .next ?_ (ih h)
        simp [Checker.searchRound, Frontier.worklist, hinspect, henqueue, hnote, Except.map]

/-- At the bound nothing is found for the next distance. -/
theorem next_of_visitAll_false {depth : Nat} {f f' : Frontier} {events : List Event}
    {level : List Address} (h : (c.visitAll false depth f events level).result = .ok f') :
    f'.next = f.next := by
  induction level generalizing f events with
  | nil =>
    cases h
    rfl
  | cons address level ih =>
    simp only [Checker.visitAll] at h
    split at h
    · cases h
    · rename_i targets htargets
      rcases note_false c f targets with ⟨-, hok⟩ | ⟨b, -, -, herror⟩
      · rw [hok] at h
        exact ih h
      · rw [herror] at h
        cases h

/-- With nothing found for the next distance, the queue is empty. -/
theorem endsAfter_verdict {depth : Nat} {v : Visit} (h : ∀ f, v.result = .ok f → f.next = []) :
    c.EndsAfter root depth v (v.verdict root) := by
  obtain ⟨result, events⟩ := v
  cases result with
  | error reason => rfl
  | ok f =>
    have hempty : (f.worklist depth events []).queue = [] := by simp [Frontier.worklist, h f rfl]
    exact .done (by rw [Checker.searchRound, hempty]; rfl)

theorem worklist_of_level (f : Frontier) (depth : Nat) (events : List Event) :
    (⟨f.visited, f.next.map (·, depth), events⟩ : Worklist) =
      Frontier.worklist ⟨f.visited, []⟩ depth events f.next := by
  simp [Frontier.worklist]

/-- From one distance on the queue ends as the walk does. -/
theorem ends_walk {remaining depth : Nat} (hbound : depth + remaining = c.maxDepth) (f : Frontier)
    (events : List Event) :
    Ends (c.searchRound root) ⟨f.visited, f.next.map (·, depth), events⟩
      ((c.walk f depth events remaining).verdict root) := by
  induction remaining generalizing depth f events with
  | zero =>
    rw [worklist_of_level, Checker.walk]
    apply ends_level
    rw [decide_eq_false (by omega)]
    exact endsAfter_verdict fun g hg => next_of_visitAll_false hg
  | succ remaining ih =>
    rw [worklist_of_level, Checker.walk]
    apply ends_level
    rw [decide_eq_true (by omega)]
    cases hvisit : c.visitAll true depth ⟨f.visited, []⟩ events f.next with
    | mk result events' =>
      cases result with
      | error reason => rfl
      | ok g =>
        simp only
        split
        · rename_i hnext
          refine endsAfter_verdict fun g' hg => ?_
          cases hg
          exact List.isEmpty_iff.1 hnext
        · exact ih (by omega) g events'

end Search

/-- **The loop over the queue ends, with the verdict and the events of the check and with nothing
else.** -/
theorem ends_searchRound_iff (c : Checker) (root : Address) {result : Verdict × List Event} :
    Ends (c.searchRound root) ⟨[root], [(root, 0)], []⟩ result ↔ result = c.check root := by
  have hends : Ends (c.searchRound root) ⟨[root], [(root, 0)], []⟩ (c.check root) :=
    ends_walk (Nat.zero_add _) ⟨[root], [root]⟩ []
  exact ⟨fun h => h.unique hends, fun h => h ▸ hends⟩

end EvmSandbox.Purity
