/-
Maps with text keys, held as lists in ascending order of the keys, so that
two maps with the same entries are equal.
-/
namespace EvmSandbox

/-- A map from text; its entries are in ascending order of their keys. -/
structure KeyMap (α : Type) where
  entries : List (String × α)
  sorted : entries.Pairwise fun a b => a.1 < b.1

namespace KeyMap

variable {α β : Type}

def empty : KeyMap α := ⟨[], .nil⟩

instance : Inhabited (KeyMap α) := ⟨empty⟩

instance [DecidableEq α] : DecidableEq (KeyMap α) := fun a b =>
  if h : a.entries = b.entries then isTrue (by cases a; cases b; cases h; rfl)
  else isFalse fun e => h (e ▸ rfl)

/-- Puts an entry in its place among sorted ones, over one with the same key. -/
def insertSorted (key : String) (value : α) : List (String × α) → List (String × α)
  | [] => [(key, value)]
  | entry :: rest =>
    if key < entry.1 then (key, value) :: entry :: rest
    else if entry.1 < key then entry :: insertSorted key value rest
    else (key, value) :: rest

theorem mem_insertSorted {key : String} {value : α} {entries : List (String × α)}
    {entry : String × α} (h : entry ∈ insertSorted key value entries) :
    entry = (key, value) ∨ entry ∈ entries := by
  induction entries with
  | nil => simpa [insertSorted] using h
  | cons head rest ih =>
    simp only [insertSorted] at h
    split at h
    · simpa using h
    · split at h
      · rcases List.mem_cons.mp h with rfl | h
        · simp
        · rcases ih h with h | h <;> simp [h]
      · rcases List.mem_cons.mp h with h | h <;> simp [h]

theorem sorted_insertSorted (key : String) (value : α) {entries : List (String × α)}
    (h : entries.Pairwise fun a b => a.1 < b.1) :
    (insertSorted key value entries).Pairwise fun a b => a.1 < b.1 := by
  induction entries with
  | nil => simp [insertSorted]
  | cons head rest ih =>
    obtain ⟨above, rest_sorted⟩ := List.pairwise_cons.mp h
    simp only [insertSorted]
    split
    · rename_i lower
      refine List.pairwise_cons.mpr ⟨fun entry mem => ?_, h⟩
      rcases List.mem_cons.mp mem with rfl | mem
      · exact lower
      · exact String.lt_trans lower (above entry mem)
    · rename_i not_lower
      split
      · rename_i higher
        refine List.pairwise_cons.mpr ⟨fun entry mem => ?_, ih rest_sorted⟩
        rcases mem_insertSorted mem with rfl | mem
        · exact higher
        · exact above entry mem
      · rename_i not_higher
        have same : key = head.1 :=
          String.le_antisymm (String.not_lt.mp not_higher) (String.not_lt.mp not_lower)
        exact List.pairwise_cons.mpr ⟨fun entry mem => same ▸ above entry mem, rest_sorted⟩

protected def insert (map : KeyMap α) (key : String) (value : α) : KeyMap α :=
  ⟨insertSorted key value map.entries, sorted_insertSorted key value map.sorted⟩

def get? (map : KeyMap α) (key : String) : Option α :=
  map.entries.lookup key

/-- The map with the entries of a list; of several with one key the last counts. -/
def ofList (entries : List (String × α)) : KeyMap α :=
  entries.foldl (fun map entry => map.insert entry.1 entry.2) empty

def isEmpty (map : KeyMap α) : Bool :=
  map.entries.isEmpty

/-- Changes every value, knowing its key. -/
def map (f : String → α → β) (m : KeyMap α) : KeyMap β where
  entries := m.entries.map fun entry => (entry.1, f entry.1 entry.2)
  sorted := by
    rw [List.pairwise_map]
    exact m.sorted

theorem mem_entries_map (f : String → α → β) {m : KeyMap α} {key : String} {value : α}
    (h : (key, value) ∈ m.entries) : (key, f key value) ∈ (m.map f).entries :=
  List.mem_map.mpr ⟨_, h, rfl⟩

theorem get?_map (f : String → α → β) (m : KeyMap α) (key : String) :
    (m.map f).get? key = (m.get? key).map (f key) := by
  simp only [get?, map]
  induction m.entries with
  | nil => rfl
  | cons entry rest ih =>
    rw [List.map_cons, List.lookup_cons, List.lookup_cons]
    split
    · rename_i same
      rw [eq_of_beq same]
      rfl
    · exact ih

theorem lookup_cons_eq_ite (k : String) (entry : String × α) (rest : List (String × α)) :
    (entry :: rest).lookup k = if k = entry.1 then some entry.2 else rest.lookup k := by
  rw [List.lookup_cons]
  by_cases same : k = entry.1
  · simp [same]
  · simp [same, beq_false_of_ne same]

theorem get?_insert (m : KeyMap α) (key : String) (value : α) (k : String) :
    (m.insert key value).get? k = if k = key then some value else m.get? k := by
  simp only [get?, KeyMap.insert]
  induction m.entries with
  | nil => exact lookup_cons_eq_ite k (key, value) []
  | cons head rest ih =>
    simp only [insertSorted]
    split
    · exact lookup_cons_eq_ite k (key, value) (head :: rest)
    · rename_i not_lower
      split
      · rename_i higher
        rw [lookup_cons_eq_ite, lookup_cons_eq_ite, ih]
        by_cases same : k = key
        · have apart : key ≠ head.1 := fun e => String.lt_irrefl _ (e ▸ higher)
          simp [same, apart]
        · simp [same]
      · rename_i not_higher
        have same : head.1 = key :=
          String.le_antisymm (String.not_lt.mp not_lower) (String.not_lt.mp not_higher)
        rw [lookup_cons_eq_ite, lookup_cons_eq_ite, same]
        by_cases first : k = key <;> simp [first]

theorem mem_entries_of_get? {m : KeyMap α} {key : String} {value : α} (h : m.get? key = some value) :
    (key, value) ∈ m.entries := by
  obtain ⟨before, after, entries_eq, -⟩ := List.lookup_eq_some_iff.mp h
  simp [entries_eq]

theorem mem_entries_iff {m : KeyMap α} {key : String} {value : α} :
    (key, value) ∈ m.entries ↔ m.get? key = some value := by
  refine ⟨fun h => ?_, mem_entries_of_get?⟩
  obtain ⟨before, after, entries_eq⟩ := List.append_of_mem h
  refine List.lookup_eq_some_iff.mpr ⟨before, after, entries_eq, fun entry mem => ?_⟩
  have sorted := m.sorted
  rw [entries_eq, List.pairwise_append] at sorted
  have lower := sorted.2.2 entry mem (key, value) List.mem_cons_self
  simp only [bne_iff_ne, ne_eq]
  rintro rfl
  exact String.lt_irrefl _ lower

end KeyMap

end EvmSandbox
