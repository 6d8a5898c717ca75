/-
JSON values and the documents that show them. A document shows an object
whatever the order of its fields (`Document.Shows`); every value has a document
that shows it (`Document.shows_ofJson`). Values with the fields of all objects
in ascending order are read from any document that shows them
(`Document.value_of_shows`), and what is read is in that order
(`Document.ordered_of_value`).

A reader that goes through the fields of an object is described by what it
holds once a set of fields has come; what it holds in the end does not depend
on their order (`Document.foldFields_of_shows`).
-/
import Mathlib.Data.Finset.Dedup
import Mathlib.Data.Finset.Lattice.Lemmas
import EvmSandbox.Json.Document

namespace EvmSandbox

/-! ## Maps that are filled entry by entry -/

namespace KeyMap

variable {α : Type}

theorem nodup_keys (m : KeyMap α) : (m.entries.map Prod.fst).Nodup := by
  rw [List.Nodup, List.pairwise_map]
  refine m.sorted.imp ?_
  rintro a b lower same
  exact String.lt_irrefl _ (same ▸ lower)

theorem ext_get? {a b : KeyMap α} (h : ∀ key, a.get? key = b.get? key) : a = b := by
  have members : ∀ entry, entry ∈ a.entries ↔ entry ∈ b.entries := by
    rintro ⟨key, value⟩
    rw [mem_entries_iff, mem_entries_iff, h]
  have perm : a.entries.Perm b.entries :=
    (List.perm_ext_iff_of_nodup (List.Nodup.of_map _ a.nodup_keys)
      (List.Nodup.of_map _ b.nodup_keys)).mpr members
  have same : a.entries = b.entries :=
    perm.eq_of_pairwise (fun _ _ _ _ lower higher => absurd higher (String.lt_asymm lower))
      a.sorted b.sorted
  cases a
  cases b
  cases same
  rfl

theorem eq_empty_of_isEmpty {m : KeyMap α} (h : m.isEmpty = true) : m = empty := by
  obtain ⟨entries, sorted⟩ := m
  cases List.isEmpty_iff.mp h
  rfl

/-- The entries whose keys are among these. -/
def keep (m : KeyMap α) (keys : Finset String) : KeyMap α where
  entries := m.entries.filter fun entry => entry.1 ∈ keys
  sorted := m.sorted.filter _

theorem get?_keep (m : KeyMap α) (keys : Finset String) (key : String) :
    (m.keep keys).get? key = if key ∈ keys then m.get? key else none := by
  ext value
  rw [← mem_entries_iff]
  simp only [keep, List.mem_filter, decide_eq_true_eq, mem_entries_iff]
  by_cases hkey : key ∈ keys <;> simp [hkey]

@[simp] theorem keep_empty (m : KeyMap α) : m.keep ∅ = empty := by
  refine ext_get? fun key => ?_
  rw [get?_keep]
  rfl

theorem insert_keep {m : KeyMap α} {key : String} {value : α} (h : (key, value) ∈ m.entries)
    (keys : Finset String) : (m.keep keys).insert key value = m.keep (insert key keys) := by
  refine ext_get? fun k => ?_
  rw [get?_insert, get?_keep, get?_keep]
  by_cases hk : k = key
  · simp [hk, mem_entries_iff.mp h]
  · simp [hk]

theorem keep_insert_of_none {m : KeyMap α} {key : String} (h : m.get? key = none)
    (keys : Finset String) : m.keep (insert key keys) = m.keep keys := by
  refine ext_get? fun k => ?_
  rw [get?_keep, get?_keep]
  by_cases hk : k = key
  · simp [hk, h]
  · simp [hk]

theorem keep_eq_self {m : KeyMap α} {keys : Finset String}
    (h : ∀ entry ∈ m.entries, entry.1 ∈ keys) : m.keep keys = m := by
  have all : m.entries.filter (fun entry => entry.1 ∈ keys) = m.entries :=
    List.filter_eq_self.mpr fun entry hentry => decide_eq_true (h entry hentry)
  cases m
  simp only [keep, all]

theorem foldl_insert_keep {m : KeyMap α} {entries : List (String × α)}
    (h : ∀ entry ∈ entries, entry ∈ m.entries) (keys : Finset String) :
    entries.foldl (fun map entry => map.insert entry.1 entry.2) (m.keep keys) =
      m.keep (keys ∪ (entries.map Prod.fst).toFinset) := by
  induction entries generalizing keys with
  | nil => simp
  | cons entry rest ih =>
    rw [List.foldl_cons, insert_keep (h entry List.mem_cons_self),
      ih fun e he => h e (List.mem_cons_of_mem _ he)]
    simp

/-- The order in which the entries of a map come is of no account. -/
theorem ofList_of_perm {m : KeyMap α} {entries : List (String × α)}
    (h : entries.Perm m.entries) : ofList entries = m := by
  rw [ofList, ← keep_empty m, foldl_insert_keep (fun entry => h.mem_iff.mp), keep_eq_self]
  intro entry hentry
  simpa using ⟨entry.2, h.mem_iff.mpr hentry⟩

theorem mem_entries_insert {m : KeyMap α} {key : String} {value : α} {entry : String × α}
    (h : entry ∈ (m.insert key value).entries) : entry = (key, value) ∨ entry ∈ m.entries :=
  mem_insertSorted h

theorem mem_of_mem_ofList {entries : List (String × α)} {entry : String × α}
    (h : entry ∈ (ofList entries).entries) : entry ∈ entries := by
  suffices ∀ m : KeyMap α, entry ∈ (entries.foldl (fun m e => m.insert e.1 e.2) m).entries →
      entry ∈ m.entries ∨ entry ∈ entries by
    exact (this empty h).resolve_left List.not_mem_nil
  clear h
  induction entries with
  | nil => exact fun m h => .inl h
  | cons first rest ih =>
    intro m h
    rcases ih _ h with h | h
    · rcases mem_entries_insert h with rfl | h
      · exact .inr List.mem_cons_self
      · exact .inl h
    · exact .inr (List.mem_cons_of_mem _ h)

end KeyMap

/-! ## Values and documents -/

/-- The fields of every object are in ascending order of their keys, and no key comes twice. -/
inductive Json.Ordered : Json → Prop where
  | null : Ordered .null
  | bool (b : Bool) : Ordered (.bool b)
  | number (n : Json.Number) : Ordered (.number n)
  | string (s : String) : Ordered (.string s)
  | array {items : List Json} (h : ∀ item ∈ items, Ordered item) : Ordered (.array items)
  | object {fields : List (String × Json)} (sorted : fields.Pairwise fun a b => a.1 < b.1)
    (h : ∀ field ∈ fields, Ordered field.2) : Ordered (.object fields)

namespace Json.Document

mutual

/-- The document is complete and says what the value is. The fields of an object come in any
order. -/
inductive Shows : Document → Json → Prop where
  | null : Shows .null .null
  | bool (b : Bool) : Shows (.bool b) (.bool b)
  | number (n : Number) : Shows (.number (some n)) (.number n)
  | string (s : String) : Shows (.string (some s)) (.string s)
  | array {docs : List Document} {items : List Json} (h : ShowsItems docs items) :
    Shows (.array false docs none) (.array items)
  | object {docs : List (Option String × Document)} {shown fields : List (String × Json)}
    (h : ShowsFields docs shown) (order : shown.Perm fields) :
    Shows (.object false docs none) (.object fields)

inductive ShowsItems : List Document → List Json → Prop where
  | nil : ShowsItems [] []
  | cons {d : Document} {j : Json} {docs : List Document} {items : List Json} (first : Shows d j)
    (rest : ShowsItems docs items) : ShowsItems (d :: docs) (j :: items)

inductive ShowsFields : List (Option String × Document) → List (String × Json) → Prop where
  | nil : ShowsFields [] []
  | cons {key : String} {d : Document} {j : Json} {docs : List (Option String × Document)}
    {fields : List (String × Json)} (first : Shows d j) (rest : ShowsFields docs fields) :
    ShowsFields ((some key, d) :: docs) ((key, j) :: fields)

end

mutual

/-- The document of a value, with the fields in the order in which they are written. -/
def ofJson : Json → Document
  | .null => .null
  | .bool b => .bool b
  | .number n => .number (some n)
  | .string s => .string (some s)
  | .array items => .array false (ofItems items) none
  | .object fields => .object false (ofFields fields) none

def ofItems : List Json → List Document
  | [] => []
  | item :: items => ofJson item :: ofItems items

def ofFields : List (String × Json) → List (Option String × Document)
  | [] => []
  | (key, j) :: fields => (some key, ofJson j) :: ofFields fields

end

mutual

theorem shows_ofJson (j : Json) : (ofJson j).Shows j := by
  cases j with
  | null => exact .null
  | bool b => exact .bool b
  | number n => exact .number n
  | string s => exact .string s
  | array items => exact .array (showsItems_ofItems items)
  | object fields => exact .object (showsFields_ofFields fields) (.refl _)

theorem showsItems_ofItems (items : List Json) : ShowsItems (ofItems items) items := by
  cases items with
  | nil => exact .nil
  | cons item items => exact .cons (shows_ofJson item) (showsItems_ofItems items)

theorem showsFields_ofFields (fields : List (String × Json)) :
    ShowsFields (ofFields fields) fields := by
  cases fields with
  | nil => exact .nil
  | cons field fields =>
    obtain ⟨key, j⟩ := field
    exact .cons (shows_ofJson j) (showsFields_ofFields fields)

end

/-! ## Reading any value -/

mutual

theorem value_of_shows (d : Document) {j : Json} (hd : d.Shows j) (hj : j.Ordered) :
    d.value = .ok j := by
  cases hd with
  | null => rfl
  | bool b => rfl
  | number n => rfl
  | string s => rfl
  | array h =>
    cases hj with
    | array hitems =>
      rw [value, valueItems_of_shows _ h hitems]
      rfl
  | @object docs shown fields h order =>
    cases hj with
    | object sorted hfields =>
      have hvalues := valueFields_of_shows docs h fun field hfield =>
        hfields field (order.mem_iff.mp hfield)
      -- the fields may come in another order, but a map has its entries in one order only
      have hmap : KeyMap.ofList shown = ⟨fields, sorted⟩ := KeyMap.ofList_of_perm order
      rw [value, hvalues]
      change Except.ok (Json.object (KeyMap.ofList shown).entries) = _
      rw [hmap]

theorem valueItems_of_shows (docs : List Document) {items : List Json}
    (h : ShowsItems docs items) (hitems : ∀ item ∈ items, item.Ordered) :
    valueItems docs = .ok items := by
  cases h with
  | nil => rfl
  | cons first rest =>
    rw [valueItems, value_of_shows _ first (hitems _ List.mem_cons_self),
      valueItems_of_shows _ rest fun item hitem => hitems item (List.mem_cons_of_mem _ hitem)]
    rfl

theorem valueFields_of_shows (docs : List (Option String × Document))
    {fields : List (String × Json)} (h : ShowsFields docs fields)
    (hfields : ∀ field ∈ fields, field.2.Ordered) : valueFields docs = .ok fields := by
  cases h with
  | nil => rfl
  | cons first rest =>
    rw [valueFields, value_of_shows _ first (hfields _ List.mem_cons_self),
      valueFields_of_shows _ rest fun field hfield => hfields field (List.mem_cons_of_mem _ hfield)]
    rfl

end

theorem ok_of_bind {ε α β : Type} {x : Except ε α} {f : α → Except ε β} {b : β}
    (h : x >>= f = .ok b) : ∃ a, x = .ok a ∧ f a = .ok b := by
  cases x with
  | error e => cases h
  | ok a => exact ⟨a, rfl, h⟩

theorem ok_of_map {ε α β : Type} {x : Except ε α} {f : α → β} {b : β}
    (h : x.map f = .ok b) : ∃ a, x = .ok a ∧ f a = b := by
  cases x with
  | error e => cases h
  | ok a => exact ⟨a, rfl, Except.ok.inj h⟩

mutual

theorem ordered_of_value (d : Document) {j : Json} (h : d.value = .ok j) : j.Ordered := by
  cases d with
  | null => cases h; exact .null
  | bool b => cases h; exact .bool b
  | number n =>
    cases n with
    | none => cases h
    | some n => cases h; exact .number n
  | string s =>
    cases s with
    | none => cases h
    | some s => cases h; exact .string s
  | array deep docs ending =>
    cases deep with
    | true => cases h
    | false =>
      rw [value] at h
      obtain ⟨items, hitems, h⟩ := ok_of_bind h
      obtain ⟨_, _, h⟩ := ok_of_bind h
      cases h
      exact .array (ordered_of_valueItems docs hitems)
  | object deep docs ending =>
    cases deep with
    | true => cases h
    | false =>
      rw [value] at h
      obtain ⟨entries, hentries, h⟩ := ok_of_bind h
      obtain ⟨_, _, h⟩ := ok_of_bind h
      cases h
      exact .object (KeyMap.ofList entries).sorted fun field hfield =>
        ordered_of_valueFields docs hentries field (KeyMap.mem_of_mem_ofList hfield)
  | broken b => cases h

theorem ordered_of_valueItems (docs : List Document) {items : List Json}
    (h : valueItems docs = .ok items) : ∀ item ∈ items, item.Ordered := by
  cases docs with
  | nil =>
    cases h
    simp
  | cons d docs =>
    rw [valueItems] at h
    obtain ⟨first, hfirst, h⟩ := ok_of_bind h
    obtain ⟨rest, hrest, h⟩ := ok_of_bind h
    cases h
    exact List.forall_mem_cons.mpr ⟨ordered_of_value d hfirst, ordered_of_valueItems docs hrest⟩

theorem ordered_of_valueFields (docs : List (Option String × Document))
    {fields : List (String × Json)} (h : valueFields docs = .ok fields) :
    ∀ field ∈ fields, field.2.Ordered := by
  cases docs with
  | nil =>
    cases h
    simp
  | cons field docs =>
    obtain ⟨key, d⟩ := field
    cases key with
    | none => cases h
    | some key =>
      rw [valueFields] at h
      obtain ⟨first, hfirst, h⟩ := ok_of_bind h
      obtain ⟨rest, hrest, h⟩ := ok_of_bind h
      cases h
      exact List.forall_mem_cons.mpr
        ⟨ordered_of_value d hfirst, ordered_of_valueFields docs hrest⟩

end

/-! ## Reading fields in any order -/

section FoldFields

variable {σ : Type} {step : σ → String → Document → Except Fault σ} {met : Finset String → σ}

/-- A reader that holds `met seen` when the fields `seen` have come can take this field too. -/
def Takes (step : σ → String → Document → Except Fault σ) (met : Finset String → σ)
    (field : String × Json) : Prop :=
  ∀ (seen : Finset String) (member : Document), field.1 ∉ seen → member.Shows field.2 →
    step (met seen) field.1 member = .ok (met (insert field.1 seen))

/-- One field after the other; the set of those that have come grows by the key of each. -/
theorem foldlM_of_showsFields {docs : List (Option String × Document)}
    {shown : List (String × Json)} (h : ShowsFields docs shown)
    (hkeys : (shown.map Prod.fst).Nodup) (htakes : ∀ field ∈ shown, Takes step met field)
    (seen : Finset String) (hseen : ∀ key ∈ shown.map Prod.fst, key ∉ seen) :
    docs.foldlM (takeField step) (met seen) =
      .ok (met (seen ∪ (shown.map Prod.fst).toFinset)) := by
  induction docs generalizing shown seen with
  | nil =>
    cases h
    simp [pure, Except.pure]
  | cons field docs ih =>
    cases h with
    | @cons key d j docs fields first rest =>
      simp only [List.map_cons, List.nodup_cons, List.forall_mem_cons] at hkeys hseen htakes
      have hnext : ∀ k ∈ fields.map Prod.fst, k ∉ insert key seen := by
        intro k hk
        rw [Finset.mem_insert, not_or]
        exact ⟨fun same => hkeys.1 (same ▸ hk), hseen.2 k hk⟩
      have hfirst : takeField step (met seen) (some key, d) = .ok (met (insert key seen)) :=
        htakes.1 seen d hseen.1 first
      have hset : insert key seen ∪ (fields.map Prod.fst).toFinset =
          seen ∪ (((key, j) :: fields).map Prod.fst).toFinset := by
        simp
      rw [List.foldlM_cons, hfirst, ← hset]
      exact ih rest hkeys.2 htakes.2 (insert key seen) hnext

/-- What a reader holds in the end does not depend on the order of the fields. -/
theorem foldFields_of_shows {d : Document} {fields : List (String × Json)}
    (hd : d.Shows (.object fields)) (hkeys : (fields.map Prod.fst).Nodup)
    (htakes : ∀ field ∈ fields, Takes step met field) :
    d.foldFields step (met ∅) = .ok (met (fields.map Prod.fst).toFinset) := by
  cases hd with
  | @object docs shown fields h order =>
    have horder : (shown.map Prod.fst).Perm (fields.map Prod.fst) := order.map Prod.fst
    have hread := foldlM_of_showsFields h (horder.nodup_iff.mpr hkeys)
      (fun field hfield => htakes field (order.mem_iff.mp hfield)) ∅ (by simp)
    have hset : ∅ ∪ (shown.map Prod.fst).toFinset = (fields.map Prod.fst).toFinset := by
      rw [Finset.empty_union, List.toFinset_eq_of_perm _ _ horder]
    change docs.foldlM (takeField step) (met ∅) >>= _ = _
    rw [hread, hset]
    rfl

/-- The fields come from a complete object, and what each of them keeps holds in the end. -/
theorem foldFields_fields {start result : σ} {d : Document}
    (h : d.foldFields step start = .ok result) :
    ∃ docs, d = .object false docs none ∧ ∀ Inv : σ → Prop, Inv start →
      (∀ state key member next, (some key, member) ∈ docs → Inv state →
        step state key member = .ok next → Inv next) → Inv result := by
  obtain ⟨⟨docs, ending⟩, hfields, h⟩ := ok_of_bind h
  obtain ⟨last, hlast, h⟩ := ok_of_bind h
  obtain ⟨_, hending, h⟩ := ok_of_bind h
  cases h
  have hd : d = .object false docs none := by
    cases d with
    | object deep fields broken =>
      cases deep <;> cases hfields
      cases ending
      · rfl
      · cases hending
    | _ => cases hfields
  refine ⟨docs, hd, fun Inv hstart hstep => ?_⟩
  clear * - hlast hstart hstep
  induction docs generalizing start with
  | nil =>
    cases hlast
    exact hstart
  | cons field docs ih =>
    rw [List.foldlM_cons] at hlast
    obtain ⟨next, hnext, hrest⟩ := ok_of_bind hlast
    obtain ⟨key, member⟩ := field
    cases key with
    | none => cases hnext
    | some key =>
      have hfirst := hstep start key member next List.mem_cons_self hstart hnext
      exact ih hrest hfirst fun s k m n hm => hstep s k m n (List.mem_cons_of_mem _ hm)

theorem foldFields_invariant (Inv : σ → Prop) {start result : σ} {d : Document}
    (hstart : Inv start)
    (hstep : ∀ state key member next, Inv state → step state key member = .ok next → Inv next)
    (h : d.foldFields step start = .ok result) : Inv result := by
  obtain ⟨docs, -, hinv⟩ := foldFields_fields h
  exact hinv Inv hstart fun state key member next _ => hstep state key member next

end FoldFields

/-! ## Typed readers -/

section Readers

variable {α : Type} {read : Document → Except Fault α} {d : Document}

/-- A field that may come only once, when the fields `seen` have come. -/
def held (seen : Finset String) (name : String) (value : α) : Option α :=
  if name ∈ seen then some value else none

@[simp] theorem held_empty (name : String) (value : α) : held ∅ name value = none := rfl

@[simp] theorem held_insert_self (seen : Finset String) (name : String) (value : α) :
    held (insert name seen) name value = some value :=
  if_pos (Finset.mem_insert_self name seen)

theorem held_of_mem {seen : Finset String} {name : String} (h : name ∈ seen) (value : α) :
    held seen name value = some value :=
  if_pos h

theorem held_insert_of_ne {seen : Finset String} {key name : String} (h : key ≠ name) (value : α) :
    held (insert key seen) name value = held seen name value := by
  simp [held, h.symm]

theorem once_held {seen : Finset String} {name : String} (hnew : name ∉ seen) (value : α)
    (read : Document → Except Fault α) (d : Document) :
    once (held seen name value) read d = (read d).map some := by
  simp [held, hnew, once]

/-- A field that is left out stands for its default. -/
theorem getD_held {seen : Finset String} {name : String} {value fallback : α}
    (h : name ∉ seen → value = fallback) : (held seen name value).getD fallback = value := by
  by_cases hname : name ∈ seen
  · simp [held, hname]
  · simp [held, hname, h hname]

theorem join_held {seen : Finset String} {name : String} {value : Option α}
    (h : name ∉ seen → value = none) : (held seen name value).join = value := by
  by_cases hname : name ∈ seen
  · simp [held, hname]
  · simp [held, hname, h hname]

theorem read_of_once {met : Option α} {value : α} (h : once met read d = .ok (some value)) :
    read d = .ok value := by
  cases met with
  | some _ => cases h
  | none =>
    obtain ⟨v, hv, hsome⟩ := ok_of_map h
    cases hsome
    exact hv

theorem read_of_optional {value : α} (h : optional read d = .ok (some value)) :
    read d = .ok value := by
  cases d with
  | null => cases h
  | _ =>
    obtain ⟨v, hv, hsome⟩ := ok_of_map h
    cases hsome
    exact hv

theorem optional_of_shows {j : Json} {value : α} (hd : d.Shows j) (hj : j ≠ .null)
    (hread : read d = .ok value) : optional read d = .ok (some value) := by
  cases hd with
  | null => exact absurd rfl hj
  | _ => simp [optional, hread, Except.map]

theorem arrayOf_of_shows {toJson : α → Json} {items : List α}
    (hd : d.Shows (.array (items.map toJson)))
    (hread : ∀ item ∈ items, ∀ member : Document, member.Shows (toJson item) →
      read member = .ok item) : arrayOf read d = .ok items := by
  cases hd with
  | @array docs _ h =>
    have hvalues : docs.mapM read = .ok items := by
      induction items generalizing docs with
      | nil =>
        cases h
        rfl
      | cons item items ih =>
        cases h with
        | cons first rest =>
          rw [List.mapM_cons, hread item List.mem_cons_self _ first,
            ih (fun i hi => hread i (List.mem_cons_of_mem _ hi)) rest]
          rfl
    change docs.mapM read >>= _ = _
    rw [hvalues]
    rfl

theorem read_of_arrayOf {items : List α} (h : arrayOf read d = .ok items) :
    ∀ item ∈ items, ∃ member, read member = .ok item := by
  obtain ⟨⟨docs, ending⟩, _, h⟩ := ok_of_bind h
  obtain ⟨values, hvalues, h⟩ := ok_of_bind h
  obtain ⟨_, _, h⟩ := ok_of_bind h
  cases h
  clear * - hvalues
  induction docs generalizing items with
  | nil =>
    cases hvalues
    simp
  | cons doc docs ih =>
    rw [List.mapM_cons] at hvalues
    obtain ⟨first, hfirst, hvalues⟩ := ok_of_bind hvalues
    obtain ⟨rest, hrest, hvalues⟩ := ok_of_bind hvalues
    cases hvalues
    exact List.forall_mem_cons.mpr ⟨⟨doc, hfirst⟩, ih hrest⟩

/-- The object with a field for each entry of a map. -/
def objectOf (toJson : α → Json) (m : KeyMap α) : Json :=
  .object (m.entries.map fun entry => (entry.1, toJson entry.2))

theorem mapOf_of_shows {toJson : α → Json} {m : KeyMap α} (hd : d.Shows (objectOf toJson m))
    (hread : ∀ entry ∈ m.entries, ∀ member : Document, member.Shows (toJson entry.2) →
      read member = .ok entry.2) : mapOf read d = .ok m := by
  have hkeys : (m.entries.map fun entry => (entry.1, toJson entry.2)).map Prod.fst =
      m.entries.map Prod.fst := by
    simp [Function.comp_def]
  have htakes : ∀ field ∈ m.entries.map fun entry => (entry.1, toJson entry.2),
      Takes (fun map key value => (read value).map (map.insert key)) m.keep field := by
    intro field hfield seen member _ hmember
    obtain ⟨entry, hentry, rfl⟩ := List.mem_map.mp hfield
    simp only [hread entry hentry member hmember, ← KeyMap.insert_keep hentry]
    rfl
  rw [mapOf, ← m.keep_empty, foldFields_of_shows hd (hkeys ▸ m.nodup_keys) htakes, hkeys,
    KeyMap.keep_eq_self]
  intro entry hentry
  exact List.mem_toFinset.mpr (List.mem_map_of_mem hentry)

theorem read_of_mapOf {m : KeyMap α} (h : mapOf read d = .ok m) :
    ∀ entry ∈ m.entries, ∃ member, read member = .ok entry.2 := by
  refine foldFields_invariant
    (fun m => ∀ entry ∈ m.entries, ∃ member, read member = .ok entry.2) (by simp [KeyMap.empty]) ?_ h
  intro state key member next hstate hnext entry hentry
  obtain ⟨value, hvalue, rfl⟩ := ok_of_map hnext
  rcases KeyMap.mem_entries_insert hentry with rfl | hentry
  · exact ⟨member, hvalue⟩
  · exact hstate entry hentry

end Readers

end Json.Document

end EvmSandbox
