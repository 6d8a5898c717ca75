/-
What a text can hold. Whatever the text, the numbers of its document can be
held and its lists are marked where they are nested too deeply
(`Reader.limited_parse`). A value that is read from a document takes its
numbers and lists from the same places of the document (`Document.Carries`), so
it keeps to these limits too (`Document.within_of_carries`).

A value is read as it is written if its numbers are and it is not nested too
deeply (`Document.written_eq_ofJson`), and else its text does not carry it
(`Document.within_of_written`).
-/
import EvmSandbox.Proofs.JsonText
import EvmSandbox.Proofs.JsonValues

namespace EvmSandbox.Json

/-- All numbers are of one kind, and no more than `depth` lists are open at a time. -/
inductive Within (P : Number → Prop) : (depth : Nat) → Json → Prop where
  | null {depth : Nat} : Within P depth .null
  | bool {depth : Nat} (b : Bool) : Within P depth (.bool b)
  | number {depth : Nat} {n : Number} (h : P n) : Within P depth (.number n)
  | string {depth : Nat} (s : String) : Within P depth (.string s)
  | array {depth : Nat} {items : List Json} (h : ∀ item ∈ items, Within P depth item) :
    Within P (depth + 1) (.array items)
  | object {depth : Nat} {fields : List (String × Json)}
    (h : ∀ field ∈ fields, Within P depth field.2) : Within P (depth + 1) (.object fields)

section Within

variable {P Q : Number → Prop} {depth : Nat}

@[simp] theorem within_string (s : String) : Within P depth (.string s) := .string s

@[simp] theorem within_array {items : List Json} :
    Within P (depth + 1) (.array items) ↔ ∀ item ∈ items, item.Within P depth :=
  ⟨fun h => by cases h; assumption, .array⟩

@[simp] theorem within_object {fields : List (String × Json)} :
    Within P (depth + 1) (.object fields) ↔ ∀ field ∈ fields, field.2.Within P depth :=
  ⟨fun h => by cases h; assumption, .object⟩

theorem Within.imp {j : Json} (h : ∀ n, P n → Q n) (hj : j.Within P depth) : j.Within Q depth := by
  induction hj with
  | null => exact .null
  | bool b => exact .bool b
  | number hn => exact .number (h _ hn)
  | string s => exact .string s
  | array _ ih => exact .array ih
  | object _ ih => exact .object ih

theorem Within.and {j : Json} (hp : j.Within P depth) (hq : j.Within Q depth) :
    j.Within (fun n => P n ∧ Q n) depth := by
  induction hp with
  | null => exact .null
  | bool b => exact .bool b
  | number hn =>
    cases hq with
    | number hn' => exact .number ⟨hn, hn'⟩
  | string s => exact .string s
  | array _ ih => exact .array fun item hitem => ih item hitem (within_array.mp hq item hitem)
  | object _ ih =>
    exact .object fun field hfield => ih field hfield (within_object.mp hq field hfield)

end Within

/-! ## Documents of texts -/

namespace Document

/-- Numbers can be held, and of lists inside one another all but the first `depth` are marked as
nested too deeply. -/
inductive Limited : (depth : Nat) → Document → Prop where
  | null {depth : Nat} : Limited depth .null
  | bool {depth : Nat} (b : Bool) : Limited depth (.bool b)
  | number {depth : Nat} {value : Option Number} (h : ∀ n ∈ value, n.Held) :
    Limited depth (.number value)
  | string {depth : Nat} (value : Option String) : Limited depth (.string value)
  | array {depth : Nat} {items : List Document} {ending : Option Break}
    (h : ∀ item ∈ items, Limited depth item) : Limited (depth + 1) (.array false items ending)
  | deepArray {depth : Nat} {items : List Document} {ending : Option Break} :
    Limited depth (.array true items ending)
  | object {depth : Nat} {fields : List (Option String × Document)} {ending : Option Break}
    (h : ∀ field ∈ fields, Limited depth field.2) : Limited (depth + 1) (.object false fields ending)
  | deepObject {depth : Nat} {fields : List (Option String × Document)} {ending : Option Break} :
    Limited depth (.object true fields ending)
  | broken {depth : Nat} (fault : Break) : Limited depth (.broken fault)

end Document

/-- A number that is read can be held. -/
def Token.Held : Token → Prop
  | .number value => ∀ n ∈ value, n.Held
  | _ => True

namespace Lexer

theorem held_string (p : Pending) (cs : List Char) : (string p cs).1.Held := by
  fun_induction string p cs <;> trivial

theorem held_number (negative : Bool) (cs : List Char) : (number negative cs).1.Held := by
  rw [number]
  split
  · trivial
  · intro n hn
    exact Number.held_of_ofLexeme hn

theorem held_word {token : Token} (h : token.Held) (expected cs : List Char) :
    (word token expected cs).1.Held := by
  fun_induction word token expected cs <;> trivial

theorem held_token (cs : List Char) : (token cs).1.Held := by
  rw [token.eq_def]
  split
  case h_8 => exact held_string _ _
  case h_9 | h_10 | h_11 => exact held_word (by trivial) _ _
  case h_12 => exact held_number _ _
  case h_13 =>
    split
    · exact held_number _ _
    · trivial
  all_goals trivial

theorem held_scan {done : List Token} (hdone : ∀ t ∈ done, t.Held) (fuel : Nat) (cs : List Char) :
    ∀ t ∈ scan done fuel cs, t.Held := by
  induction fuel generalizing done cs with
  | zero => simpa [scan] using hdone
  | succ fuel ih =>
    have hcons : ∀ first : Token, first.Held → ∀ t ∈ first :: done, t.Held :=
      fun first hfirst => List.forall_mem_cons.mpr ⟨hfirst, hdone⟩
    rw [scan]
    split
    · simpa using hdone
    · rename_i c rest _
      split <;> rename_i htoken
      · exact fun t ht => hcons _ (by trivial) t (List.mem_reverse.mp ht)
      · exact fun t ht => hcons _ (by trivial) t (List.mem_reverse.mp ht)
      · have hfirst := held_token (c :: rest)
        rw [htoken] at hfirst
        exact ih (hcons _ hfirst) _

theorem held_tokens (text : String) : ∀ t ∈ tokens text, t.Held :=
  held_scan (by simp) _ _

end Lexer

namespace Reader

/-- What has been read of an open value inside `depth` others. -/
def Frame.Limited (depth : Nat) : Frame → Prop
  | .array deep items =>
    deep = decide (maxDepth ≤ depth) ∧ ∀ item ∈ items, item.Limited (maxDepth - (depth + 1))
  | .object deep fields _ =>
    deep = decide (maxDepth ≤ depth) ∧ ∀ field ∈ fields, field.2.Limited (maxDepth - (depth + 1))

/-- Every open value keeps to the limit of its place. -/
def FramesLimited : List Frame → Prop
  | [] => True
  | frame :: outer => frame.Limited outer.length ∧ FramesLimited outer

theorem Frame.Limited.add {depth : Nat} {frame : Frame} {value : Document}
    (h : frame.Limited depth) (hvalue : value.Limited (maxDepth - (depth + 1))) :
    (frame.add value).Limited depth := by
  cases frame with
  | array deep items => exact ⟨h.1, List.forall_mem_cons.mpr ⟨hvalue, h.2⟩⟩
  | object deep fields key => exact ⟨h.1, List.forall_mem_cons.mpr ⟨hvalue, h.2⟩⟩

theorem Frame.Limited.close {depth : Nat} {frame : Frame} (h : frame.Limited depth)
    (ending : Option Break) : (frame.close ending).Limited (maxDepth - depth) := by
  by_cases hdeep : maxDepth ≤ depth
  · cases frame with
    | array deep items =>
      cases h.1.trans (decide_eq_true hdeep)
      exact .deepArray
    | object deep fields key =>
      cases h.1.trans (decide_eq_true hdeep)
      exact .deepObject
  · have hroom : maxDepth - depth = maxDepth - (depth + 1) + 1 := by omega
    rw [hroom]
    cases frame with
    | array deep items =>
      cases h.1.trans (decide_eq_false hdeep)
      exact .array fun item hitem => h.2 item (List.mem_reverse.mp hitem)
    | object deep fields key =>
      cases h.1.trans (decide_eq_false hdeep)
      exact .object fun field hfield => h.2 field (List.mem_reverse.mp hfield)

theorem limited_unwind {frames : List Frame} (h : FramesLimited frames) {value : Document}
    (hvalue : value.Limited (maxDepth - frames.length)) (fault : Break) :
    (unwind frames value fault).Limited maxDepth := by
  induction frames generalizing value with
  | nil => exact hvalue
  | cons frame outer ih => exact ih h.2 ((h.1.add hvalue).close _)

theorem limited_breakValue {frames : List Frame} (h : FramesLimited frames) (fault : Break) :
    (breakValue frames fault).Limited maxDepth :=
  limited_unwind h (.broken fault) fault

theorem limited_breakMember {frames : List Frame} (h : FramesLimited frames) (fault : Break) :
    (breakMember frames fault).Limited maxDepth := by
  cases frames with
  | nil => exact .broken fault
  | cons frame outer => exact limited_unwind h.2 (h.1.close _) fault

/-- The invariant of reading: `depth` counts the open values, and all that has been read keeps to
the limits. -/
structure State.Limited (s : State) (depth : Nat) : Prop where
  frames : FramesLimited s.frames
  depth : depth = s.frames.length
  root : s.root.Limited maxDepth

theorem limited_deliver {frames : List Frame} (h : FramesLimited frames) {value : Document}
    (hvalue : value.Limited (maxDepth - frames.length)) :
    (deliver frames value).Limited frames.length := by
  cases frames with
  | nil => exact ⟨trivial, rfl, hvalue⟩
  | cons frame outer => exact ⟨⟨h.1.add hvalue, h.2⟩, rfl, .null⟩

theorem limited_opened {frames : List Frame} (h : FramesLimited frames) (object : Bool) :
    (opened frames frames.length object).Limited (frames.length + 1) := by
  cases object with
  | true => exact ⟨⟨⟨rfl, by simp⟩, h⟩, rfl, .null⟩
  | false => exact ⟨⟨⟨rfl, by simp⟩, h⟩, rfl, .null⟩

theorem limited_closeInnermost {frames : List Frame} (h : FramesLimited frames) :
    (closeInnermost frames).Limited (frames.length - 1) := by
  cases frames with
  | nil => exact ⟨trivial, rfl, .null⟩
  | cons frame outer => exact limited_deliver h.2 (h.1.close none)

/-- What a step comes to. -/
def StepLimited : Except Document (State × Nat) → Prop
  | .ok (next, depth) => next.Limited depth
  | .error document => document.Limited maxDepth

theorem limited_stepValue {s : State} {depth : Nat} (h : s.Limited depth) {token : Token}
    (htoken : token.Held) : StepLimited (stepValue s depth token) := by
  obtain ⟨hframes, rfl, hroot⟩ := h
  cases token
  case openArray => exact limited_opened hframes false
  case openObject => exact limited_opened hframes true
  case null => exact limited_deliver hframes .null
  case bool b => exact limited_deliver hframes (.bool b)
  case number n => exact limited_deliver hframes (.number htoken)
  case string text => exact limited_deliver hframes (.string text)
  all_goals exact limited_breakValue hframes _

theorem limited_stepKey {s : State} {depth : Nat} (h : s.Limited depth) (first : Bool)
    (token : Token) : StepLimited (stepKey s depth first token) := by
  rw [stepKey.eq_def]
  split
  · rename_i hframes
    obtain ⟨hlimited, rfl, hroot⟩ := h
    rw [hframes] at hlimited
    exact ⟨hlimited, by rw [hframes]; rfl, hroot⟩
  · exact limited_breakMember h.frames _
  · exact limited_breakMember h.frames _

theorem limited_stepComma {s : State} {depth : Nat} (h : s.Limited depth) (token : Token) :
    StepLimited (stepComma s depth token) := by
  have hclose : (closeInnermost s.frames).Limited (depth - 1) :=
    h.depth ▸ limited_closeInnermost h.frames
  rw [stepComma.eq_def]
  split
  · exact ⟨h.frames, h.depth, h.root⟩
  · exact hclose
  · exact ⟨h.frames, h.depth, h.root⟩
  · exact hclose
  · exact limited_breakMember h.frames _

theorem limited_step {s : State} {depth : Nat} (h : s.Limited depth) {token : Token}
    (htoken : token.Held) : StepLimited (step s depth token) := by
  have hclose : (closeInnermost s.frames).Limited (depth - 1) :=
    h.depth ▸ limited_closeInnermost h.frames
  rw [step.eq_def]
  split
  · exact hclose
  · exact limited_stepValue h htoken
  · exact limited_stepValue h htoken
  · exact hclose
  · exact limited_stepKey h true _
  · exact limited_stepKey h false _
  · exact ⟨h.frames, h.depth, h.root⟩
  · exact limited_breakValue h.frames _
  · exact limited_stepComma h _
  · exact h

theorem limited_finish {s : State} {depth : Nat} (h : s.Limited depth) :
    (finish s).Limited maxDepth := by
  rw [finish]
  split
  · exact h.root
  · exact limited_breakValue h.frames _
  · exact limited_breakValue h.frames _
  · exact limited_breakMember h.frames _
  · exact limited_breakMember h.frames _
  · exact limited_breakMember h.frames _
  · exact limited_breakMember h.frames _

theorem limited_run {s : State} {depth : Nat} (h : s.Limited depth) {tokens : List Token}
    (htokens : ∀ token ∈ tokens, token.Held) : (run s depth tokens).document.Limited maxDepth := by
  induction tokens generalizing s depth with
  | nil => exact limited_finish h
  | cons token rest ih =>
    rw [List.forall_mem_cons] at htokens
    have hstep := limited_step h htokens.1
    rw [run]
    split
    · exact h.root
    · split
      · rename_i hnext
        rw [hnext] at hstep
        exact ih hstep htokens.2
      · rename_i hdocument
        rw [hdocument] at hstep
        exact hstep

theorem limited_parse (text : String) : (parse text).document.Limited maxDepth :=
  limited_run (s := ⟨[], .value, .null⟩) ⟨trivial, rfl, .null⟩ (Lexer.held_tokens text)

end Reader

/-! ## Where values come from -/

/-- Neither a number nor a list. -/
def Plain : Json → Prop
  | .number _ => False
  | .array _ => False
  | .object _ => False
  | _ => True

theorem Plain.within {P : Number → Prop} {j : Json} (h : j.Plain) (depth : Nat) :
    j.Within P depth := by
  cases j with
  | null => exact .null
  | bool b => exact .bool b
  | number n => cases h
  | string s => exact .string s
  | array items => cases h
  | object fields => cases h

namespace Document

mutual

/-- Every number and every list of the value stands at the same place of the document. -/
inductive Carries : Document → Json → Prop where
  | plain {d : Document} {j : Json} (h : j.Plain) : Carries d j
  | number (n : Number) : Carries (.number (some n)) (.number n)
  | array {docs : List Document} {items : List Json} {ending : Option Break}
    (h : CarriesItems docs items) : Carries (.array false docs ending) (.array items)
  | object {docs : List (Option String × Document)} {fields : List (String × Json)}
    {ending : Option Break} (h : CarriesFields docs fields) :
    Carries (.object false docs ending) (.object fields)

inductive CarriesItems : List Document → List Json → Prop where
  | nil : CarriesItems [] []
  | cons {d : Document} {j : Json} {docs : List Document} {items : List Json} (first : Carries d j)
    (rest : CarriesItems docs items) : CarriesItems (d :: docs) (j :: items)

inductive CarriesFields : List (Option String × Document) → List (String × Json) → Prop where
  | nil {docs : List (Option String × Document)} : CarriesFields docs []
  | plain {key : String} {j : Json} {docs : List (Option String × Document)}
    {fields : List (String × Json)} (h : j.Plain) (rest : CarriesFields docs fields) :
    CarriesFields docs ((key, j) :: fields)
  | cons {key : String} {d : Document} {j : Json} {docs : List (Option String × Document)}
    {fields : List (String × Json)} (mem : (some key, d) ∈ docs) (first : Carries d j)
    (rest : CarriesFields docs fields) : CarriesFields docs ((key, j) :: fields)

end

/-- The field is plain, or some field with its key carries its value. -/
def CarriesField (docs : List (Option String × Document)) (field : String × Json) : Prop :=
  field.2.Plain ∨ ∃ d, (some field.1, d) ∈ docs ∧ Carries d field.2

theorem carriesFields_of_forall {docs : List (Option String × Document)}
    {fields : List (String × Json)} (h : ∀ field ∈ fields, CarriesField docs field) :
    CarriesFields docs fields := by
  induction fields with
  | nil => exact .nil
  | cons field fields ih =>
    obtain ⟨key, j⟩ := field
    rw [List.forall_mem_cons] at h
    rcases h.1 with hplain | ⟨d, hd, hcarries⟩
    · exact .plain hplain (ih h.2)
    · exact .cons hd hcarries (ih h.2)

mutual

theorem carries_of_value (d : Document) {j : Json} (h : d.value = .ok j) : Carries d j := by
  cases d with
  | null => cases h; exact .plain trivial
  | bool b => cases h; exact .plain trivial
  | number n =>
    cases n with
    | none => cases h
    | some n => cases h; exact .number n
  | string s =>
    cases s with
    | none => cases h
    | some s => cases h; exact .plain trivial
  | array deep docs ending =>
    cases deep with
    | true => cases h
    | false =>
      rw [value] at h
      obtain ⟨items, hitems, h⟩ := ok_of_bind h
      obtain ⟨_, _, h⟩ := ok_of_bind h
      cases h
      exact .array (carriesItems_of_valueItems docs hitems)
  | object deep docs ending =>
    cases deep with
    | true => cases h
    | false =>
      rw [value] at h
      obtain ⟨entries, hentries, h⟩ := ok_of_bind h
      obtain ⟨_, _, h⟩ := ok_of_bind h
      cases h
      exact .object (carriesFields_of_forall fun field hfield =>
        .inr (carries_of_valueFields docs hentries field (KeyMap.mem_of_mem_ofList hfield)))
  | broken b => cases h

theorem carriesItems_of_valueItems (docs : List Document) {items : List Json}
    (h : valueItems docs = .ok items) : CarriesItems docs items := by
  cases docs with
  | nil =>
    cases h
    exact .nil
  | cons d docs =>
    rw [valueItems] at h
    obtain ⟨first, hfirst, h⟩ := ok_of_bind h
    obtain ⟨rest, hrest, h⟩ := ok_of_bind h
    cases h
    exact .cons (carries_of_value d hfirst) (carriesItems_of_valueItems docs hrest)

theorem carries_of_valueFields (docs : List (Option String × Document))
    {fields : List (String × Json)} (h : valueFields docs = .ok fields) :
    ∀ field ∈ fields, ∃ d, (some field.1, d) ∈ docs ∧ Carries d field.2 := by
  cases docs with
  | nil =>
    cases h
    simp
  | cons member docs =>
    obtain ⟨key, d⟩ := member
    cases key with
    | none => cases h
    | some key =>
      rw [valueFields] at h
      obtain ⟨first, hfirst, h⟩ := ok_of_bind h
      obtain ⟨rest, hrest, h⟩ := ok_of_bind h
      cases h
      refine List.forall_mem_cons.mpr
        ⟨⟨d, by simp, carries_of_value d hfirst⟩, fun field hfield => ?_⟩
      obtain ⟨other, hother, hcarries⟩ := carries_of_valueFields docs hrest field hfield
      exact ⟨other, List.mem_cons_of_mem _ hother, hcarries⟩

end

section Readers

variable {α : Type} {read : Document → Except Fault α} {toJson : α → Json} {d : Document}

theorem carries_of_arrayOf (hread : ∀ member item, read member = .ok item →
      Carries member (toJson item)) {items : List α} (h : arrayOf read d = .ok items) :
    Carries d (.array (items.map toJson)) := by
  obtain ⟨⟨docs, ending⟩, hdocs, h⟩ := ok_of_bind h
  obtain ⟨values, hvalues, h⟩ := ok_of_bind h
  obtain ⟨_, _, h⟩ := ok_of_bind h
  cases h
  have hd : d = .array false docs ending := by
    cases d with
    | array deep docs ending => cases deep <;> cases hdocs; rfl
    | _ => cases hdocs
  subst hd
  refine .array ?_
  clear * - hvalues hread
  induction docs generalizing items with
  | nil =>
    cases hvalues
    exact .nil
  | cons doc docs ih =>
    rw [List.mapM_cons] at hvalues
    obtain ⟨first, hfirst, hvalues⟩ := ok_of_bind hvalues
    obtain ⟨rest, hrest, hvalues⟩ := ok_of_bind hvalues
    cases hvalues
    exact .cons (hread doc first hfirst) (ih hrest)

theorem carries_of_mapOf (hread : ∀ member item, read member = .ok item →
      Carries member (toJson item)) {m : KeyMap α} (h : mapOf read d = .ok m) :
    Carries d (objectOf toJson m) := by
  obtain ⟨docs, rfl, hinv⟩ := foldFields_fields h
  refine .object (carriesFields_of_forall (List.forall_mem_map.mpr ?_))
  refine hinv (fun m => ∀ entry ∈ m.entries, CarriesField docs (entry.1, toJson entry.2))
    (by simp [KeyMap.empty]) ?_
  intro state key member next hmember hstate hnext entry hentry
  obtain ⟨value, hvalue, rfl⟩ := ok_of_map hnext
  rcases KeyMap.mem_entries_insert hentry with rfl | hentry
  · exact .inr ⟨member, hmember, hread member value hvalue⟩
  · exact hstate entry hentry

end Readers

mutual

theorem within_of_carries (j : Json) {d : Document} {depth : Nat} (hd : d.Limited depth)
    (h : Carries d j) : j.Within Number.Held depth := by
  cases h with
  | plain hplain => exact hplain.within depth
  | number n =>
    cases hd with
    | number hn => exact .number (hn n rfl)
  | array hitems =>
    cases hd with
    | array hdocs => exact .array (within_of_carriesItems _ hdocs hitems)
  | object hfields =>
    cases hd with
    | object hdocs => exact .object (within_of_carriesFields _ hdocs hfields)

theorem within_of_carriesItems (items : List Json) {docs : List Document} {depth : Nat}
    (hdocs : ∀ d ∈ docs, d.Limited depth) (h : CarriesItems docs items) :
    ∀ item ∈ items, item.Within Number.Held depth := by
  cases h with
  | nil => simp
  | cons first rest =>
    rw [List.forall_mem_cons] at hdocs
    exact List.forall_mem_cons.mpr
      ⟨within_of_carries _ hdocs.1 first, within_of_carriesItems _ hdocs.2 rest⟩

theorem within_of_carriesFields (fields : List (String × Json))
    {docs : List (Option String × Document)} {depth : Nat}
    (hdocs : ∀ member ∈ docs, member.2.Limited depth) (h : CarriesFields docs fields) :
    ∀ field ∈ fields, field.2.Within Number.Held depth := by
  cases h with
  | nil => simp
  | plain hplain rest =>
    exact List.forall_mem_cons.mpr
      ⟨hplain.within depth, within_of_carriesFields _ hdocs rest⟩
  | cons mem first rest =>
    exact List.forall_mem_cons.mpr
      ⟨within_of_carries _ (hdocs _ mem) first, within_of_carriesFields _ hdocs rest⟩

end

end Document

/-! ## Values that are read as they are written -/

/-- No key comes twice in an object. -/
inductive Distinct : Json → Prop where
  | plain {j : Json} (h : j.Plain) : Distinct j
  | number (n : Number) : Distinct (.number n)
  | array {items : List Json} (h : ∀ item ∈ items, Distinct item) : Distinct (.array items)
  | object {fields : List (String × Json)} (keys : (fields.map Prod.fst).Nodup)
    (h : ∀ field ∈ fields, Distinct field.2) : Distinct (.object fields)

theorem Ordered.distinct {j : Json} (h : j.Ordered) : j.Distinct := by
  induction h with
  | null => exact .plain trivial
  | bool b => exact .plain trivial
  | number n => exact .number n
  | string s => exact .plain trivial
  | array _ ih => exact .array ih
  | @object fields sorted _ ih => exact .object (KeyMap.nodup_keys ⟨fields, sorted⟩) ih

namespace Document

theorem distinct_objectOf {α : Type} {toJson : α → Json} {m : KeyMap α}
    (h : ∀ entry ∈ m.entries, (toJson entry.2).Distinct) : (objectOf toJson m).Distinct := by
  refine .object ?_ (List.forall_mem_map.mpr h)
  rw [List.map_map]
  exact m.nodup_keys

theorem within_objectOf {α : Type} {toJson : α → Json} {m : KeyMap α} {P : Number → Prop}
    {depth : Nat} : (objectOf toJson m).Within P (depth + 1) ↔
      ∀ entry ∈ m.entries, (toJson entry.2).Within P depth := by
  rw [objectOf, within_object, List.forall_mem_map]

theorem ofNumber_eq_iff (n : Number) : ofNumber n = .number (some n) ↔ n.Survives := by
  simp only [ofNumber, Number.Survives, Number.reread?]
  cases n.lexeme? <;> simp

mutual

theorem written_eq_ofJson (j : Json) {depth : Nat}
    (h : j.Within Number.Survives (maxDepth - depth)) : written depth j = ofJson j := by
  generalize hroom : maxDepth - depth = room at h
  cases h with
  | null => rfl
  | bool b => rfl
  | number hn => exact (ofNumber_eq_iff _).mpr hn
  | string s => rfl
  | @array room items hitems =>
    have hdepth : maxDepth - (depth + 1) = room ∧ ¬maxDepth ≤ depth := by omega
    rw [written, ofJson, writtenItems_eq_ofItems items (hdepth.1 ▸ hitems),
      decide_eq_false hdepth.2]
  | @object room fields hfields =>
    have hdepth : maxDepth - (depth + 1) = room ∧ ¬maxDepth ≤ depth := by omega
    rw [written, ofJson, writtenFields_eq_ofFields fields (hdepth.1 ▸ hfields),
      decide_eq_false hdepth.2]

theorem writtenItems_eq_ofItems (items : List Json) {depth : Nat}
    (h : ∀ item ∈ items, item.Within Number.Survives (maxDepth - depth)) :
    writtenItems depth items = ofItems items := by
  cases items with
  | nil => rfl
  | cons item items =>
    rw [List.forall_mem_cons] at h
    rw [writtenItems, ofItems, written_eq_ofJson item h.1, writtenItems_eq_ofItems items h.2]

theorem writtenFields_eq_ofFields (fields : List (String × Json)) {depth : Nat}
    (h : ∀ field ∈ fields, field.2.Within Number.Survives (maxDepth - depth)) :
    writtenFields depth fields = ofFields fields := by
  cases fields with
  | nil => rfl
  | cons field fields =>
    obtain ⟨key, j⟩ := field
    rw [List.forall_mem_cons] at h
    rw [writtenFields, ofFields, written_eq_ofJson j h.1, writtenFields_eq_ofFields fields h.2]

end

theorem writtenFields_eq_map (depth : Nat) (fields : List (String × Json)) :
    writtenFields depth fields = fields.map fun field => (some field.1, written depth field.2) := by
  induction fields with
  | nil => rfl
  | cons field fields ih => rw [writtenFields, ih, List.map_cons]

/-- With distinct keys, only one document stands under the key of a field. -/
theorem eq_written_of_mem {fields : List (String × Json)} (hkeys : (fields.map Prod.fst).Nodup)
    {key : String} {j : Json} (hj : (key, j) ∈ fields) {depth : Nat} {d : Document}
    (hd : (some key, d) ∈ writtenFields depth fields) : d = written depth j := by
  rw [writtenFields_eq_map] at hd
  obtain ⟨field, hfield, heq⟩ := List.mem_map.mp hd
  simp only [Prod.mk.injEq, Option.some.injEq] at heq
  have hsame : field = (key, j) := List.inj_on_of_nodup_map hkeys hfield hj heq.1
  rw [← heq.2, hsame]

mutual

theorem within_of_written (j : Json) (hj : j.Distinct) {depth : Nat}
    (h : Carries (written depth j) j) : j.Within Number.Survives (maxDepth - depth) := by
  generalize hd : written depth j = d at h
  cases h with
  | plain hplain => exact hplain.within _
  | number n => exact .number ((ofNumber_eq_iff n).mp hd)
  | @array docs items ending hitems =>
    cases hj with
    | plain hplain => cases hplain
    | array hdistinct =>
      rw [written] at hd
      injection hd with hdeep hdocs
      subst hdocs
      have hroom : maxDepth - depth = maxDepth - (depth + 1) + 1 := by
        have := of_decide_eq_false hdeep
        omega
      rw [hroom]
      exact .array (within_of_writtenItems items hdistinct hitems)
  | @object docs fields ending hfields =>
    cases hj with
    | plain hplain => cases hplain
    | object hkeys hdistinct =>
      rw [written] at hd
      injection hd with hdeep hdocs
      subst hdocs
      have hroom : maxDepth - depth = maxDepth - (depth + 1) + 1 := by
        have := of_decide_eq_false hdeep
        omega
      rw [hroom]
      exact .object (within_of_writtenFields fields hkeys (fun _ => id) hdistinct hfields)

theorem within_of_writtenItems (items : List Json) (hitems : ∀ item ∈ items, item.Distinct)
    {depth : Nat} (h : CarriesItems (writtenItems depth items) items) :
    ∀ item ∈ items, item.Within Number.Survives (maxDepth - depth) := by
  cases items with
  | nil => simp
  | cons item items =>
    rw [List.forall_mem_cons] at hitems
    cases h with
    | cons first rest =>
      exact List.forall_mem_cons.mpr
        ⟨within_of_written item hitems.1 first, within_of_writtenItems items hitems.2 rest⟩

/-- The fields are some of `all`, whose keys are distinct. -/
theorem within_of_writtenFields (fields : List (String × Json)) {all : List (String × Json)}
    (hkeys : (all.map Prod.fst).Nodup) (hall : ∀ field ∈ fields, field ∈ all)
    (hfields : ∀ field ∈ fields, field.2.Distinct) {depth : Nat}
    (h : CarriesFields (writtenFields depth all) fields) :
    ∀ field ∈ fields, field.2.Within Number.Survives (maxDepth - depth) := by
  cases fields with
  | nil => simp
  | cons field fields =>
    obtain ⟨key, j⟩ := field
    rw [List.forall_mem_cons] at hall hfields
    cases h with
    | plain hplain rest =>
      exact List.forall_mem_cons.mpr
        ⟨hplain.within _, within_of_writtenFields fields hkeys hall.2 hfields.2 rest⟩
    | cons mem first rest =>
      rw [eq_written_of_mem hkeys hall.1 mem] at first
      exact List.forall_mem_cons.mpr ⟨within_of_written j hfields.1 first,
        within_of_writtenFields fields hkeys hall.2 hfields.2 rest⟩

end

end Document

end EvmSandbox.Json
