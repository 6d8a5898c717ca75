/-
JSON text that is written is read as it was meant. A value gives the same
tokens in either style (`Json.spells_render`), and from them comes the document
of the value, up to what becomes of its numbers and of values that are nested
too deeply (`Json.parse_render`).
-/
import Mathlib.Data.List.Forall2
import EvmSandbox.Json.Reader
import EvmSandbox.Json.Writer
import EvmSandbox.Proofs.JsonNumbers

namespace EvmSandbox.Json

open Number (Lexeme IsDigits)

/-- The token is none at which a scan stops. -/
def Token.Whole : Token → Prop
  | .broken _ => False
  | .brokenString _ => False
  | _ => True

namespace Lexer

/-! ## Texts and their tokens -/

/-- The tokens of a text, wherever a scan comes to it. -/
def Gives (cs : List Char) (tokens : List Token) : Prop :=
  ∀ (done : List Token) (fuel : Nat), cs.length ≤ fuel →
    scan done fuel cs = done.reverse ++ tokens

theorem gives_nil : Gives [] [] := by
  intro done fuel _
  cases fuel <;> simp [scan]

theorem Gives.space {cs : List Char} {tokens : List Token} (h : Gives cs tokens) {c : Char}
    (hc : isSpace c = true) : Gives (c :: cs) tokens := by
  intro done fuel hfuel
  rw [List.length_cons] at hfuel
  obtain ⟨fuel, rfl⟩ := Nat.exists_eq_add_one_of_ne_zero (Nat.ne_zero_of_lt hfuel)
  rw [← h done (fuel + 1) (by omega), scan, scan, List.dropWhile_cons_of_pos hc]

theorem Gives.spaces {cs : List Char} {tokens : List Token} (h : Gives cs tokens)
    {blank : List Char} (hblank : ∀ c ∈ blank, isSpace c = true) : Gives (blank ++ cs) tokens := by
  induction blank with
  | nil => exact h
  | cons c blank ih =>
    rw [List.forall_mem_cons] at hblank
    exact (ih hblank.2).space hblank.1

theorem Gives.next {rest : List Char} {tokens : List Token} (h : Gives rest tokens) {c : Char}
    {cs : List Char} {first : Token} (htoken : token (c :: cs) = (first, rest))
    (hspace : isSpace c = false) (hwhole : first.Whole) (hsuffix : rest <:+ cs) :
    Gives (c :: cs) (first :: tokens) := by
  intro done fuel hfuel
  rw [List.length_cons] at hfuel
  obtain ⟨fuel, rfl⟩ := Nat.exists_eq_add_one_of_ne_zero (Nat.ne_zero_of_lt hfuel)
  have hrest := h (first :: done) fuel (by have := hsuffix.length_le; omega)
  rw [scan, List.dropWhile_cons_of_neg (by simp [hspace])]
  simp only [htoken]
  cases first
  case broken => cases hwhole
  case brokenString => cases hwhole
  all_goals simpa using hrest

/-! ## Strings -/

theorem Pending.push_of_high {p : Pending} (h : p.high = none) (c : Char) :
    p.push c = { p with chars := c :: p.chars } := by
  simp [Pending.push, Pending.endPair, h]

/-- Control characters are escaped by four digits. -/
theorem unit?_control : ∀ n < 0x20,
    List.replicate (4 - (Text.hexDigits n).length) '0' ++ Text.hexDigits n =
      ['0', '0', Nat.digitChar (n / 16), Nat.digitChar (n % 16)] ∧
    unit? '0' '0' (Nat.digitChar (n / 16)) (Nat.digitChar (n % 16)) = some n := by
  decide

theorem Pending.pushUnit_of_lt {p : Pending} {n : Nat} (h : n < 0x20) :
    p.pushUnit n = p.push (Char.ofNat n) := by
  rw [Pending.pushUnit, if_neg (by simp; omega), if_neg (by simp; omega)]

/-- What a character becomes: one letter, four digits or itself. -/
theorem escapeChar_cases (c : Char) :
    (∃ letter, escapeChar c = ['\\', letter] ∧ escaped? letter = some c) ∨
    (c.toNat < 0x20 ∧ escapeChar c =
      ['\\', 'u', '0', '0', Nat.digitChar (c.toNat / 16), Nat.digitChar (c.toNat % 16)]) ∨
    (escapeChar c = [c] ∧ c ≠ '"' ∧ c ≠ '\\' ∧ 0x20 ≤ c.toNat) := by
  simp only [escapeChar, beq_iff_eq]
  -- the characters that have a letter of their own
  iterate 7
    split
    · rename_i heq
      subst heq
      exact .inl ⟨_, rfl, rfl⟩
  split
  · rename_i hcontrol
    refine .inr (.inl ⟨hcontrol, ?_⟩)
    rw [List.append_assoc, (unit?_control c.toNat hcontrol).1]
    rfl
  · exact .inr (.inr ⟨rfl, by assumption, by assumption, by omega⟩)

theorem string_letter (p : Pending) {letter c : Char} (h : escaped? letter = some c)
    (rest : List Char) : string p ('\\' :: letter :: rest) = string (p.push c) rest := by
  have hletter : letter ≠ 'u' := by
    rintro rfl
    cases h
  rw [string.eq_def]
  split <;> grind

theorem string_plain (p : Pending) {c : Char} (hquote : c ≠ '"') (hslash : c ≠ '\\')
    (hcontrol : 0x20 ≤ c.toNat) (rest : List Char) :
    string p (c :: rest) = string (p.push c) rest := by
  rw [string.eq_def]
  split <;> grind

theorem string_escapeChar (p : Pending) (c : Char) (rest : List Char) :
    string p (escapeChar c ++ rest) = string (p.push c) rest := by
  rcases escapeChar_cases c with ⟨letter, heq, hletter⟩ | ⟨hcontrol, heq⟩ | ⟨heq, hplain⟩
  · rw [heq]
    exact string_letter p hletter rest
  · rw [heq]
    simp only [List.cons_append, List.nil_append, string, (unit?_control _ hcontrol).2,
      Pending.pushUnit_of_lt hcontrol, Char.ofNat_toNat]
  · rw [heq]
    exact string_plain p hplain.1 hplain.2.1 hplain.2.2 rest

theorem string_quoted (cs rest : List Char) {p : Pending} (hp : p.high = none)
    (hread : p.readable = true) :
    string p (cs.flatMap escapeChar ++ '"' :: rest) =
      (.string (some (String.ofList (p.chars.reverse ++ cs))), rest) := by
  induction cs generalizing p with
  | nil => simp [string, Pending.finished, Pending.endPair, hp, hread]
  | cons c cs ih =>
    rw [List.flatMap_cons, List.append_assoc, string_escapeChar, Pending.push_of_high hp,
      ih (p := { p with chars := c :: p.chars }) hp hread]
    simp

theorem Gives.text {rest : List Char} {tokens : List Token} (h : Gives rest tokens)
    (s : String) : Gives (quoted s ++ rest) (.string (some s) :: tokens) := by
  have hstring : string {} (s.toList.flatMap escapeChar ++ '"' :: rest) =
      (.string (some s), rest) := by
    rw [string_quoted _ _ rfl rfl]
    simp
  have hquoted : quoted s ++ rest = '"' :: (s.toList.flatMap escapeChar ++ '"' :: rest) := by
    simp [quoted]
  rw [hquoted]
  exact h.next hstring rfl trivial ⟨_, List.append_assoc _ ['"'] rest⟩

/-! ## Numbers -/

/-- A number ends here: nothing follows that could belong to it. -/
def Ends (rest : List Char) : Prop :=
  ∀ c ∈ rest.head?, isDigit c = false ∧ c ≠ '.' ∧ c ≠ 'e' ∧ c ≠ 'E'

theorem isDigit_digitChar : ∀ digit < 10, isDigit (Nat.digitChar digit) = true := by
  decide

theorem digits_append {ds rest : List Char} (hds : ∀ c ∈ ds, isDigit c = true)
    (hrest : ∀ c ∈ rest.head?, isDigit c = false) :
    digits (ds ++ rest) = (ds.map fun c => c.toNat - 0x30, rest) := by
  have hnone : rest.takeWhile isDigit = [] ∧ rest.dropWhile isDigit = rest := by
    cases rest with
    | nil => exact ⟨rfl, rfl⟩
    | cons c rest => simp [hrest c rfl]
  rw [digits, List.takeWhile_append_of_pos hds, List.dropWhile_append_of_pos hds, hnone.1, hnone.2,
    List.append_nil]

theorem digits_text {ds : List Nat} (hds : ∀ digit ∈ ds, digit < 10) {rest : List Char}
    (hrest : ∀ c ∈ rest.head?, isDigit c = false) :
    digits (ds.map Nat.digitChar ++ rest) = (ds, rest) := by
  have hmap : (ds.map Nat.digitChar).map (fun c => c.toNat - 0x30) = ds := by
    rw [List.map_map]
    refine (List.map_congr_left fun digit hdigit => ?_).trans (List.map_id ds)
    exact Nat.toNat_digitChar_sub_48_of_lt_ten (hds digit hdigit)
  have hchars : ∀ c ∈ ds.map Nat.digitChar, isDigit c = true :=
    List.forall_mem_map.mpr fun digit hdigit => isDigit_digitChar digit (hds digit hdigit)
  rw [digits_append hchars hrest, hmap]

theorem whole_text {ds : List Nat} (hds : IsDigits ds) (hleading : ds.head? = some 0 → ds = [0])
    {rest : List Char} (hrest : ∀ c ∈ rest.head?, isDigit c = false) :
    whole (ds.map Nat.digitChar ++ rest) = .ok (ds, rest) := by
  have hne := hds.ne_nil
  rw [whole, digits_text hds.lt_ten hrest]
  split <;> simp_all

theorem fraction_text {f : Option (List Nat)} (hf : ∀ ds ∈ f, IsDigits ds) {rest : List Char}
    (hrest : ∀ c ∈ rest.head?, isDigit c = false ∧ c ≠ '.') :
    fraction (Lexeme.fractionText f ++ rest) = .ok (f, rest) := by
  cases f with
  | none =>
    rw [Lexeme.fractionText, List.nil_append, fraction.eq_def]
    split
    · exact absurd rfl (hrest '.' rfl).2
    · rfl
  | some ds =>
    have hne := (hf ds rfl).ne_nil
    simp only [Lexeme.fractionText, List.cons_append, fraction,
      digits_text (hf ds rfl).lt_ten fun c hc => (hrest c hc).1]

theorem exponent_text {e : Option (Bool × List Nat)} (he : ∀ x ∈ e, IsDigits x.2)
    {rest : List Char} (hrest : Ends rest) :
    exponent (Lexeme.exponentText e ++ rest) = .ok (e, rest) := by
  cases e with
  | none =>
    cases rest with
    | nil => rfl
    | cons c rest =>
      obtain ⟨_, _, hlower, hupper⟩ := hrest c rfl
      simp [Lexeme.exponentText, exponent, hlower, hupper]
  | some x =>
    obtain ⟨below, ds⟩ := x
    have hne := (he _ rfl).ne_nil
    have hdigits := digits_text (he _ rfl).lt_ten fun c hc => (hrest c hc).1
    cases below <;> simp [Lexeme.exponentText, exponent, hdigits]

theorem number_text {lexeme : Lexeme} (h : lexeme.WellFormed) {rest : List Char}
    (hrest : Ends rest) :
    number lexeme.negative (lexeme.unsignedText ++ rest) =
      (.number (Number.ofLexeme lexeme), rest) := by
  have hexponent : ∀ c ∈ (Lexeme.exponentText lexeme.exponent ++ rest).head?,
      isDigit c = false ∧ c ≠ '.' := by
    intro c hc
    cases he : lexeme.exponent with
    | none =>
      rw [he] at hc
      exact ⟨(hrest c hc).1, (hrest c hc).2.1⟩
    | some x =>
      rw [he] at hc
      cases hc
      decide
  have hfraction : ∀ c ∈ (Lexeme.fractionText lexeme.fraction ++
      (Lexeme.exponentText lexeme.exponent ++ rest)).head?, isDigit c = false := by
    intro c hc
    cases hf : lexeme.fraction with
    | none =>
      rw [hf] at hc
      exact (hexponent c hc).1
    | some ds =>
      rw [hf] at hc
      cases hc
      decide
  rw [Lexeme.unsignedText, List.append_assoc, List.append_assoc, number,
    whole_text h.whole h.leading hfraction]
  simp only [bind, Except.bind, fraction_text h.fraction hexponent, exponent_text h.exponent hrest]
  rfl

theorem token_digit {c : Char} (hc : isDigit c = true) (cs : List Char) :
    token (c :: cs) = number false (c :: cs) := by
  rw [token.eq_def]
  split <;> simp_all +decide

theorem isSpace_digit {c : Char} (hc : isDigit c = true) : isSpace c = false := by
  cases hspace : isSpace c with
  | false => rfl
  | true =>
    simp only [isSpace, Bool.or_eq_true, beq_iff_eq] at hspace
    rcases hspace with ((rfl | rfl) | rfl) | rfl <;> cases hc

theorem Gives.number {rest : List Char} {tokens : List Token} (h : Gives rest tokens)
    (hrest : Ends rest) {lexeme : Lexeme} (hl : lexeme.WellFormed) :
    Gives (lexeme.text ++ rest) (.number (Number.ofLexeme lexeme) :: tokens) := by
  have hnumber := number_text hl hrest
  rw [Lexeme.text]
  cases hnegative : lexeme.negative with
  | true =>
    rw [hnegative] at hnumber
    exact h.next hnumber rfl trivial (List.suffix_append _ _)
  | false =>
    obtain ⟨first, others, hwhole⟩ := List.exists_cons_of_ne_nil hl.whole.ne_nil
    have hfirst : isDigit (Nat.digitChar first) = true :=
      isDigit_digitChar first (hl.whole.lt_ten first (by simp [hwhole]))
    have htext : lexeme.unsignedText ++ rest = Nat.digitChar first ::
        (others.map Nat.digitChar ++ Lexeme.fractionText lexeme.fraction ++
          Lexeme.exponentText lexeme.exponent ++ rest) := by
      simp [Lexeme.unsignedText, hwhole]
    rw [hnegative, htext, ← token_digit hfirst] at hnumber
    rw [if_neg (by simp), htext]
    exact h.next hnumber (isSpace_digit hfirst) trivial (List.suffix_append _ _)

/-! ## Values -/

/-- The text gives the tokens, whatever follows, if a number can end there. -/
def Spells (cs : List Char) (tokens : List Token) : Prop :=
  ∀ (rest : List Char) (more : List Token), Ends rest → Gives rest more →
    Gives (cs ++ rest) (tokens ++ more)

theorem isSpace_lineBreak (style : Style) (depth : Nat) :
    ∀ c ∈ style.lineBreak depth, isSpace c = true := by
  cases style with
  | oneLine => simp [Style.lineBreak]
  | indented =>
    refine List.forall_mem_cons.mpr ⟨rfl, fun c hc => ?_⟩
    rw [List.eq_of_mem_replicate hc]
    rfl

/-- A character that is a token by itself and ends a number before it. -/
structure Mark (c : Char) (first : Token) : Prop where
  token : ∀ cs, Lexer.token (c :: cs) = (first, cs)
  whole : first.Whole
  space : isSpace c = false
  ends : isDigit c = false ∧ c ≠ '.' ∧ c ≠ 'e' ∧ c ≠ 'E'

theorem mark_openArray : Mark '[' .openArray := ⟨fun _ => rfl, trivial, rfl, by decide⟩

theorem mark_closeArray : Mark ']' .closeArray := ⟨fun _ => rfl, trivial, rfl, by decide⟩

theorem mark_openObject : Mark '\x7b' .openObject := ⟨fun _ => rfl, trivial, rfl, by decide⟩

theorem mark_closeObject : Mark '\x7d' .closeObject := ⟨fun _ => rfl, trivial, rfl, by decide⟩

theorem mark_comma : Mark ',' .comma := ⟨fun _ => rfl, trivial, rfl, by decide⟩

theorem mark_colon : Mark ':' .colon := ⟨fun _ => rfl, trivial, rfl, by decide⟩

theorem Mark.gives {c : Char} {first : Token} (hc : Mark c first) {rest : List Char}
    {tokens : List Token} (h : Gives rest tokens) : Gives (c :: rest) (first :: tokens) :=
  h.next (hc.token rest) hc.space hc.whole (List.suffix_refl rest)

theorem Mark.ends_cons {c : Char} {first : Token} (hc : Mark c first) (rest : List Char) :
    Ends (c :: rest) := by
  rintro _ ⟨⟩
  exact hc.ends

theorem ends_lineBreak (style : Style) (depth : Nat) {rest : List Char} (h : Ends rest) :
    Ends (style.lineBreak depth ++ rest) := by
  cases style with
  | oneLine => exact h
  | indented =>
    rintro _ ⟨⟩
    decide

/-- Members with commas between them, each on a line of its own. -/
theorem gives_members (style : Style) (depth : Nat) {members : List (List Char)}
    {tokens : List (List Token)} (h : List.Forall₂ Spells members tokens) (hne : members ≠ [])
    {rest : List Char} {more : List Token} (hends : Ends rest) (hrest : Gives rest more) :
    Gives ([','].intercalate (members.map fun member => style.lineBreak depth ++ member) ++ rest)
      ([Token.comma].intercalate tokens ++ more) := by
  induction h with
  | nil => exact absurd rfl hne
  | @cons member token members tokens hmember hmembers ih =>
    cases hmembers with
    | nil =>
      simp only [List.map_cons, List.map_nil, List.intercalate_singleton, List.append_assoc]
      exact (hmember rest more hends hrest).spaces (isSpace_lineBreak style depth)
    | cons hsecond hothers =>
      have hothers := mark_comma.gives (ih (by simp))
      simp only [List.map_cons, List.intercalate_cons_cons, List.append_assoc] at hothers ⊢
      refine Gives.spaces ?_ (isSpace_lineBreak style depth)
      exact hmember _ _ (mark_comma.ends_cons _) hothers

theorem spells_block (style : Style) (depth : Nat) {opening closing : Char} {first last : Token}
    (hopening : Mark opening first) (hclosing : Mark closing last)
    {members : List (List Char)} {tokens : List (List Token)}
    (h : List.Forall₂ Spells members tokens) :
    Spells (style.block depth opening closing members)
      (first :: [Token.comma].intercalate tokens ++ [last]) := by
  intro rest more _ hrest
  have hclose := hclosing.gives hrest
  rw [Style.block]
  split
  · rename_i hempty
    cases List.isEmpty_iff.mp hempty
    cases h
    exact hopening.gives hclose
  · rename_i hne
    have hend := hclose.spaces (isSpace_lineBreak style depth)
    have hmembers := gives_members style (depth + 1) h (by simpa using hne)
      (ends_lineBreak style depth (hclosing.ends_cons rest)) hend
    simpa using hopening.gives hmembers

end Lexer

/-- The token of a number as it is read from its text. -/
def Number.token (n : Number) : Token :=
  match n.lexeme? with
  | none => .null
  | some lexeme => .number (ofLexeme lexeme)

mutual

/-- The tokens of a value. -/
def tokens : Json → List Token
  | .null => [.null]
  | .bool b => [.bool b]
  | .number n => [n.token]
  | .string s => [.string (some s)]
  | .array items => .openArray :: [Token.comma].intercalate (itemTokens items) ++ [.closeArray]
  | .object fields =>
    .openObject :: [Token.comma].intercalate (fieldTokens fields) ++ [.closeObject]

def itemTokens : List Json → List (List Token)
  | [] => []
  | item :: items => item.tokens :: itemTokens items

def fieldTokens : List (String × Json) → List (List Token)
  | [] => []
  | (key, value) :: fields => (.string (some key) :: .colon :: value.tokens) :: fieldTokens fields

end

theorem spells_number (n : Number) : Lexer.Spells n.text.toList [n.token] := by
  intro rest more hends hrest
  rw [Number.text, Number.token]
  cases hlexeme : n.lexeme? with
  | none => exact hrest.next (c := 'n') rfl rfl trivial ⟨['u', 'l', 'l'], rfl⟩
  | some lexeme =>
    simpa using hrest.number hends (Number.wellFormed_of_lexeme? hlexeme)

theorem spells_field (style : Style) (key : String) {cs : List Char} {ts : List Token}
    (h : Lexer.Spells cs ts) :
    Lexer.Spells (quoted key ++ style.colon ++ cs) (.string (some key) :: .colon :: ts) := by
  intro rest more hends hrest
  have hvalue := h rest more hends hrest
  have hcolon : Lexer.Gives (style.colon ++ (cs ++ rest)) (.colon :: (ts ++ more)) := by
    cases style with
    | oneLine => exact Lexer.mark_colon.gives hvalue
    | indented => exact Lexer.mark_colon.gives (hvalue.space rfl)
  simpa using hcolon.text key

mutual

theorem spells_render (style : Style) (depth : Nat) (j : Json) :
    Lexer.Spells (j.render style depth) j.tokens := by
  cases j with
  | null =>
    intro rest more _ hrest
    exact hrest.next (c := 'n') rfl rfl trivial ⟨['u', 'l', 'l'], rfl⟩
  | bool b =>
    intro rest more _ hrest
    cases b with
    | true => exact hrest.next (c := 't') rfl rfl trivial ⟨['r', 'u', 'e'], rfl⟩
    | false => exact hrest.next (c := 'f') rfl rfl trivial ⟨['a', 'l', 's', 'e'], rfl⟩
  | number n => exact spells_number n
  | string s =>
    intro rest more _ hrest
    exact hrest.text s
  | array items =>
    exact Lexer.spells_block style depth Lexer.mark_openArray Lexer.mark_closeArray
      (spells_renderItems style (depth + 1) items)
  | object fields =>
    exact Lexer.spells_block style depth Lexer.mark_openObject Lexer.mark_closeObject
      (spells_renderFields style (depth + 1) fields)

theorem spells_renderItems (style : Style) (depth : Nat) (items : List Json) :
    List.Forall₂ Lexer.Spells (renderItems style depth items) (itemTokens items) := by
  cases items with
  | nil => exact .nil
  | cons item items =>
    exact .cons (spells_render style depth item) (spells_renderItems style depth items)

theorem spells_renderFields (style : Style) (depth : Nat) (fields : List (String × Json)) :
    List.Forall₂ Lexer.Spells (renderFields style depth fields) (fieldTokens fields) := by
  cases fields with
  | nil => exact .nil
  | cons field fields =>
    obtain ⟨key, value⟩ := field
    exact .cons (spells_field style key (spells_render style depth value))
      (spells_renderFields style depth fields)

end

theorem tokens_render (style : Style) (depth : Nat) (j : Json) :
    Lexer.tokens (String.ofList (j.render style depth)) = j.tokens := by
  have hgives := spells_render style depth j [] [] (by rintro _ ⟨⟩) Lexer.gives_nil
  rw [List.append_nil, List.append_nil] at hgives
  rw [Lexer.tokens, String.toList_ofList]
  exact hgives [] _ (Nat.le_refl _)

/-! ## From tokens to documents -/

namespace Document

/-- The document that the text of a number is read as. -/
def ofNumber (n : Number) : Document :=
  match n.lexeme? with
  | none => .null
  | some lexeme => .number (Number.ofLexeme lexeme)

mutual

/-- The document that the text of a value is read as, inside `depth` others. -/
def written (depth : Nat) : Json → Document
  | .null => .null
  | .bool b => .bool b
  | .number n => ofNumber n
  | .string s => .string (some s)
  | .array items => .array (maxDepth ≤ depth) (writtenItems (depth + 1) items) none
  | .object fields => .object (maxDepth ≤ depth) (writtenFields (depth + 1) fields) none

def writtenItems (depth : Nat) : List Json → List Document
  | [] => []
  | item :: items => written depth item :: writtenItems depth items

def writtenFields (depth : Nat) : List (String × Json) → List (Option String × Document)
  | [] => []
  | (key, value) :: fields => (some key, written depth value) :: writtenFields depth fields

end

end Document

namespace Reader

open Document (written writtenItems writtenFields)

theorem run_cons {s next : State} {depth after : Nat} {token : Token} {rest : List Token}
    (hopen : s.expected ≠ .nothing) (h : step s depth token = .ok (next, after)) :
    run s depth (token :: rest) = run next after rest := by
  rw [run, h]
  split
  · rename_i hnothing
    exact absurd hnothing hopen
  · rfl

/-- A token with which a value begins, where one may begin. -/
theorem run_value {frames : List Frame} {expected : Expected}
    (hexpected : expected = .value ∨ expected = .firstItem) {root : Document} {depth after : Nat}
    {token : Token} {next : State}
    (h : stepValue ⟨frames, expected, root⟩ depth token = .ok (next, after)) (rest : List Token) :
    run ⟨frames, expected, root⟩ depth (token :: rest) = run next after rest := by
  refine run_cons ?_ ?_
  · rintro rfl
    rcases hexpected with h | h <;> cases h
  · rcases hexpected with rfl | rfl
    · exact h
    · cases token
      case closeArray => cases h
      all_goals exact h

/-- A key, a colon and what follows them. -/
theorem run_key {expected : Expected} (hexpected : expected = .key ∨ expected = .firstKey)
    (deep : Bool) (fields : List (Option String × Document)) (pending : Option String)
    (outer : List Frame) (root : Document) (depth : Nat) (key : String) (rest : List Token) :
    run ⟨.object deep fields pending :: outer, expected, root⟩ depth
        (.string (some key) :: .colon :: rest) =
      run ⟨.object deep fields (some key) :: outer, .value, root⟩ depth rest := by
  rcases hexpected with rfl | rfl <;> rfl

theorem run_closeArray (deep : Bool) (items : List Document) (outer : List Frame)
    (root : Document) (depth : Nat) (rest : List Token) :
    run ⟨.array deep items :: outer, .comma, root⟩ (depth + 1) (.closeArray :: rest) =
      run (deliver outer (.array deep items.reverse none)) depth rest := rfl

theorem run_closeObject (deep : Bool) (fields : List (Option String × Document))
    (pending : Option String) (outer : List Frame) (root : Document) (depth : Nat)
    (rest : List Token) :
    run ⟨.object deep fields pending :: outer, .comma, root⟩ (depth + 1) (.closeObject :: rest) =
      run (deliver outer (.object deep fields.reverse none)) depth rest := rfl

mutual

theorem run_tokens (j : Json) (frames : List Frame) {expected : Expected}
    (hexpected : expected = .value ∨ expected = .firstItem) (root : Document) (depth : Nat)
    (more : List Token) :
    run ⟨frames, expected, root⟩ depth (j.tokens ++ more) =
      run (deliver frames (written depth j)) depth more := by
  cases j with
  | null => exact run_value hexpected rfl more
  | bool b => exact run_value hexpected rfl more
  | number n =>
    simp only [Json.tokens, Number.token, written, Document.ofNumber]
    cases n.lexeme? with
    | none => exact run_value hexpected rfl more
    | some lexeme => exact run_value hexpected rfl more
  | string s => exact run_value hexpected rfl more
  | array items =>
    simp only [Json.tokens, List.cons_append, List.append_assoc]
    rw [run_value hexpected rfl]
    cases items with
    | nil => rfl
    | cons item items =>
      rw [opened, if_neg (by simp), run_items (item :: items) (by simp) _ _ _ (.inr rfl),
        List.append_nil]
      exact (run_closeArray _ _ _ _ _ _).trans (by rw [List.reverse_reverse, written]; rfl)
  | object fields =>
    simp only [Json.tokens, List.cons_append, List.append_assoc]
    rw [run_value hexpected rfl]
    cases fields with
    | nil => rfl
    | cons field fields =>
      rw [opened, if_pos rfl, run_fields (field :: fields) (by simp) _ _ _ _ (.inr rfl),
        List.append_nil]
      exact (run_closeObject _ _ _ _ _ _ _).trans (by rw [List.reverse_reverse, written]; rfl)

theorem run_items (items : List Json) (hne : items ≠ []) (deep : Bool) (before : List Document)
    (outer : List Frame) {expected : Expected}
    (hexpected : expected = .value ∨ expected = .firstItem) (root : Document) (depth : Nat)
    (more : List Token) :
    run ⟨.array deep before :: outer, expected, root⟩ depth
        ([Token.comma].intercalate (itemTokens items) ++ more) =
      run ⟨.array deep ((writtenItems depth items).reverse ++ before) :: outer, .comma, .null⟩
        depth more := by
  cases items with
  | nil => exact absurd rfl hne
  | cons item items =>
    cases items with
    | nil =>
      rw [itemTokens, itemTokens, List.intercalate_singleton, run_tokens item _ hexpected]
      rfl
    | cons second items =>
      have hrest := run_items (second :: items) (by simp) deep (written depth item :: before) outer
        (.inl rfl) .null depth more
      rw [itemTokens, itemTokens, List.intercalate_cons_cons, List.append_assoc, List.append_assoc,
        run_tokens item _ hexpected]
      refine hrest.trans ?_
      simp [writtenItems]

theorem run_fields (fields : List (String × Json)) (hne : fields ≠ []) (deep : Bool)
    (before : List (Option String × Document)) (pending : Option String) (outer : List Frame)
    {expected : Expected} (hexpected : expected = .key ∨ expected = .firstKey) (root : Document)
    (depth : Nat) (more : List Token) :
    run ⟨.object deep before pending :: outer, expected, root⟩ depth
        ([Token.comma].intercalate (fieldTokens fields) ++ more) =
      run ⟨.object deep ((writtenFields depth fields).reverse ++ before) none :: outer, .comma,
        .null⟩ depth more := by
  cases fields with
  | nil => exact absurd rfl hne
  | cons field fields =>
    obtain ⟨key, value⟩ := field
    cases fields with
    | nil =>
      rw [fieldTokens, fieldTokens, List.intercalate_singleton, List.cons_append, List.cons_append,
        run_key hexpected, run_tokens value _ (.inl rfl)]
      rfl
    | cons second fields =>
      have hrest := run_fields (second :: fields) (by simp) deep
        ((some key, written depth value) :: before) none outer (.inl rfl) .null depth more
      rw [fieldTokens, fieldTokens, List.intercalate_cons_cons, List.append_assoc,
        List.append_assoc, List.cons_append, List.cons_append, run_key hexpected,
        run_tokens value _ (.inl rfl)]
      refine hrest.trans ?_
      simp [writtenFields]

end

end Reader

/-- The text of a value, in either style, is read as its document and nothing else follows. -/
theorem parse_render (style : Style) (depth : Nat) (j : Json) :
    Reader.parse (String.ofList (j.render style depth)) = ⟨.written 0 j, false⟩ := by
  have hrun := Reader.run_tokens j [] (.inl rfl) .null 0 []
  rw [List.append_nil] at hrun
  rw [Reader.parse, tokens_render, hrun]
  rfl

end EvmSandbox.Json
