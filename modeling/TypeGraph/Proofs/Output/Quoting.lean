import Mathlib.Tactic.SplitIfs
import TypeGraph.Output.TypeScript
/-!
Quoted text is read back by a reader of JSON strings that knows nothing of how it was written, and
two names are never written alike.
-/

namespace TypeGraph.Text.Quoted

/-! ### A reader of JSON strings -/

/-- The characters that stand for others behind a backslash. -/
def shortEscapes : List (Char × Char) :=
  [('"', '"'), ('\\', '\\'), ('/', '/'), ('b', Char.ofNat 8), ('f', Char.ofNat 12), ('n', '\n'),
    ('r', '\r'), ('t', '\t')]

/-- What a hexadecimal digit is worth, in upper or lower case. -/
def hexValue? (c : Char) : Option Nat :=
  if c.isDigit then some (c.toNat - '0'.toNat)
  else if 'a' ≤ c ∧ c ≤ 'f' then some (c.toNat - 'a'.toNat + 10)
  else if 'A' ≤ c ∧ c ≤ 'F' then some (c.toNat - 'A'.toNat + 10)
  else none

def hexNumber? (digits : List Char) : Option Nat :=
  digits.foldlM (fun n digit => (hexValue? digit).map (16 * n + ·)) 0

/-- What one plain character, or one escape, is: a character, or a unit of UTF-16. -/
inductive Piece
  | char (c : Char)
  | unit (n : Nat)
  deriving DecidableEq

/-- The pieces between the quotes. -/
def pieces? : List Char → Option (List Piece)
  | [] => some []
  | c :: cs =>
    if c = '\\' then
      match cs with
      | [] => none
      | d :: ds =>
        if d = 'u' then
          match ds with
          | d₁ :: d₂ :: d₃ :: d₄ :: rest =>
            (hexNumber? [d₁, d₂, d₃, d₄]).bind fun n => (pieces? rest).map (.unit n :: ·)
          | _ => none
        else (shortEscapes.lookup d).bind fun e => (pieces? ds).map (.char e :: ·)
    else if c = '"' ∨ c.toNat < 0x20 then none
    else (pieces? cs).map (.char c :: ·)

def isHighSurrogate (n : Nat) : Bool :=
  0xd800 ≤ n && n < 0xdc00

def isLowSurrogate (n : Nat) : Bool :=
  0xdc00 ≤ n && n < 0xe000

/-- The characters of the pieces. Two surrogates are one character; none may stand alone. -/
def join? : List Piece → Option (List Char)
  | [] => some []
  | .char c :: ps => (join? ps).map (c :: ·)
  | .unit n :: ps =>
    if isHighSurrogate n then
      match ps with
      | .unit m :: qs =>
        if isLowSurrogate m then
          (join? qs).map (Char.ofNat (0x10000 + (n - 0xd800) * 0x400 + (m - 0xdc00)) :: ·)
        else none
      | _ => none
    else if isLowSurrogate n then none
    else (join? ps).map (Char.ofNat n :: ·)

/-- The characters that stand between the quotes. -/
def chars? (cs : List Char) : Option (List Char) :=
  (pieces? cs).bind join?

/-- The text that a JSON string stands for. -/
def decode? (text : String) : Option String :=
  match text.toList with
  | [] => none
  | c :: cs =>
    if c = '"' ∧ cs.getLast? = some '"' then (chars? cs.dropLast).map String.ofList else none

/-! ### What is written between the quotes -/

/-- The ways in which a piece can be written: as itself, by a short escape, by four digits. -/
inductive Spells : Piece → List Char → Prop
  | plain {c : Char} (hc : 0x20 ≤ c.toNat) (hquote : c ≠ '"') (hslash : c ≠ '\\') :
    Spells (.char c) [c]
  | short {c d : Char} (h : shortEscapes.lookup d = some c) : Spells (.char c) ['\\', d]
  | unit {n : Nat} {d₁ d₂ d₃ d₄ : Char} (h : hexNumber? [d₁, d₂, d₃, d₄] = some n) :
    Spells (.unit n) ['\\', 'u', d₁, d₂, d₃, d₄]

/-- Piece after piece: each quote and each backslash belongs to an escape. -/
inductive Escaped : List Char → Prop
  | nil : Escaped []
  | append {p : Piece} {w cs : List Char} (hw : Spells p w) (h : Escaped cs) : Escaped (w ++ cs)

section Pieces

variable {p : Piece} {w cs : List Char}

theorem le_toNat_of_hexValue? {c : Char} (h : (hexValue? c).isSome) : 0x20 ≤ c.toNat := by
  unfold hexValue? at h
  split_ifs at h with hdigit hlower hupper
  · exact Nat.le_trans (by decide) (Char.isDigit_iff_toNat.mp hdigit).1
  · exact Nat.le_trans (by decide) (UInt32.le_iff_toNat_le.mp hlower.1)
  · exact Nat.le_trans (by decide) (UInt32.le_iff_toNat_le.mp hupper.1)
  · cases h

theorem le_toNat_of_hexNumber? {digits : List Char} {n m : Nat}
    (h : digits.foldlM (fun n digit => (hexValue? digit).map (16 * n + ·)) n = some m) :
    ∀ c ∈ digits, 0x20 ≤ c.toNat := by
  induction digits generalizing n with
  | nil => simp
  | cons digit digits ih =>
    rw [List.foldlM_cons] at h
    obtain ⟨k, hk, hrest⟩ := Option.bind_eq_some_iff.mp h
    obtain ⟨v, hv, -⟩ := Option.map_eq_some_iff.mp hk
    have hdigit : (hexValue? digit).isSome := by rw [hv, Option.isSome_some]
    exact List.forall_mem_cons.mpr ⟨le_toNat_of_hexValue? hdigit, ih hrest⟩

theorem mem_shortEscapes_of_lookup {c d : Char} (h : shortEscapes.lookup d = some c) :
    (d, c) ∈ shortEscapes := by
  obtain ⟨before, after, heq, -⟩ := List.lookup_eq_some_iff.mp h
  rw [heq]
  simp

theorem Spells.le_toNat (h : Spells p w) : ∀ c ∈ w, 0x20 ≤ c.toNat := by
  cases h with
  | plain hc => simpa using hc
  | short h =>
    have hall : ∀ e ∈ shortEscapes, 0x20 ≤ e.1.toNat := by decide
    have hd := hall _ (mem_shortEscapes_of_lookup h)
    simpa using hd
  | unit h =>
    have hdigits := le_toNat_of_hexNumber? h
    simp only [List.forall_mem_cons] at hdigits ⊢
    exact ⟨by decide, by decide, hdigits⟩

theorem Escaped.le_toNat (h : Escaped cs) : ∀ c ∈ cs, 0x20 ≤ c.toNat := by
  induction h with
  | nil => simp
  | append hw _ ih => exact List.forall_mem_append.mpr ⟨hw.le_toNat, ih⟩

theorem Spells.pieces?_append (h : Spells p w) (cs : List Char) :
    pieces? (w ++ cs) = (pieces? cs).map (p :: ·) := by
  cases h with
  | plain hc hquote hslash =>
    rw [List.singleton_append, pieces?.eq_def]
    simp only [hslash, hquote, Nat.not_lt.mpr hc, or_self, if_false]
  | short h =>
    have hall : ∀ e ∈ shortEscapes, e.1 ≠ 'u' := by decide
    have hu := hall _ (mem_shortEscapes_of_lookup h)
    rw [List.cons_append, List.singleton_append, pieces?.eq_def]
    simp only [if_true, if_neg hu, h, Option.bind_some]
  | unit h =>
    simp only [List.cons_append, List.nil_append, pieces?, if_true, h, Option.bind_some]

theorem hexNumber?_code (n : Nat) (h : n < 0x20) :
    hexNumber? ['0', '0', hexDigit (n / 16), hexDigit n] = some n := by
  have hall : ∀ n < 0x20, hexNumber? ['0', '0', hexDigit (n / 16), hexDigit n] = some n := by
    decide
  exact hall n h

/-- A character is written as one piece, which is that character. -/
theorem exists_piece (c : Char) : ∃ p, Spells p (escape c) ∧
    ∀ ps, join? (p :: ps) = (join? ps).map (c :: ·) := by
  unfold escape
  split_ifs with hquote hslash hfeed hreturn htab hback hform hcontrol
  · obtain rfl := hquote
    exact ⟨_, .short rfl, fun ps => by rw [join?]⟩
  · obtain rfl := hslash
    exact ⟨_, .short rfl, fun ps => by rw [join?]⟩
  · obtain rfl := hfeed
    exact ⟨_, .short rfl, fun ps => by rw [join?]⟩
  · obtain rfl := hreturn
    exact ⟨_, .short rfl, fun ps => by rw [join?]⟩
  · obtain rfl := htab
    exact ⟨_, .short rfl, fun ps => by rw [join?]⟩
  · rw [← Char.ofNat_toNat c, hback]
    exact ⟨_, .short rfl, fun ps => by rw [join?]⟩
  · rw [← Char.ofNat_toNat c, hform]
    exact ⟨_, .short rfl, fun ps => by rw [join?]⟩
  · refine ⟨.unit c.toNat, .unit (hexNumber?_code _ hcontrol), fun ps => ?_⟩
    -- A control character is far below the surrogates.
    have hhigh : isHighSurrogate c.toNat = false := by simp [isHighSurrogate]; omega
    have hlow : isLowSurrogate c.toNat = false := by simp [isLowSurrogate]; omega
    rw [join?.eq_def]
    simp only [hhigh, hlow, Bool.false_eq_true, if_false, Char.ofNat_toNat]
  · exact ⟨.char c, .plain (Nat.le_of_not_lt hcontrol) hquote hslash, fun ps => by rw [join?]⟩

end Pieces

section Quotes

theorem chars?_escape_append (c : Char) (cs : List Char) :
    chars? (escape c ++ cs) = (chars? cs).map (c :: ·) := by
  obtain ⟨p, hp, hjoin⟩ := exists_piece c
  rw [chars?, chars?, hp.pieces?_append]
  cases pieces? cs with
  | none => rfl
  | some ps => exact hjoin ps

theorem chars?_flatMap_escape (cs : List Char) : chars? (cs.flatMap escape) = some cs := by
  induction cs with
  | nil => rfl
  | cons c cs ih => rw [List.flatMap_cons, chars?_escape_append, ih, Option.map_some]

theorem escaped_flatMap_escape (cs : List Char) : Escaped (cs.flatMap escape) := by
  induction cs with
  | nil => exact .nil
  | cons c cs ih =>
    obtain ⟨p, hp, -⟩ := exists_piece c
    exact .append hp ih

theorem toList_quote (s : String) :
    (quote s).toList = '"' :: (s.toList.flatMap escape ++ ['"']) := by
  rw [quote, String.toList_ofList, encode]

theorem decode?_quote (s : String) : decode? (quote s) = some s := by
  simp only [decode?, toList_quote, List.getLast?_concat, and_self, if_true, List.dropLast_concat,
    chars?_flatMap_escape, Option.map_some, String.ofList_toList]

/-- The reader takes escapes that are never written: two surrogates are one character. -/
example : decode? "\"\\ud83D\\uDe00\\/\"" = some "😀/" ∧ decode? "\"\\ude00\"" = none := by
  decide +kernel

theorem le_toNat_of_mem_quote (s : String) : ∀ c ∈ (quote s).toList, 0x20 ≤ c.toNat := by
  have hinside := (escaped_flatMap_escape s.toList).le_toNat
  rw [toList_quote, List.forall_mem_cons, List.forall_mem_append]
  exact ⟨by decide, hinside, by simp⟩

end Quotes

end TypeGraph.Text.Quoted

namespace TypeGraph.Output.TypeScript

open Text.Quoted (decode? quote decode?_quote)

/-- The name that a property is written for: one without quotes is its own, any other is read. -/
def readName? (text : String) : Option String :=
  if isIdentifier text then some text else decode? text

/-- An identifier does not begin with a quote. -/
theorem not_isIdentifier_quote (s : String) : ¬isIdentifier (quote s) := by
  intro h
  obtain ⟨c, cs, hcs, hstart, -⟩ := isIdentifier_cases h
  rw [Text.Quoted.toList_quote, List.cons.injEq] at hcs
  rw [← hcs.1] at hstart
  exact absurd hstart (by decide)

theorem readName?_propertyName (name : String) : readName? (propertyName name) = some name := by
  unfold propertyName
  split
  · next h => rw [readName?, if_pos h]
  · rw [readName?, if_neg (not_isIdentifier_quote name), decode?_quote]

theorem propertyName_injective : Function.Injective propertyName := by
  intro a b hab
  have hread := readName?_propertyName a
  rw [hab, readName?_propertyName b] at hread
  exact (Option.some.inj hread).symm

/-- A quoted text is read back whole, between its quotes nothing but escapes has quotes,
backslashes or control characters, and a property is written for one name alone. -/
theorem names_and_values_survive_quoting :
    (∀ s : String,
      decode? (quote s) = some s ∧ decode? (literal (.string s)) = some s ∧
      (∀ c ∈ (quote s).toList, 0x20 ≤ c.toNat) ∧
      ∃ inside, (quote s).toList = '"' :: (inside ++ ['"']) ∧ Text.Quoted.Escaped inside) ∧
    (∀ name, readName? (propertyName name) = some name) ∧
    (∀ a b, propertyName a = propertyName b → a = b) ∧
    ∀ a b, isIdentifier a → propertyName a = a ∧ a ≠ quote b := by
  refine ⟨fun s => ?_, readName?_propertyName, propertyName_injective, fun a b ha => ?_⟩
  · have hread := decode?_quote s
    exact ⟨hread, hread, Text.Quoted.le_toNat_of_mem_quote s, _, Text.Quoted.toList_quote s,
      Text.Quoted.escaped_flatMap_escape s.toList⟩
  · refine ⟨if_pos ha, ?_⟩
    rintro rfl
    exact not_isIdentifier_quote b ha

/-- A text that looks like a quoted name is quoted once more. -/
theorem quoted_looks_survive_quoting :
    let s := "\"a\\n\"\x08\x01é"
    quote s = "\"\\\"a\\\\n\\\"\\b\\u0001é\"" ∧ decode? (quote s) = some s ∧
      (∀ c ∈ (quote s).toList, 0x20 ≤ c.toNat) ∧ readName? (propertyName s) = some s ∧
      isIdentifier "a" ∧ "a" ≠ quote "a" ∧ propertyName "\"a\"" ≠ propertyName "a" := by
  intro s
  obtain ⟨hvalues, hnames, hinjective, hbare⟩ := names_and_values_survive_quoting
  have hidentifier : isIdentifier "a" := by decide
  have hdiffer : propertyName "\"a\"" ≠ propertyName "a" :=
    fun heq => absurd (hinjective _ _ heq) (by decide)
  exact ⟨by decide +kernel, (hvalues s).1, (hvalues s).2.2.1, hnames s, hidentifier,
    (hbare "a" "a" hidentifier).2, hdiffer⟩

end TypeGraph.Output.TypeScript
