import Mathlib.Computability.Language
import Mathlib.Data.List.TakeWhile
import Mathlib.Order.ConditionallyCompleteLattice.Basic
import TypeGraph.Proofs.Schema.Lexemes
/-!
The texts of each kind of lexeme, as a regular language. What is cut off a text is of its kind, and
no kind has a longer text at that place: the longest text is taken, and a keyword before a name.
-/

namespace TypeGraph.Schema

open scoped Computability

/-- The texts of one character, which satisfies `p`. -/
def oneOf (p : Char → Prop) : Language Char :=
  {w | ∃ c, p c ∧ w = [c]}

def Letter (c : Char) : Prop :=
  'a' ≤ c ∧ c ≤ 'z' ∨ 'A' ≤ c ∧ c ≤ 'Z'

def Digit (c : Char) : Prop :=
  '0' ≤ c ∧ c ≤ '9'

namespace Pattern

def word : Language Char :=
  oneOf (fun c => Letter c ∨ c = '_') * (oneOf fun c => Letter c ∨ Digit c ∨ c = '_')∗

def digits : Language Char :=
  oneOf Digit * (oneOf Digit)∗

def sign : Language Char :=
  1 + {['-']}

def integer : Language Char :=
  sign * digits

def float : Language Char :=
  sign * (digits * ({['.']} * digits))

/-- A character between the quotes of a string, with the backslash before it if there is one. -/
def quotable : Language Char :=
  oneOf (fun c => c ≠ '"' ∧ c ≠ '\\' ∧ c ≠ '\n') + {['\\']} * oneOf (· ≠ '\n')

def string : Language Char :=
  {['"']} * (quotable∗ * {['"']})

def blank : Language Char :=
  oneOf (fun c => c = ' ' ∨ c = '\t' ∨ c = '\r' ∨ c = '\n') *
    (oneOf fun c => c = ' ' ∨ c = '\t' ∨ c = '\r' ∨ c = '\n')∗

def comment : Language Char :=
  {['/', '/']} * (oneOf (· ≠ '\n'))∗

/-- The texts that begin with three slashes and no more. -/
def threeSlashes : Language Char :=
  {w | "///".toList <+: w ∧ ¬"////".toList <+: w}

end Pattern

def TokenKind.pattern : TokenKind → Language Char
  | leftBrace => {['{']}
  | rightBrace => {['}']}
  | leftBracket => {['[']}
  | rightBracket => {[']']}
  | leftParen => {['(']}
  | rightParen => {[')']}
  | colon => {[':']}
  | equals => {['=']}
  | star => {['*']}
  | dotDot => {['.', '.']}
  | dot => {['.']}
  | slash => {['/']}
  | atSign => {['@']}
  | comma => {[',']}
  | semicolon => {[';']}
  | packageKeyword => {"package".toList}
  | structKeyword => {"struct".toList}
  | enumKeyword => {"enum".toList}
  | aliasKeyword => {"alias".toList}
  | identifier => Pattern.word
  | string => Pattern.string
  | integer => Pattern.integer
  | float => Pattern.float
  | docComment => Pattern.comment ⊓ Pattern.threeSlashes
  | garbage => 0

def LexemeKind.pattern : LexemeKind → Language Char
  | token kind => kind.pattern
  | blank => Pattern.blank
  | comment => Pattern.comment - Pattern.threeSlashes
  | unreadable => 0

def TokenKind.isKeyword : TokenKind → Prop
  | packageKeyword | structKeyword | enumKeyword | aliasKeyword => True
  | _ => False

/-- Whether a text of the two kinds is one of the first kind. -/
def LexemeKind.Outranks (kind other : LexemeKind) : Prop :=
  kind = other ∨ ∃ k : TokenKind, kind = .token k ∧ k.isKeyword ∧ other = .token .identifier

section Languages

variable {c d : Char} {p : Char → Prop} {K L : Language Char} {v w cs q : List Char}

theorem mem_oneOf : w ∈ oneOf p ↔ ∃ c, p c ∧ w = [c] :=
  Iff.rfl

theorem mem_singleton : w ∈ ({v} : Language Char) ↔ w = v :=
  Iff.rfl

theorem cons_mem_oneOf_mul : c :: w ∈ oneOf p * L ↔ p c ∧ w ∈ L := by
  rw [Language.mem_mul]
  constructor
  · rintro ⟨a, ⟨d, hd, rfl⟩, b, hb, heq⟩
    obtain ⟨rfl, rfl⟩ := List.cons.inj heq
    exact ⟨hd, hb⟩
  · rintro ⟨hc, hw⟩
    exact ⟨[c], ⟨c, hc, rfl⟩, w, hw, rfl⟩

theorem cons_mem_singleton_mul : c :: w ∈ ({[d]} : Language Char) * L ↔ c = d ∧ w ∈ L := by
  rw [Language.mem_mul]
  constructor
  · rintro ⟨a, rfl, b, hb, heq⟩
    obtain ⟨rfl, rfl⟩ := List.cons.inj heq
    exact ⟨rfl, hb⟩
  · rintro ⟨rfl, hw⟩
    exact ⟨[c], rfl, w, hw, rfl⟩

theorem nil_not_mem_mul (hK : [] ∉ K) : [] ∉ K * L := by
  rintro ⟨a, ha, b, -, heq⟩
  obtain ⟨rfl, -⟩ := List.append_eq_nil_iff.mp heq
  exact hK ha

theorem nil_not_mem_oneOf : [] ∉ oneOf p := by
  rintro ⟨c, -, hc⟩
  cases hc

theorem append_mem_kstar (hv : v ∈ L) (hw : w ∈ L∗) : v ++ w ∈ L∗ := by
  obtain ⟨vs, rfl, hvs⟩ := Language.mem_kstar.mp hw
  exact ⟨v :: vs, rfl, List.forall_mem_cons.mpr ⟨hv, hvs⟩⟩

/-- Texts of a repetition are read from the front. -/
@[elab_as_elim]
theorem kstar_induction {motive : ∀ w, w ∈ L∗ → Prop} (nil : motive [] (Language.nil_mem_kstar L))
    (append : ∀ v (hv : v ∈ L) w (hw : w ∈ L∗), motive w hw →
      motive (v ++ w) (append_mem_kstar hv hw)) {w : List Char} (hw : w ∈ L∗) : motive w hw := by
  obtain ⟨vs, rfl, hvs⟩ := Language.mem_kstar.mp hw
  induction vs with
  | nil => exact nil
  | cons v vs ih =>
    obtain ⟨hv, hvs⟩ := List.forall_mem_cons.mp hvs
    have hrest : vs.flatten ∈ L∗ := ⟨vs, rfl, hvs⟩
    exact append v hv vs.flatten hrest (ih hvs hrest)

theorem mem_kstar_oneOf : w ∈ (oneOf p)∗ ↔ ∀ c ∈ w, p c := by
  constructor
  · intro hw
    induction hw using kstar_induction with
    | nil => exact List.forall_mem_nil _
    | append v hv w _ ih =>
      obtain ⟨c, hc, rfl⟩ := hv
      exact List.forall_mem_cons.mpr ⟨hc, ih⟩
  · intro hw
    induction w with
    | nil => exact Language.nil_mem_kstar _
    | cons c w ih =>
      obtain ⟨hc, hw⟩ := List.forall_mem_cons.mp hw
      exact append_mem_kstar (v := [c]) ⟨c, hc, rfl⟩ (ih hw)

end Languages

section Classes

variable {c : Char} {w : List Char}

theorem isAlpha_iff : c.isAlpha ↔ Letter c := by
  delta Char.isAlpha Char.isUpper Char.isLower
  simp only [Letter, Char.le_def, ge_iff_le, Bool.or_eq_true, Bool.and_eq_true, decide_eq_true_eq]
  exact Or.comm

theorem isDigit_iff : c.isDigit ↔ Digit c := by
  simp only [Char.isDigit, Digit, Char.le_def, ge_iff_le, Bool.and_eq_true, decide_eq_true_eq]

theorem isWordStart_iff : isWordStart c ↔ Letter c ∨ c = '_' := by
  simp only [isWordStart, Bool.or_eq_true, isAlpha_iff, beq_iff_eq]

theorem isWordPart_iff : isWordPart c ↔ Letter c ∨ Digit c ∨ c = '_' := by
  simp only [isWordPart, Char.isAlphanum, Bool.or_eq_true, isAlpha_iff, isDigit_iff, beq_iff_eq,
    or_assoc]

theorem isGap_iff : isGap c ↔ c = ' ' ∨ c = '\t' ∨ c = '\r' ∨ c = '\n' := by
  simp only [isGap, Bool.or_eq_true, beq_iff_eq, or_assoc]

theorem cons_mem_word : c :: w ∈ Pattern.word ↔ isWordStart c ∧ ∀ d ∈ w, isWordPart d := by
  simp only [Pattern.word, cons_mem_oneOf_mul, mem_kstar_oneOf, isWordStart_iff, isWordPart_iff]

theorem cons_mem_digits : c :: w ∈ Pattern.digits ↔ c.isDigit ∧ ∀ d ∈ w, d.isDigit := by
  simp only [Pattern.digits, cons_mem_oneOf_mul, mem_kstar_oneOf, isDigit_iff]

theorem cons_mem_blank : c :: w ∈ Pattern.blank ↔ isGap c ∧ ∀ d ∈ w, isGap d := by
  simp only [Pattern.blank, cons_mem_oneOf_mul, mem_kstar_oneOf, isGap_iff]

theorem cons_mem_comment :
    c :: w ∈ Pattern.comment ↔ c = '/' ∧ ∃ v, w = '/' :: v ∧ ∀ d ∈ v, d ≠ '\n' := by
  rw [Pattern.comment, Language.mem_mul]
  constructor
  · rintro ⟨a, rfl, v, hv, heq⟩
    obtain ⟨rfl, rfl⟩ := List.cons.inj heq
    exact ⟨rfl, v, rfl, mem_kstar_oneOf.mp hv⟩
  · rintro ⟨rfl, v, rfl, hv⟩
    exact ⟨['/', '/'], rfl, v, mem_kstar_oneOf.mpr hv, rfl⟩

end Classes

section Strings

variable {c : Char} {cs w : List Char} {n : Nat}

theorem mem_quotable : w ∈ Pattern.quotable ↔
    (∃ c, (c ≠ '"' ∧ c ≠ '\\' ∧ c ≠ '\n') ∧ w = [c]) ∨ ∃ c, c ≠ '\n' ∧ w = ['\\', c] := by
  rw [Pattern.quotable, Language.mem_add, mem_oneOf, Language.mem_mul]
  refine or_congr_right ⟨?_, ?_⟩
  · rintro ⟨-, rfl, -, ⟨c, hc, rfl⟩, rfl⟩
    exact ⟨c, hc, rfl⟩
  · rintro ⟨c, hc, rfl⟩
    exact ⟨['\\'], rfl, [c], ⟨c, hc, rfl⟩, rfl⟩

theorem closingQuote_of_mem (hw : w ∈ Pattern.quotable∗) (cs : List Char) :
    closingQuote (w ++ '"' :: cs) = some (w.length + 1) := by
  induction hw using kstar_induction with
  | nil => exact closingQuote_cons (by decide)
  | append v hv w _ ih =>
    rcases mem_quotable.mp hv with ⟨c, ⟨hquote, hslash, hfeed⟩, rfl⟩ | ⟨c, hfeed, rfl⟩
    · rw [List.append_assoc, List.singleton_append, closingQuote_cons hslash, if_neg hquote,
        if_neg hfeed, ih]
      rfl
    · show closingQuote ('\\' :: c :: (w ++ '"' :: cs)) = some (w.length + 2 + 1)
      rw [closingQuote_escape, if_neg hfeed, ih]
      rfl

theorem mem_of_closingQuote (h : closingQuote cs = some n) :
    ∃ w ∈ Pattern.quotable∗, ∃ ds, cs = w ++ '"' :: ds ∧ n = w.length + 1 := by
  fun_induction closingQuote cs generalizing n with
  | case1 | case3 | case4 | case5 => cases h
  | case2 ds => exact ⟨[], Language.nil_mem_kstar _, ds, rfl, (Option.some.inj h).symm⟩
  | case6 d es hfeed _ _ ih =>
    obtain ⟨m, hm, rfl⟩ := Option.map_eq_some_iff.mp h
    obtain ⟨w, hw, ds, rfl, rfl⟩ := ih hm
    have hv : ['\\', d] ∈ Pattern.quotable := mem_quotable.mpr (.inr ⟨d, hfeed, rfl⟩)
    exact ⟨_, append_mem_kstar hv hw, ds, rfl, rfl⟩
  | case7 c cs hquote hfeed hslash ih =>
    obtain ⟨m, hm, rfl⟩ := Option.map_eq_some_iff.mp h
    obtain ⟨w, hw, ds, rfl, rfl⟩ := ih hm
    have hv : [c] ∈ Pattern.quotable := mem_quotable.mpr (.inl ⟨c, ⟨hquote, hslash, hfeed⟩, rfl⟩)
    exact ⟨_, append_mem_kstar hv hw, ds, rfl, rfl⟩

/-- What is between the quotes of a string, and the closing one. -/
theorem cons_mem_string : c :: w ∈ Pattern.string ↔
    c = '"' ∧ ∃ v ∈ Pattern.quotable∗, w = v ++ ['"'] := by
  rw [Pattern.string, cons_mem_singleton_mul, Language.mem_mul]
  refine and_congr_right fun _ => ⟨?_, ?_⟩
  · rintro ⟨v, hv, -, rfl, rfl⟩
    exact ⟨v, hv, rfl⟩
  · rintro ⟨v, hv, rfl⟩
    exact ⟨v, hv, ['"'], rfl, rfl⟩

end Strings

section Numbers

variable {c : Char} {cs w : List Char}

theorem mem_sign_mul {L : Language Char} :
    w ∈ Pattern.sign * L ↔ w ∈ L ∨ ∃ v ∈ L, w = '-' :: v := by
  rw [Pattern.sign, add_mul, one_mul, Language.mem_add, Language.mem_mul]
  refine or_congr_right ⟨?_, ?_⟩
  · rintro ⟨-, rfl, v, hv, rfl⟩
    exact ⟨v, hv, rfl⟩
  · rintro ⟨v, hv, rfl⟩
    exact ⟨['-'], rfl, v, hv, rfl⟩

theorem nil_not_mem_sign_mul {L : Language Char} (hL : [] ∉ L) : [] ∉ Pattern.sign * L := by
  intro h
  rcases mem_sign_mul.mp h with h | ⟨v, -, h⟩
  · exact hL h
  · cases h

/-- The texts of a number of this kind, without a sign. -/
def unsigned : TokenKind → Language Char
  | .integer => Pattern.digits
  | .float => Pattern.digits * ({['.']} * Pattern.digits)
  | _ => 0

theorem cons_mem_unsigned_float : c :: w ∈ unsigned .float ↔ c.isDigit ∧ ∃ v d u,
    w = v ++ '.' :: d :: u ∧ (∀ e ∈ v, e.isDigit) ∧ d.isDigit ∧ ∀ e ∈ u, e.isDigit := by
  rw [unsigned, Language.mem_mul]
  constructor
  · rintro ⟨a, ha, b, hb, heq⟩
    cases a with
    | nil => exact absurd ha (nil_not_mem_mul nil_not_mem_oneOf)
    | cons a v =>
      obtain ⟨rfl, rfl⟩ := List.cons.inj heq
      obtain ⟨hc, hv⟩ := cons_mem_digits.mp ha
      cases b with
      | nil => exact absurd hb (nil_not_mem_mul (by rintro hc; cases hc))
      | cons b bs =>
        obtain ⟨rfl, hbs⟩ := cons_mem_singleton_mul.mp hb
        cases bs with
        | nil => exact absurd hbs (nil_not_mem_mul nil_not_mem_oneOf)
        | cons d u =>
          obtain ⟨hd, hu⟩ := cons_mem_digits.mp hbs
          exact ⟨hc, v, d, u, rfl, hv, hd, hu⟩
  · rintro ⟨hc, v, d, u, rfl, hv, hd, hu⟩
    exact ⟨c :: v, cons_mem_digits.mpr ⟨hc, hv⟩, '.' :: d :: u,
      cons_mem_singleton_mul.mpr ⟨rfl, cons_mem_digits.mpr ⟨hd, hu⟩⟩, rfl⟩

theorem le_run {p : Char → Bool} (hw : w <+: cs) (hp : ∀ c ∈ w, p c) : w.length ≤ run p cs := by
  obtain ⟨ds, rfl⟩ := hw
  rw [run, List.takeWhile_append_of_pos hp, List.length_append]
  omega

theorem nil_not_mem_unsigned (kind : TokenKind) : [] ∉ unsigned kind := by
  have hdigits : [] ∉ Pattern.digits := nil_not_mem_mul nil_not_mem_oneOf
  intro h
  match kind, h with
  | .integer, h => exact hdigits h
  | .float, h => exact nil_not_mem_mul hdigits h

/-- A point and a digit behind it go on with a number; nothing else does. -/
theorem fraction_cases (cs : List Char) :
    (∃ d ds, cs = '.' :: d :: ds ∧ d.isDigit ∧ fraction cs = (.float, 2 + run Char.isDigit ds)) ∨
      fraction cs = (.integer, 0) := by
  unfold fraction
  split
  · next d ds =>
    by_cases hd : d.isDigit
    · exact .inl ⟨d, ds, rfl, hd, if_pos hd⟩
    · exact .inr (if_neg hd)
  · exact .inr rfl

theorem number_mem (hc : c.isDigit) (cs : List Char) :
    ((number cs).1 = .integer ∨ (number cs).1 = .float) ∧
      c :: cs.take (number cs).2 ∈ unsigned (number cs).1 := by
  have hrun : ∀ d ∈ cs.takeWhile Char.isDigit, d.isDigit := fun d hd => List.mem_takeWhile_imp hd
  simp only [number]
  rcases fraction_cases (cs.drop (run Char.isDigit cs)) with ⟨d, ds, hdrop, hd, heq⟩ | heq
  · have htake : cs.take (run Char.isDigit cs + (2 + run Char.isDigit ds)) =
        cs.takeWhile Char.isDigit ++ '.' :: d :: ds.takeWhile Char.isDigit := by
      rw [List.take_add, hdrop, take_run, ← take_run Char.isDigit ds, Nat.add_comm 2]
      rfl
    rw [heq, htake]
    refine ⟨.inr rfl, cons_mem_unsigned_float.mpr ⟨hc, _, _, _, rfl, hrun, hd, ?_⟩⟩
    exact fun e he => List.mem_takeWhile_imp he
  · rw [heq, Nat.add_zero, take_run]
    exact ⟨.inl rfl, cons_mem_digits.mpr ⟨hc, hrun⟩⟩

theorem number_longest {kind : TokenKind} (h : c :: w ∈ unsigned kind) (hw : w <+: cs) :
    w.length ≤ (number cs).2 ∧ (w.length = (number cs).2 → (number cs).1 = kind) := by
  simp only [number]
  match kind, h with
  | .integer, h =>
    have hle := le_run hw (cons_mem_digits.mp h).2
    rcases fraction_cases (cs.drop (run Char.isDigit cs)) with ⟨d, ds, -, -, heq⟩ | heq
    · rw [heq]
      dsimp only
      exact ⟨by omega, by omega⟩
    · rw [heq]
      exact ⟨hle, fun _ => rfl⟩
  | .float, h =>
    obtain ⟨-, v, d, u, rfl, hv, hd, hu⟩ := cons_mem_unsigned_float.mp h
    obtain ⟨ds, rfl⟩ := hw
    have hrun : run Char.isDigit (v ++ '.' :: d :: u ++ ds) = v.length := by
      rw [List.append_assoc]
      exact run_append hv (by rintro - ⟨⟩; decide)
    have hfraction : fraction ((v ++ '.' :: d :: u ++ ds).drop v.length) =
        (.float, 2 + run Char.isDigit (u ++ ds)) := by
      rw [List.append_assoc, List.drop_left]
      exact if_pos hd
    have hle := le_run (List.prefix_append u ds) hu
    rw [hrun, hfraction, List.length_append, List.length_cons, List.length_cons]
    exact ⟨by dsimp only; omega, fun _ => rfl⟩

end Numbers

section Comments

variable {text : List Char}

theorem commentKind_of_threeSlashes (h : text ∈ Pattern.threeSlashes) :
    commentKind text = .token .docComment := by
  obtain ⟨hthree, hfour⟩ := h
  rw [commentKind, List.isPrefixOf_iff_prefix.mpr hthree,
    Bool.eq_false_iff.mpr fun h => hfour (List.isPrefixOf_iff_prefix.mp h)]
  rfl

theorem commentKind_of_not_threeSlashes (h : text ∉ Pattern.threeSlashes) :
    commentKind text = .comment := by
  refine if_neg fun hprefix => h ?_
  rw [Bool.and_eq_true, Bool.not_eq_true', Bool.eq_false_iff] at hprefix
  exact ⟨List.isPrefixOf_iff_prefix.mp hprefix.1,
    fun hfour => hprefix.2 (List.isPrefixOf_iff_prefix.mpr hfour)⟩

theorem mem_commentKind (h : text ∈ Pattern.comment) : text ∈ (commentKind text).pattern := by
  by_cases hslashes : text ∈ Pattern.threeSlashes
  · rw [commentKind_of_threeSlashes hslashes]
    exact ⟨h, hslashes⟩
  · rw [commentKind_of_not_threeSlashes hslashes]
    exact ⟨h, hslashes⟩

end Comments

section Words

variable {text : List Char} {kind : TokenKind}

/-- A word is of the kind of a keyword only if it is the keyword. -/
theorem mem_wordKind (h : text ∈ Pattern.word) : text ∈ (wordKind text).pattern := by
  unfold wordKind
  split
  · next hkeyword => exact hkeyword
  split
  · next hkeyword => exact hkeyword
  split
  · next hkeyword => exact hkeyword
  split
  · next hkeyword => exact hkeyword
  · exact h

theorem outranks_identifier (text : List Char) :
    LexemeKind.Outranks (.token (wordKind text)) (.token .identifier) := by
  unfold wordKind
  split
  · exact .inr ⟨_, rfl, trivial, rfl⟩
  split
  · exact .inr ⟨_, rfl, trivial, rfl⟩
  split
  · exact .inr ⟨_, rfl, trivial, rfl⟩
  split
  · exact .inr ⟨_, rfl, trivial, rfl⟩
  · exact .inl rfl

end Words

section Extent

variable {c : Char} {cs w : List Char} {kind : LexemeKind}

theorem mem_symbolKind {kind : TokenKind} (h : symbolKind c = some kind) : [c] ∈ kind.pattern := by
  have hkind : kind = (symbolKind c).getD .garbage := by rw [h, Option.getD_some]
  have hmem := mem_symbols h
  rw [hkind]
  clear hkind h
  fin_cases hmem <;> rfl

theorem pattern_of_number {kind : TokenKind} (h : kind = .integer ∨ kind = .float) :
    kind.pattern = Pattern.sign * unsigned kind := by
  rcases h with rfl | rfl
  · rfl
  · rfl

theorem mem_string_of_closingQuote {n : Nat} (h : closingQuote cs = some n) :
    '"' :: cs.take n ∈ Pattern.string := by
  obtain ⟨w, hw, ds, rfl, rfl⟩ := mem_of_closingQuote h
  have htake : (w ++ '"' :: ds).take (w.length + 1) = w ++ ['"'] := by
    rw [List.take_length_add_append]
    rfl
  rw [htake]
  exact cons_mem_string.mpr ⟨rfl, w, hw, rfl⟩

theorem mem_comment_of_head? (h : cs.head? = some '/') :
    '/' :: cs.takeWhile (· ≠ '\n') ∈ Pattern.comment := by
  obtain ⟨ds, rfl⟩ := List.head?_eq_some_iff.mp h
  refine cons_mem_comment.mpr ⟨rfl, ds.takeWhile (· ≠ '\n'), rfl, fun d hd => ?_⟩
  have hfeed := List.mem_takeWhile_imp hd
  exact of_decide_eq_true hfeed

/-- What is cut off is of its kind. -/
theorem mem_pattern (c : Char) (cs : List Char) (h : (extent c cs).1 ≠ .unreadable) :
    c :: cs.take (extent c cs).2 ∈ (extent c cs).1.pattern := by
  cases leading c with
  | gap hc =>
    rw [extent_gap hc, take_run]
    exact cons_mem_blank.mpr ⟨hc, fun d hd => List.mem_takeWhile_imp hd⟩
  | word hc =>
    rw [extent_word hc, take_run]
    exact mem_wordKind (cons_mem_word.mpr ⟨hc, fun d hd => List.mem_takeWhile_imp hd⟩)
  | digit hc =>
    rw [extent_digit hc]
    obtain ⟨hkind, hmem⟩ := number_mem hc cs
    show _ ∈ TokenKind.pattern _
    rw [pattern_of_number hkind]
    exact mem_sign_mul.mpr (.inl hmem)
  | minus =>
    cases cs with
    | nil => exact absurd rfl h
    | cons d ds =>
      by_cases hd : d.isDigit
      · rw [extent_minus, if_pos hd]
        obtain ⟨hkind, hmem⟩ := number_mem hd ds
        show _ ∈ TokenKind.pattern _
        rw [pattern_of_number hkind]
        exact mem_sign_mul.mpr (.inr ⟨_, hmem, rfl⟩)
      · rw [extent_minus, if_neg hd] at h
        exact absurd rfl h
  | dot =>
    rw [extent_dot]
    split
    · next hhead =>
      obtain ⟨ds, rfl⟩ := List.head?_eq_some_iff.mp hhead
      rfl
    · rfl
  | slash =>
    rw [extent_slash]
    split
    · next hhead =>
      rw [take_run]
      exact mem_commentKind (mem_comment_of_head? hhead)
    · rfl
  | quote =>
    rw [extent_quote] at h ⊢
    cases hquote : closingQuote cs with
    | none =>
      rw [hquote] at h
      exact absurd rfl h
    | some n => exact mem_string_of_closingQuote hquote
  | symbol kind hc =>
    rw [extent_symbol hc]
    exact mem_symbolKind hc
  | stray hc => exact absurd (congrArg Prod.fst (hc cs)) h

theorem nil_not_mem_pattern (kind : LexemeKind) : [] ∉ kind.pattern := by
  have hcomment : [] ∉ Pattern.comment := nil_not_mem_mul (List.cons_ne_nil _ _).symm
  intro h
  match kind, h with
  | .token .identifier, h => exact nil_not_mem_mul nil_not_mem_oneOf h
  | .token .string, h => exact nil_not_mem_mul (List.cons_ne_nil _ _).symm h
  | .token .integer, h => exact nil_not_mem_sign_mul (nil_not_mem_unsigned .integer) h
  | .token .float, h => exact nil_not_mem_sign_mul (nil_not_mem_unsigned .float) h
  | .token .docComment, h => exact hcomment h.1
  | .blank, h => exact nil_not_mem_mul nil_not_mem_oneOf h
  | .comment, h => exact hcomment h.1

/-- What is cut off at `c` is no shorter than this text behind `c`, and if it is no longer, it is of
this kind or of one that goes first. -/
structure Yields (c : Char) (cs w : List Char) (kind : LexemeKind) : Prop where
  readable : (extent c cs).1 ≠ .unreadable
  le : w.length ≤ (extent c cs).2
  outranks : w.length = (extent c cs).2 → (extent c cs).1.Outranks kind

theorem Yields.of_eq {k : LexemeKind} {n : Nat} (h : extent c cs = (k, n)) (hk : k ≠ .unreadable)
    (hle : w.length ≤ n) (houtranks : w.length = n → k.Outranks kind) : Yields c cs w kind := by
  constructor
  · rwa [h]
  · rwa [h]
  · rwa [h]

theorem yields_word (h : c :: w ∈ Pattern.word) (hw : w <+: cs)
    (houtranks : LexemeKind.Outranks (.token (wordKind (c :: w))) kind) : Yields c cs w kind := by
  obtain ⟨hc, hparts⟩ := cons_mem_word.mp h
  refine .of_eq (extent_word hc) LexemeKind.noConfusion (le_run hw hparts) fun heq => ?_
  rw [← take_run, ← heq, ← List.prefix_iff_eq_take.mp hw]
  exact houtranks

theorem yields_keyword {kind : TokenKind} (h : c :: w ∈ Pattern.word) (hw : w <+: cs)
    (hkind : wordKind (c :: w) = kind) : Yields c cs w (.token kind) :=
  yields_word h hw (.inl (congrArg LexemeKind.token hkind))

theorem yields_symbol {kind : TokenKind} (hc : symbolKind c = some kind) (h : w = []) :
    Yields c cs w (.token kind) :=
  .of_eq (extent_symbol hc) LexemeKind.noConfusion (h ▸ Nat.le_refl _) fun _ => .inl rfl

theorem isDigit_of_mem_unsigned {kind : TokenKind} (h : c :: w ∈ unsigned kind) : c.isDigit := by
  match kind, h with
  | .integer, h => exact (cons_mem_digits.mp h).1
  | .float, h => exact (cons_mem_unsigned_float.mp h).1

theorem yields_number {kind : TokenKind} (h : c :: w ∈ Pattern.sign * unsigned kind)
    (hw : w <+: cs) : Yields c cs w (.token kind) := by
  rcases mem_sign_mul.mp h with h | ⟨v, hv, heq⟩
  · obtain ⟨hle, hkind⟩ := number_longest h hw
    refine .of_eq (extent_digit (isDigit_of_mem_unsigned h)) LexemeKind.noConfusion hle ?_
    exact fun heq => .inl (congrArg LexemeKind.token (hkind heq))
  · obtain ⟨rfl, rfl⟩ := List.cons.inj heq
    obtain ⟨ds, rfl⟩ := hw
    cases w with
    | nil => exact absurd hv (nil_not_mem_unsigned kind)
    | cons d u =>
      have hextent : extent '-' (d :: (u ++ ds)) =
          (.token (number (u ++ ds)).1, (number (u ++ ds)).2 + 1) :=
        extent_minus.trans (if_pos (isDigit_of_mem_unsigned hv))
      obtain ⟨hle, hkind⟩ := number_longest hv (List.prefix_append u ds)
      refine .of_eq hextent LexemeKind.noConfusion (Nat.succ_le_succ hle) fun heq => ?_
      exact .inl (congrArg LexemeKind.token (hkind (Nat.succ.inj heq)))

theorem yields_dot (cs : List Char) : Yields '.' cs [] (.token .dot) := by
  by_cases hhead : cs.head? = some '.'
  · exact .of_eq (extent_dot.trans (if_pos hhead)) LexemeKind.noConfusion (Nat.zero_le 1) nofun
  · exact .of_eq (extent_dot.trans (if_neg hhead)) LexemeKind.noConfusion (Nat.le_refl 0)
      fun _ => .inl rfl

theorem yields_dotDot (hw : ['.'] <+: cs) : Yields '.' cs ['.'] (.token .dotDot) := by
  obtain ⟨ds, rfl⟩ := hw
  exact .of_eq (extent_dot.trans (if_pos rfl)) LexemeKind.noConfusion (Nat.le_refl 1)
    fun _ => .inl rfl

theorem commentKind_ne_unreadable (text : List Char) : commentKind text ≠ .unreadable := by
  unfold commentKind
  split <;> exact LexemeKind.noConfusion

theorem yields_slash (cs : List Char) : Yields '/' cs [] (.token .slash) := by
  by_cases hhead : cs.head? = some '/'
  · have hslash : ['/'] <+: cs := by
      obtain ⟨ds, rfl⟩ := List.head?_eq_some_iff.mp hhead
      exact List.prefix_append ['/'] ds
    have hle : 1 ≤ run (· ≠ '\n') cs := le_run hslash (List.forall_mem_singleton.mpr rfl)
    refine .of_eq (extent_slash.trans (if_pos hhead)) (commentKind_ne_unreadable _)
      (Nat.zero_le _) fun heq => ?_
    rw [List.length_nil] at heq
    omega
  · exact .of_eq (extent_slash.trans (if_neg hhead)) LexemeKind.noConfusion (Nat.le_refl 0)
      fun _ => .inl rfl

theorem yields_comment (h : c :: w ∈ Pattern.comment) (hw : w <+: cs)
    (hkind : commentKind (c :: w) = kind) : Yields c cs w kind := by
  obtain ⟨rfl, v, rfl, hv⟩ := cons_mem_comment.mp h
  have hhead : cs.head? = some '/' := by
    obtain ⟨ds, rfl⟩ := hw
    rfl
  have hfeed : ∀ d ∈ '/' :: v, decide (d ≠ '\n') := by
    intro d hd
    rcases List.mem_cons.mp hd with rfl | hd
    · decide
    · exact decide_eq_true (hv d hd)
  have hextent : extent '/' cs =
      (commentKind ('/' :: cs.takeWhile (· ≠ '\n')), run (· ≠ '\n') cs) :=
    extent_slash.trans (if_pos hhead)
  refine .of_eq hextent (commentKind_ne_unreadable _) (le_run hw hfeed) fun heq => ?_
  rw [← take_run, ← heq, ← List.prefix_iff_eq_take.mp hw, hkind]
  exact .inl rfl

theorem yields_string (h : c :: w ∈ Pattern.string) (hw : w <+: cs) :
    Yields c cs w (.token .string) := by
  obtain ⟨rfl, v, hv, rfl⟩ := cons_mem_string.mp h
  obtain ⟨ds, rfl⟩ := hw
  have hquote : closingQuote (v ++ ['"'] ++ ds) = some (v.length + 1) := by
    rw [List.append_assoc]
    exact closingQuote_of_mem hv ds
  have hlength : (v ++ ['"']).length = v.length + 1 := List.length_append
  have hextent : extent '"' (v ++ ['"'] ++ ds) = (.token .string, v.length + 1) := by
    rw [extent_quote, hquote]
    rfl
  exact .of_eq hextent LexemeKind.noConfusion (Nat.le_of_eq hlength) fun _ => .inl rfl

theorem yields_blank (h : c :: w ∈ Pattern.blank) (hw : w <+: cs) : Yields c cs w .blank := by
  obtain ⟨hc, hgap⟩ := cons_mem_blank.mp h
  exact .of_eq (extent_gap hc) LexemeKind.noConfusion (le_run hw hgap) fun _ => .inl rfl

/-- The longest text is cut off, whatever kinds there are of texts at the place. -/
theorem yields (h : c :: w ∈ kind.pattern) (hw : w <+: cs) : Yields c cs w kind := by
  match kind, h with
  | .token .leftBrace, h | .token .rightBrace, h | .token .leftBracket, h
  | .token .rightBracket, h | .token .leftParen, h | .token .rightParen, h | .token .colon, h
  | .token .equals, h | .token .star, h | .token .atSign, h | .token .comma, h
  | .token .semicolon, h =>
    obtain ⟨rfl, hnil⟩ := List.cons.inj h
    exact yields_symbol rfl hnil
  | .token .packageKeyword, h | .token .structKeyword, h | .token .enumKeyword, h
  | .token .aliasKeyword, h =>
    obtain ⟨rfl, rfl⟩ := List.cons.inj h
    exact yields_keyword (cons_mem_word.mpr ⟨rfl, List.all_eq_true.mp rfl⟩) hw rfl
  | .token .dot, h =>
    obtain ⟨rfl, rfl⟩ := List.cons.inj h
    exact yields_dot cs
  | .token .dotDot, h =>
    obtain ⟨rfl, rfl⟩ := List.cons.inj h
    exact yields_dotDot hw
  | .token .slash, h =>
    obtain ⟨rfl, rfl⟩ := List.cons.inj h
    exact yields_slash cs
  | .token .identifier, h => exact yields_word h hw (outranks_identifier _)
  | .token .string, h => exact yields_string h hw
  | .token .integer, h =>
    have hnumber : c :: w ∈ Pattern.sign * unsigned .integer := h
    exact yields_number hnumber hw
  | .token .float, h =>
    have hnumber : c :: w ∈ Pattern.sign * unsigned .float := h
    exact yields_number hnumber hw
  | .token .docComment, h => exact yields_comment h.1 hw (commentKind_of_threeSlashes h.2)
  | .blank, h => exact yields_blank h hw
  | .comment, h => exact yields_comment h.1 hw (commentKind_of_not_threeSlashes h.2)

end Extent

end TypeGraph.Schema
