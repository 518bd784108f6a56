import Mathlib.Tactic.FinCases
import TypeGraph.Proofs.Schema.Printing
/-!
The lexer reads printed text as the words that were printed.
-/

namespace TypeGraph.Schema

/-- What a lexeme says, if it is a token. -/
def Lexeme.word? (l : Lexeme) : Option Word :=
  (l.token? 0).map Token.word

/-- Characters that are cut into readable lexemes, which say these words. -/
structure Spells (cs : List Char) (ws : List Word) : Prop where
  readable : ∀ l ∈ lexemes cs, l.kind ≠ .unreadable
  words : (lexemes cs).filterMap Lexeme.word? = ws

section Lexemes

variable {c : Char} {cs more rest : List Char} {ws : List Word} {w : Word}
variable {kind : TokenKind} {lexemeKind : LexemeKind} {n : Nat}

theorem lexemes_cons (h : extent c cs = (lexemeKind, n)) :
    lexemes (c :: cs) = ⟨lexemeKind, c :: cs.take n⟩ :: lexemes (cs.drop n) := by
  rw [lexemes, h]

theorem Spells.nil : Spells [] [] := by
  constructor
  · rw [lexemes]
    simp
  · rw [lexemes]
    rfl

theorem Spells.token (more : List Char) (kind : TokenKind)
    (hext : extent c (more ++ rest) = (.token kind, more.length))
    (hw : (⟨kind, String.ofList (c :: more), default⟩ : Token).word = w) (h : Spells rest ws) :
    Spells (c :: (more ++ rest)) (w :: ws) := by
  have hcons := lexemes_cons hext
  rw [List.take_left, List.drop_left] at hcons
  constructor
  · rw [hcons]
    exact List.forall_mem_cons.mpr ⟨by simp, h.readable⟩
  · rw [hcons, List.filterMap_cons_some (b := w), h.words]
    rw [← hw]
    rfl

theorem extent_gap (hc : isGap c) : extent c cs = (.blank, run isGap cs) := by
  unfold extent
  rw [if_pos hc]

theorem Spells.gap (hc : isGap c) (h : Spells rest ws) : Spells (c :: rest) ws := by
  have hcons := lexemes_cons (extent_gap hc : extent c rest = _)
  -- further blanks belong to the same lexeme
  have htail : lexemes (rest.drop (run isGap rest)) = lexemes rest ∨
      ∃ l, l.kind = .blank ∧ lexemes rest = l :: lexemes (rest.drop (run isGap rest)) := by
    cases rest with
    | nil => exact .inl rfl
    | cons d ds =>
      by_cases hd : isGap d
      · have hrun : run isGap (d :: ds) = run isGap ds + 1 := by simp [run, hd]
        refine .inr ⟨⟨.blank, d :: ds.take (run isGap ds)⟩, rfl, ?_⟩
        rw [hrun, List.drop_succ_cons]
        exact lexemes_cons (extent_gap hd)
      · have hrun : run isGap (d :: ds) = 0 := by simp [run, hd]
        rw [hrun, List.drop_zero]
        exact .inl rfl
  constructor
  · rw [hcons]
    refine List.forall_mem_cons.mpr ⟨by simp, ?_⟩
    rcases htail with heq | ⟨l, -, heq⟩
    · exact heq ▸ h.readable
    · exact fun l' hl => h.readable l' (heq ▸ List.mem_cons_of_mem _ hl)
  · rw [hcons, List.filterMap_cons_none rfl, ← h.words]
    rcases htail with heq | ⟨l, hl, heq⟩
    · rw [heq]
    · rw [heq, List.filterMap_cons_none]
      rw [Lexeme.word?, Lexeme.token?, hl]
      rfl

theorem Spells.gaps (hmore : ∀ c ∈ more, isGap c) (h : Spells rest ws) :
    Spells (more ++ rest) ws := by
  induction more with
  | nil => exact h
  | cons c more ih =>
    have hall := List.forall_mem_cons.mp hmore
    exact .gap hall.1 (ih hall.2)

theorem Spells.indent (depth : Nat) (h : Spells rest ws) :
    Spells (Schema.indent depth ++ rest) ws := by
  apply h.gaps
  intro c hc
  rw [List.eq_of_mem_replicate hc]
  rfl

theorem run_append {p : Char → Bool} (hmore : ∀ c ∈ more, p c) (hrest : ∀ c ∈ rest.head?, ¬p c) :
    run p (more ++ rest) = more.length := by
  induction more with
  | nil =>
    cases rest with
    | nil => rfl
    | cons c rest =>
      have hc : ¬p c := hrest c rfl
      simp [run, hc]
  | cons c more ih =>
    have hall := List.forall_mem_cons.mp hmore
    have hrun := ih hall.2
    rw [run] at hrun ⊢
    simp [hall.1, hrun]

/-- A word ends before this text. -/
def Boundary (cs : List Char) : Prop :=
  ∀ c ∈ cs.head?, ¬isWordPart c

theorem not_gap_of_wordStart (hc : isWordStart c) : ¬isGap c := by
  intro hgap
  simp only [isGap, Bool.or_eq_true, beq_iff_eq] at hgap
  rcases hgap with ((rfl | rfl) | rfl) | rfl <;> exact absurd hc (by decide)

theorem Spells.word {text : String} (htext : Wordlike text) (hrest : Boundary rest)
    (h : Spells rest ws) :
    Spells (text.toList ++ rest) (Token.word ⟨wordKind text.toList, text, default⟩ :: ws) := by
  obtain ⟨c, cs, htext, hstart, hparts⟩ := htext
  have hrun : run isWordPart (cs ++ rest) = cs.length := run_append hparts hrest
  have hword : String.ofList (c :: cs) = text := by rw [← htext, String.ofList_toList]
  rw [htext]
  refine h.token cs (wordKind (c :: cs)) ?_ (by rw [hword])
  unfold extent
  rw [if_neg (not_gap_of_wordStart hstart), if_pos hstart, hrun]
  simp only [List.take_left]

theorem Spells.identifier {name : String} (hname : Identifier name) (hrest : Boundary rest)
    (h : Spells rest ws) : Spells (name.toList ++ rest) (.name name :: ws) := by
  have hword := h.word hname.wordlike hrest
  rw [hname.kind] at hword
  exact hword

theorem Spells.keyword {text : String} (kind : TokenKind) (htext : Wordlike text)
    (hkind : wordKind text.toList = kind)
    (hw : ∀ text span, (⟨kind, text, span⟩ : Token).word = .mark kind) (hrest : Boundary rest)
    (h : Spells rest ws) : Spells (text.toList ++ rest) (.mark kind :: ws) := by
  have hword := h.word htext hrest
  rw [hkind, hw] at hword
  exact hword

theorem wordlike_keywords : Wordlike "package" ∧ Wordlike "struct" ∧ Wordlike "enum" ∧
    Wordlike "alias" := by
  decide +kernel

theorem identifier_keyword (kind : Scalar) : Identifier kind.keyword := by
  cases kind <;> decide +kernel

theorem mem_symbols (hc : symbolKind c = some kind) :
    c ∈ ['{', '}', '[', ']', '(', ')', ':', '=', '*', '@', ',', ';'] := by
  by_contra hno
  simp only [List.mem_cons, List.not_mem_nil, or_false, not_or] at hno
  simp [symbolKind, hno] at hc

theorem extent_symbol (hc : symbolKind c = some kind) : extent c cs = (.token kind, 0) := by
  have hmem := mem_symbols hc
  have hother : isGap c = false ∧ isWordStart c = false ∧ c.isDigit = false ∧
      c ≠ '-' ∧ c ≠ '.' ∧ c ≠ '/' ∧ c ≠ '"' := by
    fin_cases hmem <;> exact ⟨rfl, rfl, rfl, by decide, by decide, by decide, by decide⟩
  obtain ⟨hgap, hstart, hdigit, hminus, hdot, hslash, hquote⟩ := hother
  unfold extent
  rw [hgap, hstart, hdigit, if_neg Bool.false_ne_true, if_neg Bool.false_ne_true,
    if_neg Bool.false_ne_true, if_neg hminus, if_neg hdot, if_neg hslash, if_neg hquote, hc]

theorem Spells.symbol (hc : symbolKind c = some kind)
    (hw : ∀ text span, (⟨kind, text, span⟩ : Token).word = .mark kind) (h : Spells rest ws) :
    Spells (c :: rest) (.mark kind :: ws) :=
  h.token [] kind (extent_symbol hc) (hw _ _)

theorem Spells.dot (hrest : rest.head? ≠ some '.') (h : Spells rest ws) :
    Spells ('.' :: rest) (.mark .dot :: ws) := by
  refine h.token [] .dot ?_ rfl
  simp [extent, isGap, isWordStart, hrest]

theorem Spells.dotDot (h : Spells rest ws) : Spells ('.' :: '.' :: rest) (.mark .dotDot :: ws) :=
  h.token ['.'] .dotDot rfl rfl

theorem not_wordStart_of_isDigit (hc : c.isDigit) : ¬isWordStart c := by
  intro hstart
  simp only [isWordStart, Bool.or_eq_true, beq_iff_eq] at hstart
  rcases hstart with halpha | rfl
  · delta Char.isAlpha Char.isUpper Char.isLower at halpha
    delta Char.isDigit at hc
    simp only [Bool.or_eq_true, Bool.and_eq_true, decide_eq_true_eq, UInt32.le_iff_toNat_le,
      ge_iff_le] at halpha hc
    simp at halpha hc
    omega
  · exact absurd hc (by decide)

theorem extent_digit (hc : c.isDigit) :
    extent c cs = (.token (number cs).1, (number cs).2) := by
  have hgap : ¬isGap c := by
    intro hgap
    simp only [isGap, Bool.or_eq_true, beq_iff_eq] at hgap
    rcases hgap with ((rfl | rfl) | rfl) | rfl <;> exact absurd hc (by decide)
  unfold extent
  rw [if_neg hgap, if_neg (not_wordStart_of_isDigit hc), if_pos hc]

theorem number_digits (hmore : ∀ c ∈ more, c.isDigit)
    (hrest : ∀ c ∈ rest.head?, c ≠ '.' ∧ ¬c.isDigit) :
    number (more ++ rest) = (.integer, more.length) := by
  have hrun : run Char.isDigit (more ++ rest) = more.length :=
    run_append hmore fun c hc => (hrest c hc).2
  have hfraction : fraction rest = (.integer, 0) := by
    unfold fraction
    split
    · exact absurd rfl (hrest '.' rfl).1
    · rfl
  unfold number
  rw [hrun]
  simp only [List.drop_left, hfraction, Nat.add_zero]

theorem Spells.number (hc : c.isDigit) (hmore : ∀ c ∈ more, c.isDigit)
    (hrest : ∀ c ∈ rest.head?, c ≠ '.' ∧ ¬c.isDigit) (h : Spells rest ws) :
    Spells (c :: (more ++ rest))
      (.literal (Parser.integerLiteral (String.ofList (c :: more))) :: ws) := by
  refine h.token more .integer ?_ rfl
  rw [extent_digit hc, number_digits hmore hrest]

theorem Spells.negative (hc : c.isDigit) (hmore : ∀ c ∈ more, c.isDigit)
    (hrest : ∀ c ∈ rest.head?, c ≠ '.' ∧ ¬c.isDigit) (h : Spells rest ws) :
    Spells ('-' :: ((c :: more) ++ rest))
      (.literal (Parser.integerLiteral (String.ofList ('-' :: c :: more))) :: ws) := by
  refine h.token (c :: more) .integer ?_ rfl
  have hnumber := number_digits hmore hrest
  simp [extent, isGap, isWordStart, hc, hnumber]

theorem closingQuote_cons (hc : c ≠ '\\') : closingQuote (c :: cs) =
    if c = '"' then some 1 else if c = '\n' then none else (closingQuote cs).map (· + 1) := by
  cases cs <;> simp [closingQuote, hc]

theorem unescape_cons (hc : c ≠ '\\') : unescape (c :: cs) = c :: unescape cs := by
  cases cs <;> simp [unescape, hc]

theorem closingQuote_quoted (cs rest : List Char) :
    closingQuote (cs.flatMap quotedChar ++ '"' :: rest) =
      some ((cs.flatMap quotedChar).length + 1) := by
  induction cs with
  | nil => exact closingQuote_cons (by decide)
  | cons c cs ih =>
    rw [List.flatMap_cons, List.append_assoc]
    by_cases hspecial : c = '\\' ∨ c = '"' ∨ c = '\n'
    · rcases hspecial with rfl | rfl | rfl <;> simp [quotedChar, closingQuote, ih]
    · obtain ⟨hslash, hquote, hfeed⟩ : c ≠ '\\' ∧ c ≠ '"' ∧ c ≠ '\n' := by
        simpa [not_or] using hspecial
      have hchar : quotedChar c = [c] := by simp [quotedChar, hslash, hquote, hfeed]
      rw [hchar, List.singleton_append, closingQuote_cons hslash, if_neg hquote, if_neg hfeed, ih]
      rfl

theorem unescape_quoted (cs : List Char) : unescape (cs.flatMap quotedChar) = cs := by
  induction cs with
  | nil => rfl
  | cons c cs ih =>
    rw [List.flatMap_cons]
    by_cases hspecial : c = '\\' ∨ c = '"' ∨ c = '\n'
    · rcases hspecial with rfl | rfl | rfl <;> simp [quotedChar, unescape, escaped, ih]
    · obtain ⟨hslash, hquote, hfeed⟩ : c ≠ '\\' ∧ c ≠ '"' ∧ c ≠ '\n' := by
        simpa [not_or] using hspecial
      have hchar : quotedChar c = [c] := by simp [quotedChar, hslash, hquote, hfeed]
      rw [hchar, List.singleton_append, unescape_cons hslash, ih]

theorem stringValue_printString (s : String) :
    stringValue (String.ofList (printString s)) = s := by
  have hlast : (s.toList.flatMap quotedChar ++ ['"']).getLast? = some '"' := by simp
  have hbody : unquoted (printString s) = s.toList.flatMap quotedChar := by
    rw [printString, unquoted, if_pos hlast, List.dropLast_concat]
  rw [stringValue, String.toList_ofList, hbody, unescape_quoted, String.ofList_toList]

theorem Spells.string (s : String) (h : Spells rest ws) :
    Spells (printString s ++ rest) (.literal (some (.string s)) :: ws) := by
  rw [printString, List.cons_append]
  refine h.token _ .string ?_ ?_
  · rw [List.append_assoc, List.singleton_append]
    simp [extent, isGap, isWordStart, closingQuote_quoted]
  · have hvalue := stringValue_printString s
    rw [printString] at hvalue
    simp only [Token.word, hvalue]

theorem Spells.docLine {line : List Char} (hfeed : '\n' ∉ line) (htidy : Text.trimEnd line = line)
    (h : Spells rest ws) :
    Spells ("/// ".toList ++ (line ++ '\n' :: rest)) (.doc (String.ofList line) :: ws) := by
  have hmore : ∀ c ∈ '/' :: '/' :: ' ' :: line, decide (c ≠ '\n') := by
    intro c hc
    rw [decide_eq_true_eq]
    rintro rfl
    simp [hfeed] at hc
  have hend : ∀ c ∈ ('\n' :: rest).head?, ¬decide (c ≠ '\n') := by simp
  have hrun := run_append hmore hend
  refine Spells.token (c := '/') ('/' :: '/' :: ' ' :: line) .docComment ?_ ?_ (h.gap rfl)
  · unfold extent
    rw [if_neg (by decide), if_neg (by decide), if_neg (by decide), if_neg (by decide),
      if_neg (by decide), if_pos rfl, hrun]
    simp [commentKind]
  · simp [Token.word, Schema.docLine, htidy]

theorem Spells.doc (depth : Nat) {doc : Option String} (hdoc : Tidy doc) (h : Spells rest ws) :
    Spells (printDoc depth doc ++ rest) (docWords doc ++ ws) := by
  cases doc with
  | none => exact h
  | some text =>
    have lines (ls : List (List Char))
        (hls : ∀ line ∈ ls, '\n' ∉ line ∧ Text.trimEnd line = line) :
        Spells ((ls.flatMap fun line => Schema.indent depth ++ ("/// ".toList ++ (line ++ ['\n'])))
          ++ rest) ((ls.map fun line => Word.doc (String.ofList line)) ++ ws) := by
      induction ls with
      | nil => exact h
      | cons line ls ih =>
        obtain ⟨hline, hls⟩ := List.forall_mem_cons.mp hls
        have hrest := (ih hls).docLine hline.1 hline.2
        rw [List.flatMap_cons, List.map_cons, List.cons_append]
        simpa using hrest.indent depth
    apply lines
    intro line hline
    refine ⟨?_, hdoc text rfl line hline⟩
    intro hfeed
    have hno := Text.not_of_mem_pieces hline '\n' hfeed
    exact absurd hno (by decide)

end Lexemes

section Literals

theorem pow_63 : Int.pow 2 63 = 9223372036854775808 := by decide

theorem pow_64 : Int.pow 2 64 = 18446744073709551616 := by decide

theorem natPow_63 : Nat.pow 2 63 = 9223372036854775808 := by decide

theorem natPow_64 : Nat.pow 2 64 = 18446744073709551616 := by decide

theorem digitsValue_toDigits (n : Nat) : Decimal.digitsValue (Nat.toDigits 10 n) = n :=
  Nat.ofDigitChars_toDigits (by decide) (by decide)

theorem toDigits_cons (n : Nat) :
    ∃ c cs, Nat.toDigits 10 n = c :: cs ∧ c.isDigit ∧ ∀ d ∈ cs, d.isDigit := by
  have hdigits : ∀ c ∈ Nat.toDigits 10 n, c.isDigit :=
    fun c hc => Nat.isDigit_of_mem_toDigits (b := 10) (by decide) (by decide) hc
  cases htext : Nat.toDigits 10 n with
  | nil => exact absurd htext Nat.toDigits_ne_nil
  | cons c cs =>
    rw [htext] at hdigits
    exact ⟨c, cs, rfl, List.forall_mem_cons.mp hdigits⟩

theorem integerLiteral_natural (n : Nat) :
    Parser.integerLiteral (String.ofList (Nat.toDigits 10 n)) =
      if n < Nat.pow 2 63 then some (.int (.ofInt n))
      else if n < Nat.pow 2 64 then some (.uint (.ofNat n)) else none := by
  obtain ⟨c, cs, htext, hc, -⟩ := toDigits_cons n
  unfold Parser.integerLiteral
  rw [String.toList_ofList]
  extract_lets value
  have hvalue : value = n := by
    simp only [value]
    split
    · next heq =>
      rw [htext] at heq
      obtain rfl := (List.cons.inj heq).1
      exact absurd hc (by decide)
    · rw [digitsValue_toDigits]
  clear_value value
  subst hvalue
  rw [pow_63, pow_64, natPow_63, natPow_64]
  by_cases hint : n < 9223372036854775808
  · rw [if_pos hint, if_pos (by omega)]
  · rw [if_neg hint, if_neg (by omega)]
    by_cases huint : n < 18446744073709551616
    · rw [if_pos huint, if_pos (by omega), Int.toNat_natCast]
    · rw [if_neg huint, if_neg (by omega)]

theorem integerLiteral_negative {n : Nat} (hn : n ≤ Nat.pow 2 63) :
    Parser.integerLiteral (String.ofList ('-' :: Nat.toDigits 10 n)) =
      some (.int (.ofInt (-n))) := by
  unfold Parser.integerLiteral
  rw [String.toList_ofList]
  extract_lets value
  have hvalue : value = -n := by
    simp only [value]
    rw [digitsValue_toDigits]
  clear_value value
  subst hvalue
  rw [natPow_63] at hn
  rw [pow_63, if_pos (by omega)]

theorem Spells.literal {v : Literal} (hv : Literal.Printable v) {rest : List Char}
    {ws : List Word} (h : Spells rest ws) :
    Spells (Literal.print v ++ '\n' :: rest) (.literal (some v) :: ws) := by
  have hfeed : ∀ c ∈ ('\n' :: rest).head?, c ≠ '.' ∧ ¬c.isDigit := by
    intro c hc
    obtain rfl : '\n' = c := Option.some.inj hc
    decide
  have hrest : Spells ('\n' :: rest) ws := h.gap rfl
  have natural (n : Nat) : Spells (Nat.toDigits 10 n ++ '\n' :: rest)
      (.literal (Parser.integerLiteral (String.ofList (Nat.toDigits 10 n))) :: ws) := by
    obtain ⟨c, cs, htext, hc, hcs⟩ := toDigits_cons n
    rw [htext]
    exact hrest.number hc hcs hfeed
  cases v with
  | string s => exact hrest.string s
  | float value => exact absurd hv id
  | uint value =>
    have hlt : value.toNat < Nat.pow 2 64 := value.toNat_lt
    have hge : ¬value.toNat < Nat.pow 2 63 := Nat.not_lt.mpr hv
    have hspells := natural value.toNat
    rw [integerLiteral_natural, if_neg hge, if_pos hlt, UInt64.ofNat_toNat] at hspells
    exact hspells
  | int value =>
    have hlow := value.le_toInt
    have hhigh := value.toInt_lt
    rw [Literal.print]
    by_cases hsign : 0 ≤ value.toInt
    · have hspells := natural value.toInt.natAbs
      have habs : (value.toInt.natAbs : Int) = value.toInt := Int.natAbs_of_nonneg hsign
      have hlt : value.toInt.natAbs < Nat.pow 2 63 := by
        rw [natPow_63]
        omega
      rw [integerLiteral_natural, if_pos hlt, habs, Int64.ofInt_toInt] at hspells
      rw [if_pos hsign]
      exact hspells
    · obtain ⟨c, cs, htext, hc, hcs⟩ := toDigits_cons value.toInt.natAbs
      have hspells := hrest.negative hc hcs hfeed
      have habs : -(value.toInt.natAbs : Int) = value.toInt := by omega
      have hle : value.toInt.natAbs ≤ Nat.pow 2 63 := by
        rw [natPow_63]
        omega
      rw [← htext, integerLiteral_negative hle, habs, Int64.ofInt_toInt] at hspells
      rw [if_neg hsign]
      exact hspells

end Literals

section Trees

variable {rest : List Char} {ws : List Word}

theorem boundary_cons {c : Char} (hc : ¬isWordPart c) : Boundary (c :: rest) := by
  intro d hd
  obtain rfl := Option.some.inj hd
  exact hc

theorem identifier_attributeWord (kind : AttributeKind) : Identifier kind.word := by
  cases kind with
  | skip | optional => decide +kernel
  | rename =>
    have hname : Identifier "rename" := by decide +kernel
    exact hname

theorem Spells.arguments (kind : AttributeKind) (hrest : Boundary rest) (h : Spells rest ws) :
    Boundary (kind.printArguments ++ rest) ∧
      Spells (kind.printArguments ++ rest) (kind.arguments ++ ws) := by
  cases kind with
  | skip | optional => exact ⟨hrest, h⟩
  | rename name =>
    have hclose : Spells (')' :: rest) (.mark .rightParen :: ws) := h.symbol rfl fun _ _ => rfl
    have hopen := (hclose.string name).symbol (c := '(') rfl fun _ _ => rfl
    refine ⟨boundary_cons (by decide), ?_⟩
    simpa [AttributeKind.printArguments, AttributeKind.arguments] using hopen

theorem Spells.attribute (a : Attribute) (hrest : Boundary rest) (h : Spells rest ws) :
    Spells (a.print ++ rest) (a.words ++ ws) := by
  obtain ⟨hboundary, harguments⟩ := h.arguments a.kind hrest
  have hword := harguments.identifier (identifier_attributeWord a.kind) hboundary
  have hspells := (hword.symbol (c := '@') rfl fun _ _ => rfl).gap (c := ' ') rfl
  simpa [Attribute.print, Attribute.words] using hspells

theorem Spells.attributes (as : List Attribute) (hrest : Boundary rest) (h : Spells rest ws) :
    Boundary (as.flatMap Attribute.print ++ rest) ∧
      Spells (as.flatMap Attribute.print ++ rest) (as.flatMap Attribute.words ++ ws) := by
  induction as with
  | nil => exact ⟨hrest, h⟩
  | cons a as ih =>
    rw [List.flatMap_cons, List.flatMap_cons, List.append_assoc, List.append_assoc]
    exact ⟨boundary_cons (by decide), ih.2.attribute a ih.1⟩

theorem Spells.block (depth : Nat) {lines : List Char} {vs : List Word}
    (hlines : ∀ rest ws, Spells rest ws → Spells (lines ++ rest) (vs ++ ws))
    (h : Spells rest ws) : Spells (printBlock depth lines ++ rest)
      (.mark .leftBrace :: (vs ++ (.mark .rightBrace :: ws))) := by
  have hclose : Spells ('}' :: rest) (.mark .rightBrace :: ws) := h.symbol rfl fun _ _ => rfl
  have hbody := hlines _ _ (hclose.indent depth)
  have hopen := (hbody.gap (c := '\n') rfl).symbol (c := '{') rfl fun _ _ => rfl
  rw [printBlock, List.append_assoc, List.append_assoc, List.append_assoc]
  exact hopen.gap rfl

theorem boundary_block (depth : Nat) (lines : List Char) :
    Boundary (printBlock depth lines ++ rest) := by
  rw [printBlock, List.append_assoc]
  exact boundary_cons (by decide)

theorem Spells.lead {name : String} {embedded : Bool}
    (hname : embedded = false → Identifier name) (h : Spells rest ws) :
    Spells (printLead name embedded ++ rest) (leadWords name embedded ++ ws) := by
  cases embedded with
  | true => exact h.dotDot
  | false =>
    have hcolon := (h.gap (c := ' ') rfl).symbol (c := ':') rfl fun _ _ => rfl
    have hspells := hcolon.identifier (hname rfl) (boundary_cons (by decide))
    simpa [printLead, leadWords] using hspells

theorem Spells.record (h : Spells rest ws) (hrest : Boundary rest) :
    Spells (recordKeyword ++ rest) (.mark .structKeyword :: ws) :=
  h.keyword .structKeyword wordlike_keywords.2.1 rfl (fun _ _ => rfl) hrest

/-- The text of an expression can be followed by whatever ends a word. -/
def TypeExpr.Spelled (x : TypeExpr) : Prop :=
  ∀ (depth : Nat) (rest : List Char) (ws : List Word), Boundary rest → Spells rest ws →
    Spells (x.print depth ++ rest) (x.words ++ ws)

mutual

theorem spelled_type : ∀ x : TypeExpr, (∀ y, Within y x → y.PrintableAt) → x.Spelled
  | .scalar kind _, _ => by
    intro depth rest ws hrest h
    rw [TypeExpr.print, TypeExpr.words]
    exact h.identifier (identifier_keyword kind) hrest
  | .reference none name _, hx => by
    intro depth rest ws hrest h
    rw [TypeExpr.print, TypeExpr.words]
    exact h.identifier (forall_within_reference.mp hx).1 hrest
  | .reference (some package) name _, hx => by
    intro depth rest ws hrest h
    obtain ⟨hpackage, hname⟩ := forall_within_reference.mp hx
    rw [TypeExpr.print, TypeExpr.words]
    have hspells := h.identifier hname hrest
    have hfirst : (name.toList ++ rest).head? ≠ some '.' := by
      obtain ⟨c, cs, htext, hstart, -⟩ := hname.wordlike
      rw [htext]
      intro hdot
      obtain rfl := Option.some.inj hdot
      exact absurd hstart (by decide)
    have hdot := (hspells.dot hfirst).identifier hpackage (boundary_cons (by decide))
    simpa using hdot
  | .pointer target _, hx => by
    intro depth rest ws hrest h
    rw [TypeExpr.print, TypeExpr.words]
    have htarget := spelled_type target (forall_within_pointer.mp hx).2 depth rest ws hrest h
    exact htarget.symbol rfl fun _ _ => rfl
  | .sequence element _, hx => by
    intro depth rest ws hrest h
    rw [TypeExpr.print, TypeExpr.words]
    have hclose : Spells (']' :: rest) (.mark .rightBracket :: ws) := h.symbol rfl fun _ _ => rfl
    have helement := spelled_type element (forall_within_sequence.mp hx).2 depth _ _
      (boundary_cons (by decide)) hclose
    have hspells := helement.symbol (c := '[') rfl fun _ _ => rfl
    simpa using hspells
  | .map key value _, hx => by
    intro depth rest ws hrest h
    obtain ⟨-, hkey, hvalue⟩ := forall_within_map.mp hx
    rw [TypeExpr.print, TypeExpr.words]
    have hclose : Spells ('}' :: rest) (.mark .rightBrace :: ws) := h.symbol rfl fun _ _ => rfl
    have hvalue := spelled_type value hvalue depth _ _ (boundary_cons (by decide)) hclose
    have hcolon := (hvalue.gap (c := ' ') rfl).symbol (c := ':') rfl fun _ _ => rfl
    have hkey := spelled_type key hkey depth _ _ (boundary_cons (by decide)) hcolon
    have hspells := hkey.symbol (c := '{') rfl fun _ _ => rfl
    simpa using hspells
  | .record ms _, hx => by
    intro depth rest ws hrest h
    obtain ⟨hms, hparts⟩ := forall_within_record.mp hx
    rw [TypeExpr.print, TypeExpr.words]
    have hblock := h.block depth (spelled_members ms hms hparts (depth + 1))
    rw [List.append_assoc]
    simpa using hblock.record (boundary_block _ _)
  | .hole _, hx => (forall_within_hole.mp hx).elim

theorem spelled_members : ∀ ms : List (MemberDef TypeExpr), (∀ m ∈ ms, m.Printable) →
    (∀ m ∈ ms, ∀ y, Within y m.type → y.PrintableAt) →
      ∀ (depth : Nat) (rest : List Char) (ws : List Word), Spells rest ws →
        Spells (printMembers ms depth ++ rest) (memberWords ms ++ ws)
  | [], _, _ => by
    intro depth rest ws h
    rw [printMembers, memberWords]
    exact h
  | ⟨name, type, embedded, attributes, doc⟩ :: ms, hms, hparts => by
    intro depth rest ws h
    obtain ⟨hm, hms⟩ := List.forall_mem_cons.mp hms
    obtain ⟨hpart, hparts⟩ := List.forall_mem_cons.mp hparts
    have hrest := (spelled_members ms hms hparts depth rest ws h).gap (c := '\n') rfl
    obtain ⟨hboundary, hattributes⟩ := hrest.attributes attributes (boundary_cons (by decide))
    have htype := spelled_type type hpart depth _ _ hboundary hattributes
    have hname : embedded = false → Identifier name.text := by
      rintro rfl
      exact hm.name
    have hlead := htype.lead hname
    have hspells := (hlead.indent depth).doc depth hm.doc
    rw [printMembers, memberWords]
    simpa using hspells

end

theorem Spells.variant {v : Variant} (hv : v.Printable) (h : Spells rest ws) :
    Spells (v.print ++ rest) (v.words ++ ws) := by
  have hvalue := h.literal hv.value
  have hequals := ((hvalue.gap (c := ' ') rfl).symbol (c := '=') rfl fun _ _ => rfl).gap
    (c := ' ') rfl
  have hname := hequals.identifier hv.name (boundary_cons (by decide))
  have hspells := (hname.indent 1).doc 1 hv.doc
  simpa [Variant.print, Variant.words] using hspells

theorem Spells.variants {vs : List Variant} (hvs : ∀ v ∈ vs, v.Printable) (h : Spells rest ws) :
    Spells (vs.flatMap Variant.print ++ rest) (vs.flatMap Variant.words ++ ws) := by
  induction vs with
  | nil => exact h
  | cons v vs ih =>
    obtain ⟨hv, hvs⟩ := List.forall_mem_cons.mp hvs
    rw [List.flatMap_cons, List.flatMap_cons, List.append_assoc, List.append_assoc]
    exact (ih hvs).variant hv

theorem Spells.item {item : Item} (hitem : item.Printable) (h : Spells rest ws) :
    Spells (item.print ++ rest) (item.words ++ ws) := by
  cases item with
  | struct d =>
    have hd : d.Printable := hitem
    have hfeed : Spells ('\n' :: rest) ws := h.gap rfl
    have hms := spelled_members d.members (fun m hm => (hd.members m hm).1)
      fun m hm => (hd.members m hm).2.parts
    have hblock := hfeed.block 0 (hms 1)
    have hname := (hblock.identifier hd.name (boundary_block _ _)).gap (c := ' ') rfl
    have hspells := (hname.keyword .structKeyword wordlike_keywords.2.1 rfl
      (fun _ _ => rfl) (boundary_cons (by decide))).doc 0 hd.doc
    simp only [Item.print, Item.words]
    simpa [memberWords_eq_flatMap] using hspells
  | enum d =>
    have hd : d.Printable := hitem
    have hfeed : Spells ('\n' :: rest) ws := h.gap rfl
    have hblock := hfeed.block 0 fun rest ws h => h.variants hd.variants
    have hbase := (hblock.identifier hd.base (boundary_block _ _)).gap (c := ' ') rfl
    have hcolon := hbase.symbol (c := ':') rfl fun _ _ => rfl
    have hname := (hcolon.identifier hd.name (boundary_cons (by decide))).gap (c := ' ') rfl
    have hspells := (hname.keyword .enumKeyword wordlike_keywords.2.2.1 rfl
      (fun _ _ => rfl) (boundary_cons (by decide))).doc 0 hd.doc
    simpa [Item.print, Item.words] using hspells
  | synonym d =>
    have hd : d.Printable := hitem
    have hfeed : Spells ('\n' :: rest) ws := h.gap rfl
    have htarget := spelled_type d.target hd.target.parts 0 _ _ (boundary_cons (by decide)) hfeed
    have hequals := ((htarget.gap (c := ' ') rfl).symbol (c := '=') rfl fun _ _ => rfl).gap
      (c := ' ') rfl
    have hname := (hequals.identifier hd.name (boundary_cons (by decide))).gap (c := ' ') rfl
    have hspells := (hname.keyword .aliasKeyword wordlike_keywords.2.2.2 rfl
      (fun _ _ => rfl) (boundary_cons (by decide))).doc 0 hd.doc
    simpa [Item.print, Item.words] using hspells

theorem Spells.items {items : List Item} (hitems : ∀ item ∈ items, item.Printable) :
    Spells (items.flatMap Item.print) (items.flatMap Item.words) := by
  induction items with
  | nil => exact .nil
  | cons item items ih =>
    obtain ⟨hitem, hitems⟩ := List.forall_mem_cons.mp hitems
    rw [List.flatMap_cons, List.flatMap_cons]
    exact (ih hitems).item hitem

def PackageHeader.words (h : PackageHeader) : List Word :=
  [.mark .packageKeyword, .literal (some (.string h.path))]

theorem Spells.header (header : PackageHeader) (h : Spells rest ws) :
    Spells (header.print ++ rest) (header.words ++ ws) := by
  have hfeed : Spells ('\n' :: rest) ws := h.gap rfl
  have hpath := (hfeed.string header.path).gap (c := ' ') rfl
  have hspells := hpath.keyword .packageKeyword wordlike_keywords.1
    (by simp [wordKind]) (fun _ _ => rfl) (boundary_cons (by decide))
  unfold PackageHeader.print
  rw [List.append_assoc, List.append_assoc]
  exact hspells

def File.words (file : File) : List Word :=
  file.package.elim [] PackageHeader.words ++ file.items.flatMap Item.words

theorem spells_print {file : File} (hfile : file.Printable) :
    Spells file.print.toList file.words := by
  have hitems := Spells.items hfile
  unfold File.print File.words
  rw [String.toList_ofList]
  cases file.package with
  | none => exact hitems
  | some header => exact hitems.header header

end Trees

section Tokens

theorem joined_of_readable {ls : List Lexeme} (h : ∀ l ∈ ls, l.kind ≠ .unreadable) :
    joined ls = ls := by
  induction ls with
  | nil => rfl
  | cons l ls ih =>
    obtain ⟨hl, hls⟩ := List.forall_mem_cons.mp h
    unfold joined
    split
    · next hkind _ => exact absurd hkind hl
    · rw [ih hls]

theorem word?_eq (l : Lexeme) (start : Nat) : (l.token? start).map Token.word = l.word? := by
  obtain ⟨kind, text⟩ := l
  cases kind <;> rfl

theorem words_place (ls : List Lexeme) (start : Nat) :
    (place start ls).map Token.word = ls.filterMap Lexeme.word? := by
  induction ls generalizing start with
  | nil => rfl
  | cons l ls ih =>
    rw [place, List.map_append, ih, List.filterMap_cons, ← word?_eq l start]
    cases l.token? start <;> rfl

theorem words_tokens {text : String} {ws : List Word} (h : Spells text.toList ws) :
    (tokens text).map Token.word = ws := by
  rw [tokens, joined_of_readable h.readable, words_place, h.words]

end Tokens

end TypeGraph.Schema
