import TypeGraph.Proofs.Schema.Cutting
import TypeGraph.Proofs.Schema.Spelling
/-!
What a lexeme is, by the character that it begins with, and how lexemes become tokens: readable ones
one by one, where they stand.
-/

namespace TypeGraph.Schema

section Extent

variable {c d : Char} {cs : List Char}

/-- What the first character of a lexeme can be. -/
inductive Leading : Char → Prop
  | gap {c : Char} (h : isGap c) : Leading c
  | word {c : Char} (h : isWordStart c) : Leading c
  | digit {c : Char} (h : c.isDigit) : Leading c
  | minus : Leading '-'
  | dot : Leading '.'
  | slash : Leading '/'
  | quote : Leading '"'
  | symbol {c : Char} (kind : TokenKind) (h : symbolKind c = some kind) : Leading c
  /-- Nothing readable begins with the character. -/
  | stray {c : Char} (h : ∀ cs, extent c cs = (.unreadable, 0)) : Leading c

theorem leading (c : Char) : Leading c := by
  by_cases hgap : isGap c
  · exact .gap hgap
  by_cases hword : isWordStart c
  · exact .word hword
  by_cases hdigit : c.isDigit
  · exact .digit hdigit
  by_cases hminus : c = '-'
  · exact hminus ▸ .minus
  by_cases hdot : c = '.'
  · exact hdot ▸ .dot
  by_cases hslash : c = '/'
  · exact hslash ▸ .slash
  by_cases hquote : c = '"'
  · exact hquote ▸ .quote
  cases hsymbol : symbolKind c with
  | some kind => exact .symbol kind hsymbol
  | none =>
    apply Leading.stray
    intro cs
    simp only [extent, hgap, hword, hdigit, hminus, hdot, hslash, hquote, hsymbol, if_false,
      Bool.false_eq_true]

theorem take_run (p : Char → Bool) (cs : List Char) : cs.take (run p cs) = cs.takeWhile p :=
  (List.prefix_iff_eq_take.mp (List.takeWhile_prefix p)).symm

theorem run_le (p : Char → Bool) (cs : List Char) : run p cs ≤ cs.length :=
  (List.takeWhile_sublist p).length_le

theorem extent_word (hc : isWordStart c) : extent c cs =
    (.token (wordKind (c :: cs.takeWhile isWordPart)), run isWordPart cs) := by
  unfold extent
  rw [if_neg (not_gap_of_wordStart hc), if_pos hc]
  simp only [take_run]

theorem extent_minus : extent '-' (d :: cs) =
    if d.isDigit then (.token (number cs).1, (number cs).2 + 1) else (.unreadable, 0) :=
  rfl

theorem extent_dot : extent '.' cs =
    if cs.head? = some '.' then (.token .dotDot, 1) else (.token .dot, 0) :=
  rfl

theorem extent_slash : extent '/' cs = if cs.head? = some '/' then
    (commentKind ('/' :: cs.takeWhile (· ≠ '\n')), run (· ≠ '\n') cs)
      else (.token .slash, 0) := by
  rw [← take_run]
  rfl

theorem extent_quote : extent '"' cs = (closingQuote cs).elim (.unreadable, run (· ≠ '\n') cs)
    fun n => (.token .string, n) := by
  unfold extent
  cases closingQuote cs <;> rfl

theorem closingQuote_escape (d : Char) (cs : List Char) : closingQuote ('\\' :: d :: cs) =
    if d = '\n' then none else (closingQuote cs).map (· + 2) := by
  simp [closingQuote]

theorem closingQuote_le {cs : List Char} {n : Nat} (h : closingQuote cs = some n) :
    n ≤ cs.length := by
  fun_induction closingQuote cs generalizing n with
  | case1 | case3 | case4 | case5 => cases h
  | case2 =>
    obtain rfl := Option.some.inj h
    simp
  | case6 d ds _ _ _ ih =>
    obtain ⟨m, hm, rfl⟩ := Option.map_eq_some_iff.mp h
    have hle := ih hm
    simp only [List.length_cons]
    omega
  | case7 c cs _ _ _ ih =>
    obtain ⟨m, hm, rfl⟩ := Option.map_eq_some_iff.mp h
    have hle := ih hm
    simp only [List.length_cons]
    omega

theorem fraction_le (cs : List Char) : (fraction cs).2 ≤ cs.length := by
  unfold fraction
  split
  · next d ds =>
    have hle := run_le Char.isDigit ds
    simp only [List.length_cons]
    split <;> simp only <;> omega
  · exact Nat.zero_le _

theorem number_le (cs : List Char) : (number cs).2 ≤ cs.length := by
  have hrun := run_le Char.isDigit cs
  have hfraction := fraction_le (cs.drop (run Char.isDigit cs))
  rw [List.length_drop] at hfraction
  show run Char.isDigit cs + (fraction (cs.drop (run Char.isDigit cs))).2 ≤ cs.length
  omega

/-- A lexeme takes characters that are there. -/
theorem extent_le (c : Char) (cs : List Char) : (extent c cs).2 ≤ cs.length := by
  cases leading c with
  | gap h => exact extent_gap h ▸ run_le _ _
  | word h => exact extent_word h ▸ run_le _ _
  | digit h => exact extent_digit h ▸ number_le cs
  | minus =>
    cases cs with
    | nil => exact Nat.le_refl _
    | cons d ds =>
      have hle := number_le ds
      rw [extent_minus, List.length_cons]
      split <;> simp only <;> omega
  | dot =>
    cases cs with
    | nil => exact Nat.le_refl _
    | cons d ds =>
      rw [extent_dot, List.length_cons]
      split <;> simp only <;> omega
  | slash =>
    rw [extent_slash]
    split
    · exact run_le _ _
    · exact Nat.zero_le _
  | quote =>
    rw [extent_quote]
    cases hquote : closingQuote cs with
    | some n => exact closingQuote_le hquote
    | none => exact run_le _ _
  | symbol kind h => exact extent_symbol h ▸ Nat.zero_le _
  | stray h => exact h cs ▸ Nat.zero_le _

end Extent

section Place

variable {l : Lexeme} {ls ms : List Lexeme}

theorem spelling_cons (l : Lexeme) (ls : List Lexeme) : spelling (l :: ls) = l.text ++ spelling ls :=
  rfl

theorem spelling_append (ls ms : List Lexeme) : spelling (ls ++ ms) = spelling ls ++ spelling ms :=
  List.flatMap_append

theorem place_append (start : Nat) (ls ms : List Lexeme) : place start (ls ++ ms) =
    place start ls ++ place (start + byteSize (spelling ls)) ms := by
  induction ls generalizing start with
  | nil => rfl
  | cons l ls ih =>
    rw [List.cons_append, place, place, ih, spelling_cons, byteSize_append, List.append_assoc,
      Nat.add_assoc]

theorem joined_cons_of_readable (hl : l.kind ≠ .unreadable) : joined (l :: ls) = l :: joined ls := by
  rw [joined]
  split
  · next hkind _ => exact absurd hkind hl
  · rfl

/-- Readable lexemes are not joined across. -/
theorem joined_append_cons (hl : l.kind ≠ .unreadable) (ls ms : List Lexeme) :
    joined (ls ++ l :: ms) = joined ls ++ l :: joined ms := by
  induction ls with
  | nil => exact joined_cons_of_readable hl
  | cons k ls ih =>
    rw [List.cons_append, joined, joined, ih]
    cases hk : k.kind with
    | unreadable =>
      cases hjoined : joined ls with
      | nil =>
        obtain ⟨kind, text⟩ := l
        cases kind <;> first | rfl | exact absurd rfl hl
      | cons j js =>
        obtain ⟨kind, text⟩ := j
        cases kind <;> rfl
    | _ => rfl

end Place

end TypeGraph.Schema
