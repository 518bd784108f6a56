import Mathlib.Data.List.TakeWhile
import TypeGraph.Proofs.Schema.Lexemes
/-!
Texts are cut line by line. No lexeme but a gap goes on behind the end of its line, so the tokens of
two texts with a line feed between them are the tokens of the one and then those of the other.
-/

namespace TypeGraph.Schema

section Extent

variable {c : Char} {p : Char → Bool}

theorem run_append_feed (hp : p '\n' = false) (cs ds : List Char) :
    run p (cs ++ '\n' :: ds) = run p cs := by
  induction cs with
  | nil => simp [run, hp]
  | cons c cs ih =>
    unfold run at ih ⊢
    cases hc : p c <;> simp [hc, ih]

theorem takeWhile_append_feed (hp : p '\n' = false) (cs ds : List Char) :
    (cs ++ '\n' :: ds).takeWhile p = cs.takeWhile p := by
  rw [← take_run, ← take_run, run_append_feed hp, List.take_append_of_le_length (run_le p cs)]

theorem closingQuote_append_feed (cs ds : List Char) :
    closingQuote (cs ++ '\n' :: ds) = closingQuote cs := by
  fun_induction closingQuote cs with
  | case1 => exact closingQuote_cons (by decide)
  | case2 | case3 => exact closingQuote_cons (by decide)
  | case4 => exact closingQuote_escape '\n' ds
  | case5 es => exact closingQuote_escape '\n' (es ++ '\n' :: ds)
  | case6 d es hfeed _ _ ih =>
    rw [List.cons_append, List.cons_append, closingQuote_escape, if_neg hfeed, ih]
  | case7 c cs hquote hfeed hslash ih =>
    rw [List.cons_append, closingQuote_cons hslash, if_neg hquote, if_neg hfeed, ih]

theorem fraction_append_feed (cs ds : List Char) : fraction (cs ++ '\n' :: ds) = fraction cs := by
  cases cs with
  | nil => rfl
  | cons c cs =>
    by_cases hc : c = '.'
    · subst hc
      cases cs with
      | nil => rfl
      | cons d cs =>
        have hrun : run Char.isDigit (cs ++ '\n' :: ds) = run Char.isDigit cs :=
          run_append_feed rfl cs ds
        simp only [List.cons_append, fraction, hrun]
    · simp [fraction, hc]

theorem number_append_feed (cs ds : List Char) : number (cs ++ '\n' :: ds) = number cs := by
  have hrun : run Char.isDigit (cs ++ '\n' :: ds) = run Char.isDigit cs := run_append_feed rfl cs ds
  have hdrop : (cs ++ '\n' :: ds).drop (run Char.isDigit cs) =
      cs.drop (run Char.isDigit cs) ++ '\n' :: ds :=
    List.drop_append_of_le_length (run_le Char.isDigit cs)
  simp only [number, hrun, hdrop, fraction_append_feed]

theorem head?_append_feed (hc : c ≠ '\n') (cs ds : List Char) :
    (cs ++ '\n' :: ds).head? = some c ↔ cs.head? = some c := by
  cases cs with
  | nil => simp [hc.symm]
  | cons => rfl

/-- A lexeme ends on its line, unless it is a gap at the end of it. -/
theorem extent_append_feed {cs : List Char} (hcs : ¬∀ d ∈ c :: cs, isGap d) (ds : List Char) :
    extent c (cs ++ '\n' :: ds) = extent c cs := by
  cases leading c with
  | gap h =>
    have hmore : ¬∀ d ∈ cs, isGap d := fun hall => hcs (List.forall_mem_cons.mpr ⟨h, hall⟩)
    have hne : (cs.takeWhile isGap).length ≠ cs.length := by
      intro heq
      apply hmore
      have hsame : cs.takeWhile isGap = cs := (List.takeWhile_prefix _).eq_of_length heq
      exact fun d hd => List.mem_takeWhile_imp (hsame.symm ▸ hd)
    rw [extent_gap h, extent_gap h, run, List.takeWhile_append, if_neg hne]
    rfl
  | word h =>
    rw [extent_word h, extent_word h, run_append_feed rfl, takeWhile_append_feed rfl]
  | digit h => rw [extent_digit h, extent_digit h, number_append_feed]
  | minus =>
    cases cs with
    | nil => rfl
    | cons d cs => rw [List.cons_append, extent_minus, extent_minus, number_append_feed]
  | dot => simp only [extent_dot, head?_append_feed (c := '.') (by decide)]
  | slash =>
    simp only [extent_slash, head?_append_feed (c := '/') (by decide)]
    rw [run_append_feed (by decide), takeWhile_append_feed (by decide)]
  | quote =>
    rw [extent_quote, extent_quote, closingQuote_append_feed, run_append_feed (by decide)]
  | symbol kind h => rw [extent_symbol h, extent_symbol h]
  | stray h => rw [h, h]

end Extent

section Lines

variable {gap cs : List Char}

/-- The lexeme of a gap, if there is any. -/
def gapLexeme (gap : List Char) : List Lexeme :=
  if gap = [] then [] else [⟨.blank, gap⟩]

theorem lexemes_gap_append (hgap : ∀ c ∈ gap, isGap c) (hcs : ∀ c ∈ cs.head?, ¬isGap c) :
    lexemes (gap ++ cs) = gapLexeme gap ++ lexemes cs := by
  cases gap with
  | nil => rfl
  | cons c gap =>
    obtain ⟨hc, hgap⟩ := List.forall_mem_cons.mp hgap
    have hrun : run isGap (gap ++ cs) = gap.length := run_append hgap hcs
    rw [List.cons_append, lexemes_cons (extent_gap hc), hrun, List.take_left, List.drop_left]
    rfl

theorem head?_dropWhile_gap (cs : List Char) :
    ∀ c ∈ (cs.dropWhile isGap).head?, ¬isGap c := by
  intro c hc
  have hhead := List.head?_dropWhile_not isGap cs
  rw [Option.mem_def.mp hc] at hhead
  simpa using hhead

/-- The lexemes of a text and of another one behind a line feed: only the gap at the end of the first
line goes on behind the line feed. -/
theorem lexemes_append_feed (cs ds : List Char) : ∃ front gap,
    lexemes cs = front ++ gapLexeme gap ∧ lexemes (cs ++ '\n' :: ds) =
      front ++ ⟨.blank, gap ++ '\n' :: ds.takeWhile isGap⟩ :: lexemes (ds.dropWhile isGap) := by
  induction hn : cs.length using Nat.strongRecOn generalizing cs with
  | ind n ih =>
    subst hn
    by_cases hall : ∀ c ∈ cs, isGap c
    · have hgap : ∀ c ∈ cs ++ '\n' :: ds.takeWhile isGap, isGap c := by
        refine List.forall_mem_append.mpr ⟨hall, List.forall_mem_cons.mpr ⟨rfl, ?_⟩⟩
        exact fun c hc => List.mem_takeWhile_imp hc
      have hsplit : cs ++ '\n' :: ds =
          (cs ++ '\n' :: ds.takeWhile isGap) ++ ds.dropWhile isGap := by simp
      refine ⟨[], cs, ?_, ?_⟩
      · have hcs : lexemes (cs ++ []) = gapLexeme cs ++ lexemes [] :=
          lexemes_gap_append hall (by rintro c ⟨⟩)
        rw [List.append_nil, lexemes, List.append_nil] at hcs
        exact hcs
      · rw [hsplit, lexemes_gap_append hgap (head?_dropWhile_gap ds)]
        simp [gapLexeme]
    · cases cs with
      | nil => exact absurd (List.forall_mem_nil _) hall
      | cons c cs =>
        have hle := extent_le c cs
        have hlt : (cs.drop (extent c cs).2).length < (c :: cs).length := by
          rw [List.length_drop, List.length_cons]
          omega
        obtain ⟨front, gap, hfront, hback⟩ := ih _ hlt _ rfl
        have hboth : extent c (cs ++ '\n' :: ds) = ((extent c cs).1, (extent c cs).2) :=
          extent_append_feed hall ds
        refine ⟨⟨(extent c cs).1, c :: cs.take (extent c cs).2⟩ :: front, gap, ?_, ?_⟩
        · rw [lexemes_cons (Prod.eta (extent c cs)).symm, hfront, List.cons_append]
        · rw [List.cons_append, lexemes_cons hboth, List.take_append_of_le_length hle,
            List.drop_append_of_le_length hle, hback, List.cons_append]

/-- The token as it stands behind `n` bytes more. -/
def Token.shift (n : Nat) (t : Token) : Token :=
  { t with span := ⟨t.span.start + n, t.span.stop + n⟩ }

theorem place_shift (n start : Nat) (ls : List Lexeme) :
    place (start + n) ls = (place start ls).map (Token.shift n) := by
  induction ls generalizing start with
  | nil => rfl
  | cons l ls ih =>
    have hstart : start + n + byteSize l.text = start + byteSize l.text + n := by omega
    have htoken : l.token? (start + n) = (l.token? start).map (Token.shift n) := by
      obtain ⟨kind, text⟩ := l
      cases kind <;> simp [Lexeme.token?, Token.shift] <;> omega
    rw [place, place, hstart, ih, htoken, List.map_append, Option.toList_map]

theorem place_blank (start : Nat) (gap : List Char) (ls : List Lexeme) :
    place start (⟨.blank, gap⟩ :: ls) = place (start + byteSize gap) ls :=
  rfl

theorem place_gapLexeme (start : Nat) (gap : List Char) (ls : List Lexeme) :
    place start (gapLexeme gap ++ ls) = place (start + byteSize gap) ls := by
  unfold gapLexeme
  split
  · next hgap => rw [hgap]; rfl
  · rfl

theorem joined_gapLexeme (gap : List Char) (ls : List Lexeme) :
    joined (gapLexeme gap ++ ls) = gapLexeme gap ++ joined ls := by
  unfold gapLexeme
  split
  · rfl
  · exact joined_cons_of_readable LexemeKind.noConfusion

theorem spelling_gapLexeme (gap : List Char) : spelling (gapLexeme gap) = gap := by
  unfold gapLexeme
  split
  · next hgap => rw [hgap]; rfl
  · exact List.append_nil gap

/-- Where a gap ends, what is in front of it and what is behind it are cut alone. -/
theorem joined_append_gapLexeme (front : List Lexeme) (gap : List Char) :
    joined (front ++ gapLexeme gap) = joined front ++ gapLexeme gap := by
  unfold gapLexeme
  split
  · rw [List.append_nil, List.append_nil]
  · exact joined_append_cons LexemeKind.noConfusion front []

/-- The tokens of two texts with a line feed between them are those of the first one and, further
behind, those of the second one. -/
theorem tokens_append_feed (a b : String) : tokens (a ++ "\n" ++ b) =
    tokens a ++ (tokens b).map (Token.shift (a.utf8ByteSize + 1)) := by
  obtain ⟨front, gap, hfirst, hboth⟩ := lexemes_append_feed a.toList b.toList
  have htext : (a ++ "\n" ++ b).toList = a.toList ++ '\n' :: b.toList := by simp
  have hsecond : lexemes b.toList = gapLexeme (b.toList.takeWhile isGap) ++
      lexemes (b.toList.dropWhile isGap) := by
    have hgap : ∀ c ∈ b.toList.takeWhile isGap, isGap c := fun c hc => List.mem_takeWhile_imp hc
    rw [← lexemes_gap_append hgap (head?_dropWhile_gap b.toList), List.takeWhile_append_dropWhile]
  have hsize : a.utf8ByteSize = byteSize (spelling (joined front)) + byteSize gap := by
    have hspelling := congrArg spelling hfirst
    rw [spelling_lexemes, spelling_append, spelling_gapLexeme] at hspelling
    rw [spelling_joined, ← byteSize_append, ← hspelling, byteSize_eq, String.ofList_toList]
  have hfeed : byteSize (gap ++ '\n' :: b.toList.takeWhile isGap) =
      byteSize gap + (1 + byteSize (b.toList.takeWhile isGap)) := by
    rw [byteSize_append, byteSize_cons]
    rfl
  have hjoined : joined (front ++ ⟨.blank, gap ++ '\n' :: b.toList.takeWhile isGap⟩ ::
      lexemes (b.toList.dropWhile isGap)) = joined front ++
        ⟨.blank, gap ++ '\n' :: b.toList.takeWhile isGap⟩ ::
          joined (lexemes (b.toList.dropWhile isGap)) :=
    joined_append_cons LexemeKind.noConfusion front _
  have htokensA : tokens a = place 0 (joined front) := by
    rw [tokens, hfirst, joined_append_gapLexeme, place_append]
    have hnil := place_gapLexeme (0 + byteSize (spelling (joined front))) gap []
    rw [List.append_nil] at hnil
    rw [hnil, place, List.append_nil]
  have htokensB : tokens b = place (byteSize (b.toList.takeWhile isGap))
      (joined (lexemes (b.toList.dropWhile isGap))) := by
    rw [tokens, hsecond, joined_gapLexeme, place_gapLexeme, Nat.zero_add]
  have hstart : 0 + byteSize (spelling (joined front)) +
      byteSize (gap ++ '\n' :: b.toList.takeWhile isGap) =
        byteSize (b.toList.takeWhile isGap) + (a.utf8ByteSize + 1) := by
    rw [hfeed, hsize]
    omega
  rw [tokens, htext, hboth, hjoined, place_append, place_blank, hstart, place_shift, ← htokensA,
    ← htokensB]

end Lines

end TypeGraph.Schema
