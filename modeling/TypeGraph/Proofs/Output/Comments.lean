import Mathlib.Data.List.Chain
import Mathlib.Data.List.TakeWhile
import TypeGraph.Proofs.Output.Lines
/-!
Comments. A documentation comment ends where it is meant to end, whatever the documentation says,
and a comment behind an enum member stays on the line of the member.
-/

namespace TypeGraph.Output.TypeScript

/-- Nothing in the text ends a comment. -/
def Unclosing (text : String) : Prop :=
  text.toList.IsChain fun c d => c = '*' → d ≠ '/'

instance (text : String) : Decidable (Unclosing text) :=
  inferInstanceAs (Decidable (List.IsChain _ _))

/-- Nothing in the text ends a comment, nor does its end together with what follows. -/
def Harmless (text : String) : Prop :=
  ∀ rest, Unclosing rest → Unclosing (text ++ rest)

section Blanks

variable {p : Char → Bool} {cs piece : List Char}

theorem trimEnd_eq_nil_iff : Text.trimEnd cs = [] ↔ ∀ c ∈ cs, Text.isBlank c := by
  rw [Text.trimEnd, List.reverse_eq_nil_iff, List.dropWhile_eq_nil_iff]
  simp

theorem trim_eq_nil_iff : Text.trim cs = [] ↔ ∀ c ∈ cs, Text.isBlank c := by
  rw [Text.trim, trimEnd_eq_nil_iff, Text.trimStart]
  refine ⟨fun h => ?_, fun h c hc => h c ((List.dropWhile_suffix _).subset hc)⟩
  induction cs with
  | nil => simp
  | cons c cs ih =>
    rw [List.dropWhile_cons] at h
    split at h
    · next hc => exact List.forall_mem_cons.mpr ⟨hc, ih h⟩
    · exact h

theorem trimEnd_prefix (cs : List Char) : Text.trimEnd cs <+: cs := by
  rw [Text.trimEnd, ← List.reverse_suffix, List.reverse_reverse]
  exact List.dropWhile_suffix _

theorem prefix_of_pieces_eq_cons {rest : List (List Char)} (h : Text.pieces p cs = piece :: rest) :
    piece <+: cs ∧ ∀ piece' ∈ rest, piece' <:+: cs := by
  induction cs generalizing piece rest with
  | nil => simp_all [Text.pieces]
  | cons c cs ih =>
    rw [Text.pieces] at h
    split at h
    · obtain ⟨rfl, rfl⟩ := List.cons.inj h
      refine ⟨List.nil_prefix, fun piece hpiece => ?_⟩
      cases hp : Text.pieces p cs with
      | nil => exact absurd hp (Text.pieces_ne_nil p cs)
      | cons first others =>
        rw [hp] at hpiece
        have hfirst := ih hp
        rcases List.mem_cons.mp hpiece with rfl | hpiece
        · exact List.infix_cons hfirst.1.isInfix
        · exact List.infix_cons (hfirst.2 piece hpiece)
    · split at h
      · next first others hp =>
        obtain ⟨rfl, rfl⟩ := List.cons.inj h
        have hfirst := ih hp
        exact ⟨List.cons_prefix_cons.mpr ⟨rfl, hfirst.1⟩, fun piece hpiece =>
          List.infix_cons (hfirst.2 piece hpiece)⟩
      · next hp => exact absurd hp (Text.pieces_ne_nil p cs)

theorem infix_of_mem_pieces (h : piece ∈ Text.pieces p cs) : piece <:+: cs := by
  cases hp : Text.pieces p cs with
  | nil => exact absurd hp (Text.pieces_ne_nil p cs)
  | cons first others =>
    have hfirst := prefix_of_pieces_eq_cons hp
    rw [hp] at h
    rcases List.mem_cons.mp h with rfl | h
    · exact hfirst.1.isInfix
    · exact hfirst.2 piece h

end Blanks

section Harmless

variable {text text' : String}

theorem Unclosing.harmless (h : Unclosing text) (hlast : ∀ c ∈ text.toList.getLast?, c ≠ '*') :
    Harmless text := by
  intro rest hrest
  rw [Unclosing, String.toList_append]
  exact List.isChain_append.mpr ⟨h, hrest, fun c hc d _ hstar => absurd hstar (hlast c hc)⟩

theorem Harmless.unclosing (h : Harmless text) : Unclosing text := by
  simpa using h "" List.isChain_nil

theorem Harmless.append (h : Harmless text) (h' : Harmless text') : Harmless (text ++ text') := by
  intro rest hrest
  rw [String.append_assoc]
  exact h _ (h' rest hrest)

/-- What does not begin with a slash, behind a text that may end in a star. -/
theorem Unclosing.append (h : Unclosing text) (h' : Harmless text')
    (hhead : ∃ c, text'.toList.head? = some c ∧ c ≠ '/') : Harmless (text ++ text') := by
  intro rest hrest
  obtain ⟨c, hc, hslash⟩ := hhead
  rw [String.append_assoc, Unclosing, String.toList_append]
  refine List.isChain_append.mpr ⟨h, h' rest hrest, fun _ _ d hd _ => ?_⟩
  rw [String.toList_append, List.head?_append, hc, Option.some_or] at hd
  exact Option.some.inj hd ▸ hslash

theorem harmless_join {texts : List String} (h : ∀ text ∈ texts, Harmless text) :
    Harmless (String.join texts) := by
  induction texts with
  | nil => exact fun rest hrest => by rwa [String.join_nil, String.empty_append]
  | cons text texts ih =>
    rw [String.join_cons]
    obtain ⟨htext, htexts⟩ := List.forall_mem_cons.mp h
    exact htext.append (ih htexts)

theorem harmless_of_not_mem (h : '*' ∉ text.toList) : Harmless text := by
  have hne : ∀ c ∈ text.toList, c ≠ '*' := fun c hc hstar => h (hstar ▸ hc)
  refine Unclosing.harmless ?_ fun c hc => hne c (List.mem_of_mem_getLast? hc)
  exact (List.isChain_iff_forall_rel_of_append_cons_cons).mpr fun c d before after heq hstar =>
    absurd hstar (hne c (by simp [heq]))

theorem head?_escapeComment (cs : List Char) : (escapeComment cs).head? = cs.head? := by
  fun_cases escapeComment cs <;> rfl

theorem isChain_escapeComment (cs : List Char) :
    (escapeComment cs).IsChain fun c d => c = '*' → d ≠ '/' := by
  fun_induction escapeComment cs with
  | case1 cs ih => simp [List.isChain_cons, ih]
  | case2 c cs hnot ih =>
    refine List.isChain_cons.mpr ⟨fun d hd hstar hslash => ?_, ih⟩
    rw [head?_escapeComment] at hd
    obtain ⟨ds, rfl⟩ := List.head?_eq_some_iff.mp hd
    exact hnot ds hstar (by rw [hslash])
  | case3 => exact List.isChain_nil

end Harmless

section Documentation

variable {indent doc line : String}

theorem docLines_eq_nil_iff : docLines doc = [] ↔ ∀ c ∈ doc.toList, Text.isBlank c := by
  have hescape (cs : List Char) : escapeComment cs = [] ↔ cs = [] := by
    rw [← List.head?_eq_none_iff, head?_escapeComment, List.head?_eq_none_iff]
  rw [← trim_eq_nil_iff, ← hescape, docLines]
  split
  · next h => exact iff_of_true rfl h
  · next h =>
    refine iff_of_false (fun hlines => ?_) h
    exact Text.pieces_ne_nil _ _ (List.map_eq_nil_iff.mp hlines)

theorem docLines_harmless (h : line ∈ docLines doc) : Unclosing line ∧ '\n' ∉ line.toList := by
  rw [docLines] at h
  split at h
  · simp at h
  · obtain ⟨piece, hpiece, rfl⟩ := List.mem_map.mp h
    have htrimmed := trimEnd_prefix piece
    rw [Unclosing, String.toList_ofList]
    constructor
    · obtain ⟨front, back, hcut⟩ := htrimmed.isInfix.trans (infix_of_mem_pieces hpiece)
      have hchain := isChain_escapeComment (Text.trim doc.toList)
      rw [← hcut] at hchain
      exact hchain.left_of_append.right_of_append
    · intro hfeed
      simpa using Text.not_of_mem_pieces hpiece '\n' (htrimmed.subset hfeed)

/-- A line inside a block. -/
def starred (line : String) : String :=
  if line = "" then " *" else " * " ++ line

/-- A comment without the indents and the ends of its lines. -/
def docRows : List String → List String
  | [] => []
  | [line] => ["/** " ++ line ++ " */"]
  | lines => "/**" :: (lines.map starred ++ [" */"])

theorem docComment_eq_join (indent doc : String) :
    docComment indent doc = String.join ((docRows (docLines doc)).map (indent ++ · ++ "\n")) := by
  have hstarred (line : String) : indent ++ starred line ++ "\n" =
      if line = "" then indent ++ " *\n" else indent ++ " * " ++ line ++ "\n" := by
    unfold starred
    split
    · rw [String.append_assoc]
      rfl
    · rw [← String.append_assoc]
  rw [docComment]
  rcases docLines doc with _ | ⟨line, _ | ⟨next, lines⟩⟩
  · rfl
  · simp [docRows, String.append_assoc]
  · simp only [← hstarred]
    apply String.toList_inj.mp
    simp [docRows, Function.comp_def]

theorem harmless_starred (h : Unclosing line) : Harmless (starred line ++ "\n") := by
  have hfeed : Harmless "\n" := harmless_of_not_mem (by decide)
  unfold starred
  split
  · exact Unclosing.append (by decide) hfeed ⟨'\n', rfl, by decide⟩
  · have hstar : Harmless " * " := Unclosing.harmless (by decide) (by simp)
    rw [String.append_assoc]
    exact hstar.append (h.append hfeed ⟨'\n', rfl, by decide⟩)

/-- What stands between the opening of a comment and its end. -/
theorem exists_body (hindent : ∀ c ∈ indent.toList, Text.isBlank c) (h : docLines doc ≠ []) :
    ∃ body, docComment indent doc = indent ++ "/**" ++ body ++ "*/\n" ∧
      Unclosing ("/**" ++ body) := by
  have hmargin : Harmless indent := by
    refine harmless_of_not_mem fun hstar => ?_
    exact absurd (hindent '*' hstar) (by decide)
  have hblank : Harmless " " := harmless_of_not_mem (by decide)
  rw [docComment_eq_join]
  rcases hd : docLines doc with _ | ⟨line, _ | ⟨next, lines⟩⟩
  · exact absurd hd h
  · refine ⟨" " ++ line ++ " ", String.toList_inj.mp (by simp [docRows]), ?_⟩
    have hline : Harmless (line ++ " ") :=
      (docLines_harmless (hd ▸ List.mem_singleton_self line)).1.append hblank ⟨' ', rfl, by decide⟩
    have hopening : Harmless ("/**" ++ " ") :=
      Unclosing.append (by decide) hblank ⟨' ', rfl, by decide⟩
    simpa only [String.append_assoc] using (hopening.append hline).unclosing
  · refine ⟨"\n" ++ String.join (((line :: next :: lines).map starred).map (indent ++ · ++ "\n")) ++
      (indent ++ " "), String.toList_inj.mp (by simp [docRows]), ?_⟩
    have hfeed : Harmless "\n" := harmless_of_not_mem (by decide)
    have hrows : ∀ row ∈ ((line :: next :: lines).map starred).map (indent ++ · ++ "\n"),
        Harmless row := by
      simp only [List.map_map, List.mem_map, Function.comp_apply]
      rintro row ⟨line, hline, rfl⟩
      rw [← hd] at hline
      rw [String.append_assoc]
      exact hmargin.append (harmless_starred (docLines_harmless hline).1)
    have hbody := (hfeed.append (harmless_join hrows)).append (hmargin.append hblank)
    exact (Unclosing.append (by decide) hbody ⟨'\n', by simp, by decide⟩).unclosing

/-- Behind a text that does not end a comment the first end is the one that follows. -/
theorem end_unique {text before after : String} (h : Unclosing text)
    (heq : text ++ "*/\n" = before ++ "*/" ++ after) : after = "\n" := by
  have hlists : text.toList ++ ['*', '/', '\n'] = before.toList ++ '*' :: '/' :: after.toList := by
    simpa using congrArg String.toList heq
  apply String.toList_inj.mp
  rcases List.append_eq_append_iff.mp hlists with ⟨more, -, hmore⟩ | ⟨more, htext, hmore⟩
  · rcases more with _ | ⟨c, _ | ⟨d, _ | ⟨e, more⟩⟩⟩ <;> simp_all
  · rcases more with _ | ⟨c, _ | ⟨d, more⟩⟩
    · simpa using hmore
    · simp at hmore
    · obtain ⟨rfl, rfl, -⟩ : '*' = c ∧ '/' = d ∧ after.toList = more ++ ['*', '/', '\n'] := by
        simpa using hmore
      rw [Unclosing, List.isChain_iff_forall_rel_of_append_cons_cons] at h
      exact absurd rfl (h htext rfl)

/-- A comment is made of its rows, each on a line of its own. -/
theorem not_mem_docRows {row : String} (h : row ∈ docRows (docLines doc)) : '\n' ∉ row.toList := by
  have hline {line : String} (h : line ∈ docLines doc) : '\n' ∉ line.toList :=
    (docLines_harmless h).2
  have hstarred {line : String} (h : '\n' ∉ line.toList) : '\n' ∉ (starred line).toList := by
    unfold starred
    split
    · decide
    · simpa using h
  rcases hd : docLines doc with _ | ⟨line, _ | ⟨next, lines⟩⟩
  · simp [hd, docRows] at h
  · rw [hd] at h hline
    obtain rfl := List.mem_singleton.mp h
    simpa using hline (List.mem_singleton_self line)
  · rw [hd] at h hline
    simp only [docRows, List.mem_cons, List.mem_append, List.mem_map, List.not_mem_nil,
      or_false] at h
    rcases h with rfl | ⟨line, hmem, rfl⟩ | rfl
    · decide
    · exact hstarred (hline (by simpa using hmem))
    · decide

theorem docComment_eq_nil_iff (hindent : ∀ c ∈ indent.toList, Text.isBlank c) :
    docComment indent doc = "" ↔ ∀ c ∈ doc.toList, Text.isBlank c := by
  rw [← docLines_eq_nil_iff]
  refine ⟨fun h => ?_, fun h => by rw [docComment, h]⟩
  by_contra hne
  obtain ⟨body, hbody, -⟩ := exists_body hindent hne
  simpa using congrArg String.toList (hbody.symm.trans h)

end Documentation

/-- Comments stay comments, whatever the texts in them are. A documentation comment is empty if and
only if there is nothing but blanks to say; otherwise it begins with the indent and `/**`, and no
`*/` stands in it before the one at its end. It is made of rows with the indent in front of each. An
enum member is on one line, its comment is without any characters that end lines, and the comment is
missing if and only if there is nothing but blanks to say. -/
theorem comments_stay_comments :
    (∀ indent doc : String, (∀ c ∈ indent.toList, Text.isBlank c) →
      (docComment indent doc = "" ↔ ∀ c ∈ doc.toList, Text.isBlank c) ∧
      (docComment indent doc ≠ "" →
        ∃ body, docComment indent doc = indent ++ "/**" ++ body ++ "*/\n" ∧
          ∀ before after, "/**" ++ body ++ "*/\n" = before ++ "*/" ++ after → after = "\n") ∧
      ∃ rows : List String, docComment indent doc = String.join (rows.map (indent ++ · ++ "\n")) ∧
        ∀ row ∈ rows, '\n' ∉ row.toList) ∧
    ∀ m : EnumMember, ∃ entry,
      enumMember m = m.indent ++ entry ++ trailingComment m.comment ++ "\n" ∧
      OnLine (entry ++ trailingComment m.comment) ∧
      (∀ c ∈ (trailingComment m.comment).toList, ¬IsTerminator c) ∧
      (trailingComment m.comment = "" ↔ ∀ c ∈ (m.comment.getD "").toList, Text.isBlank c) := by
  refine ⟨fun indent doc hindent => ⟨docComment_eq_nil_iff hindent, fun hne => ?_, ?_⟩, fun m => ?_⟩
  · have hlines : docLines doc ≠ [] := fun h => hne (by rw [docComment, h])
    obtain ⟨body, hbody, hunclosing⟩ := exists_body hindent hlines
    exact ⟨body, hbody, fun before after heq => end_unique hunclosing heq⟩
  · exact ⟨docRows (docLines doc), docComment_eq_join indent doc, fun row => not_mem_docRows⟩
  · obtain ⟨entry, hentry, hline⟩ := exists_entry m
    exact ⟨entry, hentry, hline.append (onLine_trailingComment m.comment),
      fun c => not_isTerminator_trailingComment, trailingComment_eq_nil_iff m.comment⟩

/-- The end of a comment in the documentation, and a last line that begins with a slash and ends in
a star. -/
theorem ended_doc_stays_comment :
    docComment "  " "**/\n\n/c*" = "  /**\n   * **\\/\n   *\n   * /c*\n   */\n" ∧
      (∀ c ∈ "  ".toList, Text.isBlank c) ∧ docComment "  " "**/\n\n/c*" ≠ "" ∧
      ∃ body, docComment "  " "**/\n\n/c*" = "  " ++ "/**" ++ body ++ "*/\n" ∧
        ∀ before after, "/**" ++ body ++ "*/\n" = before ++ "*/" ++ after → after = "\n" := by
  have hindent : ∀ c ∈ "  ".toList, Text.isBlank c := List.all_eq_true.mp (by decide)
  have hdoc : ¬∀ c ∈ "**/\n\n/c*".toList, Text.isBlank c := mt List.all_eq_true.mpr (by decide)
  obtain ⟨hempty, hbody, -⟩ := comments_stay_comments.1 "  " "**/\n\n/c*" hindent
  have hne : docComment "  " "**/\n\n/c*" ≠ "" := mt hempty.mp hdoc
  exact ⟨by decide +kernel, hindent, hne, hbody hne⟩

end TypeGraph.Output.TypeScript
