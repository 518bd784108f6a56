import TypeGraph.Proofs.Schema.Covering
/-!
Strings are read back as they were written, with whatever escapes, and every string token that there
is has been written so: its escapes are whole.
-/

namespace TypeGraph.Schema

open scoped Computability

/-- A character between quotes, with the escapes that can be done without if `spare`. -/
def writtenChar (spare : Bool) (c : Char) : List Char :=
  if spare && c == '\t' then ['\\', 't']
  else if spare && c == '\r' then ['\\', 'r']
  else if spare && c == Char.ofNat 0 then ['\\', '0']
  else quotedChar c

/-- Characters between quotes; `spare` says at which places there are escapes that could be done
without. -/
def written (spare : Nat → Bool) : List Char → List Char
  | [] => []
  | c :: cs => writtenChar (spare 0) c ++ written (fun i => spare (i + 1)) cs

/-- A string as it is written in a text. -/
def writtenString (spare : Nat → Bool) (s : String) : String :=
  String.ofList ('"' :: (written spare s.toList ++ ['"']))

/-- What is between quotes, read without any leniency: a backslash at the end is an error. -/
def unescape? : List Char → Option (List Char)
  | [] => some []
  | c :: cs =>
    if c = '\\' then
      match cs with
      | [] => none
      | d :: ds => (unescape? ds).map (escaped d :: ·)
    else (unescape? cs).map (c :: ·)

section Escapes

variable {c : Char} {w cs ds : List Char}

/-- Characters between quotes that stand for `c`: itself, or an escape. -/
inductive StandsFor (c : Char) : List Char → Prop
  | plain (h : c ≠ '"' ∧ c ≠ '\\' ∧ c ≠ '\n') : StandsFor c [c]
  | escape {d : Char} (hd : d ≠ '\n') (h : escaped d = c) : StandsFor c ['\\', d]

theorem standsFor_quotedChar (c : Char) : StandsFor c (quotedChar c) := by
  by_cases hslash : c = '\\'
  · exact hslash ▸ .escape (by decide) rfl
  by_cases hquote : c = '"'
  · exact hquote ▸ .escape (by decide) rfl
  by_cases hfeed : c = '\n'
  · exact hfeed ▸ .escape (by decide) rfl
  · rw [quotedChar, if_neg hslash, if_neg hquote, if_neg hfeed]
    exact .plain ⟨hquote, hslash, hfeed⟩

theorem standsFor_writtenChar (spare : Bool) (c : Char) : StandsFor c (writtenChar spare c) := by
  unfold writtenChar
  simp only [Bool.and_eq_true, beq_iff_eq]
  split
  · next h => exact h.2 ▸ .escape (by decide) rfl
  split
  · next h => exact h.2 ▸ .escape (by decide) rfl
  split
  · next h => exact h.2 ▸ .escape (by decide) rfl
  · exact standsFor_quotedChar c

theorem StandsFor.mem_quotable (h : StandsFor c w) : w ∈ Pattern.quotable := by
  cases h with
  | plain hc => exact Schema.mem_quotable.mpr (.inl ⟨c, hc, rfl⟩)
  | escape hd => exact Schema.mem_quotable.mpr (.inr ⟨_, hd, rfl⟩)

theorem StandsFor.unescape_append (h : StandsFor c w) (cs : List Char) :
    unescape (w ++ cs) = c :: unescape cs := by
  cases h with
  | plain hc => exact unescape_cons hc.2.1
  | escape hd heq => rw [← heq, List.cons_append, List.cons_append, List.nil_append, unescape,
      if_pos rfl]

theorem written_mem (spare : Nat → Bool) (cs : List Char) :
    written spare cs ∈ Pattern.quotable∗ := by
  induction cs generalizing spare with
  | nil => exact Language.nil_mem_kstar _
  | cons c cs ih => exact append_mem_kstar (standsFor_writtenChar _ c).mem_quotable (ih _)

theorem unescape_written (spare : Nat → Bool) (cs : List Char) :
    unescape (written spare cs) = cs := by
  induction cs generalizing spare with
  | nil => rfl
  | cons c cs ih => rw [written, (standsFor_writtenChar _ c).unescape_append, ih]

theorem unquoted_quoted (cs : List Char) : unquoted ('"' :: (cs ++ ['"'])) = cs := by
  rw [unquoted, if_pos List.getLast?_concat, List.dropLast_concat]

/-- What is read without leniency is what is read. -/
theorem unescape_of_unescape? (h : unescape? cs = some ds) : unescape cs = ds := by
  fun_induction unescape? cs generalizing ds with
  | case1 =>
    obtain rfl := Option.some.inj h
    rfl
  | case2 => cases h
  | case3 d es ih =>
    obtain ⟨fs, hfs, rfl⟩ := Option.map_eq_some_iff.mp h
    rw [unescape, if_pos rfl, ih hfs]
  | case4 c cs hslash ih =>
    obtain ⟨fs, hfs, rfl⟩ := Option.map_eq_some_iff.mp h
    rw [unescape_cons hslash, ih hfs]

theorem unescape?_cons (hc : c ≠ '\\') : unescape? (c :: cs) = (unescape? cs).map (c :: ·) := by
  cases cs <;> simp [unescape?, hc]

theorem exists_unescape? (hw : w ∈ Pattern.quotable∗) : ∃ ds, unescape? w = some ds := by
  induction hw using kstar_induction with
  | nil => exact ⟨[], rfl⟩
  | append v hv w _ ih =>
    obtain ⟨ds, hds⟩ := ih
    rcases mem_quotable.mp hv with ⟨c, ⟨-, hslash, -⟩, rfl⟩ | ⟨c, -, rfl⟩
    · exact ⟨c :: ds, by rw [List.singleton_append, unescape?_cons hslash, hds, Option.map_some]⟩
    · exact ⟨escaped c :: ds, congrArg (Option.map (escaped c :: ·)) hds⟩

end Escapes

theorem tokens_writtenString (spare : Nat → Bool) (s : String) :
    tokens (writtenString spare s) =
      [⟨.string, writtenString spare s, ⟨0, (writtenString spare s).utf8ByteSize⟩⟩] := by
  have hquote : closingQuote (written spare s.toList ++ ['"']) =
      some (written spare s.toList ++ ['"']).length := by
    rw [closingQuote_of_mem (written_mem spare s.toList) [], List.length_append]
    rfl
  have hextent : extent '"' (written spare s.toList ++ ['"']) =
      (.token .string, (written spare s.toList ++ ['"']).length) := by
    rw [extent_quote, hquote]
    rfl
  have hlexemes := lexemes_cons hextent
  rw [List.take_length, List.drop_length, lexemes] at hlexemes
  have hsize := byteSize_eq ('"' :: (written spare s.toList ++ ['"']))
  rw [tokens, writtenString, String.toList_ofList, hlexemes, ← hsize]
  simp only [joined, place, Lexeme.token?, Option.toList_some, List.append_nil, Nat.zero_add]

/-- A string is read back from its text, which is one token; and between the quotes of a string
token no backslash is left over. -/
theorem strings_are_read_back :
    (∀ (spare : Nat → Bool) (s : String),
      tokens (writtenString spare s) =
        [⟨.string, writtenString spare s, ⟨0, (writtenString spare s).utf8ByteSize⟩⟩] ∧
      stringValue (writtenString spare s) = s) ∧
    ∀ text : String, ∀ t ∈ tokens text, t.kind = .string → ∃ body,
      t.text.toList = '"' :: (body ++ ['"']) ∧ unquoted t.text.toList = body ∧
        unescape? body = some (unescape body) := by
  refine ⟨fun spare s => ⟨tokens_writtenString spare s, ?_⟩, fun text t ht hkind => ?_⟩
  · rw [stringValue, writtenString, String.toList_ofList, unquoted_quoted, unescape_written,
      String.ofList_toList]
  · have hmem : t.text.toList ∈ Pattern.string := by
      have hpattern := mem_pattern_of_token ht (hkind ▸ TokenKind.noConfusion)
      rwa [hkind] at hpattern
    cases htext : t.text.toList with
    | nil => exact absurd (htext ▸ hmem) (nil_not_mem_pattern (.token .string))
    | cons c cs =>
      rw [htext] at hmem
      obtain ⟨rfl, body, hbody, rfl⟩ := cons_mem_string.mp hmem
      obtain ⟨ds, hds⟩ := exists_unescape? hbody
      exact ⟨body, rfl, unquoted_quoted body, by rw [hds, unescape_of_unescape? hds]⟩

end TypeGraph.Schema
