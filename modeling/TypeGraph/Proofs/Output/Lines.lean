import Mathlib.Tactic.SplitIfs
import TypeGraph.Output.TypeScript
/-!
What stays on one line: literals, the names of properties, and comments behind enum members.
-/

namespace TypeGraph.Output.TypeScript

/-- The characters that end a line. -/
def IsTerminator (c : Char) : Prop :=
  c = '\n' ∨ c = '\r' ∨ c = '\u2028' ∨ c = '\u2029'

/-- Text without line feeds and carriage returns. -/
def OnLine (text : String) : Prop :=
  ∀ c ∈ text.toList, c ≠ '\n' ∧ c ≠ '\r'

instance (text : String) : Decidable (OnLine text) :=
  List.decidableBAll (fun c => c ≠ '\n' ∧ c ≠ '\r') text.toList

section Words

variable {p : Char → Bool} {cs : List Char}

theorem pieces_all_nil_iff : (∀ piece ∈ Text.pieces p cs, piece = []) ↔ ∀ c ∈ cs, p c := by
  induction cs with
  | nil => simp [Text.pieces]
  | cons c cs ih =>
    rw [Text.pieces]
    split
    · next hc => simp [hc, ih]
    · next hc => split <;> simp [hc]

theorem words_eq_nil_iff : Text.words cs = [] ↔ ∀ c ∈ cs, Text.isBlank c := by
  rw [← pieces_all_nil_iff, Text.words, List.filter_eq_nil_iff]
  simp

theorem onOneLine_eq_nil_iff : Text.onOneLine cs = [] ↔ ∀ c ∈ cs, Text.isBlank c := by
  rw [← words_eq_nil_iff, Text.onOneLine]
  cases hwords : Text.words cs with
  | nil => simp
  | cons word words =>
    have hne : word ≠ [] := by
      have hmem : word ∈ Text.words cs := hwords ▸ List.mem_cons_self
      simpa using (List.mem_filter.mp hmem).2
    cases words <;> simp [List.intercalate_cons_cons, hne]

theorem mem_intercalate {c : Char} {between : List Char} {texts : List (List Char)}
    (h : c ∈ between.intercalate texts) : c ∈ between ∨ ∃ text ∈ texts, c ∈ text := by
  induction texts with
  | nil => simp at h
  | cons text texts ih =>
    cases texts with
    | nil => exact .inr ⟨text, by simp, by simpa using h⟩
    | cons next texts =>
      rw [List.intercalate_cons_cons, List.mem_append, List.mem_append] at h
      rcases h with (h | h) | h
      · exact .inr ⟨text, by simp, h⟩
      · exact .inl h
      · exact (ih h).imp_right fun hmem => hmem.imp fun _ hm => ⟨List.mem_cons_of_mem _ hm.1, hm.2⟩

/-- On one line, the only blanks are the spaces between the words. -/
theorem mem_onOneLine {c : Char} (h : c ∈ Text.onOneLine cs) :
    c = ' ' ∨ Text.isBlank c = false := by
  rcases mem_intercalate h with hspace | ⟨word, hword, hc⟩
  · exact .inl (List.mem_singleton.mp hspace)
  · exact .inr (Text.not_of_mem_pieces (List.mem_filter.mp hword).1 c hc)

end Words

section Members

variable {text text' : String}

theorem OnLine.append (h : OnLine text) (h' : OnLine text') : OnLine (text ++ text') := by
  intro c hc
  rw [String.toList_append] at hc
  exact (List.mem_append.mp hc).elim (h c) (h' c)

theorem onLine_ofList {cs : List Char} (h : ∀ c ∈ cs, c ≠ '\n' ∧ c ≠ '\r') :
    OnLine (String.ofList cs) := by
  rwa [OnLine, String.toList_ofList]

/-- Quoted, what would break the line is escaped. -/
theorem onLine_quote (text : String) : OnLine (Text.Quoted.quote text) := by
  have hhex (n : Nat) : Text.Quoted.hexDigit n ≠ '\n' ∧ Text.Quoted.hexDigit n ≠ '\r' := by
    have hall : ∀ k < 16, Nat.digitChar k ≠ '\n' ∧ Nat.digitChar k ≠ '\r' := by decide
    exact hall (n % 16) (Nat.mod_lt n (by decide))
  have hescape (c : Char) : ∀ d ∈ Text.Quoted.escape c, d ≠ '\n' ∧ d ≠ '\r' := by
    unfold Text.Quoted.escape
    split_ifs with _ _ hfeed hreturn
    iterate 7 · simp
    · have hhigh := hhex (c.toNat / 16)
      have hlow := hhex c.toNat
      simp [hhigh, hlow]
    · exact List.forall_mem_singleton.mpr ⟨hfeed, hreturn⟩
  apply onLine_ofList
  simp only [Text.Quoted.encode, List.forall_mem_cons, List.forall_mem_append, List.mem_flatMap]
  exact ⟨by decide, fun d ⟨c, _, hd⟩ => hescape c d hd, by simp⟩

theorem onLine_of_isDigit {cs : List Char} (h : ∀ c ∈ cs, c.isDigit) :
    OnLine (String.ofList cs) := by
  refine onLine_ofList fun c hc => ⟨?_, ?_⟩ <;>
    · rintro rfl
      exact absurd (h _ hc) (by decide)

theorem isDigit_toDigits (n : Nat) : ∀ c ∈ Nat.toDigits 10 n, c.isDigit :=
  fun _ hc => Nat.isDigit_of_mem_toDigits (by decide) (by decide) hc

theorem onLine_nat (value : Nat) : OnLine (toString value) := by
  rw [Nat.toString_eq_repr, Nat.repr_eq_ofList_toDigits]
  exact onLine_of_isDigit (isDigit_toDigits value)

theorem onLine_int (value : Int) : OnLine (toString value) := by
  rw [Int.toString_eq_repr, Int.repr_eq_if]
  split
  · exact onLine_nat _
  · exact OnLine.append (by decide) (onLine_nat _)

theorem onLine_zeros (n : Nat) : OnLine (Decimal.zeros n) := by
  refine onLine_of_isDigit fun c hc => ?_
  rw [List.eq_of_mem_replicate hc]
  decide

theorem onLine_positional (d : Decimal) {fraction : String} (h : OnLine fraction) :
    OnLine (d.positional fraction) := by
  have hdigits := isDigit_toDigits d.digits
  unfold Decimal.positional
  simp only
  split
  · exact ((onLine_of_isDigit hdigits).append (onLine_zeros _)).append h
  split
  · refine ((onLine_of_isDigit fun c hc => ?_).append (by decide)).append
      (onLine_of_isDigit fun c hc => ?_)
    · exact hdigits c (List.mem_of_mem_take hc)
    · exact hdigits c (List.mem_of_mem_drop hc)
  · exact (OnLine.append (by decide) (onLine_zeros _)).append (onLine_of_isDigit hdigits)

theorem onLine_binary64 (value : Binary64) : OnLine value.text := by
  have hsign (negative : Bool) : OnLine (Binary64.signText negative) := by
    cases negative <;> decide
  unfold Binary64.text
  split
  · decide
  · exact (hsign _).append (by decide)
  · exact (hsign _).append (by decide)
  · exact (hsign _).append (onLine_positional _ (by decide))

theorem onLine_literal (value : Literal) : OnLine (literal value) := by
  cases value with
  | string value => exact onLine_quote value
  | int value => exact onLine_int value.toInt
  | uint value => exact onLine_nat value.toNat
  | float value => exact onLine_binary64 value

theorem onLine_propertyName (name : String) : OnLine (propertyName name) := by
  unfold propertyName
  split
  · next h =>
    obtain ⟨_, _, -, -, hparts⟩ := isIdentifier_cases h
    refine fun c hc => ⟨?_, ?_⟩ <;>
    · rintro rfl
      exact absurd (hparts _ hc) (by decide)
  · exact onLine_quote name

theorem trailingComment_eq_nil_iff (comment? : Option String) :
    trailingComment comment? = "" ↔ ∀ c ∈ (comment?.getD "").toList, Text.isBlank c := by
  rw [← onOneLine_eq_nil_iff, trailingComment]
  split
  · next h => exact iff_of_true rfl h
  · next h =>
    refine iff_of_false (fun heq => ?_) h
    simpa using congrArg String.toList heq

theorem isBlank_of_isTerminator {c : Char} (h : IsTerminator c) : Text.isBlank c := by
  rcases h with rfl | rfl | rfl | rfl <;> decide

theorem not_isTerminator_trailingComment {comment? : Option String} {c : Char}
    (h : c ∈ (trailingComment comment?).toList) : ¬IsTerminator c := by
  have hspace : ¬IsTerminator ' ' := by simp [IsTerminator]
  have hslash : ¬IsTerminator '/' := by simp [IsTerminator]
  have hwords : ∀ c ∈ Text.onOneLine (comment?.getD "").toList, ¬IsTerminator c := by
    intro c hc hend
    have hspaced := (mem_onOneLine hc).resolve_right (by simp [isBlank_of_isTerminator hend])
    exact hspace (hspaced ▸ hend)
  rw [trailingComment] at h
  split at h
  · simp at h
  · have hparts : (c = ' ' ∨ c = '/' ∨ c = ' ') ∨
        c ∈ Text.onOneLine (comment?.getD "").toList := by
      simpa [or_assoc] using h
    rcases hparts with (rfl | rfl | rfl) | hc
    · exact hspace
    · exact hslash
    · exact hspace
    · exact hwords c hc

theorem onLine_trailingComment (comment? : Option String) : OnLine (trailingComment comment?) := by
  intro c hc
  have hnot := not_isTerminator_trailingComment hc
  exact ⟨fun hfeed => hnot (.inl hfeed), fun hreturn => hnot (.inr (.inl hreturn))⟩

/-- A member but for its indent and the end of its line. -/
theorem exists_entry (m : EnumMember) : ∃ entry,
    enumMember m = m.indent ++ entry ++ trailingComment m.comment ++ "\n" ∧ OnLine entry := by
  refine ⟨propertyName m.name ++ " = " ++ literal m.value ++ ",", ?_, ?_⟩
  · simp only [enumMember, String.append_assoc]
  · have hname : OnLine (propertyName m.name ++ " = ") :=
      (onLine_propertyName m.name).append (by decide)
    exact (hname.append (onLine_literal m.value)).append (by decide)

end Members

end TypeGraph.Output.TypeScript
