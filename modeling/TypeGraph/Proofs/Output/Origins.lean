import Mathlib.Data.List.TakeWhile
import TypeGraph.Proofs.Output.Lines
/-!
Where the origins of declarations stand in the output. Every declaration has a comment with its
package and its type, behind its documentation and in front of its code, and a line of its own as
long as nothing in it ends the line.
-/

namespace TypeGraph.Output.TypeScript

instance : DecidablePred IsTerminator :=
  fun c => inferInstanceAs (Decidable (c = '\n' ∨ c = '\r' ∨ c = '\u2028' ∨ c = '\u2029'))

/-- A text in which nothing ends a line. -/
def Unbroken (text : String) : Prop :=
  ∀ c ∈ text.toList, ¬IsTerminator c

instance (text : String) : Decidable (Unbroken text) :=
  List.decidableBAll (fun c => ¬IsTerminator c) text.toList

theorem unbroken_append {text text' : String} :
    Unbroken (text ++ text') ↔ Unbroken text ∧ Unbroken text' := by
  rw [Unbroken, String.toList_append, List.forall_mem_append]
  rfl

/-- A text up to the first character that ends a line. -/
def firstLine (text : String) : String :=
  String.ofList (text.toList.takeWhile fun c => ¬IsTerminator c)

/-- A text has its line for itself just where nothing in it ends the line. -/
theorem firstLine_eq_iff (text rest : String) :
    firstLine (text ++ "\n" ++ rest) = text ↔ Unbroken text := by
  have hline : (text ++ "\n" ++ rest).toList = text.toList ++ '\n' :: rest.toList := by simp
  rw [firstLine, hline, ← String.toList_inj, String.toList_ofList]
  constructor
  · intro htaken c hc
    rw [← htaken] at hc
    simpa using List.mem_takeWhile_imp hc
  · intro hunbroken
    rw [List.takeWhile_append_of_pos (by simpa [Unbroken] using hunbroken)]
    simp [IsTerminator]

/-- The comment that says where a declaration comes from. -/
def originComment (d : Declaration) : String :=
  "// " ++ d.provenance.qualified

/-- With a type name that stays on the line, it is the package that breaks the comment or not. -/
theorem unbroken_originComment {d : Declaration} (hname : Unbroken d.provenance.typeName) :
    Unbroken (originComment d) ↔ Unbroken d.provenance.package := by
  have hslashes : Unbroken "// " := by decide
  have hdot : Unbroken "." := by decide
  rw [originComment, unbroken_append, and_iff_right hslashes, Provenance.qualified, qualify]
  split
  · next hempty =>
    have hnone : Unbroken d.provenance.package := by rw [hempty]; decide
    exact iff_of_true hname hnone
  · rw [unbroken_append, unbroken_append, and_iff_left hname, and_iff_left hdot]

/-- What stands in front of the comment of a declaration. -/
def lead (d : Declaration) : String :=
  docOf d.indent d.doc ++ d.indent

theorem exists_code (style : Style) (v : View) (d : Declaration) :
    ∃ code, declaration style v d = lead d ++ (originComment d ++ "\n" ++ code) := by
  simp only [declaration, lead, originComment, String.append_assoc]
  exact ⟨_, rfl⟩

/-- What stands in front of all declarations: the header, and the opening of the namespace. -/
def opening (style : Style) (settings : Settings) : String :=
  headed settings.header ++ settings.scope.elim "" fun scope =>
    exporting style ++ "namespace " ++ scope ++ " \x7b\n"

/-- What stands in front of a declaration: the declarations before it, with an empty line between
them. -/
def preface (style : Style) (v : View) (earlier : List Declaration) : String :=
  opening style v.settings ++ String.join (earlier.map fun d => declaration style v d ++ "\n")

theorem exists_intercalate_append (between text : String) (front back : List String) :
    ∃ rest, between.intercalate (front ++ text :: back) =
      String.join (front.map (· ++ between)) ++ (text ++ rest) := by
  induction front with
  | nil =>
    cases back with
    | nil => exact ⟨"", by simp⟩
    | cons next back =>
      refine ⟨between ++ between.intercalate (next :: back), ?_⟩
      simp [String.intercalate_cons_cons, String.append_assoc]
  | cons first front ih =>
    obtain ⟨rest, hrest⟩ := ih
    refine ⟨rest, ?_⟩
    have hne : front ++ text :: back ≠ [] := by simp
    rw [List.cons_append, String.intercalate_cons_of_ne_nil hne, hrest]
    simp [String.append_assoc]

/-- The text of all declarations is that of one of them, with its place given by those before it. -/
theorem exists_document (style : Style) (v : View) {earlier later : List Declaration}
    {d : Declaration} (h : v.declarations = earlier ++ d :: later) :
    ∃ rest, document style v = preface style v earlier ++ (declaration style v d ++ rest) := by
  obtain ⟨rest, hrest⟩ := exists_intercalate_append "\n" (declaration style v d)
    (earlier.map (declaration style v)) (later.map (declaration style v))
  have hbody : "\n".intercalate (v.declarations.map (declaration style v)) =
      String.join (earlier.map fun d => declaration style v d ++ "\n") ++
        (declaration style v d ++ rest) := by
    rw [h, List.map_append, List.map_cons, hrest, List.map_map]
    rfl
  simp only [document, preface, opening, hbody]
  cases v.settings.scope with
  | none => exact ⟨rest, by simp [String.append_assoc]⟩
  | some scope => exact ⟨rest ++ "\x7d\n", by simp [String.append_assoc]⟩

/-- The comment of every declaration stands behind its documentation, and it has its line for itself
just where nothing in it ends the line. -/
theorem exists_origin (style : Style) (v : View) {earlier later : List Declaration}
    {d : Declaration} (h : v.declarations = earlier ++ d :: later) :
    ∃ rest, document style v =
        preface style v earlier ++ lead d ++ (originComment d ++ "\n" ++ rest) ∧
      (firstLine (originComment d ++ "\n" ++ rest) = originComment d ↔
        Unbroken (originComment d)) := by
  obtain ⟨rest, hrest⟩ := exists_document style v h
  obtain ⟨code, hcode⟩ := exists_code style v d
  refine ⟨code ++ rest, ?_, firstLine_eq_iff _ _⟩
  rw [hrest, hcode]
  simp only [String.append_assoc]

end TypeGraph.Output.TypeScript
