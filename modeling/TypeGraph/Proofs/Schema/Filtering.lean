import TypeGraph.Command.Run
import TypeGraph.Proofs.Output.Origins
/-!
What is left of the diagnostics when follow-up errors are hidden. Whatever source is at fault,
something that it is blamed for is left, so that a run that fails for its schema tells why.
-/

namespace TypeGraph

namespace Diagnostic

variable {ds : List Diagnostic} {d : Diagnostic} {source : SourceId}

/-- A diagnostic about syntax, or one of a source whose syntax is nowhere at fault. -/
def Stays (ds : List Diagnostic) (d : Diagnostic) : Prop :=
  d.kind.isSyntactic ∨ ∀ e ∈ ds, e.source = d.source → ¬e.kind.isSyntactic

/-- Warnings are about the meaning of a text. -/
theorem Kind.severity_of_isSyntactic {kind : Kind} (h : kind.isSyntactic) :
    kind.severity = .error := by
  cases kind <;> first | rfl | cases h

theorem isError_of_isSyntactic (h : d.kind.isSyntactic) : d.isError := by
  simp [isError, severity, Kind.severity_of_isSyntactic h]

theorem isBroken_iff : isBroken ds source ↔ ∃ d ∈ ds, d.kind.isSyntactic ∧ d.source = source := by
  simp [isBroken]

theorem stays_iff : d.Stays ds ↔ d.kind.isSyntactic ∨ ¬isBroken ds d.source := by
  rw [isBroken_iff, Stays]
  grind

theorem mem_filtered : d ∈ filtered ds ↔ d ∈ ds ∧ d.Stays ds := by
  simp [filtered, stays_iff]

/-- What is hidden has a source with a fault of syntax, which stays. -/
theorem exists_isSyntactic (hd : d ∈ ds) (hhidden : d ∉ filtered ds) :
    ∃ e ∈ filtered ds, e.source = d.source ∧ e.kind.isSyntactic := by
  have hbroken : isBroken ds d.source := by
    by_cases h : isBroken ds d.source
    · exact h
    · exact absurd (mem_filtered.mpr ⟨hd, stays_iff.mpr (.inr h)⟩) hhidden
  obtain ⟨e, he, hsyntactic, hsource⟩ := isBroken_iff.mp hbroken
  exact ⟨e, mem_filtered.mpr ⟨he, .inl hsyntactic⟩, hsource, hsyntactic⟩

/-- Something stays of every source that is blamed, and it is no less grave. -/
theorem exists_mem_filtered (hd : d ∈ ds) :
    ∃ e ∈ filtered ds, e.source = d.source ∧ (d.isError → e.isError) := by
  by_cases hstays : d ∈ filtered ds
  · exact ⟨d, hstays, rfl, id⟩
  · obtain ⟨e, he, hsource, hsyntactic⟩ := exists_isSyntactic hd hstays
    exact ⟨e, he, hsource, fun _ => isError_of_isSyntactic hsyntactic⟩

theorem isBroken_filtered (ds : List Diagnostic) (source : SourceId) :
    isBroken (filtered ds) source = isBroken ds source := by
  rw [Bool.eq_iff_iff, isBroken_iff, isBroken_iff]
  constructor
  · rintro ⟨d, hd, hsyntactic, hsource⟩
    exact ⟨d, (mem_filtered.mp hd).1, hsyntactic, hsource⟩
  · rintro ⟨d, hd, hsyntactic, hsource⟩
    exact ⟨d, mem_filtered.mpr ⟨hd, .inl hsyntactic⟩, hsyntactic, hsource⟩

theorem filtered_filtered (ds : List Diagnostic) : filtered (filtered ds) = filtered ds := by
  rw [filtered, List.filter_eq_self]
  intro d hd
  rw [isBroken_filtered]
  exact (List.mem_filter.mp hd).2

theorem count_filtered (h : d.Stays ds) : (filtered ds).count d = ds.count d := by
  apply List.count_filter
  simpa [stays_iff] using h

/-- A source is left with an error if it had one. -/
theorem exists_isError_filtered : (∃ d ∈ filtered ds, d.source = source ∧ d.isError) ↔
    ∃ d ∈ ds, d.source = source ∧ d.isError := by
  constructor
  · rintro ⟨d, hd, hsource, herror⟩
    exact ⟨d, (mem_filtered.mp hd).1, hsource, herror⟩
  · rintro ⟨d, hd, rfl, herror⟩
    obtain ⟨e, he, hsource, hgrave⟩ := exists_mem_filtered hd
    exact ⟨e, he, hsource, hgrave herror⟩

theorem exists_error_filtered (h : ∃ d ∈ ds, d.isError) : ∃ d ∈ filtered ds, d.isError := by
  obtain ⟨d, hd, herror⟩ := h
  obtain ⟨e, he, -, hgrave⟩ := exists_mem_filtered hd
  exact ⟨e, he, hgrave herror⟩

theorem any_isError_filtered (ds : List Diagnostic) :
    (filtered ds).any (·.isError) = ds.any (·.isError) := by
  rw [Bool.eq_iff_iff, List.any_eq_true, List.any_eq_true]
  constructor
  · rintro ⟨d, hd, herror⟩
    exact ⟨d, (mem_filtered.mp hd).1, herror⟩
  · exact exists_error_filtered

theorem filtered_eq_nil_iff : filtered ds = [] ↔ ds = [] := by
  cases ds with
  | nil => exact Iff.rfl
  | cons d ds =>
    obtain ⟨e, he, -⟩ := exists_mem_filtered (List.mem_cons_self (a := d) (l := ds))
    exact iff_of_false (List.ne_nil_of_mem he) (List.cons_ne_nil d ds)

end Diagnostic

namespace Excerpt

/-- A diagnostic begins with the word for its severity, whether its source is known or not. -/
theorem exists_ofDiagnostic (sources : List Source) (d : Diagnostic) :
    ∃ rest, ofDiagnostic sources d = d.severity.label ++ rest := by
  unfold ofDiagnostic
  split
  · simp only [Diagnostic.text, String.append_assoc]
    exact ⟨_, rfl⟩
  · next source _ =>
    simp only [List.cons_append]
    obtain ⟨rest, hrest⟩ := Output.TypeScript.exists_intercalate_append "\n" (titleRow d) [] _
    rw [List.nil_append] at hrest
    rw [hrest]
    simp only [titleRow, hanging, String.append_assoc, List.map_nil, String.join_nil,
      String.empty_append]
    exact ⟨_, rfl⟩

/-- Every diagnostic is shown with its severity. -/
theorem exists_render (sources : List Source) {ds : List Diagnostic} {d : Diagnostic}
    (hd : d ∈ ds) : ∃ before after, render sources ds = before ++ (d.severity.label ++ after) := by
  obtain ⟨front, back, rfl⟩ := List.append_of_mem hd
  obtain ⟨text, htext⟩ := exists_ofDiagnostic sources d
  obtain ⟨rest, hrest⟩ := Output.TypeScript.exists_intercalate_append "\n" (ofDiagnostic sources d)
    (front.map (ofDiagnostic sources)) (back.map (ofDiagnostic sources))
  rw [render, List.map_append, List.map_cons, hrest, htext, String.append_assoc]
  exact ⟨_, text ++ rest, rfl⟩

end Excerpt

open Diagnostic

/-- A schema that is refused has a diagnostic left, and one that is not valid has an error left. -/
theorem Command.exists_left_of_refused {strict : Bool} {s : Schema} (h : ¬isAccepted strict s) :
    ∃ d ∈ filtered s.diagnostics, ¬s.isValid → d.isError := by
  by_cases hvalid : s.isValid
  · have hleft : filtered s.diagnostics ≠ [] := by
      rw [Ne, filtered_eq_nil_iff]
      intro hnone
      simp [isAccepted, hvalid, hnone] at h
    obtain ⟨d, hd⟩ := List.exists_mem_of_ne_nil _ hleft
    exact ⟨d, hd, fun hinvalid => absurd hvalid hinvalid⟩
  · have herror : (filtered s.diagnostics).any (·.isError) := by
      simpa [any_isError_filtered, Schema.isValid] using hvalid
    obtain ⟨d, hd, herror⟩ := List.any_eq_true.mp herror
    exact ⟨d, hd, fun _ => herror⟩

/-- What is filtered stays in order. Faults of syntax stay, and so does everything about a source
without any, each as often as it was reported, and nothing else; filtering again changes nothing. A
source has an error left just where it had one, so filtering neither hides that there are errors nor
leaves nothing; what is hidden is about a source with a fault of syntax left. Where a schema is
refused, what is shown tells of an error, or else of a warning that was not to be passed over. -/
theorem Diagnostic.filtering_keeps_failures :
    (∀ ds : List Diagnostic,
      (filtered ds).Sublist ds ∧
      (∀ d : Diagnostic, (d.Stays ds → (filtered ds).count d = ds.count d) ∧
        (¬d.Stays ds → d ∉ filtered ds)) ∧
      filtered (filtered ds) = filtered ds ∧
      (∀ source, (∃ d ∈ filtered ds, d.source = source ∧ d.isError) ↔
        ∃ d ∈ ds, d.source = source ∧ d.isError) ∧
      (filtered ds).any (·.isError) = ds.any (·.isError) ∧
      (filtered ds = [] ↔ ds = []) ∧
      ∀ d ∈ ds, d ∉ filtered ds → ∃ e ∈ filtered ds, e.source = d.source ∧ e.kind.isSyntactic) ∧
    ∀ (s : Schema) (strict : Bool), ¬Command.isAccepted strict s →
      ∃ d ∈ filtered s.diagnostics, (¬s.isValid → d.isError) ∧ ∃ before after,
        Excerpt.render s.sources (filtered s.diagnostics) =
          before ++ (d.severity.label ++ after) := by
  refine ⟨fun ds => ⟨List.filter_sublist, ?_, filtered_filtered ds,
    fun source => exists_isError_filtered, any_isError_filtered ds, filtered_eq_nil_iff,
    fun d => exists_isSyntactic⟩, ?_⟩
  · intro d
    exact ⟨count_filtered, fun hstays hd => hstays (mem_filtered.mp hd).2⟩
  · intro s strict hrefused
    obtain ⟨d, hd, herror⟩ := Command.exists_left_of_refused hrefused
    exact ⟨d, hd, herror, Excerpt.exists_render s.sources hd⟩

/-- Reports about two sources, one of them broken, as they come in turn. -/
def Diagnostic.interleaved : List Diagnostic :=
  [make 0 .undefinedReference ⟨0, 1⟩ none [] [], make 1 .emptyEnum ⟨2, 3⟩ none [] [],
    make 0 .expectedName ⟨4, 5⟩ none [] [], make 1 .aliasCycle ⟨6, 7⟩ (some "Loop") [] []]

theorem Diagnostic.interleaved_keeps_failures :
    let hidden := make 0 .undefinedReference ⟨0, 1⟩ none [] []
    hidden ∈ interleaved ∧ hidden ∉ filtered interleaved ∧ (filtered interleaved).length = 3 ∧
      (∃ e ∈ filtered interleaved, e.source = 0 ∧ e.kind.isSyntactic) ∧
      ∃ d ∈ filtered interleaved, d.source = 0 ∧ d.isError := by
  intro hidden
  obtain ⟨-, -, -, hsources, -, -, hleft⟩ := filtering_keeps_failures.1 interleaved
  have hreported : hidden ∈ interleaved := List.mem_cons_self
  have hmissing : hidden ∉ filtered interleaved := by decide +kernel
  exact ⟨hreported, hmissing, by decide +kernel, hleft hidden hreported hmissing,
    (hsources 0).mpr ⟨hidden, hreported, rfl, rfl⟩⟩

end TypeGraph
