import TypeGraph.Proofs.Schema.Marking
import TypeGraph.Proofs.Schema.Passes
import TypeGraph.Proofs.Schema.Stemming
import TypeGraph.Schema.Schema
/-!
Messages point into their sources. What loading reports it reports of parts of trees, and these
stand in the texts that they were read from.
-/

namespace TypeGraph

/-- A span in the text of one of the sources. -/
def Locates (sources : List Source) (source : SourceId) (span : Span) : Prop :=
  ∃ s, sources[source]? = some s ∧ span.PointsInto s.text

/-- A diagnostic that points into the sources, as do the places that explain it. -/
structure Diagnostic.Located (sources : List Source) (d : Diagnostic) : Prop where
  here : Locates sources d.source d.span
  related : ∀ x ∈ d.related, Locates sources x.source x.span

/-- One span lies before another one. -/
structure Span.Before (s t : Span) : Prop where
  start_lt : s.start < t.start
  stop_le : s.stop ≤ t.start

namespace Schema

/-- A tree all parts of which stand in the text, with the names of its items one after another. -/
structure File.Marked (text : String) (file : File) : Prop where
  header : ∀ header ∈ file.package, header.span.Marks text
  items : ∀ item ∈ file.items, item.Marked text
  names : file.items.Pairwise fun a b => a.name.span.Before b.name.span

/-- A definition that stands in one of the sources. -/
def Entry.Marked (sources : List Source) (e : Entry) : Prop :=
  ∃ s, sources[e.source]? = some s ∧ e.item.Marked s.text

/-- What holds all through loading what was read from sources. -/
structure Loading.Located (sources : List Source) (l : Loading) : Prop where
  entries : ∀ e ∈ l.entries, e.Marked sources
  diagnostics : ∀ d ∈ l.diagnostics, d.Located sources

variable {text : String} {sources : List Source} {l : Loading}

theorem MemberDef.Marked.pointsInto {m : MemberDef TypeExpr} (h : m.Marked text) :
    m.name.span.PointsInto text := by
  have hname := h.name
  split at hname
  · exact hname.2.pointsInto
  · exact hname.marks.pointsInto

theorem Item.Marked.name {item : Item} (h : item.Marked text) : item.name.CutFrom text := by
  cases item <;> exact h.1

theorem Entry.Marked.locates {e : Entry} (h : e.Marked sources) :
    Locates sources e.source e.item.name.span := by
  obtain ⟨s, hs, hitem⟩ := h
  exact ⟨s, hs, hitem.name.marks.pointsInto⟩

namespace Loader

variable {α β : Type}

/-- Work that reports only what points into the sources, and enters only what stands in them. -/
def Locating (sources : List Source) (m : Loader α) : Prop :=
  ∀ l : Loading, l.Located sources → (m l).2.Located sources

namespace Locating

theorem pure (a : α) : Locating sources (Pure.pure a) :=
  fun _ hl => hl

theorem bind {m : Loader α} {f : α → Loader β} (hm : Locating sources m)
    (hf : ∀ a, Locating sources (f a)) : Locating sources (m >>= f) :=
  fun l hl => hf _ _ (hm l hl)

theorem withTypes (f : TypeSet → TypeId × TypeSet) : Locating sources (Loader.withTypes f) :=
  fun _ hl => ⟨hl.entries, hl.diagnostics⟩

theorem updateTypes (f : TypeSet → TypeSet) : Locating sources (Loader.updateTypes f) :=
  fun _ hl => ⟨hl.entries, hl.diagnostics⟩

theorem report {source : SourceId} {span : Span} {related : List Diagnostic.Related}
    (kind : Diagnostic.Kind) (detail? : Option String) (hspan : Locates sources source span)
    (hrelated : ∀ x ∈ related, Locates sources x.source x.span) :
    Locating sources (Loader.report source kind span detail? related) := by
  intro l hl
  refine ⟨hl.entries, ?_⟩
  intro d hd
  rcases List.mem_append.mp hd with hd | hd
  · exact hl.diagnostics d hd
  · obtain rfl := List.mem_singleton.mp hd
    exact ⟨hspan, hrelated⟩

theorem intern (f : TypeSet → TypeId × TypeSet) :
    Locating sources (do return some (← Loader.withTypes f) : Loader (Option TypeId)) :=
  (withTypes f).bind fun _ => pure _

theorem forM {xs : List α} {f : α → Loader Unit} (hf : ∀ x ∈ xs, Locating sources (f x)) :
    Locating sources (xs.forM f) := by
  induction xs with
  | nil => exact pure ()
  | cons x xs ih =>
    obtain ⟨hx, hxs⟩ := List.forall_mem_cons.mp hf
    exact hx.bind fun _ => ih hxs

end Locating

section Expressions

variable {synonym : Nat → Loader (Option TypeId)} {place : Place} {s : Source}

theorem locating_reportReference (qualifier : Option String) (name : String) {span : Span}
    {found : List (Entry × Nat)} (hspan : Locates sources place.source span)
    (hfound : ∀ c ∈ found, c.1.Marked sources) :
    Locating sources (reportReference place qualifier name span found) := by
  cases found with
  | nil => exact .report _ _ hspan nofun
  | cons c cs =>
    refine .report _ _ hspan ?_
    intro x hx
    obtain ⟨e, he, rfl⟩ := List.mem_map.mp hx
    exact (hfound e he).locates

theorem locating_reference (hs : ∀ i, Locating sources (synonym i)) (qualifier : Option String)
    (name : String) {span : Span} (hspan : Locates sources place.source span) :
    Locating sources (reference synonym place qualifier name span) := by
  intro l hl
  have href := referred_reference synonym place qualifier name span l
  generalize reference synonym place qualifier name span l = r at href
  cases href with
  | typed => exact hl
  | synonym => exact hs _ l hl
  | reported hc =>
    apply locating_reportReference qualifier name hspan ?_ l hl
    intro c hmem
    exact hl.entries c.1 (mem_candidates (hc ▸ hmem))

theorem locating_reportRepeated {source : SourceId} {name : Name} {first : Span}
    (hsource : sources[source]? = some s) (hname : name.span.PointsInto s.text)
    (hfirst : first.PointsInto s.text) :
    Locating sources (reportRepeated source name first) := by
  refine .report _ _ ⟨s, hsource, hname⟩ ?_
  intro x hx
  obtain rfl := List.mem_singleton.mp hx
  exact ⟨s, hsource, hfirst⟩

/-- Names that were seen stand in the text. -/
def SeenIn (text : String) (seen : List (String × Span)) : Prop :=
  ∀ x ∈ seen, x.2.PointsInto text

theorem SeenIn.lookup {seen : List (String × Span)} {word : String} {first : Span}
    (h : SeenIn text seen) (hfirst : seen.lookup word = some first) : first.PointsInto text := by
  obtain ⟨before, after, rfl, -⟩ := List.lookup_eq_some_iff.mp hfirst
  exact h (word, first) (by simp)

mutual

theorem locating_type (hs : ∀ i, Locating sources (synonym i))
    (hplace : sources[place.source]? = some s) :
    ∀ x : TypeExpr, x.Marked s.text → Locating sources (type synonym place x)
  | .scalar kind _, _ => by
    rw [type]
    exact .intern _
  | .reference qualifier name span, hx => by
    rw [type]
    have hspan : span.Marks s.text := forall_within_reference.mp hx
    exact locating_reference hs qualifier name ⟨s, hplace, hspan.pointsInto⟩
  | .pointer target _, hx => by
    rw [type]
    apply (locating_type hs hplace target (forall_within_pointer.mp hx).2).bind
    intro id?
    cases id? with
    | none => exact .pure none
    | some id => exact .intern _
  | .sequence element _, hx => by
    rw [type]
    apply (locating_type hs hplace element (forall_within_sequence.mp hx).2).bind
    intro id?
    cases id? with
    | none => exact .pure none
    | some id => exact .intern _
  | .map key value _, hx => by
    rw [type]
    obtain ⟨-, hkey, hvalue⟩ := forall_within_map.mp hx
    apply (locating_type hs hplace key hkey).bind
    intro key?
    apply (locating_type hs hplace value hvalue).bind
    intro value?
    match key?, value? with
    | some k, some v => exact .intern _
    | none, _ => exact .pure none
    | some _, none => exact .pure none
  | .record definitions _, hx => by
    rw [type]
    obtain ⟨hself, hparts⟩ := forall_within_record.mp hx
    apply (locating_members hs hplace [] definitions nofun fun m hm =>
      ⟨hself.2 m hm, hparts m hm⟩).bind
    exact fun members => .intern _
  | .hole _, _ => by
    rw [type]
    exact .pure none

theorem locating_members (hs : ∀ i, Locating sources (synonym i))
    (hplace : sources[place.source]? = some s) :
    ∀ seen definitions, SeenIn s.text seen →
      (∀ m ∈ definitions, m.Marked s.text ∧ m.type.Marked s.text) →
        Locating sources (members synonym place seen definitions)
  | seen, [], _, _ => by
    rw [members]
    exact .pure []
  | seen, ⟨name, expr, embedded, attributes, doc⟩ :: definitions, hseen, hall => by
    rw [members]
    obtain ⟨⟨hmember, hexpr⟩, hrest⟩ := List.forall_mem_cons.mp hall
    have hname : name.span.PointsInto s.text := hmember.pointsInto
    cases hfirst : seen.lookup name.text with
    | some first =>
      apply (locating_reportRepeated hplace hname (hseen.lookup hfirst)).bind
      exact fun _ => locating_members hs hplace seen definitions hseen hrest
    | none =>
      have hseen : SeenIn s.text ((name.text, name.span) :: seen) :=
        List.forall_mem_cons.mpr ⟨hname, hseen⟩
      apply (locating_type hs hplace expr hexpr).bind
      intro ty?
      apply (locating_members hs hplace _ definitions hseen hrest).bind
      intro rest
      cases ty? with
      | none => exact .pure rest
      | some ty => exact .pure _

end

theorem locating_synonym (depth : Nat) (path : List Nat) (position : Nat) :
    Locating sources (Loader.synonym depth path position) := by
  induction depth generalizing path position with
  | zero => exact .pure none
  | succ depth ih =>
    intro l hl
    have hfollowed := followed_synonym depth path position l
    generalize Loader.synonym (depth + 1) path position l = r at hfollowed
    cases hfollowed with
    | known => exact hl
    | @cycle package source d he hp =>
      have hentry := hl.entries _ (List.mem_of_getElem? he)
      exact Locating.report _ _ hentry.locates (List.forall_mem_nil _) l hl
    | @target package source d r he hp ht =>
      obtain ⟨s, hs, hitem⟩ := hl.entries _ (List.mem_of_getElem? he)
      have hplace : sources[(⟨package, source⟩ : Place).source]? = some s := hs
      have htarget := locating_type (ih (position :: path)) hplace d.target hitem.2 l hl
      rw [ht] at htarget
      exact ⟨htarget.entries, htarget.diagnostics⟩
    | other => exact hl

theorem locating_topSynonym (position : Nat) : Locating sources (topSynonym position) :=
  fun l hl => locating_synonym (l.entries.length + 1) [] position l hl

end Expressions

section Definitions

variable {place : Place} {s : Source} {file : File}

theorem locating_constants {source : SourceId} (id : TypeId) (kind : Scalar)
    {seen : List (String × Span)} {vs : List Variant} (hsource : sources[source]? = some s)
    (hseen : SeenIn s.text seen) (hvs : ∀ v ∈ vs, v.Marked s.text) :
    Locating sources (constants source id kind seen vs) := by
  induction vs generalizing seen with
  | nil => exact .pure 0
  | cons v vs ih =>
    rw [constants]
    obtain ⟨hv, hvs⟩ := List.forall_mem_cons.mp hvs
    have hname := hv.name.marks.pointsInto
    cases hfirst : seen.lookup v.name.text with
    | some first =>
      apply (locating_reportRepeated hsource hname (hseen.lookup hfirst)).bind
      exact fun _ => ih hseen hvs
    | none =>
      have hseen : SeenIn s.text ((v.name.text, v.name.span) :: seen) :=
        List.forall_mem_cons.mpr ⟨hname, hseen⟩
      simp only
      split
      · apply (Locating.updateTypes _).bind
        intro _
        exact (ih hseen hvs).bind fun _ => .pure _
      · apply (Locating.report _ _ ⟨s, hsource, hv.value.pointsInto⟩ (List.forall_mem_nil _)).bind
        exact fun _ => ih hseen hvs

theorem locating_documentType (id : TypeId) (doc : Option String) :
    Locating sources (documentType id doc) :=
  .updateTypes _

theorem locating_addRoot (ty : TypeId) (kind : RootKind) : Locating sources (addRoot ty kind) :=
  fun _ hl => ⟨hl.entries, hl.diagnostics⟩

theorem locating_resolveStruct (id : TypeId) {d : StructDef}
    (hplace : sources[place.source]? = some s) (hd : (Item.struct d).Marked s.text) :
    Locating sources (resolveStruct place id d) := by
  apply (locating_members locating_topSynonym hplace [] d.members nofun hd.2).bind
  intro members
  apply (Locating.updateTypes _).bind
  intro _
  apply (locating_documentType id d.doc).bind
  intro _ l hl
  exact locating_addRoot id .struct _ ⟨hl.entries, hl.diagnostics⟩

theorem locating_resolveEnum (id : TypeId) {d : EnumDef}
    (hplace : sources[place.source]? = some s) (hd : (Item.enum d).Marked s.text) :
    Locating sources (resolveEnum place id d) := by
  have hfill (kind : Scalar) : Locating sources (fillEnum place id kind d) := by
    apply (locating_constants id kind hplace (List.forall_mem_nil _) hd.2.2).bind
    intro count
    split
    · exact .report _ _ ⟨s, hplace, hd.1.marks.pointsInto⟩ (List.forall_mem_nil _)
    · split
      · exact locating_addRoot id .enum
      · exact .pure ()
  intro l hl
  have hdocument : Locating sources (documentType id d.doc) := locating_documentType id d.doc
  have hdoc := hdocument l hl
  rw [resolveEnum_eq]
  simp only
  split
  · exact hfill _ _ hdoc
  · exact hdoc

theorem locating_resolveEntry {e : Entry} (position : Nat) (he : e.Marked sources) :
    Locating sources (resolveEntry e position) := by
  obtain ⟨package, source, item, type?⟩ := e
  obtain ⟨s, hs, hitem⟩ := he
  have htop : Locating sources (do let _ ← topSynonym position : Loader Unit) :=
    (locating_topSynonym position).bind fun _ => .pure ()
  cases type? with
  | none =>
    cases item with
    | struct d | enum d => exact .pure ()
    | synonym d => exact htop
  | some id =>
    cases item with
    | struct d => exact locating_resolveStruct id hs hitem
    | enum d => exact locating_resolveEnum id hs hitem
    | synonym d => exact locating_documentType id d.doc

theorem locating_declaredType {item : Item} (hfile : sources[file.source]? = some s)
    (hitem : item.Marked s.text) : Locating sources (declaredType file item) := by
  cases item with
  | struct d => exact .intern _
  | enum d =>
    have hbase : Locating sources (enumBase file.source d) := by
      unfold enumBase
      simp only
      split
      · apply (Locating.report _ _ ⟨s, hfile, hitem.2.1.marks.pointsInto⟩ (List.forall_mem_nil _)).bind
        exact fun _ => .pure _
      · exact .pure _
    exact hbase.bind fun kind => .intern _
  | synonym d =>
    obtain ⟨name, doc, target⟩ := d
    cases target with
    | scalar kind span => exact .intern _
    | _ => exact .pure none

theorem locating_declareItem {item : Item} (hfile : sources[file.source]? = some s)
    (hitem : item.Marked s.text) : Locating sources (declareItem file item) := by
  intro l hl
  rw [declareItem_eq]
  split
  · next first hfirst =>
    refine Locating.report _ _ ⟨s, hfile, hitem.name.marks.pointsInto⟩ ?_ l hl
    intro x hx
    obtain rfl := List.mem_singleton.mp hx
    exact (hl.entries first (List.mem_of_find?_eq_some hfirst)).locates
  · have htype := locating_declaredType hfile hitem l hl
    refine ⟨?_, htype.diagnostics⟩
    intro e he
    rcases List.mem_append.mp he with he | he
    · exact htype.entries e he
    · obtain rfl := List.mem_singleton.mp he
      exact ⟨s, hfile, hitem⟩

theorem locating_firstPass {fs : List File}
    (hfs : ∀ file ∈ fs, ∃ s, sources[file.source]? = some s ∧ file.Marked s.text) :
    Locating sources (firstPass fs) := by
  apply Locating.forM
  intro file hfile
  obtain ⟨s, hs, hmarked⟩ := hfs file hfile
  exact .forM fun item hitem => locating_declareItem hs (hmarked.items item hitem)

theorem locating_secondPass : Locating sources secondPass := by
  intro l hl
  refine Locating.forM ?_ l hl
  intro e he
  exact locating_resolveEntry e.2 (hl.entries e.1 (List.fst_mem_of_mem_zipIdx he))

end Definitions

end Loader

/-- Loading trees that stand in their sources reports places in these. -/
theorem located_load {sources : List Source} {files : List File} {diagnostics : List Diagnostic}
    (hfiles : ∀ file ∈ files, ∃ s, sources[file.source]? = some s ∧ file.Marked s.text)
    (hstart : Loading.Located sources { diagnostics }) :
    (load files diagnostics).Located sources := by
  rw [load_eq]
  exact Loader.locating_secondPass _ (Loader.locating_firstPass hfiles _ hstart)

/-- A tree that was read stands in its text. -/
theorem file_marked_parse (source : SourceId) (text : String) :
    (parse source text).1.Marked text := by
  have hitems := marked_parse source text
  refine ⟨(tracks_parse source text).header, hitems, ?_⟩
  apply (names_ordered_parse source text).imp_of_mem
  intro a b ha _ hle
  have hfilled := (hitems a ha).name.marks.filled
  exact ⟨by omega, hle⟩

/-- Beginnings rise over messages of which none is late. -/
theorem start_lt_of_isChain {between after : List Diagnostic} {d e : Diagnostic}
    (h : (d :: (between ++ e :: after)).IsChain fun d e =>
      d.span.start ≠ e.span.start ∧ (e.Late ∨ d.span.start < e.span.start))
    (hlate : ∀ x ∈ between ++ [e], ¬x.Late) : d.span.start < e.span.start := by
  induction between generalizing d with
  | nil =>
    have hrises := (List.isChain_cons_cons.mp h).1.2
    exact hrises.resolve_left (hlate e (by simp))
  | cons x between ih =>
    obtain ⟨⟨-, hrises⟩, hrest⟩ := List.isChain_cons_cons.mp h
    have hfirst := hrises.resolve_left (hlate x (by simp))
    have hlast := ih hrest fun y hy => hlate y (List.mem_cons_of_mem x hy)
    omega

/-- Neighbouring messages about a text begin at different places, and beginnings rise from one
message to another behind it, unless a message between them or the other itself is late. -/
theorem messages_rise (source : SourceId) (text : String) :
    (parse source text).2.IsChain (fun d e => d.span.start ≠ e.span.start) ∧
      ∀ before d between e after, (parse source text).2 = before ++ d :: (between ++ e :: after) →
        (∀ x ∈ between ++ [e], ¬x.Late) → d.span.start < e.span.start := by
  have hrising : (parse source text).2.IsChain fun d e =>
      d.span.start ≠ e.span.start ∧ (e.Late ∨ d.span.start < e.span.start) :=
    (tracks_parse source text).rising
  refine ⟨hrising.imp fun _ _ h => h.1, ?_⟩
  intro before d between e after heq hlate
  rw [heq] at hrising
  exact start_lt_of_isChain hrising.right_of_append hlate

theorem stray_signs_rise : ∃ d e, (parse 0 "# \x7d").2 = [d, e] ∧ d.span.start < e.span.start :=
  ⟨.make 0 .unexpectedCharacter ⟨0, 1⟩ none [] [],
    .make 0 .expectedToken ⟨2, 3⟩ (some "`struct`, `enum`, `alias` or `package`") [] [],
    by decide +kernel, (messages_rise 0 "# \x7d").2 [] _ [] _ [] (by decide +kernel) (by decide +kernel)⟩

/-- An embedded member that names no struct is reported behind what was reported in it. -/
theorem embedded_is_reported_twice :
    ¬((parse 0 "struct S \x7b ..[X = \x7d").2.map (·.span.start)).Nodup := by
  decide +kernel

theorem located_parse {source : SourceId} {s : Source} (hs : sources[source]? = some s) :
    ∀ d ∈ (parse source s.text).2, d.Located sources := by
  intro d hd
  have htold := (tracks_parse source s.text).told d hd
  have hsource : sources[d.source]? = some s := htold.source_eq ▸ hs
  refine ⟨⟨s, hsource, htold.span⟩, ?_⟩
  intro x hx
  obtain ⟨hxsource, hmarks⟩ := htold.related x hx
  exact ⟨s, hxsource ▸ hs, hmarks.pointsInto⟩

/-- Whatever the sources, every diagnostic points into them, and every part of every tree stands
where it was read. -/
theorem sources_are_located (sources : List Source) :
    (∀ d ∈ (ofSources sources).diagnostics, d.Located sources) ∧
      ∀ file ∈ (ofSources sources).files,
        ∃ s, sources[file.source]? = some s ∧ file.Marked s.text := by
  have hread {x : Source × Nat} (hx : x ∈ sources.zipIdx) : sources[x.2]? = some x.1 :=
    List.mem_zipIdx_iff_getElem?.mp hx
  have hfiles : ∀ file ∈ (ofSources sources).files,
      ∃ s, sources[file.source]? = some s ∧ file.Marked s.text := by
    intro file hfile
    obtain ⟨read, hmem, rfl⟩ := List.mem_map.mp hfile
    obtain ⟨x, hx, rfl⟩ := List.mem_map.mp hmem
    exact ⟨x.1, hread hx, file_marked_parse x.2 x.1.text⟩
  refine ⟨?_, hfiles⟩
  have hstart : Loading.Located sources
      { diagnostics := (sources.zipIdx.map fun x => parse x.2 x.1.text).flatMap (·.2) } := by
    refine ⟨by simp, ?_⟩
    intro d hd
    obtain ⟨read, hmem, hd⟩ := List.mem_flatMap.mp hd
    obtain ⟨x, hx, rfl⟩ := List.mem_map.mp hmem
    exact located_parse (hread hx) d hd
  exact (located_load hfiles hstart).diagnostics

end Schema

end TypeGraph
