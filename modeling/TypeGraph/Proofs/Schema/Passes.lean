import Mathlib.Data.List.Nodup
import Mathlib.Data.List.Sigma
import TypeGraph.Proofs.Schema.Steady
/-!
The two passes of the loader. The second one goes over the files again, leaves out items by their
positions and finds definitions by their names. It does what a loop over the definitions does that
the first pass kept.
-/

namespace TypeGraph.Schema

/-- The place and the item that a definition is from. -/
def Entry.origin (e : Entry) : Loader.Place × Item :=
  (⟨e.package, e.source⟩, e.item)

namespace Loader

variable {α β σ : Type} {l : Loading} {es : List Entry} {shadowed : List (Nat × Nat)}

section Loops

theorem foldlM_flatMap (f : σ → β → Loader σ) (g : α → List β) (xs : List α) (s : σ) :
    (xs.flatMap g).foldlM f s = xs.foldlM (fun s x => (g x).foldlM f s) s := by
  induction xs generalizing s with
  | nil => rfl
  | cons x xs ih =>
    rw [List.flatMap_cons, List.foldlM_append, List.foldlM_cons]
    exact bind_congr ih

theorem forM_flatMap (f : β → Loader Unit) (g : α → List β) (xs : List α) :
    (xs.flatMap g).forM f = xs.forM fun x => (g x).forM f := by
  induction xs with
  | nil => rfl
  | cons x xs ih =>
    rw [List.flatMap_cons]
    refine List.forM_append.trans ?_
    exact bind_congr fun _ => ih

theorem forM_zipIdx (f : α → Loader Unit) (xs : List α) :
    xs.zipIdx.forM (fun x => f x.1) = xs.forM f := by
  have hmap : (xs.zipIdx.map (·.1)).forM f = xs.zipIdx.forM fun x => f x.1 := List.forM_map
  rw [← hmap, List.zipIdx_map_fst]

theorem forM_filter (f : α → Loader Unit) (p : α → Bool) (xs : List α) :
    (xs.filter p).forM f = xs.forM fun x => if p x then f x else pure () := by
  induction xs with
  | nil => rfl
  | cons x xs ih =>
    have hcons (g : α → Loader Unit) (ys : List α) :
        (x :: ys).forM g = g x >>= fun _ => ys.forM g := rfl
    rw [hcons, ← ih]
    cases hp : p x with
    | true => rw [List.filter_cons_of_pos hp, hcons, if_pos rfl]
    | false =>
      rw [List.filter_cons_of_neg (by simp [hp]), if_neg Bool.false_ne_true, pure_bind]

/-- Loops go the same way if their bodies do, in every loading with the definitions `es`. -/
theorem forM_congr {f g : α → Loader Unit} {xs : List α} (hl : l.entries = es)
    (h : ∀ x ∈ xs, ∀ l, l.entries = es → f x l = g x l ∧ (g x l).2.entries = es) :
    xs.forM f l = xs.forM g l := by
  induction xs generalizing l with
  | nil => rfl
  | cons x xs ih =>
    obtain ⟨hx, hxs⟩ := List.forall_mem_cons.mp h
    obtain ⟨heq, hentries⟩ := hx l hl
    have hrest := ih hentries hxs
    have hcons (f : α → Loader Unit) : (x :: xs).forM f l = xs.forM f (f x l).2 := rfl
    rw [hcons, hcons, heq, hrest]

end Loops

/-- An item where it is written, and its position: that of the file and that of the item in it. -/
structure Occurrence where
  file : File
  item : Item
  position : Nat × Nat

namespace Occurrence

def place (o : Occurrence) : Place :=
  ⟨o.file.packagePath, o.file.source⟩

/-- What the first pass does at an item. -/
def declare (shadowed : List (Nat × Nat)) (o : Occurrence) : Loader (List (Nat × Nat)) := do
  return if ← declares o.file o.item then shadowed else o.position :: shadowed

end Occurrence

/-- The items of the files in their order. -/
def occurrences (files : List File) : List Occurrence :=
  files.zipIdx.flatMap fun (file, i) => file.items.zipIdx.map fun (item, j) => ⟨file, item, (i, j)⟩

theorem declare_eq (files : List File) :
    declare files = (occurrences files).foldlM Occurrence.declare [] := by
  rw [occurrences, foldlM_flatMap]
  simp only [List.foldlM_map]
  rfl

theorem forM_occurrences (f : Occurrence → Loader Unit) (files : List File) :
    (occurrences files).forM f =
      files.zipIdx.forM fun x => x.1.items.zipIdx.forM fun y => f ⟨x.1, y.1, (x.2, y.2)⟩ := by
  have hitems (x : File × Nat) :
      (x.1.items.zipIdx.map fun y => (⟨x.1, y.1, (x.2, y.2)⟩ : Occurrence)).forM f =
        x.1.items.zipIdx.forM fun y => f ⟨x.1, y.1, (x.2, y.2)⟩ := List.forM_map
  rw [occurrences, forM_flatMap]
  simp only [hitems]

theorem firstPass_eq (files : List File) :
    firstPass files = (occurrences files).forM fun o => declareItem o.file o.item := by
  rw [forM_occurrences]
  simp only [forM_zipIdx (declareItem _)]
  exact (forM_zipIdx (fun file => file.items.forM (declareItem file)) files).symm

theorem resolve_eq (shadowed : List (Nat × Nat)) (files : List File) :
    resolve shadowed files =
      ((occurrences files).filter fun o => !shadowed.contains o.position).forM fun o =>
        resolveItem o.place o.item := by
  rw [forM_filter, forM_occurrences]
  rfl

/-- Items of different files and items of one file stand at different positions. -/
theorem nodup_positions (files : List File) : ((occurrences files).map (·.position)).Nodup := by
  have hmap : (occurrences files).map (·.position) =
      files.zipIdx.flatMap fun x => x.1.items.zipIdx.map fun y => (x.2, y.2) := by
    simp [occurrences, List.map_flatMap, Function.comp_def]
  rw [hmap, List.nodup_flatMap]
  constructor
  · intro x _
    have hsnd := (List.nodup_zipIdx_map_snd x.1.items).map (Prod.mk_right_injective x.2)
    rwa [List.map_map] at hsnd
  · refine (List.pairwise_map.mp (List.nodup_zipIdx_map_snd files)).imp ?_
    intro x x' hne p hp hp'
    obtain ⟨y, -, rfl⟩ := List.mem_map.mp hp
    obtain ⟨y', -, heq⟩ := List.mem_map.mp hp'
    exact hne (congrArg Prod.fst heq).symm

section FirstPass

/-- How the first pass stands after the items `done`: those it kept are the definitions. -/
structure Sifted (done : List Occurrence) (shadowed : List (Nat × Nat)) (l : Loading) : Prop where
  entries : l.entries.map Entry.origin =
    (done.filter fun o => !shadowed.contains o.position).map fun o => (o.place, o.item)
  known : ∀ p ∈ shadowed, p ∈ done.map (·.position)

theorem declares_cases (file : File) (item : Item) (l : Loading) :
    ((declares file item l).1 = false ∧ (declares file item l).2.entries = l.entries) ∨
      ((declares file item l).1 = true ∧ ∃ type?, (declares file item l).2.entries =
        l.entries ++ [⟨file.packagePath, file.source, item, type?⟩]) := by
  simp only [declares, run_bind, run_get]
  cases l.entries.find? fun e => e.package = file.packagePath ∧ e.name = item.name.text with
  | some first => exact .inl ⟨rfl, rfl⟩
  | none =>
    obtain ⟨-, hentries, -⟩ := steady_declaredType file item l rfl
    refine .inr ⟨rfl, (declaredType file item l).1, ?_⟩
    rw [← hentries]
    rfl

theorem Sifted.declare {done : List Occurrence} {o : Occurrence} (h : Sifted done shadowed l)
    (hnew : o.position ∉ done.map (·.position)) :
    Sifted (done ++ [o]) (o.declare shadowed l).1 (o.declare shadowed l).2 := by
  have hrun : o.declare shadowed l = (if (declares o.file o.item l).1 then shadowed
      else o.position :: shadowed, (declares o.file o.item l).2) := rfl
  have hfresh : o.position ∉ shadowed := fun hp => hnew (h.known _ hp)
  rw [hrun]
  rcases declares_cases o.file o.item l with ⟨hno, hentries⟩ | ⟨hyes, type?, hentries⟩
  · -- the item is left out by its position, which no item before it has
    have hsame : (done.filter fun o' => !(o.position :: shadowed).contains o'.position) =
        done.filter fun o' => !shadowed.contains o'.position := by
      apply List.filter_congr
      intro o' ho'
      have hne : o'.position ≠ o.position :=
        fun heq => hnew (heq ▸ List.mem_map_of_mem ho')
      simp [hne]
    simp only [hno, Bool.false_eq_true, if_false]
    refine ⟨?_, ?_⟩
    · rw [hentries, h.entries, List.filter_append, hsame]
      simp
    · intro p hp
      rw [List.map_append, List.mem_append]
      rcases List.mem_cons.mp hp with rfl | hp
      · exact .inr (List.mem_singleton_self _)
      · exact .inl (h.known p hp)
  · simp only [hyes, if_true]
    refine ⟨?_, ?_⟩
    · rw [hentries, List.map_append, h.entries, List.filter_append, List.map_append]
      simp [hfresh, Entry.origin, Occurrence.place]
    · intro p hp
      rw [List.map_append]
      exact List.mem_append_left _ (h.known p hp)

theorem Sifted.foldlM {done : List Occurrence} (h : Sifted done shadowed l) (os : List Occurrence)
    (hnodup : ((done ++ os).map (·.position)).Nodup) :
    Sifted (done ++ os) (os.foldlM Occurrence.declare shadowed l).1
      (os.foldlM Occurrence.declare shadowed l).2 := by
  induction os generalizing done shadowed l with
  | nil =>
    rw [List.append_nil]
    exact h
  | cons o os ih =>
    have hnew : o.position ∉ done.map (·.position) := by
      rw [List.map_append, List.map_cons] at hnodup
      exact fun hp => List.disjoint_of_nodup_append hnodup hp List.mem_cons_self
    have hnext := ih (h.declare hnew)
    rw [List.append_assoc] at hnext
    exact hnext hnodup

theorem sifted_declare (files : List File) (diagnostics : List Diagnostic) :
    Sifted (occurrences files) (declare files { diagnostics }).1
      (declare files { diagnostics }).2 := by
  have hstart : Sifted [] [] { diagnostics } := ⟨rfl, by simp⟩
  rw [declare_eq]
  exact hstart.foldlM (occurrences files) (nodup_positions files)

/-- The first pass goes the same way whether its answer is kept or not. -/
theorem declare_run (files : List File) (l : Loading) :
    (declare files l).2 = (firstPass files l).2 := by
  have hfold (os : List Occurrence) (shadowed : List (Nat × Nat)) (l : Loading) :
      (os.foldlM Occurrence.declare shadowed l).2 =
        (os.forM (fun o => declareItem o.file o.item) l).2 := by
    induction os generalizing shadowed l with
    | nil => rfl
    | cons o os ih => exact ih (o.declare shadowed l).1 (o.declare shadowed l).2
  rw [declare_eq, firstPass_eq]
  exact hfold (occurrences files) [] l

end FirstPass

section SecondPass

/-- Where names are given once, an item is resolved where its definition stands. -/
theorem resolveItem_eq (hd : (l.entries.map (·.definition.key)).Nodup) {e : Entry} {i : Nat}
    (hi : l.entries[i]? = some e) :
    resolveItem ⟨e.package, e.source⟩ e.item l = resolveEntry e i l := by
  have hfind : (l.entries.zipIdx.find? fun x =>
      x.1.package = e.package ∧ x.1.name = e.item.name.text) = some (e, i) := by
    obtain ⟨hlt, rfl⟩ := List.getElem?_eq_some_iff.mp hi
    rw [List.find?_eq_some_iff_getElem]
    refine ⟨by simp [Entry.name], i, by simpa using hlt, by simp, ?_⟩
    intro j hj
    have hne := List.pairwise_iff_getElem.mp (List.pairwise_map.mp hd) j i (by omega) hlt hj
    simpa [Entry.definition, Definition.key, Definition.name, Entry.name, Decidable.imp_iff_not_or]
      using hne
  simp only [resolveItem, run_bind, run_get, hfind]
  rfl

/-- The second pass over the files does what it does over the definitions. -/
theorem resolve_run {files : List File} (h : Sifted (occurrences files) shadowed l)
    (hd : (l.entries.map (·.definition.key)).Nodup) :
    resolve shadowed files l = secondPass l := by
  let body : Place × Item → Loader Unit := fun x => resolveItem x.1 x.2
  have hkept : resolve shadowed files = (l.entries.map Entry.origin).forM body := by
    have hmap (os : List Occurrence) : (os.map fun o => (o.place, o.item)).forM body =
      os.forM fun o => resolveItem o.place o.item := List.forM_map
    rw [resolve_eq, h.entries, hmap]
  have hentries : (l.entries.map Entry.origin).forM body =
      l.entries.zipIdx.forM fun x => body x.1.origin :=
    List.forM_map.trans (forM_zipIdx (fun e => body e.origin) l.entries).symm
  have hsame : ∀ x ∈ l.entries.zipIdx, ∀ l', l'.entries = l.entries →
      body x.1.origin l' = resolveEntry x.1 x.2 l' ∧
        (resolveEntry x.1 x.2 l').2.entries = l.entries := by
    intro x hx l' hl'
    have hi := List.mem_zipIdx_iff_getElem?.mp hx
    refine ⟨resolveItem_eq (hl' ▸ hd) (hl' ▸ hi), ?_⟩
    exact (roots_resolveEntry x.1 x.2 l').entries.trans hl'
  rw [hkept, hentries]
  exact forM_congr rfl hsame

end SecondPass

end Loader

open Loader

/-- Loading is one loop over the items and one over the definitions that they leave. -/
theorem load_eq (files : List File) (diagnostics : List Diagnostic) :
    load files diagnostics = (secondPass (firstPass files { diagnostics }).2).2 := by
  have hrun : load files diagnostics = (resolve (declare files { diagnostics }).1 files
    (declare files { diagnostics }).2).2 := rfl
  -- no name has two definitions after the first pass, so that a name leads to its only one
  have hplaced := placed_firstPass files diagnostics
  rw [← declare_run] at hplaced
  rw [hrun, resolve_run (sifted_declare files diagnostics) hplaced.distinct, declare_run]

/-- Whatever is loaded, the result is sound. -/
theorem sound_load (files : List File) (diagnostics : List Diagnostic) :
    (load files diagnostics).Sound := by
  have hstart : Loading.Sound { diagnostics } := ⟨.initial, by simp, by simp, by simp⟩
  have hfirst := safe_firstPass files _ hstart
  rw [load_eq]
  exact (safe_secondPass _ hfirst.sound).sound

/-- No two roots are the same type, whatever is loaded. -/
theorem nodup_roots (files : List File) (diagnostics : List Diagnostic) :
    ((load files diagnostics).roots.map (·.ty)).Nodup := by
  have hsound := sound_load files diagnostics
  have hempty := roots_firstPass files { diagnostics }
  have hplaced := placed_firstPass files diagnostics
  rw [load_eq] at hsound ⊢
  obtain ⟨hentries, more, hmore, hsub⟩ := roots_secondPass (firstPass files { diagnostics }).2
  have htypes := hsound.nodup_types (hentries ▸ hplaced.distinct)
  rw [hentries] at htypes
  rw [hmore, hempty, List.nil_append]
  exact htypes.sublist hsub

end TypeGraph.Schema
