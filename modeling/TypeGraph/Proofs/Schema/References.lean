import Mathlib.Data.List.Nodup
import TypeGraph.Schema.Loader
/-!
What a reference may mean: the definitions of its name, of these those in the package that it is
written in, or else those in the package that its qualifier names.
-/

namespace TypeGraph.Schema

/-- An item and the package that it stands in. -/
structure Definition where
  package : String
  item : Item

namespace Definition

def name (d : Definition) : String :=
  d.item.name.text

def key (d : Definition) : String × String :=
  (d.package, d.name)

end Definition

/-- The definitions in some files, in order. -/
def definitions (files : List File) : List Definition :=
  files.flatMap fun file => file.items.map fun item => ⟨file.packagePath, item⟩

def Entry.definition (e : Entry) : Definition :=
  ⟨e.package, e.item⟩

/-- The part of a path behind its last slash or point. -/
def LastSegment (path segment : String) : Prop :=
  ∃ front : List Char, path.toList = front ++ segment.toList ∧
    (∀ c ∈ segment.toList, c ≠ '/' ∧ c ≠ '.') ∧ ∀ c ∈ front.getLast?, c = '/' ∨ c = '.'

/-- The positions of the definitions that a reference in `package` may mean. -/
inductive Candidate (ds : List Definition) (package : String) :
    Option String → String → Nat → Prop
  | own {i : Nat} {d : Definition} (hd : ds[i]? = some d) (hp : d.package = package) :
      Candidate ds package none d.name i
  /-- No definition in the package itself has the name. -/
  | foreign {i : Nat} {d : Definition} (hd : ds[i]? = some d)
      (hno : ∀ e ∈ ds, e.name = d.name → e.package ≠ package) : Candidate ds package none d.name i
  | whole {i : Nat} {d : Definition} (hd : ds[i]? = some d) :
      Candidate ds package (some d.package) d.name i
  | segment {i : Nat} {d : Definition} {q : String} (hd : ds[i]? = some d)
      (hs : LastSegment d.package q) : Candidate ds package (some q) d.name i

section LastSegment

variable {p : Char → Bool} {cs : List Char}

/-- The last piece is what stands behind the last separator; it is the only piece if there is no
separator. -/
theorem getLast?_pieces (p : Char → Bool) (cs : List Char) :
    ∃ front last, (Text.pieces p cs).getLast? = some last ∧ cs = front ++ last ∧
      (∀ c ∈ last, p c = false) ∧ (∀ c ∈ front.getLast?, p c) ∧
      (front = [] ↔ Text.pieces p cs = [last]) := by
  induction cs with
  | nil => exact ⟨[], [], rfl, rfl, by simp, by simp, by simp [Text.pieces]⟩
  | cons c cs ih =>
    obtain ⟨front, last, hlast, rfl, hno, hsep, hone⟩ := ih
    rw [Text.pieces]
    by_cases hc : p c
    · refine ⟨c :: front, last, ?_, rfl, hno, ?_, ?_⟩
      · rw [if_pos hc, List.getLast?_cons, hlast]
        rfl
      · intro d hd
        rw [List.getLast?_cons] at hd
        cases hf : front.getLast? with
        | none =>
          obtain rfl : c = d := by simpa [hf] using hd
          exact hc
        | some e =>
          obtain rfl : e = d := by simpa [hf] using hd
          exact hsep e hf
      · simp [hc, Text.pieces_ne_nil]
    · rw [if_neg hc]
      cases hp : Text.pieces p (front ++ last) with
      | nil => exact absurd hp (Text.pieces_ne_nil p _)
      | cons piece rest =>
        rw [hp] at hlast hone
        cases rest with
        | nil =>
          obtain rfl : piece = last := by simpa using hlast
          obtain rfl : front = [] := hone.mpr rfl
          refine ⟨[], c :: piece, rfl, rfl, ?_, by simp, by simp⟩
          exact List.forall_mem_cons.mpr ⟨by simpa using hc, hno⟩
        | cons second rest =>
          have hne : front ≠ [] := fun h => by simpa using hone.mp h
          refine ⟨c :: front, last, ?_, rfl, hno, ?_, by simp⟩
          · simpa [List.getLast?_cons] using hlast
          · intro d hd
            obtain ⟨e, he⟩ := Option.isSome_iff_exists.mp (List.getLast?_isSome.mpr hne)
            obtain rfl : e = d := by simpa [List.getLast?_cons, he] using hd
            exact hsep e he

/-- There is only one way to split a text behind its last separator. -/
theorem last_unique {front front' last last' : List Char} (h : front ++ last = front' ++ last')
    (hno : ∀ c ∈ last, p c = false) (hsep' : ∀ c ∈ front'.getLast?, p c)
    (hno' : ∀ c ∈ last', p c = false) (hsep : ∀ c ∈ front.getLast?, p c) : last = last' := by
  have short {front front' last mid : List Char} (hf : front' = front ++ mid)
      (hno : ∀ c ∈ mid ++ last, p c = false) (hsep' : ∀ c ∈ front'.getLast?, p c) : mid = [] := by
    cases hm : mid.getLast? with
    | none => exact List.getLast?_eq_none_iff.mp hm
    | some c =>
      have hc := hno c (List.mem_append_left _ (List.mem_of_getLast? hm))
      simp [hsep' c (by simp [hf, hm])] at hc
  rcases List.append_eq_append_iff.mp h with ⟨mid, hf, rfl⟩ | ⟨mid, hf, rfl⟩
  · rw [short hf hno hsep', List.nil_append]
  · rw [short hf hno' hsep, List.nil_append]

theorem lastSegment_eq_iff {path segment : String} :
    Loader.lastSegment path = segment ↔ LastSegment path segment := by
  obtain ⟨front, last, hlast, hpath, hno, hsep, -⟩ :=
    getLast?_pieces (fun c => c == '/' || c == '.') path.toList
  have heq : Loader.lastSegment path = String.ofList last := by simp [Loader.lastSegment, hlast]
  rw [heq]
  constructor
  · intro heq
    subst heq
    exact ⟨front, by simpa using hpath, by simpa using hno, by simpa using hsep⟩
  · intro hsegment
    obtain ⟨front', hpath', hno', hsep'⟩ := hsegment
    have hu : last = segment.toList :=
      last_unique (p := fun c => c == '/' || c == '.') (hpath ▸ hpath') hno (by simpa using hsep')
        (by simpa using hno') hsep
    rw [hu, String.ofList_toList]

end LastSegment

section Candidates

variable {entries : List Entry} {ds : List Definition} {package name : String}
variable {qualifier : Option String} {e : Entry} {i j : Nat}

theorem getElem?_definitions {d : Definition} (he : entries.map (·.definition) = ds) :
    ds[i]? = some d ↔ ∃ e, entries[i]? = some e ∧ e.definition = d := by
  simp [← he]

/-- Definitions with distinct keys are told apart by them. -/
theorem position_unique (hd : (ds.map (·.key)).Nodup) {d d' : Definition}
    (hi : ds[i]? = some d) (hj : ds[j]? = some d') (hk : d.key = d'.key) : i = j := by
  by_contra hne
  have hkeys : (ds.map (·.key))[i]? = (ds.map (·.key))[j]? := by simp [hi, hj, hk]
  have hlt : ∀ {k : Nat} {d : Definition}, ds[k]? = some d → k < (ds.map (·.key)).length :=
    fun h => by simpa using (List.getElem?_eq_some_iff.mp h).1
  rcases Nat.lt_or_gt_of_ne hne with h | h
  · exact List.nodup_iff_getElem?_ne_getElem?.mp hd i j h (hlt hj) hkeys
  · exact List.nodup_iff_getElem?_ne_getElem?.mp hd j i h (hlt hi) hkeys.symm

theorem mem_called_iff :
    (e, i) ∈ entries.zipIdx.filter (fun (e, _) => e.name = name) ↔
      entries[i]? = some e ∧ e.name = name := by
  simp [List.mem_filter, List.mem_zipIdx_iff_getElem?]

/-- The loader finds exactly the candidates. -/
theorem mem_candidates_iff (he : entries.map (·.definition) = ds) (hd : (ds.map (·.key)).Nodup) :
    (e, i) ∈ Loader.candidates entries package qualifier name ↔
      entries[i]? = some e ∧ Candidate ds package qualifier name i := by
  have hget {d : Definition} := getElem?_definitions (i := i) (d := d) he
  unfold Loader.candidates
  cases qualifier with
  | some q =>
    rw [List.mem_filter, mem_called_iff, and_assoc, decide_eq_true_eq]
    apply and_congr_right
    intro hi
    have hdef : ds[i]? = some e.definition := hget.mpr ⟨e, hi, rfl⟩
    constructor
    · intro hfound
      obtain ⟨rfl, rfl | hq⟩ := hfound
      · exact .whole hdef
      · exact .segment hdef (lastSegment_eq_iff.mp hq)
    · intro hc
      cases hc with
      | whole h =>
        obtain rfl := Option.some.inj (h.symm.trans hdef)
        exact ⟨rfl, .inl rfl⟩
      | segment h hs =>
        obtain rfl := Option.some.inj (h.symm.trans hdef)
        exact ⟨rfl, .inr (lastSegment_eq_iff.mpr hs)⟩
  | none =>
    simp only
    split
    · next own hown =>
      obtain ⟨own, k⟩ := own
      have hk := mem_called_iff.mp (List.mem_of_find?_eq_some hown)
      have hp : own.package = package := by simpa using List.find?_some hown
      have hdef : ds[k]? = some own.definition := (getElem?_definitions he).mpr ⟨own, hk.1, rfl⟩
      simp only [List.mem_singleton, Prod.mk.injEq]
      constructor
      · intro hfound
        obtain ⟨rfl, rfl⟩ := hfound
        exact ⟨hk.1, hk.2 ▸ .own hdef hp⟩
      · intro hfound
        obtain ⟨hi, hc⟩ := hfound
        have hik : i = k := by
          cases hc with
          | own h hp' =>
            refine position_unique hd h hdef ?_
            exact Prod.ext (hp'.trans hp.symm) hk.2.symm
          | foreign h hno => exact absurd hp (hno _ (List.mem_of_getElem? hdef) hk.2)
        subst hik
        exact ⟨Option.some.inj (hi.symm.trans hk.1), rfl⟩
    · next hown =>
      have hno : ∀ (e : Entry) (k : Nat), entries[k]? = some e → e.name = name →
          e.package ≠ package := by
        intro e k hk hn
        simpa using List.find?_eq_none.mp hown (e, k) (mem_called_iff.mpr ⟨hk, hn⟩)
      rw [mem_called_iff]
      apply and_congr_right
      intro hi
      have hdef : ds[i]? = some e.definition := hget.mpr ⟨e, hi, rfl⟩
      constructor
      · intro hname
        subst hname
        refine .foreign hdef fun d hd hn => ?_
        obtain ⟨k, hk⟩ := List.mem_iff_getElem?.mp hd
        obtain ⟨e', he', rfl⟩ := (getElem?_definitions he).mp hk
        exact hno e' k he' hn
      · intro hc
        cases hc with
        | own h _ | foreign h _ =>
          obtain rfl := Option.some.inj (h.symm.trans hdef)
          rfl

theorem nodup_candidates (entries : List Entry) (package : String) (qualifier : Option String)
    (name : String) : (Loader.candidates entries package qualifier name).Nodup := by
  have hall : entries.zipIdx.Nodup := by
    refine List.Nodup.of_map Prod.snd ?_
    rw [List.zipIdx_map_snd]
    exact List.nodup_range'
  unfold Loader.candidates
  cases qualifier with
  | some q => exact (hall.filter _).filter _
  | none =>
    simp only
    split
    · exact List.nodup_singleton _
    · exact hall.filter _

theorem Candidate.lt (h : Candidate ds package qualifier name i) : i < ds.length := by
  cases h with
  | own hd | foreign hd | whole hd | segment hd => exact (List.getElem?_eq_some_iff.mp hd).1

/-- The loader finds one candidate where there is exactly one. -/
theorem exists_candidates_singleton_iff (he : entries.map (·.definition) = ds)
    (hd : (ds.map (·.key)).Nodup) :
    (∃ c, Loader.candidates entries package qualifier name = [c]) ↔
      ∃! i, Candidate ds package qualifier name i := by
  have entry {i : Nat} (h : Candidate ds package qualifier name i) :
      ∃ e, (e, i) ∈ Loader.candidates entries package qualifier name := by
    obtain ⟨e, hi, -⟩ := (getElem?_definitions he).mp (List.getElem?_eq_getElem h.lt)
    exact ⟨e, (mem_candidates_iff he hd).mpr ⟨hi, h⟩⟩
  constructor
  · intro hsingle
    obtain ⟨⟨e, i⟩, hc⟩ := hsingle
    refine ⟨i, ((mem_candidates_iff he hd).mp (hc ▸ List.mem_singleton_self _)).2, ?_⟩
    intro j hj
    obtain ⟨e', hj⟩ := entry hj
    rw [hc, List.mem_singleton] at hj
    exact congrArg Prod.snd hj
  · intro hone
    obtain ⟨i, hi, hunique⟩ := hone
    obtain ⟨e, hmem⟩ := entry hi
    refine ⟨(e, i), List.perm_singleton.mp ((List.perm_ext_iff_of_nodup
      (nodup_candidates _ _ _ _) (List.nodup_singleton _)).mpr fun c => ?_)⟩
    obtain ⟨e', j⟩ := c
    rw [List.mem_singleton]
    constructor
    · intro hj
      obtain ⟨hj, hcand⟩ := (mem_candidates_iff he hd).mp hj
      obtain rfl := hunique j hcand
      have hi := ((mem_candidates_iff he hd).mp hmem).1
      rw [Option.some.inj (hj.symm.trans hi)]
    · intro heq
      obtain ⟨rfl, rfl⟩ := heq
      exact hmem

end Candidates

end TypeGraph.Schema
