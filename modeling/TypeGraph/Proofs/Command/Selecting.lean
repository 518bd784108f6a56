import Mathlib.Data.List.Nodup
import TypeGraph.Command.Selection
import TypeGraph.Proofs.Schema.Passes
/-!
Roots chosen by names. Each name in turn adds the roots that go by it and are not yet there, so that
the names choose which roots are selected, and also in which order they come.
-/

namespace TypeGraph

open Schema

namespace Command

variable {s : Schema} {names selected : List String} {name : String} {root : Root}

/-- Whether some root goes by a name. -/
def Matches (s : Schema) (name : String) : Prop :=
  ∃ root ∈ s.roots, s.isNamed name root

/-- Whether a root goes by one of the names. -/
def isMeant (s : Schema) (names : List String) (root : Root) : Bool :=
  names.any (s.isNamed · root)

/-- The place of the first name that a root goes by. -/
def turn (s : Schema) (names : List String) (root : Root) : Nat :=
  names.findIdx (s.isNamed · root)

/-- The roots that a name adds to others. -/
def added (s : Schema) (roots : List Root) (name : String) : List Root :=
  (s.rootsNamed name).filter (· ∉ roots)

/-- The roots that names choose, name by name. -/
def chosen (s : Schema) (names : List String) : List Root :=
  names.foldl (fun roots name => roots ++ added s roots name) []

theorem matches_iff : Matches s name ↔ s.rootsNamed name ≠ [] := by
  simp [Matches, Schema.rootsNamed, List.filter_eq_nil_iff]

/-- Roots that come one by one are added behind the others, unless they are there. -/
theorem foldl_add {new : List Root} (hnew : new.Nodup) (roots : List Root) :
    new.foldl (fun all root => if root ∈ all then all else all ++ [root]) roots =
      roots ++ new.filter (· ∉ roots) := by
  induction new generalizing roots with
  | nil => simp
  | cons root new ih =>
    obtain ⟨hroot, hnew⟩ := List.nodup_cons.mp hnew
    rw [List.foldl_cons]
    split
    · next hold => rw [ih hnew, List.filter_cons_of_neg (by simpa using hold)]
    · next hfresh =>
      have hothers : new.filter (· ∉ roots ++ [root]) = new.filter (· ∉ roots) := by
        apply List.filter_congr
        intro other hother
        have hne : other ≠ root := fun heq => hroot (heq ▸ hother)
        simp [hne]
      rw [ih hnew, hothers, List.filter_cons_of_pos (by simpa using hfresh), List.append_assoc,
        List.singleton_append]

theorem selectNamed_eq (hroots : s.roots.Nodup) (roots : List Root) (h : Matches s name) :
    selectNamed s roots name = some (roots ++ added s roots name) := by
  have hnamed : (s.rootsNamed name).Nodup := hroots.filter _
  unfold selectNamed
  split
  · next hnone => exact absurd hnone (matches_iff.mp h)
  · next hsome => rw [foldl_add hnamed]; rfl

theorem selectNamed_eq_none (roots : List Root) (h : ¬Matches s name) :
    selectNamed s roots name = none := by
  rw [matches_iff, not_not] at h
  rw [selectNamed, h]

section Refusing

variable {β : Type} {p : String → Prop} {f : β → String → Except String β} {g : β → String → β}

/-- Steps that all succeed are taken one after another. -/
theorem foldlM_eq_ok (hok : ∀ b name, p name → f b name = .ok (g b name))
    (h : ∀ name ∈ names, p name) (b : β) : names.foldlM f b = .ok (names.foldl g b) := by
  induction names generalizing b with
  | nil => rfl
  | cons name names ih =>
    obtain ⟨hname, hnames⟩ := List.forall_mem_cons.mp h
    rw [List.foldlM_cons, hok b name hname]
    exact ih hnames _

/-- The first step that does not succeed ends the others. -/
theorem foldlM_eq_error_iff (hok : ∀ b name, p name → ∃ b', f b name = .ok b')
    (hbad : ∀ b name, ¬p name → f b name = .error name) (b : β) :
    names.foldlM f b = .error name ↔
      ∃ earlier later, names = earlier ++ name :: later ∧ (∀ n ∈ earlier, p n) ∧ ¬p name := by
  induction names generalizing b with
  | nil => simp [pure, Except.pure]
  | cons first names ih =>
    by_cases hfirst : p first
    · obtain ⟨b', hb'⟩ := hok b first hfirst
      rw [List.foldlM_cons, hb']
      refine (ih b').trans ?_
      constructor
      · rintro ⟨earlier, later, rfl, hearlier, hname⟩
        exact ⟨first :: earlier, later, rfl, List.forall_mem_cons.mpr ⟨hfirst, hearlier⟩, hname⟩
      · rintro ⟨earlier, later, hnames, hearlier, hname⟩
        cases earlier with
        | nil =>
          obtain ⟨rfl, -⟩ := List.cons.inj hnames
          exact absurd hfirst hname
        | cons n earlier =>
          obtain ⟨-, rfl⟩ := List.cons.inj hnames
          exact ⟨earlier, later, rfl, (List.forall_mem_cons.mp hearlier).2, hname⟩
    · rw [List.foldlM_cons, hbad b first hfirst]
      constructor
      · intro hrefused
        obtain rfl : first = name := Except.error.inj hrefused
        exact ⟨[], names, rfl, List.forall_mem_nil _, hfirst⟩
      · rintro ⟨earlier, later, hnames, hearlier, hname⟩
        cases earlier with
        | nil =>
          obtain ⟨rfl, -⟩ := List.cons.inj hnames
          rfl
        | cons n earlier =>
          obtain ⟨rfl, -⟩ := List.cons.inj hnames
          exact absurd (List.forall_mem_cons.mp hearlier).1 hfirst

end Refusing

theorem selectRoots_eq_ok (hroots : s.roots.Nodup) (hne : names ≠ [])
    (h : ∀ n ∈ names, Matches s n) : selectRoots s names = .ok (chosen s names) := by
  rw [selectRoots, if_neg hne]
  refine foldlM_eq_ok (p := Matches s) (fun roots name hname => ?_) h []
  rw [selectNamed_eq hroots roots hname]

theorem selectRoots_eq_error_iff (hroots : s.roots.Nodup) :
    selectRoots s names = .error name ↔ ∃ earlier later,
      names = earlier ++ name :: later ∧ (∀ n ∈ earlier, Matches s n) ∧ ¬Matches s name := by
  by_cases hne : names = []
  · simp [selectRoots, hne]
  · rw [selectRoots, if_neg hne]
    refine foldlM_eq_error_iff (p := Matches s) (fun roots n hn => ?_) (fun roots n hn => ?_) []
    · exact ⟨roots ++ added s roots n, by rw [selectNamed_eq hroots roots hn]⟩
    · rw [selectNamed_eq_none roots hn]

theorem chosen_concat (s : Schema) (names : List String) (name : String) :
    chosen s (names ++ [name]) = chosen s names ++ added s (chosen s names) name := by
  rw [chosen, List.foldl_concat, chosen]

theorem mem_chosen : root ∈ chosen s names ↔ root ∈ s.roots ∧ isMeant s names root := by
  induction names using List.reverseRecOn with
  | nil => simp [chosen, isMeant]
  | append_singleton names name ih =>
    rw [chosen_concat, List.mem_append, ih]
    simp only [added, Schema.rootsNamed, List.mem_filter, isMeant, List.any_append, List.any_cons,
      List.any_nil, Bool.or_false, Bool.or_eq_true, ih, decide_eq_true_eq]
    grind

theorem nodup_chosen (hroots : s.roots.Nodup) (names : List String) : (chosen s names).Nodup := by
  induction names using List.reverseRecOn with
  | nil => exact List.nodup_nil
  | append_singleton names name ih =>
    rw [chosen_concat, List.nodup_append]
    refine ⟨ih, (hroots.filter _).filter _, ?_⟩
    rintro root hold _ hnew rfl
    simpa [hold] using (List.mem_filter.mp hnew).2

/-- The order in which names bring roots: by the first name that a root goes by, and for one name as
they come in the schema. -/
def Before (s : Schema) (names : List String) (a b : Root) : Prop :=
  turn s names a < turn s names b ∨
    turn s names a = turn s names b ∧ s.roots.idxOf a < s.roots.idxOf b

theorem turn_concat_of_isMeant (h : isMeant s names root) (name : String) :
    turn s (names ++ [name]) root = turn s names root := by
  rw [turn, List.findIdx_append, if_pos]
  · rfl
  · simpa [isMeant] using h

theorem turn_lt_of_isMeant (h : isMeant s names root) : turn s names root < names.length := by
  simpa [turn, isMeant] using h

theorem turn_concat_of_isNamed (h : ¬isMeant s names root) (hname : s.isNamed name root) :
    turn s (names ++ [name]) root = names.length := by
  rw [turn, List.findIdx_append, if_neg]
  · simp [hname]
  · simpa [isMeant] using h

/-- The roots of a schema come one after another. -/
theorem pairwise_idxOf {roots : List Root} (h : roots.Nodup) :
    roots.Pairwise fun a b => roots.idxOf a < roots.idxOf b := by
  rw [List.pairwise_iff_getElem]
  intro i j hi hj hlt
  rwa [h.idxOf_getElem, h.idxOf_getElem]

theorem pairwise_chosen (hroots : s.roots.Nodup) (names : List String) :
    (chosen s names).Pairwise (Before s names) := by
  induction names using List.reverseRecOn with
  | nil => exact List.Pairwise.nil
  | append_singleton names name ih =>
    have hold : ∀ root ∈ chosen s names, turn s (names ++ [name]) root = turn s names root ∧
        turn s names root < names.length := by
      intro root hroot
      have hmeant := (mem_chosen.mp hroot).2
      exact ⟨turn_concat_of_isMeant hmeant name, turn_lt_of_isMeant hmeant⟩
    have hnew : ∀ root ∈ added s (chosen s names) name,
        turn s (names ++ [name]) root = names.length := by
      intro root hroot
      obtain ⟨hnamed, hfresh⟩ := List.mem_filter.mp hroot
      obtain ⟨hlisted, hname⟩ := List.mem_filter.mp hnamed
      refine turn_concat_of_isNamed (fun hmeant => ?_) hname
      simp [mem_chosen, hlisted, hmeant] at hfresh
    rw [chosen_concat, List.pairwise_append]
    refine ⟨?_, ?_, ?_⟩
    · refine ih.imp_of_mem fun ha hb hab => ?_
      rwa [Before, (hold _ ha).1, (hold _ hb).1]
    · have hlisted := ((pairwise_idxOf hroots).filter (s.isNamed name)).filter (· ∉ chosen s names)
      refine hlisted.imp_of_mem fun ha hb hab => ?_
      exact .inr ⟨(hnew _ ha).trans (hnew _ hb).symm, hab⟩
    · intro a ha b hb
      rw [Before, (hold a ha).1, hnew b hb]
      exact .inl (hold a ha).2

/-- The names choose the roots that go by one of them. -/
theorem perm_chosen (hroots : s.roots.Nodup) (names : List String) :
    (chosen s names).Perm (s.roots.filter (isMeant s names)) := by
  rw [List.perm_ext_iff_of_nodup (nodup_chosen hroots names) (hroots.filter _)]
  intro root
  rw [mem_chosen, List.mem_filter]

/-- The roots that names choose come as in the schema just where none of them stands there before
one that an earlier name brings. -/
theorem chosen_eq_filter_iff (hroots : s.roots.Nodup) (names : List String) :
    chosen s names = s.roots.filter (isMeant s names) ↔
      ∀ a ∈ s.roots, ∀ b ∈ s.roots, isMeant s names a → isMeant s names b →
        s.roots.idxOf a < s.roots.idxOf b → turn s names a ≤ turn s names b := by
  have hlisted := (pairwise_idxOf hroots).filter (isMeant s names)
  constructor
  · intro heq a ha b hb hma hmb hab
    have hbefore : (s.roots.filter (isMeant s names)).Pairwise (Before s names) :=
      heq ▸ pairwise_chosen hroots names
    obtain ⟨i, hi, rfl⟩ := List.getElem_of_mem (List.mem_filter.mpr ⟨ha, hma⟩)
    obtain ⟨j, hj, rfl⟩ := List.getElem_of_mem (List.mem_filter.mpr ⟨hb, hmb⟩)
    rcases Nat.lt_trichotomy i j with hij | rfl | hji
    · have hpair := List.pairwise_iff_getElem.mp hbefore i j hi hj hij
      simp only [Before] at hpair
      omega
    · exact absurd hab (Nat.lt_irrefl _)
    · have hpair := List.pairwise_iff_getElem.mp hlisted j i hj hi hji
      omega
  · intro horder
    have hbefore : (s.roots.filter (isMeant s names)).Pairwise (Before s names) := by
      refine hlisted.imp_of_mem fun {a b} ha hb hab => ?_
      obtain ⟨ha, hma⟩ := List.mem_filter.mp ha
      obtain ⟨hb, hmb⟩ := List.mem_filter.mp hb
      rcases Nat.lt_or_eq_of_le (horder a ha b hb hma hmb hab) with hlt | heq
      · exact .inl hlt
      · exact .inr ⟨heq, hab⟩
    refine (perm_chosen hroots names).eq_of_pairwise (fun a b _ _ hab hba => ?_)
      (pairwise_chosen hroots names) hbefore
    simp only [Before] at hab hba
    omega

/-- Selecting roots by names fails just where a name is that of no root, with the first such name.
Otherwise the selected roots are those that go by one of the names, each once, in the order in which
the names bring them; they come as in the schema just where none of them stands there before one
that an earlier name brings. -/
theorem selected_roots_follow_names (sources : List Source) (names : List String)
    (hne : names ≠ []) :
    let s := ofSources sources
    (∀ name, selectRoots s names = .error name ↔ ∃ earlier later,
      names = earlier ++ name :: later ∧ (∀ n ∈ earlier, Matches s n) ∧ ¬Matches s name) ∧
    ((∀ name ∈ names, Matches s name) → ∃ roots, selectRoots s names = .ok roots ∧
      roots.Nodup ∧ roots.Perm (s.roots.filter (isMeant s names)) ∧
      roots.Pairwise (Before s names) ∧
      (roots = s.roots.filter (isMeant s names) ↔
        ∀ a ∈ s.roots, ∀ b ∈ s.roots, isMeant s names a → isMeant s names b →
          s.roots.idxOf a < s.roots.idxOf b → turn s names a ≤ turn s names b)) := by
  intro s
  have hroots : s.roots.Nodup := List.Nodup.of_map _ (nodup_roots _ _)
  refine ⟨fun name => selectRoots_eq_error_iff hroots, fun hnames => ?_⟩
  exact ⟨chosen s names, selectRoots_eq_ok hroots hne hnames, nodup_chosen hroots names,
    perm_chosen hroots names, pairwise_chosen hroots names, chosen_eq_filter_iff hroots names⟩

/-- Three roots, two of them of one name in different packages. -/
def namesakes : List Source :=
  [⟨.inline, "package a struct A { } struct B { }"⟩,
    ⟨.inline, "package b struct A { }"⟩]

theorem namesakes_follow_names :
    let s := ofSources namesakes
    let names := ["b.A", "A", "B", "b.A"]
    names ≠ [] ∧ (∀ name ∈ names, Matches s name) ∧ ∃ roots, selectRoots s names = .ok roots ∧
      roots.map (·.ty) = [⟨9⟩, ⟨7⟩, ⟨8⟩] ∧ roots.Nodup ∧
      roots.Perm (s.roots.filter (isMeant s names)) ∧ roots.Pairwise (Before s names) := by
  intro s names
  have hshown : (∀ name ∈ names, ∃ root ∈ s.roots, s.isNamed name root) ∧
      (selectRoots s names).toOption.map (·.map (·.ty)) = some [⟨9⟩, ⟨7⟩, ⟨8⟩] := by
    decide +kernel
  obtain ⟨hnames, hshown⟩ := hshown
  have hne : names ≠ [] := List.cons_ne_nil _ _
  obtain ⟨roots, hroots, hnodup, hperm, horder, -⟩ :=
    (selected_roots_follow_names namesakes names hne).2 hnames
  refine ⟨hne, hnames, roots, hroots, ?_, hnodup, hperm, horder⟩
  rw [hroots] at hshown
  exact Option.some.inj hshown

/-- Two structs that are named the other way round come in the order of the names. -/
theorem names_turn_roots_round :
    let s := ofSources [⟨.inline, "struct A { } struct B { }"⟩]
    (selectRoots s ["B", "A"]).toOption.map (·.map (·.ty)) = some [⟨8⟩, ⟨7⟩] ∧
      (s.roots.filter (isMeant s ["B", "A"])).map (·.ty) = [⟨7⟩, ⟨8⟩] := by
  decide +kernel

end Command

end TypeGraph
