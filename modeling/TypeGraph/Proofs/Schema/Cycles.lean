import TypeGraph.Proofs.Schema.Passes
/-!
Cycles among synonyms. Whatever else is wrong with the files, every transparent synonym is resolved
once, and a cycle is reported if and only if some synonym leads back to itself. Resolving goes depth
first: a synonym that is met while it is being resolved closes a cycle, and one that was resolved
without such a meeting leads only to others that were resolved before it.
-/

namespace TypeGraph.Schema

open Relation

/-- The definitions that are kept: of those with one name in one package the first. -/
def originals (ds : List Definition) : List Definition :=
  ds.foldl (fun kept d => if d.key ∈ kept.map (·.key) then kept else kept ++ [d]) []

/-- The expressions in an expression that are resolved, itself among them: of members with one name
only the first. -/
inductive Effective : TypeExpr → TypeExpr → Prop
  | self (x : TypeExpr) : Effective x x
  | pointer {y x : TypeExpr} (span : Span) (h : Effective y x) : Effective y (.pointer x span)
  | sequence {y x : TypeExpr} (span : Span) (h : Effective y x) : Effective y (.sequence x span)
  | key {y k : TypeExpr} (v : TypeExpr) (span : Span) (h : Effective y k) :
      Effective y (.map k v span)
  | value {y v : TypeExpr} (k : TypeExpr) (span : Span) (h : Effective y v) :
      Effective y (.map k v span)
  | member {y : TypeExpr} {m : MemberDef TypeExpr} {ms before after : List (MemberDef TypeExpr)}
      (span : Span) (hms : ms = before ++ m :: after)
      (hnew : m.name.text ∉ before.map (·.name.text)) (h : Effective y m.type) :
      Effective y (.record ms span)

/-- The expression contains a reference whose only candidate is the transparent synonym at a
position. -/
def LeadsOn (ds : List Definition) (package : String) (x : TypeExpr) (j : Nat) : Prop :=
  ∃ qualifier name span e, Effective (.reference qualifier name span) x ∧
    (∀ k, Candidate ds package qualifier name k ↔ k = j) ∧ ds[j]? = some e ∧ e.Transparent

/-- The target of one transparent synonym leads on to another one. -/
def Expands (ds : List Definition) (i j : Nat) : Prop :=
  ∃ d s, ds[i]? = some d ∧ d.Transparent ∧ d.item = .synonym s ∧ LeadsOn ds d.package s.target j

/-- Expanding the synonym comes to an end. -/
def Ends (ds : List Definition) (i : Nat) : Prop :=
  Acc (fun j i => Expands ds i j) i

variable {ds : List Definition} {package : String} {x : TypeExpr} {i j : Nat} {span : Span}

theorem originals_concat (ds : List Definition) (d : Definition) :
    originals (ds ++ [d]) = if d.key ∈ (originals ds).map (·.key) then originals ds
      else originals ds ++ [d] := by
  simp [originals]

theorem Ends.acyclic (h : Ends ds i) : ¬TransGen (Expands ds) i i := by
  induction h with
  | intro i _ ih =>
    intro hcycle
    obtain ⟨j, hj, hback⟩ := TransGen.head'_iff.mp hcycle
    exact ih j hj (TransGen.tail' hback hj)

section Parts

theorem not_leadsOn_scalar {kind : Scalar} : ¬LeadsOn ds package (.scalar kind span) j := by
  rintro ⟨_, _, _, _, h, -⟩
  cases h

theorem not_leadsOn_hole : ¬LeadsOn ds package (.hole span) j := by
  rintro ⟨_, _, _, _, h, -⟩
  cases h

theorem leadsOn_reference {qualifier : Option String} {name : String} :
    LeadsOn ds package (.reference qualifier name span) j ↔
      (∀ k, Candidate ds package qualifier name k ↔ k = j) ∧
        ∃ e, ds[j]? = some e ∧ e.Transparent := by
  constructor
  · rintro ⟨_, _, _, e, h, hone, he, ht⟩
    cases h
    exact ⟨hone, e, he, ht⟩
  · rintro ⟨hone, e, he, ht⟩
    exact ⟨qualifier, name, span, e, .self _, hone, he, ht⟩

theorem leadsOn_pointer : LeadsOn ds package (.pointer x span) j ↔ LeadsOn ds package x j := by
  constructor
  · rintro ⟨q, n, s, e, h, hrest⟩
    cases h with
    | pointer _ h => exact ⟨q, n, s, e, h, hrest⟩
  · rintro ⟨q, n, s, e, h, hrest⟩
    exact ⟨q, n, s, e, .pointer span h, hrest⟩

theorem leadsOn_sequence : LeadsOn ds package (.sequence x span) j ↔ LeadsOn ds package x j := by
  constructor
  · rintro ⟨q, n, s, e, h, hrest⟩
    cases h with
    | sequence _ h => exact ⟨q, n, s, e, h, hrest⟩
  · rintro ⟨q, n, s, e, h, hrest⟩
    exact ⟨q, n, s, e, .sequence span h, hrest⟩

theorem leadsOn_map {k v : TypeExpr} : LeadsOn ds package (.map k v span) j ↔
    LeadsOn ds package k j ∨ LeadsOn ds package v j := by
  constructor
  · rintro ⟨q, n, s, e, h, hrest⟩
    cases h with
    | key _ _ h => exact .inl ⟨q, n, s, e, h, hrest⟩
    | value _ _ h => exact .inr ⟨q, n, s, e, h, hrest⟩
  · rintro (⟨q, n, s, e, h, hrest⟩ | ⟨q, n, s, e, h, hrest⟩)
    · exact ⟨q, n, s, e, .key v span h, hrest⟩
    · exact ⟨q, n, s, e, .value k span h, hrest⟩

/-- A member whose name is neither among those seen nor that of a member before it leads on. -/
def MembersLeadOn (ds : List Definition) (package : String) (seen : List (String × Span))
    (ms : List (MemberDef TypeExpr)) (j : Nat) : Prop :=
  ∃ before m after, ms = before ++ m :: after ∧ m.name.text ∉ before.map (·.name.text) ∧
    seen.lookup m.name.text = none ∧ LeadsOn ds package m.type j

variable {seen : List (String × Span)} {m : MemberDef TypeExpr} {ms : List (MemberDef TypeExpr)}

theorem leadsOn_record :
    LeadsOn ds package (.record ms span) j ↔ MembersLeadOn ds package [] ms j := by
  constructor
  · rintro ⟨q, n, s, e, h, hrest⟩
    cases h with
    | member _ hms hnew h => exact ⟨_, _, _, hms, hnew, rfl, q, n, s, e, h, hrest⟩
  · rintro ⟨before, m, after, hms, hnew, -, q, n, s, e, h, hrest⟩
    exact ⟨q, n, s, e, .member span hms hnew h, hrest⟩

theorem not_membersLeadOn_nil : ¬MembersLeadOn ds package seen [] j := by
  rintro ⟨before, m, after, hms, -⟩
  simp at hms

/-- A member whose name was seen is passed over. -/
theorem membersLeadOn_cons_seen {first : Span} (hseen : seen.lookup m.name.text = some first) :
    MembersLeadOn ds package seen (m :: ms) j ↔ MembersLeadOn ds package seen ms j := by
  constructor
  · rintro ⟨before, m', after, hms, hnew, hnone, hlead⟩
    cases before with
    | nil =>
      obtain ⟨rfl, -⟩ := List.cons.inj hms
      simp [hseen] at hnone
    | cons b before =>
      obtain ⟨rfl, rfl⟩ := List.cons.inj hms
      rw [List.map_cons, List.mem_cons, not_or] at hnew
      exact ⟨before, m', after, rfl, hnew.2, hnone, hlead⟩
  · rintro ⟨before, m', after, rfl, hnew, hnone, hlead⟩
    have hne : m'.name.text ≠ m.name.text := fun h => by simp [h, hseen] at hnone
    exact ⟨m :: before, m', after, rfl, by simpa [hne] using hnew, hnone, hlead⟩

theorem membersLeadOn_cons_new (span : Span) (hseen : seen.lookup m.name.text = none) :
    MembersLeadOn ds package seen (m :: ms) j ↔ LeadsOn ds package m.type j ∨
      MembersLeadOn ds package ((m.name.text, span) :: seen) ms j := by
  constructor
  · rintro ⟨before, m', after, hms, hnew, hnone, hlead⟩
    cases before with
    | nil =>
      obtain ⟨rfl, -⟩ := List.cons.inj hms
      exact .inl hlead
    | cons b before =>
      obtain ⟨rfl, rfl⟩ := List.cons.inj hms
      rw [List.map_cons, List.mem_cons, not_or] at hnew
      refine .inr ⟨before, m', after, rfl, hnew.2, ?_, hlead⟩
      simp [List.lookup_cons, beq_false_of_ne hnew.1, hnone]
  · rintro (hlead | ⟨before, m', after, rfl, hnew, hnone, hlead⟩)
    · exact ⟨[], m, ms, rfl, by simp, hseen, hlead⟩
    · rw [List.lookup_cons] at hnone
      split at hnone
      · simp at hnone
      · next hne =>
        have hne : m'.name.text ≠ m.name.text := by simpa using hne
        exact ⟨m :: before, m', after, rfl, by simpa [hne] using hnew, hnone, hlead⟩

end Parts

/-- How many cycles were reported. -/
def Loading.cycles (l : Loading) : Nat :=
  l.diagnostics.countP (·.kind = .aliasCycle)

namespace Loader

variable {α β : Type} {es : List Entry} {path : List Nat} {l l' l'' : Loading} {N N' : Nat → Prop}

/-- What has nothing to do with synonyms: none is resolved, and no cycle is reported. -/
structure Idle (l l' : Loading) : Prop where
  resolved : l'.resolved = l.resolved
  reports : l.diagnostics <+: l'.diagnostics
  cycles : l'.cycles = l.cycles

theorem Idle.refl (l : Loading) : Idle l l :=
  ⟨rfl, List.prefix_refl _, rfl⟩

theorem Idle.trans (h : Idle l l') (h' : Idle l' l'') : Idle l l'' :=
  ⟨h'.resolved.trans h.resolved, h.reports.trans h'.reports, h'.cycles.trans h.cycles⟩

theorem cycles_report (source : SourceId) (kind : Diagnostic.Kind) (span : Span)
    (detail? : Option String) (related : List Diagnostic.Related) (l : Loading) :
    (report source kind span detail? related l).2.cycles =
      l.cycles + if kind = .aliasCycle then 1 else 0 := by
  have hd : (report source kind span detail? related l).2.diagnostics =
      l.diagnostics ++ [.make source kind span detail? related []] := rfl
  simp [Loading.cycles, hd, Diagnostic.make, List.countP_append, List.countP_singleton]

theorem idle_report {source : SourceId} {kind : Diagnostic.Kind} {span : Span}
    {detail? : Option String} {related : List Diagnostic.Related} (hk : kind ≠ .aliasCycle) :
    Idle l (report source kind span detail? related l).2 :=
  ⟨rfl, List.prefix_append _ _, by rw [cycles_report, if_neg hk, Nat.add_zero]⟩

/-- How the second pass over the entries `es` stands while the synonyms of `path` are being
resolved: these and the ones resolved so far are transparent, and none comes twice. -/
structure Standing (es : List Entry) (path : List Nat) (l : Loading) : Prop where
  entries : l.entries = es
  distinct : ((es.map (·.definition)).map (·.key)).Nodup
  matched : ∀ e ∈ es, e.type? = none ↔ e.definition.Transparent
  nodup : (path ++ l.resolved.map (·.1)).Nodup
  transparent : ∀ i ∈ path ++ l.resolved.map (·.1), ∃ d, (es.map (·.definition))[i]? = some d ∧
    d.Transparent

/-- What work of the second pass leaves behind. The synonyms of which `N` holds are resolved, or met
again while they are being resolved, which is reported. Only cycles are reported as such, and if
none is, expanding what is resolved comes to an end. -/
structure Survey (es : List Entry) (path : List Nat) (l l' : Loading) (N : Nat → Prop) : Prop where
  standing : Standing es path l'
  keeps : l.resolved.map (·.1) ⊆ l'.resolved.map (·.1)
  reports : l.diagnostics <+: l'.diagnostics
  cyclic : l.cycles < l'.cycles → ∃ i, TransGen (Expands (es.map (·.definition))) i i
  ends : l'.cycles = l.cycles → (∀ i ∈ l.resolved.map (·.1), Ends (es.map (·.definition)) i) →
    ∀ i ∈ l'.resolved.map (·.1), Ends (es.map (·.definition)) i
  covers : ∀ i, N i → i ∈ l'.resolved.map (·.1) ∨ (i ∈ path ∧ l.cycles < l'.cycles)

/-- Work of the second pass that resolves the synonyms of which `N` holds. -/
def Surveys (es : List Entry) (path : List Nat) (m : Loader α) (N : Nat → Prop) : Prop :=
  ∀ l, Standing es path l → Survey es path l (m l).2 N

theorem Survey.le (h : Survey es path l l' N) : l.cycles ≤ l'.cycles :=
  h.reports.sublist.countP_le

theorem Survey.trans (h : Survey es path l l' N) (h' : Survey es path l' l'' N') :
    Survey es path l l'' fun i => N i ∨ N' i := by
  have hle := h.le
  have hle' := h'.le
  refine ⟨h'.standing, fun i hi => h'.keeps (h.keeps hi), h.reports.trans h'.reports, ?_, ?_, ?_⟩
  · intro hlt
    by_cases hfirst : l.cycles < l'.cycles
    · exact h.cyclic hfirst
    · exact h'.cyclic (by omega)
  · exact fun hsame hold => h'.ends (by omega) (h.ends (by omega) hold)
  · rintro i (hi | hi)
    · exact (h.covers i hi).imp (fun hi => h'.keeps hi) fun hi => ⟨hi.1, by omega⟩
    · exact (h'.covers i hi).imp_right fun hi => ⟨hi.1, by omega⟩

theorem Survey.mono (h : Survey es path l l' N) (hN : ∀ i, N' i → N i) :
    Survey es path l l' N' :=
  ⟨h.standing, h.keeps, h.reports, h.cyclic, h.ends, fun i hi => h.covers i (hN i hi)⟩

theorem Idle.survey (h : Idle l l') (hs : Standing es path l) (he : l'.entries = l.entries)
    (hN : ∀ i, N i → i ∈ l.resolved.map (·.1)) : Survey es path l l' N := by
  refine ⟨⟨he.trans hs.entries, hs.distinct, hs.matched, h.resolved ▸ hs.nodup,
    h.resolved ▸ hs.transparent⟩, by simp [h.resolved], h.reports, by simp [h.cycles], ?_,
    fun i hi => .inl ?_⟩
  · intro _ hold
    rwa [h.resolved]
  · rw [h.resolved]
    exact hN i hi

theorem Surveys.mono {m : Loader α} (h : Surveys es path m N) (hN : ∀ i, N' i → N i) :
    Surveys es path m N' :=
  fun l hl => (h l hl).mono hN

theorem Surveys.bind {m : Loader α} {f : α → Loader β} (hm : Surveys es path m N)
    (hf : ∀ a, Surveys es path (f a) N') : Surveys es path (m >>= f) fun i => N i ∨ N' i := by
  intro l hl
  have hfirst := hm l hl
  exact hfirst.trans (hf _ _ hfirst.standing)

/-- Work that resolves nothing, after or before work that does. -/
theorem Surveys.before {m : Loader α} {f : α → Loader β} (hm : Surveys es path m N)
    (hf : ∀ a, Surveys es path (f a) fun _ => False) : Surveys es path (m >>= f) N :=
  (hm.bind hf).mono fun _ hi => .inl hi

theorem Surveys.after {m : Loader α} {f : α → Loader β}
    (hm : Surveys es path m fun _ => False) (hf : ∀ a, Surveys es path (f a) N) :
    Surveys es path (m >>= f) N :=
  (hm.bind hf).mono fun _ hi => .inr hi

theorem surveys_of_idle {m : Loader α} (h : ∀ l, Idle l (m l).2 ∧ (m l).2.entries = l.entries)
    (hN : ∀ i, ¬N i) : Surveys es path m N :=
  fun l hs => (h l).1.survey hs (h l).2 fun i hi => absurd hi (hN i)

theorem surveys_pure (a : α) (hN : ∀ i, ¬N i) : Surveys es path (pure a : Loader α) N :=
  surveys_of_idle (fun l => ⟨.refl l, rfl⟩) hN

theorem surveys_report {source : SourceId} {kind : Diagnostic.Kind} {span : Span}
    {detail? : Option String} {related : List Diagnostic.Related} (hk : kind ≠ .aliasCycle)
    (hN : ∀ i, ¬N i) : Surveys es path (report source kind span detail? related) N :=
  surveys_of_idle (fun _ => ⟨idle_report hk, rfl⟩) hN

theorem surveys_intern (shape : Shape) (hN : ∀ i, ¬N i) : Surveys es path
    (do return some (← withTypes (·.intern shape)) : Loader (Option TypeId)) N :=
  surveys_of_idle (fun _ => ⟨⟨rfl, List.prefix_refl _, rfl⟩, rfl⟩) hN

theorem surveys_updateTypes (f : TypeSet → TypeSet) :
    Surveys es path (updateTypes f) fun _ => False :=
  surveys_of_idle (fun _ => ⟨⟨rfl, List.prefix_refl _, rfl⟩, rfl⟩) fun _ => not_false

section Expressions

variable {synonym : Nat → Loader (Option TypeId)} {place : Place}

theorem surveys_reference {qualifier : Option String} {name : String} {span : Span}
    (hs : ∀ j, LeadsOn (es.map (·.definition)) place.package (.reference qualifier name span) j →
      Surveys es path (synonym j) (· = j)) :
    Surveys es path (reference synonym place qualifier name span)
      (LeadsOn (es.map (·.definition)) place.package (.reference qualifier name span)) := by
  intro l hl
  have he : l.entries.map (·.definition) = es.map (·.definition) := by rw [hl.entries]
  have hone : (∃ c, candidates l.entries place.package qualifier name = [c]) ↔ _ :=
    exists_candidates_singleton_iff he hl.distinct
  have hsingle {entry : Entry} {i : Nat}
      (hc : candidates l.entries place.package qualifier name = [(entry, i)]) :
      (∀ k, Candidate (es.map (·.definition)) place.package qualifier name k ↔ k = i) ∧
        (es.map (·.definition))[i]? = some entry.definition ∧ entry ∈ es := by
    obtain ⟨hi, hcand⟩ := (mem_candidates_iff he hl.distinct).mp (hc ▸ List.mem_singleton_self _)
    refine ⟨fun k => ⟨fun hk => (hone.mp ⟨_, hc⟩).unique hk hcand, fun hk => hk ▸ hcand⟩,
      (getElem?_definitions he).mpr ⟨entry, hi, rfl⟩, hl.entries ▸ List.mem_of_getElem? hi⟩
  have href := referred_reference synonym place qualifier name span l
  generalize reference synonym place qualifier name span l = r at href
  cases href with
  | @typed entry i id hc ht =>
    obtain ⟨honly, hdef, hmem⟩ := hsingle hc
    refine (Idle.refl l).survey hl rfl fun j hj => False.elim ?_
    obtain ⟨honly', e, hej, htj⟩ := leadsOn_reference.mp hj
    obtain rfl : j = i := (honly j).mp ((honly' j).mpr rfl)
    obtain rfl := Option.some.inj (hej.symm.trans hdef)
    simp [(hl.matched entry hmem).mpr htj] at ht
  | @synonym entry i hc ht =>
    obtain ⟨honly, hdef, hmem⟩ := hsingle hc
    have hlead : LeadsOn (es.map (·.definition)) place.package (.reference qualifier name span) i :=
      leadsOn_reference.mpr ⟨honly, _, hdef, (hl.matched entry hmem).mp ht⟩
    refine (hs i hlead l hl).mono fun j hj => ?_
    exact (honly j).mp (((leadsOn_reference.mp hj).1 j).mpr rfl)
  | @reported found hc hno =>
    have hreport : Idle l (reportReference place qualifier name span found l).2 ∧
        (reportReference place qualifier name span found l).2.entries = l.entries := by
      cases found <;> exact ⟨idle_report (by decide), rfl⟩
    refine hreport.1.survey hl hreport.2 fun j hj => False.elim ?_
    have honly := (leadsOn_reference.mp hj).1
    obtain ⟨c, hc'⟩ := hone.mpr ⟨j, (honly j).mpr rfl, fun k hk => (honly k).mp hk⟩
    exact hno c (hc.symm.trans hc')

mutual

/-- An expression is resolved with all synonyms that it leads on to. -/
theorem surveys_type : ∀ x,
      (∀ j, LeadsOn (es.map (·.definition)) place.package x j →
        Surveys es path (synonym j) (· = j)) →
      Surveys es path (type synonym place x) (LeadsOn (es.map (·.definition)) place.package x)
  | .scalar kind span, _ => by
    rw [type]
    exact surveys_intern _ fun _ => not_leadsOn_scalar
  | .reference qualifier name span, hs => by
    rw [type]
    exact surveys_reference hs
  | .pointer target span, hs => by
    rw [type]
    refine ((surveys_type target fun j hj => hs j (leadsOn_pointer.mpr hj)).before
      fun id? => ?_).mono fun _ => leadsOn_pointer.mp
    cases id? with
    | none => exact surveys_pure none fun _ => not_false
    | some id => exact surveys_intern _ fun _ => not_false
  | .sequence element span, hs => by
    rw [type]
    refine ((surveys_type element fun j hj => hs j (leadsOn_sequence.mpr hj)).before
      fun id? => ?_).mono fun _ => leadsOn_sequence.mp
    cases id? with
    | none => exact surveys_pure none fun _ => not_false
    | some id => exact surveys_intern _ fun _ => not_false
  | .map key value span, hs => by
    rw [type]
    refine ((surveys_type key fun j hj => hs j (leadsOn_map.mpr (.inl hj))).bind
      fun key? => (surveys_type value fun j hj =>
        hs j (leadsOn_map.mpr (.inr hj))).before fun value? => ?_).mono fun _ => leadsOn_map.mp
    match key?, value? with
    | some k, some v => exact surveys_intern _ fun _ => not_false
    | none, _ => exact surveys_pure none fun _ => not_false
    | some _, none => exact surveys_pure none fun _ => not_false
  | .record ms span, hs => by
    rw [type]
    refine ((surveys_members [] ms fun j hj =>
      hs j (leadsOn_record.mpr hj)).before fun members => ?_).mono fun _ => leadsOn_record.mp
    exact surveys_intern _ fun _ => not_false
  | .hole span, _ => by
    rw [type]
    exact surveys_pure none fun _ => not_leadsOn_hole

theorem surveys_members : ∀ seen (ms : List (MemberDef TypeExpr)),
      (∀ j, MembersLeadOn (es.map (·.definition)) place.package seen ms j →
        Surveys es path (synonym j) (· = j)) →
      Surveys es path (members synonym place seen ms)
        (MembersLeadOn (es.map (·.definition)) place.package seen ms)
  | seen, [], _ => by
    rw [members]
    exact surveys_pure [] fun _ => not_membersLeadOn_nil
  | seen, ⟨name, expr, embedded, attributes, doc⟩ :: ms, hs => by
    rw [members]
    cases hseen : seen.lookup name.text with
    | some first =>
      have hskip (j : Nat) : MembersLeadOn (es.map (·.definition)) place.package seen
          (⟨name, expr, embedded, attributes, doc⟩ :: ms) j ↔ _ := membersLeadOn_cons_seen hseen
      refine ((surveys_report (by decide) fun _ => not_false).after fun _ =>
        surveys_members seen ms fun j hj => hs j ((hskip j).mpr hj)).mono ?_
      exact fun j => (hskip j).mp
    | none =>
      have hparts (j : Nat) : MembersLeadOn (es.map (·.definition)) place.package seen
          (⟨name, expr, embedded, attributes, doc⟩ :: ms) j ↔ _ :=
        membersLeadOn_cons_new name.span hseen
      refine ((surveys_type expr fun j hj => hs j ((hparts j).mpr (.inl hj))).bind
        fun ty? => (surveys_members _ ms fun j hj =>
          hs j ((hparts j).mpr (.inr hj))).before fun rest => ?_).mono fun j => (hparts j).mp
      cases ty? <;> exact surveys_pure _ fun _ => not_false

end

end Expressions

section Synonyms

variable {d : Definition}

theorem Standing.opened (h : Standing es path l) (hi : (es.map (·.definition))[i]? = some d)
    (ht : d.Transparent) (hout : i ∉ path) (hr : l.resolved.lookup i = none) :
    Standing es (i :: path) l := by
  have hnew : i ∉ l.resolved.map (·.1) := by
    intro hmem
    obtain ⟨known, hknown, rfl⟩ := List.mem_map.mp hmem
    simpa using List.lookup_eq_none_iff.mp hr known hknown
  refine ⟨h.entries, h.distinct, h.matched, ?_, ?_⟩
  · rw [List.cons_append, List.nodup_cons]
    exact ⟨by simp [hout, hnew], h.nodup⟩
  · rw [List.cons_append]
    exact List.forall_mem_cons.mpr ⟨⟨d, hi, ht⟩, h.transparent⟩

/-- A synonym that was resolved before. -/
theorem Standing.known {known : Option TypeId} (h : Standing es path l)
    (hr : l.resolved.lookup i = some known) : Survey es path l l (· = i) := by
  refine (Idle.refl l).survey h rfl fun j hj => ?_
  obtain ⟨before, after, hresolved, -⟩ := List.lookup_eq_some_iff.mp hr
  simp [hj, hresolved]

/-- A synonym that is met while it is being resolved. -/
theorem Standing.met {source : SourceId} {span : Span} {detail? : Option String}
    (h : Standing es path l) (hin : i ∈ path)
    (hcycle : TransGen (Expands (es.map (·.definition))) i i) :
    Survey es path l (report source .aliasCycle span detail? [] l).2 (· = i) := by
  have hcount := cycles_report source .aliasCycle span detail? [] l
  refine ⟨⟨h.entries, h.distinct, h.matched, h.nodup, h.transparent⟩, fun _ hj => hj,
    List.prefix_append _ _, fun _ => ⟨i, hcycle⟩, fun _ hold => hold,
    fun j hj => .inr ⟨hj ▸ hin, ?_⟩⟩
  simp [hcount]

/-- A synonym is resolved when its target is, with all that it expands to. -/
theorem Survey.resolved (h : Survey es (i :: path) l l' N) (ty? : Option TypeId)
    (hnext : ∀ j, Expands (es.map (·.definition)) i j → N j) :
    Survey es path l { l' with resolved := (i, ty?) :: l'.resolved } (· = i) := by
  obtain ⟨hentries, hdistinct, hmatched, hnodup, htransparent⟩ := h.standing
  refine ⟨⟨hentries, hdistinct, hmatched, ?_, ?_⟩, fun j hj => List.mem_cons_of_mem _ (h.keeps hj),
    h.reports, h.cyclic, ?_, fun j hj => .inl (hj ▸ List.mem_cons_self)⟩
  · rw [List.map_cons, List.nodup_middle]
    exact hnodup
  · intro j hj
    rw [List.map_cons, List.perm_middle.mem_iff] at hj
    exact htransparent j hj
  · intro hsame hold
    have hends := h.ends hsame hold
    refine List.forall_mem_cons.mpr ⟨.intro i fun j hj => hends j ?_, hends⟩
    rcases h.covers j (hnext j hj) with hj | ⟨-, hlt⟩
    · exact hj
    · exact absurd hsame (Nat.ne_of_gt hlt)

/-- A synonym is resolved, unless it is being resolved. The path leads to it, so if it is on the
path it leads to itself; and the path is too short to use up the depth. -/
theorem surveys_synonym (depth : Nat) (path : List Nat)
    (hi : (es.map (·.definition))[i]? = some d) (ht : d.Transparent)
    (hpath : ∀ p ∈ path, TransGen (Expands (es.map (·.definition))) p i)
    (hdepth : es.length < depth + path.length) :
    Surveys es path (Loader.synonym depth path i) (· = i) := by
  induction depth generalizing path i d with
  | zero =>
    intro l hl
    have hbound : ∀ p ∈ path, p < es.length := by
      intro p hp
      obtain ⟨d, hd, -⟩ := hl.transparent p (List.mem_append_left _ hp)
      simpa using (List.getElem?_eq_some_iff.mp hd).1
    have hlen := length_path_le (List.nodup_append.mp hl.nodup).1 hbound
    omega
  | succ depth ih =>
    intro l hl
    obtain ⟨s, hs, -⟩ := id ht
    have he : l.entries.map (·.definition) = es.map (·.definition) := by rw [hl.entries]
    cases hr : l.resolved.lookup i with
    | some known =>
      have hknown : Loader.synonym (depth + 1) path i l = (known, l) := by
        simp only [Loader.synonym, follow, run_bind, run_get, hr]
        rfl
      rw [hknown]
      exact hl.known hr
    | none =>
      have hfollowed := followed_synonym depth path i l
      generalize Loader.synonym (depth + 1) path i l = r at hfollowed
      cases hfollowed with
      | known hr' => simp [hr] at hr'
      | cycle _ hin => exact hl.met hin (hpath i hin)
      | @target package source s' r hi' hout hx =>
        obtain rfl : d = ⟨package, .synonym s'⟩ := by
          have hdef := (getElem?_definitions he).mpr ⟨_, hi', rfl⟩
          exact Option.some.inj (hi.symm.trans hdef)
        have hnext (j : Nat) (hj : LeadsOn (es.map (·.definition)) package s'.target j) :
            Surveys es (i :: path) (Loader.synonym depth (i :: path) j) (· = j) := by
          have hedge : Expands (es.map (·.definition)) i j := ⟨_, s', hi, ht, rfl, hj⟩
          obtain ⟨-, -, -, e, -, -, hdj, htj⟩ := id hj
          refine ih (i :: path) hdj htj ?_ (by rw [List.length_cons]; omega)
          exact List.forall_mem_cons.mpr ⟨.single hedge, fun p hp => (hpath p hp).tail hedge⟩
        have htype : Surveys es (i :: path)
            (type (Loader.synonym depth (i :: path)) ⟨package, source⟩ s'.target) _ :=
          surveys_type s'.target hnext
        have hsurvey := htype l (hl.opened hi ht hout hr)
        rw [hx] at hsurvey
        refine hsurvey.resolved r.1 fun j hj => ?_
        obtain ⟨d', s'', hi'', -, hs'', hlead⟩ := hj
        obtain rfl := Option.some.inj (hi.symm.trans hi'')
        obtain rfl : s' = s'' := by simpa using hs''
        exact hlead
      | other hno =>
        obtain ⟨e, hie, rfl⟩ := (getElem?_definitions he).mp hi
        obtain ⟨package, source, item, type?⟩ := e
        have hnone : type? = none :=
          (hl.matched _ (hl.entries ▸ List.mem_of_getElem? hie)).mpr ht
        obtain rfl : item = .synonym s := hs
        exact absurd (hnone ▸ hie) (hno package source s)

theorem surveys_topSynonym (hi : (es.map (·.definition))[i]? = some d) (ht : d.Transparent) :
    Surveys es [] (topSynonym i) (· = i) := by
  intro l hl
  have htop := surveys_synonym (l.entries.length + 1) [] hi ht (by simp) (by simp [hl.entries])
  exact htop l hl

end Synonyms

section Entries

theorem surveys_documentType (id : TypeId) (doc : Option String) :
    Surveys es path (documentType id doc) fun _ => False :=
  surveys_updateTypes _

theorem surveys_addRoot (id : TypeId) (kind : RootKind) :
    Surveys es path (addRoot id kind) fun _ => False :=
  surveys_of_idle (fun _ => ⟨⟨rfl, List.prefix_refl _, rfl⟩, rfl⟩) fun _ => not_false

theorem surveys_constants (source : SourceId) (id : TypeId) (kind : Scalar)
    (seen : List (String × Span)) (vs : List Variant) :
    Surveys es path (constants source id kind seen vs) fun _ => False := by
  induction vs generalizing seen with
  | nil => exact surveys_pure 0 fun _ => not_false
  | cons v vs ih =>
    rw [constants]
    cases seen.lookup v.name.text with
    | some first =>
      exact (surveys_report (by decide) fun _ => not_false).after fun _ => ih seen
    | none =>
      simp only
      split
      · refine (surveys_updateTypes _).after fun _ => (ih _).after fun n => ?_
        exact surveys_pure (n + 1) fun _ => not_false
      · exact (surveys_report (by decide) fun _ => not_false).after fun _ => ih _

theorem surveys_fillEnum (place : Place) (id : TypeId) (kind : Scalar) (d : EnumDef) :
    Surveys es path (fillEnum place id kind d) fun _ => False := by
  refine (surveys_constants place.source id kind [] d.variants).after fun count => ?_
  split
  · exact surveys_report (by decide) fun _ => not_false
  · split
    · exact surveys_addRoot id .enum
    · exact surveys_pure () fun _ => not_false

theorem surveys_resolveEnum (place : Place) (id : TypeId) (d : EnumDef) :
    Surveys es path (resolveEnum place id d) fun _ => False := by
  intro l hl
  have hdoc := surveys_documentType id d.doc l hl
  rw [resolveEnum_eq]
  simp only
  split
  · exact (hdoc.trans (surveys_fillEnum place id _ d _ hdoc.standing)).mono fun _ => False.elim
  · exact hdoc

theorem surveys_resolveStruct (place : Place) (id : TypeId) (d : StructDef) :
    Surveys es [] (resolveStruct place id d) fun _ => False := by
  have hmembers : Surveys es [] (members topSynonym place [] d.members) _ :=
    surveys_members [] d.members fun j hj => by
      obtain ⟨-, -, -, -, -, -, -, -, -, e, -, -, hdj, htj⟩ := hj
      exact surveys_topSynonym hdj htj
  refine (hmembers.mono fun _ => False.elim).after fun members =>
    (surveys_updateTypes _).after fun _ => (surveys_documentType id d.doc).after fun _ =>
      Surveys.after ?_ fun _ => surveys_addRoot id .struct
  exact surveys_of_idle (fun _ => ⟨⟨rfl, List.prefix_refl _, rfl⟩, rfl⟩) fun _ => not_false

/-- A definition that is a transparent synonym is resolved. -/
theorem surveys_resolveEntry {e : Entry} (hi : es[i]? = some e) :
    Surveys es [] (resolveEntry e i) fun j => j = i ∧ e.definition.Transparent := by
  intro l hl
  have hdef : (es.map (·.definition))[i]? = some e.definition := by simp [hi]
  have hmatched := hl.matched e (List.mem_of_getElem? hi)
  obtain ⟨package, source, item, type?⟩ := e
  cases type? with
  | none =>
    have htop : Surveys es [] (do let _ ← topSynonym i : Loader Unit) (· = i) :=
      (surveys_topSynonym hdef (hmatched.mp rfl)).before fun _ =>
        surveys_pure () fun _ => not_false
    refine Survey.mono ?_ fun j hj => hj.1
    obtain ⟨s, rfl, -⟩ := hmatched.mp rfl
    exact htop l hl
  | some id =>
    have hopaque : ¬(Definition.mk package item).Transparent :=
      fun ht => by simpa using hmatched.mpr ht
    refine Survey.mono (N := fun _ => False) ?_ fun j hj => hopaque hj.2
    cases item with
    | struct d => exact surveys_resolveStruct ⟨package, source⟩ id d l hl
    | enum d => exact surveys_resolveEnum ⟨package, source⟩ id d l hl
    | synonym d => exact surveys_documentType id d.doc l hl

theorem surveys_forM {xs : List α} {f : α → Loader Unit} {P : α → Nat → Prop}
    (hf : ∀ a ∈ xs, Surveys es path (f a) (P a)) :
    Surveys es path (xs.forM f) fun i => ∃ a ∈ xs, P a i := by
  induction xs with
  | nil => exact surveys_pure () (by simp)
  | cons x xs ih =>
    obtain ⟨hx, hxs⟩ := List.forall_mem_cons.mp hf
    refine (hx.bind fun _ => ih hxs).mono fun i hi => ?_
    simpa using hi

end Entries

section FirstPass

/-- How the first pass stands after the definitions `ds`. -/
structure Listed (ds : List Definition) (l l' : Loading) : Prop where
  entries : l'.entries.map (·.definition) = originals ds
  idle : Idle l l'

theorem idle_declaredType (file : File) (item : Item) (l : Loading) :
    Idle l (declaredType file item l).2 := by
  have hnamed (f : TypeSet → TypeId × TypeSet) (l : Loading) :
      Idle l ((do return some (← withTypes f) : Loader (Option TypeId)) l).2 :=
    ⟨rfl, List.prefix_refl _, rfl⟩
  cases item with
  | struct d => exact hnamed _ l
  | enum d =>
    have hbase : Idle l (enumBase file.source d l).2 := by
      rw [enumBase_eq]
      split
      · exact .refl l
      · exact idle_report (by decide)
    have hget : declaredType file (.enum d) l = (do
        return some (← withTypes (·.declareNamed file.packagePath d.name.text
          (.scalar (enumBase file.source d l).1))) : Loader (Option TypeId))
            (enumBase file.source d l).2 := rfl
    rw [hget]
    exact hbase.trans (hnamed _ _)
  | synonym d =>
    obtain ⟨name, doc, target⟩ := d
    cases target with
    | scalar kind span => exact hnamed _ l
    | _ => exact .refl l

theorem listed_declareItem (file : File) (item : Item) {ds : List Definition}
    (h : Listed ds l l') :
    Listed (ds ++ [⟨file.packagePath, item⟩]) l (declareItem file item l').2 := by
  have hkey : (l'.entries.find? fun e => e.package = file.packagePath ∧ e.name = item.name.text) =
      none ↔ (Definition.mk file.packagePath item).key ∉ (originals ds).map (·.key) := by
    rw [find?_eq_none_iff, ← h.entries, List.map_map]
    rfl
  rw [declareItem_eq]
  cases hf : l'.entries.find? fun e => e.package = file.packagePath ∧ e.name = item.name.text with
  | some first =>
    refine ⟨?_, h.idle.trans (idle_report (by decide))⟩
    rw [hf] at hkey
    rw [originals_concat, if_pos (by simpa using hkey)]
    exact h.entries
  | none =>
    have hidle := idle_declaredType file item l'
    obtain ⟨-, hentries, -⟩ := steady_declaredType file item l' rfl
    refine ⟨?_, h.idle.trans ⟨hidle.resolved, hidle.reports, hidle.cycles⟩⟩
    rw [originals_concat, if_neg (hkey.mp hf), ← h.entries]
    simp only [hentries, List.map_append]
    rfl

end FirstPass

/-- Loading goes from the first pass to the second, which resolves all transparent synonyms. -/
theorem survey_load (files : List File) (diagnostics : List Diagnostic) :
    ∃ l, Listed (definitions files) { diagnostics } l ∧
      Survey l.entries [] l (load files diagnostics) fun i =>
        ∃ d, (originals (definitions files))[i]? = some d ∧ d.Transparent := by
  let l := (firstPass files { diagnostics }).2
  have hstart : Listed [] { diagnostics } { diagnostics } := ⟨rfl, .refl _⟩
  have hlisted : Listed (definitions files) { diagnostics } l :=
    firstPass_induction (P := fun ds l => Listed ds { diagnostics } l)
      (fun _ file item _ h => listed_declareItem file item h) files hstart
  have hplaced : Placed l := placed_firstPass files diagnostics
  have hkeys : ((l.entries.map (·.definition)).map (·.key)).Nodup := by
    rw [List.map_map]
    exact hplaced.distinct
  have hstanding : Standing l.entries [] l :=
    ⟨rfl, hkeys, fun e he => (hplaced.matched e he).transparent, by simp [hplaced.resolved],
      by simp [hplaced.resolved]⟩
  have hsurvey : Survey l.entries [] l (secondPass l).2 _ :=
    surveys_forM (fun x hx => surveys_resolveEntry (List.mem_zipIdx_iff_getElem?.mp hx))
      l hstanding
  rw [load_eq]
  refine ⟨l, hlisted, hsurvey.mono fun i hi => ?_⟩
  obtain ⟨d, hd, ht⟩ := hi
  obtain ⟨e, he, rfl⟩ := (getElem?_definitions hlisted.entries).mp hd
  exact ⟨(e, i), List.mem_zipIdx_iff_getElem?.mpr he, rfl, ht⟩

end Loader

open Loader

/-- Whatever is loaded, the target of every transparent synonym that is kept is resolved once: each
resolution adds its position to those resolved, the depth of the recursion is never used up, and in
the end these are the positions of the transparent synonyms, each one once. A cycle is reported if
and only if some synonym expands to itself. -/
theorem synonyms_expand_once (files : List File) (ds : List Diagnostic) :
    let kept := originals (definitions files)
    let l := load files ds
    l.entries.map (·.definition) = kept ∧
      (∃ news, l.diagnostics = ds ++ news ∧
        ((∃ d ∈ news, d.kind = .aliasCycle) ↔ ∃ i, TransGen (Expands kept) i i)) ∧
      (l.resolved.map (·.1)).Nodup ∧
      (∀ i, i ∈ l.resolved.map (·.1) ↔ ∃ d, kept[i]? = some d ∧ d.Transparent) ∧
      ∀ (bottom : List Nat → Nat → Loader (Option TypeId)) (i : Nat) (l : Loading),
        synonymOr bottom (l.entries.length + 1) [] i l = topSynonym i l := by
  intro kept l
  obtain ⟨l₁, hlisted, hsurvey⟩ := survey_load files ds
  have hkept : l₁.entries.map (·.definition) = kept := hlisted.entries
  have hresolved (i : Nat) (hi : ∃ d, kept[i]? = some d ∧ d.Transparent) :
      i ∈ l.resolved.map (·.1) := by
    rcases hsurvey.covers i hi with h | h
    · exact h
    · simp at h
  refine ⟨by rw [hsurvey.standing.entries, hkept], ?_, by simpa using hsurvey.standing.nodup,
    fun i => ⟨fun hi => ?_, hresolved i⟩, fun bottom i l => (alike_topSynonym bottom i l rfl).eq⟩
  · obtain ⟨news, hnews⟩ := hlisted.idle.reports.trans hsurvey.reports
    have hcount : l.cycles = l₁.cycles + news.countP (·.kind = .aliasCycle) := by
      rw [hlisted.idle.cycles, Loading.cycles, Loading.cycles, ← hnews, List.countP_append]
    have hreported : (∃ d ∈ news, d.kind = .aliasCycle) ↔ l₁.cycles < l.cycles := by
      rw [hcount, Nat.lt_add_right_iff_pos, List.countP_pos_iff]
      simp
    refine ⟨news, hnews.symm, hreported.trans ⟨fun hlt => hkept ▸ hsurvey.cyclic hlt, ?_⟩⟩
    intro hcycle
    obtain ⟨i, hcycle⟩ := hcycle
    by_contra hnot
    have hle := hsurvey.le
    have hends := hsurvey.ends (Nat.le_antisymm (Nat.not_lt.mp hnot) hle)
      (by simp [hlisted.idle.resolved])
    obtain ⟨j, ⟨d, s, hd, ht, -⟩, -⟩ := TransGen.head'_iff.mp hcycle
    rw [hkept] at hends
    exact (hends i (hresolved i ⟨d, hd, ht⟩)).acyclic hcycle
  · rw [← hkept]
    exact hsurvey.standing.transparent i (by simpa using hi)

/-- Two synonyms that stand for each other are both resolved, with one report. -/
example :
    let a : SynonymDef := ⟨⟨"A", default⟩, none, .sequence (.reference none "B" default) default⟩
    let b : SynonymDef := ⟨⟨"B", default⟩, none, .pointer (.reference none "A" default) default⟩
    let l := load [⟨default, none, [.synonym a, .synonym b]⟩] []
    l.diagnostics.map (·.kind) = [.aliasCycle] ∧ l.resolved.map (·.1) = [0, 1] := by
  decide +kernel

end TypeGraph.Schema
