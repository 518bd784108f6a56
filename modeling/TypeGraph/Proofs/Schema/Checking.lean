import TypeGraph.Proofs.Schema.Passes
/-!
The second pass of the loader, which resolves what the first one placed. Each part of it is clean if
and only if what it resolves is fine; so a schema loads without an error if and only if it is
well-formed.
-/

namespace TypeGraph.Schema

open Relation

variable {es : List Entry} {l l' : Loading}

/-- What holds in the second pass over the entries `es`. As long as the loading is clean, the
synonyms resolved so far are fine. -/
structure Ready (es : List Entry) (l : Loading) : Prop where
  entries : l.entries = es
  matched : ∀ e ∈ es, e.Matches l.types
  resolved : l.Clean → ∀ i known, l.resolved.lookup i = some known →
    Straight (es.map (·.definition)) i

theorem Ready.evolved (h : Ready es l) (he : l'.entries = l.entries)
    (ht : l.types.Evolves l'.types) (hr : l'.resolved = l.resolved) (hc : l'.Clean → l.Clean) :
    Ready es l' :=
  ⟨he.trans h.entries, fun e hm => (h.matched e hm).evolves ht,
    fun hclean i known hk => h.resolved (hc hclean) i known (hr ▸ hk)⟩

namespace Loader

variable {α β : Type} {P Q : Prop}

/-- What work of the second pass leaves behind: a clean loading if and only if it was clean and `P`
holds. -/
structure Verdict (es : List Entry) (l : Loading) (r : α × Loading) (P : Prop) : Prop where
  clean_iff : r.2.Clean ↔ l.Clean ∧ P
  ready : Ready es r.2

/-- Work that is clean if and only if `P` holds. -/
def Checks (es : List Entry) (m : Loader α) (P : Prop) : Prop :=
  ∀ l, Ready es l → Verdict es l (m l) P

theorem Verdict.congr {r : α × Loading} (h : Verdict es l r P) (hpq : P ↔ Q) : Verdict es l r Q :=
  ⟨h.clean_iff.trans (and_congr_right fun _ => hpq), h.ready⟩

theorem Verdict.pure {a : α} (h : Ready es l) : Verdict es l ((Pure.pure a : Loader α) l) True :=
  ⟨(iff_of_eq (and_true _)).symm, h⟩

theorem Verdict.bind {m : Loader α} {f : α → Loader β} (hm : Verdict es l (m l) P)
    (hf : ∀ a, Verdict es (m l).2 (f a (m l).2) Q) : Verdict es l ((m >>= f) l) (P ∧ Q) := by
  refine ⟨?_, (hf _).ready⟩
  have hclean := (hf (m l).1).clean_iff
  rw [hm.clean_iff, and_assoc] at hclean
  exact hclean

theorem Checks.congr {m : Loader α} (h : Checks es m P) (hpq : P ↔ Q) : Checks es m Q :=
  fun l hl => (h l hl).congr hpq

theorem Checks.pure (a : α) : Checks es (Pure.pure a : Loader α) True :=
  fun _ hl => .pure hl

theorem Checks.bind {m : Loader α} {f : α → Loader β} (hm : Checks es m P)
    (hf : ∀ a, Checks es (f a) Q) : Checks es (m >>= f) (P ∧ Q) :=
  fun l hl => (hm l hl).bind fun a => hf a _ (hm l hl).ready

theorem checks_report (source : SourceId) (kind : Diagnostic.Kind) (span : Span)
    (detail? : Option String) (related : List Diagnostic.Related) :
    Checks es (report source kind span detail? related) (kind.severity ≠ .error) :=
  fun _ hl => ⟨clean_report, hl.evolved rfl (.refl _) rfl fun hc => (clean_report.mp hc).1⟩

theorem checks_withTypes {f : TypeSet → TypeId × TypeSet} (hf : ∀ t : TypeSet, t.Evolves (f t).2) :
    Checks es (withTypes f) True :=
  fun l hl => ⟨(iff_of_eq (and_true _)).symm, hl.evolved rfl (hf l.types) rfl id⟩

theorem checks_updateTypes {f : TypeSet → TypeSet} (hf : ∀ t : TypeSet, t.Evolves (f t)) :
    Checks es (updateTypes f) True :=
  fun l hl => ⟨(iff_of_eq (and_true _)).symm, hl.evolved rfl (hf l.types) rfl id⟩

/-- Names that differ and are not among those seen. -/
def NewNames (seen : List (String × Span)) (names : List String) : Prop :=
  names.Nodup ∧ ∀ name ∈ names, seen.lookup name = none

theorem newNames_nil (seen : List (String × Span)) : NewNames seen [] :=
  ⟨List.nodup_nil, by simp⟩

theorem newNames_cons {seen : List (String × Span)} {name : String} {names : List String}
    (span : Span) : NewNames seen (name :: names) ↔
      seen.lookup name = none ∧ NewNames ((name, span) :: seen) names := by
  simp only [NewNames, List.nodup_cons, List.forall_mem_cons, List.lookup_cons]
  constructor
  · intro hnew
    obtain ⟨⟨hnot, hnodup⟩, hname, hnames⟩ := hnew
    refine ⟨hname, hnodup, ?_⟩
    intro n hn
    have hne : n ≠ name := fun h => hnot (h ▸ hn)
    simpa [beq_false_of_ne hne] using hnames n hn
  · intro hall
    obtain ⟨hname, hnodup, hnames⟩ := hall
    have hother {n : String} (hn : n ∈ names) : n ≠ name ∧ seen.lookup n = none := by
      have := hnames n hn
      split at this
      · simp at this
      · next hne => exact ⟨by simpa using hne, this⟩
    exact ⟨⟨fun h => (hother h).1 rfl, hnodup⟩, hname, fun n hn => (hother hn).2⟩

theorem newNames_nil_seen {names : List String} : NewNames [] names ↔ names.Nodup := by
  simp [NewNames]

/-- The synonyms that an expression mentions can be resolved in turn. -/
def Follows (es : List Entry) (package : String) (synonym : Nat → Loader (Option TypeId))
    (x : TypeExpr) : Prop :=
  ∀ i d, Mentions (es.map (·.definition)) package x i →
    (es.map (·.definition))[i]? = some d → d.Transparent →
      Checks es (synonym i) (Straight (es.map (·.definition)) i)

variable {synonym : Nat → Loader (Option TypeId)} {place : Place} {x y : TypeExpr}

theorem Follows.within (h : Follows es place.package synonym x)
    (hy : ∀ z, Within z y → Within z x) : Follows es place.package synonym y := by
  intro i d hmention hd ht
  obtain ⟨q, n, span, hw, hc⟩ := hmention
  exact h i d ⟨q, n, span, hy _ hw, hc⟩ hd ht

theorem checks_reportReference (qualifier : Option String) (name : String) (span : Span)
    (found : List (Entry × Nat)) :
    Checks es (reportReference place qualifier name span found) False := by
  cases found <;> exact (checks_report _ _ _ _ _).congr (by simp [Diagnostic.Kind.severity])

theorem checks_reference (hd : ((es.map (·.definition)).map (·.key)).Nodup)
    {qualifier : Option String} {name : String} {span : Span}
    (hs : Follows es place.package synonym (.reference qualifier name span)) :
    Checks es (reference synonym place qualifier name span)
      (Resolvable (es.map (·.definition)) place.package (.reference qualifier name span)) := by
  intro l hl
  have he : l.entries.map (·.definition) = es.map (·.definition) := by rw [hl.entries]
  have hone : (∃ c, candidates l.entries place.package qualifier name = [c]) ↔ _ :=
    exists_candidates_singleton_iff he hd
  have hsingle {entry : Entry} {i : Nat}
      (hc : candidates l.entries place.package qualifier name = [(entry, i)]) :
      Candidate (es.map (·.definition)) place.package qualifier name i ∧
        (es.map (·.definition))[i]? = some entry.definition ∧ entry.Matches l.types := by
    obtain ⟨hi, hcand⟩ := (mem_candidates_iff he hd).mp (hc ▸ List.mem_singleton_self _)
    exact ⟨hcand, (getElem?_definitions he).mpr ⟨entry, hi, rfl⟩,
      hl.matched entry (hl.entries ▸ List.mem_of_getElem? hi)⟩
  refine Verdict.congr ?_ resolvable_reference.symm
  have href := referred_reference synonym place qualifier name span l
  generalize reference synonym place qualifier name span l = r at href
  cases href with
  | @typed entry i id hc ht =>
    obtain ⟨hcand, hdef, hmatched⟩ := hsingle hc
    have hunique := hone.mp ⟨_, hc⟩
    refine (Verdict.pure hl).congr (iff_of_true trivial ⟨hunique, fun j d hj hdj htr => ?_⟩)
    obtain rfl := hunique.unique hj hcand
    obtain rfl := Option.some.inj (hdj.symm.trans hdef)
    simp [hmatched.transparent.mpr htr] at ht
  | @synonym entry i hc ht =>
    obtain ⟨hcand, hdef, hmatched⟩ := hsingle hc
    have hunique := hone.mp ⟨_, hc⟩
    have htr := hmatched.transparent.mp ht
    refine (hs i _ ⟨_, _, _, .self _, hcand⟩ hdef htr l hl).congr ⟨fun hst => ?_, fun hall => ?_⟩
    · refine ⟨hunique, ?_⟩
      intro j d hj _ _
      obtain rfl := hunique.unique hj hcand
      exact hst
    · exact hall.2 i _ hcand hdef htr
  | @reported found hc hno =>
    obtain ⟨hclean, hready⟩ := checks_reportReference qualifier name span found l hl
    refine Verdict.congr (P := False) ⟨hclean, hready⟩ (iff_of_false id ?_)
    intro hall
    obtain ⟨hunique, -⟩ := hall
    obtain ⟨c, hc'⟩ := hone.mpr hunique
    exact hno c (hc.symm.trans hc')

theorem checks_intern (shape : Shape) :
    Checks es (do return some (← withTypes (·.intern shape)) : Loader (Option TypeId)) True :=
  ((checks_withTypes fun t => .intern t shape).bind fun id => .pure (some id)).congr (by simp)

mutual

theorem checks_type (hd : ((es.map (·.definition)).map (·.key)).Nodup) :
    ∀ x, Follows es place.package synonym x →
      Checks es (type synonym place x) (Resolvable (es.map (·.definition)) place.package x)
  | .scalar kind span, _ => by
    rw [type]
    exact (checks_intern _).congr (iff_of_true trivial resolvable_scalar)
  | .reference qualifier name span, hs => by
    rw [type]
    exact checks_reference hd hs
  | .pointer target span, hs => by
    rw [type]
    refine ((checks_type hd target (hs.within fun z hz => .pointer span hz)).bind (Q := True)
      fun id? => ?_).congr (by rw [and_true, resolvable_pointer])
    cases id? with
    | none => exact .pure none
    | some id => exact checks_intern _
  | .sequence element span, hs => by
    rw [type]
    refine ((checks_type hd element (hs.within fun z hz => .sequence span hz)).bind (Q := True)
      fun id? => ?_).congr (by rw [and_true, resolvable_sequence])
    cases id? with
    | none => exact .pure none
    | some id => exact checks_intern _
  | .map key value span, hs => by
    rw [type]
    refine ((checks_type hd key (hs.within fun z hz => .key value span hz)).bind fun key? =>
      (checks_type hd value (hs.within fun z hz => .value key span hz)).bind
        (Q := True) fun value? => ?_).congr (by rw [and_true, resolvable_map])
    match key?, value? with
    | some k, some v => exact checks_intern _
    | none, _ => exact .pure none
    | some _, none => exact .pure none
  | .record definitions span, hs => by
    rw [type]
    refine ((checks_members hd [] definitions fun m hm =>
      hs.within fun z hz => .member span hm hz).bind (Q := True) fun ms =>
        checks_intern _).congr ?_
    rw [and_true, resolvable_record, newNames_nil_seen]
  | .hole span, _ => by
    rw [type]
    exact (Checks.pure none).congr (iff_of_true trivial resolvable_hole)

theorem checks_members (hd : ((es.map (·.definition)).map (·.key)).Nodup) :
    ∀ seen (ms : List (MemberDef TypeExpr)),
      (∀ m ∈ ms, Follows es place.package synonym m.type) →
        Checks es (members synonym place seen ms) (NewNames seen (ms.map (·.name.text)) ∧
          ∀ m ∈ ms, Resolvable (es.map (·.definition)) place.package m.type)
  | seen, [], _ => by
    rw [members]
    exact (Checks.pure []).congr (by simp [newNames_nil])
  | seen, ⟨name, expr, embedded, attributes, doc⟩ :: ms, hs => by
    rw [members]
    obtain ⟨hexpr, hms⟩ := List.forall_mem_cons.mp hs
    cases hl : seen.lookup name.text with
    | some first =>
      refine ((checks_report _ _ _ _ _).bind fun _ => checks_members hd seen ms hms).congr ?_
      rw [List.map_cons, newNames_cons name.span, hl]
      simp [Diagnostic.Kind.severity]
    | none =>
      refine ((checks_type hd expr hexpr).bind fun ty? =>
        (checks_members hd ((name.text, name.span) :: seen) ms hms).bind
          (Q := True) fun rest => ?_).congr ?_
      · cases ty? <;> exact .pure _
      · rw [List.map_cons, newNames_cons name.span, List.forall_mem_cons]
        simp only [hl, true_and, and_true]
        tauto

end

/-- Resolving a synonym is clean if and only if it leads only to fine ones. The path leads to it, so
it is not on the path unless it leads to itself; and the path is too short to use up the depth. -/
theorem checks_synonym (hd : ((es.map (·.definition)).map (·.key)).Nodup) (depth : Nat)
    (path : List Nat) {i : Nat} {d : Definition} (hi : (es.map (·.definition))[i]? = some d)
    (ht : d.Transparent) (hpath : ∀ p ∈ path, TransGen (SynonymEdge (es.map (·.definition))) p i)
    (hnodup : path.Nodup) (hbound : ∀ p ∈ path, p < es.length)
    (hdepth : es.length < depth + path.length) :
    Checks es (Loader.synonym depth path i) (Straight (es.map (·.definition)) i) := by
  induction depth generalizing path i d with
  | zero =>
    have hlen := length_path_le hnodup hbound
    omega
  | succ depth ih =>
    intro l hl
    obtain ⟨s, hs, hscalar⟩ := id ht
    have hx : d.item.expression? = some s.target := by simp [hs, Item.expression?]
    have he : l.entries.map (·.definition) = es.map (·.definition) := by rw [hl.entries]
    have hfollowed := followed_synonym depth path i l
    generalize Loader.synonym (depth + 1) path i l = r at hfollowed
    cases hfollowed with
    | @known known hr => exact ⟨⟨fun hc => ⟨hc, hl.resolved hc i known hr⟩, And.left⟩, hl⟩
    | @cycle package source s' _ hin =>
      have hnot : ¬Straight (es.map (·.definition)) i := fun hst => hst.acyclic (hpath i hin)
      obtain ⟨hclean, hready⟩ := checks_report source .aliasCycle s'.name.span
        (some s'.name.text) [] l hl
      exact ⟨by simpa [hnot, Diagnostic.Kind.severity] using hclean, hready⟩
    | @target package source s' r hi' hout hr =>
      obtain rfl : d = ⟨package, .synonym s'⟩ := by
        have hdef := (getElem?_definitions he).mpr ⟨_, hi', rfl⟩
        exact Option.some.inj (hi.symm.trans hdef)
      obtain rfl : s' = s := by simpa using hs
      have hfollows : Follows es package (Loader.synonym depth (i :: path)) s'.target := by
        intro j e hj hdj htj
        have hedge : SynonymEdge (es.map (·.definition)) i j :=
          ⟨_, _, e, hi, ht, hx, hj, hdj, htj⟩
        have hlt : i < es.length := by simpa using (List.getElem?_eq_some_iff.mp hi).1
        apply ih (i :: path) hdj htj
        · exact List.forall_mem_cons.mpr ⟨.single hedge, fun p hp => (hpath p hp).tail hedge⟩
        · exact List.nodup_cons.mpr ⟨hout, hnodup⟩
        · exact List.forall_mem_cons.mpr ⟨hlt, hbound⟩
        · rw [List.length_cons]
          omega
      have htype : Checks es (type (Loader.synonym depth (i :: path)) ⟨package, source⟩ s'.target)
        (Resolvable (es.map (·.definition)) package s'.target) := checks_type hd _ hfollows
      have hstraight := straight_iff hi ht hx
      obtain ⟨hclean, hready⟩ := htype l hl
      rw [hr] at hclean hready
      refine ⟨by rw [hstraight]; exact hclean, hready.entries, hready.matched, ?_⟩
      intro hc j known hj
      rw [List.lookup_cons] at hj
      split at hj
      · next heq =>
        obtain rfl : j = i := by simpa using heq
        exact hstraight.mpr (hclean.mp hc).2
      · exact hready.resolved hc j known hj
    | other hno =>
      obtain ⟨e, hie, rfl⟩ := (getElem?_definitions he).mp hi
      obtain ⟨package, source, item, type?⟩ := e
      have hnone : type? = none :=
        (hl.matched _ (hl.entries ▸ List.mem_of_getElem? hie)).transparent.mpr ht
      obtain rfl : item = .synonym s := hs
      exact absurd (hnone ▸ hie) (hno package source s)

theorem checks_topSynonym (hd : ((es.map (·.definition)).map (·.key)).Nodup) {i : Nat}
    {d : Definition} (hi : (es.map (·.definition))[i]? = some d) (ht : d.Transparent) :
    Checks es (topSynonym i) (Straight (es.map (·.definition)) i) := by
  intro l hl
  have htop := checks_synonym hd (l.entries.length + 1) [] hi ht (by simp) List.nodup_nil (by simp)
    (by simp [hl.entries])
  exact htop l hl

theorem follows_topSynonym (hd : ((es.map (·.definition)).map (·.key)).Nodup) (package : String)
    (x : TypeExpr) : Follows es package topSynonym x :=
  fun _ _ _ hi ht => checks_topSynonym hd hi ht

theorem checks_constants (source : SourceId) (id : TypeId) (kind : Scalar)
    (seen : List (String × Span)) (vs : List Variant) :
    Checks es (constants source id kind seen vs)
      (NewNames seen (vs.map (·.name.text)) ∧ ∀ v ∈ vs, v.value.fits kind) := by
  induction vs generalizing seen with
  | nil => exact (Checks.pure 0).congr (by simp [newNames_nil])
  | cons v vs ih =>
    rw [constants, List.map_cons, newNames_cons v.name.span, List.forall_mem_cons]
    cases seen.lookup v.name.text with
    | some first =>
      refine ((checks_report _ _ _ _ _).bind fun _ => ih seen).congr ?_
      simp [Diagnostic.Kind.severity]
    | none =>
      simp only
      split
      · next hfits =>
        refine ((checks_updateTypes fun t => .modify t _ fun d => .withConstant d _).bind fun _ =>
          (ih ((v.name.text, v.name.span) :: seen)).bind fun n => .pure (n + 1)).congr ?_
        simp [hfits]
      · next hfits =>
        refine ((checks_report _ _ _ _ _).bind fun _ =>
          ih ((v.name.text, v.name.span) :: seen)).congr ?_
        simp [Diagnostic.Kind.severity, hfits]

theorem checks_documentType (id : TypeId) (doc : Option String) :
    Checks es (documentType id doc) True := by
  cases doc with
  | none => exact checks_updateTypes fun t => .refl t
  | some doc => exact checks_updateTypes fun t => .modify t id fun d => .withDoc d doc

theorem checks_addRoot (id : TypeId) (kind : RootKind) : Checks es (addRoot id kind) True :=
  fun _ hl => ⟨(iff_of_eq (and_true _)).symm, hl.evolved rfl (.refl _) rfl fun hc => hc⟩

theorem checks_resolveStruct (hd : ((es.map (·.definition)).map (·.key)).Nodup) (place : Place)
    (id : TypeId) (d : StructDef) : Checks es (resolveStruct place id d)
      (Resolvable (es.map (·.definition)) place.package (.record d.members d.name.span)) := by
  have hms : Checks es (members topSynonym place [] d.members)
      (NewNames [] (d.members.map (·.name.text)) ∧
        ∀ m ∈ d.members, Resolvable (es.map (·.definition)) place.package m.type) :=
    checks_members hd [] d.members fun m _ => follows_topSynonym hd place.package m.type
  refine (hms.bind fun ms =>
    (checks_updateTypes fun t => .modify t id fun d => .withMembers d ms).bind fun _ =>
      (checks_documentType id d.doc).bind fun _ =>
        Checks.bind (P := True) (fun l hl => ?_) fun _ => checks_addRoot id .struct).congr ?_
  · exact ⟨(iff_of_eq (and_true _)).symm, hl.evolved rfl (.refl _) rfl fun hc => hc⟩
  · rw [resolvable_record, newNames_nil_seen]
    simp only [and_true]

/-- What an enum that can carry constants asks for: an enum without variants is no error. -/
theorem checks_fillEnum (place : Place) (id : TypeId) (kind : Scalar) (d : EnumDef) :
    Checks es (fillEnum place id kind d)
      ((d.variants.map (·.name.text)).Nodup ∧ ∀ v ∈ d.variants, v.value.fits kind) := by
  refine ((checks_constants place.source id kind [] d.variants).bind (Q := True)
    fun count => ?_).congr (by rw [and_true, newNames_nil_seen])
  split
  · exact (checks_report _ _ _ _ _).congr (by simp [Diagnostic.Kind.severity])
  · split
    · exact checks_addRoot id .enum
    · exact .pure ()

theorem verdict_resolveEnum (place : Place) {id : TypeId} {d : EnumDef} (hl : Ready es l)
    (hkind : ∀ l, Ready es l → (l.types.get? id).bind (·.scalar?) =
      some ((Scalar.ofKeyword? d.base.text).getD .any)) :
    Verdict es l (resolveEnum place id d l)
      (((Scalar.ofKeyword? d.base.text).getD .any).enumerable →
        (d.variants.map (·.name.text)).Nodup ∧
          ∀ v ∈ d.variants, v.value.fits ((Scalar.ofKeyword? d.base.text).getD .any)) := by
  obtain ⟨hclean, hready⟩ := checks_documentType id d.doc l hl
  rw [resolveEnum_eq]
  simp only [hkind _ hready, Option.getD_some]
  split
  · next hk =>
    obtain ⟨hclean', hready'⟩ := checks_fillEnum place id _ d _ hready
    refine ⟨hclean'.trans ?_, hready'⟩
    rw [hclean, and_true]
    exact and_congr_right fun _ => ⟨fun h _ => h, fun h => h hk⟩
  · next hk =>
    refine ⟨hclean.trans (and_congr_right ?_), hready⟩
    intro _
    exact iff_of_true trivial fun h => absurd h hk

theorem verdict_resolveEntry (hd : ((es.map (·.definition)).map (·.key)).Nodup) (hl : Ready es l)
    {e : Entry} {i : Nat} (hi : es[i]? = some e) :
    Verdict es l (resolveEntry e i l) (ItemFine (es.map (·.definition)) i e.definition) := by
  have hdef : (es.map (·.definition))[i]? = some e.definition := by simp [hi]
  have hmem := List.mem_of_getElem? hi
  have hmatched := hl.matched e hmem
  obtain ⟨package, source, item, type?⟩ := e
  cases item with
  | struct d =>
    cases type? with
    | none =>
      obtain ⟨s, hs, -⟩ := hmatched.transparent.mp rfl
      cases hs
    | some id => exact checks_resolveStruct hd ⟨package, source⟩ id d l hl
  | enum d =>
    obtain ⟨id, hid, -⟩ := hmatched.kind d rfl
    obtain rfl : type? = some id := hid
    exact verdict_resolveEnum ⟨package, source⟩ hl fun l' hl' => by
      obtain ⟨id', hid', hkind⟩ := (hl'.matched _ hmem).kind d rfl
      exact Option.some.inj hid' ▸ hkind
  | synonym d =>
    cases type? with
    | none =>
      have ht := hmatched.transparent.mp rfl
      refine (((checks_topSynonym hd hdef ht).bind (Q := True) fun _ => .pure ()) l hl).congr ?_
      rw [and_true]
      exact ⟨fun h _ => h, fun h => h ht⟩
    | some id =>
      have ht : ¬(Definition.mk package (.synonym d)).Transparent :=
        fun h => by simpa using hmatched.transparent.mpr h
      exact (checks_documentType id d.doc l hl).congr (iff_of_true trivial fun h => absurd h ht)

theorem verdict_forM {xs : List α} {f : α → Loader Unit} {P : α → Prop}
    (hf : ∀ a ∈ xs, ∀ l, Ready es l → Verdict es l (f a l) (P a)) (hl : Ready es l) :
    Verdict es l (xs.forM f l) (∀ a ∈ xs, P a) := by
  induction xs generalizing l with
  | nil => exact (Verdict.pure hl).congr (by simp)
  | cons x xs ih =>
    obtain ⟨hx, hxs⟩ := List.forall_mem_cons.mp hf
    have hfirst := hx l hl
    refine (hfirst.bind (f := fun _ => xs.forM f) fun _ => ih hxs hfirst.ready).congr ?_
    rw [List.forall_mem_cons]

/-- In the second pass every definition is checked. -/
theorem verdict_secondPass (hp : Placed l) :
    Verdict l.entries l (secondPass l)
      (∀ x ∈ l.entries.zipIdx, ItemFine (l.entries.map (·.definition)) x.2 x.1.definition) := by
  have hd : ((l.entries.map (·.definition)).map (·.key)).Nodup := by
    rw [List.map_map]
    exact hp.distinct
  have hl : Ready l.entries l := ⟨rfl, hp.matched, by simp [hp.resolved]⟩
  exact verdict_forM
    (fun x hx l hl => verdict_resolveEntry hd hl (List.mem_zipIdx_iff_getElem?.mp hx)) hl

/-- After a clean reading, loading is clean if and only if the names and the bases are fine, and every
definition is. -/
theorem clean_load_iff_of_clean {diagnostics : List Diagnostic}
    (hstart : Loading.Clean { diagnostics }) (fs : List File) :
    (load fs diagnostics).Clean ↔
      (((definitions fs).map (·.key)).Nodup ∧ ∀ d ∈ definitions fs, d.BaseFine) ∧
        ∀ i d, (definitions fs)[i]? = some d → ItemFine (definitions fs) i d := by
  have hplacing := placing_firstPass fs (placing_start hstart)
  rw [List.nil_append] at hplacing
  rw [load_eq]
  generalize (firstPass fs { diagnostics }).2 = l at hplacing
  refine (verdict_secondPass hplacing.placed).clean_iff.trans ?_
  rw [← hplacing.clean_iff]
  apply and_congr_right
  intro hc
  rw [hplacing.entries hc]
  constructor
  · intro h i d hi
    obtain ⟨e, he, rfl⟩ := (getElem?_definitions (hplacing.entries hc)).mp hi
    exact h (e, i) (List.mem_zipIdx_iff_getElem?.mpr he)
  · intro h entry he
    obtain ⟨e, i⟩ := entry
    exact h i _ ((getElem?_definitions (hplacing.entries hc)).mpr
      ⟨e, List.mem_zipIdx_iff_getElem?.mp he, rfl⟩)

/-- Loading is clean if and only if the names and the bases are fine, and every definition is. -/
theorem clean_load_iff (fs : List File) : (load fs []).Clean ↔
    (((definitions fs).map (·.key)).Nodup ∧ ∀ d ∈ definitions fs, d.BaseFine) ∧
      ∀ i d, (definitions fs)[i]? = some d → ItemFine (definitions fs) i d :=
  clean_load_iff_of_clean (by simp [Loading.Clean]) fs

/-- What was reported before loading is not taken back. -/
theorem clean_of_load {diagnostics : List Diagnostic} (fs : List File)
    (hc : (load fs diagnostics).Clean) : Loading.Clean { diagnostics } := by
  rw [load_eq] at hc
  obtain ⟨hplaced, hclean⟩ := places_firstPass fs _ (placed_start diagnostics)
  exact hclean ((verdict_secondPass hplaced).clean_iff.mp hc).1

end Loader

theorem WellFormed.baseFine {files : List File} (h : WellFormed files) :
    ∀ d ∈ definitions files, d.BaseFine :=
  fun d hd e he => mem_base_iff.mp (h.enums d hd e he).base

theorem WellFormed.itemFine {files : List File} (h : WellFormed files) {i : Nat} {d : Definition}
    (hi : (definitions files)[i]? = some d) : ItemFine (definitions files) i d := by
  have hmem := List.mem_of_getElem? hi
  have hstraight {j : Nat} {e : Definition} (hj : (definitions files)[j]? = some e)
      (ht : e.Transparent) : Straight (definitions files) j :=
    straight_of_acyclic h.acyclic h.expressions hj ht
  unfold ItemFine
  split
  · next s hs =>
    refine resolvable_iff.mpr ⟨h.expressions d hmem _ (by simp [hs, Item.expression?]), ?_⟩
    exact fun j e _ hj ht => hstraight hj ht
  · next e he =>
    have hwf := h.enums d hmem e he
    intro kind hk
    refine ⟨hwf.variants, hwf.literals kind ?_⟩
    cases hkeyword : Scalar.ofKeyword? e.base.text with
    | none => simp [kind, hkeyword, Scalar.enumerable, Scalar.isNumeric] at hk
    | some k => simp [kind, hkeyword]
  · exact hstraight hi

theorem wellFormed_of_itemFine {files : List File} (hd : ((definitions files).map (·.key)).Nodup)
    (hbase : ∀ d ∈ definitions files, d.BaseFine)
    (hitem : ∀ i d, (definitions files)[i]? = some d → ItemFine (definitions files) i d) :
    WellFormed files := by
  have hitem' {d : Definition} (hd : d ∈ definitions files) :
      ∃ i, (definitions files)[i]? = some d ∧ ItemFine (definitions files) i d := by
    obtain ⟨i, hi⟩ := List.mem_iff_getElem?.mp hd
    exact ⟨i, hi, hitem i d hi⟩
  refine ⟨hd, ?_, ?_, ?_⟩
  · intro d hd e he
    obtain ⟨i, -, hfine⟩ := hitem' hd
    have hb := hbase d hd e he
    obtain ⟨kind, hk, henum⟩ : ∃ kind, Scalar.ofKeyword? e.base.text = some kind ∧
        kind.enumerable := by
      cases hk : Scalar.ofKeyword? e.base.text with
      | none => simp [hk] at hb
      | some kind => exact ⟨kind, rfl, by simpa [hk] using hb⟩
    simp only [ItemFine, he, hk, Option.getD_some] at hfine
    refine ⟨mem_base_iff.mpr hb, (hfine henum).1, ?_⟩
    intro k hk'
    obtain rfl := Option.some.inj (hk.symm.trans hk')
    exact (hfine henum).2
  · intro d hd x hx
    obtain ⟨i, hi, hfine⟩ := hitem' hd
    unfold ItemFine at hfine
    split at hfine
    · next s hs =>
      obtain rfl : _ = x := by simpa [hs, Item.expression?] using hx
      exact (resolvable_iff.mp hfine).1
    · next e he => simp [he, Item.expression?] at hx
    · next s hs =>
      by_cases ht : d.Transparent
      · exact (hfine ht).fine hi hx
      · have hscalar : ∃ kind span, s.target = .scalar kind span := by
          by_contra hnot
          exact ht ⟨s, hs, fun kind span h => hnot ⟨kind, span, h⟩⟩
        obtain ⟨kind, span, hscalar⟩ := hscalar
        obtain rfl : _ = x := by simpa [hs, hscalar, Item.expression?] using hx
        exact (resolvable_iff.mp resolvable_scalar).1
  · intro i hcycle
    obtain ⟨j, ⟨d, -, -, hi, ht, -⟩, -⟩ := TransGen.head'_iff.mp hcycle
    obtain ⟨s, hs, -⟩ := id ht
    have hfine := hitem i d hi
    simp only [ItemFine, hs] at hfine
    exact (hfine ht).acyclic hcycle

/-- Files load without an error if and only if they are well-formed. -/
theorem load_clean_iff_wellFormed (files : List File) :
    (∀ d ∈ (load files []).diagnostics, d.isError = false) ↔ WellFormed files := by
  refine (Loader.clean_load_iff files).trans ⟨?_, fun h => ?_⟩
  · intro hfiles
    obtain ⟨⟨hd, hbase⟩, hitem⟩ := hfiles
    exact wellFormed_of_itemFine hd hbase hitem
  · exact ⟨⟨h.distinct, h.baseFine⟩, fun i d hi => h.itemFine hi⟩

end TypeGraph.Schema
