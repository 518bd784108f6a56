import TypeGraph.Proofs.TypeSet.Completing
/-!
Structs that refer to each other, in whatever circles, are built to the end and once each. Every
struct that is entered leaves one less to enter, so that the depth of `Building.named` is never
used up, and its answers are those of building without a bound.
-/

namespace TypeGraph

open TypeSet

namespace Building

variable {α β : Type} {t u : TypeSet} {b : Blueprint} {id : TypeId} {form : Form}

theorem bind_of_ok {m : Building α} {f : α → Building β} {a : α} (h : m t = .ok (a, u)) :
    (m >>= f) t = f a u := by
  simp only [Bind.bind, StateT.bind, Except.bind, h]

theorem once_of_lookup {build : Building TypeId} (h : t.built.lookup b = some id) :
    once b build t = .ok (id, t) := by
  refine (bind_of_ok rfl).trans ?_
  simp only [h]
  rfl

theorem once_of_new {build : Building TypeId} (hl : t.built.lookup b = none)
    (h : build t = .ok (id, u)) : once b build t = .ok (id, .keep b (id, u)) := by
  refine (bind_of_ok rfl).trans ?_
  simp only [hl]
  exact (bind_of_ok h).trans rfl

/-- What was built before is answered from the set. -/
theorem blueprint_of_lookup {named : String → Building TypeId}
    (h : t.built.lookup b = some id) : blueprint named b t = .ok (id, t) := by
  cases b <;> exact once_of_lookup h

theorem embeddedName_eq (hb : t.Backward) (hn : t.PlainlyNamed) (h : t.Unfolds id form) :
    embeddedName id t = .ok (form.stripped.ownName, t) := by
  obtain ⟨d, hd, hname⟩ := (h.strip hb hn).ownName
  refine (bind_of_ok rfl).trans ?_
  simp only [hd, hname]
  rfl

end Building

variable {family : Family} {opened runs : List String} {depth : Nat} {t u : TypeSet}
variable {b : Blueprint} {named : String → Building TypeId} {build : Building TypeId}
variable {name package own : String} {id : TypeId}
variable {fields : List FieldPlan} {ms : List Member} {doc : Option String}

/-- Work that answers a blueprint over the family. -/
def Answers (family : Family) (depth : Nat) (opened : List String) (b : Blueprint)
    (build : Building TypeId) : Prop :=
  ∀ t, Described family opened t → Within family depth t →
    ∃ runs id u, build t = .ok (id, u) ∧ Made family opened t b runs id u

/-- Work that builds a blueprint which has no answer yet. -/
def Founds (family : Family) (depth : Nat) (opened : List String) (b : Blueprint)
    (build : Building TypeId) : Prop :=
  ∀ t, Described family opened t → Within family depth t → t.built.lookup b = none →
    ∃ runs id u, build t = .ok (id, u) ∧ Made family opened t b runs id (.keep b (id, u))

/-- Names are built as the family defines them, if no more than `depth` are left to enter. -/
def Faithful (family : Family) (depth : Nat) (named : String → Building TypeId) : Prop :=
  ∀ opened, ∀ name ∈ family.names, Founds family depth opened (.named name) (named name)

theorem Founds.once (h : Founds family depth opened b build) :
    Answers family depth opened b (Building.once b build) := by
  intro t hd hw
  cases hl : t.built.lookup b with
  | some id => exact ⟨[], id, t, Building.once_of_lookup hl, .known hl, .refl t, hd, hl⟩
  | none =>
    obtain ⟨runs, id, u, hbuild, hmade⟩ := h t hd hw hl
    exact ⟨runs, id, _, Building.once_of_new hl hbuild, hmade⟩

/-- A type without a name, found or added for a blueprint. -/
theorem made_intern {shape : Shape} (hl : t.built.lookup b = none) (hg : Grows t runs u)
    (hd : Described family opened u) (hs : u.Step (u.intern shape).2)
    (hb : Builds family t b runs (u.intern shape).1 (.keep b (u.intern shape)))
    (hover : b.Over family.names) (hn : ∀ name, b ≠ .named name)
    (hu : (u.intern shape).2.Unfolds (u.intern shape).1 (family.form b)) :
    Made family opened t b runs (u.intern shape).1 (.keep b (u.intern shape)) where
  builds := hb
  grows := (hg.intern shape).bind hl fun name h => absurd h (hn name)
  described := (hd.intern hs).bind hover hu fun name h => absurd h (hn name)
  bound := lookup_bind_self

/-- A struct whose members are put in, after all that its fields build. -/
theorem made_fill (hf : family.OfStructs) (hn : name ∈ family.names)
    (hdef : family.definition name = .record package own fields doc)
    (hl : t.built.lookup (.named name) = none) (hg : Grows t (name :: runs) u)
    (hd : Described family (name :: opened) u) (hlu : u.built.lookup (.named name) = some id)
    (hblank : u.get? id = some (.blank package own)) (hfresh : ¬t.contains id)
    (hms : List.Forall₂ (FieldPlan.Pushes family u) fields ms)
    (hb : Builds family t (.named name) (name :: runs) id
      (.keep (.named name) (id, u.fill id ms doc))) :
    Made family opened t (.named name) (name :: runs) id
      (.keep (.named name) (id, u.fill id ms doc)) := by
  have hfull := hd.complete hf hdef hlu hblank hms
  have hlv : (u.fill id ms doc).built.lookup (.named name) = some id := by rw [built_fill, hlu]
  have hsame (other : String) (h : Blueprint.named name = .named other) :
      (u.fill id ms doc).built.lookup (.named other) = some id := h ▸ hlv
  have hgv : Grows t (name :: runs) (u.fill id ms doc) :=
    hg.becomes hfresh (becomes_fill hblank) built_fill
  exact ⟨hb, hgv.bind hl hsame, hfull.bind hn (hfull.bound _ _ hlv).2 hsame, lookup_bind_self⟩

theorem Made.unfolds (h : Made family opened t b runs id u) : u.Unfolds id (family.form b) :=
  (h.described.bound _ _ h.bound).2

theorem Made.contains (h : Made family opened t b runs id u) : u.contains id :=
  h.unfolds.contains

namespace Faithful

theorem blueprint (h : Faithful family depth named) (hb : b.Over family.names) :
    Answers family depth opened b (Building.blueprint named b) := by
  induction b with
  | scalar flavour kind =>
    refine Founds.once fun t hd hw hl => ⟨[], _, _, rfl, ?_⟩
    refine made_intern hl (.refl t) hd (.scalar kind) (.scalar hl) hb (by simp) ?_
    obtain ⟨d, hd, hk, hs⟩ := get?_intern t (.scalar kind)
    exact .scalar hd hk hs
  | pointer flavour target ih =>
    refine Founds.once fun t hd hw hl => ?_
    obtain ⟨runs, x, u, hx, hm⟩ := ih hb t hd hw
    refine ⟨runs, _, _, (Building.bind_of_ok hx).trans rfl, ?_⟩
    refine made_intern hl hm.grows hm.described (.pointer hm.contains)
      (.pointer hl hm.builds) hb (by simp) ?_
    obtain ⟨d, hd, hk, hs⟩ := get?_intern u (.pointer x)
    exact .pointer hd hk hs (hm.unfolds.retained (adds_intern u _).retains)
  | sequence flavour element ih =>
    refine Founds.once fun t hd hw hl => ?_
    obtain ⟨runs, x, u, hx, hm⟩ := ih hb t hd hw
    refine ⟨runs, _, _, (Building.bind_of_ok hx).trans rfl, ?_⟩
    refine made_intern hl hm.grows hm.described (.sequence hm.contains)
      (.sequence hl hm.builds) hb (by simp) ?_
    obtain ⟨d, hd, hk, hs⟩ := get?_intern u (.sequence x)
    exact .sequence hd hk hs (hm.unfolds.retained (adds_intern u _).retains)
  | map flavour key value ihk ihv =>
    refine Founds.once fun t hd hw hl => ?_
    obtain ⟨runs, x, u, hx, hmk⟩ := ihk hb.1 t hd hw
    obtain ⟨runs', y, v, hy, hmv⟩ := ihv hb.2 u hmk.described (hw.grows hmk.grows)
    have hkey := hmk.unfolds.retained hmv.grows.retains
    refine ⟨runs ++ runs', _, _,
      (Building.bind_of_ok hx).trans ((Building.bind_of_ok hy).trans rfl), ?_⟩
    refine made_intern hl (hmk.grows.trans hmv.grows) hmv.described
      (.map hkey.contains hmv.contains) (.map hl hmk.builds hmv.builds) hb
      (by simp) ?_
    obtain ⟨d, hd, hk, hs⟩ := get?_intern v (.map x y)
    exact .map hd hk hs (hkey.retained (adds_intern v _).retains)
      (hmv.unfolds.retained (adds_intern v _).retains)
  | named name => exact (h opened name hb).once

theorem member (h : Faithful family depth named) {plan : FieldPlan} (hp : plan.Over family.names)
    (hd : Described family opened t) (hw : Within family depth t) :
    ∃ runs m u, Building.member named plan t = .ok (m, u) ∧ Grows t runs u ∧
      Described family opened u ∧ plan.Pushes family u m ∧
      ∀ plans runs' ms v, Collects family u plans runs' ms v →
        Collects family t (plan :: plans) (runs ++ runs') (m :: ms) v := by
  cases plan with
  | existing | inline => exact hp.elim
  | typed name type attributes =>
    obtain ⟨runs, ty, u, hty, hm⟩ := h.blueprint hp t hd hw
    exact ⟨runs, { attributes with name, ty }, u, (Building.bind_of_ok hty).trans rfl, hm.grows,
      hm.described, .typed hm.unfolds, fun _ _ _ _ => .typed hm.builds⟩
  | embedded type attributes =>
    obtain ⟨runs, ty, u, hty, hm⟩ := h.blueprint hp t hd hw
    have hback := hm.described.backward
    have hnamed := hm.described.plainlyNamed
    have hname := Building.embeddedName_eq hback hnamed hm.unfolds
    obtain ⟨d, hd, hown⟩ := (hm.unfolds.strip hback hnamed).ownName
    refine ⟨runs, { attributes with name := d.name.getD "", ty, embedded := true }, u,
      (Building.bind_of_ok hty).trans ((Building.bind_of_ok hname).trans (by rw [hown]; rfl)),
      hm.grows, hm.described, by rw [hown]; exact .embedded hm.unfolds, fun _ _ _ _ => ?_⟩
    exact .embedded hm.builds (stripsTo_strip hback hm.contains) hd

theorem members (h : Faithful family depth named) {plans : List FieldPlan}
    (hp : ∀ plan ∈ plans, plan.Over family.names) (hd : Described family opened t)
    (hw : Within family depth t) :
    ∃ runs ms u, plans.mapM (Building.member named) t = .ok (ms, u) ∧
      Collects family t plans runs ms u ∧ Grows t runs u ∧ Described family opened u ∧
      List.Forall₂ (FieldPlan.Pushes family u) plans ms := by
  induction plans generalizing t with
  | nil => exact ⟨[], [], t, rfl, .nil, .refl t, hd, .nil⟩
  | cons plan plans ih =>
    obtain ⟨hplan, hplans⟩ := List.forall_mem_cons.mp hp
    obtain ⟨runs, m, u, hm, hg, hd, hpush, hc⟩ := h.member hplan hd hw
    obtain ⟨runs', ms, v, hms, hcs, hg', hd', hpushes⟩ := ih hplans hd (hw.grows hg)
    refine ⟨runs ++ runs', m :: ms, v, ?_, hc _ _ _ _ hcs, hg.trans hg', hd',
      .cons (hpush.retained hg'.retains) hpushes⟩
    rw [List.mapM_cons]
    exact (Building.bind_of_ok hm).trans ((Building.bind_of_ok hms).trans rfl)

/-- A struct is bound, its fields are gone through with one struct less to enter, and its members
are put in. -/
theorem define (h : Faithful family depth named) (hf : family.OfStructs)
    (hn : name ∈ family.names) :
    Founds family (depth + 1) opened (.named name)
      (Building.define named name (family.definition name)) := by
  intro t hd hw hl
  obtain ⟨package, own, fields, doc, hdef, hover⟩ := hf.record name hn
  have hnew := hd.declareAggregate_eq hf hn hdef hl
  have hg := Grows.declare hl hnew
  have hopen := hd.declare hf hn hdef hl
  obtain ⟨runs, ms, u, hms, hc, hgu, hdu, hpushes⟩ := h.members hover hopen (hw.enter hg hn)
  refine ⟨name :: runs, (t.declareAggregate package own).1,
    u.fill (t.declareAggregate package own).1 ms doc, ?_, ?_⟩
  · rw [hdef]
    exact (Building.bind_of_ok rfl).trans ((Building.bind_of_ok rfl).trans
      ((Building.bind_of_ok hms).trans rfl))
  · exact made_fill hf hn hdef hl (hg.trans hgu) hdu (hgu.known _ _ lookup_bind_self)
      (hgu.kept _ _ (get?_declared hnew)) (not_contains_declared hnew) hpushes
      (.named hl hdef hc)

end Faithful

theorem faithful_named (hf : family.OfStructs) (depth : Nat) :
    Faithful family depth (Building.named family depth) := by
  induction depth with
  | zero => exact fun opened name hn t hd hw hl => absurd hl (hw.lookup_ne_none hn)
  | succ depth ih => exact fun opened name hn => ih.define hf hn

section Calls

/-- The ids of blueprints, built one after the other. -/
def TypeSet.ofAll (types : TypeSet) (family : Family) (bs : List Blueprint) :
    Except Dangling (List TypeId × TypeSet) :=
  bs.mapM (m := Building) (fun b types => types.of family b) types

theorem answers_of (hf : family.OfStructs) (hb : b.Over family.names)
    (hd : Described family [] t) :
    ∃ runs id u, t.of family b = .ok (id, u) ∧ Made family [] t b runs id u := by
  refine (faithful_named hf (family.length + 1)).blueprint hb t hd ⟨family.names, ?_, ?_⟩
  · simp [Family.names]
  · exact fun _ hn _ => hn

theorem answers_ofAll (hf : family.OfStructs) {bs : List Blueprint}
    (hb : ∀ b ∈ bs, b.Over family.names) (hd : Described family [] t) :
    ∃ runs ids u, t.ofAll family bs = .ok (ids, u) ∧ Calls family t bs runs ids u ∧
      Grows t runs u ∧ Described family [] u ∧
      List.Forall₂ (fun b id => u.built.lookup b = some id) bs ids := by
  induction bs generalizing t with
  | nil => exact ⟨[], [], t, rfl, .nil, .refl t, hd, .nil⟩
  | cons b bs ih =>
    obtain ⟨hover, hovers⟩ := List.forall_mem_cons.mp hb
    obtain ⟨runs, id, u, hid, hm⟩ := answers_of hf hover hd
    obtain ⟨runs', ids, v, hids, hc, hg, hd', hls⟩ := ih hovers hm.described
    refine ⟨runs ++ runs', id :: ids, v, ?_, .cons hm.builds hc, hm.grows.trans hg, hd',
      .cons (hg.known _ _ hm.bound) hls⟩
    rw [ofAll, List.mapM_cons]
    exact (Building.bind_of_ok hid).trans ((Building.bind_of_ok hids).trans rfl)

/-- Over a family of structs that refer to each other in any way, every sequence of calls comes to
an end, and to one only. It goes through the fields of a struct at most once. Each id is that of the
type written, and is answered again by a set that does not change. The structs gone through are
complete, and there are no other named types. -/
theorem TypeSet.structs_described_once (hf : family.OfStructs) {bs : List Blueprint}
    (hbs : ∀ b ∈ bs, b.Over family.names) :
    ∃ runs ids t,
      (∀ runs' ids' t', Calls family .initial bs runs' ids' t' ↔
        runs' = runs ∧ ids' = ids ∧ t' = t) ∧
      TypeSet.initial.ofAll family bs = .ok (ids, t) ∧
      runs.Nodup ∧
      List.Forall₂ (fun b id => t.Unfolds id (family.form b) ∧ t.of family b = .ok (id, t))
        bs ids ∧
      (∀ name ∈ runs, ∃ id, family.Filled t name id) ∧
      ∀ id ∈ t.named, ∃ name ∈ runs, family.Filled t name id := by
  obtain ⟨runs, ids, t, hids, hc, hg, hd, hls⟩ := answers_ofAll hf hbs .initial
  have hfull {name : String} {id : TypeId} (hl : t.built.lookup (.named name) = some id) :
      family.Filled t name id := hd.filled name id hl (by simp)
  refine ⟨runs, ids, t, fun runs' ids' t' => ⟨fun h => h.unique hc, ?_⟩, hids, hg.nodup, ?_, ?_, ?_⟩
  · rintro ⟨rfl, rfl, rfl⟩
    exact hc
  · exact hls.imp fun b id hl => ⟨(hd.bound b id hl).2, Building.blueprint_of_lookup hl⟩
  · intro name hn
    obtain ⟨id, hl⟩ := Option.isSome_iff_exists.mp (hg.entered name hn)
    exact ⟨id, hfull hl⟩
  · intro id hid
    obtain ⟨key, hk⟩ := key?_of_mem_named hid
    obtain ⟨name, hl⟩ := hd.named id key hk
    rcases hg.ran name id hl with h | hn
    · simp [TypeSet.initial] at h
    · exact ⟨name, hn, hfull hl⟩

/-- Nodes that hold nodes, and leaves that lead back to them. -/
def Family.tree : Family :=
  [("Node", .record "tree" "Node"
      [.typed "children" (.sequence "Vec" (.pointer "Box" (.named "Node"))) {},
        .typed "leaves" (.map "HashMap" (.scalar "String" .string) (.named "Leaf"))
          { rename := some "by_name" }] (some "A node.")),
    ("Leaf", .record "tree" "Leaf"
      [.embedded (.pointer "Option" (.pointer "Rc" (.named "Node"))) { optional := true },
        .typed "next" (.pointer "Box" (.named "Leaf")) {}] none)]

def Family.treeCalls : List Blueprint :=
  [.sequence "Vec" (.named "Leaf"), .named "Node"]

theorem Family.tree_ofStructs : Family.tree.OfStructs where
  record name hn := by
    have hcases : name = "Node" ∨ name = "Leaf" := by simpa [names, tree] using hn
    rcases hcases with rfl | rfl
    · refine ⟨_, _, _, _, rfl, ?_⟩
      simp [FieldPlan.Over, Blueprint.Over, names, tree]
    · refine ⟨_, _, _, _, rfl, ?_⟩
      simp [FieldPlan.Over, Blueprint.Over, names, tree]
  distinct := by decide +kernel

theorem TypeSet.tree_described_once :
    Family.tree.OfStructs ∧ (∀ b ∈ Family.treeCalls, b.Over Family.tree.names) ∧
    ∃ runs ids t,
      (∀ runs' ids' t', Calls .tree .initial Family.treeCalls runs' ids' t' ↔
        runs' = runs ∧ ids' = ids ∧ t' = t) ∧
      TypeSet.initial.ofAll .tree Family.treeCalls = .ok (ids, t) ∧
      runs.Nodup ∧
      List.Forall₂ (fun b id => t.Unfolds id (Family.tree.form b) ∧ t.of .tree b = .ok (id, t))
        Family.treeCalls ids ∧
      (∀ name ∈ runs, ∃ id, Family.tree.Filled t name id) ∧
      ∀ id ∈ t.named, ∃ name ∈ runs, Family.tree.Filled t name id := by
  have hover : ∀ b ∈ Family.treeCalls, b.Over Family.tree.names := by
    simp [Family.treeCalls, Blueprint.Over, Family.names, Family.tree]
  exact ⟨Family.tree_ofStructs, hover, structs_described_once Family.tree_ofStructs hover⟩

example :
    (TypeSet.initial.ofAll .tree Family.treeCalls).map (fun r =>
      r.2.named.map fun id => (r.2.get? id).map fun d => (d.name, d.members.map (·.name))) =
      .ok [some (some "Leaf", ["Node", "next"]), some (some "Node", ["children", "leaves"])] := by
  decide +kernel

end Calls

end TypeGraph
