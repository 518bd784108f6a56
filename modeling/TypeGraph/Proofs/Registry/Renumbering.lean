import TypeGraph.Proofs.Registry.Registration
import TypeGraph.Proofs.TypeSet.Renumbering
/-!
Discovery in two type sets that describe the same types under different ids. Both runs declare
counterparts in the same slots and in the same order, so registrations have the same outcome.
-/

namespace TypeGraph

def Field.renumber (f : TypeId → TypeId) (field : Field) : Field :=
  { field with ty := f field.ty }

def Body.renumber (f : TypeId → TypeId) : Body → Body
  | .interface fields inherited => .interface (fields.map (·.renumber f)) inherited
  | .enumeration members => .enumeration members

def Declaration.renumber (f : TypeId → TypeId) (d : Declaration) : Declaration :=
  { d with ty := f d.ty, body := d.body.renumber f }

def Step.renumber (f : TypeId → TypeId) : Step → Step
  | .pointer target => .pointer (f target)
  | .aggregate id name => .aggregate (f id) name
  | .sequence element => .sequence (f element)
  | .map key value => .map (f key) (f value)
  | .enumeration id => .enumeration (f id)
  | .inline what => .inline what

def Leaf.id : Leaf → TypeId
  | .aggregate id _ | .enumeration id | .inline id _ | .dangling id => id

def Leaf.renumber (f : TypeId → TypeId) : Leaf → Leaf
  | .aggregate id name => .aggregate (f id) name
  | .enumeration id => .enumeration (f id)
  | .inline id what => .inline (f id) what
  | .dangling id => .dangling (f id)

def Failure.renumber (f : TypeId → TypeId) : Failure → Failure
  | .unknownType id => .unknownType (f id)
  | .unnamedType id => .unnamedType (f id)
  | .dangling id => .dangling (f id)
  | failure => failure

variable {f : TypeId → TypeId} {matters : TypeId → Prop}

namespace Catalog

def Part.renumber (f : TypeId → TypeId) : Part → Part
  | .nothing => .nothing
  | .field shown => .field (shown.renumber f)
  | .base target shown => .base (f target) (shown.renumber f)

/-- Counterparts in two catalogs: the same descriptions up to ids, the same settings, and the same
answers of the annexes. -/
structure Renumbering (f : TypeId → TypeId) (matters : TypeId → Prop) (c c' : Catalog) :
    Prop where
  types : c.types.Renumbering f matters c'.types
  settings : c'.settings = c.settings
  constants : ∀ x, matters x →
    c'.annex.constants c'.types (f x) = c.annex.constants c.types x
  doc : ∀ x, matters x → c'.annex.doc c'.types (f x) = c.annex.doc c.types x

/-- What descriptions themselves say is the same for counterparts. -/
theorem Renumbering.described {t t' : TypeSet} (h : t.Renumbering f matters t')
    (settings : Settings) :
    Renumbering f matters ⟨t, settings, .described⟩ ⟨t', settings, .described⟩ := by
  refine ⟨h, rfl, ?_, ?_⟩ <;> intro x hx <;> simp only [Annex.described, h.get? x hx] <;>
    cases t.get? x <;> rfl

namespace Renumbering

variable {c c' : Catalog} {x : TypeId} {m : Member}

theorem customText (h : c.Renumbering f matters c') (hx : matters x) :
    c'.customText (f x) = c.customText x := by
  simp only [Catalog.customText, h.types.qualifiedName hx, h.settings]

theorem step? (h : c.Renumbering f matters c') (hx : matters x) (context : String) :
    c'.step? (f x) context = (c.step? x context).map (·.renumber f) := by
  simp only [Catalog.step?, h.customText hx, h.constants x hx, h.types.get? x hx]
  cases c.types.get? x with
  | none => rfl
  | some d =>
    simp only [Option.map_some, Option.some.injEq]
    cases c.customText x with
    | some text => rfl
    | none =>
      cases hs : d.shape <;> simp [hs, Shape.renumber, Step.renumber]
      split <;> rfl

/-- The leaves of a counterpart are the counterparts of the leaves. -/
theorem leaves (h : c.Renumbering f matters c') (hx : matters x) (context : String) :
    c'.leaves context (f x) = (c.leaves context x).map (·.renumber f) ∧
      ∀ leaf ∈ c.leaves context x, matters leaf.id := by
  induction hn : x.index using Nat.strongRecOn generalizing x with
  | ind n ih =>
    rw [Catalog.leaves, Catalog.leaves.eq_def c context x, h.step? hx]
    cases hstep : c.step? x context with
    | none => simp [Leaf.renumber, Leaf.id, hx]
    | some step =>
      rcases step?_eq_some hstep with ⟨text, rfl⟩ | ⟨-, d, hd, hcases⟩
      · simp [Step.renumber, Leaf.renumber, Leaf.id, hx]
      -- a container is entered in both sets, since what it holds comes before it in both
      have inner {y : TypeId} (hy : y ∈ d.shape.held) :
          y.index < x.index ∧ (f y).index < (f x).index ∧
            c'.leaves context (f y) = (c.leaves context y).map (·.renumber f) ∧
            ∀ leaf ∈ c.leaves context y, matters leaf.id := by
        obtain ⟨hm, hlt, hlt'⟩ := h.types.held hx hd hy
        exact ⟨hlt, hlt', ih y.index (hn ▸ hlt) hm rfl⟩
      rcases hcases with ⟨y, hs, rfl⟩ | ⟨-, rfl⟩ | ⟨y, hs, rfl⟩ | ⟨k, v, hs, rfl⟩ | ⟨kind, -, he⟩
      · obtain ⟨hlt, hlt', hleaves, hids⟩ := inner (y := y) (by simp [hs, Shape.held])
        simp only [Option.map_some, Step.renumber, if_pos hlt, if_pos hlt']
        exact ⟨hleaves, hids⟩
      · simp [Step.renumber, Leaf.renumber, Leaf.id, hx]
      · obtain ⟨hlt, hlt', hleaves, hids⟩ := inner (y := y) (by simp [hs, Shape.held])
        simp only [Option.map_some, Step.renumber, if_pos hlt, if_pos hlt']
        exact ⟨hleaves, hids⟩
      · obtain ⟨hlt, hlt', hleaves, hids⟩ := inner (y := v) (by simp [hs, Shape.held])
        obtain ⟨hltk, hltk', hleavesk, hidsk⟩ := inner (y := k) (by simp [hs, Shape.held])
        simp only [Option.map_some, Step.renumber, if_pos hlt, if_pos hlt', if_pos hltk,
          if_pos hltk', hleaves, hleavesk, List.map_append, true_and]
        intro leaf hl
        rcases List.mem_append.mp hl with hl | hl
        · exact hids leaf hl
        · exact hidsk leaf hl
      · rcases he with ⟨-, -, -, rfl⟩ | rfl <;>
          simp [Step.renumber, Leaf.renumber, Leaf.id, hx]

theorem ofMember (h : c.Renumbering f matters c') (hm : matters m.ty) (enclosing : String) :
    Field.ofMember c'.types (m.renumber f) enclosing =
      (Field.ofMember c.types m enclosing).renumber f := by
  simp only [Field.ofMember, Field.renumber, Member.renumber, h.types.ownName hm]

/-- The counterpart of a member adds the counterpart of what the member adds. -/
theorem part (h : c.Renumbering f matters c') (hm : matters m.ty) {enclosing : String}
    {part : Part} (hp : c.part enclosing m = .ok part) :
    c'.part enclosing (m.renumber f) = .ok (part.renumber f) := by
  obtain ⟨hstrip, hs⟩ := h.types.strip hm
  have hget := h.types.get? _ hs
  have hfield := h.ofMember hm enclosing
  simp only [Catalog.part, hfield] at hp ⊢
  simp only [Field.renumber, Field.ofMember, hstrip, hget] at hp ⊢
  cases hskip : m.skip with
  | true =>
    simp only [hskip, if_true] at hp ⊢
    obtain rfl := Except.ok.inj hp
    rfl
  | false =>
    cases hembedded : m.embedded with
    | false =>
      simp only [hskip, hembedded] at hp ⊢
      obtain rfl := Except.ok.inj hp
      rfl
    | true =>
      cases hd : c.types.get? (c.types.strip m.ty) with
      | none => simp [hskip, hembedded, hd] at hp
      | some d =>
        simp only [hskip, hembedded, hd, Option.map_some, Description.isAggregate_renumber] at hp ⊢
        cases hp
        cases d.isAggregate <;> rfl

theorem provenance (h : c.Renumbering f matters c') (hx : matters x) (name : String)
    (package? : Option String) :
    c'.provenance (f x) name package? = c.provenance x name package? := by
  simp only [Catalog.provenance, h.types.get? x hx]
  cases c.types.get? x <;> rfl

theorem interface (h : c.Renumbering f matters c') (hx : matters x) (name : String) :
    c'.interface (f x) name = (c.interface x name).renumber f := by
  simp only [Catalog.interface, Declaration.renumber, Body.renumber, h.provenance hx, h.doc x hx,
    List.map_nil]

theorem name? (h : c.Renumbering f matters c') (hx : matters x) :
    (c'.types.get? (f x)).bind (·.name) = (c.types.get? x).bind (·.name) := by
  rw [h.types.get? x hx]
  cases c.types.get? x <;> rfl

theorem enumeration (h : c.Renumbering f matters c') (hx : matters x)
    (name? package? : Option String) :
    c'.enumeration (f x) name? package? = (c.enumeration x name? package?).renumber f := by
  simp only [Catalog.enumeration, Declaration.renumber, Body.renumber, h.provenance hx, h.doc x hx,
    h.constants x hx, h.name? hx]

end Renumbering

end Catalog

namespace Findings

/-- Counterparts of the declarations, in the same slots and in the same order. -/
structure Alike (f : TypeId → TypeId) (matters : TypeId → Prop) (found found' : Findings) :
    Prop where
  begun : found'.begun = found.begun.map (·.renumber f)
  seen : found'.seen = found.seen.map (Prod.map f id)
  order : found'.order = found.order
  types : ∀ d ∈ found.begun, matters d.ty ∧ ∀ field ∈ d.fields, matters field.ty
  keys : ∀ entry ∈ found.seen, matters entry.1

namespace Alike

variable {found found' : Findings} {d : Declaration} {x : TypeId}

theorem empty : Alike f matters {} {} :=
  ⟨rfl, rfl, rfl, by simp, by simp⟩

theorem lookup_seen {seen : List (TypeId × Slot)}
    (hinj : ∀ x y, matters x → matters y → f x = f y → x = y) (hx : matters x)
    (hkeys : ∀ entry ∈ seen, matters entry.1) :
    (seen.map (Prod.map f id)).lookup (f x) = seen.lookup x := by
  induction seen with
  | nil => rfl
  | cons entry seen ih =>
    have hentry : (f x == f entry.1) = (x == entry.1) := by
      rw [Bool.eq_iff_iff, beq_iff_eq, beq_iff_eq]
      exact ⟨hinj x _ hx (hkeys entry (by simp)), congrArg f⟩
    rw [List.map_cons, List.lookup_cons, List.lookup_cons, Prod.map_fst, Prod.map_snd, hentry,
      ih fun e he => hkeys e (List.mem_cons_of_mem _ he)]
    rfl

theorem slot? (h : found.Alike f matters found')
    (hinj : ∀ x y, matters x → matters y → f x = f y → x = y) (hx : matters x) :
    found'.slot? (f x) = found.slot? x := by
  rw [Findings.slot?, h.seen]
  exact lookup_seen hinj hx h.keys

theorem getElem? (h : found.Alike f matters found') (slot : Nat) :
    found'.begun[slot]? = (found.begun[slot]?).map (·.renumber f) := by
  rw [h.begun, List.getElem?_map]

theorem lookup (h : found.Alike f matters found')
    (hinj : ∀ x y, matters x → matters y → f x = f y → x = y) (hx : matters x) :
    found'.lookup (f x) = (found.lookup x).map (·.renumber f) := by
  simp only [Findings.lookup, h.slot? hinj hx, h.getElem?]
  cases found.slot? x <;> rfl

theorem nextSlot (h : found.Alike f matters found') : found'.nextSlot = found.nextSlot := by
  simp [Findings.nextSlot, h.begun]

theorem nameAt (h : found.Alike f matters found') (slot : Slot) :
    found'.nameAt slot = found.nameAt slot := by
  simp only [Findings.nameAt, h.getElem?]
  cases found.begun[slot]? <;> rfl

theorem note (h : found.Alike f matters found') (e e' : Log.Event) :
    (found.note e).Alike f matters (found'.note e') :=
  ⟨h.begun, h.seen, h.order, h.types, h.keys⟩

theorem enter (h : found.Alike f matters found') (hx : matters d.ty)
    (hfields : ∀ field ∈ d.fields, matters field.ty) :
    (found.enter d).Alike f matters (found'.enter (d.renumber f)) := by
  refine ⟨?_, ?_, h.order, ?_, ?_⟩
  · simp [h.begun]
  · simp [Findings.enter, h.seen, h.nextSlot, Declaration.renumber]
  · intro e he
    rcases List.mem_append.mp he with he | he
    · exact h.types e he
    · obtain rfl := List.mem_singleton.mp he
      exact ⟨hx, hfields⟩
  · intro entry he
    rcases List.mem_cons.mp he with rfl | he
    · exact hx
    · exact h.keys entry he

theorem fill (h : found.Alike f matters found') (slot : Slot) {fields : List Field}
    (hfields : ∀ field ∈ fields, matters field.ty) (inherited : List String) :
    (found.fill slot (.interface fields inherited)).Alike f matters
      (found'.fill slot (.interface (fields.map (·.renumber f)) inherited)) := by
  refine ⟨?_, h.seen, h.order, ?_, h.keys⟩
  · apply List.ext_getElem?
    intro i
    rw [List.getElem?_map, getElem?_begun_fill, getElem?_begun_fill, h.getElem?, Option.map_map,
      Option.map_map]
    congr 1
    funext d
    simp only [Function.comp_apply]
    split <;> rfl
  · intro d hd
    obtain ⟨i, hi⟩ := List.mem_iff_getElem?.mp hd
    rw [getElem?_begun_fill] at hi
    obtain ⟨e, he, rfl⟩ := Option.map_eq_some_iff.mp hi
    have hold := h.types e (List.mem_of_getElem? he)
    split
    · exact ⟨hold.1, hfields⟩
    · exact hold

theorem finish (h : found.Alike f matters found') (slot : Slot) :
    (found.finish slot).Alike f matters (found'.finish slot) :=
  ⟨h.begun, h.seen, by simp [h.order], h.types, h.keys⟩

end Alike

end Findings

namespace Catalog

variable {c c' : Catalog} {found found' after after' : Findings} {x : TypeId}

/-- Two ways to declare structs that have the same outcome wherever both succeed. -/
def Agree (f : TypeId → TypeId) (matters : TypeId → Prop) (declare declare' : Declare) : Prop :=
  ∀ x name found found' slot slot' after after', matters x → found.Alike f matters found' →
    declare x name found = .ok (slot, after) → declare' (f x) name found' = .ok (slot', after') →
    slot' = slot ∧ after.Alike f matters after'

variable {enter enter' : Declare}

theorem Renumbering.declareEnumeration (h : c.Renumbering f matters c') (hx : matters x)
    (ha : found.Alike f matters found') (name? package? : Option String) :
    (c.declareEnumeration x name? package? found).2.Alike f matters
      (c'.declareEnumeration (f x) name? package? found').2 := by
  unfold Catalog.declareEnumeration
  rw [ha.slot? h.types.inj hx]
  cases found.slot? x with
  | some slot => exact ha.note _ _
  | none =>
    simp only [h.enumeration hx, ha.nextSlot]
    refine ((ha.note _ _).enter hx ?_).finish _
    simp [Catalog.enumeration, Declaration.fields]

theorem Renumbering.visitLeaf (h : c.Renumbering f matters c')
    (hdec : Agree f matters enter enter') {leaf : Leaf} (hx : matters leaf.id)
    (ha : found.Alike f matters found') (hok : c.visitLeaf enter found leaf = .ok after)
    (hok' : c'.visitLeaf enter' found' (leaf.renumber f) = .ok after') :
    after.Alike f matters after' := by
  cases leaf with
  | aggregate id name =>
    obtain ⟨⟨slot, found₁⟩, hd, rfl⟩ := map_eq_ok hok
    obtain ⟨⟨slot', found₁'⟩, hd', rfl⟩ := map_eq_ok hok'
    exact (hdec id name _ _ _ _ _ _ hx ha hd hd').2
  | enumeration id =>
    obtain rfl := Except.ok.inj hok
    obtain rfl := Except.ok.inj hok'
    exact h.declareEnumeration hx ha none none
  | inline id what =>
    obtain rfl := Except.ok.inj hok
    obtain rfl := Except.ok.inj hok'
    exact ha.note _ _
  | dangling id => cases hok

theorem Renumbering.visitLeaves (h : c.Renumbering f matters c')
    (hdec : Agree f matters enter enter') {leaves : List Leaf}
    (hx : ∀ leaf ∈ leaves, matters leaf.id) (ha : found.Alike f matters found')
    (hok : leaves.foldlM (c.visitLeaf enter) found = .ok after)
    (hok' : (leaves.map (·.renumber f)).foldlM (c'.visitLeaf enter') found' = .ok after') :
    after.Alike f matters after' := by
  induction leaves generalizing found found' with
  | nil =>
    obtain rfl := Except.ok.inj hok
    obtain rfl := Except.ok.inj hok'
    exact ha
  | cons leaf leaves ih =>
    rw [List.foldlM_cons] at hok
    rw [List.map_cons, List.foldlM_cons] at hok'
    obtain ⟨found₁, h₁, h₂⟩ := bind_eq_ok hok
    obtain ⟨found₁', h₁', h₂'⟩ := bind_eq_ok hok'
    have ha₁ := h.visitLeaf hdec (hx leaf (by simp)) ha h₁ h₁'
    exact ih (fun l hl => hx l (List.mem_cons_of_mem _ hl)) ha₁ h₂ h₂'

/-- A member and its counterpart add counterparts of the same fields, and the same bases. -/
theorem Renumbering.visitMember (h : c.Renumbering f matters c')
    (hdec : Agree f matters enter enter') {m : Member} (hm : matters m.ty)
    (ha : found.Alike f matters found') {enclosing : String} {r r' : List Field × List String}
    (hok : c.visitMember enter enclosing m found = .ok (r, after))
    (hok' : c'.visitMember enter' enclosing (m.renumber f) found' = .ok (r', after')) :
    after.Alike f matters after' ∧ r' = (r.1.map (·.renumber f), r.2) ∧
      ∀ field ∈ r.1, matters field.ty := by
  obtain ⟨part, hp, hok⟩ := bind_eq_ok hok
  obtain ⟨part', hp', hok'⟩ := bind_eq_ok hok'
  rw [h.part hm hp] at hp'
  obtain rfl := Except.ok.inj hp'
  rcases part_eq_ok hp with ⟨-, rfl⟩ | ⟨-, -, rfl⟩ | ⟨-, -, e, -, -, rfl⟩
  · cases hok
    cases hok'
    exact ⟨ha, rfl, by simp⟩
  · obtain ⟨found₁, hl, hok⟩ := bind_eq_ok hok
    obtain ⟨found₁', hl', hok'⟩ := bind_eq_ok hok'
    cases hok
    cases hok'
    obtain ⟨hleaves, hids⟩ := h.leaves hm (Field.ofMember c.types m enclosing).contextualName
    have hl' : (c'.leaves (Field.ofMember c.types m enclosing).contextualName (f m.ty)).foldlM
        (c'.visitLeaf enter') found' = .ok after' := hl'
    rw [hleaves] at hl'
    exact ⟨h.visitLeaves hdec hids ha hl hl', rfl, by simpa [Field.ofMember] using hm⟩
  · obtain ⟨-, hs⟩ := h.types.strip hm
    simp only [Part.renumber] at hok hok'
    rw [h.settings, h.customText hs, h.name? hs] at hok'
    split at hok
    · next hc =>
      rw [if_pos hc] at hok'
      cases hok
      cases hok'
      exact ⟨ha, rfl, by simp⟩
    · next hc =>
      rw [if_neg hc] at hok'
      obtain ⟨⟨slot, found₁⟩, hd, hok⟩ := bind_eq_ok hok
      obtain ⟨⟨slot', found₁'⟩, hd', hok'⟩ := bind_eq_ok hok'
      cases hok
      cases hok'
      obtain ⟨rfl, ha₁⟩ := hdec _ _ _ _ _ _ _ _ hs ha hd hd'
      exact ⟨ha₁, by rw [ha₁.nameAt]; rfl, by simp⟩

theorem Renumbering.visitMembers (h : c.Renumbering f matters c')
    (hdec : Agree f matters enter enter') {ms : List Member} (hm : ∀ m ∈ ms, matters m.ty)
    (ha : found.Alike f matters found') {enclosing : String} {r r' : List Field × List String}
    (hok : c.visitMembers enter enclosing ms found = .ok (r, after))
    (hok' : c'.visitMembers enter' enclosing (ms.map (·.renumber f)) found' = .ok (r', after')) :
    after.Alike f matters after' ∧ r' = (r.1.map (·.renumber f), r.2) ∧
      ∀ field ∈ r.1, matters field.ty := by
  induction ms generalizing found found' r r' with
  | nil =>
    cases hok
    cases hok'
    exact ⟨ha, rfl, by simp⟩
  | cons m ms ih =>
    obtain ⟨⟨r₁, found₁⟩, h₁, hok⟩ := bind_eq_ok hok
    obtain ⟨⟨r₁', found₁'⟩, h₁', hok'⟩ := bind_eq_ok hok'
    obtain ⟨⟨r₂, found₂⟩, h₂, hok⟩ := bind_eq_ok hok
    obtain ⟨⟨r₂', found₂'⟩, h₂', hok'⟩ := bind_eq_ok hok'
    cases hok
    cases hok'
    obtain ⟨ha₁, rfl, hf₁⟩ := h.visitMember hdec (hm m (by simp)) ha h₁ h₁'
    obtain ⟨ha₂, rfl, hf₂⟩ := ih (fun n hn => hm n (List.mem_cons_of_mem _ hn)) ha₁ h₂ h₂'
    refine ⟨ha₂, by simp, ?_⟩
    intro field hfield
    rcases List.mem_append.mp hfield with hfield | hfield
    · exact hf₁ field hfield
    · exact hf₂ field hfield

/-- Declaring a struct and declaring its counterpart have the same outcome, whatever the depths that
suffice for them. -/
theorem Renumbering.declare (h : c.Renumbering f matters c') (depth depth' : Nat) :
    Agree f matters (c.declare depth) (c'.declare depth') := by
  induction depth generalizing depth' with
  | zero => intro x name found found' slot slot' after after' _ _ hok; cases hok
  | succ depth ih =>
    intro x name found found' slot slot' after after' hx ha hok hok'
    cases depth' with
    | zero => cases hok'
    | succ depth' =>
      rw [Catalog.declare] at hok hok'
      simp only [ha.slot? h.types.inj hx, h.types.get? x hx] at hok'
      cases hf : found.slot? x with
      | some seen =>
        simp only [hf] at hok hok'
        cases hok
        cases hok'
        exact ⟨rfl, ha.note _ _⟩
      | none =>
        cases hd : c.types.get? x with
        | none => simp [hf, hd] at hok
        | some d =>
          simp only [hf, hd, Option.map_some] at hok hok'
          obtain ⟨⟨r, found₁⟩, h₁, hok⟩ := bind_eq_ok hok
          obtain ⟨⟨r', found₁'⟩, h₁', hok'⟩ := bind_eq_ok hok'
          cases hok
          cases hok'
          have hmembers (m) (hm : m ∈ d.members) : matters m.ty :=
            h.types.ids x d hx hd m.ty (Description.ids_of_mem_members hm)
          have hentered := ha.enter (d := c.interface x name) hx (by simp [Catalog.interface,
            Declaration.fields])
          rw [h.interface hx, Description.members_renumber] at h₁'
          obtain ⟨ha₁, rfl, hfields⟩ := h.visitMembers (ih depth') hmembers hentered h₁ h₁'
          rw [ha.nextSlot]
          exact ⟨rfl, ((ha₁.fill _ hfields _).note _ _).finish _⟩

end Catalog

def Registration.renumber (f : TypeId → TypeId) : Registration → Registration
  | .addType id name? => .addType (f id) name?
  | .addEnumeration id name? package? => .addEnumeration (f id) name? package?
  | .registerAggregate id name? => .registerAggregate (f id) name?
  | .registerEnumeration id name? package? => .registerEnumeration (f id) name? package?

namespace Registry

def renumberAnswer (f : TypeId → TypeId) : Except Failure Declaration → Except Failure Declaration
  | .ok d => .ok (d.renumber f)
  | .error e => .error (e.renumber f)

/-- Registries over two numberings of the same types that have declared counterparts so far and
write with the same assembler. -/
structure Renumbering (f : TypeId → TypeId) (matters : TypeId → Prop) (writer : Assembler)
    (r r' : Registry) : Prop where
  catalog : r.catalog.Renumbering f matters r'.catalog
  closed : r.types.Closed
  closed' : r'.types.Closed
  writes : r.assembler = writer
  writes' : r'.assembler = writer
  alike : r.findings.Alike f matters r'.findings
  indexed : r.findings.Indexed
  indexed' : r'.findings.Indexed

/-- What a registration and its counterpart give: failures or declarations that are counterparts,
and registries that still correspond. -/
structure Outcomes (f : TypeId → TypeId) (matters : TypeId → Prop) (writer : Assembler)
    (out out' : Except Failure Declaration × Registry) : Prop where
  answer : out'.1 = renumberAnswer f out.1
  registry : out.2.Renumbering f matters writer out'.2

variable {writer : Assembler} {r r' : Registry} {x : TypeId}

namespace Renumbering

theorem types (h : r.Renumbering f matters writer r') : r.types.Renumbering f matters r'.types :=
  h.catalog.types

theorem rootName (h : r.Renumbering f matters writer r') (hx : matters x) (name? : Option String) :
    (∃ name, r.rootName x name? = .ok name ∧ r'.rootName (f x) name? = .ok name) ∨
      (r.rootName x name? = .error (.unnamedType x) ∧
        r'.rootName (f x) name? = .error (.unnamedType (f x))) := by
  have hname : (r'.types.get? (f x)).bind (·.name) = (r.types.get? x).bind (·.name) :=
    h.catalog.name? hx
  simp only [Registry.rootName, hname]
  cases name?.filter (· ≠ "") <|> (r.types.get? x).bind (·.name) with
  | some name => exact .inl ⟨name, rfl, rfl⟩
  | none => exact .inr ⟨rfl, rfl⟩

/-- Declaring something has the same outcome as declaring its counterpart wherever the two ways to
do it find the same. -/
theorem register (h : r.Renumbering f matters writer r') (hx : matters x) (name? : Option String)
    {make make' : String → Except Failure Findings}
    (hmake : ∀ name, ∃ after after', make name = .ok after ∧ make' name = .ok after' ∧
      after.Alike f matters after' ∧ after.Indexed ∧ after'.Indexed ∧ (after.slot? x).isSome) :
    Outcomes f matters writer (r.register x name? make) (r'.register (f x) name? make') := by
  have hlookup := h.alike.lookup h.types.inj hx
  -- the type is declared already in both registries or in neither
  cases hl : r.findings.lookup x with
  | some d =>
    rw [hl, Option.map_some] at hlookup
    rw [register_of_lookup hl, register_of_lookup hlookup]
    exact ⟨rfl, h⟩
  | none =>
    rw [hl, Option.map_none] at hlookup
    rcases h.rootName hx name? with ⟨name, hname, hname'⟩ | ⟨hname, hname'⟩
    · obtain ⟨after, after', hm, hm', ha, hi, hi', hs⟩ := hmake name
      obtain ⟨slot, hslot⟩ := Option.isSome_iff_exists.mp hs
      obtain ⟨d, hd⟩ := lookup_of_slot? hi hslot
      have hd' : after'.lookup (f x) = some (d.renumber f) := by
        rw [ha.lookup h.types.inj hx, hd, Option.map_some]
      rw [register_of_make hl hname hm hd, register_of_make hlookup hname' hm' hd']
      exact ⟨rfl, h.catalog, h.closed, h.closed', h.writes, h.writes', ha, hi, hi'⟩
    · rw [register_of_unnamed hl hname, register_of_unnamed hlookup hname']
      exact ⟨rfl, h⟩

theorem registerAggregate (h : r.Renumbering f matters writer r') (hx : matters x)
    (name? : Option String) :
    Outcomes f matters writer (r.registerAggregate x name?) (r'.registerAggregate (f x) name?) := by
  have hcontains := h.types.contains hx
  unfold Registry.registerAggregate
  rw [hcontains]
  split
  · next hc =>
    refine h.register hx name? fun name => ?_
    have hc' : r'.types.contains (f x) := hcontains.trans hc
    -- both walks come to an end, whatever depth either one needs
    obtain ⟨after, hok⟩ := Catalog.discover_eq_ok (c := r.catalog) h.types.backward h.closed
      h.indexed hc name
    obtain ⟨after', hok'⟩ := Catalog.discover_eq_ok (c := r'.catalog) h.types.backward' h.closed'
      h.indexed' hc' name
    rw [hok, hok']
    obtain ⟨⟨slot, found⟩, hdec, rfl⟩ := Catalog.map_eq_ok hok
    obtain ⟨⟨slot', found'⟩, hdec', rfl⟩ := Catalog.map_eq_ok hok'
    have hmeets : r.catalog.Meets (startsAt x) ⟨[], r.findings⟩ x name := .start rfl
    have hmeets' : r'.catalog.Meets (startsAt (f x)) ⟨[], r'.findings⟩ (f x) name := .start rfl
    obtain ⟨hw, hs⟩ := Catalog.walks_declare h.types.backward _ [] x name _ slot found h.indexed
      hdec hmeets
    obtain ⟨hw', -⟩ := Catalog.walks_declare h.types.backward' _ [] (f x) name _ slot' found'
      h.indexed' hdec' hmeets'
    obtain ⟨-, ha⟩ := h.catalog.declare _ _ x name _ _ _ _ _ _ hx h.alike hdec hdec'
    exact ⟨found, found', rfl, rfl, ha, hw.indexed h.indexed, hw'.indexed h.indexed', by simp [hs]⟩
  · exact ⟨rfl, h⟩

theorem registerEnumeration (h : r.Renumbering f matters writer r') (hx : matters x)
    (name? package? : Option String) :
    Outcomes f matters writer (r.registerEnumeration x name? package?)
      (r'.registerEnumeration (f x) name? package?) := by
  have hcontains := h.types.contains hx
  unfold Registry.registerEnumeration
  rw [hcontains]
  split
  · next hc =>
    refine h.register hx name? fun name => ?_
    have hc' : r'.types.contains (f x) := hcontains.trans hc
    have hmeets : r.catalog.MeetsEnumeration (startsAt x) ⟨[], r.findings⟩ x (some name)
        package? := .start rfl
    have hmeets' : r'.catalog.MeetsEnumeration (startsAt (f x)) ⟨[], r'.findings⟩ (f x)
        (some name) package? := .start rfl
    obtain ⟨hw, hs⟩ := Catalog.walks_declareEnumeration hc hmeets
    obtain ⟨hw', -⟩ := Catalog.walks_declareEnumeration hc' hmeets'
    have ha := h.catalog.declareEnumeration hx h.alike (some name) package?
    exact ⟨_, _, rfl, rfl, ha, hw.indexed h.indexed, hw'.indexed h.indexed', by simp [hs]⟩
  · exact ⟨rfl, h⟩

/-- A registration and its counterpart have the same outcome. -/
theorem attempt (h : r.Renumbering f matters writer r') {g : Registration} (hg : matters g.id) :
    Outcomes f matters writer (r.attempt g) (r'.attempt (g.renumber f)) := by
  have hcontains := h.types.contains hg
  obtain ⟨hstrip, hs⟩ := h.types.strip hg
  cases g with
  | addType id name? =>
    simp only [Registration.id] at hcontains hstrip hs
    simp only [Registration.renumber, Registry.attempt, Registry.addType]
    rw [hcontains, hstrip]
    split
    · exact h.registerAggregate hs name?
    · exact ⟨rfl, h⟩
  | addEnumeration id name? package? =>
    simp only [Registration.id] at hcontains hstrip hs
    simp only [Registration.renumber, Registry.attempt, Registry.addEnumeration]
    rw [hcontains, hstrip]
    split
    · exact h.registerEnumeration hs name? package?
    · exact ⟨rfl, h⟩
  | registerAggregate id name? => exact h.registerAggregate hg name?
  | registerEnumeration id name? package? => exact h.registerEnumeration hg name? package?

/-- Registrations and their counterparts have the same outcomes, one after another. -/
theorem performAll (h : r.Renumbering f matters writer r') {gs : List Registration}
    (hg : ∀ g ∈ gs, matters g.id) :
    (r'.performAll (gs.map (·.renumber f))).1 = (r.performAll gs).1.map (renumberAnswer f) ∧
      (r.performAll gs).2.Renumbering f matters writer
        (r'.performAll (gs.map (·.renumber f))).2 := by
  induction gs generalizing r r' with
  | nil => exact ⟨rfl, h⟩
  | cons g gs ih =>
    have hrest (a) (ha : a ∈ gs) : matters a.id := hg a (List.mem_cons_of_mem _ ha)
    obtain ⟨hanswer, hleft⟩ := h.attempt (hg g (by simp))
    obtain ⟨hanswers, hafter⟩ := ih hleft hrest
    simp only [List.map_cons, Registry.performAll]
    exact ⟨List.cons_eq_cons.mpr ⟨hanswer, hanswers⟩, hafter⟩

end Renumbering

end Registry

end TypeGraph
