import TypeGraph.Proofs.Registry.Coverage
/-!
The order of the output. A declaration is listed when all it uses is listed or still being declared,
and whatever is being declared leads to it. So a type comes before its users, except inside a cycle.
-/

namespace TypeGraph

open Relation

/-- The types of a walk: those being declared, the innermost first, and those listed. -/
structure Trail where
  opened : List TypeId
  listed : List TypeId

namespace Trail

variable {links : TypeId → TypeId → Prop} {t t' : Trail}

/-- One step of a walk along `links`, as far as the order is concerned. -/
inductive Step (links : TypeId → TypeId → Prop) (t : Trail) : Trail → Prop
  | stay : Step links t t
  | enter {id : TypeId} (hf : id ∉ t.opened ++ t.listed)
      (hl : ∀ top ∈ t.opened.head?, links top id) :
      Step links t ⟨id :: t.opened, t.listed⟩
  | plain {id : TypeId} (hf : id ∉ t.opened ++ t.listed) (hl : ∀ x, ¬links id x) :
      Step links t ⟨t.opened, t.listed ++ [id]⟩
  | finish {top : TypeId} {opened : List TypeId} (ht : t.opened = top :: opened)
      (hl : ∀ x, links top x → x ∈ t.opened ++ t.listed) : Step links t ⟨opened, t.listed ++ [top]⟩

/-- Types being declared lead to those further in. What a listed type uses is listed, or it is being
declared and leads back; the same holds of what is listed later. -/
structure PostOrdered (links : TypeId → TypeId → Prop) (t : Trail) : Prop where
  nodup : (t.opened ++ t.listed).Nodup
  stacked : t.opened.Pairwise fun inner outer => TransGen links outer inner
  settled : ∀ d ∈ t.listed, ∀ x, links d x →
    x ∈ t.listed ∨ (x ∈ t.opened ∧ TransGen links x d)
  ordered : t.listed.Pairwise fun d x => links d x → TransGen links x d

theorem postOrdered_empty (links : TypeId → TypeId → Prop) : PostOrdered links ⟨[], []⟩ :=
  ⟨List.nodup_nil, .nil, by simp, .nil⟩

/-- A type that is not listed yet may be listed next: those that use it already are led to by it. -/
theorem PostOrdered.ordered_concat (h : t.PostOrdered links) {id : TypeId} (hid : id ∉ t.listed) :
    (t.listed ++ [id]).Pairwise fun d x => links d x → TransGen links x d := by
  refine List.pairwise_append.mpr ⟨h.ordered, List.pairwise_singleton _ _, ?_⟩
  intro d hd x hx hl
  obtain rfl := List.mem_singleton.mp hx
  rcases h.settled d hd x hl with hx | ⟨-, hx⟩
  · exact absurd hx hid
  · exact hx

theorem Step.postOrdered (hs : Step links t t') (h : t.PostOrdered links) :
    t'.PostOrdered links := by
  cases hs with
  | stay => exact h
  | @enter id hf hl =>
    refine ⟨List.nodup_cons.mpr ⟨hf, h.nodup⟩, ?_, ?_, h.ordered⟩
    · refine List.pairwise_cons.mpr ⟨fun outer ho => ?_, h.stacked⟩
      cases htop : t.opened with
      | nil => simp [htop] at ho
      | cons top opened =>
        have hid : links top id := hl top (by simp [htop])
        have hstacked := List.pairwise_cons.mp (htop ▸ h.stacked)
        rw [htop] at ho
        rcases List.mem_cons.mp ho with rfl | hin
        · exact .single hid
        · exact .tail (hstacked.1 outer hin) hid
    · intro d hd x hx
      rcases h.settled d hd x hx with hx | ⟨hx, hback⟩
      · exact .inl hx
      · exact .inr ⟨List.mem_cons_of_mem _ hx, hback⟩
  | @plain id hf hl =>
    have hid : id ∉ t.listed := fun hm => hf (List.mem_append_right _ hm)
    refine ⟨?_, h.stacked, ?_, h.ordered_concat hid⟩
    · rw [← List.append_assoc]
      exact List.nodup_append_comm.mp (List.nodup_cons.mpr ⟨hf, h.nodup⟩)
    · intro d hd x hx
      rcases List.mem_append.mp hd with hd | hd
      · rcases h.settled d hd x hx with hx | hx
        · exact .inl (List.mem_append_left _ hx)
        · exact .inr hx
      · obtain rfl := List.mem_singleton.mp hd
        exact absurd hx (hl x)
  | @finish top opened ht hl =>
    have hnodup : (opened ++ (t.listed ++ [top])).Nodup := by
      rw [← List.append_assoc]
      exact List.nodup_append_comm.mp (by simpa [ht] using h.nodup)
    have hstacked := List.pairwise_cons.mp (ht ▸ h.stacked)
    have htop : top ∉ t.listed := by
      have := h.nodup
      simp only [ht, List.cons_append, List.nodup_cons] at this
      exact fun hm => this.1 (List.mem_append_right _ hm)
    refine ⟨hnodup, hstacked.2, ?_, h.ordered_concat htop⟩
    intro d hd x hx
    rcases List.mem_append.mp hd with hd | hd
    · rcases h.settled d hd x hx with hx | ⟨hx, hback⟩
      · exact .inl (List.mem_append_left _ hx)
      · rcases List.mem_cons.mp (ht ▸ hx) with rfl | hx
        · exact .inl (List.mem_append_right _ (List.mem_singleton_self _))
        · exact .inr ⟨hx, hback⟩
    · obtain rfl := List.mem_singleton.mp hd
      rcases List.mem_append.mp (hl x hx) with hx | hx
      · rcases List.mem_cons.mp (ht ▸ hx) with rfl | hx
        · exact .inl (List.mem_append_right _ (List.mem_singleton_self _))
        · exact .inr ⟨hx, hstacked.1 x hx⟩
      · exact .inl (List.mem_append_left _ hx)

end Trail

/-- The types in some of the slots. -/
def Findings.types (found : Findings) (slots : List Nat) : List TypeId :=
  slots.filterMap fun slot => (found.begun[slot]?).map (·.ty)

namespace Findings

variable {found : Findings} {slots : List Nat}

theorem types_order (found : Findings) : found.types found.order = found.declared.map (·.ty) := by
  simp [types, declared, List.map_filterMap]

theorem types_append (found : Findings) (slots slots' : List Nat) :
    found.types (slots ++ slots') = found.types slots ++ found.types slots' :=
  List.filterMap_append

theorem types_cons {slot : Nat} {d : Declaration} (hd : found.begun[slot]? = some d) :
    found.types (slot :: slots) = d.ty :: found.types slots := by
  simp [types, hd]

theorem types_enter (h : ∀ slot ∈ slots, slot < found.begun.length) (d : Declaration) :
    (found.enter d).types slots = found.types slots := by
  apply List.filterMap_congr
  intro slot hs
  rw [begun_enter, List.getElem?_append_left (h slot hs)]

theorem types_nextSlot (found : Findings) (d : Declaration) :
    (found.enter d).types [found.nextSlot] = [d.ty] := by
  simp [types, nextSlot]

theorem types_finish (found : Findings) (slot : Nat) (slots : List Nat) :
    (found.finish slot).types slots = found.types slots :=
  rfl

theorem types_fill (found : Findings) (slot : Nat) (body : Body) (slots : List Nat) :
    (found.fill slot body).types slots = found.types slots := by
  apply List.filterMap_congr
  intro i _
  rw [← List.getElem?_map, map_ty_begun_fill, List.getElem?_map]

end Findings

def Walk.trail (w : Walk) : Trail :=
  ⟨w.found.types w.opened, w.found.types w.found.order⟩

namespace Catalog

variable {c : Catalog} {starts : Starts} {w w' : Walk} {id x : TypeId}

/-- A type has a slot when it is being declared or listed. -/
theorem mem_trail_iff (hi : w.found.Indexed) (hp : w.Partitioned) :
    x ∈ w.trail.opened ++ w.trail.listed ↔ (w.found.slot? x).isSome := by
  rw [Walk.trail, ← Findings.types_append, Option.isSome_iff_exists]
  constructor
  · intro hx
    obtain ⟨slot, -, hs⟩ := List.mem_filterMap.mp hx
    obtain ⟨d, hd, rfl⟩ := Option.map_eq_some_iff.mp hs
    exact ⟨slot, hi.slot?_ty hd⟩
  · intro hx
    obtain ⟨slot, hs⟩ := hx
    obtain ⟨d, hd, rfl⟩ := (hi.slot?_iff x slot).mp hs
    refine List.mem_filterMap.mpr ⟨slot, ?_, by simp [hd]⟩
    exact hp.mem_iff.mpr (List.mem_range.mpr (List.getElem?_eq_some_iff.mp hd).1)

theorem Meets.links {name : String} {top : TypeId} (hm : c.Meets starts w id name)
    (htop : top ∈ w.trail.opened.head?) : c.Links top id := by
  cases hm with
  | start h => simp [Walk.trail, Findings.types] at htop
  | member hd hu =>
    rw [Walk.trail, Findings.types_cons hd] at htop
    obtain rfl := Option.some.inj htop
    exact ⟨_, hu⟩

/-- Every step of discovery is a step along uses. -/
theorem Step.trail (hplain : c.PlainStarts starts) (h : c.Step starts w w') (hi : w.found.Indexed)
    (hp : w.Partitioned) : w.trail.Step c.Links w'.trail := by
  have hin : ∀ slot ∈ w.opened, slot < w.found.begun.length := fun slot hs =>
    hp.lt_of_mem (List.mem_append_left _ hs)
  have hout : ∀ slot ∈ w.found.order, slot < w.found.begun.length := fun slot hs =>
    hp.lt_of_mem (List.mem_append_right _ hs)
  cases h with
  | note e => exact .stay
  | @enter id name hf hc hm =>
    have hfresh : id ∉ w.trail.opened ++ w.trail.listed := by simp [mem_trail_iff hi hp, hf]
    have hnew : (w.found.enter (c.interface id name)).types (w.found.nextSlot :: w.opened) =
        id :: w.trail.opened := by
      rw [← List.singleton_append, Findings.types_append, Findings.types_nextSlot,
        Findings.types_enter hin]
      rfl
    have hold := Findings.types_enter hout (c.interface id name)
    simp only [Walk.trail, hnew, Findings.order_enter, hold]
    exact .enter hfresh fun top => hm.links
  | @enumerate id name? package? hf hc hm =>
    have hfresh : id ∉ w.trail.opened ++ w.trail.listed := by simp [mem_trail_iff hi hp, hf]
    simp only [Walk.trail, Findings.types_finish, Findings.order_finish, Findings.order_enter,
      Findings.types_append, Findings.types_nextSlot, Findings.types_enter hin,
      Findings.types_enter hout]
    exact .plain hfresh (hm.not_links hplain)
  | @finish top opened d own ht hd ho hs =>
    have htop : w.trail.opened = d.ty :: w.found.types opened := by
      rw [Walk.trail, ht, Findings.types_cons hd]
    have hlast : w.found.types [top] = [d.ty] := Findings.types_cons hd
    simp only [Walk.trail, Findings.types_finish, Findings.order_finish, Findings.order_fill,
      Findings.types_append, Findings.types_fill, hlast]
    exact .finish htop fun x hx => (mem_trail_iff hi hp).mpr (hs x hx)

/-- What every step of discovery keeps. -/
structure Kept (c : Catalog) (w : Walk) : Prop where
  indexed : w.found.Indexed
  partitioned : w.Partitioned
  postOrdered : w.trail.PostOrdered c.Links

theorem Step.kept (hplain : c.PlainStarts starts) (h : c.Step starts w w') (hw : c.Kept w) :
    c.Kept w' :=
  ⟨h.indexed hw.indexed, h.partitioned hw.partitioned,
    (h.trail hplain hw.indexed hw.partitioned).postOrdered hw.postOrdered⟩

theorem kept_empty (c : Catalog) : c.Kept ⟨[], {}⟩ :=
  ⟨.empty, .nil, Trail.postOrdered_empty _⟩

/-- In the end nothing is being declared, so the types with a slot are those that are listed. -/
theorem mem_declared_iff {found : Findings} (hk : c.Kept ⟨[], found⟩) {id : TypeId} :
    id ∈ found.declared.map (·.ty) ↔ (found.slot? id).isSome := by
  rw [← mem_trail_iff (w := ⟨[], found⟩) hk.indexed hk.partitioned, ← Findings.types_order]
  simp [Walk.trail, Findings.types]

theorem mem_declared_of_begun {found : Findings} (hk : c.Kept ⟨[], found⟩) {d : Declaration}
    (hd : d ∈ found.begun) : d ∈ found.declared := by
  obtain ⟨slot, hslot⟩ := List.getElem?_of_mem hd
  have hlt : slot < found.begun.length := (List.getElem?_eq_some_iff.mp hslot).1
  refine List.mem_filterMap.mpr ⟨slot, ?_, hslot⟩
  simpa using hk.partitioned.mem_iff.mpr (List.mem_range.mpr hlt)

end Catalog

end TypeGraph
