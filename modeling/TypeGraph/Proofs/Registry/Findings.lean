import Mathlib.Data.List.Nodup
import Mathlib.Data.List.Perm.Basic
import TypeGraph.Registry.Discovery
/-!
The bookkeeping of findings: which slots are given out, which types they are given to, and what
stays of findings when more is found.
-/

namespace TypeGraph.Findings

variable {found found' : Findings} {id : TypeId} {slot i : Nat} {d : Declaration} {body : Body}

@[simp] theorem begun_note (found : Findings) (e : Log.Event) :
    (found.note e).begun = found.begun :=
  rfl

@[simp] theorem order_note (found : Findings) (e : Log.Event) :
    (found.note e).order = found.order :=
  rfl

@[simp] theorem slot?_note (found : Findings) (e : Log.Event) (id : TypeId) :
    (found.note e).slot? id = found.slot? id :=
  rfl

@[simp] theorem begun_finish (found : Findings) (slot : Nat) :
    (found.finish slot).begun = found.begun :=
  rfl

@[simp] theorem order_finish (found : Findings) (slot : Nat) :
    (found.finish slot).order = found.order ++ [slot] :=
  rfl

@[simp] theorem slot?_finish (found : Findings) (slot : Nat) (id : TypeId) :
    (found.finish slot).slot? id = found.slot? id :=
  rfl

@[simp] theorem begun_enter (found : Findings) (d : Declaration) :
    (found.enter d).begun = found.begun ++ [d] :=
  rfl

@[simp] theorem order_enter (found : Findings) (d : Declaration) :
    (found.enter d).order = found.order :=
  rfl

theorem slot?_enter (found : Findings) (d : Declaration) (id : TypeId) :
    (found.enter d).slot? id = if id = d.ty then some found.nextSlot else found.slot? id := by
  unfold slot? enter
  rw [List.lookup_cons]
  by_cases h : id = d.ty
  · simp [h]
  · simp [h, beq_false_of_ne h]

@[simp] theorem order_fill (found : Findings) (slot : Nat) (body : Body) :
    (found.fill slot body).order = found.order :=
  rfl

@[simp] theorem slot?_fill (found : Findings) (slot : Nat) (body : Body) (id : TypeId) :
    (found.fill slot body).slot? id = found.slot? id :=
  rfl

@[simp] theorem length_begun_fill (found : Findings) (slot : Nat) (body : Body) :
    (found.fill slot body).begun.length = found.begun.length := by
  simp [fill]

theorem getElem?_begun_fill (found : Findings) (slot : Nat) (body : Body) (i : Nat) :
    (found.fill slot body).begun[i]? =
      (found.begun[i]?).map fun d => if slot = i then { d with body } else d := by
  simp only [fill, List.getElem?_modify]
  congr

/-- Whatever is listed was begun. -/
theorem mem_begun_of_declared (h : d ∈ found.declared) : d ∈ found.begun := by
  obtain ⟨slot, -, hslot⟩ := List.mem_filterMap.mp h
  exact List.mem_of_getElem? hslot

/-- What does not depend on bodies stays the same. -/
theorem map_begun_fill {β : Type} {f : Declaration → β} (hf : ∀ d body, f { d with body } = f d)
    (found : Findings) (slot : Nat) (body : Body) :
    (found.fill slot body).begun.map f = found.begun.map f := by
  apply List.ext_getElem?
  intro i
  simp only [List.getElem?_map, getElem?_begun_fill, Option.map_map]
  congr 1
  funext d
  simp only [Function.comp_apply]
  split
  · exact hf d body
  · rfl

@[simp] theorem map_ty_begun_fill (found : Findings) (slot : Nat) (body : Body) :
    (found.fill slot body).begun.map (·.ty) = found.begun.map (·.ty) :=
  map_begun_fill (fun _ _ => rfl) found slot body

/-- Slots and types that are declared or being declared correspond. -/
structure Indexed (found : Findings) : Prop where
  slot?_iff : ∀ id (slot : Nat),
    found.slot? id = some slot ↔ ∃ d, found.begun[slot]? = some d ∧ d.ty = id
  keys : found.seen.map (·.1) = (found.begun.map (·.ty)).reverse

namespace Indexed

theorem empty : Indexed {} :=
  ⟨by simp [slot?], rfl⟩

theorem slot?_ty (h : found.Indexed) (hd : found.begun[i]? = some d) :
    found.slot? d.ty = some i :=
  (h.slot?_iff d.ty i).mpr ⟨d, hd, rfl⟩

theorem lookup_eq_some (h : found.Indexed) :
    found.lookup id = some d ↔ ∃ slot : Nat, found.begun[slot]? = some d ∧ d.ty = id := by
  constructor
  · intro hl
    obtain ⟨slot, hs, hd⟩ := Option.bind_eq_some_iff.mp hl
    obtain ⟨e, he, ht⟩ := (h.slot?_iff id slot).mp hs
    obtain rfl : d = e := by simpa [hd] using he
    exact ⟨slot, hd, ht⟩
  · intro hbegun
    obtain ⟨slot, hd, rfl⟩ := hbegun
    simp [lookup, h.slot?_ty hd, hd]

theorem nodup (h : found.Indexed) : (found.begun.map (·.ty)).Nodup := by
  rw [List.nodup_iff_getElem?_ne_getElem?]
  intro i j hij hj he
  rw [List.length_map] at hj
  simp only [List.getElem?_map, List.getElem?_eq_getElem hj, Option.map_some] at he
  obtain ⟨d, hd, ht⟩ := Option.map_eq_some_iff.mp he
  have hi := h.slot?_ty hd
  rw [ht, h.slot?_ty (List.getElem?_eq_getElem hj)] at hi
  have hji : j = i := Option.some.inj hi
  omega

theorem note (h : found.Indexed) (e : Log.Event) : (found.note e).Indexed :=
  ⟨h.slot?_iff, h.keys⟩

theorem finish (h : found.Indexed) (slot : Nat) : (found.finish slot).Indexed :=
  ⟨h.slot?_iff, h.keys⟩

theorem enter (h : found.Indexed) (hf : found.slot? d.ty = none) : (found.enter d).Indexed := by
  constructor
  · intro id slot
    have hnew : ∀ e : Declaration, found.begun[slot]? = some e → e.ty ≠ d.ty := by
      intro e he ht
      simp [← ht, h.slot?_ty he] at hf
    rw [slot?_enter, begun_enter]
    rcases Nat.lt_trichotomy slot found.begun.length with hlt | rfl | hlt
    · rw [List.getElem?_append_left hlt]
      by_cases hid : id = d.ty
      · simp only [hid, if_true, Option.some.injEq]
        refine ⟨fun hs => absurd hlt (by simp [← hs, nextSlot]), ?_⟩
        intro hbegun
        obtain ⟨e, he, ht⟩ := hbegun
        exact absurd ht (hnew e he)
      · simp only [if_neg hid]
        exact h.slot?_iff id slot
    · by_cases hid : id = d.ty
      · simp [hid, nextSlot]
      · simp only [if_neg hid, h.slot?_iff]
        simp [Ne.symm hid]
    · rw [List.getElem?_eq_none (by simp; omega)]
      by_cases hid : id = d.ty
      · simp only [hid, if_true, Option.some.injEq]
        exact ⟨fun hs => absurd hlt (by simp [← hs, nextSlot]), by simp⟩
      · simp only [if_neg hid, h.slot?_iff, List.getElem?_eq_none (Nat.le_of_lt hlt)]
  · have hk := h.keys
    simp [Findings.enter, hk]

theorem fill (h : found.Indexed) (slot : Nat) (body : Body) : (found.fill slot body).Indexed := by
  constructor
  · intro id i
    rw [slot?_fill, h.slot?_iff, getElem?_begun_fill]
    constructor
    · intro hbegun
      obtain ⟨d, hd, rfl⟩ := hbegun
      exact ⟨_, by rw [hd]; rfl, by split <;> rfl⟩
    · intro hbegun
      obtain ⟨e, he, rfl⟩ := hbegun
      obtain ⟨d, hd, rfl⟩ := Option.map_eq_some_iff.mp he
      exact ⟨d, hd, by split <;> rfl⟩
  · rw [map_ty_begun_fill]
    exact h.keys

theorem map (h : found.Indexed) {f : Declaration → Declaration} (hf : ∀ d, (f d).ty = d.ty) :
    Indexed { found with begun := found.begun.map f } := by
  constructor
  · intro id slot
    have hs : slot? { found with begun := found.begun.map f } id = found.slot? id := rfl
    rw [hs, h.slot?_iff]
    simp [hf]
  · have hfun : (fun d => d.ty) ∘ f = fun d => d.ty := funext hf
    simpa [hfun] using h.keys

end Indexed

/-- What stays when more is found: declarations, slots and the order of the output. -/
structure Extends (found found' : Findings) : Prop where
  begun : found.begun <+: found'.begun
  slot? : ∀ id slot, found.slot? id = some slot → found'.slot? id = some slot
  order : found.order <+: found'.order

namespace Extends

theorem refl (found : Findings) : found.Extends found :=
  ⟨List.prefix_refl _, fun _ _ h => h, List.prefix_refl _⟩

theorem trans {a b c : Findings} (h : a.Extends b) (k : b.Extends c) : a.Extends c :=
  ⟨h.begun.trans k.begun, fun id slot hs => k.slot? id slot (h.slot? id slot hs),
    h.order.trans k.order⟩

theorem note (found : Findings) (e : Log.Event) : found.Extends (found.note e) :=
  ⟨List.prefix_refl _, fun _ _ h => h, List.prefix_refl _⟩

theorem finish (found : Findings) (slot : Nat) : found.Extends (found.finish slot) :=
  ⟨List.prefix_refl _, fun _ _ h => h, ⟨[slot], rfl⟩⟩

theorem enter (hf : found.slot? d.ty = none) : found.Extends (found.enter d) := by
  refine ⟨List.prefix_append _ _, ?_, List.prefix_refl _⟩
  intro id slot hs
  have hne : id ≠ d.ty := fun h => by simp [← h, hs] at hf
  rwa [slot?_enter, if_neg hne]

/-- Filling in a later slot changes nothing. -/
theorem fill (h : found.Extends found') (hs : found.begun.length ≤ slot) :
    found.Extends (found'.fill slot body) := by
  refine ⟨?_, h.slot?, h.order⟩
  rw [List.prefix_iff_getElem?]
  intro i hi
  rw [getElem?_begun_fill, List.prefix_iff_getElem?.mp h.begun i hi, Option.map_some,
    if_neg (by omega)]

theorem isSome_slot? (h : found.Extends found') (hs : (found.slot? id).isSome) :
    (found'.slot? id).isSome := by
  obtain ⟨slot, hs⟩ := Option.isSome_iff_exists.mp hs
  simp [h.slot? id slot hs]

theorem getElem? (h : found.Extends found') (hd : found.begun[i]? = some d) :
    found'.begun[i]? = some d := by
  obtain ⟨rest, hr⟩ := h.begun
  rw [← hr, List.getElem?_append_left (List.getElem?_eq_some_iff.mp hd).1, hd]

theorem lookup (h : found.Extends found') (hd : found.lookup id = some d) :
    found'.lookup id = some d := by
  obtain ⟨slot, hs, hd⟩ := Option.bind_eq_some_iff.mp hd
  simp [Findings.lookup, h.slot? id slot hs, h.getElem? hd]

end Extends

end TypeGraph.Findings
