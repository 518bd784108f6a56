import Mathlib.Data.List.Perm.Basic
import TypeGraph.Proofs.Registry.Walk
/-!
What gets a slot. Every slot is being declared or listed, and never both, and it is given to a type
that the starts reach by uses.
-/

namespace TypeGraph

open Relation

/-- Every slot is being declared or listed, once. -/
def Walk.Partitioned (w : Walk) : Prop :=
  (w.opened ++ w.found.order).Perm (List.range w.found.begun.length)

namespace Walk.Partitioned

variable {w : Walk} {slot : Nat}

theorem lt_of_mem (h : w.Partitioned) (hs : slot ∈ w.opened ++ w.found.order) :
    slot < w.found.begun.length := by
  simpa using (h.mem_iff (a := slot)).mp hs

end Walk.Partitioned

namespace Catalog

variable {c : Catalog} {starts : Starts} {w w' : Walk} {found : Findings} {id x : TypeId}

theorem Step.partitioned (h : c.Step starts w w') (hw : w.Partitioned) : w'.Partitioned := by
  unfold Walk.Partitioned at hw ⊢
  cases h with
  | note e => exact hw
  | enter hf =>
    simp only [Findings.order_enter, Findings.begun_enter, List.length_append,
      List.length_singleton, List.range_succ, List.cons_append]
    exact (hw.cons _).trans (List.perm_append_singleton _ _).symm
  | enumerate hf =>
    simp only [Findings.order_finish, Findings.order_enter, Findings.begun_finish,
      Findings.begun_enter, List.length_append, List.length_singleton, List.range_succ,
      ← List.append_assoc]
    exact hw.append_right _
  | finish ht hd =>
    simp only [Findings.order_finish, Findings.order_fill, Findings.begun_finish,
      Findings.length_begun_fill]
    rw [ht] at hw
    refine List.Perm.trans ?_ hw
    rw [← List.append_assoc]
    exact List.perm_append_singleton _ _

/-- What holds of the starts and is handed on by uses holds of every type that gets a slot. -/
theorem Step.forall_begun {P : TypeId → Prop} (h : c.Step starts w w')
    (hagg : ∀ id name, starts.aggregate id name → P id)
    (henum : ∀ id name? package?, starts.enumeration id name? package? → P id)
    (huse : ∀ owner x, P owner → c.Links owner x → P x)
    (hw : ∀ d ∈ w.found.begun, P d.ty) : ∀ d ∈ w'.found.begun, P d.ty := by
  cases h with
  | note e => exact hw
  | enter hf hc hm =>
    intro d hd
    rcases List.mem_append.mp hd with hd | hd
    · exact hw d hd
    · obtain rfl := List.mem_singleton.mp hd
      cases hm with
      | start h => exact hagg _ _ h
      | member ht hu => exact huse _ _ (hw _ (List.mem_of_getElem? ht)) ⟨_, hu⟩
  | enumerate hf hc hm =>
    intro d hd
    rcases List.mem_append.mp hd with hd | hd
    · exact hw d hd
    · obtain rfl := List.mem_singleton.mp hd
      cases hm with
      | start h => exact henum _ _ _ h
      | member ht hu => exact huse _ _ (hw _ (List.mem_of_getElem? ht)) ⟨_, hu⟩
  | finish ht hd =>
    intro e he
    obtain ⟨e', he', ht⟩ : ∃ e' ∈ w.found.begun, e'.ty = e.ty := by
      have := List.mem_map_of_mem (f := (·.ty)) he
      simpa using this
    exact ht ▸ hw e' he'

theorem not_links_of_scalar {own : Description} {kind : Scalar} (ho : c.types.get? id = some own)
    (hs : own.shape = .scalar kind) : ¬c.Links id x := by
  intro hlink
  obtain ⟨m, hu⟩ := hlink
  obtain ⟨d, hd, hm⟩ := hu.mem
  obtain rfl : d = own := by simpa [ho] using hd.symm
  rw [Description.members_eq_nil (by simp [Description.isAggregate, hs])] at hm
  simp at hm

/-- Walks begin with enumerations that use nothing, as scalars do. -/
def PlainStarts (c : Catalog) (starts : Starts) : Prop :=
  ∀ id name? package?, starts.enumeration id name? package? → ∀ x, ¬c.Links id x

theorem MeetsEnumeration.not_links {name? package? : Option String} (hplain : c.PlainStarts starts)
    (h : c.MeetsEnumeration starts w id name? package?) (x : TypeId) : ¬c.Links id x := by
  cases h with
  | start h => exact hplain _ _ _ h x
  | member _ _ ho _ hs => exact not_links_of_scalar ho hs

/-- What the starts reach by uses. -/
inductive Reached (c : Catalog) (start : TypeId → Prop) : TypeId → Prop
  | start {id : TypeId} (h : start id) : Reached c start id
  | link {owner x : TypeId} (h : Reached c start owner) (hx : c.Links owner x) : Reached c start x

theorem Reached.trans {start start' : TypeId → Prop} (h : c.Reached start' id)
    (hs : ∀ x, start' x → c.Reached start x) : c.Reached start id := by
  induction h with
  | start h => exact hs _ h
  | link _ hx ih => exact .link ih hx

end Catalog

end TypeGraph
