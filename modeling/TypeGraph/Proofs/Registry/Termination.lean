import Mathlib.Data.Finset.Card
import TypeGraph.Proofs.Registry.Coverage
/-!
Discovery ends. Each level of it enters a type that was not seen before, so its depth is never used
up, and it can fail only at an id that some description mentions and that is not in the set.
-/

namespace TypeGraph.Catalog

variable {c : Catalog} {found found' : Findings} {id : TypeId} {name : String} {m : Member}
variable {declare : Declare} {e : Dangling} {bound : Nat}

/-- The types of the set that are neither declared nor being declared. -/
def unseen (c : Catalog) (found : Findings) : Finset Nat :=
  (Finset.range c.types.size).filter fun i => found.slot? ⟨i⟩ = none

theorem unseen_subset (h : found.Extends found') : c.unseen found' ⊆ c.unseen found := by
  intro i hi
  simp only [unseen, Finset.mem_filter] at hi ⊢
  refine ⟨hi.1, ?_⟩
  cases hs : found.slot? ⟨i⟩ with
  | none => rfl
  | some slot => simp [h.slot? _ _ hs] at hi

theorem card_unseen_le (h : found.Extends found') :
    (c.unseen found').card ≤ (c.unseen found).card :=
  Finset.card_le_card (unseen_subset h)

/-- Entering a type of the set leaves fewer unseen. -/
theorem card_unseen_enter (hc : c.types.contains id) (hf : found.slot? id = none) :
    (c.unseen (found.enter (c.interface id name))).card < (c.unseen found).card := by
  apply Finset.card_lt_card
  refine ⟨unseen_subset (.enter hf), ?_⟩
  intro h
  have hid : id.index ∈ c.unseen found := by
    simp [unseen, hf, TypeSet.contains_iff.mp hc]
  have hmem := h hid
  simp [unseen, Findings.slot?_enter, interface] at hmem

theorem card_unseen_le_size (c : Catalog) (found : Findings) :
    (c.unseen found).card ≤ c.types.size :=
  (Finset.card_filter_le _ _).trans (Finset.card_range _).le

/-- An id outside the set that is the type of a member, where a struct that uses lead to from `start`
has the member. -/
def Stray (c : Catalog) (start : TypeId) (e : Dangling) : Prop :=
  ¬c.types.contains e.id ∧ ∃ owner own, c.Reached (· = start) owner ∧
    c.types.get? owner = some own ∧ ∃ m ∈ own.members, m.skip = false ∧ m.ty = e.id

theorem Stray.behind {start next : TypeId} (h : c.Stray next e) (hl : c.Links start next) :
    c.Stray start e := by
  obtain ⟨hout, owner, own, hr, hmember⟩ := h
  have hnext : c.Reached (· = start) next := .link (.start rfl) hl
  exact ⟨hout, owner, own, hr.trans (fun x hx => hx ▸ hnext), hmember⟩

/-- A way to declare structs that fails only at stray ids while fewer than `bound` types are
unseen. -/
def Strays (c : Catalog) (bound : Nat) (declare : Declare) : Prop :=
  ∀ id name found e, found.Indexed → (c.unseen found).card < bound → c.types.contains id →
    declare id name found = .error e → c.Stray id e

theorem bind_eq_error {ε α β : Type} {x : Except ε α} {f : α → Except ε β} {e : ε}
    (h : (x >>= f) = .error e) : x = .error e ∨ ∃ a, x = .ok a ∧ f a = .error e := by
  cases x with
  | error e' => exact .inl (by cases h; rfl)
  | ok a => exact .inr ⟨a, rfl, h⟩

theorem map_eq_error {ε α β : Type} {x : Except ε α} {f : α → β} {e : ε}
    (h : x.map f = .error e) : x = .error e := by
  cases x with
  | error e' => cases h; rfl
  | ok a => cases h

variable {starts : Starts} {top : Nat} {opened : List Nat} {d : Declaration} {own : Description}

theorem stray_visitLeaf {context : String} {leaf : Leaf} (hback : c.types.Backward)
    (hs : c.Strays bound declare) (hi : found.Indexed) (hb : (c.unseen found).card < bound)
    (ho : c.types.get? d.ty = some own) (hm : m ∈ own.members) (hskip : m.skip = false)
    (hu : ∀ x, c.LeadsTo m.ty x → c.Uses d.ty m x) (hleaf : leaf ∈ c.leaves context m.ty)
    (h : c.visitLeaf declare found leaf = .error e) : c.Stray d.ty e := by
  cases leaf with
  | aggregate x name =>
    obtain ⟨hto, own, ho, -⟩ := leaves_sound hleaf
    have hx : c.Stray x e :=
      hs x name found e hi hb (TypeSet.contains_of_get? ho) (map_eq_error h)
    exact hx.behind ⟨m, hu x hto⟩
  | enumeration x => cases h
  | inline x what => cases h
  | dangling x =>
    obtain rfl : ⟨x⟩ = e := Except.error.inj h
    obtain ⟨hout, rfl⟩ := leaves_dangling hback hleaf
    exact ⟨hout, d.ty, own, .start rfl, ho, m, hm, hskip, rfl⟩

theorem stray_visitLeaves (hback : c.types.Backward) (hs : c.Strays bound declare)
    (hdec : c.Declares starts (top :: opened) declare) (hi : found.Indexed)
    (hb : (c.unseen found).card < bound) (hd : found.begun[top]? = some d)
    (ho : c.types.get? d.ty = some own) (hm : m ∈ own.members) (hskip : m.skip = false)
    (hu : ∀ x, c.LeadsTo m.ty x → c.Uses d.ty m x) {leaves : List Leaf}
    (hl : ∀ leaf ∈ leaves,
      leaf ∈ c.leaves (Field.ofMember c.types m d.name).contextualName m.ty)
    (h : leaves.foldlM (c.visitLeaf declare) found = .error e) : c.Stray d.ty e := by
  induction leaves generalizing found with
  | nil => cases h
  | cons leaf leaves ih =>
    rw [List.foldlM_cons] at h
    have hleaf := hl leaf (by simp)
    rcases bind_eq_error h with h₁ | ⟨found₁, h₁, h₂⟩
    · exact stray_visitLeaf hback hs hi hb ho hm hskip hu hleaf h₁
    · obtain ⟨hw, -⟩ := walks_visitLeaf hdec hi hd hu (leaves_sound hleaf) h₁
      exact ih (hw.indexed hi) ((card_unseen_le hw.kept).trans_lt hb) (hw.kept.getElem? hd)
        (fun l hm => hl l (List.mem_cons_of_mem _ hm)) h₂

theorem stray_part {owner : TypeId} (ho : c.types.get? owner = some own) (hm : m ∈ own.members)
    (h : c.part name m = .error e) : c.Stray owner e := by
  simp only [Catalog.part, Field.ofMember] at h
  cases hs : m.skip with
  | true => simp [hs] at h
  | false =>
    cases he : m.embedded with
    | false => simp [hs, he] at h
    | true =>
      cases hg : c.types.get? (c.types.strip m.ty) with
      | some d => simp [hs, he, hg] at h
      | none =>
        obtain rfl : ⟨c.types.strip m.ty⟩ = e := by simpa [hs, he, hg] using h
        have hout : ¬c.types.contains (c.types.strip m.ty) := by
          simp [← TypeSet.get?_isSome, hg]
        have hstrip : c.types.strip m.ty = m.ty :=
          TypeSet.strip_of_not_contains (mt TypeSet.contains_strip hout)
        exact ⟨hout, owner, own, .start rfl, ho, m, hm, hs, hstrip.symm⟩

theorem stray_visitMember (hback : c.types.Backward) (hs : c.Strays bound declare)
    (hdec : c.Declares starts (top :: opened) declare) (hi : found.Indexed)
    (hb : (c.unseen found).card < bound) (hd : found.begun[top]? = some d)
    (ho : c.types.get? d.ty = some own) (hm : m ∈ own.members)
    (h : c.visitMember declare d.name m found = .error e) : c.Stray d.ty e := by
  rcases bind_eq_error h with hp | ⟨part, hp, h⟩
  · exact stray_part ho hm hp
  · rcases part_eq_ok hp with ⟨-, rfl⟩ | ⟨hskip, he, rfl⟩ | ⟨hskip, he, base, hg, ha, rfl⟩
    · cases h
    · rcases bind_eq_error h with h | ⟨found₁, -, h⟩
      · have hu (x) (hx : c.LeadsTo m.ty x) : c.Uses d.ty m x := .leaf ho hm hskip he hx
        exact stray_visitLeaves hback hs hdec hi hb hd ho hm hskip hu (fun leaf hl => hl) h
      · cases h
    · simp only at h
      split at h
      · cases h
      · next hc =>
        rcases bind_eq_error h with h | ⟨r, -, h⟩
        · have hbase : c.Stray (c.types.strip m.ty) e :=
            hs _ _ found e hi hb (TypeSet.contains_of_get? hg) h
          exact hbase.behind ⟨m, .base ho hm hskip he hg ha (by simp_all) (by simp_all)⟩
        · cases h

theorem stray_visitMembers (hback : c.types.Backward) (hs : c.Strays bound declare)
    (hdec : c.Declares starts (top :: opened) declare) (hi : found.Indexed)
    (hb : (c.unseen found).card < bound) (hd : found.begun[top]? = some d)
    (ho : c.types.get? d.ty = some own) {ms : List Member} (hm : ∀ m ∈ ms, m ∈ own.members)
    (h : c.visitMembers declare d.name ms found = .error e) : c.Stray d.ty e := by
  induction ms generalizing found with
  | nil => cases h
  | cons m ms ih =>
    rcases bind_eq_error h with h₁ | ⟨⟨r, found₁⟩, h₁, h⟩
    · exact stray_visitMember hback hs hdec hi hb hd ho (hm m (by simp)) h₁
    · obtain ⟨hw, -⟩ := walks_visitMember hback hdec hi hd ho (hm m (by simp)) h₁
      rcases bind_eq_error h with h₂ | ⟨r₂, -, h₂⟩
      · exact ih (hw.indexed hi) ((card_unseen_le hw.kept).trans_lt hb) (hw.kept.getElem? hd)
          (fun n hn => hm n (List.mem_cons_of_mem _ hn)) h₂
      · cases h₂

/-- The depth of discovery is never used up: declaring a type of the set fails only at a stray
id. -/
theorem stray_declare (hback : c.types.Backward) (depth : Nat) :
    c.Strays depth (c.declare depth) := by
  induction depth with
  | zero => exact fun id name found e _ hb => absurd hb (Nat.not_lt_zero _)
  | succ depth ih =>
    intro id name found e hi hb hc h
    rw [declare] at h
    cases hf : found.slot? id with
    | some seen => simp [hf] at h
    | none =>
      obtain ⟨own, ho⟩ := TypeSet.exists_get? hc
      simp only [hf, ho] at h
      let opening := c.interface id name
      have hf' : found.slot? opening.ty = none := hf
      rcases bind_eq_error h with h | ⟨r, -, h⟩
      · have hless : (c.unseen (found.enter opening)).card < (c.unseen found).card :=
          card_unseen_enter hc hf
        have hd : (found.enter opening).begun[found.nextSlot]? = some opening := by
          simp [Findings.nextSlot]
        have hdec : c.Declares ⟨fun _ _ => True, fun _ _ _ => True⟩ [found.nextSlot]
            (c.declare depth) := walks_declare hback depth _
        have hbound := hless.trans_le (Nat.le_of_lt_succ hb)
        exact stray_visitMembers hback ih hdec (hi.enter hf') hbound hd ho (fun m hm => hm) h
      · cases h

/-- Discovery of a type of the set fails only at the type of a member that it comes upon and that
is not in the set. -/
theorem stray_discover (hback : c.types.Backward) (hi : found.Indexed) (hc : c.types.contains id)
    (h : c.discover id name found = .error e) : c.Stray id e :=
  stray_declare hback _ id name found e hi (Nat.lt_succ_of_le (c.card_unseen_le_size found)) hc
    (map_eq_error h)

theorem not_stray (hclosed : c.types.Closed) : ¬c.Stray id e := by
  intro hstray
  obtain ⟨hout, owner, own, -, ho, m, hm, -, ht⟩ := hstray
  have hids : m.ty ∈ own.shape.ids := Description.ids_of_mem_members hm
  exact hout (ht ▸ hclosed owner own ho m.ty hids)

/-- In a set that mentions only its own ids, discovery succeeds from every type of the set. -/
theorem discover_eq_ok (hback : c.types.Backward) (hclosed : c.types.Closed) (hi : found.Indexed)
    (hc : c.types.contains id) (name : String) :
    ∃ found', c.discover id name found = .ok found' := by
  cases h : c.discover id name found with
  | ok found' => exact ⟨found', rfl⟩
  | error e => exact absurd (stray_discover hback hi hc h) (not_stray hclosed)

end TypeGraph.Catalog
