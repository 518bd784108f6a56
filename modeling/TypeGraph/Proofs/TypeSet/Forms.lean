import TypeGraph.Proofs.TypeSet.Growth
/-!
What a type is when its ids are followed: a tree in which named types stand for themselves and all
others are spelled out. A type keeps its form while its set grows and named types are filled in.
-/

namespace TypeGraph

/-- What a member shows beside its type. -/
structure Shown extends Attributes where
  name : String
  embedded : Bool
  deriving DecidableEq

def Member.shown (m : Member) : Shown :=
  { m with }

inductive Form where
  | named (package name : String)
  | scalar (kind : Scalar)
  | pointer (target : Form)
  | sequence (element : Form)
  | map (key value : Form)
  /-- A struct without a name: what its members show, and the forms of their types. -/
  | record (members : List Shown) (types : List Form)

/-- The forms of some parts are told apart part by part. -/
theorem forms_unique {α : Type} {parts : List α} {forms forms' : List Form}
    (hl : forms.length = parts.length) (hl' : forms'.length = parts.length)
    (h : ∀ (i : Nat) part form form', parts[i]? = some part → forms[i]? = some form →
      forms'[i]? = some form' → form = form') : forms = forms' := by
  apply List.ext_getElem (hl.trans hl'.symm)
  intro i hi hi'
  have hpart : i < parts.length := hl ▸ hi
  exact h i parts[i] _ _ (List.getElem?_eq_getElem hpart) (List.getElem?_eq_getElem hi)
    (List.getElem?_eq_getElem hi')

/-- The package and the name of a named type. -/
def Description.key? (d : Description) : Option (String × String) :=
  d.name.map (d.package, ·)

theorem Description.Matures.key? {d d' : Description} (h : d.Matures d') : d'.key? = d.key? := by
  rw [Description.key?, h.name, h.package, Description.key?]

namespace TypeSet

def key? (t : TypeSet) (id : TypeId) : Option (String × String) :=
  (t.get? id).bind (·.key?)

/-- The packages and names of the named types, in order. -/
def keys (t : TypeSet) : List (String × String) :=
  t.descriptions.filterMap (·.key?)

/-- The form of a type. -/
inductive Unfolds (t : TypeSet) : TypeId → Form → Prop
  | named {id : TypeId} {d : Description} {package name : String} (hd : t.get? id = some d)
      (hk : d.key? = some (package, name)) : Unfolds t id (.named package name)
  | scalar {id : TypeId} {d : Description} {kind : Scalar} (hd : t.get? id = some d)
      (hk : d.key? = none) (hs : d.shape = .scalar kind) : Unfolds t id (.scalar kind)
  | pointer {id target : TypeId} {d : Description} {form : Form} (hd : t.get? id = some d)
      (hk : d.key? = none) (hs : d.shape = .pointer target) (h : Unfolds t target form) :
      Unfolds t id (.pointer form)
  | sequence {id element : TypeId} {d : Description} {form : Form} (hd : t.get? id = some d)
      (hk : d.key? = none) (hs : d.shape = .sequence element) (h : Unfolds t element form) :
      Unfolds t id (.sequence form)
  | map {id key value : TypeId} {d : Description} {k v : Form} (hd : t.get? id = some d)
      (hk : d.key? = none) (hs : d.shape = .map key value) (hkey : Unfolds t key k)
      (hvalue : Unfolds t value v) : Unfolds t id (.map k v)
  | record {id : TypeId} {d : Description} {ms : List Member} {forms : List Form}
      (hd : t.get? id = some d) (hk : d.key? = none) (hs : d.shape = .aggregate ms)
      (hl : forms.length = ms.length)
      (h : ∀ (i : Nat) m form, ms[i]? = some m → forms[i]? = some form → Unfolds t m.ty form) :
      Unfolds t id (.record (ms.map (·.shown)) forms)

variable {t t' : TypeSet} {id : TypeId} {form form' : Form}

/-- A type has one form. -/
theorem Unfolds.unique (h : t.Unfolds id form) (h' : t.Unfolds id form') : form = form' := by
  induction h generalizing form' with
  | named hd hk => cases h' <;> simp_all
  | scalar hd hk hs => cases h' <;> simp_all
  | pointer hd hk hs _ ih =>
    cases h' with
    | pointer hd' _ hs' h' =>
      obtain rfl := Option.some.inj (hd.symm.trans hd')
      obtain rfl := Shape.pointer.inj (hs.symm.trans hs')
      rw [ih h']
    | _ => simp_all
  | sequence hd hk hs _ ih =>
    cases h' with
    | sequence hd' _ hs' h' =>
      obtain rfl := Option.some.inj (hd.symm.trans hd')
      obtain rfl := Shape.sequence.inj (hs.symm.trans hs')
      rw [ih h']
    | _ => simp_all
  | map hd hk hs _ _ ihk ihv =>
    cases h' with
    | map hd' _ hs' hkey' hvalue' =>
      obtain rfl := Option.some.inj (hd.symm.trans hd')
      obtain ⟨rfl, rfl⟩ := Shape.map.inj (hs.symm.trans hs')
      rw [ihk hkey', ihv hvalue']
    | _ => simp_all
  | @record id d ms forms hd hk hs hl _ ih =>
    cases h' with
    | @record _ d' ms' forms' hd' _ hs' hl' h' =>
      obtain rfl := Option.some.inj (hd.symm.trans hd')
      obtain rfl := Shape.aggregate.inj (hs.symm.trans hs')
      have hforms : forms = forms' := by
        apply forms_unique hl hl'
        intro i m form form' hm hform hform'
        exact ih i m form hm hform (h' i m form' hm hform')
      rw [hforms]
    | _ => simp_all

/-- Types keep their package and name, and those without a name stay what they are. -/
def Retains (t t' : TypeSet) : Prop :=
  ∀ id d, t.get? id = some d →
    ∃ d', t'.get? id = some d' ∧ d'.key? = d.key? ∧ (d.key? = none → d' = d)

namespace Retains

theorem refl (t : TypeSet) : t.Retains t :=
  fun _ d hd => ⟨d, hd, rfl, fun _ => rfl⟩

theorem trans {a b c : TypeSet} (h : a.Retains b) (k : b.Retains c) : a.Retains c := by
  intro id d hd
  obtain ⟨d', hd', hk, hsame⟩ := h id d hd
  obtain ⟨d'', hd'', hk', hsame'⟩ := k id d' hd'
  refine ⟨d'', hd'', hk'.trans hk, ?_⟩
  intro hnone
  rw [hsame' (hk.trans hnone), hsame hnone]

theorem unnamed (h : t.Retains t') {d : Description} (hd : t.get? id = some d)
    (hk : d.key? = none) : t'.get? id = some d := by
  obtain ⟨d', hd', -, hsame⟩ := h id d hd
  rw [hd', hsame hk]

theorem key? (h : t.Retains t') {key : String × String} (hk : t.key? id = some key) :
    t'.key? id = some key := by
  obtain ⟨d, hd, hk⟩ := Option.bind_eq_some_iff.mp hk
  obtain ⟨d', hd', hk', -⟩ := h id d hd
  exact Option.bind_eq_some_iff.mpr ⟨d', hd', hk'.trans hk⟩

/-- A change to a named type that keeps its name. -/
theorem modify {f : Description → Description} (hf : ∀ d : Description, d.Matures (f d))
    (hid : ∀ d, t.get? id = some d → d.key? ≠ none) : t.Retains (t.modify id f) := by
  intro x d hd
  rw [get?_modify, hd]
  split
  · next hx => exact ⟨f d, rfl, (hf d).key?, fun hnone => absurd hnone (hid d (hx ▸ hd))⟩
  · exact ⟨d, rfl, rfl, fun _ => rfl⟩

end Retains

/-- A form stays the form of its type. -/
theorem Unfolds.retained (h : t.Unfolds id form) (hr : t.Retains t') : t'.Unfolds id form := by
  induction h with
  | named hd hk =>
    obtain ⟨d', hd', hk', -⟩ := hr _ _ hd
    exact .named hd' (hk'.trans hk)
  | scalar hd hk hs => exact .scalar (hr.unnamed hd hk) hk hs
  | pointer hd hk hs _ ih => exact .pointer (hr.unnamed hd hk) hk hs ih
  | sequence hd hk hs _ ih => exact .sequence (hr.unnamed hd hk) hk hs ih
  | map hd hk hs _ _ ihk ihv => exact .map (hr.unnamed hd hk) hk hs ihk ihv
  | record hd hk hs hl _ ih => exact .record (hr.unnamed hd hk) hk hs hl ih

/-- Only types without names were added. -/
def Adds (t t' : TypeSet) : Prop :=
  ∃ new, t'.descriptions = t.descriptions ++ new ∧ ∀ d ∈ new, d.key? = none

namespace Adds

theorem refl (t : TypeSet) : t.Adds t :=
  ⟨[], by simp, by simp⟩

theorem trans {a b c : TypeSet} (h : a.Adds b) (k : b.Adds c) : a.Adds c := by
  obtain ⟨new, hb, hnew⟩ := h
  obtain ⟨more, hc, hmore⟩ := k
  refine ⟨new ++ more, by rw [hc, hb, List.append_assoc], ?_⟩
  intro d hd
  rcases List.mem_append.mp hd with hd | hd
  · exact hnew d hd
  · exact hmore d hd

theorem get? (h : t.Adds t') {d : Description} (hd : t.get? id = some d) :
    t'.get? id = some d := by
  obtain ⟨new, hnew, -⟩ := h
  have hlt : id.index < t.descriptions.length := (List.getElem?_eq_some_iff.mp hd).1
  rw [TypeSet.get?, hnew, List.getElem?_append_left hlt]
  exact hd

theorem retains (h : t.Adds t') : t.Retains t' :=
  fun _ d hd => ⟨d, h.get? hd, rfl, fun _ => rfl⟩

theorem keys (h : t.Adds t') : t'.keys = t.keys := by
  obtain ⟨new, hnew, hk⟩ := h
  have hnone : new.filterMap (·.key?) = [] := by simpa using hk
  rw [TypeSet.keys, hnew, List.filterMap_append, hnone, List.append_nil, TypeSet.keys]

end Adds

theorem adds_intern (t : TypeSet) (shape : Shape) : t.Adds (t.intern shape).2 := by
  unfold intern
  split
  · exact .refl t
  · exact ⟨[{ shape }], rfl, by simp [Description.key?]⟩

/-- The type that interning answers is the one without a name that has the shape. -/
theorem get?_intern (t : TypeSet) (shape : Shape) :
    ∃ d, (t.intern shape).2.get? (t.intern shape).1 = some d ∧ d.key? = none ∧
      d.shape = shape := by
  unfold intern
  split
  · next i hi =>
    obtain ⟨hlt, hp, -⟩ := List.findIdx?_eq_some_iff_getElem.mp hi
    simp only [Bool.and_eq_true, decide_eq_true_eq, Option.isNone_iff_eq_none] at hp
    exact ⟨_, List.getElem?_eq_getElem hlt, by simp [Description.key?, hp.1], hp.2⟩
  · refine ⟨{ shape }, ?_, rfl, rfl⟩
    rw [get?_push]
    simp [push]

theorem keys_modify (t : TypeSet) (id : TypeId) {f : Description → Description}
    (hf : ∀ d : Description, d.Matures (f d)) : (t.modify id f).keys = t.keys := by
  obtain ⟨i⟩ := id
  simp only [keys, modify]
  induction t.descriptions generalizing i with
  | nil => simp
  | cons d ds ih =>
    cases i with
    | zero => simp [List.filterMap_cons, (hf d).key?]
    | succ i => simp [List.filterMap_cons, ih i]

/-- One named type becomes `d'`, and nothing else changes. -/
structure Becomes (t : TypeSet) (id : TypeId) (d' : Description) (t' : TypeSet) : Prop where
  self : t'.get? id = some d'
  others : ∀ x, x ≠ id → t'.get? x = t.get? x
  retains : t.Retains t'
  keys : t'.keys = t.keys

namespace Becomes

variable {d d' d'' : Description} {t'' : TypeSet}

theorem refl (hd : t.get? id = some d) : t.Becomes id d t :=
  ⟨hd, fun _ _ => rfl, .refl t, rfl⟩

theorem trans (h : t.Becomes id d' t') (k : t'.Becomes id d'' t'') : t.Becomes id d'' t'' :=
  ⟨k.self, fun x hx => (k.others x hx).trans (h.others x hx), h.retains.trans k.retains,
    k.keys.trans h.keys⟩

theorem modify (hd : t.get? id = some d) (hk : d.key? ≠ none) {f : Description → Description}
    (hf : ∀ d : Description, d.Matures (f d)) : t.Becomes id (f d) (t.modify id f) := by
  refine ⟨?_, ?_, .modify hf ?_, keys_modify t id hf⟩
  · rw [get?_modify, if_pos rfl, hd, Option.map_some]
  · intro x hx
    rw [get?_modify, if_neg hx]
  · intro e he
    obtain rfl := Option.some.inj (hd.symm.trans he)
    exact hk

end Becomes

/-- Where packages and names are given once, they tell types apart. -/
theorem id_unique (h : t.keys.Nodup) {x y : TypeId} {key : String × String}
    (hx : t.key? x = some key) (hy : t.key? y = some key) : x = y := by
  obtain ⟨dx, hdx, hkx⟩ := Option.bind_eq_some_iff.mp hx
  obtain ⟨dy, hdy, hky⟩ := Option.bind_eq_some_iff.mp hy
  obtain ⟨i⟩ := x
  obtain ⟨j⟩ := y
  obtain ⟨hi, rfl⟩ := List.getElem?_eq_some_iff.mp hdx
  obtain ⟨hj, rfl⟩ := List.getElem?_eq_some_iff.mp hdy
  have hpairs := List.pairwise_iff_getElem.mp (List.pairwise_filterMap.mp h)
  rcases Nat.lt_trichotomy i j with hlt | rfl | hlt
  · exact absurd rfl (hpairs i j hi hj hlt key hkx key hky)
  · rfl
  · exact absurd rfl (hpairs j i hj hi hlt key hky key hkx)

theorem lookup_of_key? (h : t.keys.Nodup) {package name : String}
    (hk : t.key? id = some (package, name)) : t.lookup package name = some id := by
  cases hl : t.lookup package name with
  | some x =>
    obtain ⟨d, hd, hn, hp⟩ := lookup_eq_some hl
    have hx : t.key? x = some (package, name) := by simp [key?, hd, Description.key?, hn, hp]
    rw [id_unique h hx hk]
  | none =>
    obtain ⟨d, hd, hk⟩ := Option.bind_eq_some_iff.mp hk
    obtain ⟨n, hn, heq⟩ := Option.map_eq_some_iff.mp hk
    obtain ⟨rfl, rfl⟩ := Prod.mk.inj heq
    simp only [lookup, Option.map_eq_none_iff, List.findIdx?_eq_none_iff] at hl
    simpa [hn] using hl d (List.mem_of_getElem? hd)

/-- The named types in order are those of the keys. -/
theorem map_key?_named (t : TypeSet) : t.named.map t.key? = t.keys.map some := by
  have hids : t.ids.map t.key? = t.descriptions.map (·.key?) := by
    apply List.ext_getElem
    · simp [ids, size]
    · intro i hi hi'
      have hlt : i < t.descriptions.length := by simpa using hi'
      simp [ids, key?, get?, hlt]
  have hnamed : t.named = t.ids.filter fun id => (t.key? id).isSome := by
    simp only [named, key?, Description.key?, Option.isSome_bind, Option.isSome_map]
  rw [hnamed, keys, List.map_filterMap_some_eq_filter_map_isSome, ← hids, List.filter_map]
  rfl

end TypeSet

end TypeGraph
