import TypeGraph.Proofs.Output.Origins
import TypeGraph.Proofs.Schema.Identifiers
import TypeGraph.Proofs.Schema.Naming
/-!
The origins that the output tells. Declarations and the types they come from have identifiers for
names, so the comment with the origin stays on its line unless the package breaks it. A package does
so only if it was written as a string.
-/

namespace TypeGraph

open Schema

section Words

/-- The upper case of a character that begins an identifier does so too. -/
theorem isWordStart_ofChar {c : Char} (hc : isWordStart c) :
    Text.Uppercase.ofChar c ≠ [] ∧ (Text.Uppercase.ofChar c).all isWordStart := by
  have hall : ∀ n < 128, isWordStart (Char.ofNat n) →
      Text.Uppercase.ofChar (Char.ofNat n) ≠ [] ∧
        (Text.Uppercase.ofChar (Char.ofNat n)).all isWordStart := by
    decide +kernel
  have hlt : c.toNat < 128 := by
    rcases isWordStart_iff.mp hc with (⟨-, hle⟩ | ⟨-, hle⟩) | rfl
    · exact Nat.lt_of_le_of_lt (UInt32.le_iff_toNat_le.mp hle) (by decide)
    · exact Nat.lt_of_le_of_lt (UInt32.le_iff_toNat_le.mp hle) (by decide)
    · decide
  have h := hall c.toNat hlt
  rw [Char.ofNat_toNat] at h
  exact h hc

theorem isWordPart_of_isWordStart {c : Char} (hc : isWordStart c) : isWordPart c := by
  rcases isWordStart_iff.mp hc with hletter | rfl
  · exact isWordPart_iff.mpr (.inl hletter)
  · rfl

/-- The name that a member gives to a struct without one is an identifier. -/
theorem wordlike_capitalize_append {name enclosing : String} (hname : Wordlike name)
    (henclosing : Wordlike enclosing) :
    Wordlike (Text.Uppercase.capitalize name ++ enclosing) := by
  obtain ⟨c, cs, htext, hc, hcs⟩ := hname
  obtain ⟨e, es, hetext, he, hes⟩ := henclosing
  obtain ⟨hne, hstart⟩ := isWordStart_ofChar hc
  obtain ⟨d, ds, hupper⟩ := List.exists_cons_of_ne_nil hne
  rw [hupper] at hstart
  obtain ⟨hd, hds⟩ := List.forall_mem_cons.mp (List.all_eq_true.mp hstart)
  refine ⟨d, ds ++ (cs ++ e :: es), ?_, hd, ?_⟩
  · simp [Text.Uppercase.capitalize, htext, hetext, hupper]
  · simp only [List.forall_mem_append, List.forall_mem_cons]
    exact ⟨fun x hx => isWordPart_of_isWordStart (hds x hx), hcs,
      isWordPart_of_isWordStart he, hes⟩

theorem unbroken_of_wordlike {name : String} (h : Wordlike name) :
    Output.TypeScript.Unbroken name := by
  obtain ⟨-, hall⟩ := wordlike_iff.mp h
  intro c hc hend
  have hpart : isWordPart c := List.all_eq_true.mp hall c hc
  rcases hend with rfl | rfl | rfl | rfl <;> exact absurd hpart (by decide)

end Words

variable {W Q : String → Prop}

theorem TypeSet.WellNamed.ownName {t : TypeSet} (h : t.WellNamed W Q) {id : TypeId}
    {name : String} (hname : t.ownName id = some name) : W name := by
  fun_induction TypeSet.ownName t id with
  | case1 => cases hname
  | case2 id d hd own hown => exact (h d (List.mem_of_getElem? hd)).name name (hown.trans hname)
  | case3 _ _ _ _ _ _ _ ih | case5 _ _ _ _ _ _ _ ih | case7 _ _ _ _ _ _ _ _ ih => exact ih hname
  | _ => cases hname

/-- A declaration under an identifier, of a type that goes by one, from a package of which `Q`
holds. -/
structure Declaration.WellNamed (Q : String → Prop) (d : Declaration) : Prop where
  name : Wordlike d.name
  typeName : Wordlike d.provenance.typeName
  package : Q d.provenance.package

theorem Declaration.WellNamed.congr {d e : Declaration} (h : d.WellNamed Q)
    (hname : e.name = d.name) (hprovenance : e.provenance = d.provenance) : e.WellNamed Q :=
  ⟨hname ▸ h.name, hprovenance ▸ h.typeName, hprovenance ▸ h.package⟩

/-- A body that is filled in leaves the name and the provenance. -/
theorem Declaration.wellNamed_fill {found : Findings} (h : ∀ d ∈ found.begun, d.WellNamed Q)
    (slot : Slot) (body : Body) : ∀ d ∈ (found.fill slot body).begun, d.WellNamed Q := by
  intro d hd
  obtain ⟨i, hi⟩ := List.mem_iff_getElem?.mp hd
  rw [Findings.getElem?_begun_fill] at hi
  obtain ⟨e, he, rfl⟩ := Option.map_eq_some_iff.mp hi
  have hold : e.WellNamed Q := h e (List.mem_of_getElem? he)
  split
  · exact hold.congr rfl rfl
  · exact hold

namespace Catalog

variable {c : Catalog} {starts : Starts} {w w' : Walk} {found : Findings} {id : TypeId}
variable {own : Description} {name : String}

theorem wellNamed_interface (hown : own.WellNamed Wordlike Q) (ho : c.types.get? id = some own)
    (hname : Wordlike name) : (c.interface id name).WellNamed Q := by
  have hprovenance : (c.interface id name).provenance = ⟨own.package, own.name.getD name⟩ := by
    simp [interface, provenance, ho]
  refine ⟨hname, ?_, hprovenance ▸ hown.package⟩
  rw [hprovenance]
  cases hn : own.name with
  | none => exact hname
  | some own' => exact hown.name own' hn

section Steps

variable (htypes : c.types.WellNamed Wordlike Q) (hstarts : c.OwnStarts starts)
include htypes

theorem wordlike_contextualName {m : Member} {enclosing : String} (hm : m ∈ own.members)
    (ho : c.types.get? id = some own) (henclosing : Wordlike enclosing) :
    Wordlike (Field.ofMember c.types m enclosing).contextualName := by
  cases hname : c.types.ownName m.ty with
  | some name => simpa [Field.ofMember, hname] using htypes.ownName hname
  | none =>
    have hmember : Wordlike m.name := (htypes own (List.mem_of_getElem? ho)).members m hm
    simpa [Field.ofMember, hname] using wordlike_capitalize_append hmember henclosing

include hstarts

theorem Meets.wellNamed (hfound : ∀ d ∈ w.found.begun, d.WellNamed Q)
    (h : c.Meets starts w id name) : (c.interface id name).WellNamed Q := by
  cases h with
  | start hstart =>
    obtain ⟨own, ho, -, hname⟩ := hstarts.aggregate _ _ hstart
    have hown := htypes own (List.mem_of_getElem? ho)
    exact wellNamed_interface hown ho (hown.name name hname)
  | @member top opened found d m id own hd hu ho ha =>
    have hown := htypes own (List.mem_of_getElem? ho)
    refine wellNamed_interface hown ho ?_
    cases hname : own.name with
    | some name => exact hown.name name hname
    | none =>
      obtain ⟨owner, howner, hm⟩ := hu.mem
      have henclosing : Wordlike d.name := (hfound d (List.mem_of_getElem? hd)).name
      exact wordlike_contextualName htypes hm howner henclosing

theorem MeetsEnumeration.wellNamed {name? package? : Option String} (hnamed : NamedStarts starts)
    (h : c.MeetsEnumeration starts w id name? package?) :
    (c.enumeration id name? package?).WellNamed Q := by
  obtain ⟨own, name, ho, hn, htitles⟩ := h.titled hstarts hnamed
  obtain ⟨hname, hprovenance⟩ := htitles name hn
  have hown := htypes own (List.mem_of_getElem? ho)
  have hword : Wordlike name := hown.name name hn
  exact ⟨hname ▸ hword, hprovenance ▸ hword, hprovenance ▸ hown.package⟩

theorem Step.wellNamed (hnamed : NamedStarts starts) (h : c.Step starts w w')
    (hw : ∀ d ∈ w.found.begun, d.WellNamed Q) : ∀ d ∈ w'.found.begun, d.WellNamed Q := by
  cases h with
  | note e => exact hw
  | enter hf hc hm =>
    exact List.forall_mem_append.mpr
      ⟨hw, List.forall_mem_singleton.mpr (hm.wellNamed htypes hstarts hw)⟩
  | enumerate hf hc hm =>
    exact List.forall_mem_append.mpr
      ⟨hw, List.forall_mem_singleton.mpr (hm.wellNamed htypes hstarts hnamed)⟩
  | @finish top opened d own ht hd ho hs =>
    exact Declaration.wellNamed_fill hw top
      (.interface (c.fieldsOf d.name own.members) (c.basesOf w.found d.name own.members))

/-- All that a walk has declared goes by identifiers. -/
theorem Walks.wellNamed (hnamed : NamedStarts starts) (h : c.Walks starts [] {} found) :
    ∀ d ∈ found.declared, d.WellNamed Q := by
  have hbegun : ∀ d ∈ found.begun, d.WellNamed Q :=
    kept_of_run (P := fun w => ∀ d ∈ w.found.begun, d.WellNamed Q)
      (fun _ _ hs hw => hs.wellNamed htypes hstarts hnamed hw) h.run (by simp)
  exact fun d hd => hbegun d (Findings.mem_begun_of_declared hd)

end Steps

end Catalog

namespace Schema

open Output.TypeScript

/-- The package of one of the files, or none. -/
def PackageOf (files : List File) (package : String) : Prop :=
  package = "" ∨ ∃ file ∈ files, package = file.packagePath

/-- The names in a type set that is loaded are identifiers, and its packages are those of the files,
whatever the sources are. -/
theorem wellNamed_ofSources (sources : List Source) :
    (ofSources sources).types.WellNamed Wordlike (PackageOf (ofSources sources).files) := by
  apply wellNamed_load (.inl rfl)
  intro file hfile
  obtain ⟨r, hr, rfl⟩ := List.mem_map.mp hfile
  obtain ⟨⟨source, i⟩, -, rfl⟩ := List.mem_map.mp hr
  exact ⟨.inr ⟨_, hfile, rfl⟩, wordlike_parse i source.text⟩

/-- Among the tokens is a package header with a string, which says `path`. -/
def QuotesPackage (ts : List Token) (path : String) : Prop :=
  ∃ keyword t, [keyword, t] <:+: ts ∧ keyword.kind = .packageKeyword ∧ t.kind = .string ∧
    path = stringValue t.text

theorem unbroken_separator {text : String} {t : Token} (ht : t ∈ tokens text)
    (hkind : t.kind = .dot ∨ t.kind = .slash) : Unbroken t.text := by
  have hpattern := mem_pattern_of_token ht (by rcases hkind with hk | hk <;> simp [hk])
  have hmark : t.text.toList = ['.'] ∨ t.text.toList = ['/'] := by
    rcases hkind with hk | hk <;> rw [hk] at hpattern
    · exact .inl (mem_singleton.mp hpattern)
    · exact .inr (mem_singleton.mp hpattern)
  rcases hmark with hmark | hmark <;> simp [Unbroken, hmark, IsTerminator]

theorem unbroken_of_pathTokens {text : String} {ts : List Token} (h : PathTokens ts)
    (hts : ts ⊆ tokens text) : Unbroken (String.join (ts.map (·.text))) := by
  induction h with
  | nil => decide
  | @cons separator segment ts hs hn h ih =>
    obtain ⟨hseparator, hmore⟩ := List.cons_subset.mp hts
    obtain ⟨hsegment, hmore⟩ := List.cons_subset.mp hmore
    have hmark := unbroken_separator hseparator hs
    have hword := unbroken_of_wordlike (wordlike_of_token hsegment hn)
    rw [List.map_cons, List.map_cons, String.join_cons, String.join_cons, unbroken_append,
      unbroken_append]
    exact ⟨hmark, hword, ih hmore⟩

/-- A package whose header is read without an error stays on a line, unless it is a string. -/
theorem unbroken_or_quoted {text : String} {package : Option PackageHeader} {items : List Item}
    (h : Written package items (tokens text)) :
    Unbroken (package.elim "" (·.path)) ∨
      QuotesPackage (tokens text) (package.elim "" (·.path)) := by
  generalize hts : tokens text = ts at h
  cases h with
  | bare => exact .inl (by decide)
  | @headed front back header before spelled after hfront hheader hback =>
    have hinfix : spelled <:+: tokens text := hts ▸ ⟨before, after, List.append_assoc _ _ _⟩
    cases hheader with
    | @quoted keyword t span hk ht => exact .inr ⟨keyword, t, hts ▸ hinfix, hk, ht, rfl⟩
    | @dotted keyword first more span hk hf hmore =>
      obtain ⟨-, hpath⟩ := List.cons_subset.mp hinfix.subset
      obtain ⟨hfirst, hrest⟩ := List.cons_subset.mp hpath
      have hword := unbroken_of_wordlike (wordlike_of_token hfirst hf)
      exact .inl (unbroken_append.mpr ⟨hword, unbroken_of_pathTokens hmore hrest⟩)

theorem exists_quoted {sources : List Source} (hvalid : (ofSources sources).isValid)
    {package : String} (hpackage : PackageOf (ofSources sources).files package)
    (hbroken : ¬Unbroken package) :
    ∃ source ∈ sources, QuotesPackage (tokens source.text) package := by
  rcases hpackage with rfl | ⟨file, hfile, rfl⟩
  · exact absurd (by decide) hbroken
  · obtain ⟨r, hr, rfl⟩ := List.mem_map.mp hfile
    obtain ⟨x, hx, rfl⟩ := List.mem_map.mp hr
    obtain ⟨-, hwritten⟩ := written_of_isValid hvalid hx
    have hsource : x.1 ∈ sources := List.fst_mem_of_mem_zipIdx hx
    exact ⟨x.1, hsource, (unbroken_or_quoted hwritten).resolve_left hbroken⟩

/-- In the output of a valid schema the comment with the origin of a declaration stands behind its
documentation. It has its line for itself just where nothing in the package of the declaration ends
a line. The package is that of a file, and if it breaks the line it is the value of a string in the
header of a source. -/
theorem origins_break_by_quoted_packages (sources : List Source) (settings : Settings)
    (roots : List Root) (hvalid : (ofSources sources).isValid)
    (hroots : ∀ root ∈ roots, root ∈ (ofSources sources).roots) :
    let s := ofSources sources
    ∃ r, s.registryFor settings roots = .ok r ∧ ∀ style, ∃ text r',
      r.renderWith (assembler style) = (.ok text, r') ∧
      ∀ earlier d later, r'.declarations = earlier ++ d :: later →
        (∃ rest, text =
            preface style r'.view earlier ++ lead d ++ (originComment d ++ "\n" ++ rest) ∧
          (firstLine (originComment d ++ "\n" ++ rest) = originComment d ↔
            Unbroken d.provenance.package)) ∧
        PackageOf s.files d.provenance.package ∧
        (¬Unbroken d.provenance.package →
          ∃ source ∈ sources, QuotesPackage (tokens source.text) d.provenance.package) := by
  intro s
  obtain ⟨r, hr, hcovers, hwalks, hstarts⟩ := exists_walk hvalid settings hroots
  obtain ⟨-, htyped⟩ := ofSources_sound sources
  have hnamed : Catalog.NamedStarts (startsOf (s.catalog settings) roots) :=
    namedStarts_startsOf fun root hroot => htyped root (hroots root hroot)
  have hdeclared : ∀ d ∈ r.declarations, d.WellNamed (PackageOf s.files) :=
    hwalks.wellNamed (wellNamed_ofSources sources) hstarts hnamed
  refine ⟨r, hr, ?_⟩
  intro style
  refine ⟨_, _, rfl, ?_⟩
  intro earlier d later hsplit
  have hd : d.WellNamed (PackageOf s.files) := by
    obtain ⟨outer, inner, hindented⟩ := r.declarations_indented style.unit
    have hmem : d ∈ (r.indented style.unit).declarations := by
      rw [show (r.indented style.unit).declarations = earlier ++ d :: later from hsplit]
      simp
    rw [hindented] at hmem
    obtain ⟨e, he, rfl⟩ := List.mem_map.mp hmem
    exact (hdeclared e he).congr rfl rfl
  obtain ⟨rest, htext, hline⟩ := exists_origin style (r.indented style.unit).view hsplit
  refine ⟨⟨rest, htext, ?_⟩, hd.package, exists_quoted hvalid hd.package⟩
  exact hline.trans (unbroken_originComment (unbroken_of_wordlike hd.typeName))

/-- A package that is a path of identifiers, and one that is a string without line feeds. -/
def orders : List Source :=
  [⟨.inline, "package shop/v1 struct Order \x7b ID: int \x7d"⟩,
    ⟨.inline, "package \"my shop\" struct Cart \x7b Orders: [v1.Order] \x7d"⟩]

theorem orders_tell_their_origins :
    (ofSources orders).isValid ∧ ∃ r text r', (ofSources orders).registry {} = .ok r ∧
      r.renderWith (assembler {}) = (.ok text, r') ∧
      ∃ d e, r'.declarations = [d, e] ∧ originComment d = "// shop/v1.Order" ∧
        originComment e = "// my shop.Cart" ∧
        ∃ front rest, text = front ++ (originComment e ++ "\n" ++ rest) ∧
          firstLine (originComment e ++ "\n" ++ rest) = originComment e := by
  have hshown : (ofSources orders).isValid ∧ ((ofSources orders).registry {}).toOption.any fun r =>
      (r.renderWith (assembler {})).2.declarations.map (fun d => (originComment d, d.provenance)) =
        [("// shop/v1.Order", ⟨"shop/v1", "Order"⟩), ("// my shop.Cart", ⟨"my shop", "Cart"⟩)] := by
    decide +kernel
  obtain ⟨hvalid, hshown⟩ := hshown
  obtain ⟨r, hr, hshown⟩ := Catalog.exists_eq_ok hshown
  obtain ⟨r', hr', horigins⟩ := origins_break_by_quoted_packages orders {} (ofSources orders).roots
    hvalid fun _ hroot => hroot
  obtain rfl : r' = r := Except.ok.inj (hr'.symm.trans hr)
  obtain ⟨text, rendered, hrendered, hsplit⟩ := horigins {}
  have hdeclared := of_decide_eq_true hshown
  rw [hrendered] at hdeclared
  obtain ⟨d, more, hd, horder, hmore⟩ := List.map_eq_cons_iff.mp hdeclared
  obtain ⟨e, none, rfl, hcart, hnone⟩ := List.map_eq_cons_iff.mp hmore
  obtain rfl := List.map_eq_nil_iff.mp hnone
  obtain ⟨horder, -⟩ := Prod.mk.inj horder
  obtain ⟨hcart, hprovenance⟩ := Prod.mk.inj hcart
  obtain ⟨⟨rest, htext, hline⟩, -⟩ := hsplit [d] e [] hd
  have hunbroken : Unbroken e.provenance.package := by
    rw [hprovenance]
    decide
  exact ⟨hvalid, r', text, rendered, hr, hrendered, d, e, hd, horder, hcart, _, rest, htext,
    hline.mpr hunbroken⟩

/-- A package that is a string with a line feed and an export behind it. -/
def smuggled : List Source :=
  [⟨.inline, "package \"a\\nexport type Evil = any;//\" struct S \x7b \x7d"⟩]

/-- The comment of a declaration ends at a line feed in its package, and the rest of the package is
code. -/
theorem package_leaves_its_comment :
    (ofSources smuggled).isValid ∧ ∃ r, (ofSources smuggled).registry {} = .ok r ∧
      r.declarations.map originComment = ["// a\nexport type Evil = any;//.S"] ∧
      (r.renderWith (assembler {})).1.toOption = some
        ("// Code generated by typemirror. DO NOT EDIT.\n\n" ++
          "// a\nexport type Evil = any;//.S\nexport interface S \x7b\x7d\n") ∧
      firstLine "// a\nexport type Evil = any;//.S\nexport interface S \x7b\x7d\n" = "// a" := by
  have hshown : (ofSources smuggled).isValid ∧ ((ofSources smuggled).registry {}).toOption.any
      fun r => r.declarations.map originComment = ["// a\nexport type Evil = any;//.S"] ∧
        (r.renderWith (assembler {})).1.toOption = some
          ("// Code generated by typemirror. DO NOT EDIT.\n\n" ++
            "// a\nexport type Evil = any;//.S\nexport interface S \x7b\x7d\n") := by
    decide +kernel
  obtain ⟨hvalid, hshown⟩ := hshown
  obtain ⟨r, hr, hshown⟩ := Catalog.exists_eq_ok hshown
  obtain ⟨horigins, htext⟩ := of_decide_eq_true hshown
  exact ⟨hvalid, r, hr, horigins, htext, by decide⟩

end Schema

end TypeGraph
