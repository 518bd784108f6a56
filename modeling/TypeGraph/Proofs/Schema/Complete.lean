import TypeGraph.Proofs.Schema.Accepting
import TypeGraph.Proofs.Schema.Spelling
/-!
Printing and reading. The reader takes the words of a printable tree and answers the tree, so the
text of a tree is read without a diagnostic as the tree that was printed.
-/

namespace TypeGraph.Schema

namespace Parser

open Reading

variable {N : List Word → Prop} {type : Parser TypeExpr}

theorem accepts_get {N : List Word → Prop} : Accepts get [] N fun _ => True :=
  fun r _ hr _ => ⟨r, r, rfl, trivial, hr, .refl r⟩

theorem accepts_finish {P : TypeExpr → Prop} (start : Nat) {make : Span → TypeExpr}
    (h : ∀ span, P (make span)) : Accepts (finish start make) [] N P := by
  unfold finish
  exact accepts_get.done fun _ _ => .pure (h _)

theorem accepts_string (s : String) : Accepts (eat .string) [.literal (some (.string s))] Anything
    fun t? => ∃ t, t? = some t ∧ stringValue t.text = s := by
  apply (accepts_eat rfl).imp
  rintro t? ⟨t, rfl, hw⟩
  exact ⟨t, rfl, Token.value_of_word hw⟩

theorem accepts_renameArgument (s : String) :
    Accepts renameArgument (AttributeKind.rename s).arguments Anything fun s? => s? = some s := by
  unfold renameArgument
  refine (accepts_expect rfl).step fun t? ht => ?_
  obtain ⟨t, rfl, -⟩ := ht
  refine (accepts_string s).step fun t? ht => ?_
  obtain ⟨t, rfl, hs⟩ := ht
  refine (accepts_expect rfl).step fun t? ht => ?_
  obtain ⟨t', rfl, -⟩ := ht
  exact .pure (congrArg some hs)

theorem accepts_attributeKind {word : Name} {kind : AttributeKind} (hword : word.text = kind.word) :
    Accepts (attributeKind word) kind.arguments Anything fun kind? => kind? = some kind := by
  unfold attributeKind
  rw [hword]
  cases kind with
  | skip => exact .pure rfl
  | optional => exact .pure rfl
  | rename s =>
    refine (accepts_renameArgument s).done fun s? hs => ?_
    subst hs
    exact .pure rfl

theorem accepts_attributes (attributes : List Attribute) :
    Accepts Parser.attributes (attributes.flatMap Attribute.words) (Not .atSign) fun found =>
      found.map Attribute.bare = attributes.map Attribute.bare := by
  unfold Parser.attributes
  refine (accepts_collect_all (M := Anything) (F := fun a b => a.bare = b.bare)
    ?_ ?_ ?_ ?_).imp fun _ h => map_eq_of_forall₂ h
  · intro a _
    refine (accepts_eat rfl).step fun t? ht => ?_
    obtain ⟨t, rfl, -⟩ := ht
    refine (accepts_name a.kind.word).step fun n? hn => ?_
    obtain ⟨n, rfl, hn⟩ := hn
    refine (accepts_attributeKind hn).done fun kind? hkind => ?_
    subst hkind
    exact accepts_get.look (fun _ _ => .pure ⟨_, rfl, rfl⟩) fun _ h => h
  · refine accepts_eat_none.done fun t? ht => ?_
    subst ht
    exact .pure rfl
  · exact fun _ _ => List.cons_ne_nil _ _
  · exact fun _ _ _ _ => trivial

theorem accepts_literal {v : Literal} : Accepts literal [.literal (some v)] Anything fun found? =>
    ∃ span, found? = some (v, span) := by
  unfold literal
  refine accepts_current fun t hw hk => ?_
  obtain ⟨kind, text, span⟩ := t
  cases kind with
  | string =>
    have hv : Literal.string (stringValue text) = v := by simpa [Token.word] using hw
    exact accepts_bump.done fun _ _ => .pure ⟨span, by rw [hv]⟩
  | integer =>
    have hv : integerLiteral text = some v := by simpa [Token.word] using hw
    simp only [hv]
    exact accepts_bump.done fun _ _ => .pure ⟨span, rfl⟩
  | float =>
    have hv : (Binary64.ofText? text).map Literal.float = some v := by
      simpa [Token.word] using hw
    obtain ⟨value, hvalue, rfl⟩ := Option.map_eq_some_iff.mp hv
    simp only [hvalue]
    exact accepts_bump.done fun _ _ => .pure ⟨span, rfl⟩
  | _ => simp [Token.word] at hw

/-- Reads the expression `x`, unless a point follows. -/
def AcceptsType (type : Parser TypeExpr) (x : TypeExpr) : Prop :=
  Accepts type x.words (Not .dot) fun y => y.bare = x.bare

/-- Neither a point nor an attribute follows. -/
def Ends : List Word → Prop :=
  fun us => Not .dot us ∧ Not .atSign us

theorem not_dot_attributes {attributes : List Attribute} {us : List Word} (hus : Not .dot us) :
    Not .dot (attributes.flatMap Attribute.words ++ us) := by
  cases attributes with
  | nil => exact hus
  | cons a attributes =>
    intro w hw
    obtain rfl := Option.some.inj hw
    exact (by decide : TokenKind.atSign ≠ .dot)

theorem referredName_bare (x : TypeExpr) : x.bare.referredName = x.referredName := by
  induction x using TypeExpr.referredName.induct with
  | case1 package name span => rw [TypeExpr.bare, TypeExpr.referredName, TypeExpr.referredName]
  | case2 target span ih => rw [TypeExpr.bare, TypeExpr.referredName, TypeExpr.referredName, ih]
  | case3 x hreference hpointer =>
    cases x with
    | reference package name span => exact absurd rfl (hreference package name span)
    | pointer target span => exact absurd rfl (hpointer target span)
    | _ => rw [TypeExpr.bare, TypeExpr.referredName, TypeExpr.referredName] <;> simp

theorem accepts_member {x : TypeExpr} (htype : AcceptsType type x) (name : String)
    (attributes : List Attribute) (doc : Option String) :
    Accepts (member type doc)
      (.name name :: .mark .colon :: (x.words ++ attributes.flatMap Attribute.words)) Ends
      fun m? => ∃ m, m? = some m ∧
        m.bare = ⟨⟨name, default⟩, x.bare, false, attributes.map Attribute.bare, doc⟩ := by
  unfold member
  refine (accepts_name name).step fun n? hn => ?_
  obtain ⟨n, rfl, hn⟩ := hn
  refine (accepts_expect rfl).step fun t? ht => ?_
  obtain ⟨t, rfl, -⟩ := ht
  refine htype.bind (fun y hy => ?_) fun us hus => not_dot_attributes hus.1
  refine ((accepts_attributes attributes).before fun us hus => hus.2).done fun found hfound => ?_
  refine .pure ⟨_, rfl, ?_⟩
  rw [MemberDef.bare, hy, hfound, Name.bare, hn]

theorem accepts_embedded {x : TypeExpr} (htype : AcceptsType type x) {name : String}
    (hname : x.referredName = some name) (attributes : List Attribute) (doc : Option String) :
    Accepts (embedded type doc)
      (.mark .dotDot :: (x.words ++ attributes.flatMap Attribute.words)) Ends
      fun m? => ∃ m, m? = some m ∧
        m.bare = ⟨⟨name, default⟩, x.bare, true, attributes.map Attribute.bare, doc⟩ := by
  unfold embedded
  refine accepts_bump.step fun _ _ => ?_
  refine htype.bind (fun y hy => ?_) fun us hus => not_dot_attributes hus.1
  have hreferred : y.referredName = some name := by
    rw [← referredName_bare, hy, referredName_bare, hname]
  have hhole : ¬y.isHole := by
    intro hhole
    cases y <;> simp [TypeExpr.isHole, TypeExpr.referredName] at hhole hreferred
  rw [if_neg hhole, hreferred]
  refine ((accepts_attributes attributes).before fun us hus => hus.2).done fun found hfound => ?_
  refine .pure ⟨_, rfl, ?_⟩
  rw [MemberDef.bare, hy, hfound]
  rfl

/-- The word that a member begins with, after its documentation. -/
def firstWord (m : MemberDef TypeExpr) : Word :=
  if m.embedded then .mark .dotDot else .name m.name.text

def moreWords (m : MemberDef TypeExpr) : List Word :=
  if m.embedded then m.type.words ++ m.attributes.flatMap Attribute.words
  else .mark .colon :: (m.type.words ++ m.attributes.flatMap Attribute.words)

theorem kind_firstWord (m : MemberDef TypeExpr) :
    (firstWord m).kind = .dotDot ∨ (firstWord m).kind = .identifier := by
  unfold firstWord
  cases m.embedded with
  | true => exact .inl rfl
  | false => exact .inr rfl

theorem words_eq_first (m : MemberDef TypeExpr) :
    m.words = docWords m.doc ++ firstWord m :: moreWords m := by
  obtain ⟨name, x, embedded, attributes, doc⟩ := m
  cases embedded <;> rfl

theorem accepts_members {ms : List (MemberDef TypeExpr)} (hms : ∀ m ∈ ms, m.Printable)
    (htype : ∀ m ∈ ms, AcceptsType type m.type) :
    Accepts (members type) (.mark .leftBrace :: (memberWords ms ++ [.mark .rightBrace])) Anything
      fun found => found.map MemberDef.bare = ms.map MemberDef.bare := by
  unfold members
  refine (accepts_expect rfl).step fun t? ht => ?_
  obtain ⟨t, rfl, -⟩ := ht
  have hwords : memberWords ms =
      ms.flatMap fun m => docWords m.doc ++ firstWord m :: moreWords m := by
    rw [memberWords_eq_flatMap]
    exact congrArg (ms.flatMap ·) (funext words_eq_first)
  rw [hwords]
  refine (accepts_block MemberDef.doc firstWord moreWords (N := Ends)
    (F := fun a m => a.bare = m.bare) ?_ ?_ ?_).imp fun _ h => map_eq_of_forall₂ h
  · intro m _
    rcases kind_firstWord m with h | h
    · exact h ▸ opens_dotDot
    · exact h ▸ opens_identifier
  · intro m hm
    obtain ⟨name, x, embedded, attributes, doc⟩ := m
    have hx : AcceptsType type x := htype _ hm
    cases embedded with
    | true =>
      have hname : x.referredName = some name.text := (hms _ hm).name
      refine ⟨_, rfl, (accepts_embedded hx hname attributes doc).done fun m? hm => ?_⟩
      obtain ⟨m, rfl, hm⟩ := hm
      exact .pure ⟨m, rfl, hm⟩
    | false =>
      refine ⟨_, rfl, (accepts_member hx name.text attributes doc).done fun m? hm => ?_⟩
      obtain ⟨m, rfl, hm⟩ := hm
      exact .pure ⟨m, rfl, hm⟩
  · intro ys us _
    have hnot (kind : TokenKind) (hdoc : kind ≠ .docComment) (hdots : kind ≠ .dotDot)
        (hname : kind ≠ .identifier) (hbrace : kind ≠ .rightBrace) :
        Not kind (ys.flatMap (fun m => docWords m.doc ++ firstWord m :: moreWords m) ++
          .mark .rightBrace :: us) := by
      apply not_entries hdoc
      · intro y _ heq
        rcases kind_firstWord y with h | h
        · exact hdots (heq.symm.trans h)
        · exact hname (heq.symm.trans h)
      · intro w hw
        obtain rfl := Option.some.inj hw
        exact hbrace.symm
    exact ⟨hnot _ (by decide) (by decide) (by decide) (by decide),
      hnot _ (by decide) (by decide) (by decide) (by decide)⟩

theorem accepts_named_word (start : Nat) (text : String) :
    Accepts (named start text) [] (Not .dot) fun y => y.bare =
      (Scalar.ofKeyword? text).elim (.reference none text default) (.scalar · default) := by
  unfold named
  refine accepts_eat_none.done fun t? ht => ?_
  subst ht
  cases Scalar.ofKeyword? text with
  | some kind =>
    apply accepts_finish
    intro span
    rw [TypeExpr.bare, Option.elim_some]
  | none =>
    apply accepts_finish
    intro span
    rw [TypeExpr.bare, Option.elim_none]

theorem accepts_named_qualified (start : Nat) (package name : String) :
    Accepts (named start package) [.mark .dot, .name name] (Not .dot) fun y =>
      y.bare = .reference (some package) name default := by
  unfold named
  refine (accepts_eat rfl).step fun t? ht => ?_
  obtain ⟨t, rfl, -⟩ := ht
  refine (accepts_name name).step fun n? hn => ?_
  obtain ⟨n, rfl, rfl⟩ := hn
  apply accepts_finish
  intro span
  rw [TypeExpr.bare]

theorem not_nil {kind : TokenKind} : Not kind [] := by
  simp [Not]

theorem not_mark {kind other : TokenKind} {us : List Word} (h : other ≠ kind) :
    Not kind (.mark other :: us) := by
  intro w hw
  obtain rfl := Option.some.inj hw
  exact h

theorem one_le_depth (x : TypeExpr) : 1 ≤ x.depth := by
  cases x <;> simp [TypeExpr.depth]

theorem depth_le_membersDepth {ms : List (MemberDef TypeExpr)} {m : MemberDef TypeExpr}
    (h : m ∈ ms) : m.type.depth ≤ membersDepth ms := by
  induction ms with
  | nil => exact absurd h List.not_mem_nil
  | cons m' ms ih =>
    rw [membersDepth]
    rcases List.mem_cons.mp h with rfl | h
    · exact Nat.le_max_left _ _
    · exact Nat.le_trans (ih h) (Nat.le_max_right _ _)

/-- Reads the rest of the expression `x` after its first word, unless a point follows. -/
def AcceptsFrom (first : Word) (m : Parser TypeExpr) (x : TypeExpr) : Prop :=
  ∃ ws, x.words = first :: ws ∧ Accepts m ws (Not .dot) fun y => y.bare = x.bare

theorem accepts_scalar (start : Nat) (kind : Scalar) (span : Span) :
    AcceptsFrom (.name kind.keyword) (named start kind.keyword) (.scalar kind span) := by
  refine ⟨[], by rw [TypeExpr.words], ?_⟩
  apply (accepts_named_word start kind.keyword).imp
  intro y hy
  rw [hy, Scalar.ofKeyword?_keyword, Option.elim_some, TypeExpr.bare]

theorem accepts_reference (start : Nat) {name : String} (hname : Scalar.ofKeyword? name = none)
    (span : Span) :
    AcceptsFrom (.name name) (named start name) (.reference none name span) := by
  refine ⟨[], by rw [TypeExpr.words], ?_⟩
  apply (accepts_named_word start name).imp
  intro y hy
  rw [hy, hname, Option.elim_none, TypeExpr.bare]

theorem accepts_qualified (start : Nat) (package name : String) (span : Span) :
    AcceptsFrom (.name package) (named start package) (.reference (some package) name span) := by
  refine ⟨[.mark .dot, .name name], by rw [TypeExpr.words], ?_⟩
  rw [TypeExpr.bare]
  exact accepts_named_qualified start package name

theorem accepts_pointer {target : TypeExpr} (htarget : AcceptsType type target) (start : Nat)
    (span : Span) :
    AcceptsFrom (.mark .star) (do
      let target ← type
      finish start (.pointer target)) (.pointer target span) := by
  refine ⟨target.words, by rw [TypeExpr.words], ?_⟩
  refine htarget.done fun y hy => ?_
  apply accepts_finish
  intro span
  rw [TypeExpr.bare, TypeExpr.bare, hy]

theorem accepts_sequence {element : TypeExpr} (helement : AcceptsType type element) (start : Nat)
    (span : Span) :
    AcceptsFrom (.mark .leftBracket) (do
      let element ← type
      let _ ← expect .rightBracket
      finish start (.sequence element)) (.sequence element span) := by
  refine ⟨element.words ++ [.mark .rightBracket], by rw [TypeExpr.words], ?_⟩
  refine helement.bind (fun y hy => ?_) fun us _ => not_mark (by decide)
  refine (accepts_expect rfl).step fun t? _ => ?_
  apply accepts_finish
  intro span
  rw [TypeExpr.bare, TypeExpr.bare, hy]

theorem accepts_map {key value : TypeExpr} (hkey : AcceptsType type key)
    (hvalue : AcceptsType type value) (start : Nat) (span : Span) :
    AcceptsFrom (.mark .leftBrace) (do
      let key ← type
      let _ ← expect .colon
      let value ← type
      let _ ← expect .rightBrace
      finish start (.map key value)) (.map key value span) := by
  refine ⟨key.words ++ .mark .colon :: (value.words ++ [.mark .rightBrace]),
    by rw [TypeExpr.words], ?_⟩
  refine hkey.bind (fun k hk => ?_) fun us _ => not_mark (by decide)
  refine (accepts_expect rfl).step fun t? _ => ?_
  refine hvalue.bind (fun v hv => ?_) fun us _ => not_mark (by decide)
  refine (accepts_expect rfl).step fun t? _ => ?_
  apply accepts_finish
  intro span
  rw [TypeExpr.bare, TypeExpr.bare, hk, hv]

theorem accepts_record {ms : List (MemberDef TypeExpr)} (hms : ∀ m ∈ ms, m.Printable)
    (htypes : ∀ m ∈ ms, AcceptsType type m.type) (start : Nat) (span : Span) :
    AcceptsFrom (.mark .structKeyword) (do
      let members ← members type
      finish start (.record members)) (.record ms span) := by
  refine ⟨.mark .leftBrace :: (memberWords ms ++ [.mark .rightBrace]), by rw [TypeExpr.words], ?_⟩
  refine ((accepts_members hms htypes).before fun _ _ => trivial).done fun found hfound => ?_
  apply accepts_finish
  intro span
  rw [TypeExpr.bare, TypeExpr.bare, bareMembers_eq_map, bareMembers_eq_map, hfound]

theorem accepts_type (depth : Nat) (x : TypeExpr) (hx : ∀ y, Within y x → y.PrintableAt)
    (hdepth : x.depth ≤ depth) : AcceptsType (Parser.type depth) x := by
  induction depth generalizing x with
  | zero =>
    have hpos := one_le_depth x
    omega
  | succ depth ih =>
    unfold AcceptsType Parser.type
    refine accepts_currentSpan.look (N := Anything) (fun span _ => ?_) fun _ _ => trivial
    cases x with
    | scalar kind span' =>
      obtain ⟨ws, hws, hrest⟩ := accepts_scalar span.start kind span'
      rw [hws]
      refine accepts_current fun t hw hk => ?_
      simp only [hk, Word.kind, Token.text_of_word hw]
      exact accepts_bump.step fun _ _ => hrest
    | reference package name span' =>
      have hname := forall_within_reference.mp hx
      cases package with
      | none =>
        obtain ⟨ws, hws, hrest⟩ := accepts_reference span.start hname.2 span'
        rw [hws]
        refine accepts_current fun t hw hk => ?_
        simp only [hk, Word.kind, Token.text_of_word hw]
        exact accepts_bump.step fun _ _ => hrest
      | some package =>
        obtain ⟨ws, hws, hrest⟩ := accepts_qualified span.start package name span'
        rw [hws]
        refine accepts_current fun t hw hk => ?_
        simp only [hk, Word.kind, Token.text_of_word hw]
        exact accepts_bump.step fun _ _ => hrest
    | pointer target span' =>
      rw [TypeExpr.depth] at hdepth
      have htarget := ih target (forall_within_pointer.mp hx).2 (by omega)
      obtain ⟨ws, hws, hrest⟩ := accepts_pointer htarget span.start span'
      rw [hws]
      refine accepts_current fun t hw hk => ?_
      simp only [hk, Word.kind]
      exact accepts_bump.step fun _ _ => hrest
    | sequence element span' =>
      rw [TypeExpr.depth] at hdepth
      have helement := ih element (forall_within_sequence.mp hx).2 (by omega)
      obtain ⟨ws, hws, hrest⟩ := accepts_sequence helement span.start span'
      rw [hws]
      refine accepts_current fun t hw hk => ?_
      simp only [hk, Word.kind]
      exact accepts_bump.step fun _ _ => hrest
    | map key value span' =>
      rw [TypeExpr.depth] at hdepth
      obtain ⟨-, hkey, hvalue⟩ := forall_within_map.mp hx
      have hkey := ih key hkey (by omega)
      have hvalue := ih value hvalue (by omega)
      obtain ⟨ws, hws, hrest⟩ := accepts_map hkey hvalue span.start span'
      rw [hws]
      refine accepts_current fun t hw hk => ?_
      simp only [hk, Word.kind]
      exact accepts_bump.step fun _ _ => hrest
    | record ms span' =>
      rw [TypeExpr.depth] at hdepth
      obtain ⟨hms, hparts⟩ := forall_within_record.mp hx
      have htypes : ∀ m ∈ ms, AcceptsType (Parser.type depth) m.type := by
        intro m hm
        have hle := depth_le_membersDepth hm
        exact ih m.type (hparts m hm) (by omega)
      obtain ⟨ws, hws, hrest⟩ := accepts_record hms htypes span.start span'
      rw [hws]
      refine accepts_current fun t hw hk => ?_
      simp only [hk, Word.kind]
      exact accepts_bump.step fun _ _ => hrest
    | hole span => exact (forall_within_hole.mp hx).elim

theorem accepts_variant (v : Variant) :
    Accepts (variant v.doc) [.name v.name.text, .mark .equals, .literal (some v.value)] Anything
      fun found? => ∃ found, found? = some found ∧ found.bare = v.bare := by
  unfold variant
  refine (accepts_name v.name.text).step fun n? hn => ?_
  obtain ⟨n, rfl, hn⟩ := hn
  refine (accepts_expect rfl).step fun t? ht => ?_
  obtain ⟨t, rfl, -⟩ := ht
  refine accepts_literal.done fun value? hvalue => ?_
  obtain ⟨span, rfl⟩ := hvalue
  refine .pure ⟨_, rfl, ?_⟩
  rw [Variant.bare, Variant.bare, Name.bare, Name.bare, hn]

theorem accepts_variants (vs : List Variant) :
    Accepts variants (.mark .leftBrace :: (vs.flatMap Variant.words ++ [.mark .rightBrace]))
      Anything fun found => found.map Variant.bare = vs.map Variant.bare := by
  unfold variants
  refine (accepts_expect rfl).step fun t? ht => ?_
  obtain ⟨t, rfl, -⟩ := ht
  refine (accepts_block Variant.doc (fun v => .name v.name.text)
    (fun v => [.mark .equals, .literal (some v.value)]) (N := Anything)
    (F := fun (a : Variant) v => a.bare = v.bare) ?_ ?_ ?_).imp
    fun _ h => map_eq_of_forall₂ h
  · exact fun _ _ => opens_identifier
  · intro v _
    refine ⟨_, rfl, (accepts_variant v).done fun found? hfound => ?_⟩
    obtain ⟨found, rfl, hfound⟩ := hfound
    exact .pure ⟨found, rfl, hfound⟩
  · exact fun _ _ _ => trivial

/-- Reads an item from its keyword on, unless a point follows. -/
def AcceptsItem (m : Parser (Option Item)) (ws : List Word) (item : Item) : Prop :=
  Accepts m ws (Not .dot) fun found? => ∃ found, found? = some found ∧ found.bare = item.bare

theorem accepts_structItem {d : StructDef} (hd : d.Printable) :
    AcceptsItem (structItem d.doc) (.mark .structKeyword :: .name d.name.text ::
      .mark .leftBrace :: (d.members.flatMap MemberDef.words ++ [.mark .rightBrace]))
      (.struct d) := by
  unfold AcceptsItem structItem
  refine accepts_bump.step fun _ _ => (accepts_name d.name.text).step fun n? hn => ?_
  obtain ⟨n, rfl, hn⟩ := hn
  have htypes : ∀ m ∈ d.members, AcceptsType (Parser.type maxDepth) m.type := by
    intro m hm
    have hm := (hd.members m hm).2
    exact accepts_type maxDepth m.type hm.parts hm.depth
  have hms := accepts_members (fun m hm => (hd.members m hm).1) htypes
  rw [memberWords_eq_flatMap] at hms
  refine (hms.before fun _ _ => trivial).done fun found hfound => ?_
  refine .pure ⟨_, rfl, ?_⟩
  rw [Item.bare, Item.bare, Name.bare, Name.bare, hn, hfound]

theorem accepts_enumItem (d : EnumDef) :
    AcceptsItem (enumItem d.doc) (.mark .enumKeyword :: .name d.name.text :: .mark .colon ::
      .name d.base.text :: .mark .leftBrace :: (d.variants.flatMap Variant.words ++
        [.mark .rightBrace])) (.enum d) := by
  unfold AcceptsItem enumItem
  refine accepts_bump.step fun _ _ => (accepts_name d.name.text).step fun n? hn => ?_
  obtain ⟨n, rfl, hn⟩ := hn
  refine (accepts_expect rfl).step fun t? ht => ?_
  obtain ⟨t, rfl, -⟩ := ht
  refine (accepts_name d.base.text).step fun base? hbase => ?_
  obtain ⟨base, rfl, hbase⟩ := hbase
  refine ((accepts_variants d.variants).before fun _ _ => trivial).done fun found hfound => ?_
  refine .pure ⟨_, rfl, ?_⟩
  rw [Item.bare, Item.bare, Name.bare, Name.bare, Name.bare, Name.bare, hn, hbase, hfound]

theorem accepts_synonymItem {d : SynonymDef} (hd : d.Printable) :
    AcceptsItem (synonymItem d.doc)
      (.mark .aliasKeyword :: .name d.name.text :: .mark .equals :: d.target.words)
      (.synonym d) := by
  unfold AcceptsItem synonymItem
  refine accepts_bump.step fun _ _ => (accepts_name d.name.text).step fun n? hn => ?_
  obtain ⟨n, rfl, hn⟩ := hn
  refine (accepts_expect rfl).step fun t? ht => ?_
  obtain ⟨t, rfl, -⟩ := ht
  have htarget := accepts_type maxDepth d.target hd.target.parts hd.target.depth
  refine Accepts.done htarget fun x hx => .pure ⟨_, rfl, ?_⟩
  rw [Item.bare, Item.bare, Name.bare, Name.bare, hn, hx]

theorem accepts_packageHeader (path : String) :
    Accepts packageHeader [.mark .packageKeyword, .literal (some (.string path))] Anything
      fun header? => ∃ header, header? = some header ∧ header.path = path := by
  unfold packageHeader
  refine accepts_bump.step fun start _ => (accepts_string path).done fun t? ht => ?_
  obtain ⟨t, rfl, hpath⟩ := ht
  exact .pure ⟨_, rfl, hpath⟩

theorem package_of_faces {r : Reading} {path : String} {us : List Word}
    (hr : r.Faces (.mark .packageKeyword :: .literal (some (.string path)) :: us))
    (hnone : r.package = none) : ∃ header r', package r = ((), r') ∧ header.path = path ∧
      r'.Faces us ∧ r'.package = some header ∧ r'.diagnostics = r.diagnostics := by
  obtain ⟨header?, s, hrun, ⟨header, rfl, hpath⟩, hs, hk⟩ :=
    accepts_packageHeader path r us hr trivial
  refine ⟨header, { s with package := some header }, ?_, hpath,
    ⟨hs.words, hs.readable⟩, rfl, hk.diagnostics⟩
  have hnone : s.package = none := hk.package.trans hnone
  rw [package, run_bind, hrun]
  simp only
  rw [keepHeader, run_bind, run_get]
  simp only [hnone]
  rfl

/-- One round of `items` reads one item. -/
theorem accepts_itemRound {item : Item} (hitem : item.Printable) :
    Accepts itemRound item.words (Not .dot) fun out =>
      ∃ found, out = ([found], true) ∧ found.bare = item.bare := by
  have read {m : Parser (Option Item)} {ws : List Word} (hm : AcceptsItem m ws item) :
      Accepts (do return ((← m).toList, true)) ws (Not .dot) fun out =>
        ∃ found, out = ([found], true) ∧ found.bare = item.bare := by
    refine hm.done fun found? hfound => ?_
    obtain ⟨found, rfl, hfound⟩ := hfound
    exact .pure ⟨found, rfl, hfound⟩
  cases item with
  | struct d =>
    simp only [Item.words, List.append_assoc, List.cons_append, List.nil_append]
    refine (accepts_docs d.doc).bind (fun doc hdoc => ?_) fun us _ => not_mark (by decide)
    subst hdoc
    exact accepts_currentKind (read (accepts_structItem hitem))
  | enum d =>
    simp only [Item.words, List.append_assoc, List.cons_append, List.nil_append]
    refine (accepts_docs d.doc).bind (fun doc hdoc => ?_) fun us _ => not_mark (by decide)
    subst hdoc
    exact accepts_currentKind (read (accepts_enumItem d))
  | synonym d =>
    simp only [Item.words, List.append_assoc, List.cons_append, List.nil_append]
    refine (accepts_docs d.doc).bind (fun doc hdoc => ?_) fun us _ => not_mark (by decide)
    subst hdoc
    exact accepts_currentKind (read (accepts_synonymItem hitem))

/-- The round at a package header keeps it. -/
theorem itemRound_of_header {r : Reading} {path : String} {us : List Word}
    (hnone : r.package = none)
    (hr : r.Faces (.mark .packageKeyword :: .literal (some (.string path)) :: us)) :
    ∃ header r', itemRound r = (([], true), r') ∧ header.path = path ∧ r'.Faces us ∧
      r'.package = some header ∧ r'.diagnostics = r.diagnostics := by
  obtain ⟨doc, s, hdocs, rfl, hs, hk⟩ := accepts_docs none r _ hr (not_mark (by decide))
  obtain ⟨header, r', hrun, hheader⟩ := package_of_faces hs (hk.package.trans hnone)
  refine ⟨header, r', ?_, hheader.1, hheader.2.1, hheader.2.2.1, ?_⟩
  · rw [itemRound, run_bind, hdocs]
    simp only
    rw [run_bind, currentKind_of_faces hs]
    simp only [List.head?_cons, Option.map_some, Word.kind]
    rw [run_bind, hrun]
    rfl
  · exact hheader.2.2.2.trans hk.diagnostics

/-- The last round stops at the end of the text. -/
theorem accepts_itemRound_nil : Accepts itemRound [] (· = []) fun out => out = ([], false) := by
  intro r us hr hus
  subst hus
  obtain ⟨doc, s, hdocs, rfl, hs, hk⟩ := accepts_docs none r _ hr not_nil
  refine ⟨_, s, ?_, rfl, hs, hk⟩
  rw [itemRound, run_bind, hdocs]
  simp only
  rw [run_bind, currentKind_of_faces hs]
  rfl

theorem not_dot_items (items : List Item) : Not .dot (items.flatMap Item.words) := by
  cases items with
  | nil => exact not_nil
  | cons item items =>
    have hdoc (doc : Option String) : ∀ w ∈ docWords doc, w.kind ≠ .dot := by
      intro w hw
      rw [kind_of_mem_docWords hw]
      decide
    rw [List.flatMap_cons]
    cases item <;> simp only [Item.words, List.append_assoc, List.cons_append, List.nil_append] <;>
      exact not_append (hdoc _) (not_mark (by decide))

theorem items_of_faces {file : File} (hfile : file.Printable) {r : Reading}
    (hr : r.Faces file.words) (hnone : r.package = none) :
    ∃ found r', items r = (found, r') ∧ found.map Item.bare = file.items.map Item.bare ∧
      r'.package.map PackageHeader.bare = file.package.map PackageHeader.bare ∧
      r'.diagnostics = r.diagnostics := by
  have hall {s : Reading} (hs : s.Faces (file.items.flatMap Item.words)) :
      ∃ found r', items s = (found, r') ∧
        found.map Item.bare = file.items.map Item.bare ∧ s.Keeps r' := by
    have hcollect := accepts_collect_all (fun item h => accepts_itemRound (hfile item h))
      accepts_itemRound_nil
      (fun item _ hnil => item.words_ne_nil (by rw [hnil]; rfl))
      (fun ys us _ hus => by
        rw [hus, List.append_nil]
        exact not_dot_items ys)
    obtain ⟨found, r', hrun, hfound, -, hk⟩ := hcollect s [] (by rwa [List.append_nil]) rfl
    exact ⟨found, r', hrun, map_eq_of_forall₂ hfound, hk⟩
  unfold File.words at hr
  cases hpackage : file.package with
  | none =>
    rw [hpackage] at hr
    obtain ⟨found, r', hrun, hfound, hk⟩ := hall hr
    refine ⟨found, r', hrun, hfound, ?_, hk.diagnostics⟩
    rw [hk.package, hnone]
  | some header =>
    rw [hpackage] at hr
    obtain ⟨header', s, hrun, hpath, hs, hsome, hdiagnostics⟩ := itemRound_of_header hnone hr
    obtain ⟨found, r', hrest, hfound, hk⟩ := hall hs
    have hlt : s.rest.length < r.rest.length := by
      rw [hs.length, hr.length, List.length_append]
      exact Nat.lt_add_of_pos_left (Nat.zero_lt_succ 1)
    refine ⟨found, r', ?_, hfound, ?_, hk.diagnostics.trans hdiagnostics⟩
    · rw [items] at hrest
      rw [items, collect, hrun]
      simp only [hlt, and_self, if_true, hrest]
      rfl
    · rw [hk.package, hsome, Option.map_some, Option.map_some, PackageHeader.bare,
        PackageHeader.bare, hpath]

end Parser

section Readable

theorem readable_doc (doc : Option String) : (docWords doc).all Word.readable := by
  rw [List.all_eq_true]
  intro w hw
  cases doc with
  | none => exact absurd hw List.not_mem_nil
  | some text =>
    obtain ⟨line, -, rfl⟩ := List.mem_map.mp hw
    rfl

theorem readable_attributes (as : List Attribute) :
    (as.flatMap Attribute.words).all Word.readable := by
  rw [List.all_flatMap, List.all_eq_true]
  intro a _
  cases hkind : a.kind <;> simp [Attribute.words, hkind, AttributeKind.arguments, Word.readable]

theorem readable_lead (name : String) (embedded : Bool) :
    (leadWords name embedded).all Word.readable := by
  cases embedded <;> rfl

mutual

theorem readable_type : ∀ x : TypeExpr, x.words.all Word.readable
  | .scalar kind _ => by simp [TypeExpr.words, Word.readable]
  | .reference none name _ => by simp [TypeExpr.words, Word.readable]
  | .reference (some package) name _ => by simp [TypeExpr.words, Word.readable]
  | .pointer target _ => by
    have htarget := readable_type target
    simpa [TypeExpr.words, Word.readable] using htarget
  | .sequence element _ => by
    have helement := readable_type element
    simpa [TypeExpr.words, Word.readable] using helement
  | .map key value _ => by
    have hkey := readable_type key
    have hvalue := readable_type value
    simp only [TypeExpr.words, List.all_cons, List.all_append, hkey, hvalue]
    rfl
  | .record ms _ => by
    have hms := readable_members ms
    simp only [TypeExpr.words, List.all_cons, List.all_append, hms]
    rfl
  | .hole _ => by simp [TypeExpr.words]

theorem readable_members : ∀ ms : List (MemberDef TypeExpr), (memberWords ms).all Word.readable
  | [] => by simp [memberWords]
  | ⟨name, type, embedded, attributes, doc⟩ :: ms => by
    have htype := readable_type type
    have hms := readable_members ms
    simp only [memberWords, List.all_append, readable_doc, readable_lead, htype,
      readable_attributes, hms]
    rfl

end

theorem readable_item (item : Item) : item.words.all Word.readable := by
  cases item with
  | struct d =>
    have hms := readable_members d.members
    rw [memberWords_eq_flatMap] at hms
    simp only [Item.words, List.all_append, readable_doc, hms]
    rfl
  | enum d =>
    have hvs : (d.variants.flatMap Variant.words).all Word.readable := by
      rw [List.all_flatMap, List.all_eq_true]
      intro v _
      simp only [Variant.words, List.all_append, readable_doc]
      rfl
    simp only [Item.words, List.all_append, readable_doc, hvs]
    rfl
  | synonym d =>
    simp only [Item.words, List.all_append, readable_doc, readable_type]
    rfl

theorem readable_file (file : File) : file.words.all Word.readable := by
  have hitems : (file.items.flatMap Item.words).all Word.readable := by
    rw [List.all_flatMap, List.all_eq_true]
    exact fun item _ => readable_item item
  rw [File.words, List.all_append, hitems]
  cases file.package <;> rfl

end Readable

/-- A printable tree is read back from its words, however they are laid out. -/
theorem parse_of_words {file : File} (hfile : file.Printable) {text : String}
    (hwords : (tokens text).map Token.word = file.words) :
    (parse file.source text).2 = [] ∧ (parse file.source text).1.bare = file.bare := by
  have hfaces : (Reading.start file.source text).Faces file.words := by
    refine ⟨hwords, fun t ht => ?_⟩
    have hall := List.all_eq_true.mp (readable_file file)
    exact hall t.word (hwords ▸ List.mem_map_of_mem ht)
  obtain ⟨found, r', hrun, hfound, hpackage, hdiagnostics⟩ :=
    Parser.items_of_faces hfile hfaces rfl
  rw [parse_eq, hrun]
  refine ⟨hdiagnostics, ?_⟩
  rw [File.bare, File.bare, hfound, hpackage]

/-- Reading undoes printing: a printable tree is read back from its text, up to spans and without
a diagnostic. -/
theorem parse_print (file : File) (hfile : file.Printable) :
    (parse file.source file.print).2 = [] ∧
      (parse file.source file.print).1.bare = file.bare :=
  parse_of_words hfile (words_tokens (spells_print hfile))

/-- A documented struct with an embedded member and an inline struct, and an enum. -/
def linkedFile : File where
  source := 0
  package := some ⟨"graph \"v1\"", default⟩
  items :=
    [.struct ⟨⟨"Node", default⟩, some "A node.\n  It links.",
      [⟨⟨"Base", default⟩, .pointer (.reference (some "base") "Base" default) default, true,
        [⟨.skip, default⟩], none⟩,
       ⟨⟨"Links", default⟩, .record [⟨⟨"To", default⟩, .reference none "Node" default, false,
        [⟨.rename "to\\\n", default⟩], some ""⟩] default, false, [], none⟩]⟩,
     .enum ⟨⟨"Kind", default⟩, none, ⟨"int", default⟩,
      [⟨⟨"Low", default⟩, .int (-1), default, none⟩,
       ⟨⟨"High", default⟩, .uint 9223372036854775808, default, some "Large."⟩]⟩]

theorem linkedFile_printable : linkedFile.Printable := by
  have hname : Identifier "Node" ∧ Identifier "base" ∧ Identifier "Base" ∧ Identifier "Links" ∧
      Identifier "To" ∧ Identifier "Kind" ∧ Identifier "int" ∧ Identifier "Low" ∧
        Identifier "High" := by
    decide +kernel
  obtain ⟨hnode, hpackage, hbase, hlinks, hto, hkind, hint, hlow, hhigh⟩ := hname
  have tidy {text : String} (h : ∀ line ∈ Text.lines text.toList, Text.trimEnd line = line) :
      Tidy (some text) := by
    intro text' htext
    obtain rfl := Option.some.inj htext
    exact h
  have plain : Tidy none := by simp [Tidy]
  refine List.forall_mem_cons.mpr ⟨?_, List.forall_mem_cons.mpr ⟨?_, List.forall_mem_nil _⟩⟩
  · refine ⟨hnode, tidy (by decide), ?_⟩
    refine List.forall_mem_cons.mpr ⟨?_, List.forall_mem_cons.mpr ⟨?_, List.forall_mem_nil _⟩⟩
    · refine ⟨⟨rfl, plain⟩, ?_, by decide⟩
      exact forall_within_pointer.mpr ⟨trivial, forall_within_reference.mpr ⟨hpackage, hbase⟩⟩
    · refine ⟨⟨hlinks, plain⟩, ?_, by decide⟩
      refine forall_within_record.mpr ⟨?_, ?_⟩
      · exact List.forall_mem_cons.mpr ⟨⟨hto, tidy (by decide)⟩, List.forall_mem_nil _⟩
      · refine List.forall_mem_cons.mpr ⟨?_, List.forall_mem_nil _⟩
        exact forall_within_reference.mpr ⟨hnode, by decide⟩
  · refine ⟨hkind, plain, hint, List.forall_mem_cons.mpr ⟨⟨hlow, trivial, plain⟩, ?_⟩⟩
    refine List.forall_mem_cons.mpr ⟨?_, List.forall_mem_nil _⟩
    exact ⟨hhigh, Nat.le_refl _, tidy (by decide)⟩

theorem linkedFile_is_read_back : linkedFile.Printable ∧
    (parse 0 linkedFile.print).2 = [] ∧ (parse 0 linkedFile.print).1.bare = linkedFile.bare :=
  ⟨linkedFile_printable, parse_print linkedFile linkedFile_printable⟩

end TypeGraph.Schema
