import TypeGraph.Proofs.Schema.Reading
import TypeGraph.Proofs.Schema.WellFormed
import TypeGraph.Proofs.Schema.Words
/-!
Nothing is dropped in silence. Where no diagnostic is reported, the tokens of a text say exactly
what its tree says, apart from separators and documentation, and the tree has no holes.
-/

namespace TypeGraph.Schema

/-- No part of the expression is missing. -/
def TypeExpr.Whole (x : TypeExpr) : Prop :=
  ∀ y, Within y x → y.isHole = false

def Item.Whole (item : Item) : Prop :=
  ∀ x, item.expression? = some x → x.Whole

/-- The separators and names after the first name of a package path. -/
inductive PathTokens : List Token → Prop
  | nil : PathTokens []
  | cons {separator segment : Token} {ts : List Token}
      (hs : separator.kind = .dot ∨ separator.kind = .slash) (hn : segment.kind = .identifier)
      (h : PathTokens ts) : PathTokens (separator :: segment :: ts)

theorem PathTokens.append {ts us : List Token} (h : PathTokens ts) (k : PathTokens us) :
    PathTokens (ts ++ us) := by
  induction h with
  | nil => exact k
  | cons hs hn _ ih => exact .cons hs hn ih

/-- How a package header is written. -/
inductive HeaderTokens : PackageHeader → List Token → Prop
  | quoted {keyword t : Token} {span : Span} (hk : keyword.kind = .packageKeyword)
      (ht : t.kind = .string) (hstart : span.start = keyword.span.start) :
      HeaderTokens ⟨stringValue t.text, span⟩ [keyword, t]
  | dotted {keyword first : Token} {ts : List Token} {span : Span}
      (hk : keyword.kind = .packageKeyword) (hf : first.kind = .identifier) (hts : PathTokens ts)
      (hstart : span.start = keyword.span.start) :
      HeaderTokens ⟨first.text ++ String.join (ts.map (·.text)), span⟩ (keyword :: first :: ts)

/-- From one point of reading to another, tokens were taken that say these words. -/
def Reading.Says (r : Reading) (ws : List Word) (r' : Reading) : Prop :=
  ∃ ts, r.Took ts r' ∧ said ts = plain ws

namespace Reading.Says

variable {r s r' : Reading} {ws vs : List Word}

theorem refl (r : Reading) : r.Says [] r :=
  ⟨[], .refl r, rfl⟩

theorem trans (h : r.Says ws s) (k : s.Says vs r') : r.Says (ws ++ vs) r' := by
  obtain ⟨ts, hts, hws⟩ := h
  obtain ⟨us, hus, hvs⟩ := k
  refine ⟨ts ++ us, hts.trans hus, ?_⟩
  rw [said_append, plain_append, hws, hvs]

theorem of_plain (h : r.Says ws r') (hp : plain ws = plain vs) : r.Says vs r' := by
  obtain ⟨ts, hts, hws⟩ := h
  exact ⟨ts, hts, hws.trans hp⟩

theorem of_took {t : Token} (h : r.Took [t] r') (hw : plain [t.word] = plain ws) :
    r.Says ws r' :=
  ⟨[t], h, hw⟩

theorem le (h : r.Says ws r') : r'.rest.length ≤ r.rest.length := by
  obtain ⟨ts, hts, -⟩ := h
  rw [hts.rest, List.length_append]
  omega

theorem lt (h : r.Says ws r') (hw : plain ws ≠ []) : r'.rest.length < r.rest.length := by
  obtain ⟨ts, hts, hws⟩ := h
  apply hts.lt
  intro hnil
  subst hnil
  exact hw hws.symm

end Reading.Says

namespace Parser

open Reading

section Tokens

/-- Takes the next token, which is of the kind that was asked for, or nothing. -/
def Eaten (kind : TokenKind) (r : Reading) (t? : Option Token) (r' : Reading) : Prop :=
  match t? with
  | some t => t.kind = kind ∧ r.Took [t] r'
  | none => r' = r

theorem reads_eat (kind : TokenKind) : Reads (eat kind) (Eaten kind) := by
  unfold eat
  refine reads_current.bind fun t? => ?_
  cases t? with
  | none =>
    refine .pure fun s r h => ?_
    exact h.1
  | some t =>
    by_cases hk : t.kind = kind
    · simp only [if_pos hk]
      refine reads_bump.bind fun span => .pure ?_
      intro s' s hb r h
      obtain ⟨rfl, ht⟩ := h
      rcases hb with ⟨hnil, -⟩ | ⟨t', htook, -⟩
      · rw [hnil] at ht
        exact absurd ht (by simp)
      · rw [htook.rest] at ht
        obtain rfl : t = t' := Option.some.inj ht
        exact ⟨hk, htook⟩
    · simp only [if_neg hk]
      refine .pure fun s r h => ?_
      exact h.1

theorem complains_fail {kind : Diagnostic.Kind} (detail? : Option String)
    (hk : kind.severity = .error) : Complains (fail kind detail?) := by
  unfold fail
  refine Runs.bind_complains reads_currentSpan.runs fun span => ?_
  exact complains_report span detail? [] [] hk

theorem reads_expect (kind : TokenKind) :
    Gives (expect kind) fun r t r' => t.kind = kind ∧ r.Took [t] r' := by
  unfold expect
  refine (reads_eat kind).bind fun t? => ?_
  cases t? with
  | some t => exact .pure fun s r h => ⟨t, rfl, h⟩
  | none =>
    refine Complains.reads ?_
    exact (complains_fail _ rfl).bind fun _ => .pure fun _ => trivial

theorem reads_name : Gives name fun r n r' =>
    ∃ t, t.kind = .identifier ∧ t.text = n.text ∧ r.Took [t] r' := by
  unfold name
  refine (reads_eat .identifier).bind fun t? => ?_
  cases t? with
  | some t => exact .pure fun s r h => ⟨_, rfl, t, h.1, rfl, h.2⟩
  | none =>
    refine Complains.reads ?_
    exact (complains_fail _ rfl).bind fun _ => .pure fun _ => trivial

theorem reads_bump_of_head : Reads bump fun r span r' =>
    ∀ t ∈ r.rest.head?, r.Took [t] r' ∧ span = t.span := by
  refine reads_bump.mono fun r span r' h t ht => ?_
  rcases h with ⟨hnil, -⟩ | ⟨t', htook, hspan⟩
  · rw [hnil] at ht
    exact absurd ht (by simp)
  · rw [htook.rest] at ht
    obtain rfl : t' = t := Option.some.inj ht
    exact ⟨htook, hspan⟩

end Tokens

section Recovery

theorem runs_skipUntil (stops : List Token → Bool) : Runs (skipUntil stops) := by
  unfold skipUntil
  refine Runs.bind (runs_collect ?_) fun _ => .pure fun _ => trivial
  refine Runs.bind reads_current.runs fun t? => ?_
  cases t? with
  | none => exact .pure fun _ => trivial
  | some t =>
    refine Runs.bind reads_get.runs fun r => ?_
    cases stops r.rest with
    | true => exact .pure fun _ => trivial
    | false => exact Runs.bind reads_bump.runs fun _ => .pure fun _ => trivial

theorem runs_recoverToItem : Runs recoverToItem :=
  Runs.bind reads_bump.runs fun _ => runs_skipUntil atItem

theorem runs_recoverInBlock : Runs recoverInBlock :=
  Runs.bind reads_bump.runs fun _ => runs_skipUntil atMember

theorem runs_skipArguments : Runs skipArguments := by
  unfold skipArguments
  refine Runs.bind reads_currentKind.runs fun kind? => ?_
  by_cases hopen : kind? = some .leftParen
  · rw [if_pos hopen]
    refine Runs.bind (runs_collect ?_) fun _ => .pure fun _ => trivial
    refine Runs.bind reads_currentKind.runs fun kind? => ?_
    cases kind? with
    | none => exact .pure fun _ => trivial
    | some kind =>
      by_cases hstop : kind = .rightBrace ∨ kind.startsItem
      · simp only [if_pos hstop]
        exact .pure fun _ => trivial
      · simp only [if_neg hstop]
        exact Runs.bind reads_bump.runs fun _ => .pure fun _ => trivial
  · rw [if_neg hopen]
    exact .pure fun _ => trivial

end Recovery

section Words

theorem said_identifier {t : Token} (hk : t.kind = .identifier) :
    plain [t.word] = plain [.name t.text] := by
  simp only [Token.word, hk]

theorem reads_docs : Reads docs fun r _ r' => r.Says [] r' := by
  unfold docs
  refine Reads.bind (P := fun r _ r' => r.Says [] r') ?_ fun lines => ?_
  · refine reads_collect (S := fun r _ r' => r.Says [] r') ?_ fun _ _ _ _ _ hS hT => hS.trans hT
    refine (reads_eat .docComment).bind fun t? => ?_
    cases t? with
    | none =>
      refine .pure fun s r h => ?_
      rw [show s = r from h]
      exact .refl r
    | some t =>
      refine .pure fun s r h => ?_
      obtain ⟨hk, htook⟩ := h
      have hw : plain [t.word] = plain [] := by simp [Token.word, hk, plain, Word.matters]
      exact ⟨.of_took htook hw, htook.lt (List.cons_ne_nil _ _)⟩
  · exact .pure fun s r h => h

/-- What was taken of a package path, and what is kept of it. -/
structure PathRead (r : Reading) (segments : List (Option String)) (r' : Reading)
    (ts : List Token) : Prop where
  took : r.Took ts r'
  tokens : PathTokens ts
  present : segments.all (·.isSome)
  text : String.join (segments.filterMap id) = String.join (ts.map (·.text))

theorem reads_segment (t : Token) :
    Reads (do
      match ← name with
      | some segment => return ([some (t.text ++ segment.text)], true)
      | none => return ([none], false)) fun s (x : List (Option String) × Bool) r' =>
      ∀ r, (t.kind = .dot ∨ t.kind = .slash) → r.Took [t] s →
        if x.2 then (∃ ts, PathRead r x.1 r' ts) ∧ r'.rest.length < r.rest.length
        else ∃ ts, PathRead r x.1 r' ts := by
  refine reads_name.bind (.pure fun _ => trivial) fun segment => ?_
  apply Reads.pure
  intro r' s hn r hk htook
  obtain ⟨u, hu, htext, htook'⟩ := hn
  have htaken : r.Took [t, u] r' := htook.trans htook'
  refine ⟨⟨[t, u], htaken, .cons hk hu .nil, rfl, ?_⟩, htaken.lt (List.cons_ne_nil _ _)⟩
  simp [htext]

theorem reads_pathRest : Reads pathRest fun r segments r' =>
    ∃ ts, PathRead r segments r' ts := by
  unfold pathRest
  refine reads_collect (S := fun r segments r' => ∃ ts, PathRead r segments r' ts) ?_ ?_
  · refine (reads_eat .dot).bind fun t? => ?_
    cases t? with
    | some t =>
      refine (reads_segment t).mono fun s x r' h r ht => ?_
      exact h r (.inl ht.1) ht.2
    | none =>
      refine (reads_eat .slash).bind fun t? => ?_
      cases t? with
      | some t =>
        refine (reads_segment t).mono fun s x r' h s' ht r hr => ?_
        obtain rfl : s' = r := hr
        exact h s' (.inr ht.1) ht.2
      | none =>
        apply Reads.pure
        intro r' s hs r hr
        obtain rfl : r' = s := hs
        obtain rfl : r' = r := hr
        exact ⟨[], .refl r', .nil, rfl, rfl⟩
  · intro r s r' xs ys hS hT
    obtain ⟨ts, hts⟩ := hS
    obtain ⟨us, hus⟩ := hT
    refine ⟨ts ++ us, hts.took.trans hus.took, hts.tokens.append hus.tokens, ?_, ?_⟩
    · rw [List.all_append, hts.present, hus.present]
      rfl
    · rw [List.filterMap_append, List.map_append, String.join_append, String.join_append, hts.text,
        hus.text]

theorem reads_packageHeader : Gives packageHeader fun r header r' =>
    r.rest.head?.map (·.kind) = some .packageKeyword →
      ∃ ts, r.Took ts r' ∧ HeaderTokens header ts := by
  unfold packageHeader
  refine reads_bump_of_head.bind fun start => ?_
  refine (reads_eat .string).bind fun t? => ?_
  cases t? with
  | some t =>
    apply Reads.pure
    intro s' s ht r hb
    refine ⟨_, rfl, ?_⟩
    intro hk
    obtain ⟨keyword, hkeyword, hkind⟩ := Option.map_eq_some_iff.mp hk
    obtain ⟨htook, rfl⟩ := hb keyword hkeyword
    exact ⟨[keyword, t], htook.trans ht.2, .quoted hkind ht.1 rfl⟩
  | none =>
    refine reads_name.bind (.pure fun _ => trivial) fun first => ?_
    refine reads_pathRest.bind fun segments => ?_
    by_cases hall : segments.all (·.isSome)
    · rw [if_pos hall]
      refine reads_get.bind fun _ => .pure ?_
      intro s4 s3 hg s2 hp s1 hn s he r hb
      refine ⟨_, rfl, fun hk => ?_⟩
      obtain ⟨keyword, hkeyword, hkind⟩ := Option.map_eq_some_iff.mp hk
      obtain ⟨htook, rfl⟩ := hb keyword hkeyword
      obtain ⟨t, ht, htext, htook'⟩ := hn
      obtain ⟨ts, hts⟩ := hp
      obtain rfl : s1 = s := he
      obtain rfl : s4 = s3 := hg.2
      refine ⟨keyword :: t :: ts, htook.trans (htook'.trans hts.took), ?_⟩
      rw [← htext, hts.text]
      exact .dotted hkind ht hts.tokens rfl
    · rw [if_neg hall]
      refine Reads.pure fun s3 s2 hp => ?_
      obtain ⟨ts, hts⟩ := hp
      exact absurd hts.present hall

theorem reads_renameArgument : Gives renameArgument fun r text r' =>
    r.Says (AttributeKind.rename text).arguments r' := by
  unfold renameArgument
  refine (reads_expect .leftParen).bind (.pure fun _ => trivial) fun opening => ?_
  refine (reads_eat .string).bind fun t? => ?_
  cases t? with
  | none =>
    refine Complains.reads ((complains_fail none rfl).bind fun _ => ?_)
    exact runs_skipArguments.bind fun _ => .pure fun _ => trivial
  | some t =>
    refine (reads_expect .rightParen).bind (.pure fun _ => trivial) fun closing => ?_
    apply Reads.pure
    intro r' s2 hc s1 ht r ho
    refine ⟨_, rfl, ?_⟩
    refine ⟨[opening, t, closing], ho.2.trans (ht.2.trans hc.2), ?_⟩
    simp [said, Token.word, ho.1, ht.1, hc.1, AttributeKind.arguments]

theorem reads_attributeKind (word : Name) : Gives (attributeKind word) fun r kind r' =>
    kind.word = word.text ∧ r.Says kind.arguments r' := by
  unfold attributeKind
  by_cases hskip : word.text = "skip"
  · rw [if_pos hskip]
    exact .pure fun r => ⟨hskip.symm, .refl r⟩
  rw [if_neg hskip]
  by_cases hoptional : word.text = "optional"
  · rw [if_pos hoptional]
    exact .pure fun r => ⟨hoptional.symm, .refl r⟩
  rw [if_neg hoptional]
  by_cases hrename : word.text = "rename"
  · rw [if_pos hrename]
    refine reads_renameArgument.bind (.pure fun _ => trivial) fun text => ?_
    exact .pure fun r' r h => ⟨_, rfl, hrename.symm, h⟩
  · rw [if_neg hrename]
    refine Complains.reads ((complains_report _ _ _ _ rfl).bind fun _ => ?_)
    exact runs_skipArguments.bind fun _ => .pure fun _ => trivial

theorem reads_attributes : Reads attributes fun r attributes r' =>
    r.Says (attributes.flatMap Attribute.words) r' := by
  unfold attributes
  refine reads_collect (S := fun r attributes r' => r.Says (attributes.flatMap Attribute.words) r')
    ?_ ?_
  · refine (reads_eat .atSign).bind fun t? => ?_
    cases t? with
    | none =>
      refine .pure fun s r hr => ?_
      obtain rfl : s = r := hr
      exact .refl s
    | some t =>
      refine reads_name.bind (.pure fun _ => trivial) fun word => ?_
      refine (reads_attributeKind word).bind (.pure fun _ => trivial) fun kind => ?_
      refine reads_get.bind fun _ => .pure ?_
      intro s4 s3 hg s2 hk s1 hn r ht
      obtain rfl : s4 = s3 := hg.2
      obtain ⟨t', ht', htext, htook⟩ := hn
      have hat : r.Says [.mark .atSign] s1 := .of_took ht.2 (by simp [Token.word, ht.1])
      have hword : s1.Says [.name kind.word] s2 :=
        .of_took htook (by rw [said_identifier ht', htext, hk.1])
      have hsays := hat.trans (hword.trans hk.2)
      refine ⟨?_, hsays.lt ?_⟩
      · simpa [Attribute.words] using hsays
      · simp [plain, Word.matters]
  · intro r s r' xs ys hS hT
    rw [List.flatMap_append]
    exact hS.trans hT

end Words

section Types

theorem reads_finish (start : Nat) (make : Span → TypeExpr) :
    Reads (finish start make) fun r x r' => r' = r ∧ ∃ span, x = make span := by
  unfold finish
  refine reads_get.bind fun _ => .pure fun s r h => ?_
  exact ⟨h.2, _, rfl⟩

variable {type : Parser TypeExpr}

/-- Reads an expression that is whole. -/
abbrev ReadsType (type : Parser TypeExpr) : Prop :=
  Reads type fun r x r' => x.Whole ∧ r.Says x.words r'

theorem reads_member (htype : ReadsType type) (doc : Option String) :
    Gives (member type doc) fun r m r' => m.type.Whole ∧ r.Says m.words r' := by
  unfold member
  refine reads_name.bind (.pure fun _ => trivial) fun name => ?_
  refine (reads_expect .colon).bind ?_ fun colon => ?_
  · exact runs_recoverInBlock.bind fun _ => .pure fun _ => trivial
  · refine htype.bind fun x => reads_attributes.bind fun attributes => ?_
    apply Reads.pure
    intro s4 s3 ha s2 hx s1 hc r hn
    refine ⟨_, rfl, hx.1, ?_⟩
    obtain ⟨t, ht, htext, htook⟩ := hn
    have hname : r.Says [.name name.text] s1 := .of_took htook (by rw [said_identifier ht, htext])
    have hcolon : s1.Says [.mark .colon] s2 := .of_took hc.2 (by simp [Token.word, hc.1])
    refine (hname.trans (hcolon.trans (hx.2.trans ha))).of_plain ?_
    simp [MemberDef.words, leadWords]

theorem reads_embedded (htype : ReadsType type) (doc : Option String) :
    Gives (embedded type doc) fun r m r' => r.rest.head?.map (·.kind) = some .dotDot →
      m.type.Whole ∧ r.Says m.words r' := by
  unfold embedded
  refine reads_bump_of_head.bind fun _ => htype.bind fun x => ?_
  cases hhole : x.isHole with
  | true =>
    refine .pure fun s2 s1 hx => ?_
    have hself := hx.1 x (.self x)
    rw [hhole] at hself
    exact absurd hself (by simp)
  | false =>
    cases x.referredName with
    | none =>
      refine Complains.reads ((complains_report _ _ _ _ rfl).bind fun _ => ?_)
      exact .pure fun _ => trivial
    | some text =>
      refine reads_attributes.bind fun attributes => ?_
      apply Reads.pure
      intro s3 s2 ha s1 hx r hb
      refine ⟨_, rfl, ?_⟩
      intro hk
      refine ⟨hx.1, ?_⟩
      obtain ⟨t, ht, hkind⟩ := Option.map_eq_some_iff.mp hk
      have hdots : r.Says [.mark .dotDot] s1 :=
        .of_took (hb t ht).1 (by simp [Token.word, hkind])
      refine (hdots.trans (hx.2.trans ha)).of_plain ?_
      simp [MemberDef.words, leadWords]

theorem complains_unclosed (opening : Span) : Complains (unclosed opening) := by
  unfold unclosed
  refine Runs.bind_complains reads_get.runs fun r => ?_
  exact Runs.bind_complains reads_currentSpan.runs fun span => complains_report _ _ _ _ rfl

section Block

variable {α : Type} {words : α → List Word} {Fit : α → Prop}

/-- Entries of a block, each said in some words. -/
def Entries (words : α → List Word) (Fit : α → Prop) (r : Reading) (xs : List α) (r' : Reading) :
    Prop :=
  (∀ x ∈ xs, Fit x) ∧ r.Says (xs.flatMap words) r'

theorem Entries.nil (r : Reading) : Entries words Fit r [] r :=
  ⟨by simp, .refl r⟩

theorem Entries.append {r s r' : Reading} {xs ys : List α} (h : Entries words Fit r xs s)
    (k : Entries words Fit s ys r') : Entries words Fit r (xs ++ ys) r' := by
  constructor
  · intro x hx
    exact (List.mem_append.mp hx).elim (h.1 x) (k.1 x)
  · rw [List.flatMap_append]
    exact h.2.trans k.2

theorem Entries.one {r r' : Reading} {x : α} (hfit : Fit x) (h : r.Says (words x) r') :
    Entries words Fit r [x] r' := by
  constructor
  · simpa using hfit
  · simpa using h

theorem reads_bump_of_kind (kind : TokenKind) : Reads bump fun r _ r' =>
    r.rest.head?.map (·.kind) = some kind → ∃ t, t.kind = kind ∧ r.Took [t] r' := by
  refine reads_bump_of_head.mono fun r span r' h hk => ?_
  obtain ⟨t, ht, hkind⟩ := Option.map_eq_some_iff.mp hk
  exact ⟨t, hkind, (h t ht).1⟩

theorem reads_block (words : α → List Word) (Fit : α → Prop) {opening : Span}
    {entry : TokenKind → Option (Option String → Parser (List α))}
    (hentry : ∀ kind read, entry kind = some read → ∀ doc, Reads (read doc) fun r xs r' =>
      r.rest.head?.map (·.kind) = some kind →
        Entries words Fit r xs r' ∧ r'.rest.length < r.rest.length) :
    Reads (block opening entry) fun r xs r' =>
      ∃ s, Entries words Fit r xs s ∧ s.Says [.mark .rightBrace] r' := by
  unfold block
  refine reads_collect (S := Entries words Fit) ?_ fun r s r' xs ys hS hT =>
    hT.imp fun s' hs' => ⟨hS.append hs'.1, hs'.2⟩
  refine reads_docs.bind fun doc => reads_currentKind.bind fun kind? => ?_
  cases kind? with
  | none =>
    exact Complains.reads ((complains_unclosed opening).bind fun _ => .pure fun _ => trivial)
  | some kind =>
    by_cases hclose : kind = .rightBrace
    · simp only [if_pos hclose]
      refine (reads_bump_of_kind kind).bind fun _ => .pure ?_
      intro r' s2 hb s1 hk r hd
      obtain ⟨rfl, hk⟩ := hk
      obtain ⟨t, ht, htook⟩ := hb hk.symm
      have hbrace : s2.Says [.mark .rightBrace] r' :=
        .of_took htook (by simp [Token.word, ht, hclose])
      exact ⟨s2, ⟨by simp, hd⟩, hbrace⟩
    simp only [if_neg hclose]
    by_cases hitem : kind.startsItem
    · simp only [if_pos hitem]
      exact Complains.reads ((complains_unclosed opening).bind fun _ => .pure fun _ => trivial)
    simp only [if_neg hitem]
    by_cases hseparator : kind = .comma ∨ kind = .semicolon
    · simp only [if_pos hseparator]
      refine (reads_bump_of_kind kind).bind fun _ => .pure ?_
      intro r' s2 hb s1 hk r hd
      obtain ⟨rfl, hk⟩ := hk
      obtain ⟨t, ht, htook⟩ := hb hk.symm
      have hnothing : s2.Says [] r' := by
        refine .of_took htook ?_
        rcases hseparator with rfl | rfl <;> simp [Token.word, ht, plain, Word.matters]
      have hlt := htook.lt (List.cons_ne_nil _ _)
      exact ⟨⟨by simp, hd.trans hnothing⟩, Nat.lt_of_lt_of_le hlt hd.le⟩
    simp only [if_neg hseparator]
    cases hread : entry kind with
    | none =>
      refine Complains.reads ((complains_fail none rfl).bind fun _ => ?_)
      exact runs_recoverInBlock.bind fun _ => .pure fun _ => trivial
    | some read =>
      refine (hentry kind read hread doc).bind fun xs => .pure ?_
      intro r' s2 hx s1 hk r hd
      obtain ⟨rfl, hk⟩ := hk
      obtain ⟨⟨hfit, hsays⟩, hlt⟩ := hx hk.symm
      exact ⟨⟨hfit, hd.trans hsays⟩, Nat.lt_of_lt_of_le hlt hd.le⟩

end Block

theorem reads_members (htype : ReadsType type) : Reads (members type) fun r ms r' =>
    (∀ m ∈ ms, m.type.Whole) ∧
      r.Says (.mark .leftBrace :: (memberWords ms ++ [.mark .rightBrace])) r' := by
  unfold members
  refine (reads_expect .leftBrace).bind (.pure fun _ => trivial) fun opening => ?_
  refine Reads.mono (reads_block MemberDef.words (·.type.Whole) ?_) ?_
  · intro kind read hread doc
    have hlt {r r' : Reading} {m : MemberDef TypeExpr} (h : r.Says m.words r') :
        r'.rest.length < r.rest.length := by
      apply h.lt
      cases hm : m.embedded <;> simp [MemberDef.words, leadWords, plain, Word.matters, hm]
    have hone {r r' : Reading} {m : MemberDef TypeExpr} (h : m.type.Whole ∧ r.Says m.words r') :
        Entries MemberDef.words (·.type.Whole) r [m] r' ∧ r'.rest.length < r.rest.length :=
      ⟨.one h.1 h.2, hlt h.2⟩
    unfold memberEntry at hread
    split at hread
    · obtain rfl := Option.some.inj hread
      refine (reads_embedded htype doc).bind (.pure fun _ => trivial) fun m => ?_
      exact .pure fun r' r hm hk => hone (hm hk)
    · obtain rfl := Option.some.inj hread
      refine (reads_member htype doc).bind (.pure fun _ => trivial) fun m => ?_
      exact .pure fun r' r hm _ => hone hm
    · simp at hread
  · intro s ms r' hms r ho
    have hopen : r.Says [.mark .leftBrace] s := .of_took ho.2 (by simp [Token.word, ho.1])
    obtain ⟨s', hentries, hclose⟩ := hms
    rw [memberWords_eq_flatMap]
    exact ⟨hentries.1, hopen.trans (hentries.2.trans hclose)⟩

/-- Reads what is left of an expression that begins with `first`. -/
abbrev ReadsFrom (first : Word) (m : Parser TypeExpr) : Prop :=
  Reads m fun s x r' => ∀ r : Reading, r.Says [first] s → x.Whole ∧ r.Says x.words r'

theorem reads_named (start : Nat) (text : String) :
    ReadsFrom (.name text) (named start text) := by
  have whole_reference (package : Option String) (name : String) (span : Span) :
      (TypeExpr.reference package name span).Whole := forall_within_reference.mpr rfl
  unfold named
  refine (reads_eat .dot).bind fun t? => ?_
  cases t? with
  | some t =>
    refine reads_name.bind ?_ fun name => ?_
    · exact (reads_finish _ _).runs
    · refine (reads_finish _ _).mono fun s2 x r' hx s1 hn s ht r hr => ?_
      obtain ⟨rfl, span, rfl⟩ := hx
      obtain ⟨u, hu, htext, htook⟩ := hn
      have hdot : s.Says [.mark .dot] s1 := .of_took ht.2 (by simp [Token.word, ht.1])
      have hname : s1.Says [.name name.text] r' :=
        .of_took htook (by rw [said_identifier hu, htext])
      rw [TypeExpr.words]
      exact ⟨whole_reference _ _ _, hr.trans (hdot.trans hname)⟩
  | none =>
    cases hkind : Scalar.ofKeyword? text with
    | some kind =>
      refine (reads_finish _ _).mono fun s1 x r' hx s hs r hr => ?_
      obtain ⟨rfl, span, rfl⟩ := hx
      obtain rfl : r' = s := hs
      rw [TypeExpr.words, Scalar.keyword_of_ofKeyword? hkind]
      exact ⟨forall_within_scalar.mpr rfl, hr⟩
    | none =>
      refine (reads_finish _ _).mono fun s1 x r' hx s hs r hr => ?_
      obtain ⟨rfl, span, rfl⟩ := hx
      obtain rfl : r' = s := hs
      rw [TypeExpr.words]
      exact ⟨whole_reference _ _ _, hr⟩

theorem reads_pointer (htype : ReadsType type) (start : Nat) :
    ReadsFrom (.mark .star) (do
      let target ← type
      finish start (.pointer target)) := by
  refine htype.bind fun target => ?_
  refine (reads_finish _ _).mono fun s1 x r' hx s ht r hr => ?_
  obtain ⟨rfl, span, rfl⟩ := hx
  rw [TypeExpr.words]
  exact ⟨forall_within_pointer.mpr ⟨rfl, ht.1⟩, hr.trans ht.2⟩

theorem reads_sequence (htype : ReadsType type) (start : Nat) :
    ReadsFrom (.mark .leftBracket) (do
      let element ← type
      let _ ← expect .rightBracket
      finish start (.sequence element)) := by
  refine htype.bind fun element => (reads_expect .rightBracket).bind ?_ fun closing => ?_
  · exact (reads_finish _ _).runs
  · refine (reads_finish _ _).mono fun s2 x r' hx s1 hc s he r hr => ?_
    obtain ⟨rfl, span, rfl⟩ := hx
    have hclosing : s1.Says [.mark .rightBracket] r' :=
      .of_took hc.2 (by simp [Token.word, hc.1])
    rw [TypeExpr.words]
    exact ⟨forall_within_sequence.mpr ⟨rfl, he.1⟩, hr.trans (he.2.trans hclosing)⟩

theorem reads_map (htype : ReadsType type) (start : Nat) :
    ReadsFrom (.mark .leftBrace) (do
      let key ← type
      let _ ← expect .colon
      let value ← type
      let _ ← expect .rightBrace
      finish start (.map key value)) := by
  refine htype.bind fun key => (reads_expect .colon).bind ?_ fun colon => ?_
  · refine Runs.bind htype.runs fun value => Runs.bind (reads_expect .rightBrace).runs fun _ => ?_
    exact (reads_finish _ _).runs
  · refine htype.bind fun value => (reads_expect .rightBrace).bind ?_ fun closing => ?_
    · exact (reads_finish _ _).runs
    · refine (reads_finish _ _).mono fun s4 x r' hx s3 hb s2 hv s1 hc s hk r hr => ?_
      obtain ⟨rfl, span, rfl⟩ := hx
      have hcolon : s1.Says [.mark .colon] s2 := .of_took hc.2 (by simp [Token.word, hc.1])
      have hclosing : s3.Says [.mark .rightBrace] r' :=
        .of_took hb.2 (by simp [Token.word, hb.1])
      rw [TypeExpr.words]
      refine ⟨forall_within_map.mpr ⟨rfl, hk.1, hv.1⟩, ?_⟩
      exact hr.trans (hk.2.trans (hcolon.trans (hv.2.trans hclosing)))

theorem reads_record (htype : ReadsType type) (start : Nat) :
    ReadsFrom (.mark .structKeyword) (do
      let members ← members type
      finish start (.record members)) := by
  refine (reads_members htype).bind fun ms => ?_
  refine (reads_finish _ _).mono fun s1 x r' hx s hms r hr => ?_
  obtain ⟨rfl, span, rfl⟩ := hx
  rw [TypeExpr.words]
  exact ⟨forall_within_record.mpr ⟨rfl, hms.1⟩, hr.trans hms.2⟩

theorem reads_type (depth : Nat) : ReadsType (Parser.type depth) := by
  induction depth with
  | zero =>
    unfold Parser.type
    refine Complains.reads (Runs.bind_complains reads_currentSpan.runs fun span => ?_)
    exact (complains_report _ _ _ _ rfl).bind fun _ => .pure fun _ => trivial
  | succ depth ih =>
    unfold Parser.type
    refine reads_currentSpan.bind fun span => reads_current.bind fun t? => ?_
    cases t? with
    | none =>
      refine Complains.reads ((complains_fail none rfl).bind fun _ => ?_)
      exact .pure fun _ => trivial
    | some t =>
      -- after its first token, each kind of expression is read on its own
      have first {m : Parser TypeExpr} (hm : ReadsFrom t.word m) :
          Reads (bump >>= fun _ => m) fun s x r' =>
            ∀ s' : Reading, s = s' ∧ some t = s'.rest.head? →
              ∀ r : Reading, s' = r ∧ (∀ t' ∈ r.rest.head?, span = t'.span) →
                x.Whole ∧ r.Says x.words r' := by
        refine reads_bump_of_head.bind fun _ => hm.mono fun s x r' hx s' hb s'' hc r hs => ?_
        obtain ⟨rfl, hhead⟩ := hc
        obtain rfl : s' = r := hs.1
        exact hx s' (.of_took (hb t hhead.symm).1 rfl)
      simp only
      split
      · next hk =>
        exact first (by simpa [Token.word, hk] using reads_pointer ih span.start)
      · next hk =>
        exact first (by simpa [Token.word, hk] using reads_sequence ih span.start)
      · next hk =>
        exact first (by simpa [Token.word, hk] using reads_map ih span.start)
      · next hk =>
        exact first (by simpa [Token.word, hk] using reads_record ih span.start)
      · next hk =>
        exact first (by simpa [Token.word, hk] using reads_named span.start t.text)
      · refine Complains.reads ((complains_fail none rfl).bind fun _ => ?_)
        exact .pure fun _ => trivial

end Types

section Items

theorem reads_literal : Gives literal fun r value r' =>
    r.Says [.literal (some value.1)] r' := by
  unfold literal
  refine reads_current.bind fun t? => ?_
  split
  · next text span =>
    refine reads_bump_of_head.bind fun _ => .pure ?_
    intro r' s hb r hc
    refine ⟨_, rfl, ?_⟩
    obtain ⟨rfl, hhead⟩ := hc
    exact .of_took (hb _ hhead.symm).1 rfl
  · next text span =>
    cases hvalue : integerLiteral text with
    | some value =>
      refine reads_bump_of_head.bind fun _ => .pure ?_
      intro r' s hb r hc
      refine ⟨_, rfl, ?_⟩
      obtain ⟨rfl, hhead⟩ := hc
      exact .of_took (hb _ hhead.symm).1 (by simp [Token.word, hvalue])
    | none =>
      refine Complains.reads ((complains_report _ _ _ _ rfl).bind fun _ => ?_)
      exact Runs.bind reads_bump.runs fun _ => .pure fun _ => trivial
  · next text span =>
    cases hvalue : Binary64.ofText? text with
    | some value =>
      refine reads_bump_of_head.bind fun _ => .pure ?_
      intro r' s hb r hc
      refine ⟨_, rfl, ?_⟩
      obtain ⟨rfl, hhead⟩ := hc
      exact .of_took (hb _ hhead.symm).1 (by simp [Token.word, hvalue])
    | none =>
      refine Complains.reads ((complains_fail none rfl).bind fun _ => ?_)
      exact Runs.bind reads_bump.runs fun _ => .pure fun _ => trivial
  · refine Complains.reads ((complains_fail none rfl).bind fun _ => ?_)
    exact .pure fun _ => trivial

theorem reads_variant (doc : Option String) :
    Gives (variant doc) fun r v r' => r.Says v.words r' := by
  unfold variant
  refine reads_name.bind (.pure fun _ => trivial) fun name => ?_
  refine (reads_expect .equals).bind ?_ fun equals => ?_
  · exact runs_recoverInBlock.bind fun _ => .pure fun _ => trivial
  · refine reads_literal.bind (.pure fun _ => trivial) fun value => ?_
    apply Reads.pure
    intro r' s2 hv s1 he r hn
    refine ⟨_, rfl, ?_⟩
    obtain ⟨t, ht, htext, htook⟩ := hn
    have hname : r.Says [.name name.text] s1 := .of_took htook (by rw [said_identifier ht, htext])
    have hequals : s1.Says [.mark .equals] s2 := .of_took he.2 (by simp [Token.word, he.1])
    refine (hname.trans (hequals.trans hv)).of_plain ?_
    simp [Variant.words]

theorem reads_variants : Reads variants fun r vs r' =>
    r.Says (.mark .leftBrace :: (vs.flatMap Variant.words ++ [.mark .rightBrace])) r' := by
  unfold variants
  refine (reads_expect .leftBrace).bind (.pure fun _ => trivial) fun opening => ?_
  refine Reads.mono (reads_block Variant.words (fun _ => True) ?_) ?_
  · intro kind read hread doc
    unfold variantEntry at hread
    split at hread
    · obtain rfl := Option.some.inj hread
      refine (reads_variant doc).bind (.pure fun _ => trivial) fun v => ?_
      refine .pure fun r' r hv _ => ⟨.one trivial hv, hv.lt ?_⟩
      simp [Variant.words, plain, Word.matters]
    · simp at hread
  · intro s vs r' hvs r ho
    have hopen : r.Says [.mark .leftBrace] s := .of_took ho.2 (by simp [Token.word, ho.1])
    obtain ⟨s', hentries, hclose⟩ := hvs
    exact hopen.trans (hentries.2.trans hclose)

/-- Reads a whole item that begins with `keyword`. -/
abbrev ReadsItem (keyword : TokenKind) (m : Parser (Option Item)) : Prop :=
  Gives m fun r item r' => r.rest.head?.map (·.kind) = some keyword →
    item.Whole ∧ r.Says item.words r'

theorem reads_structItem (doc : Option String) : ReadsItem .structKeyword (structItem doc) := by
  unfold structItem
  refine (reads_bump_of_kind .structKeyword).bind fun _ => reads_name.bind ?_ fun name => ?_
  · exact runs_recoverToItem.bind fun _ => .pure fun _ => trivial
  · refine (reads_members (reads_type maxDepth)).bind fun ms => ?_
    apply Reads.pure
    intro r' s2 hms s1 hn r hb
    refine ⟨_, rfl, ?_⟩
    intro hk
    constructor
    · intro x hx
      obtain rfl := Option.some.inj hx
      exact forall_within_record.mpr ⟨rfl, hms.1⟩
    · obtain ⟨k, hkind, hk⟩ := hb hk
      obtain ⟨t, ht, htext, htook⟩ := hn
      have hkeyword : r.Says [.mark .structKeyword] s1 := .of_took hk (by simp [Token.word, hkind])
      have hname : s1.Says [.name name.text] s2 :=
        .of_took htook (by rw [said_identifier ht, htext])
      refine (hkeyword.trans (hname.trans hms.2)).of_plain ?_
      simp [Item.words, memberWords_eq_flatMap]

theorem reads_enumItem (doc : Option String) : ReadsItem .enumKeyword (enumItem doc) := by
  unfold enumItem
  refine (reads_bump_of_kind .enumKeyword).bind fun _ => reads_name.bind ?_ fun name => ?_
  · exact runs_recoverToItem.bind fun _ => .pure fun _ => trivial
  refine (reads_expect .colon).bind ?_ fun colon => ?_
  · exact runs_recoverToItem.bind fun _ => .pure fun _ => trivial
  refine reads_name.bind ?_ fun base => ?_
  · exact runs_recoverToItem.bind fun _ => .pure fun _ => trivial
  refine reads_variants.bind fun vs => ?_
  apply Reads.pure
  intro r' s4 hvs s3 hbase s2 hc s1 hn r hb
  refine ⟨_, rfl, ?_⟩
  intro hk
  refine ⟨by simp [Item.Whole, Item.expression?], ?_⟩
  obtain ⟨k, hkind, hk⟩ := hb hk
  obtain ⟨t, ht, htext, htook⟩ := hn
  obtain ⟨u, hu, hutext, hutook⟩ := hbase
  have hkeyword : r.Says [.mark .enumKeyword] s1 := .of_took hk (by simp [Token.word, hkind])
  have hname : s1.Says [.name name.text] s2 := .of_took htook (by rw [said_identifier ht, htext])
  have hcolon : s2.Says [.mark .colon] s3 := .of_took hc.2 (by simp [Token.word, hc.1])
  have hbase : s3.Says [.name base.text] s4 := .of_took hutook (by rw [said_identifier hu, hutext])
  refine (hkeyword.trans (hname.trans (hcolon.trans (hbase.trans hvs)))).of_plain ?_
  simp [Item.words]

theorem reads_synonymItem (doc : Option String) : ReadsItem .aliasKeyword (synonymItem doc) := by
  unfold synonymItem
  refine (reads_bump_of_kind .aliasKeyword).bind fun _ => reads_name.bind ?_ fun name => ?_
  · exact runs_recoverToItem.bind fun _ => .pure fun _ => trivial
  refine (reads_expect .equals).bind ?_ fun equals => ?_
  · exact runs_recoverToItem.bind fun _ => .pure fun _ => trivial
  refine (reads_type maxDepth).bind fun target => ?_
  apply Reads.pure
  intro r' s3 hx s2 he s1 hn r hb
  refine ⟨_, rfl, ?_⟩
  intro hk
  constructor
  · intro x h
    obtain rfl := Option.some.inj h
    exact hx.1
  · obtain ⟨k, hkind, hk⟩ := hb hk
    obtain ⟨t, ht, htext, htook⟩ := hn
    have hkeyword : r.Says [.mark .aliasKeyword] s1 := .of_took hk (by simp [Token.word, hkind])
    have hname : s1.Says [.name name.text] s2 :=
      .of_took htook (by rw [said_identifier ht, htext])
    have hequals : s2.Says [.mark .equals] s3 := .of_took he.2 (by simp [Token.word, he.1])
    refine (hkeyword.trans (hname.trans (hequals.trans hx.2))).of_plain ?_
    simp [Item.words]

theorem reads_keepHeader (header : PackageHeader) : Reads (keepHeader header) fun r _ r' =>
    r.package = none ∧ r'.package = some header ∧ r'.rest = r.rest := by
  unfold keepHeader
  constructor
  · intro r
    rw [run_bind, run_get]
    cases hp : r.package with
    | none => simpa only [hp] using .single (.package header hp)
    | some first => simpa only [hp] using (complains_report _ _ _ _ rfl).run r
  · intro r hs
    rw [run_bind, run_get] at hs ⊢
    cases hp : r.package with
    | none => exact ⟨rfl, rfl, rfl⟩
    | some first =>
      simp only [hp] at hs
      exact ((complains_report _ _ _ _ rfl).result r hs).elim

theorem reads_package : Reads package fun r _ r' =>
    r.rest.head?.map (·.kind) = some .packageKeyword →
      r.package = none ∧ ∃ header ts, r'.package = some header ∧ HeaderTokens header ts ∧
        r.rest = ts ++ r'.rest := by
  unfold package
  refine reads_packageHeader.bind (.pure fun _ => trivial) fun header => ?_
  apply (reads_keepHeader header).mono
  intro s _ r' hkept r hr hk
  obtain ⟨hnone, hsome, hrest⟩ := hkept
  obtain ⟨ts, htook, hts⟩ := hr hk
  exact ⟨htook.package ▸ hnone, header, ts, hsome, hts, hrest ▸ htook.rest⟩

/-- What was read of a file: items, and perhaps a header among them. -/
inductive Filed (r : Reading) : List Item → Reading → Prop
  | bare {xs : List Item} {r' : Reading} (h : Entries Item.words Item.Whole r xs r') :
      Filed r xs r'
  | headed {front back : List Item} {header : PackageHeader} {ts : List Token}
      {s s' r' : Reading} (hfront : Entries Item.words Item.Whole r front s)
      (hnone : s.package = none) (hrest : s.rest = ts ++ s'.rest) (hts : HeaderTokens header ts)
      (hsome : s'.package = some header) (hback : Entries Item.words Item.Whole s' back r') :
      Filed r (front ++ back) r'

theorem Entries.package {words : α → List Word} {Fit : α → Prop} {r r' : Reading} {xs : List α}
    (h : Entries words Fit r xs r') : r'.package = r.package := by
  obtain ⟨-, ts, htook, -⟩ := h
  exact htook.package

theorem Filed.trans {r s r' : Reading} {xs ys : List Item} (h : Filed r xs s)
    (k : Filed s ys r') : Filed r (xs ++ ys) r' := by
  cases h with
  | bare h =>
    cases k with
    | bare k => exact .bare (h.append k)
    | headed hfront hnone hrest hts hsome hback =>
      rw [← List.append_assoc]
      exact .headed (h.append hfront) hnone hrest hts hsome hback
  | headed hfront hnone hrest hts hsome hback =>
    cases k with
    | bare k =>
      rw [List.append_assoc]
      exact .headed hfront hnone hrest hts hsome (hback.append k)
    | headed hfront' hnone' _ _ _ _ =>
      -- a second header is not kept
      have hpackage := hfront'.package.trans (hback.package.trans hsome)
      rw [hnone'] at hpackage
      exact absurd hpackage (by simp)

theorem reads_items : Reads items fun r xs r' => Filed r xs r' ∧ r'.rest = [] := by
  unfold items
  refine reads_collect (S := Filed) ?_ fun _ _ _ _ _ hS hT => ⟨hS.trans hT.1, hT.2⟩
  refine reads_docs.bind fun doc => reads_currentKind.bind fun kind? => ?_
  have item {keyword : TokenKind} {m : Parser (Option Item)} (hm : ReadsItem keyword m) :
      Reads (do return ((← m).toList, true)) fun s (x : List Item × Bool) r' =>
        ∀ s', s = s' ∧ some keyword = s'.rest.head?.map (·.kind) → ∀ r : Reading, r.Says [] s' →
          if x.2 then Filed r x.1 r' ∧ r'.rest.length < r.rest.length
          else Filed r x.1 r' ∧ r'.rest = [] := by
    refine hm.bind (.pure fun _ => trivial) fun item => .pure ?_
    intro r' s hi s' hk r hd
    obtain ⟨rfl, hk⟩ := hk
    obtain ⟨hwhole, hsays⟩ := hi hk.symm
    have hread : r.Says item.words r' := hd.trans hsays
    exact ⟨.bare (.one hwhole hread), hread.lt item.words_ne_nil⟩
  split
  · apply Reads.pure
    intro r' s hk r hd
    obtain ⟨rfl, hk⟩ := hk
    refine ⟨.bare ⟨by simp, hd⟩, ?_⟩
    simpa using hk.symm
  · refine reads_package.bind fun _ => .pure ?_
    intro r' s hp s' hk r hd
    obtain ⟨rfl, hk⟩ := hk
    obtain ⟨hnone, header, ts, hsome, hts, hrest⟩ := hp hk.symm
    have hlt : r'.rest.length < s.rest.length := by
      rw [hrest, List.length_append]
      cases hts <;> simp
    have hfront : Entries Item.words Item.Whole r [] s := ⟨by simp, hd⟩
    have hfiled := Filed.headed hfront hnone hrest hts hsome (.nil r')
    exact ⟨hfiled, Nat.lt_of_lt_of_le hlt hd.le⟩
  · exact item (reads_structItem doc)
  · exact item (reads_enumItem doc)
  · exact item (reads_synonymItem doc)
  · refine Complains.reads ((complains_fail _ rfl).bind fun _ => ?_)
    exact runs_recoverToItem.bind fun _ => .pure fun _ => trivial

end Items

end Parser

/-- The tokens of a file say its items and its header, which stands before, behind or between
them. -/
inductive Written : Option PackageHeader → List Item → List Token → Prop
  | bare {items : List Item} {ts : List Token}
      (h : said ts = plain (items.flatMap Item.words)) : Written none items ts
  | headed {front back : List Item} {header : PackageHeader} {before spelled after : List Token}
      (hfront : said before = plain (front.flatMap Item.words))
      (hheader : HeaderTokens header spelled)
      (hback : said after = plain (back.flatMap Item.words)) :
      Written (some header) (front ++ back) (before ++ (spelled ++ after))

theorem Parser.Filed.written {r r' : Reading} {items : List Item} (h : Filed r items r')
    (hnone : r.package = none) (hend : r'.rest = []) :
    (∀ item ∈ items, item.Whole) ∧ Written r'.package items r.rest := by
  cases h with
  | bare h =>
    obtain ⟨ts, htook, hts⟩ := h.2
    rw [htook.rest, hend, List.append_nil, htook.package, hnone]
    exact ⟨h.1, .bare hts⟩
  | headed hfront _ hrest hheader hsome hback =>
    obtain ⟨before, hbefore, hfrontWords⟩ := hfront.2
    obtain ⟨after, hafter, hbackWords⟩ := hback.2
    rw [hbefore.rest, hrest, hafter.rest, hend, List.append_nil, hafter.package, hsome]
    refine ⟨?_, .headed hfrontWords hheader hbackWords⟩
    intro item hitem
    exact (List.mem_append.mp hitem).elim (hfront.1 item) (hback.1 item)

/-- Where no error is reported nothing is. -/
theorem silent_of_no_error {source : SourceId} {text : String}
    (h : ∀ d ∈ (parse source text).2, ¬d.isError) :
    (Parser.items (.start source text)).2.Silent := by
  by_contra hloud
  have htold : (Reading.start source text).Told := fun hloud => absurd rfl hloud
  obtain ⟨d, hd, herror⟩ := (Parser.reads_items.run _).told htold hloud
  exact h d hd herror

theorem written_of_no_error {source : SourceId} {text : String}
    (h : ∀ d ∈ (parse source text).2, ¬d.isError) :
    (∀ item ∈ (parse source text).1.items, item.Whole) ∧
      Written (parse source text).1.package (parse source text).1.items (tokens text) := by
  obtain ⟨hfiled, hend⟩ := Parser.reads_items.result _ (silent_of_no_error h)
  exact hfiled.written rfl hend

/-- A text that is read without a diagnostic is the text of its tree: no part of the tree is
missing, and the tokens say the tree and nothing else. -/
theorem clean_text_is_written (source : SourceId) (text : String)
    (h : (parse source text).2 = []) :
    (∀ item ∈ (parse source text).1.items, item.Whole) ∧
      Written (parse source text).1.package (parse source text).1.items (tokens text) := by
  apply written_of_no_error
  simp [h]

/-- A header between two items, members with and without separators, and nested types. -/
def sampleText : String :=
  "struct Node \x7b Next: *Node, Tags: [tags.Tag] @optional; \x7d package graph.v1 alias W = float"

theorem sample_is_written :
    (parse 0 sampleText).2 = [] ∧ (∀ item ∈ (parse 0 sampleText).1.items, item.Whole) ∧
      Written (parse 0 sampleText).1.package (parse 0 sampleText).1.items (tokens sampleText) := by
  have hclean : (parse 0 sampleText).2 = [] := by decide +kernel
  exact ⟨hclean, clean_text_is_written 0 sampleText hclean⟩

end TypeGraph.Schema
