import TypeGraph.Proofs.Schema.Numerals
import TypeGraph.Proofs.Schema.Marking
import TypeGraph.Proofs.Schema.Resuming
/-!
Enumerations as they stand in a text. Where the tokens ahead are those of an enumeration, the reader
makes of every variant what its value says, and of a whole number that 64 bits do not hold one
report; the other variants are read as if it were not there.
-/

namespace TypeGraph.Schema

/-- What the tokens of a documentation say. -/
def docText (lines : List Token) : Option String :=
  if lines = [] then none
  else some ("\n".intercalate (lines.map fun t => String.ofList (docLine t.text.toList)))

/-- The literal that a token denotes. -/
def Token.literal? (t : Token) : Option Literal :=
  match t.kind with
  | .string => some (.string (stringValue t.text))
  | .integer => Parser.integerLiteral t.text
  | .float => (Binary64.ofText? t.text).map .float
  | _ => none

/-- An entry of the block of an enumeration, with the documentation in front of it. -/
inductive WrittenEntry where
  | separator (docs : List Token) (mark : Token)
  | variant (docs : List Token) (name equals value : Token)

namespace WrittenEntry

def tokens : WrittenEntry → List Token
  | separator docs mark => docs ++ [mark]
  | variant docs name equals value => docs ++ [name, equals, value]

/-- Any whole number is a value; the other values must denote a literal. -/
inductive WellFormed : WrittenEntry → Prop
  | separator {docs : List Token} {mark : Token} (hdocs : ∀ d ∈ docs, d.kind = .docComment)
      (hmark : mark.kind = .comma ∨ mark.kind = .semicolon) : WellFormed (separator docs mark)
  | variant {docs : List Token} {name equals value : Token}
      (hdocs : ∀ d ∈ docs, d.kind = .docComment) (hname : name.kind = .identifier)
      (hequals : equals.kind = .equals)
      (hvalue : value.kind = .integer ∨ value.literal?.isSome) :
      WellFormed (variant docs name equals value)

/-- The variant that is read, unless its value is too large. -/
def variant? : WrittenEntry → Option Variant
  | separator _ _ => none
  | variant docs name _ value => value.literal?.map fun v =>
      { name := ⟨name.text, name.span⟩, value := v, valueSpan := value.span, doc := docText docs }

/-- Where the value is too large. -/
def overflow? : WrittenEntry → Option Span
  | separator _ _ => none
  | variant _ _ _ value => if value.literal?.isSome then none else some value.span

end WrittenEntry

/-- An enumeration as it is written. -/
structure WrittenEnum where
  docs : List Token
  keyword : Token
  name : Token
  colon : Token
  base : Token
  opening : Token
  entries : List WrittenEntry
  /-- Documentation of nothing, before the closing brace. -/
  trailing : List Token
  closing : Token

namespace WrittenEnum

def tokens (e : WrittenEnum) : List Token :=
  e.docs ++ [e.keyword, e.name, e.colon, e.base, e.opening] ++ e.entries.flatMap (·.tokens) ++
    e.trailing ++ [e.closing]

structure WellFormed (e : WrittenEnum) : Prop where
  docs : ∀ d ∈ e.docs, d.kind = .docComment
  keyword : e.keyword.kind = .enumKeyword
  name : e.name.kind = .identifier
  colon : e.colon.kind = .colon
  base : e.base.kind = .identifier
  opening : e.opening.kind = .leftBrace
  entries : ∀ x ∈ e.entries, x.WellFormed
  trailing : ∀ d ∈ e.trailing, d.kind = .docComment
  closing : e.closing.kind = .rightBrace

/-- The item that is read: only the variants whose values are too large are missing. -/
def item (e : WrittenEnum) : Item :=
  .enum
    { name := ⟨e.name.text, e.name.span⟩
      doc := docText e.docs
      base := ⟨e.base.text, e.base.span⟩
      variants := e.entries.filterMap (·.variant?) }

/-- What is reported of a value at `span` that is too large. -/
def overflowAt (source : SourceId) (span : Span) : Diagnostic :=
  .make source .expectedLiteral span none [] ["integers must fit in 64 bits"]

/-- What is reported of the enumeration. -/
def overflows (source : SourceId) (e : WrittenEnum) : List Diagnostic :=
  (e.entries.filterMap (·.overflow?)).map (overflowAt source)

end WrittenEnum

theorem Reading.Tracks.starts_rise {r : Reading} {source : SourceId} {text : String}
    (hr : r.Tracks source text) : r.rest.Pairwise fun t u => t.span.start < u.span.start := by
  apply hr.ordered.imp_of_mem
  intro t u ht hu hle
  have hfilled := (hr.ahead t ht).1.marks.filled
  omega

namespace Parser

variable {α : Type} {r s : Reading} {t : Token} {ts : List Token} {doc : Option String}

section Blocks

theorem docs_of_lines {lines : List Token} (hlines : ∀ d ∈ lines, d.kind = .docComment)
    (hrest : r.rest = lines ++ t :: ts) (ht : t.kind ≠ .docComment) (hread : t.kind ≠ .garbage) :
    ∃ stop, docs r = (docText lines, { r with rest := t :: ts, lastStop := stop }) := by
  have hcollect : ∃ stop, collect docRound r =
      (lines.map fun t => String.ofList (docLine t.text.toList),
        { r with rest := t :: ts, lastStop := stop }) := by
    induction lines generalizing r with
    | nil =>
      have hround : docRound r = (([], false), r) := by
        rw [docRound, run_bind, eat_of_other (settled_of_cons hrest hread) hrest ht]
        rfl
      refine ⟨r.lastStop, ?_⟩
      rw [collect_of_stop (by rw [hround]), hround]
      exact Prod.ext rfl (congrArg (fun rest => { r with rest }) hrest)
    | cons line lines ih =>
      obtain ⟨hline, hmore⟩ := List.forall_mem_cons.mp hlines
      have hsettled : Settled r := settled_of_cons hrest (by rw [hline]; decide)
      have hround : docRound r = (([String.ofList (docLine line.text.toList)], true),
          { r with rest := lines ++ t :: ts, lastStop := line.span.stop }) := by
        rw [docRound, run_bind, eat_of_kind hsettled hrest hline]
        rfl
      obtain ⟨stop, hcollect⟩ := ih hmore (r := { r with
        rest := lines ++ t :: ts, lastStop := line.span.stop }) rfl
      refine ⟨stop, ?_⟩
      rw [advances_docRound.collect_of_goOn (by rw [hround]), hround, hcollect]
      rfl
  obtain ⟨stop, hcollect⟩ := hcollect
  refine ⟨stop, ?_⟩
  rw [docs, run_bind, hcollect, docText]
  simp only [List.map_eq_nil_iff]
  rfl

variable {opening : Span} {entry : TokenKind → Option (EntryReader α)}

theorem blockRound_of_close (hdocs : docs r = (doc, s)) (hrest : s.rest = t :: ts)
    (hk : t.kind = .rightBrace) : blockRound opening entry r =
      (([], false), { s with rest := ts, lastStop := t.span.stop }) := by
  have hread : t.kind ≠ .garbage := by rw [hk]; decide
  have hbump := bump_of_settled (settled_of_cons hrest hread) hrest
  rw [blockRound, run_bind, hdocs, run_bind, currentKind_of_cons hrest hread, hk]
  show (bump >>= fun _ => pure ([], false)) s = _
  rw [run_bind, hbump]
  rfl

theorem variantRound_of_identifier (hdocs : docs r = (doc, s)) (hrest : s.rest = t :: ts)
    (hk : t.kind = .identifier) : blockRound opening variantEntry r =
      (((variant doc s).1.toList, true), (variant doc s).2) := by
  rw [blockRound_of_name hdocs hrest hk rfl]
  rfl

end Blocks

section Variants

/-- Reading on with `ts`. -/
abbrev behind (r : Reading) (stop : Nat) (ts : List Token) : Reading :=
  { r with rest := ts, lastStop := stop }

/-- Reading with reports of values that are too large. -/
def overflowed (spans : List Span) (r : Reading) : Reading :=
  spans.foldl
    (fun r span => r.report .expectedLiteral span none [] ["integers must fit in 64 bits"]) r

theorem overflowed_behind (spans : List Span) (r : Reading) (stop : Nat) (ts : List Token) :
    overflowed spans (behind r stop ts) = behind (overflowed spans r) stop ts := by
  induction spans generalizing r with
  | nil => rfl
  | cons span spans ih =>
    have hreport : (behind r stop ts).report .expectedLiteral span none []
          ["integers must fit in 64 bits"] =
        behind (r.report .expectedLiteral span none [] ["integers must fit in 64 bits"]) stop ts := by
      unfold Reading.report
      split <;> rfl
    show overflowed spans ((behind r stop ts).report .expectedLiteral span none []
      ["integers must fit in 64 bits"]) = _
    rw [hreport, ih]
    rfl

@[simp] theorem rest_overflowed (spans : List Span) (r : Reading) :
    (overflowed spans r).rest = r.rest := by
  induction spans generalizing r with
  | nil => rfl
  | cons span spans ih => exact (ih _).trans Reading.rest_report

/-- The reader at a token that denotes a literal. -/
theorem literal_of_value (hrest : r.rest = t :: ts) (hv : t.literal?.isSome) :
    literal r = (t.literal?.map (·, t.span), behind r t.span.stop ts) := by
  obtain ⟨kind, text, span⟩ := t
  have hread : kind ≠ .garbage := by
    rintro rfl
    cases hv
  have hsettled := settled_of_cons hrest hread
  have hbump := bump_of_settled hsettled hrest
  rw [literal, run_bind, current_of_settled hsettled, hrest]
  cases kind with
  | string =>
    show (bump >>= fun _ => pure (some (Literal.string (stringValue text), span))) r = _
    rw [run_bind, hbump]
    rfl
  | integer =>
    obtain ⟨v, hv⟩ := Option.isSome_iff_exists.mp (show (integerLiteral text).isSome from hv)
    simp only [List.head?_cons, Token.literal?, hv]
    rw [run_bind, hbump]
    rfl
  | float =>
    cases hvalue : Binary64.ofText? text with
    | none => simp [Token.literal?, hvalue] at hv
    | some v =>
      simp only [List.head?_cons, Token.literal?, hvalue]
      rw [run_bind, hbump]
      rfl
  | _ => cases hv

/-- The reader at a whole number that is too large. -/
theorem literal_of_overflow (hrest : r.rest = t :: ts) (hk : t.kind = .integer)
    (hv : t.literal? = none) : literal r = (none, behind (overflowed [t.span] r) t.span.stop ts) := by
  have hread : t.kind ≠ .garbage := by rw [hk]; decide
  have hreport : (overflowed [t.span] r).rest = t :: ts := (rest_overflowed _ r).trans hrest
  have hbump := bump_of_settled (settled_of_cons hreport hread) hreport
  rw [literal, run_bind, current_of_settled (settled_of_cons hrest hread), hrest]
  obtain ⟨kind, text, span⟩ := t
  obtain rfl : kind = .integer := hk
  have hnone : integerLiteral text = none := hv
  simp only [List.head?_cons, hnone]
  show (bump >>= fun _ => pure none) (overflowed [span] r) = _
  rw [run_bind, hbump]
  rfl

variable {name equals value : Token}

theorem expect_of_kind {kind : TokenKind} (hrest : r.rest = t :: ts) (hread : t.kind ≠ .garbage)
    (hk : t.kind = kind) : expect kind r = (some t, behind r t.span.stop ts) := by
  rw [expect, run_bind, eat_of_kind (settled_of_cons hrest hread) hrest hk]
  rfl

theorem variant_of_tokens (hrest : r.rest = name :: equals :: value :: ts)
    (hname : name.kind = .identifier) (hequals : equals.kind = .equals)
    (hvalue : value.kind = .integer ∨ value.literal?.isSome) :
    variant doc r =
      (value.literal?.map fun v =>
          { name := ⟨name.text, name.span⟩, value := v, valueSpan := value.span, doc },
        behind (overflowed (if value.literal?.isSome then [] else [value.span]) r)
          value.span.stop ts) := by
  have hnamed := name_of_identifier (settled_of_cons hrest (by rw [hname]; decide)) hrest hname
  rw [variant, run_bind, hnamed]
  simp only
  rw [run_bind, expect_of_kind rfl (by rw [hequals]; decide) hequals]
  simp only
  rw [run_bind]
  cases hv : value.literal? with
  | some v =>
    rw [literal_of_value rfl (by rw [hv]; rfl), hv]
    rfl
  | none =>
    have hk : value.kind = .integer := hvalue.resolve_right (by rw [hv]; decide)
    rw [literal_of_overflow rfl hk hv, overflowed_behind, overflowed_behind]
    rfl

variable {x : WrittenEntry} {opening : Span}

theorem overflowed_append (front back : List Span) (r : Reading) :
    overflowed (front ++ back) r = overflowed back (overflowed front r) :=
  List.foldl_append

theorem blockRound_of_entry (hx : x.WellFormed) (hrest : r.rest = x.tokens ++ ts) :
    ∃ stop, blockRound opening variantEntry r =
      ((x.variant?.toList, true), behind (overflowed x.overflow?.toList r) stop ts) := by
  cases hx with
  | @separator lines mark hlines hmark =>
    have hmarked : mark.kind ≠ .docComment ∧ mark.kind ≠ .garbage := by
      rcases hmark with h | h <;> rw [h] <;> decide
    rw [WrittenEntry.tokens, List.append_assoc] at hrest
    obtain ⟨stop, hdocs⟩ := docs_of_lines hlines hrest hmarked.1 hmarked.2
    have hround : blockRound opening variantEntry r = _ := blockRound_of_separator hdocs rfl hmark
    exact ⟨mark.span.stop, hround⟩
  | @variant lines name equals value hlines hname hequals hvalue =>
    rw [WrittenEntry.tokens, List.append_assoc] at hrest
    obtain ⟨stop, hdocs⟩ := docs_of_lines hlines hrest (by rw [hname]; decide)
      (by rw [hname]; decide)
    refine ⟨value.span.stop, ?_⟩
    rw [variantRound_of_identifier hdocs rfl hname, variant_of_tokens rfl hname hequals hvalue,
      overflowed_behind]
    cases hv : value.literal? with
    | some v => simp [WrittenEntry.variant?, WrittenEntry.overflow?, hv]
    | none => simp [WrittenEntry.variant?, WrittenEntry.overflow?, hv]

/-- The block of an enumeration: each entry in its turn, whatever the others hold. -/
theorem block_of_entries {entries : List WrittenEntry} {trailing : List Token} {closing : Token}
    (hentries : ∀ x ∈ entries, x.WellFormed) (htrailing : ∀ d ∈ trailing, d.kind = .docComment)
    (hclosing : closing.kind = .rightBrace)
    (hrest : r.rest = entries.flatMap (·.tokens) ++ (trailing ++ closing :: ts)) :
    block opening variantEntry r = (entries.filterMap (·.variant?),
      behind (overflowed (entries.filterMap (·.overflow?)) r) closing.span.stop ts) := by
  rw [block]
  induction entries generalizing r with
  | nil =>
    obtain ⟨stop, hdocs⟩ := docs_of_lines htrailing hrest (by rw [hclosing]; decide)
      (by rw [hclosing]; decide)
    have hround : blockRound opening variantEntry r = _ := blockRound_of_close hdocs rfl hclosing
    rw [collect_of_stop (by rw [hround]), hround]
    rfl
  | cons x entries ih =>
    obtain ⟨hx, hmore⟩ := List.forall_mem_cons.mp hentries
    rw [List.flatMap_cons, List.append_assoc] at hrest
    obtain ⟨stop, hround⟩ : ∃ stop, blockRound opening variantEntry r = _ :=
      blockRound_of_entry hx hrest
    have hadvances : Advances (blockRound opening variantEntry) :=
      advances_blockRound fun _ _ doc hread => takes_variantEntry doc hread
    rw [hadvances.collect_of_goOn (by rw [hround]), hround, ih hmore rfl,
      overflowed_behind _ (overflowed x.overflow?.toList r), ← overflowed_append]
    simp only [List.filterMap_eq_flatMap_toList, List.flatMap_cons]

theorem enumItem_of_tokens {e : WrittenEnum} (he : e.WellFormed)
    (hrest : r.rest = e.keyword :: e.name :: e.colon :: e.base :: e.opening ::
      (e.entries.flatMap (·.tokens) ++ (e.trailing ++ e.closing :: ts))) :
    enumItem doc r =
      (some (.enum
          { name := ⟨e.name.text, e.name.span⟩, doc, base := ⟨e.base.text, e.base.span⟩
            variants := e.entries.filterMap (·.variant?) }),
        behind (overflowed (e.entries.filterMap (·.overflow?)) r) e.closing.span.stop ts) := by
  have hbump := bump_of_settled (settled_of_cons hrest (by rw [he.keyword]; decide)) hrest
  have hname {n : Token} (hn : n.kind = .identifier) (stop : Nat) (us : List Token) :
      name (behind r stop (n :: us)) = (some ⟨n.text, n.span⟩, behind r n.span.stop us) :=
    name_of_identifier (settled_of_cons rfl (by rw [hn]; decide)) rfl hn
  rw [enumItem, run_bind, hbump]
  simp only
  rw [run_bind, hname he.name]
  simp only
  rw [run_bind, expect_of_kind rfl (by rw [he.colon]; decide) he.colon]
  simp only
  rw [run_bind, hname he.base]
  simp only
  rw [run_bind, variants, run_bind, expect_of_kind rfl (by rw [he.opening]; decide) he.opening]
  simp only
  rw [block_of_entries he.entries he.trailing he.closing rfl, overflowed_behind _ r]
  rfl

theorem itemRound_of_enum {e : WrittenEnum} (he : e.WellFormed) (hrest : r.rest = e.tokens ++ ts) :
    itemRound r = (([e.item], true),
      behind (overflowed (e.entries.filterMap (·.overflow?)) r) e.closing.span.stop ts) := by
  have hread : e.keyword.kind ≠ .docComment ∧ e.keyword.kind ≠ .garbage := by
    rw [he.keyword]
    decide
  have htokens : r.rest = e.docs ++ (e.keyword :: e.name :: e.colon :: e.base :: e.opening ::
      (e.entries.flatMap (·.tokens) ++ (e.trailing ++ e.closing :: ts))) := by
    rw [hrest]
    simp [WrittenEnum.tokens]
  obtain ⟨stop, hdocs⟩ := docs_of_lines he.docs htokens hread.1 hread.2
  rw [itemRound, run_bind, hdocs, run_bind, currentKind_of_cons rfl hread.2, he.keyword]
  show (enumItem (docText e.docs) >>= fun item? => pure (item?.toList, true)) _ = _
  rw [run_bind, enumItem_of_tokens he rfl, overflowed_behind _ r]
  rfl

end Variants

section Overflow

variable {spans : List Span}

/-- Every value that is too large is reported, if each stands in a place of its own. -/
theorem diagnostics_overflowed (hfirst : ∀ span ∈ spans, r.lastReport ≠ some span.start)
    (hrise : spans.Pairwise fun a b => a.start < b.start) :
    (overflowed spans r).diagnostics =
      r.diagnostics ++ spans.map (WrittenEnum.overflowAt r.source) := by
  induction spans generalizing r with
  | nil => exact (List.append_nil _).symm
  | cons span spans ih =>
    obtain ⟨hlater, hmore⟩ := List.pairwise_cons.mp hrise
    obtain ⟨hspan, -⟩ := List.forall_mem_cons.mp hfirst
    have hreport : r.report .expectedLiteral span none [] ["integers must fit in 64 bits"] =
        { r with
          lastReport := some span.start
          diagnostics := r.diagnostics ++ [WrittenEnum.overflowAt r.source span] } := by
      rw [Reading.report, if_neg hspan]
      rfl
    show (overflowed spans (r.report .expectedLiteral span none []
      ["integers must fit in 64 bits"])).diagnostics = _
    rw [hreport, ih ?_ hmore]
    · simp
    · intro b hb heq
      have hlt := hlater b hb
      have hsame : span.start = b.start := Option.some.inj heq
      omega

theorem package_overflowed (spans : List Span) (r : Reading) :
    (overflowed spans r).package = r.package := by
  induction spans generalizing r with
  | nil => rfl
  | cons span spans ih => exact (ih _).trans Reading.package_report

theorem overflows_sublist (entries : List WrittenEntry) :
    (entries.filterMap (·.overflow?)).Sublist
      ((entries.flatMap (·.tokens)).map (·.span)) := by
  induction entries with
  | nil => exact .slnil
  | cons x entries ih =>
    have hx : x.overflow?.toList.Sublist (x.tokens.map (·.span)) := by
      cases x with
      | separator lines mark => exact List.nil_sublist _
      | variant lines name equals value =>
        rw [WrittenEntry.overflow?, WrittenEntry.tokens]
        split
        · exact List.nil_sublist _
        · simp
    rw [List.flatMap_cons, List.map_append]
    simpa [List.filterMap_eq_flatMap_toList] using hx.append ih

theorem diagnostics_of_enum {source : SourceId} {text : String} {e : WrittenEnum}
    (hr : r.Tracks source text) (hrest : r.rest = e.tokens ++ ts) :
    (overflowed (e.entries.filterMap (·.overflow?)) r).diagnostics =
      r.diagnostics ++ e.overflows source := by
  have htokens : r.rest = e.docs ++ (e.keyword :: ([e.name, e.colon, e.base, e.opening] ++
      (e.entries.flatMap (·.tokens) ++ (e.trailing ++ e.closing :: ts)))) := by
    rw [hrest]
    simp [WrittenEnum.tokens]
  have hrise := hr.starts_rise
  rw [htokens, List.pairwise_append, List.pairwise_cons, List.pairwise_append,
    List.pairwise_append] at hrise
  obtain ⟨-, ⟨hbehind, -, ⟨hentries, -, -⟩, -⟩, -⟩ := hrise
  have hspans := overflows_sublist e.entries
  rw [diagnostics_overflowed, hr.source_eq]
  · rfl
  · intro span hspan hlast
    obtain ⟨t, ht, rfl⟩ := List.mem_map.mp (hspans.subset hspan)
    have hlt := hbehind t (by simp [ht])
    rw [hr.lastReport_eq] at hlast
    obtain ⟨d, hd, hstart⟩ := Option.map_eq_some_iff.mp hlast
    have hle := hr.behind d (List.mem_of_getLast? hd) e.keyword (by rw [htokens]; simp)
    omega
  · refine .sublist hspans (List.pairwise_map.mpr ?_)
    exact hentries

end Overflow

/-- Rounds run one after another from one point of reading to another. -/
inductive Comes (round : Parser (List α × Bool)) : Reading → List α → Reading → Prop
  | refl (r : Reading) : Comes round r [] r
  | step {r s t : Reading} {found more : List α} (h : round r = ((found, true), s))
      (hmore : Comes round s more t) : Comes round r (found ++ more) t

theorem Comes.collect {round : Parser (List α × Bool)} {found : List α} (h : Comes round r found s)
    (hadvances : Advances round) :
    collect round r = (found ++ (collect round s).1, (collect round s).2) := by
  induction h with
  | refl r => rfl
  | step h hmore ih =>
    rw [hadvances.collect_of_goOn (by rw [h]), h, ih, List.append_assoc]

theorem Comes.tracks {source : SourceId} {text : String} {found : List Item}
    (h : Comes itemRound r found s) (hr : r.Tracks source text) : s.Tracks source text := by
  induction h with
  | refl r => exact hr
  | step h hmore ih =>
    have hs := (traces_itemRound _ hr).tracks
    rw [h] at hs
    exact ih hs

end Parser

/-- What becomes of a whole number `n`, given the literal that is read: it is kept exactly if 64 bits
hold it, and written in the canonical way. -/
structure Numeral.Survives (n : Int) (literal? : Option Literal) : Prop where
  accepted : (∃ v, literal? = some v) ↔ -Int.pow 2 63 ≤ n ∧ n < Int.pow 2 64
  kept : ∀ v ∈ literal?, Keeps n v
  fits_uint : ∀ v ∈ literal?, v.fits .uint ↔ 0 ≤ n
  fits_number : ∀ v ∈ literal?, v.fits .int ∧ v.fits .float
  written : ∀ m : EnumMember, m.value ∈ literal? → ∃ w : String, Canonical w.toList ∧
    value w.toList = n ∧
    Output.TypeScript.enumMember m = m.indent ++ Output.TypeScript.propertyName m.name ++ " = " ++
      w ++ "," ++ Output.TypeScript.trailingComment m.comment ++ "\n"

theorem survives_integerLiteral (text : String) :
    Numeral.Survives (Numeral.value text.toList) (Parser.integerLiteral text) where
  accepted := Numeral.exists_integerLiteral_iff
  kept v hv := Numeral.integerLiteral_iff.mp hv
  fits_uint v hv := (Numeral.integerLiteral_iff.mp hv).fits_uint_iff
  fits_number v hv := (Numeral.integerLiteral_iff.mp hv).fits_number
  written m hm := by
    refine ⟨_, Numeral.canonical_toString _, Numeral.value_toString _, ?_⟩
    rw [Output.TypeScript.enumMember, (Numeral.integerLiteral_iff.mp hm).text_eq]

/-- Wherever an enumeration stands in a text, its variants are read, but for those whose whole number
64 bits do not hold: each of these is reported once, and reading goes on behind the enumeration. The
literal of a whole number is exact. -/
theorem whole_numbers_are_exact :
    (∀ (source : SourceId) (text : String) (found : List Item) (r : Reading) (e : WrittenEnum)
      (after : List Token), e.WellFormed →
        Parser.Comes Parser.itemRound (.start source text) found r → r.rest = e.tokens ++ after →
          ∃ s : Reading, s.rest = after ∧ s.package = r.package ∧
            s.diagnostics = r.diagnostics ++ e.overflows source ∧
            parse source text =
              ({ source, package := (Parser.items s).2.package
                 items := found ++ e.item :: (Parser.items s).1 },
                (Parser.items s).2.diagnostics)) ∧
      ∀ t : Token, t.kind = .integer → Numeral.Survives (Numeral.value t.text.toList) t.literal? := by
  constructor
  · intro source text found r e after he hcomes hrest
    have htracks := hcomes.tracks (Reading.Tracks.start source text)
    have hround := Parser.itemRound_of_enum he hrest
    refine ⟨Parser.behind _ e.closing.span.stop after, rfl, Parser.package_overflowed _ r,
      Parser.diagnostics_of_enum htracks hrest, ?_⟩
    · rw [parse_eq, Parser.items, hcomes.collect Parser.advances_itemRound,
        Parser.advances_itemRound.collect_of_goOn (by rw [hround]), hround]
      rfl
  · intro t ht
    obtain ⟨kind, text, span⟩ := t
    obtain rfl : kind = .integer := ht
    exact survives_integerLiteral text

/-- A number with zeros in front, one that is too large by one, and a minus before zero. -/
theorem numbers_at_the_limits :
    (parse 0 "enum E : uint \x7b A = 007 B = 18446744073709551616; C = -0 \x7d").1.items =
        [.enum
          { name := ⟨"E", ⟨5, 6⟩⟩, doc := none, base := ⟨"uint", ⟨9, 13⟩⟩
            variants := [⟨⟨"A", ⟨16, 17⟩⟩, .int 7, ⟨20, 23⟩, none⟩,
              ⟨⟨"C", ⟨50, 51⟩⟩, .int 0, ⟨54, 56⟩, none⟩] }] ∧
      (parse 0 "enum E : uint \x7b A = 007 B = 18446744073709551616; C = -0 \x7d").2 =
        [WrittenEnum.overflowAt 0 ⟨28, 48⟩] ∧
      Numeral.Survives 7 (some (.int 7)) := by
  let word (kind : TokenKind) (text : String) (start stop : Nat) : Token :=
    ⟨kind, text, ⟨start, stop⟩⟩
  let e : WrittenEnum :=
    { docs := []
      keyword := word .enumKeyword "enum" 0 4
      name := word .identifier "E" 5 6
      colon := word .colon ":" 7 8
      base := word .identifier "uint" 9 13
      opening := word .leftBrace "\x7b" 14 15
      entries :=
        [.variant [] (word .identifier "A" 16 17) (word .equals "=" 18 19) (word .integer "007" 20 23),
          .variant [] (word .identifier "B" 24 25) (word .equals "=" 26 27)
            (word .integer "18446744073709551616" 28 48),
          .separator [] (word .semicolon ";" 48 49),
          .variant [] (word .identifier "C" 50 51) (word .equals "=" 52 53) (word .integer "-0" 54 56)]
      trailing := []
      closing := word .rightBrace "\x7d" 57 58 }
  have he : e.WellFormed := by
    constructor <;> try decide
    intro x hx
    simp only [e, List.mem_cons, List.not_mem_nil, or_false] at hx
    rcases hx with rfl | rfl | rfl | rfl
    · exact .variant nofun rfl rfl (.inl rfl)
    · exact .variant nofun rfl rfl (.inl rfl)
    · exact .separator nofun (.inr rfl)
    · exact .variant nofun rfl rfl (.inl rfl)
  obtain ⟨s, hrest, -, hdiagnostics, hparse⟩ := whole_numbers_are_exact.1 0
    "enum E : uint \x7b A = 007 B = 18446744073709551616; C = -0 \x7d" [] _ e [] he (.refl _)
    (by decide +kernel)
  have hvariants : e.entries.filterMap (·.variant?) =
      [⟨⟨"A", ⟨16, 17⟩⟩, .int 7, ⟨20, 23⟩, none⟩, ⟨⟨"C", ⟨50, 51⟩⟩, .int 0, ⟨54, 56⟩, none⟩] := by
    decide +kernel
  have hoverflows : e.overflows 0 = [WrittenEnum.overflowAt 0 ⟨28, 48⟩] := by decide +kernel
  rw [hparse, Parser.items_of_nil hrest, hdiagnostics, hoverflows]
  refine ⟨?_, rfl, ?_⟩
  · show [e.item] = _
    rw [WrittenEnum.item, hvariants]
    rfl
  · have hsurvives : Numeral.Survives (Numeral.value "007".toList) (Parser.integerLiteral "007") :=
      whole_numbers_are_exact.2 (word .integer "007" 20 23) rfl
    have hvalue : Numeral.value "007".toList = 7 := by decide +kernel
    have hliteral : Parser.integerLiteral "007" = some (.int 7) := by decide +kernel
    rwa [hvalue, hliteral] at hsurvives

end TypeGraph.Schema
