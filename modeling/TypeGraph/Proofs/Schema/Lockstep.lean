import TypeGraph.Proofs.Schema.Rounds
/-!
Two readings side by side. What reads without a report looks at the next token only, never at what
was reported before, and at the header only to keep the first one. So two readings that have the same
tokens in front of them up to some place come to that place in the same way.
-/

namespace TypeGraph.Schema

/-- The text goes on in two ways, with the same next token. -/
structure Fork where
  back : List Token
  back' : List Token
  head : back.head? = back'.head?

/-- What was reported so far. -/
def Reading.reports (r : Reading) : List Diagnostic × Option Nat :=
  (r.diagnostics, r.lastReport)

namespace Fork

/-- Two readings at the same place in front of a fork. Only the first one need have kept a header. -/
structure Abreast (w : Fork) (r s : Reading) : Prop where
  rest : ∃ front, r.rest = front ++ w.back ∧ s.rest = front ++ w.back'
  lastStop : s.lastStop = r.lastStop
  stop : s.stop = r.stop
  package : s.package = r.package ∨ r.package ≠ none

variable {w : Fork} {r s : Reading} {t : Token} {ts : List Token}

theorem Abreast.head (h : w.Abreast r s) : s.rest.head? = r.rest.head? := by
  obtain ⟨front, hr, hs⟩ := h.rest
  rw [hr, hs, List.head?_append, List.head?_append, w.head]

/-- Both have taken the next token. -/
theorem Abreast.take (h : w.Abreast r s) (hr : r.rest = t :: ts) (hback : w.back <:+ ts)
    (stop : Nat) : ∃ us, s.rest = t :: us ∧
      w.Abreast { r with rest := ts, lastStop := stop } { s with rest := us, lastStop := stop } := by
  obtain ⟨front, hrfront, hsfront⟩ := h.rest
  rw [hr] at hrfront
  cases front with
  | nil =>
    rw [List.nil_append] at hrfront
    have hle := hback.length_le
    rw [← hrfront, List.length_cons] at hle
    omega
  | cons u front =>
    obtain ⟨rfl, hts⟩ := List.cons.inj hrfront
    exact ⟨_, hsfront, ⟨front, hts, rfl⟩, rfl, h.stop, h.package⟩

/-- Work that answers the same in both readings, and reports nothing in the second one either. -/
structure Along {α : Type} (w : Fork) (m : Parser α) (r s : Reading) : Prop where
  answer : (m s).1 = (m r).1
  abreast : w.Abreast (m r).2 (m s).2
  reports : (m s).2.reports = s.reports

theorem Along.bind {α β : Type} {m : Parser α} {f : α → Parser β} (hm : w.Along m r s)
    (hf : w.Along (f (m r).1) (m r).2 (m s).2) : w.Along (m >>= f) r s := by
  constructor
  · rw [Parser.run_bind, Parser.run_bind, hm.answer, hf.answer]
  · rw [Parser.run_bind, Parser.run_bind, hm.answer]
    exact hf.abreast
  · rw [Parser.run_bind, hm.answer, hf.reports, hm.reports]

end Fork

namespace Parser

variable {α β : Type} {m : Parser α} {f : α → Parser β} {w : Fork} {r s : Reading}

/-- Work that is put together from looks at the next token, tokens that are taken, where the last one
ended, where the text ends, and the header; whatever it does after a report. -/
inductive Composed : {α : Type} → Parser α → Prop
  | pure {α : Type} (a : α) : Composed (Pure.pure a)
  | bind {α β : Type} {m : Parser α} {f : α → Parser β} (hm : Composed m)
      (hf : ∀ a, Composed (f a)) : Composed (m >>= f)
  | give {α β : Type} {m : Parser (Option α)} {f : Option α → Parser β}
      {P : Reading → α → Reading → Prop} (hm : Composed m) (hgives : Gives m P)
      (hnone : Runs (f none)) (hsome : ∀ a, Composed (f (some a))) : Composed (m >>= f)
  | complains {α : Type} {m : Parser α} (h : Complains m) : Composed m
  | current : Composed Parser.current
  | bump : Composed Parser.bump
  | lastStop {α : Type} (f : Nat → α) : Composed (get >>= fun r => Pure.pure (f r.lastStop))
  | stop {α : Type} (f : Nat → α) : Composed (get >>= fun r => Pure.pure (f r.stop))
  | keepHeader (header : PackageHeader) : Composed (keepHeader header)
  | collect {α : Type} {round : Parser (List α × Bool)} (hround : Composed round)
      (hadvances : Advances round) : Composed (collect round)

section Properties

theorem Composed.runs (h : Composed m) : Runs m := by
  induction h with
  | pure a => exact runs_pure a
  | bind _ _ ihm ihf => exact ihm.bind ihf
  | give _ _ hnone _ ihm ihsome => exact ihm.orNone hnone ihsome
  | complains h => exact h.reads
  | current => exact reads_current.runs
  | bump => exact reads_bump.runs
  | lastStop f | stop f => exact reads_get.runs.bind fun _ => runs_pure _
  | keepHeader header => exact (reads_keepHeader header).runs
  | collect _ _ ih => exact runs_collect ih

theorem settled_of_silent_bump (h : (bump r).2.Silent) : Settled r := by
  apply settled_of_silent
  cases hrest : (current r).2.rest with
  | nil =>
    rw [bump_eq_nil hrest] at h
    exact (reads_currentSpan.run _).silent h
  | cons t ts =>
    rw [bump_eq_cons hrest] at h
    exact h

theorem bump_of_nil (hrest : r.rest = []) : bump r = (⟨r.stop, r.stop⟩, r) := by
  have hcurrent : current r = (none, r) := by
    rw [current_of_settled (settled_of_nil hrest), hrest]
    rfl
  rw [bump, run_bind, hcurrent]
  show currentSpan r = _
  rw [currentSpan, run_bind, hcurrent]
  rfl

theorem along_current (h : w.Abreast r s) (hsilent : (current r).2.Silent) :
    w.Along current r s := by
  have hr := settled_of_silent hsilent
  have hs : Settled s := by
    rw [Settled, h.head]
    exact hr
  constructor
  · rw [current_of_settled hr, current_of_settled hs, h.head]
  · rw [current_of_settled hr, current_of_settled hs]
    exact h
  · rw [current_of_settled hs]

theorem along_bump (h : w.Abreast r s) (hsilent : (bump r).2.Silent)
    (hback : w.back <:+ (bump r).2.rest) : w.Along bump r s := by
  have hr := settled_of_silent_bump hsilent
  have hs : Settled s := by
    rw [Settled, h.head]
    exact hr
  cases hrest : r.rest with
  | nil =>
    have hrest' : s.rest = [] := by
      rw [← List.head?_eq_none_iff, h.head, hrest, List.head?_nil]
    constructor
    · rw [bump_of_nil hrest, bump_of_nil hrest', h.stop]
    · rw [bump_of_nil hrest, bump_of_nil hrest']
      exact h
    · rw [bump_of_nil hrest']
  | cons t ts =>
    rw [bump_of_settled hr hrest] at hback
    obtain ⟨us, hrest', htake⟩ := h.take hrest hback t.span.stop
    constructor
    · rw [bump_of_settled hr hrest, bump_of_settled hs hrest']
    · rw [bump_of_settled hr hrest, bump_of_settled hs hrest']
      exact htake
    · rw [bump_of_settled hs hrest']
      rfl

theorem along_keepHeader {header : PackageHeader} (h : w.Abreast r s)
    (hsilent : (keepHeader header r).2.Silent) : w.Along (keepHeader header) r s := by
  obtain ⟨hnone, -, -⟩ := (reads_keepHeader header).result r hsilent
  have hnone' : s.package = none := h.package.elim (·.trans hnone) fun hno => absurd hnone hno
  have hkept {r : Reading} (h : r.package = none) :
      keepHeader header r = ((), { r with package := some header }) := by
    rw [keepHeader, run_bind, run_get]
    simp only [h]
    rfl
  constructor
  · rw [hkept hnone, hkept hnone']
  · rw [hkept hnone, hkept hnone']
    exact ⟨h.rest, h.lastStop, h.stop, .inl rfl⟩
  · rw [hkept hnone']
    rfl

/-- A loop goes along as its rounds do. -/
theorem along_collect {round : Parser (List α × Bool)} (hadvances : Advances round)
    (hruns : Runs round)
    (hround : ∀ r s, w.Abreast r s → (round r).2.Silent → w.back <:+ (round r).2.rest →
      w.Along round r s) (h : w.Abreast r s) (hsilent : (collect round r).2.Silent)
    (hback : w.back <:+ (collect round r).2.rest) : w.Along (collect round) r s := by
  -- on the tokens that are left in the first reading
  induction hn : r.rest.length using Nat.strongRecOn generalizing r s with
  | ind n ih =>
    subst hn
    cases hgo : (round r).1.2 with
    | true =>
      have hcollect := hadvances.collect_of_goOn hgo
      rw [hcollect] at hsilent hback
      have hrun := (runs_collect hruns).run (round r).2
      have halong := hround r s h (hrun.silent hsilent) (hback.trans hrun.rest)
      have hgo' : (round s).1.2 = true := by rw [halong.answer, hgo]
      have hcollect' := hadvances.collect_of_goOn hgo'
      obtain ⟨hanswer, habreast, hreports⟩ :=
        ih _ (hadvances r hgo) halong.abreast hsilent hback rfl
      constructor
      · rw [hcollect, hcollect', halong.answer, hanswer]
      · rw [hcollect, hcollect']
        exact habreast
      · rw [hcollect', hreports, halong.reports]
    | false =>
      have hcollect := collect_of_stop hgo
      rw [hcollect] at hsilent hback
      have halong := hround r s h hsilent hback
      have hgo' : (round s).1.2 = false := by rw [halong.answer, hgo]
      have hcollect' := collect_of_stop hgo'
      constructor
      · rw [hcollect, hcollect', halong.answer]
      · rw [hcollect, hcollect']
        exact halong.abreast
      · rw [hcollect', halong.reports]

/-- Up to the fork, work without a report is the same in both readings. -/
theorem Composed.along (h : Composed m) (hs : w.Abreast r s) (hsilent : (m r).2.Silent)
    (hback : w.back <:+ (m r).2.rest) : w.Along m r s := by
  induction h generalizing r s with
  | pure a => exact ⟨rfl, hs, rfl⟩
  | @bind _ _ m f _ hf ihm ihf =>
    have hrun := (hf (m r).1).runs.run (m r).2
    have hm := ihm hs (hrun.silent hsilent) (hback.trans hrun.rest)
    exact hm.bind (ihf _ hm.abreast hsilent hback)
  | @give _ _ m f _ _ hgives hnone hsome ihm ihsome =>
    have hruns (a? : Option _) : Runs (f a?) := by
      cases a? with
      | none => exact hnone
      | some a => exact (hsome a).runs
    have hrun := (hruns (m r).1).run (m r).2
    have hm := ihm hs (hrun.silent hsilent) (hback.trans hrun.rest)
    obtain ⟨a, ha, -⟩ := hgives.result r (hrun.silent hsilent)
    rw [run_bind, ha] at hsilent hback
    exact hm.bind (ha ▸ ihsome a hm.abreast hsilent hback)
  | complains h => exact (h.result r hsilent).elim
  | current => exact along_current hs hsilent
  | bump => exact along_bump hs hsilent hback
  | lastStop f =>
    refine ⟨?_, hs, rfl⟩
    show f s.lastStop = f r.lastStop
    rw [hs.lastStop]
  | stop f =>
    refine ⟨?_, hs, rfl⟩
    show f s.stop = f r.stop
    rw [hs.stop]
  | keepHeader header => exact along_keepHeader hs hsilent
  | collect hround hadvances ih =>
    exact along_collect hadvances hround.runs (fun r s => ih) hs hsilent hback

end Properties

section Productions

theorem composed_currentKind : Composed currentKind :=
  .bind .current fun _ => .pure _

theorem composed_currentSpan : Composed currentSpan := by
  refine .bind .current fun t? => ?_
  cases t? with
  | some t => exact .pure _
  | none => exact .stop fun stop => (⟨stop, stop⟩ : Span)

theorem composed_eat (kind : TokenKind) : Composed (eat kind) := by
  refine .bind .current fun t? => ?_
  cases t? with
  | none => exact .pure _
  | some t =>
    by_cases hk : t.kind = kind
    · simp only [if_pos hk]
      exact .bind .bump fun _ => .pure _
    · simp only [if_neg hk]
      exact .pure _

theorem composed_expect (kind : TokenKind) : Composed (expect kind) := by
  refine .bind (composed_eat kind) fun t? => ?_
  cases t? with
  | some t => exact .pure _
  | none => exact .complains ((complains_fail _ rfl).bind fun _ => runs_pure _)

theorem composed_name : Composed name := by
  refine .bind (composed_eat .identifier) fun t? => ?_
  cases t? with
  | some t => exact .pure _
  | none => exact .complains ((complains_fail _ rfl).bind fun _ => runs_pure _)

theorem composed_docs : Composed docs := by
  refine .bind (.collect ?_ advances_docRound) fun _ => .pure _
  refine .bind (composed_eat .docComment) fun t? => ?_
  cases t? <;> exact .pure _

theorem composed_pathRest : Composed pathRest := by
  refine .collect (.bind (composed_eat .dot) fun dot? => ?_) advances_pathRound
  cases dot? with
  | some t =>
    simp only [pure_bind]
    refine .bind composed_name fun segment? => ?_
    cases segment? <;> exact .pure _
  | none =>
    refine .bind (composed_eat .slash) fun slash? => ?_
    cases slash? with
    | none => exact .pure _
    | some t =>
      refine .bind composed_name fun segment? => ?_
      cases segment? <;> exact .pure _

theorem composed_packageHeader : Composed packageHeader := by
  refine .bind .bump fun start => .bind (composed_eat .string) fun t? => ?_
  cases t? with
  | some t => exact .pure _
  | none =>
    refine .bind composed_name fun first? => ?_
    cases first? with
    | none => exact .pure _
    | some first =>
      refine .bind composed_pathRest fun segments => ?_
      split
      · exact .lastStop fun stop => some (PackageHeader.mk _ ⟨start.start, stop⟩)
      · exact .pure _

theorem composed_package : Composed package := by
  refine .bind composed_packageHeader fun header? => ?_
  cases header? with
  | none => exact .pure _
  | some header => exact .keepHeader header

theorem composed_renameArgument : Composed renameArgument := by
  refine .bind (composed_expect .leftParen) fun opening? => ?_
  cases opening? with
  | none => exact .pure _
  | some opening =>
    refine .bind (composed_eat .string) fun t? => ?_
    cases t? with
    | none =>
      apply Composed.complains
      exact (complains_fail none rfl).bind fun _ => runs_skipArguments.bind fun _ => runs_pure _
    | some t =>
      refine .bind (composed_expect .rightParen) fun closing? => ?_
      cases closing? <;> exact .pure _

theorem composed_attributeKind (word : Name) : Composed (attributeKind word) := by
  unfold attributeKind
  split
  · exact .pure _
  split
  · exact .pure _
  split
  · exact .bind composed_renameArgument fun _ => .pure _
  · apply Composed.complains
    exact (complains_report _ _ _ _ rfl).bind fun _ => runs_skipArguments.bind fun _ => runs_pure _

theorem composed_attributes : Composed attributes := by
  refine .collect (.bind (composed_eat .atSign) fun t? => ?_) advances_attributeRound
  cases t? with
  | none => exact .pure _
  | some t =>
    refine .bind composed_name fun word? => ?_
    cases word? with
    | none => exact .pure _
    | some word =>
      refine .bind (composed_attributeKind word) fun kind? => ?_
      cases kind? with
      | none => exact .pure _
      | some kind => exact .lastStop fun stop => ([Attribute.mk kind ⟨t.span.start, stop⟩], true)

theorem composed_blockRound {entry : TokenKind → Option (EntryReader α)} {opening : Span}
    (hentry : ∀ kind read doc, entry kind = some read → Composed (read doc)) :
    Composed (blockRound opening entry) := by
  have hunclosed : Complains (do
      unclosed opening
      return ([], false) : Parser (List α × Bool)) :=
    (complains_unclosed opening).bind fun _ => runs_pure _
  refine .bind composed_docs fun doc => .bind composed_currentKind fun kind? => ?_
  cases kind? with
  | none => exact .complains hunclosed
  | some kind =>
    by_cases hclose : kind = .rightBrace
    · simp only [if_pos hclose]
      exact .bind .bump fun _ => .pure _
    simp only [if_neg hclose]
    by_cases hitem : kind.startsItem
    · simp only [if_pos hitem]
      exact .complains hunclosed
    simp only [if_neg hitem]
    by_cases hseparator : kind = .comma ∨ kind = .semicolon
    · simp only [if_pos hseparator]
      exact .bind .bump fun _ => .pure _
    simp only [if_neg hseparator]
    cases hread : entry kind with
    | some read => exact .bind (hentry kind read doc hread) fun _ => .pure _
    | none =>
      apply Composed.complains
      exact (complains_fail none rfl).bind fun _ => runs_recoverInBlock.bind fun _ => runs_pure _

variable {type : Parser TypeExpr}

theorem composed_member (htype : Composed type) (doc : Option String) :
    Composed (member type doc) := by
  refine .bind composed_name fun name? => ?_
  cases name? with
  | none => exact .pure _
  | some name =>
    refine .give (composed_expect .colon) (reads_expect .colon) ?_ fun colon => ?_
    · exact runs_recoverInBlock.bind fun _ => runs_pure _
    · exact .bind htype fun x => .bind composed_attributes fun as => .pure _

theorem composed_embedded (htype : Composed type) (doc : Option String) :
    Composed (embedded type doc) := by
  refine .bind .bump fun _ => .bind htype fun x => ?_
  cases x.isHole with
  | true => exact .pure _
  | false =>
    cases x.referredName with
    | none => exact .complains ((complains_report _ _ _ _ rfl).bind fun _ => runs_pure _)
    | some text => exact .bind composed_attributes fun as => .pure _

theorem composed_memberEntry (htype : Composed type) {kind : TokenKind}
    {read : EntryReader (MemberDef TypeExpr)} (doc : Option String)
    (h : memberEntry type kind = some read) : Composed (read doc) := by
  unfold memberEntry at h
  split at h
  · obtain rfl := Option.some.inj h
    exact .bind (composed_embedded htype doc) fun _ => .pure _
  · obtain rfl := Option.some.inj h
    exact .bind (composed_member htype doc) fun _ => .pure _
  · cases h

theorem composed_memberBlock (htype : Composed type) (opening : Span) :
    Composed (block opening (memberEntry type)) := by
  refine .collect (composed_blockRound ?_) (advances_blockRound ?_)
  · exact fun kind read doc hread => composed_memberEntry htype doc hread
  · exact fun kind read doc hread => takes_memberEntry htype.runs doc hread

theorem composed_members (htype : Composed type) : Composed (members type) := by
  refine .bind (composed_expect .leftBrace) fun opening? => ?_
  cases opening? with
  | none => exact .pure _
  | some opening => exact composed_memberBlock htype opening.span

theorem composed_finish (start : Nat) (make : Span → TypeExpr) : Composed (finish start make) :=
  .lastStop fun stop => make ⟨start, max stop start⟩

theorem composed_named (start : Nat) (text : String) : Composed (named start text) := by
  refine .bind (composed_eat .dot) fun t? => ?_
  cases t? with
  | some t =>
    refine .bind composed_name fun name? => ?_
    cases name? <;> exact composed_finish start _
  | none =>
    cases Scalar.ofKeyword? text <;> exact composed_finish start _

theorem composed_type (depth : Nat) : Composed (Parser.type depth) := by
  induction depth with
  | zero =>
    unfold Parser.type
    apply Composed.complains
    refine Runs.bind_complains reads_currentSpan.runs fun span => ?_
    exact (complains_report _ _ _ _ rfl).bind fun _ => runs_pure _
  | succ depth ih =>
    have hexpected (start : Nat) : Composed (do
        fail .expectedType none
        return .hole ⟨start, start⟩ : Parser TypeExpr) :=
      .complains ((complains_fail none rfl).bind fun _ => runs_pure _)
    unfold Parser.type
    refine .bind composed_currentSpan fun span => .bind .current fun t? => ?_
    cases t? with
    | none => exact hexpected _
    | some t =>
      simp only
      split
      · exact .bind .bump fun _ => .bind ih fun x => composed_finish _ _
      · exact .bind .bump fun _ => .bind ih fun x => .bind (composed_expect _) fun _ =>
          composed_finish _ _
      · exact .bind .bump fun _ => .bind ih fun k => .bind (composed_expect _) fun _ =>
          .bind ih fun x => .bind (composed_expect _) fun _ => composed_finish _ _
      · exact .bind .bump fun _ => .bind (composed_members ih) fun ms => composed_finish _ _
      · exact .bind .bump fun _ => composed_named _ _
      · exact hexpected _

theorem composed_literal : Composed literal := by
  have hexpected : Composed (do
      fail .expectedLiteral none
      return none : Parser (Option (Literal × Span))) :=
    .complains ((complains_fail none rfl).bind fun _ => runs_pure _)
  refine .bind .current fun t? => ?_
  split
  · exact .bind .bump fun _ => .pure _
  · next text span =>
    cases integerLiteral text with
    | some value => exact .bind .bump fun _ => .pure _
    | none =>
      apply Composed.complains
      exact (complains_report _ _ _ _ rfl).bind fun _ => reads_bump.runs.bind fun _ => runs_pure _
  · next text span =>
    cases Binary64.ofText? text with
    | some value => exact .bind .bump fun _ => .pure _
    | none =>
      apply Composed.complains
      exact (complains_fail none rfl).bind fun _ => reads_bump.runs.bind fun _ => runs_pure _
  · exact hexpected

theorem composed_variant (doc : Option String) : Composed (variant doc) := by
  refine .bind composed_name fun name? => ?_
  cases name? with
  | none => exact .pure _
  | some name =>
    refine .give (composed_expect .equals) (reads_expect .equals) ?_ fun equals => ?_
    · exact runs_recoverInBlock.bind fun _ => runs_pure _
    · refine .bind composed_literal fun value? => ?_
      cases value? <;> exact .pure _

theorem composed_variantEntry {kind : TokenKind} {read : EntryReader Variant} (doc : Option String)
    (h : variantEntry kind = some read) : Composed (read doc) := by
  unfold variantEntry at h
  split at h
  · obtain rfl := Option.some.inj h
    exact .bind (composed_variant doc) fun _ => .pure _
  · cases h

theorem composed_variants : Composed variants := by
  refine .bind (composed_expect .leftBrace) fun opening? => ?_
  cases opening? with
  | none => exact .pure _
  | some opening =>
    refine .collect (composed_blockRound ?_) (advances_blockRound ?_)
    · exact fun kind read doc hread => composed_variantEntry doc hread
    · exact fun kind read doc hread => takes_variantEntry doc hread

theorem runs_recover (found : α) : Runs (recoverToItem >>= fun _ => pure found) :=
  runs_recoverToItem.bind fun _ => runs_pure found

theorem composed_structItem (doc : Option String) : Composed (structItem doc) := by
  refine .bind .bump fun _ => .give composed_name reads_name (runs_recover none) fun name => ?_
  exact .bind (composed_members (composed_type maxDepth)) fun ms => .pure _

theorem composed_enumItem (doc : Option String) : Composed (enumItem doc) := by
  refine .bind .bump fun _ => .give composed_name reads_name (runs_recover none) fun name => ?_
  refine .give (composed_expect .colon) (reads_expect .colon) (runs_recover none) fun colon => ?_
  refine .give composed_name reads_name (runs_recover none) fun base => ?_
  exact .bind composed_variants fun vs => .pure _

theorem composed_synonymItem (doc : Option String) : Composed (synonymItem doc) := by
  refine .bind .bump fun _ => .give composed_name reads_name (runs_recover none) fun name => ?_
  refine .give (composed_expect .equals) (reads_expect .equals) (runs_recover none) fun equals => ?_
  exact .bind (composed_type maxDepth) fun target => .pure _

theorem composed_itemRound : Composed itemRound := by
  refine .bind composed_docs fun doc => .bind composed_currentKind fun kind? => ?_
  split
  · exact .pure _
  · exact .bind composed_package fun _ => .pure _
  · exact .bind (composed_structItem doc) fun _ => .pure _
  · exact .bind (composed_enumItem doc) fun _ => .pure _
  · exact .bind (composed_synonymItem doc) fun _ => .pure _
  · apply Composed.complains
    exact (complains_fail _ rfl).bind fun _ => runs_recover _

theorem composed_items : Composed items :=
  .collect composed_itemRound advances_itemRound

end Productions

end Parser

end TypeGraph.Schema
