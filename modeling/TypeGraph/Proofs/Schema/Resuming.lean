import TypeGraph.Proofs.Schema.Mending
import TypeGraph.Proofs.Schema.Recovering
/-!
Reading on behind the error. A token that nobody misses is left with it; then the next member is at
hand, and a block whose member was cut is read to its end as before.
-/

namespace TypeGraph.Schema

namespace Reading

variable {r r' : Reading}

theorem Step.stop (h : r.Step r') : r'.stop = r.stop := by
  have hreport {kind : Diagnostic.Kind} (span : Span) (detail? : Option String)
      (related : List Diagnostic.Related) (hints : List String) :
      (r.report kind span detail? related hints).stop = r.stop := by
    unfold Reading.report
    split <;> rfl
  cases h with
  | report span detail? related hints => exact hreport span detail? related hints
  | leave => exact hreport _ none [] []
  | take | package => rfl

theorem Run.stop (h : r.Run r') : r'.stop = r.stop := by
  induction h with
  | refl => rfl
  | tail _ hstep ih => exact hstep.stop.trans ih

/-- The same place, after a report of some kind. -/
structure Reported (kind : Diagnostic.Kind) (r r' : Reading) : Prop where
  rest : r'.rest = r.rest
  lastStop : r'.lastStop = r.lastStop
  stop : r'.stop = r.stop
  package : r'.package = r.package
  told : ∃ d, d.kind = kind ∧ r'.diagnostics = r.diagnostics ++ [d]

/-- The first report is made. -/
theorem Silent.reported (h : r.Silent) (kind : Diagnostic.Kind) (span : Span)
    (detail? : Option String) : r.Reported kind (r.report kind span detail? [] []) := by
  have hfirst : r.lastReport ≠ some span.start := by rw [h]; nofun
  rw [Reading.report, if_neg hfirst]
  exact ⟨rfl, rfl, rfl, rfl, _, rfl, rfl⟩

end Reading

theorem FirstStripped.refl {α : Type} (strip : α → α) (xs : List α) : FirstStripped strip xs xs :=
  ⟨rfl, rfl⟩

/-- At the fork. -/
theorem Fork.Abreast.at_fork {w : Fork} {r s : Reading} (h : w.Abreast r s)
    (hr : r.rest = w.back) : s.rest = w.back' := by
  obtain ⟨front, hfront, hs⟩ := h.rest
  have hnil : front = [] := List.append_left_eq_self.mp (hfront.symm.trans hr)
  rw [hs, hnil, List.nil_append]

namespace Parser

variable {α β : Type} {r s : Reading} {t : Token} {ts : List Token} {kind : TokenKind}

section Steps

theorem name_of_identifier (h : Settled r) (hrest : r.rest = t :: ts) (hk : t.kind = .identifier) :
    name r = (some ⟨t.text, t.span⟩, { r with rest := ts, lastStop := t.span.stop }) := by
  rw [name, run_bind, eat_of_kind h hrest hk]
  rfl

theorem eat_of_missing (h : Settled r) (hk : ∀ t ∈ r.rest.head?, t.kind ≠ kind) :
    eat kind r = (none, r) := by
  cases hrest : r.rest with
  | nil => exact eat_of_nil hrest
  | cons t ts => exact eat_of_other h hrest (hk t (by rw [hrest]; rfl))

theorem fail_reported (h : Settled r) (hsilent : r.Silent) (report : Diagnostic.Kind)
    (detail? : Option String) : ∃ s, fail report detail? r = ((), s) ∧ r.Reported report s := by
  have hspan : (currentSpan r).2 = r := by
    rw [currentSpan, run_bind, current_of_settled h]
    cases r.rest.head? <;> rfl
  have hfail : fail report detail? r = ((), r.report report (currentSpan r).1 detail? [] []) := by
    rw [fail, run_bind, hspan]
    rfl
  exact ⟨_, hfail, hsilent.reported _ _ _⟩

theorem name_missing (h : Settled r) (hsilent : r.Silent)
    (hk : ∀ t ∈ r.rest.head?, t.kind ≠ .identifier) :
    ∃ s, name r = (none, s) ∧ r.Reported .expectedName s := by
  obtain ⟨s, hfail, hreported⟩ := fail_reported h hsilent .expectedName none
  refine ⟨s, ?_, hreported⟩
  rw [name, run_bind, eat_of_missing h hk]
  simp only
  rw [run_bind, hfail]
  rfl

theorem expect_missing (h : Settled r) (hsilent : r.Silent)
    (hk : ∀ t ∈ r.rest.head?, t.kind ≠ kind) :
    ∃ s, expect kind r = (none, s) ∧ r.Reported .expectedToken s := by
  obtain ⟨s, hfail, hreported⟩ := fail_reported h hsilent .expectedToken (some kind.label)
  refine ⟨s, ?_, hreported⟩
  rw [expect, run_bind, eat_of_missing h hk]
  simp only
  rw [run_bind, hfail]
  rfl

theorem skipUntil_of_stop {stops : List Token → Bool} (hsettled : Settled r)
    (h : r.rest = [] ∨ stops r.rest) : skipUntil stops r = ((), r) := by
  have hround : skipRound stops r = (([], false), r) := by
    have hcurrent := current_of_settled hsettled
    rcases h with hnil | hstop
    · rw [skipRound, run_bind, hcurrent, hnil]
      rfl
    · rw [skipRound_of_stop (by rw [hcurrent]; exact hstop), hcurrent]
  have hstop : (skipRound stops r).1.2 = false := by rw [hround]
  rw [skipUntil, run_bind, collect_of_stop hstop, hround]
  rfl

theorem settled_of_atMember (h : atMember r.rest) : Settled r := by
  intro t ht hgarbage
  obtain ⟨ts, hts⟩ := List.head?_eq_some_iff.mp ht
  simp [hts, atMember, hgarbage, TokenKind.startsItem] at h

/-- In front of a member only the token that does not fit is left. -/
theorem recoverInBlock_of_cons (hsettled : Settled r) (hrest : r.rest = t :: ts)
    (h : atMember ts) :
    recoverInBlock r = ((), { r with rest := ts, lastStop := t.span.stop }) := by
  have hbumped : Settled { r with rest := ts, lastStop := t.span.stop } := settled_of_atMember h
  rw [recoverInBlock, run_bind, bump_of_settled hsettled hrest, skipUntil_of_stop hbumped (.inr h)]

/-- The documentation in front of the cut is read in both readings. -/
theorem docs_of_abreast {v : Victim} {kept body back : List Token} {hcut : v.Cut kept body}
    {doc : Option String} {r₁ : Reading} (hdocs : docs r = (doc, r₁)) (hsilent : r₁.Silent)
    (hrest : r₁.rest = kept ++ (body ++ back)) (hs : (hcut.fork back).Abreast r s) :
    ∃ s₁, docs s = (doc, s₁) ∧ s₁.rest = kept ++ back ∧ s₁.stop = r₁.stop ∧
      (s₁.package = r₁.package ∨ r₁.package ≠ none) ∧ s₁.reports = s.reports := by
  have hleft : (hcut.fork back).back <:+ (docs r).2.rest := by
    rw [hdocs, hrest]
    exact List.suffix_rfl
  have halong := composed_docs.along hs (by rw [hdocs]; exact hsilent) hleft
  obtain ⟨hdoc, habreast, hreports⟩ := halong
  rw [hdocs] at hdoc habreast
  exact ⟨(docs s).2, Prod.ext hdoc rfl, habreast.at_fork hrest, habreast.stop, habreast.package,
    hreports⟩

end Steps

/-- What is known of silent work may depend on its silence. -/
theorem Reads.mono_silent {m : Parser α} {P Q : Reading → α → Reading → Prop} (h : Reads m P)
    (hp : ∀ r a r', r'.Silent → P r a r' → Q r a r') : Reads m Q :=
  ⟨h.run, fun r hs => hp _ _ _ hs (h.result r hs)⟩

section Loops

variable {round : Parser (List α × Bool)}

theorem Advances.collect_congr (h : Advances round) (hround : round r = round s) :
    collect round r = collect round s := by
  cases hgo : (round s).1.2 with
  | true => rw [h.collect_of_goOn hgo, h.collect_of_goOn (hround ▸ hgo), hround]
  | false => rw [collect_of_stop hgo, collect_of_stop (hround ▸ hgo), hround]

/-- What a loop does behind its first round. -/
def others (round : Parser (List α × Bool)) (x : List α × Bool) : Parser (List α) :=
  if x.2 then collect round >>= fun more => return x.1 ++ more else return x.1

theorem Advances.collect_eq_bind (h : Advances round) : collect round = round >>= others round := by
  funext r
  rw [run_bind, others]
  cases hgo : (round r).1.2 with
  | true =>
    rw [h.collect_of_goOn hgo, if_pos rfl]
    rfl
  | false =>
    rw [collect_of_stop hgo, if_neg Bool.false_ne_true]
    rfl

theorem silent_of_collect (hround : Runs round) (hsilent : (collect round r).2.Silent) :
    (round r).2.Silent := by
  rw [collect_eq] at hsilent
  split at hsilent
  · exact ((runs_collect hround).run _).silent hsilent
  · exact hsilent

variable {v : Victim} {R : Reading → Reading → Prop} {O : α → Prop}
variable {L : List α → List α → Prop}

theorem composed_others (hround : Composed round) (hadvances : Advances round)
    (x : List α × Bool) : Composed (others round x) := by
  unfold others
  cases x.2 with
  | true => exact .bind (.collect hround hadvances) fun _ => .pure _
  | false => exact .pure _

/-- The victim is in the first round. -/
theorem Mends.first_round (hround : Composed round) (hadvances : Advances round)
    (h : Mends v Fork.behind.Abreast (fun x y => y.2 = x.2 ∧ L x.1 y.1) round r)
    (hL : ∀ xs ys more, L xs ys → L (xs ++ more) (ys ++ more))
    (hsilent : (collect round r).2.Silent) :
    Mends v Fork.behind.Abreast L (collect round) r := by
  rw [hadvances.collect_eq_bind] at hsilent ⊢
  refine h.after (composed_others hround hadvances) hsilent ?_
  rintro x y r ⟨hgo, hlost⟩
  rw [others, others, hgo]
  cases x.2 with
  | true => exact ⟨rfl, hL _ _ _ hlost⟩
  | false => exact ⟨rfl, hlost⟩

/-- A loop is mended if it is where the victim is in its first round. -/
theorem Mends.collect (hround : Composed round) (hadvances : Advances round)
    (hfirst : ∀ r, (collect round r).2.Silent → (∃ x ∈ (round r).1.1, O x) →
      Mends v R L (collect round) r)
    (hL : ∀ front xs ys, L xs ys → L (front ++ xs) (front ++ ys))
    (hsilent : (collect round r).2.Silent) (hO : ∃ x ∈ (collect round r).1, O x) :
    Mends v R L (collect round) r := by
  -- on the tokens that are left
  induction hn : r.rest.length using Nat.strongRecOn generalizing r with
  | ind n ih =>
    subst hn
    by_cases hhere : ∃ x ∈ (round r).1.1, O x
    · exact hfirst r hsilent hhere
    cases hgo : (round r).1.2 with
    | false =>
      rw [collect_of_stop hgo] at hO
      exact absurd hO hhere
    | true =>
      have hcollect := hadvances.collect_of_goOn hgo
      rw [hcollect] at hsilent hO
      obtain ⟨x, hx, hOx⟩ := hO
      have hlater : x ∈ (collect round (round r).2).1 :=
        (List.mem_append.mp hx).resolve_left fun hx => hhere ⟨x, hx, hOx⟩
      have hmends := ih _ (hadvances r hgo) hsilent ⟨x, hlater, hOx⟩ rfl
      have hothers : Mends v R L (others round (round r).1) (round r).2 := by
        rw [others, if_pos hgo]
        exact hmends.map (hL (round r).1.1)
      rw [hadvances.collect_eq_bind]
      refine .before hround (fun x => (composed_others hround hadvances x).runs) ?_ hothers
      rw [← hadvances.collect_eq_bind, hcollect]
      exact hsilent

end Loops

section Documentation

variable {strip : α → α}

/-- Documentation is only stored. -/
abbrev Stores (strip : α → α) (read : Option String → Parser (List α × Bool)) : Prop :=
  Passes (fun _ _ => True) (fun x y => y.2 = x.2 ∧ FirstStripped strip x.1 y.1) read

/-- A line of documentation that is not read is not stored. -/
theorem docs_of_doc (hsettled : Settled r) (hrest : r.rest = t :: ts) (hk : t.kind = .docComment) :
    (docs { r with rest := ts, lastStop := t.span.stop }).2 = (docs r).2 := by
  have hround : docRound r =
      (([String.ofList (docLine t.text.toList)], true),
        { r with rest := ts, lastStop := t.span.stop }) := by
    rw [docRound, run_bind, eat_of_kind hsettled hrest hk]
    rfl
  have hgo : (docRound r).1.2 = true := by rw [hround]
  rw [docs, run_bind, run_bind, advances_docRound.collect_of_goOn hgo, hround]
  rfl

/-- A loop whose rounds begin with documentation, behind a line of it. -/
theorem collect_behind_doc {read : Option String → Parser (List α × Bool)}
    (hadvances : Advances (docs >>= read)) (hstores : Stores strip read) (hsettled : Settled r)
    (hrest : r.rest = t :: ts) (hk : t.kind = .docComment) :
    (collect (docs >>= read) { r with rest := ts, lastStop := t.span.stop }).2 =
        (collect (docs >>= read) r).2 ∧
      FirstStripped strip (collect (docs >>= read) r).1
        (collect (docs >>= read) { r with rest := ts, lastStop := t.span.stop }).1 := by
  have hdocs := docs_of_doc hsettled hrest hk
  generalize hr' : ({ r with rest := ts, lastStop := t.span.stop } : Reading) = r' at hdocs ⊢
  obtain ⟨hsame, hgo', hfound⟩ := hstores (docs r).1 (docs r').1 (docs r).2 trivial
  have hround : read (docs r).1 (docs r).2 = (docs >>= read) r := rfl
  have hround' : read (docs r').1 (docs r).2 = (docs >>= read) r' := by rw [run_bind, hdocs]
  rw [hround, hround'] at hsame hgo' hfound
  cases hgo : ((docs >>= read) r).1.2 with
  | true =>
    rw [hadvances.collect_of_goOn hgo, hadvances.collect_of_goOn (hgo'.trans hgo), hsame]
    exact ⟨rfl, hfound.append _⟩
  | false =>
    rw [collect_of_stop hgo, collect_of_stop (hgo'.trans hgo)]
    exact ⟨hsame, hfound⟩

end Documentation

section Members

variable {k : MemberDef TypeExpr} {type : Parser TypeExpr} {opening : Span}
variable {strip : α → α} {entry : TokenKind → Option (EntryReader α)}

theorem Passes.const {L : α → α → Prop} {L' : β → β → Prop} {m : Parser β} (h : ∀ b, L' b b) :
    Passes L L' fun _ => m :=
  fun _ _ _ _ => ⟨rfl, h _⟩

theorem Passes.map {γ : Type} {L : α → α → Prop} {K : β → β → Prop} {L' : γ → γ → Prop}
    {f : α → Parser β} {g : β → γ} (h : Passes L K f) (hg : ∀ b b', K b b' → L' (g b) (g b')) :
    Passes L L' fun a => f a >>= fun b => Pure.pure (g b) :=
  fun a a' r ha => ⟨(h a a' r ha).1, hg _ _ (h a a' r ha).2⟩

theorem passes_member (type : Parser TypeExpr) : Passes (fun _ _ => True)
    (fun a b => FirstStripped MemberDef.withoutDoc a.toList b.toList) (member type) := by
  refine .bind fun name? => ?_
  cases name? with
  | none => exact .const fun _ => .refl _ _
  | some name =>
    refine .bind fun colon? => ?_
    cases colon? with
    | none => exact .const fun _ => .refl _ _
    | some colon => exact .bind fun x => .bind fun as => .pure fun _ _ _ => ⟨rfl, rfl⟩

theorem passes_embedded (type : Parser TypeExpr) : Passes (fun _ _ => True)
    (fun a b => FirstStripped MemberDef.withoutDoc a.toList b.toList) (embedded type) := by
  refine .bind fun _ => .bind fun x => ?_
  cases x.isHole with
  | true => exact .const fun _ => .refl _ _
  | false =>
    cases x.referredName with
    | none => exact .const fun _ => .refl _ _
    | some text => exact .bind fun as => .pure fun _ _ _ => ⟨rfl, rfl⟩

theorem passes_memberEntry {read : EntryReader (MemberDef TypeExpr)} {kind : TokenKind}
    (h : memberEntry type kind = some read) :
    Passes (fun _ _ => True) (FirstStripped MemberDef.withoutDoc) read := by
  unfold memberEntry at h
  split at h
  · obtain rfl := Option.some.inj h
    exact (passes_embedded type).map fun _ _ h => h
  · obtain rfl := Option.some.inj h
    exact (passes_member type).map fun _ _ h => h
  · cases h

/-- The rounds of a block read documentation first, and only store it. -/
theorem exists_stores_blockRound (opening : Span) (hentry : ∀ kind read, entry kind = some read →
    Passes (fun _ _ => True) (FirstStripped strip) read) :
    ∃ read, blockRound opening entry = docs >>= read ∧ Stores strip read := by
  have hsame (x : List α × Bool) : x.2 = x.2 ∧ FirstStripped strip x.1 x.1 := ⟨rfl, .refl _ _⟩
  refine ⟨_, rfl, .bind fun kind? => ?_⟩
  cases kind? with
  | none => exact .const hsame
  | some kind =>
    simp only
    split
    · exact .const hsame
    split
    · exact .const hsame
    split
    · exact .const hsame
    cases hread : entry kind with
    | some read => exact (hentry kind read hread).map fun _ _ h => ⟨rfl, h⟩
    | none => exact .const hsame

theorem answers_embedded (type : Parser TypeExpr) (doc : Option String) :
    Answers (embedded type doc) fun k? => ∀ k ∈ k?, k.embedded = true := by
  refine .bind fun _ => .bind fun x => ?_
  cases x.isHole with
  | true => exact .pure nofun
  | false =>
    cases x.referredName with
    | none => exact .bind fun _ => .pure nofun
    | some text =>
      refine .bind fun as => .pure fun k hk => ?_
      obtain rfl := Option.some.inj hk
      rfl

theorem reads_name_token : Gives name fun r n r' =>
    ∃ t, t.kind = .identifier ∧ n = ⟨t.text, t.span⟩ ∧ r.Took [t] r' := by
  refine (reads_eat .identifier).bind fun t? => ?_
  cases t? with
  | some t => exact .pure fun s r h => ⟨_, rfl, t, h.1, rfl, h.2⟩
  | none =>
    apply Complains.reads
    exact (complains_fail _ rfl).bind fun _ => runs_pure _

/-- A member begins with its name and a colon. -/
theorem reads_memberHead (htype : Runs type) (doc : Option String) :
    Reads (member type doc) fun r k? _ => ∃ t c ts, r.rest = t :: c :: ts ∧
      t.kind = .identifier ∧ c.kind = .colon ∧ ∀ k ∈ k?, k.name.span = t.span := by
  refine reads_name_token.bind (runs_pure _) fun name => (reads_expect .colon).bind ?_ fun c => ?_
  · exact runs_recoverInBlock.bind fun _ => runs_pure _
  refine Reads.bind htype fun x => Reads.bind reads_attributes.runs fun as => .pure ?_
  intro r' _ _ _ _ s hc r hname
  obtain ⟨t, ht, rfl, htook⟩ := hname
  refine ⟨t, c, _, by rw [htook.rest, hc.2.rest]; rfl, ht, hc.1, ?_⟩
  intro k hk
  obtain rfl := Option.some.inj hk
  rfl

theorem atMember_of_docs {doc : Option String} (hdocs : docs r = (doc, s)) (hsilent : s.Silent)
    (h : atMember s.rest) : atMember r.rest := by
  have hlines := reads_docComments.result r (by rw [hdocs]; exact hsilent)
  obtain ⟨lines, hkinds, hrest⟩ := hlines
  rw [hdocs] at hrest
  rw [hrest]
  cases lines with
  | nil => exact h
  | cons line lines => simp [atMember, hkinds line List.mem_cons_self]

/-- Before each round of a block the next member is at hand, or the end of the block. -/
theorem reads_atMember (htype : Composed type) :
    Reads (blockRound opening (memberEntry type)) fun r _ _ => atMember r.rest := by
  have hruns {kind : TokenKind} {read : EntryReader (MemberDef TypeExpr)} (doc : Option String)
      (h : memberEntry type kind = some read) : Runs (read doc) :=
    (composed_memberEntry htype doc h).runs
  refine (reads_blockRound fun _ _ doc => hruns doc).mono_silent fun r x r' hsilent hstep => ?_
  cases hstep with
  | @close doc s t ts hdocs hrest hk =>
    exact atMember_of_docs hdocs hsilent (by simp [hrest, atMember, hk])
  | @separate doc s t ts hdocs hrest hk =>
    refine atMember_of_docs hdocs hsilent ?_
    rcases hk with hk | hk <;> simp [hrest, atMember, hk]
  | @entry doc s t ts read hdocs hrest hread =>
    refine atMember_of_docs hdocs (((hruns doc hread).run s).silent hsilent) ?_
    unfold memberEntry at hread
    split at hread
    · next hk => simp [hrest, atMember, hk]
    · obtain rfl := Option.some.inj hread
      obtain ⟨t, c, ts, hs, ht, hc, -⟩ := (reads_memberHead htype.runs doc).result s hsilent
      simp [hs, atMember, ht, hc]
    · cases hread

/-- A member that is not embedded is all that its round finds. -/
theorem reads_found (htype : Composed type) :
    Reads (blockRound opening (memberEntry type)) fun r x r' => ∀ k ∈ x.1, k.embedded = false →
      ∃ doc s, docs r = (doc, s) ∧ member type doc s = (some k, r') ∧ x = ([k], true) := by
  have hruns {kind : TokenKind} {read : EntryReader (MemberDef TypeExpr)} (doc : Option String)
      (h : memberEntry type kind = some read) : Runs (read doc) :=
    (composed_memberEntry htype doc h).runs
  refine (reads_blockRound fun kind read doc => hruns doc).mono fun r x r' hstep k hk hnamed => ?_
  cases hstep with
  | close | separate => exact absurd hk List.not_mem_nil
  | @entry doc s t ts read hdocs hrest hread =>
    unfold memberEntry at hread
    split at hread
    · obtain rfl := Option.some.inj hread
      have hembedded := answers_embedded type doc s k (Option.mem_toList.mp hk)
      exact absurd (hembedded.symm.trans hnamed) nofun
    · obtain rfl := Option.some.inj hread
      have hfound : (member type doc s).1 = some k := Option.mem_toList.mp hk
      exact ⟨doc, s, hdocs, Prod.ext hfound rfl, Prod.ext (congrArg Option.toList hfound) rfl⟩
    · cases hread

section Rounds

variable {doc : Option String}

theorem blockRound_of_separator (hdocs : docs r = (doc, s)) (hrest : s.rest = t :: ts)
    (hk : t.kind = .comma ∨ t.kind = .semicolon) : blockRound opening entry r =
      (([], true), { s with rest := ts, lastStop := t.span.stop }) := by
  have hread : t.kind ≠ .garbage := by rcases hk with h | h <;> rw [h] <;> decide
  have hbump := bump_of_settled (settled_of_cons hrest hread) hrest
  rw [blockRound, run_bind, hdocs, run_bind, currentKind_of_cons hrest hread]
  rcases hk with h | h
  all_goals
    rw [h]
    show (bump >>= fun _ => pure ([], true)) s = _
    rw [run_bind, hbump]
    rfl

theorem blockRound_of_name {read : EntryReader α} (hdocs : docs r = (doc, s))
    (hrest : s.rest = t :: ts) (hk : t.kind = .identifier) (hentry : entry .identifier = some read) :
    blockRound opening entry r = (do return (← read doc, true) : Parser (List α × Bool)) s := by
  have hread : t.kind ≠ .garbage := by rw [hk]; decide
  rw [blockRound, run_bind, hdocs, run_bind, currentKind_of_cons hrest hread, hk]
  simp only [hentry]
  rfl

end Rounds

abbrev memberRound (type : Parser TypeExpr) (opening : Span) :
    Parser (List (MemberDef TypeExpr) × Bool) :=
  blockRound opening (memberEntry type)

/-- A token that nobody misses in front of a member. -/
theorem collect_behind_extra (opening : Span) (htype : Composed type) {b : Token} {bs : List Token}
    (hrest : r.rest = b :: bs)
    (hb : b.kind = .comma ∨ b.kind = .semicolon ∨ b.kind = .docComment) :
    (collect (memberRound type opening) { r with rest := bs, lastStop := b.span.stop }).2 =
        (collect (memberRound type opening) r).2 ∧
      FirstStripped MemberDef.withoutDoc (collect (memberRound type opening) r).1
        (collect (memberRound type opening) { r with rest := bs, lastStop := b.span.stop }).1 := by
  have hadvances : Advances (memberRound type opening) :=
    advances_blockRound fun kind read doc hread => takes_memberEntry htype.runs doc hread
  rcases or_assoc.mpr hb with hseparator | hdoc
  · have hother : b.kind ≠ .docComment ∧ b.kind ≠ .garbage := by
      rcases hseparator with h | h <;> rw [h] <;> decide
    have hdocs : docs r = (none, r) :=
      docs_of_none (eat_of_other (settled_of_cons hrest hother.2) hrest hother.1)
    have hround : memberRound type opening r = _ := blockRound_of_separator hdocs hrest hseparator
    have hgo : (memberRound type opening r).1.2 = true := by rw [hround]
    rw [hadvances.collect_of_goOn hgo, hround]
    exact ⟨rfl, .refl _ _⟩
  · have hentry (kind : TokenKind) (read : EntryReader (MemberDef TypeExpr))
        (h : memberEntry type kind = some read) := passes_memberEntry h
    obtain ⟨read, hread, hstores⟩ := exists_stores_blockRound opening hentry
    have hsettled : Settled r := settled_of_cons hrest (by rw [hdoc]; decide)
    rw [memberRound, hread] at hadvances ⊢
    exact collect_behind_doc hadvances hstores hsettled hrest hdoc

theorem memberRound_of_identifier {doc : Option String} (hdocs : docs r = (doc, s))
    (hrest : s.rest = t :: ts) (hk : t.kind = .identifier) : memberRound type opening r =
      (((member type doc s).1.toList, true), (member type doc s).2) := by
  rw [memberRound, blockRound_of_name hdocs hrest hk rfl]
  rfl

theorem solid_of_last {taken body : List Token} {u : Token} (hlast : taken.getLast? = some u)
    (hu : u.word.matters) (hbody : body <:+ taken) : ∀ x ∈ body.getLast?, x.word.matters := by
  intro x hx
  have hx' := mem_getLast?_of_suffix hbody hx
  rw [hlast] at hx'
  exact Option.some.inj hx' ▸ hu

/-- What is cut of a member. -/
theorem cut_of_member {depth : Nat} {doc : Option String}
    (h : member (Parser.type depth) doc r = (some k, s)) (hsilent : s.Silent) :
    ∃ t body, t.kind = .identifier ∧ r.rest = t :: (body ++ s.rest) ∧
      (Victim.member k).Cut [t] body ∧ s.package = r.package := by
  have hs : (member (Parser.type depth) doc r).2.Silent := by rw [h]; exact hsilent
  obtain ⟨t, c, ts, hrest, ht, -, hspan⟩ :=
    (reads_memberHead (reads_type depth).runs doc).result r hs
  obtain ⟨k', hk', -, taken, htook, hsaid⟩ := (reads_member (reads_type depth) doc).result r hs
  have hcloses := (closes_member depth doc).result r hs
  rw [h] at hspan hk' htook hcloses
  obtain rfl := Option.some.inj hk'
  obtain ⟨u, hlast, hu⟩ := hcloses.last htook
  cases taken with
  | nil => cases hlast
  | cons t' body =>
    obtain ⟨rfl, -⟩ := List.cons.inj (htook.rest.symm.trans hrest)
    have hsolid := solid_of_last hlast hu (List.suffix_cons t' body)
    exact ⟨t', body, ht, htook.rest, ⟨rfl, congrArg some (hspan k rfl).symm, hsaid, hsolid⟩,
      htook.package⟩

/-- The name of a member with nothing behind it but a token that nobody misses. -/
theorem member_of_bare {b : Token} {bs : List Token} (doc : Option String)
    (hrest : r.rest = t :: b :: bs) (hk : t.kind = .identifier)
    (hb : b.kind = .comma ∨ b.kind = .semicolon ∨ b.kind = .docComment) (hsilent : r.Silent)
    (hat : atMember bs) : ∃ r', member type doc r = (none, r') ∧ r'.rest = bs ∧
      r'.lastStop = b.span.stop ∧ r'.stop = r.stop ∧ r'.package = r.package ∧
      ∃ d, d.kind = .expectedToken ∧ r'.diagnostics = r.diagnostics ++ [d] := by
  have hreadable : b.kind ≠ .garbage ∧ b.kind ≠ .colon := by
    rcases hb with h | h | h <;> rw [h] <;> decide
  have hsettled : Settled r := settled_of_cons hrest (by rw [hk]; decide)
  have hname := name_of_identifier hsettled hrest hk
  generalize hs : ({ r with rest := b :: bs, lastStop := t.span.stop } : Reading) = s at hname
  have hsrest : s.rest = b :: bs := by rw [← hs]
  have hssilent : s.Silent := by rw [← hs]; exact hsilent
  have hother : ∀ u ∈ s.rest.head?, u.kind ≠ .colon := by
    rw [hsrest]
    exact fun u hu => Option.some.inj hu ▸ hreadable.2
  obtain ⟨s', hexpect, hreported⟩ :=
    expect_missing (settled_of_cons hsrest hreadable.1) hssilent hother
  have hrest' : s'.rest = b :: bs := hreported.rest.trans hsrest
  have hrecover := recoverInBlock_of_cons (settled_of_cons hrest' hreadable.1) hrest' hat
  refine ⟨{ s' with rest := bs, lastStop := b.span.stop }, ?_, rfl, rfl, ?_, ?_, ?_⟩
  · rw [member, run_bind, hname]
    simp only
    rw [run_bind, hexpect]
    simp only
    rw [run_bind, hrecover]
    rfl
  · exact hreported.stop.trans (by rw [← hs])
  · exact hreported.package.trans (by rw [← hs])
  · obtain ⟨d, hd, htold⟩ := hreported.told
    exact ⟨d, hd, htold.trans (by rw [← hs])⟩

theorem advances_memberRound (opening : Span) (htype : Runs type) :
    Advances (memberRound type opening) :=
  advances_blockRound fun _ _ doc hread => takes_memberEntry htype doc hread

theorem composed_memberRound (opening : Span) (htype : Composed type) :
    Composed (memberRound type opening) :=
  composed_blockRound fun _ _ doc hread => composed_memberEntry htype doc hread

/-- A member that is read in this round: behind its comments, the name and what is cut of it. -/
theorem member_of_found (hk : k.embedded = false) (depth : Nat)
    (hsilent : (memberRound (Parser.type depth) opening r).2.Silent)
    (hfound : k ∈ (memberRound (Parser.type depth) opening r).1.1) :
    ∃ doc r₁ t body r₂, docs r = (doc, r₁) ∧
      memberRound (Parser.type depth) opening r = (([k], true), r₂) ∧ t.kind = .identifier ∧
        r₁.rest = t :: (body ++ r₂.rest) ∧ (Victim.member k).Cut [t] body ∧ r₁.Silent ∧
          r₂.stop = r₁.stop ∧ r₂.package = r₁.package := by
  have htype : Composed (Parser.type depth) := composed_type depth
  obtain ⟨doc, r₁, hdocs, hmember, hround⟩ := (reads_found htype).result r hsilent k hfound hk
  obtain ⟨t, body, ht, hrest, hcut, hpackage⟩ := cut_of_member hmember hsilent
  have hrun := (composed_member htype doc).runs.run r₁
  rw [hmember] at hrun
  exact ⟨doc, r₁, t, body, _, hdocs, Prod.ext hround rfl, ht, hrest, hcut, hrun.silent hsilent,
    hrun.stop, hpackage⟩

/-- The victim is a member of this block. -/
theorem mends_here (hk : k.embedded = false) (depth : Nat)
    (hsilent : (collect (memberRound (Parser.type depth) opening) r).2.Silent)
    (hfound : k ∈ (memberRound (Parser.type depth) opening r).1.1) :
    Mends (.member k) Fork.behind.Abreast (MembersLose k)
      (collect (memberRound (Parser.type depth) opening)) r := by
  have htype : Composed (Parser.type depth) := composed_type depth
  have hcomposed := composed_memberRound opening htype
  have hadvances := advances_memberRound opening htype.runs
  obtain ⟨doc, r₁, t, body, r₂, hdocs, hround, ht, hrest₁, hcut, hsilent₁, hstop₂, hpackage⟩ :=
    member_of_found hk depth (silent_of_collect hcomposed.runs hsilent) hfound
  have hcollect := hadvances.collect_of_goOn (r := r) (by rw [hround])
  rw [hround] at hcollect
  rw [hcollect] at hsilent
  have hat := (reads_atMember htype).result r₂ (silent_of_collect hcomposed.runs hsilent)
  obtain ⟨b, bs, hback⟩ : ∃ b bs, r₂.rest = b :: bs := by
    cases hback : r₂.rest with
    | nil => rw [hback] at hat; cases hat
    | cons b bs => exact ⟨b, bs, rfl⟩
  obtain ⟨front, hfront⟩ := (reads_docs.run r).rest
  rw [hdocs] at hfront
  refine ⟨front, [t], body, r₂.rest, hcut, ?_, ?_, fun s hs hssilent hready => ?_⟩
  · rw [← hfront, hrest₁]
    rfl
  · rw [hcollect]
    exact ((runs_collect hcomposed.runs).run r₂).rest
  have hb : b.kind = .comma ∨ b.kind = .semicolon ∨ b.kind = .docComment := by
    simpa [Victim.canLeave, or_assoc] using hready b (by rw [hback]; rfl)
  -- the damaged text up to the name
  obtain ⟨s₁, hdocs', hs₁, hstop₁, hheader₁, hreports⟩ :=
    docs_of_abreast hdocs hsilent₁ hrest₁ hs
  rw [hback] at hs₁
  -- the whole text behind the token that is left
  obtain ⟨hsame, hfirst⟩ := collect_behind_extra opening htype hback hb
  have hsilent₃ := hsilent
  rw [← hsame] at hsilent₃
  have hat' := (reads_atMember htype).result _ (silent_of_collect hcomposed.runs hsilent₃)
  -- the damaged text behind it
  obtain ⟨s', hmember', hrest', hlast, hstop, hheader, d, hd, htold⟩ :=
    member_of_bare doc hs₁ ht hb (silent_of_reports hreports hssilent) hat'
  have hround' : memberRound (Parser.type depth) opening s = (([], true), s') := by
    rw [memberRound_of_identifier hdocs' hs₁ ht, hmember']
    rfl
  have hcollect' := hadvances.collect_of_goOn (r := s) (by rw [hround'])
  rw [hround', List.nil_append] at hcollect'
  have hbehind : Fork.behind.Abreast { r₂ with rest := bs, lastStop := b.span.stop } s' := by
    refine ⟨⟨bs, (List.append_nil bs).symm, ?_⟩, hlast, ?_, ?_⟩
    · rw [hrest']
      exact (List.append_nil bs).symm
    · exact hstop.trans (hstop₁.trans hstop₂.symm)
    · rw [← hheader, ← hpackage] at hheader₁
      exact hheader₁
  obtain ⟨hanswer, hafter, hreports'⟩ :=
    (hcomposed.collect hadvances).along hbehind hsilent₃ List.nil_suffix
  constructor
  · rw [hcollect, hcollect', hanswer]
    exact .here hfirst
  · rw [hcollect, hcollect', ← hsame]
    exact hafter
  · refine ⟨d, hd, ?_⟩
    rw [hcollect', diagnostics_of_reports hreports', htold, diagnostics_of_reports hreports]

theorem mends_memberEntry (htype : MendsType k type) (hcomposed : Composed type)
    {read : EntryReader (MemberDef TypeExpr)} (doc : Option String)
    (h : memberEntry type kind = some read) :
    Mending (.member k) (fun ms => ∃ n ∈ ms, n.type.Holds k) (MembersLose k) (read doc) := by
  unfold memberEntry at h
  split at h
  · obtain rfl := Option.some.inj h
    refine (mends_embedded hcomposed doc).first (fun _ => .pure _) (.pure fun _ _ h => h) ?_
    rintro n? r ⟨n, hn, hholds⟩
    exact ⟨n, Option.mem_toList.mp hn, hholds⟩
  · obtain rfl := Option.some.inj h
    refine (mends_member htype doc).first (fun _ => .pure _) (.pure fun _ _ h => h) ?_
    rintro n? r ⟨n, hn, hholds⟩
    exact ⟨n, Option.mem_toList.mp hn, hholds⟩
  · cases h

/-- The victim is in the type of a member. -/
theorem mends_memberRound (htype : MendsType k type) (hcomposed : Composed type) :
    Mending (.member k) (fun x => ∃ n ∈ x.1, n.type.Holds k)
      (fun x y => y.2 = x.2 ∧ MembersLose k x.1 y.1) (memberRound type opening) := by
  have hnothing (goOn : Bool) {m : Parser Span} (hm : Runs m) :
      Mending (.member k) (fun x => ∃ n ∈ x.1, n.type.Holds k)
        (fun x y => y.2 = x.2 ∧ MembersLose k x.1 y.1) (do
          let _ ← m
          return ([], goOn)) := by
    refine .absent (hm.bind fun _ => runs_pure _) (.bind fun _ => .pure ?_)
    rintro ⟨n, hn, -⟩
    exact absurd hn List.not_mem_nil
  have hunclosed : Complains (do
      unclosed opening
      return ([], false) : Parser (List (MemberDef TypeExpr) × Bool)) :=
    (complains_unclosed opening).bind fun _ => runs_pure _
  refine .later composed_docs fun doc => .later composed_currentKind fun kind? => ?_
  cases kind? with
  | none => exact .complains hunclosed
  | some kind =>
    by_cases hclose : kind = .rightBrace
    · simp only [if_pos hclose]
      exact hnothing false reads_bump.runs
    simp only [if_neg hclose]
    by_cases hitem : kind.startsItem
    · simp only [if_pos hitem]
      exact .complains hunclosed
    simp only [if_neg hitem]
    by_cases hseparator : kind = .comma ∨ kind = .semicolon
    · simp only [if_pos hseparator]
      exact hnothing true reads_bump.runs
    simp only [if_neg hseparator]
    cases hread : memberEntry type kind with
    | some read =>
      refine (mends_memberEntry htype hcomposed doc hread).first (fun _ => .pure _) ?_ ?_
      · exact .pure fun _ _ h => ⟨rfl, h⟩
      · exact fun _ _ h => h
    | none =>
      apply Mending.complains
      exact (complains_fail none rfl).bind fun _ => runs_recoverInBlock.bind fun _ => runs_pure _

theorem mends_memberBlock (hk : k.embedded = false) (depth : Nat)
    (htype : MendsType k (Parser.type depth)) : Mending (.member k) (MembersHold k) (MembersLose k)
      (block opening (memberEntry (Parser.type depth))) := by
  have hcomposed : Composed (Parser.type depth) := composed_type depth
  have hround := composed_memberRound opening hcomposed
  have hadvances := advances_memberRound opening hcomposed.runs
  refine ⟨runs_collect hround.runs, fun r hsilent hO => ?_⟩
  refine .collect hround hadvances ?_ (fun front xs ys h => h.after front) hsilent hO
  rintro r hsilent ⟨n, hn, rfl | hholds⟩
  · exact mends_here hk depth hsilent hn
  · have hsilent' := silent_of_collect hround.runs hsilent
    have hmends := (mends_memberRound htype hcomposed).mends r hsilent' ⟨n, hn, hholds⟩
    exact hmends.first_round hround hadvances (fun _ _ more h => h.append more) hsilent

theorem mends_members (hk : k.embedded = false) (depth : Nat)
    (htype : MendsType k (Parser.type depth)) : Mending (.member k) (MembersHold k) (MembersLose k)
      (members (Parser.type depth)) :=
  .give (composed_expect _) (reads_expect _) (runs_pure _) fun _ =>
    mends_memberBlock hk depth htype

/-- However deep in an expression a member is, reading goes on behind it. -/
theorem mends_type (hk : k.embedded = false) (depth : Nat) : MendsType k (Parser.type depth) := by
  induction depth with
  | zero =>
    unfold Parser.type
    apply Mending.complains
    refine Runs.bind_complains reads_currentSpan.runs fun span => ?_
    exact (complains_report _ _ _ _ rfl).bind fun _ => runs_pure _
  | succ depth ih =>
    have hexpected (start : Nat) : MendsType k (do
        fail .expectedType none
        return .hole ⟨start, start⟩) :=
      .complains ((complains_fail none rfl).bind fun _ => runs_pure _)
    unfold Parser.type
    refine .later composed_currentSpan fun span => .later .current fun t? => ?_
    cases t? with
    | none => exact hexpected _
    | some t =>
      simp only
      split
      · exact .later .bump fun _ => mends_pointer ih _
      · exact .later .bump fun _ => mends_sequence ih _
      · exact .later .bump fun _ => mends_map ih (composed_type depth) _
      · refine .later .bump fun _ => (mends_members hk depth ih).first ?_ (.finish ?_) ?_
        · exact fun ms => composed_finish _ _
        · exact fun ms ns span h => .record span h
        · exact fun ms r h => holds_record.mp h
      · exact .later .bump fun _ => mends_named _ _
      · exact hexpected _

end Members

end Parser

end TypeGraph.Schema
