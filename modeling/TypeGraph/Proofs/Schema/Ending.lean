import TypeGraph.Proofs.Schema.Lockstep
/-!
Where a part of a text ends. The last token that an expression, a member or an item takes is one that
matters: separators and documentation behind it belong to what comes next.
-/

namespace TypeGraph.Schema

theorem matters_iff {t : Token} :
    t.word.matters ↔ t.kind ≠ .comma ∧ t.kind ≠ .semicolon ∧ t.kind ≠ .docComment := by
  unfold Token.word
  cases t.kind <;> simp [Word.matters]

namespace Reading

/-- Tokens were taken, if any, up to one that matters. -/
def Solid (r r' : Reading) : Prop :=
  ∃ ts, r.rest = ts ++ r'.rest ∧ ∀ t ∈ ts.getLast?, t.word.matters

/-- Tokens were taken up to one that matters. -/
def Closes (r r' : Reading) : Prop :=
  ∃ ts t, r.rest = ts ++ t :: r'.rest ∧ t.word.matters

variable {r s r' : Reading} {t : Token}

theorem Solid.refl (r : Reading) : r.Solid r :=
  ⟨[], rfl, nofun⟩

theorem Closes.solid (h : r.Closes r') : r.Solid r' := by
  obtain ⟨ts, t, hrest, ht⟩ := h
  refine ⟨ts ++ [t], by rw [hrest, List.append_assoc, List.singleton_append], ?_⟩
  intro u hu
  rw [List.getLast?_concat] at hu
  obtain rfl := Option.some.inj hu
  exact ht

theorem Closes.then (h : r.Closes s) (k : s.Solid r') : r.Closes r' := by
  obtain ⟨ts, t, hts, ht⟩ := h
  obtain ⟨us, hus, hlast⟩ := k
  rcases List.eq_nil_or_concat' us with rfl | ⟨us, u, rfl⟩
  · exact ⟨ts, t, by rw [hts, hus, List.nil_append], ht⟩
  · exact ⟨ts ++ t :: us, u, by rw [hts, hus]; simp, hlast u List.getLast?_concat⟩

theorem Closes.last (h : r.Closes r') {ts : List Token} (htook : r.Took ts r') :
    ∃ t, ts.getLast? = some t ∧ t.word.matters := by
  obtain ⟨us, u, hrest, hu⟩ := h
  refine ⟨u, ?_, hu⟩
  have hsame : ts ++ r'.rest = us ++ [u] ++ r'.rest := by
    rw [← htook.rest, hrest, List.append_assoc, List.singleton_append]
  rw [List.append_cancel_right hsame, List.getLast?_concat]

theorem Solid.trans (h : r.Solid s) (k : s.Solid r') : r.Solid r' := by
  obtain ⟨ts, hts, hlast⟩ := h
  rcases List.eq_nil_or_concat' ts with rfl | ⟨ts, t, rfl⟩
  · obtain ⟨us, hus, hlast'⟩ := k
    exact ⟨us, by rw [hts, List.nil_append, hus], hlast'⟩
  · have hclosed : r.Closes s := ⟨ts, t, by rw [hts]; simp, hlast t List.getLast?_concat⟩
    exact (hclosed.then k).solid

theorem Closes.after (h : s.rest <:+ r.rest) (k : s.Closes r') : r.Closes r' := by
  obtain ⟨ts, hts⟩ := h
  obtain ⟨us, u, hus, hu⟩ := k
  exact ⟨ts ++ us, u, by rw [← hts, hus, List.append_assoc], hu⟩

theorem Closes.of_took (h : r.Took [t] r') (ht : t.word.matters) : r.Closes r' :=
  ⟨[], t, h.rest, ht⟩

end Reading

namespace Parser

variable {α β : Type} {m : Parser α} {f : α → Parser β} {r : Reading}

abbrev Lands (m : Parser α) : Prop :=
  Reads m fun r _ r' => r.Solid r'

abbrev Closes (m : Parser α) : Prop :=
  Reads m fun r _ r' => r.Closes r'

section Combine

theorem Closes.lands (h : Closes m) : Lands m :=
  h.mono fun _ _ _ hclosed => hclosed.solid

theorem Lands.pure (a : α) : Lands (Pure.pure a) :=
  Reads.pure fun r => .refl r

theorem Lands.get {f : Reading → α} : Lands (get >>= fun r => Pure.pure (f r)) :=
  reads_get.bind fun _ => Reads.pure fun _ r h => h.2 ▸ .refl r

theorem Lands.bind (hm : Lands m) (hf : ∀ a, Lands (f a)) : Lands (m >>= f) :=
  Reads.bind hm fun a => (hf a).mono fun _ _ _ h _ hr => hr.trans h

theorem Closes.bind (hm : Closes m) (hf : ∀ a, Lands (f a)) : Closes (m >>= f) :=
  Reads.bind hm fun a => (hf a).mono fun _ _ _ h _ hr => hr.then h

theorem Runs.closes (hm : Runs m) (hf : ∀ a, Closes (f a)) : Closes (m >>= f) := by
  have hsuffix : Reads m fun r _ r' => r'.rest <:+ r.rest := ⟨hm.run, fun r _ => (hm.run r).rest⟩
  exact hsuffix.bind fun a => (hf a).mono fun _ _ _ h _ hr => h.after hr

/-- Work that gives something, and what is done with it. -/
theorem Gives.closes {m : Parser (Option α)} {f : Option α → Parser β}
    {P : Reading → α → Reading → Prop} (hm : Gives m P) (hnone : Runs (f none))
    (hsome : ∀ a, Closes (f (some a))) : Closes (m >>= f) := by
  have hgives : Gives m fun r _ r' => r'.rest <:+ r.rest := by
    refine ⟨hm.run, fun r hs => ?_⟩
    obtain ⟨a, ha, -⟩ := hm.result r hs
    exact ⟨a, ha, (hm.run r).rest⟩
  exact hgives.bind hnone fun a => (hsome a).mono fun _ _ _ h _ hr => h.after hr

theorem Gives.lands {m : Parser (Option α)} {f : Option α → Parser β}
    (hm : Gives m fun r _ r' => r.Solid r') (hnone : Runs (f none))
    (hsome : ∀ a, Lands (f (some a))) : Lands (m >>= f) :=
  hm.bind hnone fun a => (hsome a).mono fun _ _ _ h _ hr => hr.trans h

end Combine

section Words

variable {kind : TokenKind}

/-- The kinds of tokens that matter. -/
abbrev Matters (kind : TokenKind) : Prop :=
  kind ≠ .comma ∧ kind ≠ .semicolon ∧ kind ≠ .docComment

theorem closes_expect (hkind : Matters kind) : Gives (expect kind) fun r _ r' => r.Closes r' :=
  (reads_expect kind).mono fun _ _ _ ⟨t, ht, hk, htook⟩ =>
    ⟨t, ht, .of_took htook (matters_iff.mpr (hk ▸ hkind))⟩

theorem Gives.all {m : Parser (Option α)} (h : Gives m fun r _ r' => r.Closes r') : Closes m :=
  h.mono fun _ _ _ ⟨_, _, hclosed⟩ => hclosed

theorem closes_name : Gives name fun r _ r' => r.Closes r' :=
  reads_name.mono fun _ _ _ ⟨n, hn, t, hk, _, htook⟩ =>
    ⟨n, hn, .of_took htook (matters_iff.mpr (by rw [hk]; decide))⟩

theorem lands_eat (hkind : Matters kind) : Lands (eat kind) := by
  refine (reads_eat kind).mono fun r t? r' h => ?_
  cases t? with
  | none =>
    obtain rfl : r' = r := h
    exact .refl r'
  | some t => exact (Reading.Closes.of_took h.2 (matters_iff.mpr (h.1 ▸ hkind))).solid

theorem Gives.solid {m : Parser (Option α)} (h : Gives m fun r _ r' => r.Closes r') :
    Gives m fun r _ r' => r.Solid r' :=
  h.mono fun _ _ _ ⟨a, ha, hclosed⟩ => ⟨a, ha, hclosed.solid⟩

end Words

section Attributes

theorem lands_renameArgument : Lands renameArgument := by
  refine (closes_expect (by decide)).solid.lands (runs_pure _) fun opening => ?_
  refine (lands_eat (by decide)).bind fun t? => ?_
  cases t? with
  | none =>
    apply Complains.reads
    exact (complains_fail none rfl).bind fun _ => runs_skipArguments.bind fun _ => runs_pure _
  | some t =>
    exact (closes_expect (by decide)).solid.lands (runs_pure _) fun closing => .pure _

theorem lands_attributeKind (word : Name) : Lands (attributeKind word) := by
  unfold attributeKind
  split
  · exact .pure _
  split
  · exact .pure _
  split
  · exact lands_renameArgument.bind fun _ => .pure _
  · apply Complains.reads
    exact (complains_report _ _ _ _ rfl).bind fun _ => runs_skipArguments.bind fun _ => runs_pure _

theorem lands_attributes : Lands attributes := by
  have hround : Lands attributeRound := by
    refine (lands_eat (by decide)).bind fun t? => ?_
    cases t? with
    | none => exact .pure _
    | some t =>
      refine closes_name.solid.lands (runs_pure _) fun word => ?_
      refine (lands_attributeKind word).bind fun kind? => ?_
      cases kind? with
      | none => exact .pure _
      | some kind => exact .get
  refine reads_collect (S := fun r _ r' => r.Solid r') ?_ fun _ _ _ _ _ h k => h.trans k
  refine ⟨hround.run, fun r hs => ?_⟩
  cases hgo : (attributeRound r).1.2 with
  | true => exact ⟨hround.result r hs, advances_attributeRound r hgo⟩
  | false => exact hround.result r hs

end Attributes

section Blocks

variable {entry : TokenKind → Option (EntryReader α)} {opening : Span}

/-- What a round of a block does when it is silent. -/
inductive BlockStep (entry : TokenKind → Option (EntryReader α)) (r : Reading) :
    List α × Bool → Reading → Prop
  | close {doc : Option String} {s : Reading} {t : Token} {ts : List Token}
      (hdocs : docs r = (doc, s)) (hrest : s.rest = t :: ts) (hk : t.kind = .rightBrace) :
      BlockStep entry r ([], false) { s with rest := ts, lastStop := t.span.stop }
  | separate {doc : Option String} {s : Reading} {t : Token} {ts : List Token}
      (hdocs : docs r = (doc, s)) (hrest : s.rest = t :: ts)
      (hk : t.kind = .comma ∨ t.kind = .semicolon) :
      BlockStep entry r ([], true) { s with rest := ts, lastStop := t.span.stop }
  | entry {doc : Option String} {s : Reading} {t : Token} {ts : List Token} {read : EntryReader α}
      (hdocs : docs r = (doc, s)) (hrest : s.rest = t :: ts) (hread : entry t.kind = some read) :
      BlockStep entry r ((read doc s).1, true) (read doc s).2

theorem Runs.itself (hm : Runs m) : Reads m fun r a r' => m r = (a, r') :=
  ⟨hm.run, fun _ _ => rfl⟩

theorem reads_bump_itself : Reads bump fun r _ r' =>
    ∀ t ts, r.rest = t :: ts → r' = { r with rest := ts, lastStop := t.span.stop } := by
  refine ⟨reads_bump.run, fun r hsilent t ts hrest => ?_⟩
  rw [bump_of_settled (settled_of_silent_bump hsilent) hrest]

theorem reads_blockRound (hentry : ∀ kind read doc, entry kind = some read → Runs (read doc)) :
    Reads (blockRound opening entry) (BlockStep entry) := by
  have hunclosed : Complains (do
      unclosed opening
      return ([], false) : Parser (List α × Bool)) :=
    (complains_unclosed opening).bind fun _ => runs_pure _
  refine reads_docs.runs.itself.bind fun doc => reads_currentKind.bind fun kind? => ?_
  cases kind? with
  | none => exact hunclosed.reads
  | some kind =>
    have hnext {s : Reading} (hk : some kind = s.rest.head?.map (·.kind)) :
        ∃ t ts, s.rest = t :: ts ∧ t.kind = kind := by
      obtain ⟨t, ht, hkind⟩ := Option.map_eq_some_iff.mp hk.symm
      obtain ⟨ts, hts⟩ := List.head?_eq_some_iff.mp ht
      exact ⟨t, ts, hts, hkind⟩
    by_cases hclose : kind = .rightBrace
    · simp only [if_pos hclose]
      refine reads_bump_itself.bind fun _ => .pure fun r' s hb s' hk r hdocs => ?_
      obtain ⟨rfl, hk⟩ := hk
      obtain ⟨t, ts, hrest, rfl⟩ := hnext hk
      exact hb t ts hrest ▸ .close hdocs hrest hclose
    simp only [if_neg hclose]
    by_cases hitem : kind.startsItem
    · simp only [if_pos hitem]
      exact hunclosed.reads
    simp only [if_neg hitem]
    by_cases hseparator : kind = .comma ∨ kind = .semicolon
    · simp only [if_pos hseparator]
      refine reads_bump_itself.bind fun _ => .pure fun r' s hb s' hk r hdocs => ?_
      obtain ⟨rfl, hk⟩ := hk
      obtain ⟨t, ts, hrest, rfl⟩ := hnext hk
      exact hb t ts hrest ▸ .separate hdocs hrest hseparator
    simp only [if_neg hseparator]
    cases hread : entry kind with
    | some read =>
      refine (hentry kind read doc hread).itself.bind fun _ => .pure fun r' s hb s' hk r hdocs => ?_
      obtain ⟨rfl, hk⟩ := hk
      obtain ⟨t, ts, hrest, rfl⟩ := hnext hk
      have hstep : BlockStep entry r ((read doc s).1, true) (read doc s).2 :=
        .entry hdocs hrest hread
      rw [hb] at hstep
      exact hstep
    | none =>
      apply Complains.reads
      exact (complains_fail none rfl).bind fun _ => runs_recoverInBlock.bind fun _ => runs_pure _

/-- A block ends with its closing brace. -/
theorem closes_block (hruns : ∀ kind read doc, entry kind = some read → Runs (read doc))
    (htakes : ∀ kind read doc, entry kind = some read → Takes kind (read doc)) :
    Closes (block opening entry) := by
  have hround : Reads (blockRound opening entry) (BlockStep entry) := reads_blockRound hruns
  refine reads_collect (S := fun r _ r' => r'.rest <:+ r.rest) ?_ fun _ _ _ _ _ h k => k.after h
  refine ⟨hround.run, fun r hs => ?_⟩
  cases hgo : (blockRound opening entry r).1.2 with
  | true => exact ⟨(hround.run r).rest, advances_blockRound htakes r hgo⟩
  | false =>
    -- the last round takes the closing brace
    have hstep := hround.result r hs
    generalize blockRound opening entry r = x at hgo hstep ⊢
    obtain ⟨⟨found, goOn⟩, r'⟩ := x
    obtain rfl : goOn = false := hgo
    cases hstep with
    | @close _ s t ts hdocs hrest hk =>
      have hmatters : t.word.matters := matters_iff.mpr (by rw [hk]; decide)
      have hsuffix : s.rest <:+ r.rest := by
        have hrun := (reads_docs.run r).rest
        rw [hdocs] at hrun
        exact hrun
      exact .after hsuffix ⟨[], t, hrest, hmatters⟩

end Blocks

section Productions

variable {type : Parser TypeExpr}

theorem closes_members (htype : Composed type) : Closes (members type) := by
  refine (reads_expect .leftBrace).closes (runs_pure _) fun opening => closes_block ?_ ?_
  · exact fun kind read doc hread => (composed_memberEntry htype doc hread).runs
  · exact fun kind read doc hread => takes_memberEntry htype.runs doc hread

theorem closes_variants : Closes variants := by
  refine (reads_expect .leftBrace).closes (runs_pure _) fun opening => closes_block ?_ ?_
  · exact fun kind read doc hread => (composed_variantEntry doc hread).runs
  · exact fun kind read doc hread => takes_variantEntry doc hread

theorem lands_finish (start : Nat) (make : Span → TypeExpr) : Lands (finish start make) :=
  .get

theorem lands_named (start : Nat) (text : String) : Lands (named start text) := by
  refine (lands_eat (by decide)).bind fun t? => ?_
  cases t? with
  | some t => exact closes_name.solid.lands (lands_finish _ _).runs fun name => lands_finish _ _
  | none => cases Scalar.ofKeyword? text <;> exact lands_finish _ _

theorem closes_type (depth : Nat) : Closes (Parser.type depth) := by
  induction depth with
  | zero =>
    unfold Parser.type
    apply Complains.reads
    refine Runs.bind_complains reads_currentSpan.runs fun span => ?_
    exact (complains_report _ _ _ _ rfl).bind fun _ => runs_pure _
  | succ depth ih =>
    have hexpected (start : Nat) : Closes (do
        fail .expectedType none
        return .hole ⟨start, start⟩ : Parser TypeExpr) :=
      ((complains_fail none rfl).bind fun _ => runs_pure _).reads
    have hbump {f : Span → Parser TypeExpr} (hf : ∀ span, Closes (f span)) :
        Closes (bump >>= f) := reads_bump.runs.closes hf
    have hexpect {kind : TokenKind} (hkind : Matters kind) {f : Option Token → Parser TypeExpr}
        (hf : ∀ t?, Lands (f t?)) : Closes (expect kind >>= f) := (closes_expect hkind).all.bind hf
    unfold Parser.type
    refine reads_currentSpan.runs.closes fun span => reads_current.bind fun t? => ?_
    cases t? with
    | none => exact (hexpected _).mono fun _ _ _ h _ hr => hr.1 ▸ h
    | some t =>
      by_cases hk : t.kind = .identifier
      · simp only [hk]
        refine reads_bump_of_head.bind fun _ => (lands_named _ _).mono fun s x r' hs s' hb r hr => ?_
        obtain ⟨rfl, ht⟩ := hr
        have hmatters : t.word.matters := matters_iff.mpr (by rw [hk]; decide)
        exact (Reading.Closes.of_took (hb t ht.symm).1 hmatters).then hs
      · refine Reads.mono (P := fun r _ r' => r.Closes r') ?_ fun _ _ _ h _ hr => hr.1 ▸ h
        simp only
        split
        · exact hbump fun _ => ih.bind fun x => lands_finish _ _
        · exact hbump fun _ => ih.runs.closes fun x => hexpect (by decide) fun _ => lands_finish _ _
        · exact hbump fun _ => ih.runs.closes fun k => (reads_expect _).runs.closes fun _ =>
            ih.runs.closes fun x => hexpect (by decide) fun _ => lands_finish _ _
        · exact hbump fun _ => (closes_members (composed_type depth)).bind fun ms =>
            lands_finish _ _
        · next h => exact absurd h hk
        · exact hexpected _

theorem closes_member (depth : Nat) (doc : Option String) :
    Closes (member (Parser.type depth) doc) := by
  refine reads_name.closes (runs_pure _) fun name => (reads_expect .colon).closes ?_ fun colon => ?_
  · exact runs_recoverInBlock.bind fun _ => runs_pure _
  · exact (closes_type depth).bind fun x => lands_attributes.bind fun as => .pure _

theorem closes_structItem (doc : Option String) : Closes (structItem doc) := by
  refine reads_bump.runs.closes fun _ => reads_name.closes (runs_recover none) fun name => ?_
  exact (closes_members (composed_type maxDepth)).bind fun ms => .pure _

theorem closes_enumItem (doc : Option String) : Closes (enumItem doc) := by
  refine reads_bump.runs.closes fun _ => reads_name.closes (runs_recover none) fun name => ?_
  refine (reads_expect .colon).closes (runs_recover none) fun colon => ?_
  refine reads_name.closes (runs_recover none) fun base => ?_
  exact closes_variants.bind fun vs => .pure _

theorem closes_synonymItem (doc : Option String) : Closes (synonymItem doc) := by
  refine reads_bump.runs.closes fun _ => reads_name.closes (runs_recover none) fun name => ?_
  refine (reads_expect .equals).closes (runs_recover none) fun equals => ?_
  exact (closes_type maxDepth).bind fun target => .pure _

end Productions

end Parser

end TypeGraph.Schema
