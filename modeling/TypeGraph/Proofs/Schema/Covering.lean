import TypeGraph.Proofs.Schema.Patterns
/-!
Cutting a text into tokens loses nothing: what is between tokens is gaps and plain comments, and each
token that is not stray input is the longest text of any kind at its place.
-/

namespace TypeGraph

/-- The text before a stretch, the one at it and the one behind it. -/
structure Span.Splits (text before piece after : String) (s : Span) : Prop where
  text_eq : text = before ++ piece ++ after
  start_eq : s.start = before.utf8ByteSize
  stop_eq : s.stop = before.utf8ByteSize + piece.utf8ByteSize

namespace Schema

/-- No reason to read `w` as a text of this kind where the lexeme stands. -/
structure Lexeme.Beats (l : Lexeme) (kind : LexemeKind) (w : List Char) : Prop where
  readable : l.kind ≠ .unreadable
  le : w.length ≤ l.text.length
  outranks : w.length = l.text.length → l.kind.Outranks kind

/-- The longest text of any kind, if `after` follows it; stray input has no text of any kind at its
beginning. -/
structure Lexeme.Longest (l : Lexeme) (after : List Char) : Prop where
  filled : l.text ≠ []
  read : l.kind ≠ .unreadable → l.text ∈ l.kind.pattern
  longest : ∀ kind : LexemeKind, ∀ w ∈ kind.pattern, w <+: l.text ++ after → l.Beats kind w

/-- Every lexeme is the longest one before those that follow it. -/
def Exact : List Lexeme → Prop
  | [] => True
  | l :: ls => l.Longest (spelling ls) ∧ Exact ls

section Lexemes

variable {l : Lexeme} {ls back : List Lexeme} {after : List Char}

theorem Exact.of_append (front : List Lexeme) (h : Exact (front ++ ls)) : Exact ls := by
  induction front with
  | nil => exact h
  | cons l front ih => exact ih h.2

theorem longest_extent (c : Char) (cs : List Char) :
    Lexeme.Longest ⟨(extent c cs).1, c :: cs.take (extent c cs).2⟩ (cs.drop (extent c cs).2) := by
  have htext : c :: cs.take (extent c cs).2 ++ cs.drop (extent c cs).2 = c :: cs :=
    congrArg (c :: ·) (List.take_append_drop _ cs)
  have hlength : (cs.take (extent c cs).2).length = (extent c cs).2 :=
    List.length_take_of_le (extent_le c cs)
  refine ⟨List.cons_ne_nil _ _, mem_pattern c cs, fun kind w hw hprefix => ?_⟩
  rw [htext] at hprefix
  cases w with
  | nil => exact absurd hw (nil_not_mem_pattern kind)
  | cons d v =>
    obtain ⟨rfl, hv⟩ := List.cons_prefix_cons.mp hprefix
    obtain ⟨hreadable, hle, houtranks⟩ := yields hw hv
    constructor
    · exact hreadable
    · rw [List.length_cons, List.length_cons, hlength]
      exact Nat.succ_le_succ hle
    · intro hsame
      rw [List.length_cons, List.length_cons, hlength] at hsame
      exact houtranks (Nat.succ.inj hsame)

theorem exact_lexemes (cs : List Char) : Exact (lexemes cs) := by
  fun_induction lexemes cs with
  | case1 => trivial
  | case2 c cs kind n hextent ih =>
    have hlongest := longest_extent c cs
    rw [hextent] at hlongest
    refine ⟨?_, ih⟩
    rw [spelling_lexemes]
    exact hlongest

/-- Stray input together with the stray input behind it has no text of any kind at its beginning. -/
theorem Lexeme.Longest.joined {text more : List Char}
    (h : Longest ⟨.unreadable, text⟩ (more ++ after)) :
    Longest ⟨.unreadable, text ++ more⟩ after := by
  refine ⟨List.append_ne_nil_of_left_ne_nil h.filled more, fun hkind => absurd rfl hkind, ?_⟩
  intro kind w hw hprefix
  rw [List.append_assoc] at hprefix
  exact absurd rfl (h.longest kind w hw hprefix).readable

theorem exact_joined (h : Exact ls) : Exact (joined ls) := by
  induction ls with
  | nil => trivial
  | cons l ls ih =>
    obtain ⟨hl, hls⟩ := h
    have hrest := ih hls
    rw [← spelling_joined] at hl
    rw [joined]
    split
    · next text rest hkind hjoined =>
      rw [hjoined] at hl hrest
      obtain ⟨kind, first⟩ := l
      obtain rfl : kind = .unreadable := hkind
      exact ⟨hl.joined, hrest.2⟩
    · exact ⟨hl, hrest⟩

/-- No stray input stands beside other stray input. -/
theorem isChain_joined (ls : List Lexeme) :
    (joined ls).IsChain fun l k => l.kind = .unreadable → k.kind ≠ .unreadable := by
  induction ls with
  | nil => exact .nil
  | cons l ls ih =>
    rw [joined]
    split
    · next text rest hkind hjoined =>
      rw [hjoined] at ih
      cases rest with
      | nil => exact .singleton _
      | cons k rest =>
        obtain ⟨hk, hrest⟩ := List.isChain_cons_cons.mp ih
        exact List.isChain_cons_cons.mpr ⟨hk, hrest⟩
    · next hno =>
      cases hjoined : joined ls with
      | nil => exact .singleton _
      | cons k rest =>
        rw [hjoined] at ih hno
        refine List.isChain_cons_cons.mpr ⟨fun hl hk => ?_, ih⟩
        obtain ⟨kind, text⟩ := k
        obtain rfl : kind = .unreadable := hk
        exact hno text rest hl rfl

/-- A comment goes on to the end of its line. -/
theorem Lexeme.Longest.line_ends (h : l.Longest after) (hkind : l.kind = .comment) :
    ∀ c ∈ after.head?, c = '\n' := by
  obtain ⟨kind, text⟩ := l
  obtain rfl : kind = .comment := hkind
  intro c hc
  by_contra hfeed
  obtain ⟨after, rfl⟩ := List.head?_eq_some_iff.mp hc
  have hlonger : text ++ [c] ∈ Pattern.comment := by
    have hmem : text ∈ Pattern.comment := (h.read LexemeKind.noConfusion).1
    cases text with
    | nil => exact absurd rfl h.filled
    | cons d text =>
      obtain ⟨rfl, v, rfl, hv⟩ := cons_mem_comment.mp hmem
      refine cons_mem_comment.mpr ⟨rfl, v ++ [c], rfl, List.forall_mem_append.mpr ⟨hv, ?_⟩⟩
      exact List.forall_mem_singleton.mpr hfeed
  have hle := (h.longest _ _ (mem_commentKind hlonger) ⟨after, by simp⟩).le
  rw [List.length_append] at hle
  exact absurd hle (Nat.not_succ_le_self text.length)

end Lexemes

section Tokens

variable {l : Lexeme} {ls : List Lexeme} {start : Nat} {t : Token}

/-- Where a token comes from: it has the text of its lexeme. -/
theorem token?_eq_some (h : l.token? start = some t) : t.text.toList = l.text ∧
    t.span = ⟨start, start + byteSize l.text⟩ ∧
      (l.kind = .token t.kind ∨ l.kind = .unreadable ∧ t.kind = .garbage) := by
  obtain ⟨kind, text⟩ := l
  cases kind with
  | token kind =>
    obtain rfl := Option.some.inj h
    exact ⟨String.toList_ofList, rfl, .inl rfl⟩
  | unreadable =>
    obtain rfl := Option.some.inj h
    exact ⟨String.toList_ofList, rfl, .inr ⟨rfl, rfl⟩⟩
  | blank | comment => cases h

theorem token?_eq_none (h : l.token? start = none) : l.kind = .blank ∨ l.kind = .comment := by
  obtain ⟨kind, text⟩ := l
  cases kind with
  | token kind | unreadable => cases h
  | blank => exact .inl rfl
  | comment => exact .inr rfl

theorem exists_of_mem_place (h : t ∈ place start ls) : ∃ front l back,
    ls = front ++ l :: back ∧ l.token? (start + byteSize (spelling front)) = some t := by
  induction ls generalizing start with
  | nil => cases h
  | cons l ls ih =>
    rcases List.mem_append.mp h with h | h
    · exact ⟨[], l, ls, rfl, Option.mem_toList.mp h⟩
    · obtain ⟨front, k, back, rfl, hk⟩ := ih h
      refine ⟨l :: front, k, back, rfl, ?_⟩
      rw [spelling_cons, byteSize_append, ← Nat.add_assoc]
      exact hk

theorem le_start_of_mem_place (h : t ∈ place start ls) : start ≤ t.span.start := by
  obtain ⟨front, l, back, -, hl⟩ := exists_of_mem_place h
  obtain ⟨-, hspan, -⟩ := token?_eq_some hl
  rw [hspan]
  exact Nat.le_add_right _ _

theorem stop_le_of_mem_place (h : t ∈ place start ls) :
    t.span.stop ≤ start + byteSize (spelling ls) := by
  obtain ⟨front, l, back, rfl, hl⟩ := exists_of_mem_place h
  obtain ⟨-, hspan, -⟩ := token?_eq_some hl
  rw [hspan, spelling_append, spelling_cons, byteSize_append, byteSize_append]
  dsimp only
  omega

/-- Every byte belongs to a lexeme. -/
theorem exists_lexeme_at {i : Nat} (hi : i < byteSize (spelling ls)) : ∃ front l back,
    ls = front ++ l :: back ∧ byteSize (spelling front) ≤ i ∧
      i < byteSize (spelling front) + byteSize l.text := by
  induction ls generalizing i with
  | nil => cases hi
  | cons l ls ih =>
    by_cases hl : i < byteSize l.text
    · exact ⟨[], l, ls, rfl, Nat.zero_le i, hl.trans_eq (Nat.zero_add _).symm⟩
    · rw [spelling_cons, byteSize_append] at hi
      have hrest : i - byteSize l.text < byteSize (spelling ls) := by omega
      obtain ⟨front, k, back, rfl, hle, hlt⟩ := ih hrest
      refine ⟨l :: front, k, back, rfl, ?_, ?_⟩
      · rw [spelling_cons, byteSize_append]
        omega
      · rw [spelling_cons, byteSize_append]
        omega

theorem byteSize_pos {cs : List Char} (h : cs ≠ []) : 0 < byteSize cs := by
  cases cs with
  | nil => exact absurd rfl h
  | cons c cs =>
    rw [byteSize_cons]
    have hpos := c.utf8Size_pos
    omega

theorem Lexeme.Longest.kind_ne_garbage {after : List Char} (h : l.Longest after) :
    l.kind ≠ .token .garbage := by
  intro hkind
  have hmem := h.read (hkind ▸ LexemeKind.noConfusion)
  rw [hkind] at hmem
  exact hmem

/-- Behind a readable lexeme there is no stray input for at least one byte. -/
theorem lt_start_of_garbage (hls : Exact ls) (hhead : ∀ l ∈ ls.head?, l.kind ≠ .unreadable)
    (h : t ∈ place start ls) (hkind : t.kind = .garbage) : start < t.span.start := by
  cases ls with
  | nil => cases h
  | cons l ls =>
    rcases List.mem_append.mp h with h | h
    · obtain ⟨-, -, hl | ⟨hl, -⟩⟩ := token?_eq_some (Option.mem_toList.mp h)
      · exact absurd (hkind ▸ hl) hls.1.kind_ne_garbage
      · exact absurd hl (hhead l rfl)
    · have hle := le_start_of_mem_place h
      have hpos := byteSize_pos hls.1.filled
      omega

theorem garbage_apart (hls : Exact ls)
    (hchain : ls.IsChain fun l k => l.kind = .unreadable → k.kind ≠ .unreadable) (start : Nat) :
    (place start ls).Pairwise fun t u =>
      t.kind = .garbage → u.kind = .garbage → t.span.stop < u.span.start := by
  induction ls generalizing start with
  | nil => exact .nil
  | cons l ls ih =>
    have hrest := ih hls.2 hchain.of_cons (start + byteSize l.text)
    rw [place]
    cases hl : l.token? start with
    | none => exact hrest
    | some t =>
      refine List.pairwise_cons.mpr ⟨fun u hu htkind hukind => ?_, hrest⟩
      obtain ⟨-, hspan, hkind | ⟨hkind, -⟩⟩ := token?_eq_some hl
      · exact absurd (htkind ▸ hkind) hls.1.kind_ne_garbage
      · rw [hspan]
        refine lt_start_of_garbage hls.2 ?_ hu hukind
        intro k hk
        obtain ⟨ks, rfl⟩ := List.head?_eq_some_iff.mp hk
        exact (List.isChain_cons_cons.mp hchain).1 hkind

end Tokens

/-- A stretch that no token stands for: a gap, or a comment to the end of its line that is no
documentation. -/
inductive Blank (text : String) (s : Span) : Prop
  | gap {before piece after : String} (h : s.Splits text before piece after)
      (hpiece : piece.toList ∈ Pattern.blank) : Blank text s
  | comment {before piece after : String} (h : s.Splits text before piece after)
      (hpiece : piece.toList ∈ Pattern.comment - Pattern.threeSlashes)
      (hafter : ∀ c ∈ after.toList.head?, c = '\n') : Blank text s

/-- What the grammar says of a token that `after` follows. -/
structure Token.Matched (t : Token) (after : List Char) : Prop where
  not_blank : t.text.toList ∉ Pattern.blank
  not_comment : t.text.toList ∉ Pattern.comment - Pattern.threeSlashes
  read : t.kind ≠ .garbage → t.text.toList ∈ t.kind.pattern
  longest : t.kind ≠ .garbage → ∀ kind : LexemeKind, ∀ w ∈ kind.pattern,
    w <+: t.text.toList ++ after → w.length ≤ t.text.toList.length ∧
      (w.length = t.text.toList.length → LexemeKind.Outranks (.token t.kind) kind)
  stray : t.kind = .garbage → ∀ kind : LexemeKind, ∀ w ∈ kind.pattern,
    ¬w <+: t.text.toList ++ after

section Covering

variable {l : Lexeme} {front back : List Lexeme} {t : Token} {text : String}

theorem splits_of_lexemes (h : text.toList = spelling (front ++ l :: back)) :
    Span.Splits text (String.ofList (spelling front)) (String.ofList l.text)
      (String.ofList (spelling back))
      ⟨byteSize (spelling front), byteSize (spelling front) + byteSize l.text⟩ := by
  constructor
  · rw [← String.ofList_append, ← String.ofList_append, ← @String.ofList_toList text, h,
      spelling_append, spelling_cons, List.append_assoc]
  · exact byteSize_eq _
  · rw [byteSize_eq, byteSize_eq]

theorem blank_of_lexemes {start : Nat} (h : text.toList = spelling (front ++ l :: back))
    (hl : l.Longest (spelling back)) (hnone : l.token? start = none) :
    Blank text ⟨byteSize (spelling front), byteSize (spelling front) + byteSize l.text⟩ := by
  have hsplits := splits_of_lexemes h
  rcases token?_eq_none hnone with hkind | hkind
  · have hmem := hl.read (hkind ▸ LexemeKind.noConfusion)
    rw [hkind] at hmem
    refine .gap hsplits ?_
    rw [String.toList_ofList]
    exact hmem
  · have hmem := hl.read (hkind ▸ LexemeKind.noConfusion)
    rw [hkind] at hmem
    refine .comment hsplits ?_ ?_
    · rw [String.toList_ofList]
      exact hmem
    · rw [String.toList_ofList]
      exact hl.line_ends hkind

theorem matched_of_longest {after : List Char} {start : Nat} (h : l.Longest after)
    (ht : l.token? start = some t) : t.Matched after := by
  obtain ⟨htext, -, hkind⟩ := token?_eq_some ht
  have hself : l.text <+: l.text ++ after := List.prefix_append _ _
  -- neither a gap nor a comment goes first before a token
  have hother (kind : LexemeKind) (hmem : l.text ∈ kind.pattern)
      (hno : ∀ k, kind ≠ .token k) : False := by
    obtain ⟨hreadable, -, houtranks⟩ := h.longest kind l.text hmem hself
    rcases hkind with hkind | ⟨hkind, -⟩
    · rcases houtranks rfl with heq | ⟨k, -, -, heq⟩
      · exact hno _ (heq.symm.trans hkind)
      · exact hno _ heq
    · exact hreadable hkind
  have htoken (hgarbage : t.kind ≠ .garbage) : l.kind = .token t.kind :=
    hkind.resolve_right fun h => hgarbage h.2
  constructor
  · rw [htext]
    exact fun hmem => hother .blank hmem fun k => LexemeKind.noConfusion
  · rw [htext]
    exact fun hmem => hother .comment hmem fun k => LexemeKind.noConfusion
  · intro hgarbage
    have hmem := h.read (htoken hgarbage ▸ LexemeKind.noConfusion)
    rw [htext]
    rwa [htoken hgarbage] at hmem
  · intro hgarbage kind w hw hprefix
    rw [htext] at hprefix ⊢
    obtain ⟨-, hle, houtranks⟩ := h.longest kind w hw hprefix
    rw [htoken hgarbage] at houtranks
    exact ⟨hle, houtranks⟩
  · intro hgarbage kind w hw hprefix
    rw [htext] at hprefix
    refine (h.longest kind w hw hprefix).readable ?_
    rcases hkind with hkind | ⟨hkind, -⟩
    · exact absurd (hgarbage ▸ hkind) h.kind_ne_garbage
    · exact hkind

theorem exact_joined_lexemes (text : String) : Exact (joined (lexemes text.toList)) :=
  exact_joined (exact_lexemes text.toList)

theorem spelling_joined_lexemes (text : String) :
    spelling (joined (lexemes text.toList)) = text.toList := by
  rw [spelling_joined, spelling_lexemes]

theorem exists_lexeme_of_token (h : t ∈ tokens text) : ∃ front l back,
    text.toList = spelling (front ++ l :: back) ∧ l.Longest (spelling back) ∧
      l.token? (byteSize (spelling front)) = some t := by
  have hexact := exact_joined_lexemes text
  obtain ⟨front, l, back, hls, hl⟩ := exists_of_mem_place h
  rw [hls] at hexact
  rw [Nat.zero_add] at hl
  exact ⟨front, l, back, hls ▸ (spelling_joined_lexemes text).symm, (hexact.of_append front).1, hl⟩

/-- A token that is no stray input is of its kind. -/
theorem mem_pattern_of_token (h : t ∈ tokens text) (hkind : t.kind ≠ .garbage) :
    t.text.toList ∈ t.kind.pattern := by
  obtain ⟨front, l, back, -, hlongest, hl⟩ := exists_lexeme_of_token h
  exact (matched_of_longest hlongest hl).read hkind

/-- Every byte of a text is in a token or in what stands between tokens, and every token is the
longest text of any kind at its place; stray input is all that no kind accounts for. -/
theorem tokens_account_for_text (text : String) :
    (∀ t ∈ tokens text, t.span.Marks text ∧
      ∃ before after, t.span.Splits text before t.text after ∧ t.Matched after.toList) ∧
    ((tokens text).Pairwise fun t u => t.span.stop ≤ u.span.start ∧
      (t.kind = .garbage → u.kind = .garbage → t.span.stop < u.span.start)) ∧
    ∀ i < text.utf8ByteSize, (∃ t ∈ tokens text, t.span.start ≤ i ∧ i < t.span.stop) ∨
      ∃ s, Blank text s ∧ s.start ≤ i ∧ i < s.stop ∧
        ∀ t ∈ tokens text, t.span.stop ≤ s.start ∨ s.stop ≤ t.span.start := by
  refine ⟨fun t ht => ⟨(cutFrom_tokens text t ht).marks, ?_⟩, ?_, fun i hi => ?_⟩
  · obtain ⟨front, l, back, hspelling, hlongest, hl⟩ := exists_lexeme_of_token ht
    obtain ⟨htext, hspan, -⟩ := token?_eq_some hl
    have hsplits := splits_of_lexemes hspelling
    rw [← htext, String.ofList_toList, htext, ← hspan] at hsplits
    refine ⟨_, _, hsplits, ?_⟩
    rw [String.toList_ofList]
    exact matched_of_longest hlongest hl
  · exact (tokens_ordered text).and (garbage_apart (exact_joined_lexemes text) (isChain_joined _) 0)
  · rw [← @String.ofList_toList text, ← spelling_joined_lexemes text, ← byteSize_eq] at hi
    obtain ⟨front, l, back, hls, hle, hlt⟩ := exists_lexeme_at hi
    have hexact := exact_joined_lexemes text
    have hspelling := spelling_joined_lexemes text
    have htokens : tokens text = place 0 (front ++ l :: back) := congrArg (place 0) hls
    rw [hls] at hexact hspelling
    rw [place_append, place, Nat.zero_add] at htokens
    cases hl : l.token? (byteSize (spelling front)) with
    | some t =>
      obtain ⟨-, hspan, -⟩ := token?_eq_some hl
      refine .inl ⟨t, ?_, ?_⟩
      · rw [htokens, hl]
        exact List.mem_append_right _ List.mem_cons_self
      · rw [hspan]
        exact ⟨hle, hlt⟩
    | none =>
      have hblank := blank_of_lexemes hspelling.symm (hexact.of_append front).1 hl
      refine .inr ⟨_, hblank, hle, hlt, fun t ht => ?_⟩
      rw [htokens, hl] at ht
      rcases List.mem_append.mp ht with ht | ht
      · exact .inl ((stop_le_of_mem_place ht).trans_eq (Nat.zero_add _))
      · exact .inr (le_start_of_mem_place ht)

end Covering

end Schema

end TypeGraph
