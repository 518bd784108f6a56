import TypeGraph.Schema.Token
/-!
Tokens are cut out of their text one after another: each is the text at its span, and each ends
before the next one begins.
-/

namespace TypeGraph

namespace Span

/-- The span has `piece` at it. -/
def Cuts (text piece : String) (s : Span) : Prop :=
  ∃ before after, text = before ++ piece ++ after ∧ s.start = before.utf8ByteSize ∧
    s.stop = before.utf8ByteSize + piece.utf8ByteSize

/-- A stretch of a text, which begins and ends between characters. -/
structure LiesIn (text : String) (s : Span) : Prop where
  ordered : s.start ≤ s.stop
  inside : s.stop ≤ text.utf8ByteSize
  start_valid : String.Pos.Raw.IsValid text ⟨s.start⟩
  stop_valid : String.Pos.Raw.IsValid text ⟨s.stop⟩

/-- A stretch with text at it. -/
structure Marks (text : String) (s : Span) : Prop extends s.LiesIn text where
  filled : s.start < s.stop

/-- A stretch with text at it, or the end of the text. -/
structure PointsInto (text : String) (s : Span) : Prop extends s.LiesIn text where
  filled_or_end : s.start < s.stop ∨ s.start = text.utf8ByteSize

variable {text piece : String} {s : Span}

theorem Cuts.liesIn (h : s.Cuts text piece) : s.LiesIn text := by
  obtain ⟨before, after, htext, hstart, hstop⟩ := h
  have hstartPos : (⟨s.start⟩ : String.Pos.Raw) = before.rawEndPos := by
    rw [hstart]
    rfl
  have hstopPos : (⟨s.stop⟩ : String.Pos.Raw) = (before ++ piece).rawEndPos := by
    rw [hstop, String.rawEndPos, String.utf8ByteSize_append]
  constructor
  · omega
  · rw [htext, String.utf8ByteSize_append, String.utf8ByteSize_append]
    omega
  · rw [htext, hstartPos, String.append_assoc]
    exact String.Pos.Raw.isValid_rawEndPos.append_right _
  · rw [htext, hstopPos]
    exact String.Pos.Raw.isValid_rawEndPos.append_right _

theorem Cuts.marks (h : s.Cuts text piece) (hne : piece ≠ "") : s.Marks text := by
  have hlies := h.liesIn
  have hsize : piece.utf8ByteSize ≠ 0 := fun h => hne (String.utf8ByteSize_eq_zero_iff.mp h)
  obtain ⟨before, after, -, hstart, hstop⟩ := h
  exact ⟨hlies, by omega⟩

theorem Marks.pointsInto (h : s.Marks text) : s.PointsInto text :=
  ⟨h.toLiesIn, .inl h.filled⟩

/-- From the beginning of one stretch to the end of a later one. -/
theorem LiesIn.to {t : Span} (h : s.LiesIn text) (k : t.LiesIn text) (hle : s.start ≤ t.stop) :
    LiesIn text ⟨s.start, t.stop⟩ :=
  ⟨hle, k.inside, h.start_valid, k.stop_valid⟩

end Span

namespace Schema

theorem byteSize_cons (c : Char) (cs : List Char) : byteSize (c :: cs) = c.utf8Size + byteSize cs :=
  rfl

theorem byteSize_append (cs ds : List Char) : byteSize (cs ++ ds) = byteSize cs + byteSize ds := by
  induction cs with
  | nil => simp [byteSize]
  | cons c cs ih =>
    rw [List.cons_append, byteSize_cons, byteSize_cons, ih]
    omega

theorem byteSize_eq (cs : List Char) : byteSize cs = (String.ofList cs).utf8ByteSize := by
  induction cs with
  | nil => rfl
  | cons c cs ih =>
    have hcons : String.ofList (c :: cs) = String.singleton c ++ String.ofList cs := by
      rw [String.singleton_eq_ofList, ← String.ofList_append]
      rfl
    rw [byteSize_cons, ih, hcons, String.utf8ByteSize_append, String.utf8ByteSize_singleton]

/-- The characters of lexemes, one lexeme after another. -/
def spelling (ls : List Lexeme) : List Char :=
  ls.flatMap (·.text)

/-- Cutting loses nothing. -/
theorem spelling_lexemes (cs : List Char) : spelling (lexemes cs) = cs := by
  fun_induction lexemes cs with
  | case1 => rfl
  | case2 c cs kind n _ ih =>
    unfold spelling at ih ⊢
    rw [List.flatMap_cons, ih]
    exact congrArg (c :: ·) (List.take_append_drop n cs)

theorem spelling_joined (ls : List Lexeme) : spelling (joined ls) = spelling ls := by
  unfold spelling
  induction ls with
  | nil => rfl
  | cons l ls ih =>
    rw [joined, List.flatMap_cons, ← ih]
    split
    · next hjoined => simp [hjoined]
    · rw [List.flatMap_cons]

theorem text_ne_nil_lexemes (cs : List Char) : ∀ l ∈ lexemes cs, l.text ≠ [] := by
  fun_induction lexemes cs with
  | case1 => simp
  | case2 c cs kind n _ ih => exact List.forall_mem_cons.mpr ⟨List.cons_ne_nil _ _, ih⟩

theorem text_ne_nil_joined {ls : List Lexeme} (h : ∀ l ∈ ls, l.text ≠ []) :
    ∀ l ∈ joined ls, l.text ≠ [] := by
  induction ls with
  | nil => exact h
  | cons l ls ih =>
    obtain ⟨hl, hls⟩ := List.forall_mem_cons.mp h
    have hrest := ih hls
    rw [joined]
    split
    · next hjoined =>
      rw [hjoined] at hrest
      refine List.forall_mem_cons.mpr ⟨?_, (List.forall_mem_cons.mp hrest).2⟩
      exact List.append_ne_nil_of_left_ne_nil hl _
    · exact List.forall_mem_cons.mpr ⟨hl, hrest⟩

/-- A token that stands where its span says. -/
structure Token.CutFrom (text : String) (t : Token) : Prop where
  cuts : t.span.Cuts text t.text
  filled : t.text ≠ ""

theorem Token.CutFrom.marks {text : String} {t : Token} (h : t.CutFrom text) : t.span.Marks text :=
  h.cuts.marks h.filled

theorem Lexeme.cutFrom {l : Lexeme} {before : List Char} (after : List Char) {t : Token}
    (hl : l.text ≠ []) (h : l.token? (byteSize before) = some t) :
    t.CutFrom (String.ofList (before ++ (l.text ++ after))) ∧ t.span.start = byteSize before ∧
      t.span.stop = byteSize (before ++ l.text) := by
  have htoken : t.text = String.ofList l.text ∧
      t.span = ⟨byteSize before, byteSize before + byteSize l.text⟩ := by
    unfold Lexeme.token? at h
    split at h
    · obtain rfl := Option.some.inj h
      exact ⟨rfl, rfl⟩
    · obtain rfl := Option.some.inj h
      exact ⟨rfl, rfl⟩
    · cases h
    · cases h
  obtain ⟨htext, hspan⟩ := htoken
  have hne : String.ofList l.text ≠ "" := by
    intro h
    apply hl
    rw [← @String.toList_ofList l.text, h]
    rfl
  refine ⟨⟨⟨String.ofList before, String.ofList after, ?_, ?_, ?_⟩, htext ▸ hne⟩, ?_, ?_⟩
  · rw [htext, ← String.ofList_append, ← String.ofList_append, List.append_assoc]
  · rw [hspan, byteSize_eq]
  · rw [hspan, htext, byteSize_eq, byteSize_eq]
  · rw [hspan]
  · rw [hspan, byteSize_append]

/-- The tokens of lexemes stand where the lexemes do. -/
theorem cutFrom_place {ls : List Lexeme} (hls : ∀ l ∈ ls, l.text ≠ []) (before : List Char) :
    (∀ t ∈ place (byteSize before) ls, t.CutFrom (String.ofList (before ++ spelling ls)) ∧
      byteSize before ≤ t.span.start) ∧
    (place (byteSize before) ls).Pairwise fun t u => t.span.stop ≤ u.span.start := by
  induction ls generalizing before with
  | nil => exact ⟨List.forall_mem_nil _, .nil⟩
  | cons l ls ih =>
    obtain ⟨hl, hls⟩ := List.forall_mem_cons.mp hls
    obtain ⟨hcut, hordered⟩ := ih hls (before ++ l.text)
    have hsize : byteSize before + byteSize l.text = byteSize (before ++ l.text) :=
      (byteSize_append _ _).symm
    have hspelling : before ++ spelling (l :: ls) = (before ++ l.text) ++ spelling ls := by
      simp [spelling]
    have hle : byteSize before ≤ byteSize (before ++ l.text) := by
      rw [byteSize_append]
      omega
    rw [place, hsize, hspelling]
    cases htoken : l.token? (byteSize before) with
    | none =>
      refine ⟨fun t ht => ?_, hordered⟩
      obtain ⟨htcut, htstart⟩ := hcut t ht
      exact ⟨htcut, Nat.le_trans hle htstart⟩
    | some u =>
      have hu := l.cutFrom (spelling ls) hl htoken
      rw [← List.append_assoc] at hu
      constructor
      · intro t ht
        rcases List.mem_cons.mp ht with rfl | ht
        · exact ⟨hu.1, Nat.le_of_eq hu.2.1.symm⟩
        · obtain ⟨htcut, htstart⟩ := hcut t ht
          exact ⟨htcut, Nat.le_trans hle htstart⟩
      · refine List.pairwise_cons.mpr ⟨fun t ht => ?_, hordered⟩
        rw [hu.2.2]
        exact (hcut t ht).2

theorem cutFrom_tokens (text : String) : ∀ t ∈ tokens text, t.CutFrom text := by
  have hls := text_ne_nil_joined (text_ne_nil_lexemes text.toList)
  have hcut := (cutFrom_place hls []).1
  rw [List.nil_append, spelling_joined, spelling_lexemes, String.ofList_toList] at hcut
  exact fun t ht => (hcut t ht).1

theorem tokens_ordered (text : String) :
    (tokens text).Pairwise fun t u => t.span.stop ≤ u.span.start :=
  (cutFrom_place (text_ne_nil_joined (text_ne_nil_lexemes text.toList)) []).2

end Schema

end TypeGraph
