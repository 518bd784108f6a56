import Mathlib.Data.List.Forall2
import TypeGraph.Proofs.Schema.Printing
import TypeGraph.Proofs.Schema.Reading
/-!
Reading words that fit. Where the tokens ahead say what a production asks for, it takes just these
and reports nothing.
-/

namespace TypeGraph.Schema

/-- The kind of the tokens that say a word. -/
def Word.kind : Word → TokenKind
  | .mark kind => kind
  | .name _ => .identifier
  | .literal (some (.string _)) => .string
  | .literal (some (.float _)) => .float
  | .literal _ => .integer
  | .doc _ => .docComment

/-- Neither unreadable nor without a value. -/
def Word.readable : Word → Bool
  | .mark kind => kind != .garbage
  | .literal value? => value?.isSome
  | _ => true

theorem integerLiteral_eq_some {text : String} {v : Literal}
    (h : Parser.integerLiteral text = some v) :
    (∃ value, v = .int value) ∨ ∃ value, v = .uint value := by
  unfold Parser.integerLiteral at h
  extract_lets value at h
  split at h
  · exact .inl ⟨_, (Option.some.inj h).symm⟩
  · split at h
    · exact .inr ⟨_, (Option.some.inj h).symm⟩
    · simp at h

theorem Token.kind_of_readable {t : Token} (h : t.word.readable) : t.word.kind = t.kind := by
  obtain ⟨kind, text, span⟩ := t
  cases kind with
  | integer =>
    obtain ⟨v, hv⟩ := Option.isSome_iff_exists.mp (show (Parser.integerLiteral text).isSome from h)
    simp only [Token.word, hv]
    rcases integerLiteral_eq_some hv with ⟨value, rfl⟩ | ⟨value, rfl⟩ <;> rfl
  | float =>
    cases hv : Binary64.ofText? text with
    | none => simp [Token.word, hv, Word.readable] at h
    | some value => simp [Token.word, hv, Word.kind]
  | _ => rfl

theorem Token.text_of_word {t : Token} {text : String} (h : t.word = .name text) :
    t.text = text := by
  obtain ⟨kind, text', span⟩ := t
  cases kind <;> simp_all [Token.word]

theorem Token.line_of_word {t : Token} {line : String} (h : t.word = .doc line) :
    String.ofList (docLine t.text.toList) = line := by
  obtain ⟨kind, text, span⟩ := t
  cases kind <;> simp_all [Token.word]

theorem Token.value_of_word {t : Token} {s : String} (h : t.word = .literal (some (.string s))) :
    stringValue t.text = s := by
  obtain ⟨kind, text, span⟩ := t
  cases kind with
  | string => simpa [Token.word] using h
  | integer =>
    have hvalue : Parser.integerLiteral text = some (.string s) := by simpa [Token.word] using h
    rcases integerLiteral_eq_some hvalue with ⟨_, hv⟩ | ⟨_, hv⟩ <;> exact absurd hv (by simp)
  | float => simp [Token.word] at h
  | _ => simp [Token.word] at h

/-- The tokens ahead say these words. -/
structure Reading.Faces (r : Reading) (ws : List Word) : Prop where
  words : r.rest.map Token.word = ws
  readable : ∀ t ∈ r.rest, t.word.readable

/-- Nothing was reported, and the header is what it was. -/
structure Reading.Keeps (r r' : Reading) : Prop where
  package : r'.package = r.package
  diagnostics : r'.diagnostics = r.diagnostics

namespace Reading

variable {r s r' : Reading} {w : Word} {ws : List Word}

theorem Keeps.refl (r : Reading) : r.Keeps r :=
  ⟨rfl, rfl⟩

theorem Keeps.trans (h : r.Keeps s) (k : s.Keeps r') : r.Keeps r' :=
  ⟨k.package.trans h.package, k.diagnostics.trans h.diagnostics⟩

theorem Faces.cons (h : r.Faces (w :: ws)) : ∃ t ts, r.rest = t :: ts ∧ t.word = w ∧
    t.kind = w.kind ∧ ∀ stop, ({ r with rest := ts, lastStop := stop } : Reading).Faces ws := by
  obtain ⟨hwords, hreadable⟩ := h
  obtain ⟨t, ts, hrest, ht, hts⟩ := List.map_eq_cons_iff.mp hwords
  rw [hrest] at hreadable
  obtain ⟨htr, htsr⟩ := List.forall_mem_cons.mp hreadable
  refine ⟨t, ts, hrest, ht, ?_, fun stop => ⟨hts, htsr⟩⟩
  rw [← ht, Token.kind_of_readable htr]

theorem Faces.nil (h : r.Faces []) : r.rest = [] :=
  List.map_eq_nil_iff.mp h.words

theorem Faces.length (h : r.Faces ws) : r.rest.length = ws.length := by
  rw [← h.words, List.length_map]

theorem Faces.skipGarbage (h : r.Faces ws) : r.skipGarbage r.rest = r := by
  cases hrest : r.rest with
  | nil => rw [Reading.skipGarbage, ← hrest]
  | cons t ts =>
    have ht := h.readable t (by simp [hrest])
    have hkind : t.kind ≠ .garbage := by
      intro hgarbage
      simp [Token.word, hgarbage, Word.readable] at ht
    rw [Reading.skipGarbage, if_neg hkind, ← hrest]

end Reading

namespace Parser

open Reading

variable {α β γ : Type} {m : Parser α} {f : α → Parser β} {w : Word} {ws vs : List Word}
variable {N M : List Word → Prop} {P : α → Prop} {Q : β → Prop} {kind : TokenKind}

/-- Work that takes just the words `ws`, if what follows them is as it should be. -/
def Accepts (m : Parser α) (ws : List Word) (N : List Word → Prop) (P : α → Prop) : Prop :=
  ∀ (r : Reading) (us : List Word), r.Faces (ws ++ us) → N us →
    ∃ a r', m r = (a, r') ∧ P a ∧ r'.Faces us ∧ r.Keeps r'

def Anything : List Word → Prop :=
  fun _ => True

/-- The next word is not of this kind. -/
def Not (kind : TokenKind) : List Word → Prop :=
  fun us => ∀ w ∈ us.head?, w.kind ≠ kind

theorem Accepts.imp {P' : α → Prop} (h : Accepts m ws N P) (hP : ∀ a, P a → P' a) :
    Accepts m ws N P' := by
  intro r us hr hnext
  obtain ⟨a, r', hm, ha, hr', hk⟩ := h r us hr hnext
  exact ⟨a, r', hm, hP a ha, hr', hk⟩

/-- Work that asks less of what follows. -/
theorem Accepts.before (h : Accepts m ws N P) (hN : ∀ us, M us → N us) : Accepts m ws M P :=
  fun r us hr hnext => h r us hr (hN us hnext)

theorem Accepts.pure {a : α} (ha : P a) : Accepts (Pure.pure a) [] N P := by
  intro r us hr _
  exact ⟨a, r, rfl, ha, hr, .refl r⟩

theorem Accepts.bind (hm : Accepts m ws N P) (hf : ∀ a, P a → Accepts (f a) vs M Q)
    (hN : ∀ us, M us → N (vs ++ us)) : Accepts (m >>= f) (ws ++ vs) M Q := by
  intro r us hr hnext
  rw [List.append_assoc] at hr
  obtain ⟨a, s, hm, ha, hs, hk⟩ := hm r (vs ++ us) hr (hN us hnext)
  obtain ⟨b, r', hf, hb, hr', hk'⟩ := hf a ha s us hs hnext
  refine ⟨b, r', ?_, hb, hr', hk.trans hk'⟩
  rw [run_bind, hm, hf]

/-- Work on one word and then on others. -/
theorem Accepts.step (hm : Accepts m [w] Anything P)
    (hf : ∀ a, P a → Accepts (f a) vs M Q) : Accepts (m >>= f) (w :: vs) M Q :=
  hm.bind hf fun _ _ => trivial

/-- Work that takes nothing comes first. -/
theorem Accepts.look (hm : Accepts m [] N P) (hf : ∀ a, P a → Accepts (f a) vs M Q)
    (hN : ∀ us, M us → N (vs ++ us)) : Accepts (m >>= f) vs M Q :=
  hm.bind hf hN

/-- Work that takes nothing comes last. -/
theorem Accepts.done (hm : Accepts m ws N P) (hf : ∀ a, P a → Accepts (f a) [] N Q) :
    Accepts (m >>= f) ws N Q := by
  have h := hm.bind hf fun _ hnext => hnext
  rw [List.append_nil] at h
  exact h

section Tokens

theorem current_of_faces {r : Reading} (h : r.Faces ws) : current r = (r.rest.head?, r) := by
  have hskip : (current r).2 = r := h.skipGarbage
  have hfst := current_fst r
  rw [hskip] at hfst
  exact Prod.ext hfst hskip

theorem accepts_current {f : Option Token → Parser β}
    (hf : ∀ t, t.word = w → t.kind = w.kind → Accepts (f (some t)) (w :: ws) N Q) :
    Accepts (current >>= f) (w :: ws) N Q := by
  intro r us hr hnext
  obtain ⟨t, ts, hrest, hw, hk, -⟩ := Faces.cons hr
  rw [run_bind, current_of_faces hr, hrest]
  exact hf t hw hk r us hr hnext

theorem currentKind_of_faces {r : Reading} (h : r.Faces ws) :
    currentKind r = (ws.head?.map Word.kind, r) := by
  rw [currentKind, run_bind, current_of_faces h]
  cases ws with
  | nil =>
    rw [h.nil]
    rfl
  | cons w ws =>
    obtain ⟨t, ts, hrest, -, hk, -⟩ := Faces.cons h
    rw [hrest]
    exact congrArg (fun kind => (some kind, r)) hk

theorem accepts_currentKind {f : Option TokenKind → Parser β}
    (hf : Accepts (f (some w.kind)) (w :: ws) N Q) :
    Accepts (currentKind >>= f) (w :: ws) N Q := by
  intro r us hr hnext
  rw [run_bind, currentKind_of_faces hr]
  exact hf r us hr hnext

theorem accepts_currentSpan : Accepts currentSpan [] N fun _ => True := by
  intro r us hr _
  have hspan : ∃ span, currentSpan r = (span, r) := by
    rw [currentSpan, run_bind, current_of_faces hr]
    cases r.rest.head? with
    | some t => exact ⟨_, rfl⟩
    | none => exact ⟨_, rfl⟩
  obtain ⟨span, hspan⟩ := hspan
  exact ⟨span, r, hspan, trivial, hr, .refl r⟩

theorem accepts_bump : Accepts bump [w] Anything fun _ => True := by
  intro r us hr _
  obtain ⟨t, ts, hrest, -, -, hts⟩ := Faces.cons hr
  have hcurrent : (current r).2 = r := congrArg Prod.snd (current_of_faces hr)
  have hbump := bump_eq_cons (hcurrent.symm ▸ hrest)
  rw [hcurrent] at hbump
  exact ⟨_, _, hbump, trivial, hts _, rfl, rfl⟩

theorem accepts_eat (hk : w.kind = kind) :
    Accepts (eat kind) [w] Anything fun t? => ∃ t, t? = some t ∧ t.word = w := by
  unfold eat
  refine accepts_current fun t hw htk => ?_
  simp only [htk, hk, if_true]
  refine accepts_bump.done fun _ _ => ?_
  exact .pure ⟨t, rfl, hw⟩

theorem accepts_eat_none : Accepts (eat kind) [] (Not kind) fun t? => t? = none := by
  intro r us hr hnext
  refine ⟨none, r, ?_, rfl, hr, .refl r⟩
  rw [eat, run_bind, current_of_faces hr]
  cases us with
  | nil =>
    rw [hr.nil]
    rfl
  | cons w us =>
    obtain ⟨t, ts, hrest, -, hk, -⟩ := Faces.cons hr
    have hne : t.kind ≠ kind := hk ▸ hnext w rfl
    rw [hrest]
    simp only [List.head?_cons, if_neg hne]
    rfl

theorem accepts_expect (hk : w.kind = kind) :
    Accepts (expect kind) [w] Anything fun t? => ∃ t, t? = some t ∧ t.word = w := by
  unfold expect
  refine (accepts_eat hk).done fun t? ht => ?_
  obtain ⟨t, rfl, hw⟩ := ht
  exact .pure ⟨t, rfl, hw⟩

theorem accepts_name (text : String) :
    Accepts name [.name text] Anything fun n? => ∃ n, n? = some n ∧ n.text = text := by
  unfold name
  refine (accepts_eat rfl).done fun t? ht => ?_
  obtain ⟨t, rfl, hw⟩ := ht
  exact .pure ⟨_, rfl, Token.text_of_word hw⟩

end Tokens

section Collect

/-- Rounds that take the words of one entry each, and a last one that takes `stop`. -/
theorem accepts_collect {round : Parser (List α × Bool)} {words : γ → List Word}
    {F : α → γ → Prop} {stop : List Word} {xs : List γ}
    (hround : ∀ x ∈ xs, Accepts round (words x) M fun out => ∃ a, out = ([a], true) ∧ F a x)
    (hstop : Accepts round stop N fun out => out = ([], false))
    (hne : ∀ x ∈ xs, words x ≠ [])
    (hnext : ∀ ys us, ys ⊆ xs → N us → M (ys.flatMap words ++ (stop ++ us))) :
    Accepts (collect round) (xs.flatMap words ++ stop) N fun as => List.Forall₂ F as xs := by
  induction xs with
  | nil =>
    intro r us hr hus
    obtain ⟨out, r', hrun, hout, hr', hk⟩ := hstop r us hr hus
    subst hout
    refine ⟨[], r', ?_, .nil, hr', hk⟩
    rw [collect, hrun]
    rfl
  | cons x xs ih =>
    intro r us hr hus
    obtain ⟨hx, hxs⟩ := List.forall_mem_cons.mp hround
    obtain ⟨hnex, hnexs⟩ := List.forall_mem_cons.mp hne
    have hr' : r.Faces (words x ++ (xs.flatMap words ++ (stop ++ us))) := by
      simpa [List.flatMap_cons] using hr
    have hmid := hnext xs us (List.subset_cons_self x xs) hus
    obtain ⟨out, s, hrun, ⟨a, hout, ha⟩, hs, hk⟩ := hx r _ hr' hmid
    subst hout
    have hs' : s.Faces ((xs.flatMap words ++ stop) ++ us) := by simpa using hs
    obtain ⟨as, r'', hrest, has, hr'', hk'⟩ := ih hxs hnexs
      (fun ys us hys => hnext ys us (List.subset_cons_of_subset x hys)) s us hs' hus
    -- a round takes a token, so another one follows
    have hlt : s.rest.length < r.rest.length := by
      have hpos := List.length_pos_iff.mpr hnex
      rw [hs.length, hr'.length, @List.length_append _ (words x)]
      omega
    refine ⟨a :: as, r'', ?_, .cons ha has, hr'', hk.trans hk'⟩
    rw [collect, hrun]
    simp only [hlt, and_self, if_true, hrest]
    rfl

theorem accepts_collect_all {round : Parser (List α × Bool)} {words : γ → List Word}
    {F : α → γ → Prop} {xs : List γ}
    (hround : ∀ x ∈ xs, Accepts round (words x) M fun out => ∃ a, out = ([a], true) ∧ F a x)
    (hstop : Accepts round [] N fun out => out = ([], false)) (hne : ∀ x ∈ xs, words x ≠ [])
    (hnext : ∀ ys us, ys ⊆ xs → N us → M (ys.flatMap words ++ us)) :
    Accepts (collect round) (xs.flatMap words) N fun as => List.Forall₂ F as xs := by
  have h := accepts_collect hround hstop hne hnext
  rw [List.append_nil] at h
  exact h

theorem map_eq_of_forall₂ {e : α → β} {as xs : List α}
    (h : List.Forall₂ (fun a x => e a = e x) as xs) : as.map e = xs.map e := by
  induction h with
  | nil => rfl
  | cons hx _ ih => rw [List.map_cons, List.map_cons, hx, ih]

theorem intercalate_pieces (c : Char) (cs : List Char) :
    [c].intercalate (Text.pieces (· == c) cs) = cs := by
  induction cs with
  | nil => rfl
  | cons d cs ih =>
    rw [Text.pieces]
    cases hp : Text.pieces (· == c) cs with
    | nil => exact absurd hp (Text.pieces_ne_nil _ _)
    | cons piece rest =>
      rw [hp] at ih
      by_cases hd : d = c
      · subst hd
        simp [List.intercalate_cons_cons, ih]
      · have hne : (d == c) = false := by simpa using hd
        rw [hne]
        cases rest with
        | nil => simpa using ih
        | cons next rest =>
          rw [List.intercalate_cons_cons] at ih
          simp [List.intercalate_cons_cons, ← ih]

theorem intercalate_lines (text : String) :
    "\n".intercalate ((Text.lines text.toList).map String.ofList) = text := by
  apply String.toList_inj.mp
  rw [String.toList_intercalate, List.map_map]
  have hid : String.toList ∘ String.ofList = id := funext fun _ => String.toList_ofList
  rw [hid, List.map_id]
  exact intercalate_pieces '\n' text.toList

theorem accepts_docs (doc : Option String) :
    Accepts docs (docWords doc) (Not .docComment) fun doc' => doc' = doc := by
  have hlines (ls : List (List Char)) :
      Accepts docs (ls.map fun line => .doc (String.ofList line)) (Not .docComment) fun doc' =>
        doc' = if ls = [] then none else some ("\n".intercalate (ls.map String.ofList)) := by
    unfold docs
    rw [List.map_eq_flatMap]
    refine Accepts.done (P := fun as => List.Forall₂ (fun a line => a = String.ofList line) as ls)
      (accepts_collect_all (M := Anything) ?_ ?_ ?_ ?_) fun as has => .pure ?_
    · intro line _
      refine (accepts_eat rfl).done fun t? ht => ?_
      obtain ⟨t, rfl, hw⟩ := ht
      exact .pure ⟨_, rfl, Token.line_of_word hw⟩
    · refine accepts_eat_none.done fun t? ht => ?_
      obtain rfl := ht
      exact .pure rfl
    · exact fun _ _ => List.cons_ne_nil _ _
    · exact fun _ _ _ _ => trivial
    · have heq : as = ls.map String.ofList := by
        rw [← List.forall₂_eq_eq_eq, List.forall₂_map_right_iff]
        exact has
      rw [heq]
      simp only [List.map_eq_nil_iff]
  cases doc with
  | none => exact hlines []
  | some text =>
    apply (hlines (Text.lines text.toList)).imp
    intro doc' hdoc
    have hne : Text.lines text.toList ≠ [] := Text.pieces_ne_nil _ _
    rw [hdoc, if_neg hne, intercalate_lines]

/-- What the words of an entry of a block may begin with, after its documentation. -/
structure Opens (kind : TokenKind) : Prop where
  brace : kind ≠ .rightBrace
  item : kind.startsItem = false
  separator : ¬(kind = .comma ∨ kind = .semicolon)
  doc : kind ≠ .docComment

theorem opens_identifier : Opens .identifier :=
  ⟨by decide, rfl, by decide, by decide⟩

theorem opens_dotDot : Opens .dotDot :=
  ⟨by decide, rfl, by decide, by decide⟩

theorem not_append {kind : TokenKind} {ws us : List Word} (hws : ∀ w ∈ ws, w.kind ≠ kind)
    (hus : Not kind us) : Not kind (ws ++ us) := by
  cases ws with
  | nil => exact hus
  | cons w ws =>
    intro v hv
    obtain rfl : w = v := Option.some.inj hv
    exact hws w List.mem_cons_self

theorem kind_of_mem_docWords {doc : Option String} {w : Word} (h : w ∈ docWords doc) :
    w.kind = .docComment := by
  cases doc with
  | none => exact absurd h List.not_mem_nil
  | some text =>
    obtain ⟨line, -, rfl⟩ := List.mem_map.mp h
    rfl

/-- Words of entries do not begin with a kind that no entry begins with. -/
theorem not_entries {kind : TokenKind} {doc : γ → Option String} {first : γ → Word}
    {more : γ → List Word} {ys : List γ} {us : List Word} (hdoc : kind ≠ .docComment)
    (hfirst : ∀ y ∈ ys, (first y).kind ≠ kind) (hus : Not kind us) :
    Not kind (ys.flatMap (fun x => docWords (doc x) ++ first x :: more x) ++ us) := by
  cases ys with
  | nil => exact hus
  | cons y ys =>
    rw [List.flatMap_cons, List.append_assoc, List.append_assoc]
    refine not_append (fun w hw => ?_) ?_
    · rw [kind_of_mem_docWords hw]
      exact hdoc.symm
    · intro w hw
      obtain rfl : first y = w := Option.some.inj hw
      exact hfirst y List.mem_cons_self

theorem accepts_block {opening : Span}
    {entry : TokenKind → Option (Option String → Parser (List α))} {xs : List γ}
    (doc : γ → Option String) (first : γ → Word) (more : γ → List Word) {F : α → γ → Prop}
    (hopens : ∀ x ∈ xs, Opens (first x).kind)
    (hentry : ∀ x ∈ xs, ∃ read, entry (first x).kind = some read ∧
      Accepts (read (doc x)) (first x :: more x) N fun as => ∃ a, as = [a] ∧ F a x)
    (hnext : ∀ ys us, ys ⊆ xs → N (ys.flatMap (fun x => docWords (doc x) ++ first x :: more x) ++
      (.mark .rightBrace :: us))) :
    Accepts (block opening entry)
      (xs.flatMap (fun x => docWords (doc x) ++ first x :: more x) ++ [.mark .rightBrace])
      Anything fun as => List.Forall₂ F as xs := by
  unfold block
  refine accepts_collect (M := N) ?_ ?_ ?_ fun ys us hys _ => hnext ys us hys
  · intro x hx
    obtain ⟨read, hread, hreads⟩ := hentry x hx
    have hopen := hopens x hx
    refine (accepts_docs (doc x)).bind (fun doc' hdoc => ?_) ?_
    · subst hdoc
      refine accepts_currentKind ?_
      simp only [if_neg hopen.brace, hopen.item, if_neg hopen.separator, hread]
      refine hreads.done fun as has => ?_
      obtain ⟨a, rfl, ha⟩ := has
      exact .pure ⟨a, rfl, ha⟩
    · intro us _ w hw
      obtain rfl := Option.some.inj hw
      exact hopen.doc
  · refine (accepts_docs none).look (fun doc' _ => ?_) ?_
    · refine accepts_currentKind ?_
      refine accepts_bump.done fun _ _ => .pure rfl
    · intro us _ w hw
      obtain rfl := Option.some.inj hw
      exact (by decide : TokenKind.rightBrace ≠ .docComment)
  · intro x _
    simp

end Collect

end Parser

end TypeGraph.Schema
