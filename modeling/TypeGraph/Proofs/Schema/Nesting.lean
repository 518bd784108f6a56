import TypeGraph.Proofs.Schema.Rounds
import TypeGraph.Proofs.Schema.Stemming
/-!
How deep the reader nests. The reader is written once more with a counter that goes up at the
beginning of a type and down at its end, and that bars types behind the bound. It reads the same, the
counter never exceeds the bound, and everything that is read leaves the counter as it was.
-/

namespace TypeGraph.Schema

namespace Parser

/-- How deep types nest where the reader is, and how deep they nested so far. -/
structure Descent where
  now : Nat := 0
  deepest : Nat := 0

/-- Work of the reader that counts how deep types nest. -/
abbrev Counting := StateT Descent Parser

namespace Counting

variable {α : Type}

def enter : Counting Unit :=
  modify fun d => ⟨d.now + 1, max d.deepest (d.now + 1)⟩

def leave : Counting Unit :=
  modify fun d => { d with now := d.now - 1 }

def collect (round : Counting (List α × Bool)) (d : Descent) (r : Reading) :
    (List α × Descent) × Reading :=
  match round d r with
  | (((found, goOn), d'), s) =>
    if goOn ∧ s.rest.length < r.rest.length then
      let ((more, d''), t) := collect round d' s
      ((found ++ more, d''), t)
    else ((found, d'), s)
termination_by r.rest.length

def member (type : Counting TypeExpr) (doc : Option String) :
    Counting (Option (MemberDef TypeExpr)) := do
  match ← Parser.name with
  | none => return none
  | some name =>
    match ← expect .colon with
    | none =>
      recoverInBlock
      return none
    | some _ =>
      let type ← type
      let attributes ← attributes
      return some { name, type, embedded := false, attributes, doc }

def embedded (type : Counting TypeExpr) (doc : Option String) :
    Counting (Option (MemberDef TypeExpr)) := do
  let _ ← bump
  let type ← type
  if type.isHole then return none
  else
    match type.referredName with
    | none =>
      report .expectedName type.span none [] ["embedded members name a struct, e.g. `..Base`"]
      return none
    | some text =>
      let attributes ← attributes
      return some { name := ⟨text, type.span⟩, type, embedded := true, attributes, doc }

def memberEntry (type : Counting TypeExpr) (kind : TokenKind) :
    Option (Option String → Counting (List (MemberDef TypeExpr))) :=
  match kind with
  | .dotDot => some fun doc => return (← embedded type doc).toList
  | .identifier => some fun doc => return (← member type doc).toList
  | _ => none

def blockRound (opening : Span) (entry : TokenKind → Option (Option String → Counting (List α))) :
    Counting (List α × Bool) := do
  let doc ← docs
  match ← currentKind with
  | none =>
    unclosed opening
    return ([], false)
  | some kind =>
    if kind = .rightBrace then
      let _ ← bump
      return ([], false)
    else if kind.startsItem then
      unclosed opening
      return ([], false)
    else if kind = .comma ∨ kind = .semicolon then
      let _ ← bump
      return ([], true)
    else
      match entry kind with
      | some read => return (← read doc, true)
      | none =>
        fail .expectedName none
        recoverInBlock
        return ([], true)

def members (type : Counting TypeExpr) : Counting (List (MemberDef TypeExpr)) := do
  match ← expect .leftBrace with
  | none => return []
  | some opening => collect (blockRound opening.span (memberEntry type))

/-- A type, the types in it being read by `type`. -/
def form (type : Counting TypeExpr) : Counting TypeExpr := do
  let start := (← currentSpan).start
  match ← current with
  | none =>
    fail .expectedType none
    return .hole ⟨start, start⟩
  | some t =>
    match t.kind with
    | .star =>
      let _ ← bump
      let target ← type
      finish start (.pointer target)
    | .leftBracket =>
      let _ ← bump
      let element ← type
      let _ ← expect .rightBracket
      finish start (.sequence element)
    | .leftBrace =>
      let _ ← bump
      let key ← type
      let _ ← expect .colon
      let value ← type
      let _ ← expect .rightBrace
      finish start (.map key value)
    | .structKeyword =>
      let _ ← bump
      let members ← members type
      finish start (.record members)
    | .identifier =>
      let _ ← bump
      named start t.text
    | _ =>
      fail .expectedType none
      return .hole ⟨start, start⟩

/-- Types up to where the counter reaches the bound. Where the recursion ends before that, `bottom`
answers. -/
def type (bottom : Counting TypeExpr) : Nat → Counting TypeExpr
  | 0 => bottom
  | fuel + 1 => do
    if maxDepth ≤ (← get).now then
      let span ← currentSpan
      report .expectedType span (some "type is nested too deeply") [] []
      return .hole span
    else
      enter
      let x ← form (type bottom fuel)
      leave
      return x

def structItem (type : Counting TypeExpr) (doc : Option String) : Counting (Option Item) := do
  let _ ← bump
  match ← Parser.name with
  | none =>
    recoverToItem
    return none
  | some name =>
    let members ← members type
    return some (.struct { name, doc, members })

def synonymItem (type : Counting TypeExpr) (doc : Option String) : Counting (Option Item) := do
  let _ ← bump
  match ← Parser.name with
  | none =>
    recoverToItem
    return none
  | some name =>
    match ← expect .equals with
    | none =>
      recoverToItem
      return none
    | some _ =>
      let target ← type
      return some (.synonym { name, doc, target })

def itemRound (type : Counting TypeExpr) : Counting (List Item × Bool) := do
  let doc ← docs
  match ← currentKind with
  | none => return ([], false)
  | some .packageKeyword =>
    package
    return ([], true)
  | some .structKeyword => return ((← structItem type doc).toList, true)
  | some .enumKeyword => return ((← enumItem doc).toList, true)
  | some .aliasKeyword => return ((← synonymItem type doc).toList, true)
  | some _ =>
    fail .expectedToken (some "`struct`, `enum`, `alias` or `package`")
    recoverToItem
    return ([], true)

def items (type : Counting TypeExpr) : Counting (List Item) :=
  collect (itemRound type)

end Counting

section Counts

variable {α β : Type} {n : Nat}

/-- What counted work leaves behind beside plain work: the same answer and reading, and the counter
as it was. -/
structure Counted (d : Descent) (x : (α × Descent) × Reading) (y : α × Reading) : Prop where
  answer : x.1.1 = y.1
  reading : x.2 = y.2
  back : x.1.2.now = d.now
  bounded : d.deepest ≤ maxDepth → x.1.2.deepest ≤ maxDepth

/-- Counted work that does the same as plain work where types nest `n` deep. -/
def Counts (n : Nat) (c : Counting α) (m : Parser α) : Prop :=
  ∀ d r, d.now = n → Counted d (c d r) (m r)

theorem Counts.pure (a : α) : Counts n (Pure.pure a) (Pure.pure a) :=
  fun _ _ _ => ⟨rfl, rfl, rfl, id⟩

/-- Work that reads no types does not count. -/
theorem Counts.plain (m : Parser α) : Counts n (liftM m) m :=
  fun _ _ _ => ⟨rfl, rfl, rfl, id⟩

theorem Counts.bind {c : Counting α} {m : Parser α} {g : α → Counting β} {f : α → Parser β}
    (hm : Counts n c m) (hf : ∀ a, Counts n (g a) (f a)) : Counts n (c >>= g) (m >>= f) := by
  intro d r hd
  have hfirst := hm d r hd
  have hrest := hf (m r).1 (c d r).1.2 (m r).2 (hfirst.back.trans hd)
  have hrun : (c >>= g) d r = g (m r).1 (c d r).1.2 (m r).2 := by
    rw [← hfirst.answer, ← hfirst.reading]
    rfl
  rw [hrun]
  exact ⟨hrest.answer, hrest.reading, hrest.back.trans hfirst.back,
    fun h => hrest.bounded (hfirst.bounded h)⟩

theorem Counting.collect_eq (round : Counting (List α × Bool)) (d : Descent) (r : Reading) :
    Counting.collect round d r =
      if (round d r).1.1.2 ∧ (round d r).2.rest.length < r.rest.length then
        (((round d r).1.1.1 ++ (Counting.collect round (round d r).1.2 (round d r).2).1.1,
          (Counting.collect round (round d r).1.2 (round d r).2).1.2),
            (Counting.collect round (round d r).1.2 (round d r).2).2)
      else (((round d r).1.1.1, (round d r).1.2), (round d r).2) := by
  rw [Counting.collect]
  rfl

theorem Counts.collect {c : Counting (List α × Bool)} {m : Parser (List α × Bool)}
    (h : Counts n c m) : Counts n (Counting.collect c) (Parser.collect m) := by
  intro d r hd
  induction hn : r.rest.length using Nat.strongRecOn generalizing d r with
  | ind _ ih =>
    subst hn
    have hround := h d r hd
    rw [Counting.collect_eq, collect_eq, hround.answer, hround.reading]
    split
    · next hgo =>
      have hmore := ih _ hgo.2 (c d r).1.2 (m r).2 (hround.back.trans hd) rfl
      exact ⟨congrArg ((m r).1.1 ++ ·) hmore.answer, hmore.reading, hmore.back.trans hround.back,
        fun h => hmore.bounded (hround.bounded h)⟩
    · exact ⟨rfl, rfl, hround.back, hround.bounded⟩

end Counts

section Productions

variable {α : Type} {n : Nat} {type' : Counting TypeExpr} {type : Parser TypeExpr}

theorem counts_member (htype : Counts n type' type) (doc : Option String) :
    Counts n (Counting.member type' doc) (member type doc) := by
  apply (Counts.plain name).bind
  intro name?
  cases name? with
  | none => exact .pure none
  | some name =>
    apply (Counts.plain (expect .colon)).bind
    intro colon?
    cases colon? with
    | none => exact (Counts.plain recoverInBlock).bind fun _ => .pure none
    | some colon =>
      apply htype.bind
      intro x
      exact (Counts.plain attributes).bind fun _ => .pure _

theorem counts_embedded (htype : Counts n type' type) (doc : Option String) :
    Counts n (Counting.embedded type' doc) (embedded type doc) := by
  apply (Counts.plain bump).bind
  intro _
  apply htype.bind
  intro x
  cases x.isHole with
  | true => exact .pure none
  | false =>
    cases x.referredName with
    | none => exact (Counts.plain _).bind fun _ => .pure none
    | some text => exact (Counts.plain attributes).bind fun _ => .pure _

theorem counts_blockRound {opening : Span}
    {entry' : TokenKind → Option (Option String → Counting (List α))}
    {entry : TokenKind → Option (EntryReader α)}
    (hnone : ∀ kind, entry kind = none → entry' kind = none)
    (hsome : ∀ kind read, entry kind = some read →
      ∃ read', entry' kind = some read' ∧ ∀ doc, Counts n (read' doc) (read doc)) :
    Counts n (Counting.blockRound opening entry') (blockRound opening entry) := by
  apply (Counts.plain docs).bind
  intro doc
  apply (Counts.plain currentKind).bind
  intro kind?
  have hstop : Counts n (do let _ ← unclosed opening; return ([], false))
      (do let _ ← unclosed opening; return ([], false) : Parser (List α × Bool)) :=
    (Counts.plain (unclosed opening)).bind fun _ => .pure _
  have htake (goOn : Bool) : Counts n (do let _ ← bump; return ([], goOn))
      (do let _ ← bump; return ([], goOn) : Parser (List α × Bool)) :=
    (Counts.plain bump).bind fun _ => .pure _
  cases kind? with
  | none => exact hstop
  | some kind =>
    by_cases hclose : kind = .rightBrace
    · simp only [if_pos hclose]
      exact htake false
    simp only [if_neg hclose]
    by_cases hitem : kind.startsItem
    · simp only [if_pos hitem]
      exact hstop
    simp only [if_neg hitem]
    by_cases hseparator : kind = .comma ∨ kind = .semicolon
    · simp only [if_pos hseparator]
      exact htake true
    simp only [if_neg hseparator]
    cases hread : entry kind with
    | some read =>
      obtain ⟨read', hread', hcounts⟩ := hsome kind read hread
      rw [hread']
      exact (hcounts doc).bind fun _ => .pure _
    | none =>
      rw [hnone kind hread]
      apply (Counts.plain (fail .expectedName none)).bind
      intro _
      exact (Counts.plain recoverInBlock).bind fun _ => .pure _

theorem counts_members (htype : Counts n type' type) :
    Counts n (Counting.members type') (members type) := by
  apply (Counts.plain (expect .leftBrace)).bind
  intro opening?
  cases opening? with
  | none => exact .pure []
  | some opening =>
    apply Counts.collect
    apply counts_blockRound
    · intro kind hnone
      cases kind <;> first | rfl | cases hnone
    · intro kind read hread
      unfold memberEntry at hread
      split at hread
      · obtain rfl := Option.some.inj hread
        exact ⟨_, rfl, fun doc => (counts_embedded htype doc).bind fun _ => .pure _⟩
      · obtain rfl := Option.some.inj hread
        exact ⟨_, rfl, fun doc => (counts_member htype doc).bind fun _ => .pure _⟩
      · cases hread

/-- What is read with a level less nests one level deeper. -/
theorem counts_form {depth : Nat} (htype : Counts n type' (Parser.type depth)) :
    Counts n (Counting.form type') (Parser.type (depth + 1)) := by
  rw [Parser.type]
  apply (Counts.plain currentSpan).bind
  intro span
  apply (Counts.plain current).bind
  intro t?
  have hfail : Counts n
      (do fail .expectedType none; return .hole ⟨span.start, span.start⟩ : Counting TypeExpr)
      (do fail .expectedType none; return .hole ⟨span.start, span.start⟩ : Parser TypeExpr) :=
    (Counts.plain (fail .expectedType none)).bind fun _ => .pure _
  cases t? with
  | none => exact hfail
  | some t =>
    obtain ⟨kind, word, _⟩ := t
    cases kind with
    | star =>
      apply (Counts.plain bump).bind
      intro _
      exact htype.bind fun _ => .plain _
    | leftBracket =>
      apply (Counts.plain bump).bind
      intro _
      apply htype.bind
      intro element
      exact (Counts.plain (expect .rightBracket)).bind fun _ => .plain _
    | leftBrace =>
      apply (Counts.plain bump).bind
      intro _
      apply htype.bind
      intro key
      apply (Counts.plain (expect .colon)).bind
      intro _
      apply htype.bind
      intro value
      exact (Counts.plain (expect .rightBrace)).bind fun _ => .plain _
    | structKeyword =>
      apply (Counts.plain bump).bind
      intro _
      exact (counts_members htype).bind fun _ => .plain _
    | identifier => exact (Counts.plain bump).bind fun _ => .plain _
    | _ => exact hfail

/-- What is read where the counter has reached the bound. -/
def Counting.barred : Counting TypeExpr := do
  let span ← currentSpan
  report .expectedType span (some "type is nested too deeply") [] []
  return .hole span

theorem counts_barred : Counts n Counting.barred (Parser.type 0) := by
  rw [Parser.type]
  apply (Counts.plain currentSpan).bind
  intro span
  exact (Counts.plain _).bind fun _ => .pure _

theorem Counting.type_of_reached (bottom : Counting TypeExpr) (fuel : Nat) {d : Descent}
    (r : Reading) (h : maxDepth ≤ d.now) :
    Counting.type bottom (fuel + 1) d r = Counting.barred d r := by
  have hrun : Counting.type bottom (fuel + 1) d r = (if maxDepth ≤ d.now then Counting.barred
    else do
      enter
      let x ← form (Counting.type bottom fuel)
      leave
      return x) d r := rfl
  rw [hrun, if_pos h]

theorem Counting.type_of_not_reached (bottom : Counting TypeExpr) (fuel : Nat) {d : Descent}
    (r : Reading) (h : ¬maxDepth ≤ d.now) :
    Counting.type bottom (fuel + 1) d r =
      let x := form (Counting.type bottom fuel) ⟨d.now + 1, max d.deepest (d.now + 1)⟩ r
      ((x.1.1, { x.1.2 with now := x.1.2.now - 1 }), x.2) := by
  have hrun : Counting.type bottom (fuel + 1) d r = (if maxDepth ≤ d.now then Counting.barred
    else do
      enter
      let x ← form (Counting.type bottom fuel)
      leave
      return x) d r := rfl
  rw [hrun, if_neg h]
  rfl

/-- The levels that are left are those below the bound, so the recursion never ends before it. -/
theorem counts_type (bottom : Counting TypeExpr) (fuel : Nat) (hn : n ≤ maxDepth)
    (hfuel : maxDepth < n + fuel) :
    Counts n (Counting.type bottom fuel) (Parser.type (maxDepth - n)) := by
  induction fuel generalizing n with
  | zero => omega
  | succ fuel ih =>
    intro d r hd
    by_cases hreached : maxDepth ≤ d.now
    · have hlevel : maxDepth - n = 0 := by omega
      rw [Counting.type_of_reached bottom fuel r hreached, hlevel]
      exact counts_barred d r hd
    · obtain ⟨depth, hlevel⟩ : ∃ depth, maxDepth - n = depth + 1 :=
        ⟨maxDepth - (n + 1), by omega⟩
      have hdepth : maxDepth - (n + 1) = depth := by omega
      have hnext : Counts (n + 1) (Counting.type bottom fuel) (Parser.type depth) :=
        hdepth ▸ ih (by omega) (by omega)
      have hform := counts_form hnext ⟨d.now + 1, max d.deepest (d.now + 1)⟩ r (by rw [hd])
      have hback : (Counting.form (Counting.type bottom fuel)
        ⟨d.now + 1, max d.deepest (d.now + 1)⟩ r).1.2.now = d.now + 1 := hform.back
      rw [Counting.type_of_not_reached bottom fuel r hreached, hlevel]
      refine ⟨hform.answer, hform.reading, ?_, ?_⟩
      · simp only [hback, Nat.add_sub_cancel]
      · intro hdeepest
        have hentered : max d.deepest (d.now + 1) ≤ maxDepth := by omega
        exact hform.bounded hentered

theorem counts_structItem (htype : Counts n type' (Parser.type maxDepth)) (doc : Option String) :
    Counts n (Counting.structItem type' doc) (structItem doc) := by
  apply (Counts.plain bump).bind
  intro _
  apply (Counts.plain name).bind
  intro name?
  cases name? with
  | none => exact (Counts.plain recoverToItem).bind fun _ => .pure none
  | some name => exact (counts_members htype).bind fun _ => .pure _

theorem counts_synonymItem (htype : Counts n type' (Parser.type maxDepth)) (doc : Option String) :
    Counts n (Counting.synonymItem type' doc) (synonymItem doc) := by
  apply (Counts.plain bump).bind
  intro _
  apply (Counts.plain name).bind
  intro name?
  cases name? with
  | none => exact (Counts.plain recoverToItem).bind fun _ => .pure none
  | some name =>
    apply (Counts.plain (expect .equals)).bind
    intro equals?
    cases equals? with
    | none => exact (Counts.plain recoverToItem).bind fun _ => .pure none
    | some equals => exact htype.bind fun _ => .pure _

theorem counts_items (htype : Counts n type' (Parser.type maxDepth)) :
    Counts n (Counting.items type') items := by
  apply Counts.collect
  apply (Counts.plain docs).bind
  intro doc
  apply (Counts.plain currentKind).bind
  intro kind?
  have hother : Counts n
      (do
        fail .expectedToken (some "`struct`, `enum`, `alias` or `package`")
        recoverToItem
        return ([], true) : Counting (List Item × Bool))
      (do
        fail .expectedToken (some "`struct`, `enum`, `alias` or `package`")
        recoverToItem
        return ([], true) : Parser (List Item × Bool)) := by
    apply (Counts.plain _).bind
    intro _
    exact (Counts.plain recoverToItem).bind fun _ => .pure _
  cases kind? with
  | none => exact .pure _
  | some kind =>
    cases kind with
    | packageKeyword => exact (Counts.plain package).bind fun _ => .pure _
    | structKeyword => exact (counts_structItem htype doc).bind fun _ => .pure _
    | enumKeyword => exact (Counts.plain (enumItem doc)).bind fun _ => .pure _
    | aliasKeyword => exact (counts_synonymItem htype doc).bind fun _ => .pure _
    | _ => exact hother

/-- What the reader reads where types nest `n` deep, with a counter and without. -/
inductive Production (bottom : Counting TypeExpr) :
    Nat → {α : Type} → Counting α → Parser α → Prop
  | type {n fuel : Nat} (hn : n ≤ maxDepth) (hfuel : maxDepth < n + fuel) :
      Production bottom n (Counting.type bottom fuel) (Parser.type (maxDepth - n))
  | member {n : Nat} {type' : Counting TypeExpr} {type : Parser TypeExpr}
      (htype : Production bottom n type' type) (doc : Option String) :
      Production bottom n (Counting.member type' doc) (member type doc)
  | embedded {n : Nat} {type' : Counting TypeExpr} {type : Parser TypeExpr}
      (htype : Production bottom n type' type) (doc : Option String) :
      Production bottom n (Counting.embedded type' doc) (embedded type doc)
  | members {n : Nat} {type' : Counting TypeExpr} {type : Parser TypeExpr}
      (htype : Production bottom n type' type) :
      Production bottom n (Counting.members type') (members type)
  | structItem {n : Nat} {type' : Counting TypeExpr}
      (htype : Production bottom n type' (Parser.type maxDepth)) (doc : Option String) :
      Production bottom n (Counting.structItem type' doc) (structItem doc)
  | synonymItem {n : Nat} {type' : Counting TypeExpr}
      (htype : Production bottom n type' (Parser.type maxDepth)) (doc : Option String) :
      Production bottom n (Counting.synonymItem type' doc) (synonymItem doc)
  | items {n : Nat} {type' : Counting TypeExpr}
      (htype : Production bottom n type' (Parser.type maxDepth)) :
      Production bottom n (Counting.items type') items
  | plain {α : Type} (n : Nat) (m : Parser α) : Production bottom n (liftM m) m

theorem Production.counts {bottom : Counting TypeExpr} {c : Counting α} {m : Parser α}
    (h : Production bottom n c m) : Counts n c m := by
  induction h with
  | type hn hfuel => exact counts_type bottom _ hn hfuel
  | member _ doc ih => exact counts_member ih doc
  | embedded _ doc ih => exact counts_embedded ih doc
  | members _ ih => exact counts_members ih
  | structItem _ doc ih => exact counts_structItem ih doc
  | synonymItem _ doc ih => exact counts_synonymItem ih doc
  | items _ ih => exact counts_items ih
  | plain n m => exact .plain m

end Productions

/-- Every text is read to its end: no loop goes on without taking a token, types never nest deeper
than the bound and everything read leaves the counter as it was, wherever the recursion ends, and
every item stems from a keyword of its own. -/
theorem texts_are_read_through (source : SourceId) (text : String) :
    (∀ {α : Type} {round : Parser (List α × Bool)}, Loop round →
      Advances round ∧ ∀ r, Finishes round r (collect round r)) ∧
    (∀ (bottom : Counting TypeExpr) {α : Type} {n : Nat} {c : Counting α} {m : Parser α},
      Production bottom n c m → Counts n c m) ∧
    (∀ bottom : Counting TypeExpr,
      Counted {} (Counting.items (Counting.type bottom (maxDepth + 1)) {} (.start source text))
        (items (.start source text))) ∧
    (items (.start source text)).2.rest = [] ∧
    Stems (tokens text) (parse source text).1.items := by
  refine ⟨fun h => ⟨h.advances, h.advances.finishes⟩, fun _ _ _ _ _ h => h.counts, ?_,
    (stems_items _).2, stems_parse source text⟩
  intro bottom
  have htype : Production bottom 0 (Counting.type bottom (maxDepth + 1)) (Parser.type maxDepth) :=
    .type (Nat.zero_le _) (by omega)
  exact htype.items.counts {} _ rfl

theorem sample_is_read_through :
    Advances itemRound ∧
      Counts 0 (Counting.items (Counting.type default (maxDepth + 1))) items ∧
      (items (.start 0 "alias A = [int] =")).2.rest = [] ∧
      (parse 0 "alias A = [int] =").1.items ≠ [] := by
  obtain ⟨hloops, hcounts, -, hrest, -⟩ := texts_are_read_through 0 "alias A = [int] ="
  exact ⟨(hloops .items).1, hcounts default (.items (.type (Nat.zero_le _) (by omega))), hrest,
    by decide +kernel⟩

end Parser

end TypeGraph.Schema
