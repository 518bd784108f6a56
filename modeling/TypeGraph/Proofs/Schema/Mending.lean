import TypeGraph.Proofs.Schema.Ending
import TypeGraph.Proofs.Schema.Stemming
/-!
Reading a text from which a part was cut. A production that reads the whole text in silence reads the
rest of it as far as the cut, reports one error there, and goes on behind it as if nothing had
happened: what it gives has lost the part and nothing else.
-/

namespace TypeGraph.Schema

/-- What can be cut: all that follows the name of a member, or the keyword or the name of an item. -/
inductive Victim where
  | member (m : MemberDef TypeExpr)
  | keyword (item : Item)
  | name (item : Item)

namespace Victim

def words : Victim → List Word
  | member m => m.words
  | keyword item | name item => item.words

def nameSpan : Victim → Span
  | member m => m.name.span
  | keyword item | name item => item.name.span

/-- How many tokens stand before the name. -/
def lead : Victim → Nat
  | member _ => 0
  | keyword _ | name _ => 1

/-- How many tokens are kept. -/
def keeps : Victim → Nat
  | member _ | keyword _ => 1
  | name _ => 2

/-- What is missed where the cut is. -/
def complaint : Victim → Diagnostic.Kind
  | member _ | name _ => .expectedToken
  | keyword _ => .expectedName

/-- The tokens of the victim without documentation before them: those that are kept and those that
are cut. -/
structure Cut (v : Victim) (kept body : List Token) : Prop where
  length : kept.length = v.keeps
  name : (kept ++ body)[v.lead]?.map (·.span) = some v.nameSpan
  said_eq : said (kept ++ body) = plain v.words
  solid : ∀ t ∈ body.getLast?, t.word.matters

/-- The kinds of tokens that nobody misses behind the cut. The first token there is left with the
error, except behind the name of a struct. -/
def canLeave : Victim → TokenKind → Bool
  | member _, kind => kind == .comma || kind == .semicolon || kind == .docComment
  | name (.struct _), _ => true
  | _, kind => kind != .structKeyword && kind != .enumKeyword && kind != .aliasKeyword

/-- What follows the cut can do without its first token. -/
abbrev Ready (v : Victim) (back : List Token) : Prop :=
  ∀ t ∈ back.head?, v.canLeave t.kind

instance (v : Victim) (kept body : List Token) : Decidable (v.Cut kept body) :=
  decidable_of_iff (kept.length = v.keeps ∧ (kept ++ body)[v.lead]?.map (·.span) = some v.nameSpan ∧
      said (kept ++ body) = plain v.words ∧ ∀ t ∈ body.getLast?, t.word.matters)
    ⟨fun ⟨hlength, hname, hsaid, hsolid⟩ => ⟨hlength, hname, hsaid, hsolid⟩,
      fun h => ⟨h.length, h.name, h.said_eq, h.solid⟩⟩

variable {v : Victim} {kept body : List Token}

theorem Cut.ne_nil (h : v.Cut kept body) : kept ≠ [] := by
  have hlength := h.length
  intro hnil
  rw [hnil] at hlength
  cases v <;> cases hlength

/-- The text with and without the part that is cut. -/
def Cut.fork (h : v.Cut kept body) (back : List Token) : Fork where
  back := kept ++ (body ++ back)
  back' := kept ++ back
  head := by rw [List.head?_append_of_ne_nil _ h.ne_nil, List.head?_append_of_ne_nil _ h.ne_nil]

end Victim

/-- Two readings of the same tokens. -/
def Fork.behind : Fork :=
  ⟨[], [], rfl⟩

def MemberDef.withoutDoc (m : MemberDef TypeExpr) : MemberDef TypeExpr :=
  { m with doc := none }

/-- The same, but for what `strip` leaves off the first one. -/
def FirstStripped {α : Type} (strip : α → α) (xs ys : List α) : Prop :=
  ys.map strip = xs.map strip ∧ ys.tail = xs.tail

theorem FirstStripped.append {α : Type} {strip : α → α} {xs ys : List α}
    (h : FirstStripped strip xs ys) (zs : List α) : FirstStripped strip (xs ++ zs) (ys ++ zs) := by
  obtain ⟨hmap, htail⟩ := h
  constructor
  · rw [List.map_append, List.map_append, hmap]
  · cases xs with
    | nil =>
      obtain rfl := List.map_eq_nil_iff.mp hmap
      rfl
    | cons x xs =>
      cases ys with
      | nil => cases hmap
      | cons y ys => exact congrArg (· ++ zs) htail

mutual

/-- The expression without one member of a record in it. -/
inductive TypeExpr.Loses (m : MemberDef TypeExpr) : TypeExpr → TypeExpr → Prop
  | pointer {x y : TypeExpr} (span : Span) (h : TypeExpr.Loses m x y) :
      TypeExpr.Loses m (.pointer x span) (.pointer y span)
  | sequence {x y : TypeExpr} (span : Span) (h : TypeExpr.Loses m x y) :
      TypeExpr.Loses m (.sequence x span) (.sequence y span)
  | key {k l : TypeExpr} (x : TypeExpr) (span : Span) (h : TypeExpr.Loses m k l) :
      TypeExpr.Loses m (.map k x span) (.map l x span)
  | value {x y : TypeExpr} (k : TypeExpr) (span : Span) (h : TypeExpr.Loses m x y) :
      TypeExpr.Loses m (.map k x span) (.map k y span)
  | record {ms ns : List (MemberDef TypeExpr)} (span : Span) (h : MembersLose m ms ns) :
      TypeExpr.Loses m (.record ms span) (.record ns span)

/-- The members without one of them, or without one in the type of one of them. The one that follows
may have lost its documentation too. -/
inductive MembersLose (m : MemberDef TypeExpr) :
    List (MemberDef TypeExpr) → List (MemberDef TypeExpr) → Prop
  | here {ms ns : List (MemberDef TypeExpr)} (h : FirstStripped MemberDef.withoutDoc ms ns) :
      MembersLose m (m :: ms) ns
  | inside {k : MemberDef TypeExpr} {y : TypeExpr} (ms : List (MemberDef TypeExpr))
      (h : TypeExpr.Loses m k.type y) : MembersLose m (k :: ms) ({ k with type := y } :: ms)
  | later {ms ns : List (MemberDef TypeExpr)} (k : MemberDef TypeExpr) (h : MembersLose m ms ns) :
      MembersLose m (k :: ms) (k :: ns)

end

theorem MembersLose.append {m : MemberDef TypeExpr} {ms ns : List (MemberDef TypeExpr)}
    (h : MembersLose m ms ns) (more : List (MemberDef TypeExpr)) :
    MembersLose m (ms ++ more) (ns ++ more) := by
  match h with
  | .here h => exact .here (h.append more)
  | .inside ms h => exact .inside (ms ++ more) h
  | .later k h => exact .later k (h.append more)

theorem MembersLose.after {m : MemberDef TypeExpr} {ms ns : List (MemberDef TypeExpr)}
    (front : List (MemberDef TypeExpr)) (h : MembersLose m ms ns) :
    MembersLose m (front ++ ms) (front ++ ns) := by
  induction front with
  | nil => exact h
  | cons k front ih => exact .later k ih

/-- The member is one of a record in the expression. -/
def TypeExpr.Holds (m : MemberDef TypeExpr) (x : TypeExpr) : Prop :=
  ∃ ms span, Within (.record ms span) x ∧ m ∈ ms

section Holds

variable {m : MemberDef TypeExpr} {x y : TypeExpr} {span : Span}

theorem holds_pointer : (TypeExpr.pointer x span).Holds m ↔ x.Holds m := by
  constructor
  · rintro ⟨ms, s, hw, hm⟩
    cases hw with
    | pointer _ h => exact ⟨ms, s, h, hm⟩
  · rintro ⟨ms, s, hw, hm⟩
    exact ⟨ms, s, .pointer span hw, hm⟩

theorem holds_sequence : (TypeExpr.sequence x span).Holds m ↔ x.Holds m := by
  constructor
  · rintro ⟨ms, s, hw, hm⟩
    cases hw with
    | sequence _ h => exact ⟨ms, s, h, hm⟩
  · rintro ⟨ms, s, hw, hm⟩
    exact ⟨ms, s, .sequence span hw, hm⟩

theorem holds_map : (TypeExpr.map x y span).Holds m ↔ x.Holds m ∨ y.Holds m := by
  constructor
  · rintro ⟨ms, s, hw, hm⟩
    cases hw with
    | key _ _ h => exact .inl ⟨ms, s, h, hm⟩
    | value _ _ h => exact .inr ⟨ms, s, h, hm⟩
  · rintro (⟨ms, s, hw, hm⟩ | ⟨ms, s, hw, hm⟩)
    · exact ⟨ms, s, .key y span hw, hm⟩
    · exact ⟨ms, s, .value x span hw, hm⟩

/-- The member is one of these, or one of a record in the type of one of these. -/
def MembersHold (m : MemberDef TypeExpr) (ms : List (MemberDef TypeExpr)) : Prop :=
  ∃ k ∈ ms, k = m ∨ k.type.Holds m

theorem holds_record {ms : List (MemberDef TypeExpr)} :
    (TypeExpr.record ms span).Holds m ↔ MembersHold m ms := by
  constructor
  · rintro ⟨ns, s, hw, hm⟩
    cases hw with
    | self => exact ⟨m, hm, .inl rfl⟩
    | member _ hk h => exact ⟨_, hk, .inr ⟨ns, s, h, hm⟩⟩
  · rintro ⟨k, hk, rfl | ⟨ns, s, hw, hm⟩⟩
    · exact ⟨ms, span, .self _, hk⟩
    · exact ⟨ns, s, .member span hk hw, hm⟩

theorem not_holds_scalar {kind : Scalar} : ¬(TypeExpr.scalar kind span).Holds m := by
  rintro ⟨ms, s, hw, -⟩
  cases hw

theorem not_holds_hole : ¬(TypeExpr.hole span).Holds m := by
  rintro ⟨ms, s, hw, -⟩
  cases hw

/-- A type that is referred to by name holds no members here. -/
theorem not_holds_of_referredName {text : String} (h : x.referredName = some text) :
    ¬x.Holds m := by
  induction x using TypeExpr.referredName.induct with
  | case1 package name span =>
    rintro ⟨ms, s, hw, -⟩
    cases hw
  | case2 target span ih =>
    rw [TypeExpr.referredName] at h
    rw [holds_pointer]
    exact ih h
  | case3 x hreference hpointer =>
    cases x with
    | reference package name span => exact absurd rfl (hreference package name span)
    | pointer target span => exact absurd rfl (hpointer target span)
    | _ => cases h

end Holds

namespace Parser

variable {α β : Type} {v : Victim} {m : Parser α} {f : α → Parser β} {r s : Reading}
variable {R : Reading → Reading → Prop}
variable {O : α → Prop} {O' : β → Prop} {L : α → α → Prop} {L' : β → β → Prop}

/-- One error was reported, and what was read has lost something; then the readings are `R` to each
other. -/
structure Mended (v : Victim) (R : Reading → Reading → Prop) (L : α → α → Prop) (m : Parser α)
    (r s : Reading) : Prop where
  lost : L (m r).1 (m s).1
  after : R (m r).2 (m s).2
  told : ∃ d, d.kind = v.complaint ∧ (m s).2.diagnostics = s.diagnostics ++ [d]

/-- Among the tokens that are read there are those of the victim, and without them reading is
mended. -/
def Mends (v : Victim) (R : Reading → Reading → Prop) (L : α → α → Prop) (m : Parser α)
    (r : Reading) : Prop :=
  ∃ (front kept body back : List Token) (hcut : v.Cut kept body),
    r.rest = front ++ (kept ++ (body ++ back)) ∧ (m r).2.rest <:+ back ∧
      ∀ s, (hcut.fork back).Abreast r s → s.Silent → v.Ready back → Mended v R L m r s

/-- Work that is mended whenever it is done in silence and `O` holds of what it gives: reading goes
on as in the whole text. -/
structure Mending (v : Victim) (O : α → Prop) (L : α → α → Prop) (m : Parser α) : Prop where
  runs : Runs m
  mends : ∀ r, (m r).2.Silent → O (m r).1 → Mends v Fork.behind.Abreast L m r

/-- What follows the victim does not depend on what was lost, but for what it gives. -/
def Passes (L : α → α → Prop) (L' : β → β → Prop) (f : α → Parser β) : Prop :=
  ∀ a a' r, L a a' → (f a' r).2 = (f a r).2 ∧ L' (f a r).1 (f a' r).1

theorem silent_of_reports (h : s.reports = r.reports) (hr : r.Silent) : s.Silent := by
  have hreport : s.lastReport = r.lastReport := congrArg Prod.snd h
  exact hreport.trans hr

theorem diagnostics_of_reports (h : s.reports = r.reports) : s.diagnostics = r.diagnostics :=
  congrArg Prod.fst h

theorem silent_of_bind (hf : ∀ a, Runs (f a)) (hsilent : ((m >>= f) r).2.Silent) :
    (m r).2.Silent :=
  ((hf _).run _).silent hsilent

section Combine

/-- The victim is in what is read later. -/
theorem Mends.before (hm : Composed m) (hf : ∀ a, Runs (f a)) (hsilent : ((m >>= f) r).2.Silent)
    (h : Mends v R L' (f (m r).1) (m r).2) : Mends v R L' (m >>= f) r := by
  obtain ⟨front, kept, body, back, hcut, hrest, hback, hmended⟩ := h
  obtain ⟨taken, htaken⟩ := (hm.runs.run r).rest
  refine ⟨taken ++ front, kept, body, back, hcut, ?_, hback, fun s hs hs' hready => ?_⟩
  · rw [← htaken, hrest, List.append_assoc]
  · obtain ⟨hanswer, habreast, hreports⟩ :=
      hm.along hs (silent_of_bind hf hsilent) ⟨front, hrest.symm⟩
    obtain ⟨hlost, hafter, d, hd, htold⟩ :=
      hmended _ habreast (silent_of_reports hreports hs') hready
    constructor
    · rw [run_bind, run_bind, hanswer]
      exact hlost
    · rw [run_bind, run_bind, hanswer]
      exact hafter
    · refine ⟨d, hd, ?_⟩
      rw [run_bind, hanswer, htold, diagnostics_of_reports hreports]

/-- The victim is in what is read first. -/
theorem Mends.after (h : Mends v Fork.behind.Abreast L m r) (hf : ∀ a, Composed (f a))
    (hsilent : ((m >>= f) r).2.Silent) (hpasses : Passes L L' f) :
    Mends v Fork.behind.Abreast L' (m >>= f) r := by
  obtain ⟨front, kept, body, back, hcut, hrest, hback, hmended⟩ := h
  refine ⟨front, kept, body, back, hcut, hrest, ?_, fun s hs hs' hready => ?_⟩
  · exact (((hf _).runs.run _).rest).trans hback
  · obtain ⟨hlost, habreast, d, hd, htold⟩ := hmended s hs hs' hready
    obtain ⟨hsame, hlost'⟩ := hpasses _ _ (m r).2 hlost
    have hsilent' : (f (m s).1 (m r).2).2.Silent := by
      rw [hsame]
      exact hsilent
    obtain ⟨hanswer, hafter, hreports⟩ :=
      (hf (m s).1).along habreast hsilent' (List.nil_suffix)
    constructor
    · rw [run_bind, run_bind, hanswer]
      exact hlost'
    · rw [run_bind, run_bind, ← hsame]
      exact hafter
    · refine ⟨d, hd, ?_⟩
      rw [run_bind, diagnostics_of_reports hreports, htold]

/-- What is read is only rearranged. -/
theorem Mends.map {g : α → β} (h : Mends v R L m r) (hL : ∀ a a', L a a' → L' (g a) (g a')) :
    Mends v R L' (m >>= fun a => Pure.pure (g a)) r := by
  obtain ⟨front, kept, body, back, hcut, hrest, hback, hmended⟩ := h
  refine ⟨front, kept, body, back, hcut, hrest, hback, fun s hs hs' hready => ?_⟩
  obtain ⟨hlost, hafter, htold⟩ := hmended s hs hs' hready
  exact ⟨hL _ _ hlost, hafter, htold⟩

theorem Passes.pure {g : α → β} (h : ∀ a a', L a a' → L' (g a) (g a')) :
    Passes L L' fun a => (Pure.pure (g a) : Parser β) :=
  fun a a' _ ha => ⟨rfl, h a a' ha⟩

theorem Passes.bind {γ : Type} {n : Parser γ} {g : α → γ → Parser β}
    (h : ∀ c, Passes L L' fun a => g a c) : Passes L L' fun a => n >>= g a :=
  fun a a' _ ha => h _ a a' _ ha

theorem Passes.finish {start : Nat} {make : α → Span → TypeExpr} {L' : TypeExpr → TypeExpr → Prop}
    (h : ∀ a a' span, L a a' → L' (make a span) (make a' span)) :
    Passes L L' fun a => finish start (make a) :=
  fun a a' _ ha => ⟨rfl, h a a' _ ha⟩

theorem Mending.complains (h : Complains m) : Mending v O L m :=
  ⟨h.reads, fun r hsilent _ => (h.result r hsilent).elim⟩

/-- There is no victim in what is read. -/
theorem Mending.absent (hm : Runs m) (h : Answers m fun a => ¬O a) : Mending v O L m :=
  ⟨hm, fun r _ hO => absurd hO (h r)⟩

/-- The victim is in what is read later. -/
theorem Mending.later (hm : Composed m) (hf : ∀ a, Mending v O' L' (f a)) :
    Mending v O' L' (m >>= f) := by
  have hruns (a : α) : Runs (f a) := (hf a).runs
  refine ⟨hm.runs.bind hruns, fun r hsilent hO => .before hm hruns hsilent ?_⟩
  exact (hf _).mends _ hsilent hO

theorem Mending.give {m : Parser (Option α)} {f : Option α → Parser β}
    {P : Reading → α → Reading → Prop} (hm : Composed m) (hgives : Gives m P)
    (hnone : Runs (f none)) (hsome : ∀ a, Mending v O' L' (f (some a))) :
    Mending v O' L' (m >>= f) := by
  have hruns (a? : Option α) : Runs (f a?) := by
    cases a? with
    | none => exact hnone
    | some a => exact (hsome a).runs
  refine ⟨hm.runs.bind hruns, fun r hsilent hO => .before hm hruns hsilent ?_⟩
  obtain ⟨a, ha, -⟩ := hgives.result r (silent_of_bind hruns hsilent)
  rw [run_bind, ha] at hsilent hO
  rw [ha]
  exact (hsome a).mends _ hsilent hO

/-- The victim is in what is read first, or in what is read later. -/
theorem Mending.either {Q : β → Prop} (hm : Mending v O L m) (hcomposed : Composed m)
    (hf : ∀ a, Composed (f a)) (hpasses : Passes L L' f) (hlater : ∀ a, Mending v Q L' (f a))
    (hO : ∀ a r, O' (f a r).1 → O a ∨ Q (f a r).1) : Mending v O' L' (m >>= f) := by
  have hruns (a : α) : Runs (f a) := (hf a).runs
  refine ⟨hm.runs.bind hruns, fun r hsilent hO' => ?_⟩
  rcases hO _ _ hO' with hfirst | hsecond
  · exact (hm.mends r (silent_of_bind hruns hsilent) hfirst).after hf hsilent hpasses
  · exact .before hcomposed hruns hsilent ((hlater _).mends _ hsilent hsecond)

/-- The victim is in what is read first. -/
theorem Mending.first (hm : Mending v O L m) (hf : ∀ a, Composed (f a)) (hpasses : Passes L L' f)
    (hO : ∀ a r, O' (f a r).1 → O a) : Mending v O' L' (m >>= f) := by
  have hruns (a : α) : Runs (f a) := (hf a).runs
  refine ⟨hm.runs.bind hruns, fun r hsilent hO' => ?_⟩
  have hfirst := hm.mends r (silent_of_bind hruns hsilent) (hO _ _ hO')
  exact hfirst.after hf hsilent hpasses

end Combine

section Types

variable {k : MemberDef TypeExpr} {type : Parser TypeExpr}

/-- An expression that holds the member. -/
abbrev MendsType (k : MemberDef TypeExpr) (type : Parser TypeExpr) : Prop :=
  Mending (.member k) (TypeExpr.Holds k) (TypeExpr.Loses k) type

theorem mends_pointer (htype : MendsType k type) (start : Nat) :
    MendsType k (do
      let target ← type
      finish start (.pointer target)) := by
  refine htype.first (fun _ => composed_finish _ _) (.finish ?_) ?_
  · exact fun x y span h => .pointer span h
  · exact fun x r h => holds_pointer.mp h

theorem mends_sequence (htype : MendsType k type) (start : Nat) :
    MendsType k (do
      let element ← type
      let _ ← expect .rightBracket
      finish start (.sequence element)) := by
  refine htype.first ?_ (.bind fun _ => .finish ?_) ?_
  · exact fun x => .bind (composed_expect _) fun _ => composed_finish _ _
  · exact fun x y span h => .sequence span h
  · exact fun x r h => holds_sequence.mp h

theorem mends_map (htype : MendsType k type) (hcomposed : Composed type) (start : Nat) :
    MendsType k (do
      let key ← type
      let _ ← expect .colon
      let value ← type
      let _ ← expect .rightBrace
      finish start (.map key value)) := by
  have hclose (x y : TypeExpr) : Composed (do
      let _ ← expect .rightBrace
      finish start (.map x y)) := .bind (composed_expect _) fun _ => composed_finish _ _
  refine Mending.either (Q := fun x => ∃ key value span, x = .map key value span ∧
    TypeExpr.Holds k value) htype hcomposed ?_ ?_ ?_ ?_
  · exact fun x => .bind (composed_expect _) fun _ => .bind hcomposed fun y => hclose x y
  · refine .bind fun _ => .bind fun y => .bind fun _ => .finish ?_
    exact fun x x' span h => .key y span h
  · intro x
    refine .later (composed_expect _) fun _ => htype.first (hclose x) (.bind fun _ => .finish ?_) ?_
    · exact fun y y' span h => .value x span h
    · rintro y r ⟨key, value, span, hmap, hk⟩
      obtain ⟨-, rfl, -⟩ := TypeExpr.map.inj hmap
      exact hk
  · exact fun x r h => (holds_map.mp h).imp_right fun hk => ⟨_, _, _, rfl, hk⟩

theorem mends_named (start : Nat) (text : String) : MendsType k (named start text) := by
  have hfinish (make : Span → TypeExpr) (h : ∀ span, ¬(make span).Holds k) :
      Answers (finish start make) fun x => ¬x.Holds k := .bind fun _ => .pure (h _)
  refine .absent (composed_named start text).runs (.bind fun dot? => ?_)
  cases dot? with
  | some dot =>
    refine .bind fun name? => ?_
    cases name? with
    | some name => exact hfinish _ fun span => not_holds_of_referredName rfl
    | none => exact hfinish _ fun span => not_holds_hole
  | none =>
    cases Scalar.ofKeyword? text with
    | some kind => exact hfinish _ fun span => not_holds_scalar
    | none => exact hfinish _ fun span => not_holds_of_referredName rfl

/-- A member whose type holds the victim. -/
theorem mends_member (htype : MendsType k type) (doc : Option String) :
    Mending (.member k) (fun n? => ∃ n ∈ n?, n.type.Holds k)
      (fun a b => MembersLose k a.toList b.toList) (member type doc) := by
  refine .give composed_name reads_name (runs_pure _) fun name => ?_
  refine .give (composed_expect _) (reads_expect _) ?_ fun colon => ?_
  · exact runs_recoverInBlock.bind fun _ => runs_pure _
  refine htype.first ?_ (.bind fun as => .pure fun x y h => .inside [] h) ?_
  · exact fun x => .bind composed_attributes fun _ => .pure _
  · rintro x r ⟨n, hn, hk⟩
    obtain rfl := Option.some.inj hn
    exact hk

/-- An embedded member is of no type that holds members. -/
theorem mends_embedded (htype : Composed type) (doc : Option String) :
    Mending (.member k) (fun n? => ∃ n ∈ n?, n.type.Holds k)
      (fun a b => MembersLose k a.toList b.toList) (embedded type doc) := by
  refine .absent (composed_embedded htype doc).runs (.bind fun _ => .bind fun x => ?_)
  cases x.isHole with
  | true => exact .pure nofun
  | false =>
    cases hname : x.referredName with
    | none => exact .bind fun _ => .pure nofun
    | some text =>
      refine .bind fun as => .pure ?_
      rintro ⟨n, hn, hk⟩
      obtain rfl := Option.some.inj hn
      exact not_holds_of_referredName hname hk

end Types

end Parser

end TypeGraph.Schema
