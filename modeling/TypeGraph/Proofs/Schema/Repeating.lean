import TypeGraph.Proofs.Schema.Complete
import TypeGraph.Proofs.Schema.Rounds
/-!
Reading a text again as a part of a longer one. What is read of a text alone without a report is
read in the same way where its tokens stand in front of others, up to spans: the reader looks at one
token behind what it takes, and it looks there for an attribute, documentation, or how a name goes
on.
-/

namespace TypeGraph.Schema

/-- The token without its span. -/
def Token.bare (t : Token) : Token :=
  { t with span := default }

theorem Token.kind_of_bare {t u : Token} (h : t.bare = u.bare) : t.kind = u.kind :=
  (Token.mk.inj h).1

theorem Token.text_of_bare {t u : Token} (h : t.bare = u.bare) : t.text = u.text :=
  (Token.mk.inj h).2.1

theorem Name.text_of_bare {a b : Name} (h : a.bare = b.bare) : a.text = b.text :=
  (Name.mk.inj h).1

/-- What surrounds a part of a text: the tokens behind it, the header that was kept in front of it,
and the tokens that reports begin at. -/
structure Scene where
  tail : List Token
  header : Option PackageHeader
  marks : List Token

namespace Scene

variable {w : Scene} {r s : Reading} {t u : Token} {ts us : List Token} {kind : TokenKind}

/-- The text alone and the longer one are at the same place of the part. -/
structure Beside (w : Scene) (r s : Reading) : Prop where
  rest : ∃ front, front.map Token.bare = r.rest.map Token.bare ∧ s.rest = front ++ w.tail
  package : s.package.map PackageHeader.bare = w.header.or (r.package.map PackageHeader.bare)
  told : ∀ d ∈ s.diagnostics, ∃ t ∈ w.marks, d.span.start = t.span.start

/-- The same, or the longer text is looked at behind the part. -/
def Follows (w : Scene) (r s : Reading) : Prop :=
  w.Beside r s ∨ (r.rest = [] ∧ ∃ s', w.Beside r s' ∧ s = (Parser.current s').2)

/-- The first readable token behind the part is not of this kind. -/
def Clear (w : Scene) (kind : TokenKind) : Prop :=
  ∀ t ∈ (w.tail.dropWhile (·.kind = .garbage)).head?, t.kind ≠ kind

/-- No second header is kept; and where the part must go on it does. -/
def Fits (w : Scene) (goOn : Bool) (r : Reading) : Prop :=
  (w.header = none ∨ r.package = none) ∧ (goOn → r.rest ≠ [])

theorem Follows.beside (h : w.Follows r s) (hrest : r.rest = t :: ts) : w.Beside r s := by
  rcases h with h | ⟨hnil, -⟩
  · exact h
  · rw [hnil] at hrest
    cases hrest

theorem Beside.cons (h : w.Beside r s) (hrest : r.rest = t :: ts) :
    ∃ u us, s.rest = u :: us ∧ t.bare = u.bare := by
  obtain ⟨front, hfront, hs⟩ := h.rest
  rw [hrest, List.map_cons] at hfront
  obtain ⟨u, us, rfl, hu, -⟩ := List.map_eq_cons_iff.mp hfront
  exact ⟨u, us ++ w.tail, hs, hu.symm⟩

theorem Beside.nil (h : w.Beside r s) (hrest : r.rest = []) : s.rest = w.tail := by
  obtain ⟨front, hfront, hs⟩ := h.rest
  rw [hrest, List.map_nil, List.map_eq_nil_iff] at hfront
  rw [hs, hfront, List.nil_append]

/-- Both have taken the next token. -/
theorem Beside.take (h : w.Beside r s) (hr : r.rest = t :: ts) (hs : s.rest = u :: us)
    (stop stop' : Nat) :
    w.Beside { r with rest := ts, lastStop := stop } { s with rest := us, lastStop := stop' } := by
  obtain ⟨front, hfront, hrest⟩ := h.rest
  rw [hr, List.map_cons] at hfront
  obtain ⟨u', us', rfl, -, hus⟩ := List.map_eq_cons_iff.mp hfront
  have hback : us = us' ++ w.tail := (List.cons.inj (hs.symm.trans hrest)).2
  exact ⟨⟨us', hus, hback⟩, h.package, h.told⟩

theorem Fits.of_run {goOn : Bool} {r' : Reading} (h : w.Fits goOn r') (hrun : r.Run r') :
    w.Fits goOn r := by
  refine ⟨h.1.imp_right hrun.package_eq_none, ?_⟩
  intro hgo hnil
  have hsuffix := hrun.rest
  rw [hnil] at hsuffix
  exact h.2 hgo (List.suffix_nil.mp hsuffix)

end Scene

namespace Parser

open Reading

variable {α β γ δ : Type} {w : Scene} {goOn : Bool} {r s : Reading} {t u : Token}
variable {ts us : List Token} {kind : TokenKind} {m n : Parser α} {f g : α → Parser β}
variable {S : α → Reading → Prop} {T : β → Reading → Prop} {e : α → γ} {e' : β → δ}

section Tokens

theorem settled_of_silent_eat (h : (eat kind r).2.Silent) : Settled r := by
  apply settled_of_silent
  rw [eat, run_bind] at h
  cases hc : (current r).1 with
  | none =>
    rw [hc] at h
    exact h
  | some t =>
    rw [hc] at h
    by_cases hk : t.kind = kind
    · simp only [if_pos hk] at h
      exact (reads_bump.run _).silent h
    · simp only [if_neg hk] at h
      exact h

theorem follows_current (h : w.Follows r s) (hrest : r.rest = []) :
    w.Follows r (current s).2 ∧ (current s).2.rest = w.tail.dropWhile (·.kind = .garbage) := by
  have hall {s' : Reading} (hb : w.Beside r s') : w.Follows r (current s').2 ∧
      (current s').2.rest = w.tail.dropWhile (·.kind = .garbage) := by
    refine ⟨.inr ⟨hrest, s', hb, rfl⟩, ?_⟩
    rw [current_snd, Reading.rest_skipGarbage, hb.nil hrest]
  rcases h with hb | ⟨-, s', hb, rfl⟩
  · exact hall hb
  · rw [current_current]
    exact hall hb

/-- There is nothing to look at behind the end of the text. -/
theorem beside_of_follows (htail : w.tail = []) (h : w.Follows r s) : w.Beside r s := by
  rcases h with hb | ⟨hnil, s', hb, rfl⟩
  · exact hb
  · have hrest : s'.rest = [] := (hb.nil hnil).trans htail
    rw [current_of_settled (settled_of_nil hrest)]
    exact hb

/-- At the end of the part, nothing is taken from behind it. -/
theorem eat_of_clear (h : w.Follows r s) (hrest : r.rest = []) (hclear : w.Clear kind) :
    eat kind s = (none, (current s).2) := by
  obtain ⟨-, hrest'⟩ := follows_current h hrest
  rw [← eat_current]
  cases hs : (current s).2.rest with
  | nil => exact eat_of_nil hs
  | cons t ts =>
    have hk : t.kind ≠ kind := hclear t (by rw [← hrest', hs]; rfl)
    exact eat_of_other (settled_current s) hs hk

end Tokens

/-- Work `n` that repeats in the longer text what `m` did alone, wherever nothing was reported and
`S` holds of the end; `e` is what counts of the answers. -/
structure Repeats (w : Scene) (S : α → Reading → Prop) (m n : Parser α) (e : α → γ) : Prop where
  runs : Runs m
  follows : ∀ r s, w.Follows r s → (m r).2.Silent → S (m r).1 (m r).2 →
    w.Follows (m r).2 (n s).2 ∧ e (m r).1 = e (n s).1

/-- Work that is repeated if it ends within the part, where `goOn` asks for that. -/
abbrev RepeatsIn (w : Scene) (goOn : Bool) (m n : Parser α) (e : α → γ) : Prop :=
  Repeats w (fun _ => w.Fits goOn) m n e

/-- Work that is repeated from the next token on. -/
structure RepeatsAt (w : Scene) (S : α → Reading → Prop) (t u : Token) (m n : Parser α)
    (e : α → γ) : Prop where
  runs : Runs m
  follows : ∀ r s ts us, w.Beside r s → r.rest = t :: ts → s.rest = u :: us → t.kind ≠ .garbage →
    (m r).2.Silent → S (m r).1 (m r).2 → w.Follows (m r).2 (n s).2 ∧ e (m r).1 = e (n s).1

section Combine

theorem Repeats.pure {a b : α} (h : e a = e b) : Repeats w S (Pure.pure a) (Pure.pure b) e :=
  ⟨runs_pure a, fun _ _ hf _ _ => ⟨hf, h⟩⟩

theorem Repeats.at (h : Repeats w S m n e) : RepeatsAt w S t u m n e :=
  ⟨h.runs, fun r s _ _ hb _ _ _ => h.follows r s (.inl hb)⟩

/-- Nothing is asked of work that always reports. -/
theorem Repeats.of_complains (h : Complains m) : Repeats w S m n e :=
  ⟨h.runs, fun r _ _ hsilent _ => (h.result r hsilent).elim⟩

theorem Repeats.bind (hm : Repeats w S m n e)
    (hf : ∀ a b, e a = e b → Repeats w T (f a) (g b) e')
    (hS : ∀ a r, (f a r).2.Silent → T (f a r).1 (f a r).2 → S a r) :
    Repeats w T (m >>= f) (n >>= g) e' := by
  have hruns (a : α) : Runs (f a) := (hf a a rfl).runs
  refine ⟨hm.runs.bind hruns, ?_⟩
  intro r s h hsilent hT
  have hsilent' := ((hruns (m r).1).run (m r).2).silent hsilent
  obtain ⟨hfollows, heq⟩ := hm.follows r s h hsilent' (hS _ _ hsilent hT)
  exact (hf _ _ heq).follows _ _ hfollows hsilent hT

theorem RepeatsIn.bind (hm : RepeatsIn w goOn m n e)
    (hf : ∀ a b, e a = e b → RepeatsIn w goOn (f a) (g b) e') :
    RepeatsIn w goOn (m >>= f) (n >>= g) e' :=
  Repeats.bind hm hf fun a r _ hT => hT.of_run ((hf a a rfl).runs.run r)

/-- Work that gives something if nothing is reported. -/
theorem RepeatsIn.give {m n : Parser (Option α)} {f g : Option α → Parser β}
    {P : Reading → α → Reading → Prop} (hm : RepeatsIn w goOn m n (Option.map e))
    (hgives : Gives m P) (hnone : Runs (f none))
    (hsome : ∀ a b, e a = e b → RepeatsIn w goOn (f (some a)) (g (some b)) e') :
    RepeatsIn w goOn (m >>= f) (n >>= g) e' := by
  have hruns (a? : Option α) : Runs (f a?) := by
    cases a? with
    | none => exact hnone
    | some a => exact (hsome a a rfl).runs
  refine ⟨hm.runs.bind hruns, ?_⟩
  intro r s h hsilent hfits
  rw [run_bind] at hsilent hfits ⊢
  have hrun := (hruns (m r).1).run (m r).2
  have hsilent' := hrun.silent hsilent
  obtain ⟨hfollows, heq⟩ := hm.follows r s h hsilent' (hfits.of_run hrun)
  obtain ⟨a, ha, -⟩ := hgives.result r hsilent'
  rw [ha] at heq hsilent hfits ⊢
  obtain ⟨b, hb, hab⟩ := Option.map_eq_some_iff.mp heq.symm
  rw [run_bind, hb]
  exact (hsome a b hab.symm).follows _ _ hfollows hsilent hfits

/-- Looking for a token of a kind. Where that is done at the end of the part, no such token may stand
behind it. -/
theorem Repeats.eat {f g : Option Token → Parser β}
    (hsome : ∀ t u, t.bare = u.bare → Repeats w T (f (some t)) (g (some u)) e')
    (hnone : Repeats w T (f none) (g none) e')
    (hend : ∀ r : Reading, r.rest = [] → (f none r).2.Silent → T (f none r).1 (f none r).2 →
      w.Clear kind) : Repeats w T (Parser.eat kind >>= f) (Parser.eat kind >>= g) e' := by
  have hruns : Runs (Parser.eat kind >>= f) :=
    (runs_eat kind).orNone hnone.runs fun t => (hsome t t rfl).runs
  refine ⟨hruns, ?_⟩
  intro r s h hsilent hT
  have hsettled : Settled r := by
    have hrest : ∀ t?, Runs (f t?)
      | none => hnone.runs
      | some t => (hsome t t rfl).runs
    exact settled_of_silent_eat (((hrest _).run _).silent hsilent)
  rw [run_bind] at hsilent hT ⊢
  rw [run_bind]
  cases hr : r.rest with
  | nil =>
    rw [eat_of_nil hr] at hsilent hT ⊢
    rw [eat_of_clear h hr (hend r hr hsilent hT)]
    exact hnone.follows r _ (follows_current h hr).1 hsilent hT
  | cons t ts =>
    have hb := h.beside hr
    obtain ⟨u, us, hs, hbare⟩ := hb.cons hr
    have hgarbage : t.kind ≠ .garbage := hsettled t (by rw [hr]; rfl)
    have hsettled' : Settled s := settled_of_cons hs (Token.kind_of_bare hbare ▸ hgarbage)
    by_cases hk : t.kind = kind
    · rw [eat_of_kind hsettled hr hk] at hsilent hT ⊢
      rw [eat_of_kind hsettled' hs ((Token.kind_of_bare hbare).symm.trans hk)]
      exact (hsome t u hbare).follows _ _ (.inl (hb.take hr hs _ _)) hsilent hT
    · have hk' : u.kind ≠ kind := by rwa [← Token.kind_of_bare hbare]
      rw [eat_of_other hsettled hr hk] at hsilent hT ⊢
      rw [eat_of_other hsettled' hs hk']
      exact hnone.follows r s h hsilent hT

/-- A look at the next token. Where that is done at the end of the part, nothing may stand behind
it. -/
theorem Repeats.current {f g : Option Token → Parser β} (hnone : Repeats w T (f none) (g none) e')
    (hend : ∀ r, (f none r).2.Silent → T (f none r).1 (f none r).2 → w.tail = [])
    (hsome : ∀ t u, t.bare = u.bare → RepeatsAt w T t u (f (some t)) (g (some u)) e') :
    Repeats w T (Parser.current >>= f) (Parser.current >>= g) e' := by
  have hrest : ∀ t?, Runs (f t?)
    | none => hnone.runs
    | some t => (hsome t t rfl).runs
  refine ⟨reads_current.runs.bind hrest, ?_⟩
  intro r s h hsilent hT
  have hsettled : Settled r := settled_of_silent (((hrest _).run _).silent hsilent)
  rw [run_bind, current_of_settled hsettled] at hsilent hT ⊢
  cases hr : r.rest with
  | nil =>
    rw [hr] at hsilent hT
    obtain ⟨hfollows, hrest'⟩ := follows_current h hr
    rw [hend r hsilent hT, List.dropWhile_nil] at hrest'
    rw [run_bind, current_fst, hrest']
    exact hnone.follows r _ hfollows hsilent hT
  | cons t ts =>
    have hb := h.beside hr
    obtain ⟨u, us, hs, hbare⟩ := hb.cons hr
    have hgarbage : t.kind ≠ .garbage := hsettled t (by rw [hr]; rfl)
    have hsettled' : Settled s := settled_of_cons hs (Token.kind_of_bare hbare ▸ hgarbage)
    rw [hr] at hsilent hT
    rw [run_bind, current_of_settled hsettled', hs]
    exact (hsome t u hbare).follows r s ts us hb hr hs hgarbage hsilent hT

theorem Repeats.currentKind {f g : Option TokenKind → Parser β}
    (hnone : Repeats w T (f none) (g none) e')
    (hend : ∀ r, (f none r).2.Silent → T (f none r).1 (f none r).2 → w.tail = [])
    (hsome : ∀ t u, t.bare = u.bare → RepeatsAt w T t u (f (some t.kind)) (g (some t.kind)) e') :
    Repeats w T (Parser.currentKind >>= f) (Parser.currentKind >>= g) e' := by
  have hlook (f : Option TokenKind → Parser β) :
      Parser.currentKind >>= f = Parser.current >>= fun t? => f (t?.map (·.kind)) := rfl
  rw [hlook f, hlook g]
  apply Repeats.current hnone hend
  intro t u hbare
  have hat := hsome t u hbare
  simp only [Option.map_some, ← Token.kind_of_bare hbare]
  exact hat

theorem RepeatsAt.of_complains (h : Complains m) : RepeatsAt w S t u m n e :=
  (Repeats.of_complains h).at

theorem RepeatsAt.bind (hm : RepeatsAt w S t u m n e)
    (hf : ∀ a b, e a = e b → Repeats w T (f a) (g b) e')
    (hS : ∀ a r, (f a r).2.Silent → T (f a r).1 (f a r).2 → S a r) :
    RepeatsAt w T t u (m >>= f) (n >>= g) e' := by
  have hruns (a : α) : Runs (f a) := (hf a a rfl).runs
  refine ⟨hm.runs.bind hruns, ?_⟩
  intro r s ts us hb hr hs hgarbage hsilent hT
  have hsilent' := ((hruns (m r).1).run (m r).2).silent hsilent
  obtain ⟨hfollows, heq⟩ := hm.follows r s ts us hb hr hs hgarbage hsilent' (hS _ _ hsilent hT)
  exact (hf _ _ heq).follows _ _ hfollows hsilent hT

/-- The same within the part. -/
theorem RepeatsAt.before (hm : RepeatsAt w (fun _ => w.Fits goOn) t u m n e)
    (hf : ∀ a b, e a = e b → RepeatsIn w goOn (f a) (g b) e') :
    RepeatsAt w (fun _ => w.Fits goOn) t u (m >>= f) (n >>= g) e' :=
  hm.bind hf fun a r _ hT => hT.of_run ((hf a a rfl).runs.run r)

theorem RepeatsAt.bump {f g : Span → Parser β} (hf : ∀ a b, Repeats w T (f a) (g b) e') :
    RepeatsAt w T t u (Parser.bump >>= f) (Parser.bump >>= g) e' := by
  refine ⟨reads_bump.runs.bind fun a => (hf a a).runs, ?_⟩
  intro r s ts us hb hr hs hgarbage hsilent hT
  have hsettled : Settled r := settled_of_cons hr hgarbage
  obtain ⟨u', us', hs', hbare⟩ := hb.cons hr
  obtain ⟨rfl, rfl⟩ := List.cons.inj (hs.symm.trans hs')
  have hsettled' : Settled s := settled_of_cons hs (Token.kind_of_bare hbare ▸ hgarbage)
  rw [run_bind, bump_of_settled hsettled hr] at hsilent hT ⊢
  rw [run_bind, bump_of_settled hsettled' hs]
  exact (hf _ _).follows _ _ (.inl (hb.take hr hs _ _)) hsilent hT

end Combine

section Words

theorem repeats_currentSpan : RepeatsIn w goOn currentSpan currentSpan fun _ => () := by
  refine ⟨reads_currentSpan.runs, ?_⟩
  intro r s h hsilent _
  have hspan (r : Reading) : (currentSpan r).2 = (current r).2 := by
    unfold currentSpan
    rw [run_bind]
    cases (current r).1 <;> rfl
  rw [hspan] at hsilent ⊢
  rw [hspan]
  have hsettled := settled_of_silent hsilent
  rw [current_of_settled hsettled]
  cases hr : r.rest with
  | nil => exact ⟨(follows_current h hr).1, rfl⟩
  | cons t ts =>
    have hb := h.beside hr
    obtain ⟨u, us, hs, hbare⟩ := hb.cons hr
    have hgarbage : t.kind ≠ .garbage := hsettled t (by rw [hr]; rfl)
    rw [current_of_settled (settled_of_cons hs (Token.kind_of_bare hbare ▸ hgarbage))]
    exact ⟨h, rfl⟩

theorem repeats_get : RepeatsIn w goOn get get fun _ => () :=
  ⟨reads_get.runs, fun _ _ h _ _ => ⟨h, rfl⟩⟩

theorem repeats_finish {start start' : Nat} {make make' : Span → TypeExpr}
    (h : ∀ span span', (make span).bare = (make' span').bare) :
    RepeatsIn w goOn (finish start make) (finish start' make') TypeExpr.bare :=
  repeats_get.bind fun _ _ _ => .pure (h _ _)

/-- A token that must be there. -/
theorem repeats_expect (kind : TokenKind) :
    RepeatsIn w goOn (expect kind) (expect kind) (Option.map Token.bare) := by
  have hnone : Complains (do
      fail .expectedToken (some kind.label)
      return none : Parser (Option Token)) := (complains_fail _ rfl).bind fun _ => runs_pure _
  apply Repeats.eat
  · exact fun t u h => .pure (congrArg some h)
  · exact .of_complains hnone
  · exact fun r _ hsilent _ => (hnone.result r hsilent).elim

theorem repeats_name : RepeatsIn w goOn name name (Option.map Name.bare) := by
  have hnone : Complains (do
      fail .expectedName none
      return none : Parser (Option Name)) := (complains_fail _ rfl).bind fun _ => runs_pure _
  apply Repeats.eat
  · intro t u h
    refine .pure ?_
    simp only [Option.map_some, Name.bare, Token.text_of_bare h]
  · exact .of_complains hnone
  · exact fun r _ hsilent _ => (hnone.result r hsilent).elim

end Words

section Loops

/-- A loop that is repeated round by round. `T` holds of the end of all rounds, and what it asks of
the last round and of those before it. -/
theorem Repeats.collect {round round' : Parser (List α × Bool)}
    {S : List α × Bool → Reading → Prop} {T : Reading → Prop} {e : α → γ}
    (hround : Repeats w S round round' fun x => (x.1.map e, x.2)) (hadvances : Advances round)
    (hadvances' : Advances round') (hlast : ∀ xs r, T r → S (xs, false) r)
    (hmore : ∀ xs r, (collect round r).2.Silent → T (collect round r).2 → S (xs, true) r) :
    Repeats w (fun _ => T) (collect round) (collect round') (List.map e) := by
  have hruns : Runs (Parser.collect round) := runs_collect hround.runs
  refine ⟨hruns, ?_⟩
  intro r s h hsilent hT
  -- on the tokens that are left of the text alone
  induction hn : r.rest.length using Nat.strongRecOn generalizing r s with
  | ind _ ih =>
    subst hn
    cases hgo : (round r).1.2 with
    | true =>
      have hpair : (round r).1 = ((round r).1.1, true) := Prod.ext rfl hgo
      rw [hadvances.collect_of_goOn hgo] at hsilent hT ⊢
      have hstep := hround.follows r s h ((hruns.run _).silent hsilent)
        (hpair ▸ hmore _ _ hsilent hT)
      obtain ⟨hfollows, heq⟩ := hstep
      obtain ⟨hfound, hgo'⟩ := Prod.mk.inj heq
      rw [hadvances'.collect_of_goOn (hgo'.symm.trans hgo)]
      obtain ⟨hfollows', hfound'⟩ := ih _ (hadvances r hgo) _ _ hfollows hsilent hT rfl
      refine ⟨hfollows', ?_⟩
      rw [List.map_append, List.map_append, hfound, hfound']
    | false =>
      have hpair : (round r).1 = ((round r).1.1, false) := Prod.ext rfl hgo
      rw [collect_of_stop hgo] at hsilent hT ⊢
      obtain ⟨hfollows, heq⟩ := hround.follows r s h hsilent (hpair ▸ hlast _ _ hT)
      obtain ⟨hfound, hgo'⟩ := Prod.mk.inj heq
      rw [collect_of_stop (hgo'.symm.trans hgo)]
      exact ⟨hfollows, hfound⟩

theorem RepeatsIn.collect {round round' : Parser (List α × Bool)} {e : α → γ}
    (hround : RepeatsIn w goOn round round' fun x => (x.1.map e, x.2))
    (hadvances : Advances round) (hadvances' : Advances round') :
    RepeatsIn w goOn (Parser.collect round) (Parser.collect round') (List.map e) := by
  apply Repeats.collect hround hadvances hadvances'
  · exact fun _ _ h => h
  · exact fun _ r _ h => h.of_run ((runs_collect hround.runs).run r)

/-- Documentation is repeated where something follows it, or no more of it stands behind the part. -/
theorem repeats_docs (h : goOn = true ∨ w.Clear .docComment) :
    RepeatsIn w goOn docs docs id := by
  have hround : RepeatsIn w goOn docRound docRound fun x => (x.1.map id, x.2) := by
    apply Repeats.eat
    · intro t u htu
      refine .pure ?_
      simp only [Token.text_of_bare htu]
    · exact .pure rfl
    · intro r hr _ hfits
      rcases h with rfl | hclear
      · exact absurd hr (hfits.2 rfl)
      · exact hclear
  apply (RepeatsIn.collect hround advances_docRound advances_docRound).bind
  intro xs ys hxs
  rw [List.map_id, List.map_id] at hxs
  rw [hxs]
  exact .pure rfl

/-- A path goes on with a point or a slash, so none of these may stand behind the part. -/
theorem repeats_pathRest (hdot : w.Clear .dot) (hslash : w.Clear .slash) :
    RepeatsIn w goOn pathRest pathRest id := by
  have hround : RepeatsIn w goOn pathRound pathRound fun x => (x.1.map id, x.2) := by
    refine Repeats.eat ?_ (Repeats.eat ?_ (.pure rfl) ?_) ?_
    · intro t u htu
      simp only [pure_bind]
      apply repeats_name.give reads_name
      · exact runs_pure _
      · intro a b hab
        refine .pure ?_
        rw [Token.text_of_bare htu, Name.text_of_bare hab]
    · intro t u htu
      apply repeats_name.give reads_name
      · exact runs_pure _
      · intro a b hab
        refine .pure ?_
        rw [Token.text_of_bare htu, Name.text_of_bare hab]
    · exact fun _ _ _ _ => hslash
    · exact fun _ _ _ _ => hdot
  have hall := RepeatsIn.collect hround advances_pathRound advances_pathRound
  rw [List.map_id_fun] at hall
  exact hall

end Loops

section Attributes

theorem repeats_renameArgument : RepeatsIn w goOn renameArgument renameArgument (Option.map id) := by
  apply (repeats_expect .leftParen).give (reads_expect .leftParen)
  · exact runs_pure _
  intro opening opening' _
  have hnone : Complains (do
      fail .expectedLiteral none
      skipArguments
      return none : Parser (Option String)) :=
    (complains_fail none rfl).bind fun _ => runs_skipArguments.bind fun _ => runs_pure _
  apply Repeats.eat
  · intro t u htu
    apply (repeats_expect .rightParen).give (reads_expect .rightParen)
    · exact runs_pure _
    · intro closing closing' _
      refine .pure ?_
      rw [Token.text_of_bare htu]
  · exact .of_complains hnone
  · exact fun r _ hsilent _ => (hnone.result r hsilent).elim

theorem repeats_attributeKind {word word' : Name} (h : word.text = word'.text) :
    RepeatsIn w goOn (attributeKind word) (attributeKind word') (Option.map id) := by
  unfold attributeKind
  rw [← h]
  by_cases hskip : word.text = "skip"
  · rw [if_pos hskip, if_pos hskip]
    exact .pure rfl
  rw [if_neg hskip, if_neg hskip]
  by_cases hoptional : word.text = "optional"
  · rw [if_pos hoptional, if_pos hoptional]
    exact .pure rfl
  rw [if_neg hoptional, if_neg hoptional]
  by_cases hrename : word.text = "rename"
  · rw [if_pos hrename, if_pos hrename]
    apply repeats_renameArgument.bind
    intro a b hab
    rw [Option.map_id, id, id] at hab
    rw [hab]
    exact .pure rfl
  · rw [if_neg hrename]
    apply Repeats.of_complains
    exact (complains_report _ _ _ _ rfl).bind fun _ => runs_skipArguments.bind fun _ => runs_pure _

/-- Attributes are repeated where something follows them. -/
theorem repeats_attributes :
    RepeatsIn w true attributes attributes (List.map Attribute.bare) := by
  refine RepeatsIn.collect ?_ advances_attributeRound advances_attributeRound
  apply Repeats.eat
  · intro t u _
    apply repeats_name.give reads_name
    · exact runs_pure _
    intro word word' hword
    apply (repeats_attributeKind (Name.text_of_bare hword)).give (reads_attributeKind word)
    · exact runs_pure _
    intro kind kind' hkind
    obtain rfl : kind = kind' := hkind
    exact repeats_get.bind fun _ _ _ => .pure rfl
  · exact .pure rfl
  · exact fun r hr _ hfits => absurd hr (hfits.2 rfl)

end Attributes

section Blocks

theorem currentKind_of_nil (hrest : r.rest = []) : currentKind r = (none, r) := by
  rw [currentKind_of_settled (settled_of_nil hrest), hrest]
  rfl

theorem docs_of_none (h : eat .docComment r = (none, r)) : docs r = (none, r) := by
  have hround : docRound r = (([], false), r) := by
    rw [docRound, run_bind, h]
    rfl
  rw [docs, run_bind, collect_eq, hround]
  rfl

/-- Documentation and what it stands in front of, which is chosen by the kind of the next token. -/
theorem Repeats.documented {f g : Option String → Option TokenKind → Parser β}
    (hnone : ∀ doc, Repeats w T (f doc none) (g doc none) e')
    (hend : ∀ doc r, (f doc none r).2.Silent → T (f doc none r).1 (f doc none r).2 → w.tail = [])
    (hsome : ∀ doc t u, t.bare = u.bare →
      RepeatsAt w T t u (f doc (some t.kind)) (g doc (some t.kind)) e')
    (hfits : ∀ b r, T b r → w.Fits false r) :
    Repeats w T (docs >>= fun doc => Parser.currentKind >>= f doc)
      (docs >>= fun doc => Parser.currentKind >>= g doc) e' := by
  have hnext (doc : Option String) : Repeats w T (Parser.currentKind >>= f doc)
      (Parser.currentKind >>= g doc) e' := .currentKind (hnone doc) (hend doc) (hsome doc)
  -- where nothing stands behind the part, it may end with documentation
  have hdocs : w.tail = [] ∨ w.tail ≠ [] := em _
  have hrepeats : RepeatsIn w (w.tail ≠ []) docs docs id := by
    apply repeats_docs
    rcases hdocs with htail | htail
    · right
      simp [Scene.Clear, htail]
    · left
      simp [htail]
  apply Repeats.bind hrepeats
  · intro doc doc' hdoc
    obtain rfl : doc = doc' := hdoc
    exact hnext doc
  · intro doc r hsilent hT
    refine ⟨((hfits _ _ hT).of_run ((hnext doc).runs.run r)).1, ?_⟩
    intro htail hnil
    rw [run_bind, currentKind_of_nil hnil] at hsilent hT
    exact of_decide_eq_true htail (hend doc r hsilent hT)

/-- An entry of a block begins with the token that it is chosen by, and something follows it. -/
def RepeatsEntry (w : Scene) (entry : TokenKind → Option (EntryReader α)) (e : α → γ) : Prop :=
  ∀ t u read doc, t.bare = u.bare → entry t.kind = some read →
    RepeatsAt w (fun _ => w.Fits true) t u (read doc) (read doc) (List.map e)

variable {entry : TokenKind → Option (EntryReader α)} {opening opening' : Span}

/-- After a round that goes on there is a closing brace at least. -/
theorem repeats_blockRound (hentry : RepeatsEntry w entry e) :
    Repeats w (fun x => w.Fits (goOn || x.2)) (blockRound opening entry)
      (blockRound opening' entry) fun x => (x.1.map e, x.2) := by
  have hunclosed (opening : Span) : Complains (do
      unclosed opening
      return ([], false) : Parser (List α × Bool)) :=
    (complains_unclosed opening).bind fun _ => runs_pure _
  apply Repeats.documented
  · exact fun _ => .of_complains (hunclosed opening)
  · exact fun _ r hsilent _ => ((hunclosed opening).result r hsilent).elim
  · intro doc t u htu
    by_cases hclose : t.kind = .rightBrace
    · simp only [if_pos hclose]
      exact .bump fun _ _ => .pure rfl
    simp only [if_neg hclose]
    by_cases hitem : t.kind.startsItem
    · simp only [if_pos hitem]
      exact .of_complains (hunclosed opening)
    simp only [if_neg hitem]
    by_cases hseparator : t.kind = .comma ∨ t.kind = .semicolon
    · simp only [if_pos hseparator]
      exact .bump fun _ _ => .pure rfl
    simp only [if_neg hseparator]
    cases hread : entry t.kind with
    | none =>
      apply RepeatsAt.of_complains
      exact (complains_fail none rfl).bind fun _ => runs_recoverInBlock.bind fun _ => runs_pure _
    | some read =>
      apply (hentry t u read doc htu hread).bind
      · intro xs ys hxs
        refine .pure ?_
        rw [hxs]
      · intro xs r _ hfits
        have hor : (goOn || true) = true := Bool.or_true goOn
        exact hor ▸ hfits
  · exact fun x r hfits => ⟨hfits.1, Bool.false_ne_true.elim⟩

theorem not_silent_block (hrest : r.rest = []) : ¬(block opening entry r).2.Silent := by
  have hunclosed : Complains (do
      unclosed opening
      return ([], false) : Parser (List α × Bool)) :=
    (complains_unclosed opening).bind fun _ => runs_pure _
  have hround : blockRound opening entry r = (do
      unclosed opening
      return ([], false) : Parser (List α × Bool)) r := by
    rw [blockRound, run_bind, docs_of_none (eat_of_nil hrest), run_bind, currentKind_of_nil hrest]
  intro hsilent
  rw [block, collect_eq, hround] at hsilent
  exact hunclosed.result r hsilent

/-- A block says itself where it ends. -/
theorem repeats_block (hentry : RepeatsEntry w entry e) (htakes : ∀ kind read doc,
    entry kind = some read → Takes kind (read doc)) :
    RepeatsIn w goOn (block opening entry) (block opening' entry) (List.map e) := by
  have hround : Repeats w (fun x => w.Fits (goOn || x.2)) (blockRound opening entry)
      (blockRound opening' entry) fun x => (x.1.map e, x.2) := repeats_blockRound hentry
  apply Repeats.collect hround (advances_blockRound htakes) (advances_blockRound htakes)
  · intro xs r hfits
    rw [Bool.or_false]
    exact hfits
  · intro xs r hsilent hfits
    rw [Bool.or_true]
    have hpackage := (hfits.of_run ((runs_collect hround.runs).run r)).1
    exact ⟨hpackage, fun _ hnil => not_silent_block hnil hsilent⟩

end Blocks

section Types

variable {type : Parser TypeExpr}

/-- An expression is repeated wherever it ends. -/
abbrev RepeatsType (w : Scene) (type : Parser TypeExpr) : Prop :=
  ∀ goOn, RepeatsIn w goOn type type TypeExpr.bare

theorem isHole_bare (x : TypeExpr) : x.bare.isHole = x.isHole := by
  cases x <;> rfl

theorem repeats_member (htype : RepeatsType w type) (doc : Option String) :
    RepeatsIn w true (member type doc) (member type doc) (Option.map MemberDef.bare) := by
  apply repeats_name.give reads_name
  · exact runs_pure _
  intro name name' hname
  apply (repeats_expect .colon).give (reads_expect .colon)
  · exact runs_recoverInBlock.bind fun _ => runs_pure _
  intro colon colon' _
  refine (htype true).bind fun x y hxy => repeats_attributes.bind fun as bs has => .pure ?_
  rw [Option.map_some, Option.map_some, MemberDef.bare, MemberDef.bare, hname, hxy, has]

theorem repeats_embedded (htype : RepeatsType w type) (doc : Option String) :
    RepeatsAt w (fun _ => w.Fits true) t u (embedded type doc) (embedded type doc)
      (Option.map MemberDef.bare) := by
  refine .bump fun _ _ => (htype true).bind fun x y hxy => ?_
  have hhole : x.isHole = y.isHole := by rw [← isHole_bare x, hxy, isHole_bare]
  have hname : x.referredName = y.referredName := by
    rw [← referredName_bare x, hxy, referredName_bare]
  rw [← hhole, ← hname]
  cases x.isHole with
  | true => exact .pure rfl
  | false =>
    cases x.referredName with
    | none =>
      apply Repeats.of_complains
      exact (complains_report _ _ _ _ rfl).bind fun _ => runs_pure _
    | some text =>
      refine repeats_attributes.bind fun as bs has => .pure ?_
      rw [Option.map_some, Option.map_some, MemberDef.bare, MemberDef.bare, hxy, has]
      rfl

theorem repeats_memberEntry (htype : RepeatsType w type) :
    RepeatsEntry w (memberEntry type) MemberDef.bare := by
  intro t u read doc htu hread
  have htoList {m? m?' : Option (MemberDef TypeExpr)}
      (h : m?.map MemberDef.bare = m?'.map MemberDef.bare) :
      m?.toList.map MemberDef.bare = m?'.toList.map MemberDef.bare := by
    rw [← Option.toList_map, h, Option.toList_map]
  unfold memberEntry at hread
  split at hread
  · obtain rfl := Option.some.inj hread
    exact (repeats_embedded htype doc).before fun _ _ h => .pure (htoList h)
  · obtain rfl := Option.some.inj hread
    apply Repeats.at
    exact (repeats_member htype doc).bind fun _ _ h => .pure (htoList h)
  · cases hread

theorem repeats_members (htype : RepeatsType w type) (hruns : Runs type) :
    RepeatsIn w goOn (members type) (members type) (List.map MemberDef.bare) := by
  apply (repeats_expect .leftBrace).give (reads_expect .leftBrace)
  · exact runs_pure _
  · intro opening opening' _
    apply repeats_block (repeats_memberEntry htype)
    exact fun kind read doc hread => takes_memberEntry hruns doc hread

theorem repeats_named (hdot : w.Clear .dot) (start start' : Nat) (text : String) :
    RepeatsIn w goOn (named start text) (named start' text) TypeExpr.bare := by
  apply Repeats.eat
  · intro t u _
    apply repeats_name.give reads_name
    · exact (reads_finish _ _).runs
    · intro name name' hname
      refine repeats_finish fun _ _ => ?_
      rw [TypeExpr.bare, TypeExpr.bare, Name.text_of_bare hname]
  · cases Scalar.ofKeyword? text with
    | some kind => exact repeats_finish fun _ _ => rfl
    | none => exact repeats_finish fun _ _ => rfl
  · exact fun _ _ _ _ => hdot

theorem repeats_type (hdot : w.Clear .dot) (depth : Nat) : RepeatsType w (Parser.type depth) := by
  induction depth with
  | zero =>
    intro goOn
    unfold Parser.type
    apply Repeats.of_complains
    refine Runs.bind_complains reads_currentSpan.runs fun span => ?_
    exact (complains_report _ _ _ _ rfl).bind fun _ => runs_pure _
  | succ depth ih =>
    intro goOn
    have hexpected (start : Nat) : Complains (do
        fail .expectedType none
        return .hole ⟨start, start⟩ : Parser TypeExpr) :=
      (complains_fail none rfl).bind fun _ => runs_pure _
    unfold Parser.type
    refine repeats_currentSpan.bind fun span span' _ => ?_
    apply Repeats.current
    · exact .of_complains (hexpected _)
    · exact fun r hsilent _ => ((hexpected _).result r hsilent).elim
    intro t u htu
    simp only [← Token.kind_of_bare htu, ← Token.text_of_bare htu]
    split
    · refine .bump fun _ _ => (ih goOn).bind fun x y hxy => repeats_finish fun _ _ => ?_
      rw [TypeExpr.bare, TypeExpr.bare, hxy]
    · refine .bump fun _ _ => (ih goOn).bind fun x y hxy =>
        (repeats_expect .rightBracket).bind fun _ _ _ => repeats_finish fun _ _ => ?_
      rw [TypeExpr.bare, TypeExpr.bare, hxy]
    · refine .bump fun _ _ => (ih goOn).bind fun k l hkl =>
        (repeats_expect .colon).bind fun _ _ _ => (ih goOn).bind fun x y hxy =>
          (repeats_expect .rightBrace).bind fun _ _ _ => repeats_finish fun _ _ => ?_
      rw [TypeExpr.bare, TypeExpr.bare, hkl, hxy]
    · refine .bump fun _ _ => (repeats_members ih (reads_type depth).runs).bind fun ms ns hms =>
        repeats_finish fun _ _ => ?_
      rw [TypeExpr.bare, TypeExpr.bare, bareMembers_eq_map, bareMembers_eq_map, hms]
    · exact .bump fun _ _ => repeats_named hdot span.start span'.start t.text
    · exact .of_complains (hexpected _)

end Types

section Items

theorem repeats_literal : RepeatsIn w goOn literal literal (Option.map Prod.fst) := by
  have hexpected : Complains (do
      fail .expectedLiteral none
      return none : Parser (Option (Literal × Span))) :=
    (complains_fail none rfl).bind fun _ => runs_pure _
  apply Repeats.current
  · exact .of_complains hexpected
  · exact fun r hsilent _ => (hexpected.result r hsilent).elim
  intro t u htu
  obtain ⟨kind, text, span⟩ := t
  obtain ⟨kind', text', span'⟩ := u
  obtain rfl : kind = kind' := Token.kind_of_bare htu
  obtain rfl : text = text' := Token.text_of_bare htu
  cases kind with
  | string => exact .bump fun _ _ => .pure rfl
  | integer =>
    simp only
    cases integerLiteral text with
    | some value => exact .bump fun _ _ => .pure rfl
    | none =>
      apply RepeatsAt.of_complains
      exact (complains_report _ _ _ _ rfl).bind fun _ =>
        Runs.bind reads_bump.runs fun _ => runs_pure _
  | float =>
    simp only
    cases Binary64.ofText? text with
    | some value => exact .bump fun _ _ => .pure rfl
    | none =>
      apply RepeatsAt.of_complains
      exact (complains_fail _ rfl).bind fun _ => Runs.bind reads_bump.runs fun _ => runs_pure _
  | _ => exact .of_complains hexpected

theorem repeats_variant (doc : Option String) :
    RepeatsIn w goOn (variant doc) (variant doc) (Option.map Variant.bare) := by
  apply repeats_name.give reads_name
  · exact runs_pure _
  intro name name' hname
  apply (repeats_expect .equals).give (reads_expect .equals)
  · exact runs_recoverInBlock.bind fun _ => runs_pure _
  intro equals equals' _
  apply repeats_literal.give reads_literal
  · exact runs_pure _
  intro value value' hvalue
  refine .pure ?_
  simp only [Option.map_some, Variant.bare, hname, hvalue]

theorem repeats_variantEntry : RepeatsEntry w variantEntry Variant.bare := by
  intro t u read doc htu hread
  unfold variantEntry at hread
  split at hread
  · obtain rfl := Option.some.inj hread
    apply Repeats.at
    refine (repeats_variant doc).bind fun v? v?' h => .pure ?_
    rw [← Option.toList_map, h, Option.toList_map]
  · cases hread

theorem repeats_variants :
    RepeatsIn w goOn variants variants (List.map Variant.bare) := by
  apply (repeats_expect .leftBrace).give (reads_expect .leftBrace)
  · exact runs_pure _
  · intro opening opening' _
    apply repeats_block repeats_variantEntry
    exact fun kind read doc hread => takes_variantEntry doc hread

/-- An item is repeated from its keyword on. -/
abbrev RepeatsItem (w : Scene) (m : Parser (Option Item)) : Prop :=
  ∀ t u, RepeatsAt w (fun _ => w.Fits false) t u m m (Option.map Item.bare)

theorem repeats_structItem (hdot : w.Clear .dot) (doc : Option String) :
    RepeatsItem w (structItem doc) := by
  intro t u
  refine .bump fun _ _ => ?_
  apply repeats_name.give reads_name
  · exact runs_recoverToItem.bind fun _ => runs_pure _
  intro name name' hname
  have htype := repeats_type hdot maxDepth
  refine (repeats_members htype (reads_type maxDepth).runs).bind fun ms ns hms => .pure ?_
  rw [Option.map_some, Option.map_some, Item.bare, Item.bare, hname, hms]

theorem repeats_enumItem (doc : Option String) : RepeatsItem w (enumItem doc) := by
  have hrecover : Runs (recoverToItem >>= fun _ => pure (none : Option Item)) :=
    runs_recoverToItem.bind fun _ => runs_pure _
  intro t u
  refine .bump fun _ _ => ?_
  apply repeats_name.give reads_name
  · exact hrecover
  intro name name' hname
  apply (repeats_expect .colon).give (reads_expect .colon)
  · exact hrecover
  intro colon colon' _
  apply repeats_name.give reads_name
  · exact hrecover
  intro base base' hbase
  refine repeats_variants.bind fun vs us hvs => .pure ?_
  rw [Option.map_some, Option.map_some, Item.bare, Item.bare, hname, hbase, hvs]

theorem repeats_synonymItem (hdot : w.Clear .dot) (doc : Option String) :
    RepeatsItem w (synonymItem doc) := by
  have hrecover : Runs (recoverToItem >>= fun _ => pure (none : Option Item)) :=
    runs_recoverToItem.bind fun _ => runs_pure _
  intro t u
  refine .bump fun _ _ => ?_
  apply repeats_name.give reads_name
  · exact hrecover
  intro name name' hname
  apply (repeats_expect .equals).give (reads_expect .equals)
  · exact hrecover
  intro equals equals' _
  refine (repeats_type hdot maxDepth false).bind fun x y hxy => .pure ?_
  rw [Option.map_some, Option.map_some, Item.bare, Item.bare, hname, hxy]

theorem rest_ne_nil_of_name {f : Option Name → Parser β} (hf : ∀ name?, Runs (f name?))
    (hsilent : ((name >>= f) r).2.Silent) : r.rest ≠ [] := by
  have hname := reads_name.result r (((hf _).run _).silent hsilent)
  obtain ⟨word, -, t, -, -, htook⟩ := hname
  rw [htook.rest]
  exact List.cons_ne_nil _ _

theorem repeats_packageHeader (hdot : w.Clear .dot) (hslash : w.Clear .slash) :
    RepeatsAt w (fun _ => w.Fits false) t u packageHeader packageHeader
      (Option.map PackageHeader.bare) := by
  refine .bump fun span span' => ?_
  apply Repeats.eat
  · intro t u htu
    refine .pure ?_
    simp only [Option.map_some, PackageHeader.bare, Token.text_of_bare htu]
  · apply repeats_name.give reads_name
    · exact runs_pure _
    intro first first' hfirst
    refine (repeats_pathRest hdot hslash).bind fun segments segments' hsegments => ?_
    obtain rfl : segments = segments' := hsegments
    by_cases hall : segments.all (·.isSome)
    · simp only [if_pos hall]
      refine repeats_get.bind fun _ _ _ => .pure ?_
      simp only [Option.map_some, PackageHeader.bare, Name.text_of_bare hfirst]
    · simp only [if_neg hall]
      exact .pure rfl
  · intro r hr hsilent _
    refine absurd hr (rest_ne_nil_of_name (fun first? => ?_) hsilent)
    cases first? with
    | none => exact runs_pure _
    | some first =>
      apply reads_pathRest.runs.bind
      intro segments
      split
      · exact reads_get.runs.bind fun _ => runs_pure _
      · exact runs_pure _

theorem repeats_keepHeader {header header' : PackageHeader} (h : header.bare = header'.bare) :
    RepeatsIn w goOn (keepHeader header) (keepHeader header') id := by
  refine ⟨(reads_keepHeader header).runs, ?_⟩
  intro r s hf hsilent hfits
  have hkept := (reads_keepHeader header).result r hsilent
  obtain ⟨hnone, hsome, hrest⟩ := hkept
  have hheader : w.header = none := by
    apply hfits.1.resolve_right
    rw [hsome]
    exact Option.some_ne_none _
  have hr : (keepHeader header r).2 = { r with package := some header } := by
    rw [keepHeader, run_bind, run_get, hnone]
    rfl
  have hkeep {s : Reading} (hpackage : s.package.map PackageHeader.bare =
      w.header.or (r.package.map PackageHeader.bare)) :
      (keepHeader header' s).2 = { s with package := some header' } := by
    rw [hheader, hnone, Option.none_or, Option.map_none, Option.map_eq_none_iff] at hpackage
    rw [keepHeader, run_bind, run_get, hpackage]
    rfl
  have hbeside {s : Reading} (hb : w.Beside r s) :
      w.Beside { r with package := some header } { s with package := some header' } := by
    refine ⟨hb.rest, ?_, hb.told⟩
    rw [hheader, Option.none_or, Option.map_some, Option.map_some, h]
  refine ⟨?_, rfl⟩
  rw [hr]
  rcases hf with hb | ⟨hnil, s', hb, rfl⟩
  · rw [hkeep hb.package]
    exact .inl (hbeside hb)
  · have hpackage : (current s').2.package = s'.package := package_skipGarbage
    rw [hkeep (hpackage ▸ hb.package)]
    refine .inr ⟨hnil, { s' with package := some header' }, hbeside hb, ?_⟩
    exact (skipGarbage_with_package s' s'.rest (some header')).symm

theorem repeats_package (hdot : w.Clear .dot) (hslash : w.Clear .slash) :
    RepeatsAt w (fun _ => w.Fits false) t u package package id := by
  apply (repeats_packageHeader hdot hslash).before
  intro header? header?' h
  cases header? with
  | none =>
    obtain rfl := Option.map_eq_none_iff.mp h.symm
    exact .pure rfl
  | some header =>
    obtain ⟨header', rfl, hbare⟩ := Option.map_eq_some_iff.mp h.symm
    exact repeats_keepHeader hbare.symm

/-- One item is repeated, or a header; the round that stops is, if nothing stands behind. -/
theorem repeats_itemRound (hdot : w.Clear .dot) (hslash : w.Clear .slash) :
    Repeats w (fun x r => (x.2 = false → w.tail = []) ∧ w.Fits false r) itemRound itemRound
      fun x => (x.1.map Item.bare, x.2) := by
  have hitem {m : Parser (Option Item)} (hm : RepeatsItem w m) (t u : Token) :
      RepeatsAt w (fun x r => (x.2 = false → w.tail = []) ∧ w.Fits false r) t u
        (do return ((← m).toList, true)) (do return ((← m).toList, true))
        fun x => (x.1.map Item.bare, x.2) := by
    apply (hm t u).bind
    · intro item? item?' h
      refine .pure ?_
      rw [← Option.toList_map, h, Option.toList_map]
    · exact fun _ _ _ h => h.2
  apply Repeats.documented
  · exact fun _ => .pure rfl
  · exact fun _ _ _ h => h.1 rfl
  · intro doc t u _
    split
    · contradiction
    · apply (repeats_package hdot hslash).bind
      · exact fun _ _ _ => .pure rfl
      · exact fun _ _ _ h => h.2
    · exact hitem (repeats_structItem hdot doc) t u
    · exact hitem (repeats_enumItem doc) t u
    · exact hitem (repeats_synonymItem hdot doc) t u
    · apply RepeatsAt.of_complains
      exact (complains_fail _ rfl).bind fun _ => runs_recoverToItem.bind fun _ => runs_pure _
  · exact fun _ _ h => h.2

/-- Items are repeated up to the end of the text. -/
theorem repeats_items (htail : w.tail = []) :
    RepeatsIn w false items items (List.map Item.bare) := by
  have hclear (kind : TokenKind) : w.Clear kind := by simp [Scene.Clear, htail]
  have hround := repeats_itemRound (hclear .dot) (hclear .slash)
  apply Repeats.collect hround advances_itemRound advances_itemRound
  · exact fun _ _ h => ⟨fun _ => htail, h⟩
  · exact fun _ r _ h => ⟨fun _ => htail, h.of_run (reads_items.run r)⟩

end Items

end Parser

end TypeGraph.Schema
