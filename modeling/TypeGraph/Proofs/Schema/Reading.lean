import Mathlib.Logic.Relation
import TypeGraph.Schema.Parser
/-!
Reading in steps. Whatever the reader of the notation does, it reports an error, takes a token,
leaves an unreadable one with a report, or keeps a package header. As long as nothing is reported,
what it leaves of the tokens and what it answers go together.
-/

namespace TypeGraph.Schema

open Relation

namespace Reading

/-- One step of reading. -/
inductive Step (r : Reading) : Reading → Prop
  | report {kind : Diagnostic.Kind} (span : Span) (detail? : Option String)
      (related : List Diagnostic.Related) (hints : List String) (h : kind.severity = .error) :
      Step r (r.report kind span detail? related hints)
  | take {t : Token} {ts : List Token} (h : r.rest = t :: ts) (ht : t.kind ≠ .garbage) :
      Step r { r with rest := ts, lastStop := t.span.stop }
  | leave {t : Token} {ts : List Token} (h : r.rest = t :: ts) (ht : t.kind = .garbage) :
      Step r { r.report .unexpectedCharacter t.span none [] [] with rest := ts }
  | package (header : PackageHeader) (h : r.package = none) :
      Step r { r with package := some header }

abbrev Run : Reading → Reading → Prop :=
  ReflTransGen Step

/-- Nothing was reported so far. -/
def Silent (r : Reading) : Prop :=
  r.lastReport = none

/-- Where something was reported, an error is among the diagnostics. -/
def Told (r : Reading) : Prop :=
  ¬r.Silent → ∃ d ∈ r.diagnostics, d.isError

variable {r r' s : Reading} {t : Token} {ts us : List Token}
variable {kind : Diagnostic.Kind} {span : Span} {detail? : Option String}
variable {related : List Diagnostic.Related} {hints : List String}

theorem not_silent_report : ¬(r.report kind span detail? related hints).Silent := by
  unfold report Silent
  split
  · next h => simp [h]
  · simp

theorem told_report (h : r.Told) (hk : kind.severity = .error) :
    (r.report kind span detail? related hints).Told := by
  unfold report
  split
  · exact h
  · intro _
    refine ⟨_, List.mem_append_right _ (List.mem_singleton_self _), ?_⟩
    simp [Diagnostic.isError, Diagnostic.severity, Diagnostic.make, hk]

@[simp] theorem rest_report : (r.report kind span detail? related hints).rest = r.rest := by
  unfold report
  split <;> rfl

@[simp] theorem package_report :
    (r.report kind span detail? related hints).package = r.package := by
  unfold report
  split <;> rfl

theorem Step.silent (h : r.Step r') (hs : r'.Silent) : r.Silent := by
  cases h with
  | report | leave => exact absurd hs not_silent_report
  | take | package => exact hs

theorem Step.told (h : r.Step r') (ht : r.Told) : r'.Told := by
  cases h with
  | report span detail? related hints hk => exact told_report ht hk
  | @leave t ts h hg =>
    have hr : (r.report .unexpectedCharacter t.span none [] []).Told := told_report ht rfl
    exact hr
  | take | package => exact ht

theorem Step.rest (h : r.Step r') : r'.rest <:+ r.rest := by
  cases h with
  | report => simp
  | take h | leave h => exact h ▸ List.suffix_cons _ _
  | package => exact List.suffix_refl _

theorem Step.package_eq_none (h : r.Step r') (hr' : r'.package = none) : r.package = none := by
  cases h with
  | report | leave => exact package_report.symm.trans hr'
  | take => exact hr'
  | package => cases hr'

namespace Run

/-- Reports are never taken back. -/
theorem silent (h : r.Run r') (hs : r'.Silent) : r.Silent := by
  induction h with
  | refl => exact hs
  | tail _ hstep ih => exact ih (hstep.silent hs)

theorem told (h : r.Run r') (ht : r.Told) : r'.Told := by
  induction h with
  | refl => exact ht
  | tail _ hstep ih => exact hstep.told ih

theorem rest (h : r.Run r') : r'.rest <:+ r.rest := by
  induction h with
  | refl => exact List.suffix_refl _
  | tail _ hstep ih => exact hstep.rest.trans ih

theorem package_eq_none (h : r.Run r') (hr' : r'.package = none) : r.package = none := by
  induction h with
  | refl => exact hr'
  | tail _ hstep ih => exact ih (hstep.package_eq_none hr')

end Run

theorem skipGarbage_with_rest (r : Reading) (ts us : List Token) :
    ({ r with rest := us } : Reading).skipGarbage ts = r.skipGarbage ts := by
  induction ts generalizing r with
  | nil => rfl
  | cons t ts ih =>
    rw [skipGarbage, skipGarbage]
    split
    · have hr : ({ r with rest := us } : Reading).report .unexpectedCharacter t.span none [] [] =
          { r.report .unexpectedCharacter t.span none [] [] with rest := us } := by
        unfold report
        split <;> rfl
      rw [hr]
      exact ih _
    · rfl

theorem skipGarbage_with_package (r : Reading) (ts : List Token)
    (package : Option PackageHeader) : ({ r with package } : Reading).skipGarbage ts =
      { r.skipGarbage ts with package } := by
  induction ts generalizing r with
  | nil => rfl
  | cons t ts ih =>
    rw [skipGarbage, skipGarbage]
    split
    · have hr : ({ r with package } : Reading).report .unexpectedCharacter t.span none [] [] =
          { r.report .unexpectedCharacter t.span none [] [] with package } := by
        unfold report
        split <;> rfl
      rw [hr]
      exact ih _
    · rfl

theorem package_skipGarbage : (r.skipGarbage ts).package = r.package := by
  have hsame := congrArg Reading.package (skipGarbage_with_package r ts r.package)
  exact hsame

theorem run_skipGarbage (h : r.rest = ts) : r.Run (r.skipGarbage ts) := by
  induction ts generalizing r with
  | nil =>
    have hr : r.skipGarbage [] = r := by
      rw [skipGarbage, ← h]
    rw [hr]
  | cons t ts ih =>
    rw [skipGarbage]
    split
    · next hg =>
      refine .head (.leave h hg) ?_
      rw [← skipGarbage_with_rest _ ts ts]
      exact ih rfl
    · rw [← h]

theorem readable_skipGarbage (r : Reading) (ts : List Token) :
    ∀ t ∈ (r.skipGarbage ts).rest.head?, t.kind ≠ .garbage := by
  induction ts generalizing r with
  | nil => simp [skipGarbage]
  | cons t ts ih =>
    rw [skipGarbage]
    split
    · exact ih _
    · next hg => simpa using hg

theorem rest_skipGarbage (r : Reading) (ts : List Token) :
    (r.skipGarbage ts).rest = ts.dropWhile (·.kind = .garbage) := by
  induction ts generalizing r with
  | nil => rfl
  | cons t ts ih =>
    rw [skipGarbage, List.dropWhile_cons]
    split
    · next hg => simpa [hg] using ih _
    · next hg => simp [hg]

/-- In silence nothing unreadable was met. -/
theorem skipGarbage_of_silent (h : r.rest = ts) (hs : (r.skipGarbage ts).Silent) :
    r.skipGarbage ts = r := by
  cases ts with
  | nil => rw [skipGarbage, ← h]
  | cons t ts =>
    rw [skipGarbage] at hs ⊢
    split at hs
    · next hg =>
      rw [← skipGarbage_with_rest _ ts ts] at hs
      exact absurd ((run_skipGarbage rfl).silent hs) not_silent_report
    · next hg => rw [if_neg hg, ← h]

/-- What was taken of the tokens from one point of reading to another. -/
structure Took (r : Reading) (ts : List Token) (r' : Reading) : Prop where
  rest : r.rest = ts ++ r'.rest
  package : r'.package = r.package

namespace Took

theorem refl (r : Reading) : r.Took [] r :=
  ⟨rfl, rfl⟩

theorem trans (h : r.Took ts s) (k : s.Took us r') : r.Took (ts ++ us) r' :=
  ⟨by rw [h.rest, k.rest, List.append_assoc], k.package.trans h.package⟩

theorem lt (h : r.Took ts r') (hne : ts ≠ []) : r'.rest.length < r.rest.length := by
  have hlen := congrArg List.length h.rest
  rw [List.length_append] at hlen
  have hpos := List.length_pos_iff.mpr hne
  omega

end Took

end Reading

namespace Parser

variable {α β : Type} {m : Parser α} {f : α → Parser β} {r : Reading}
variable {P : Reading → α → Reading → Prop} {Q : Reading → β → Reading → Prop}

/-- Work of the reader: a run of steps, whose result `Q` holds of if nothing was reported. -/
structure Reads (m : Parser α) (Q : Reading → α → Reading → Prop) : Prop where
  run : ∀ r : Reading, r.Run (m r).2
  result : ∀ r : Reading, (m r).2.Silent → Q r (m r).1 (m r).2

/-- Work of which only the steps matter. -/
abbrev Runs (m : Parser α) : Prop :=
  Reads m fun _ _ _ => True

/-- Work that always reports something. -/
abbrev Complains (m : Parser α) : Prop :=
  Reads m fun _ _ _ => False

theorem run_bind (m : Parser α) (f : α → Parser β) (r : Reading) :
    (m >>= f) r = f (m r).1 (m r).2 :=
  rfl

theorem run_get (r : Reading) : (get : Parser Reading) r = (r, r) :=
  rfl

theorem Reads.mono {P' : Reading → α → Reading → Prop} (h : Reads m P)
    (hp : ∀ r a r', P r a r' → P' r a r') : Reads m P' :=
  ⟨h.run, fun r hs => hp _ _ _ (h.result r hs)⟩

theorem Reads.runs (h : Reads m P) : Runs m :=
  h.mono fun _ _ _ _ => trivial

theorem Complains.reads (h : Complains m) : Reads m P :=
  h.mono fun _ _ _ => False.elim

theorem Reads.pure {a : α} (h : ∀ r, P r a r) : Reads (Pure.pure a) P :=
  ⟨fun _ => .refl, fun r _ => h r⟩

/-- What holds of the first part is known when the second part is done, as both were silent then. -/
theorem Reads.bind (hm : Reads m P)
    (hf : ∀ a, Reads (f a) fun s b r' => ∀ r, P r a s → Q r b r') : Reads (m >>= f) Q := by
  constructor
  · intro r
    rw [run_bind]
    exact (hm.run r).trans ((hf _).run _)
  · intro r hs
    rw [run_bind] at hs ⊢
    have hsilent := ((hf _).run _).silent hs
    exact (hf _).result _ hs r (hm.result r hsilent)

theorem Complains.bind (hm : Complains m) (hf : ∀ a, Runs (f a)) : Complains (m >>= f) :=
  Reads.bind hm fun a => (hf a).mono fun _ _ _ _ _ h => h

theorem Runs.bind_complains (hm : Runs m) (hf : ∀ a, Complains (f a)) : Complains (m >>= f) :=
  Reads.bind hm fun a => (hf a).reads

theorem Runs.bind (hm : Runs m) (hf : ∀ a, Runs (f a)) : Runs (m >>= f) :=
  Reads.bind hm fun a => (hf a).mono fun _ _ _ _ _ _ => trivial

/-- Work that gives something whenever nothing is reported. -/
abbrev Gives (m : Parser (Option α)) (P : Reading → α → Reading → Prop) : Prop :=
  Reads m fun r a? r' => ∃ a, a? = some a ∧ P r a r'

theorem Gives.pure {a : α} (h : ∀ r, P r a r) : Gives (Pure.pure (some a)) P :=
  Reads.pure fun r => ⟨a, rfl, h r⟩

theorem Gives.bind {m : Parser (Option α)} {f : Option α → Parser β} (hm : Gives m P)
    (hnone : Runs (f none))
    (hsome : ∀ a, Reads (f (some a)) fun s b r' => ∀ r, P r a s → Q r b r') :
    Reads (m >>= f) Q := by
  refine Reads.bind hm fun a? => ?_
  cases a? with
  | none =>
    refine hnone.mono fun s b r' _ r h => ?_
    obtain ⟨a, ha, -⟩ := h
    exact absurd ha (by simp)
  | some a =>
    refine (hsome a).mono fun s b r' hQ r h => ?_
    obtain ⟨a', ha, hP⟩ := h
    obtain rfl := Option.some.inj ha
    exact hQ r hP

theorem collect_eq (round : Parser (List α × Bool)) (r : Reading) : collect round r =
    if (round r).1.2 ∧ (round r).2.rest.length < r.rest.length then
      ((round r).1.1 ++ (collect round (round r).2).1, (collect round (round r).2).2)
    else ((round r).1.1, (round r).2) := by
  rw [collect]
  rfl

theorem runs_collect {round : Parser (List α × Bool)} (hround : Runs round) :
    Runs (collect round) := by
  have step (r : Reading) : r.Run (collect round r).2 := by
    induction hn : r.rest.length using Nat.strongRecOn generalizing r with
    | ind n ih =>
      subst hn
      have hrun := hround.run r
      rw [collect]
      generalize round r = x at hrun ⊢
      obtain ⟨⟨found, goOn⟩, s⟩ := x
      simp only at hrun ⊢
      split
      · next hgo => exact hrun.trans (ih _ hgo.2 s rfl)
      · exact hrun
  exact ⟨step, fun _ _ => trivial⟩

/-- `S` holds of every round that asks to go on, and what `T` holds of the last round it holds of
all of them. -/
theorem reads_collect {round : Parser (List α × Bool)} {S T : Reading → List α → Reading → Prop}
    (hround : Reads round fun r x r' =>
      if x.2 then S r x.1 r' ∧ r'.rest.length < r.rest.length else T r x.1 r')
    (hjoin : ∀ r s r' xs ys, S r xs s → T s ys r' → T r (xs ++ ys) r') :
    Reads (collect round) T := by
  have hruns : Runs (collect round) := runs_collect hround.runs
  refine ⟨hruns.run, fun r hs => ?_⟩
  -- on the tokens that are left: a round that asks to go on has taken one
  induction hn : r.rest.length using Nat.strongRecOn generalizing r with
  | ind n ih =>
    subst hn
    have hres := hround.result r
    rw [collect] at hs ⊢
    generalize round r = x at hres hs ⊢
    obtain ⟨⟨found, goOn⟩, s⟩ := x
    simp only at hres hs ⊢
    split at hs
    · next hgo =>
      rw [if_pos hgo]
      have hS := hres ((hruns.run s).silent hs)
      rw [if_pos hgo.1] at hS
      exact hjoin _ _ _ _ _ hS.1 (ih _ hgo.2 s hs rfl)
    · next hgo =>
      rw [if_neg hgo]
      have hS := hres hs
      cases goOn with
      | true => exact absurd ⟨rfl, hS.2⟩ hgo
      | false => exact hS

theorem reads_get : Reads get fun r a r' => a = r ∧ r' = r :=
  ⟨fun _ => .refl, fun _ _ => ⟨rfl, rfl⟩⟩

theorem complains_report {kind : Diagnostic.Kind} (span : Span) (detail? : Option String)
    (related : List Diagnostic.Related) (hints : List String) (hk : kind.severity = .error) :
    Complains (report kind span detail? related hints) := by
  constructor
  · intro r
    exact .single (.report span detail? related hints hk)
  · intro r hs
    exact Reading.not_silent_report hs

theorem current_fst (r : Reading) : (current r).1 = (current r).2.rest.head? :=
  rfl

theorem current_snd (r : Reading) : (current r).2 = r.skipGarbage r.rest :=
  rfl

theorem reads_current : Reads current fun r t? r' => r' = r ∧ t? = r.rest.head? := by
  constructor
  · exact fun r => Reading.run_skipGarbage rfl
  · intro r hs
    rw [current_fst, current_snd, Reading.skipGarbage_of_silent rfl hs]
    exact ⟨rfl, rfl⟩

theorem reads_currentKind : Reads currentKind fun r kind? r' =>
    r' = r ∧ kind? = r.rest.head?.map (·.kind) := by
  unfold currentKind
  refine reads_current.bind fun t? => .pure fun s r h => ?_
  obtain ⟨rfl, rfl⟩ := h
  exact ⟨rfl, rfl⟩

theorem reads_currentSpan : Reads currentSpan fun r span r' =>
    r' = r ∧ ∀ t ∈ r.rest.head?, span = t.span := by
  unfold currentSpan
  refine reads_current.bind fun t? => ?_
  cases t? with
  | some t =>
    refine .pure fun s r h => ?_
    obtain ⟨rfl, ht⟩ := h
    refine ⟨rfl, ?_⟩
    rw [← ht]
    simp
  | none =>
    refine reads_get.bind fun a => .pure fun s s' h r h' => ?_
    obtain ⟨rfl, rfl⟩ := h
    obtain ⟨rfl, ht⟩ := h'
    refine ⟨rfl, ?_⟩
    rw [← ht]
    simp

theorem bump_eq_nil {r : Reading} (h : (current r).2.rest = []) :
    bump r = currentSpan (current r).2 := by
  have hc : (current r).1 = none := by
    rw [current_fst, h]
    rfl
  unfold bump
  rw [run_bind, hc]

theorem bump_eq_cons {r : Reading} {t : Token} {ts : List Token}
    (h : (current r).2.rest = t :: ts) :
    bump r = (t.span, { (current r).2 with rest := ts, lastStop := t.span.stop }) := by
  have hc : (current r).1 = some t := by
    rw [current_fst, h]
    rfl
  have htail : ts = (current r).2.rest.tail := by rw [h]; rfl
  unfold bump
  rw [run_bind, hc, htail]
  rfl

/-- The next token is readable. -/
def Settled (r : Reading) : Prop :=
  ∀ t ∈ r.rest.head?, t.kind ≠ .garbage

theorem settled_of_cons {t : Token} {ts : List Token} (hrest : r.rest = t :: ts)
    (ht : t.kind ≠ .garbage) : Settled r := by
  intro u hu
  rw [hrest] at hu
  obtain rfl := Option.some.inj hu
  exact ht

theorem settled_of_nil (hrest : r.rest = []) : Settled r := by
  simp [Settled, hrest]

theorem current_of_settled (h : Settled r) : current r = (r.rest.head?, r) := by
  have hskip : (current r).2 = r := by
    rw [current_snd]
    cases hrest : r.rest with
    | nil => rw [Reading.skipGarbage, ← hrest]
    | cons t ts =>
      have ht : t.kind ≠ .garbage := h t (by rw [hrest]; rfl)
      rw [Reading.skipGarbage, if_neg ht, ← hrest]
  exact Prod.ext (by rw [current_fst, hskip]) hskip

theorem currentKind_of_settled (h : Settled r) :
    currentKind r = (r.rest.head?.map (·.kind), r) := by
  rw [currentKind, run_bind, current_of_settled h]
  rfl

theorem currentKind_of_cons {t : Token} {ts : List Token} (hrest : r.rest = t :: ts)
    (ht : t.kind ≠ .garbage) : currentKind r = (some t.kind, r) := by
  rw [currentKind_of_settled (settled_of_cons hrest ht), hrest]
  rfl

theorem currentSpan_of_settled (h : Settled r) {t : Token} {ts : List Token}
    (hrest : r.rest = t :: ts) : currentSpan r = (t.span, r) := by
  rw [currentSpan, run_bind, current_of_settled h, hrest]
  rfl

theorem fail_of_settled {kind : Diagnostic.Kind} {detail? : Option String} (h : Settled r)
    {t : Token} {ts : List Token} (hrest : r.rest = t :: ts) :
    fail kind detail? r = ((), r.report kind t.span detail? [] []) := by
  rw [fail, run_bind, currentSpan_of_settled h hrest]
  rfl

theorem settled_current (r : Reading) : Settled (current r).2 :=
  Reading.readable_skipGarbage r r.rest

theorem current_current (r : Reading) : current (current r).2 = current r := by
  rw [current_of_settled (settled_current r)]
  rfl

theorem settled_of_silent (h : (current r).2.Silent) : Settled r := by
  have hsame : (current r).2 = r := Reading.skipGarbage_of_silent rfl h
  rw [← hsame]
  exact settled_current r

theorem bump_of_settled (h : Settled r) {t : Token} {ts : List Token}
    (hrest : r.rest = t :: ts) :
    bump r = (t.span, { r with rest := ts, lastStop := t.span.stop }) := by
  have hcurrent := current_of_settled h
  have hnext : (current r).2.rest = t :: ts := by rw [hcurrent, hrest]
  rw [bump_eq_cons hnext, hcurrent]

theorem eat_of_nil {kind : TokenKind} (hrest : r.rest = []) : eat kind r = (none, r) := by
  rw [eat, run_bind, current_of_settled (settled_of_nil hrest), hrest]
  rfl

theorem eat_of_kind {kind : TokenKind} (h : Settled r) {t : Token} {ts : List Token}
    (hrest : r.rest = t :: ts) (hk : t.kind = kind) :
    eat kind r = (some t, { r with rest := ts, lastStop := t.span.stop }) := by
  rw [eat, run_bind, current_of_settled h, hrest]
  simp only [List.head?_cons, if_pos hk]
  rw [run_bind, bump_of_settled h hrest]
  rfl

theorem eat_of_other {kind : TokenKind} (h : Settled r) {t : Token} {ts : List Token}
    (hrest : r.rest = t :: ts) (hk : t.kind ≠ kind) :
    eat kind r = (none, r) := by
  rw [eat, run_bind, current_of_settled h, hrest]
  simp only [List.head?_cons, if_neg hk]
  rfl

/-- Whatever begins with a look at the next token can begin behind the unreadable ones. -/
theorem eat_current (kind : TokenKind) (r : Reading) : eat kind (current r).2 = eat kind r := by
  rw [eat, run_bind, run_bind, current_current]

theorem eat_eq_some {kind : TokenKind} {t : Token} (h : (eat kind r).1 = some t) :
    t.kind = kind ∧ (current r).2.rest = t :: (eat kind r).2.rest := by
  rw [← eat_current] at h ⊢
  have hsettled := settled_current r
  cases hs : (current r).2.rest with
  | nil =>
    rw [eat_of_nil hs] at h
    cases h
  | cons u us =>
    by_cases hk : u.kind = kind
    · rw [eat_of_kind hsettled hs hk] at h ⊢
      obtain rfl := Option.some.inj h
      exact ⟨hk, rfl⟩
    · rw [eat_of_other hsettled hs hk] at h
      cases h

/-- Nothing at the end of the text, or else the next token. -/
def Bumped (r : Reading) (span : Span) (r' : Reading) : Prop :=
  (r.rest = [] ∧ r' = r) ∨ ∃ t, r.Took [t] r' ∧ span = t.span

theorem reads_bump : Reads bump Bumped := by
  constructor
  · intro r
    have hrun : r.Run (current r).2 := reads_current.run r
    rcases h : (current r).2.rest with _ | ⟨t, ts⟩
    · rw [bump_eq_nil h]
      exact hrun.trans (reads_currentSpan.run _)
    · rw [bump_eq_cons h]
      have ht : t.kind ≠ .garbage := by
        apply Reading.readable_skipGarbage r r.rest
        rw [← current_snd, h]
        rfl
      exact hrun.tail (.take h ht)
  · intro r hs
    rcases h : (current r).2.rest with _ | ⟨t, ts⟩
    · rw [bump_eq_nil h] at hs ⊢
      have hcur := (reads_currentSpan.run _).silent hs
      obtain ⟨hr, -⟩ := reads_current.result r hcur
      obtain ⟨hr', -⟩ := reads_currentSpan.result _ hs
      refine .inl ⟨hr ▸ h, hr'.trans hr⟩
    · rw [bump_eq_cons h] at hs ⊢
      have hcur : (current r).2.Silent := hs
      obtain ⟨hr, -⟩ := reads_current.result r hcur
      rw [hr] at h ⊢
      exact .inr ⟨t, ⟨h, rfl⟩, rfl⟩

end Parser

/-- The start of the reading of a source. -/
def Reading.start (source : SourceId) (text : String) : Reading :=
  { source, stop := text.utf8ByteSize, rest := tokens text }

theorem parse_eq (source : SourceId) (text : String) :
    parse source text =
      ({ source, package := (Parser.items (.start source text)).2.package,
         items := (Parser.items (.start source text)).1 },
        (Parser.items (.start source text)).2.diagnostics) :=
  rfl

end TypeGraph.Schema
