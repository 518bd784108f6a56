import TypeGraph.Proofs.Registry.Permanence
/-!
Writing a registry out leaves no trace but indentation, which nothing looks at except the output
itself, and which is set anew for each output.
-/

namespace TypeGraph

open Relation

namespace Declaration

/-- A declaration that is indented by `outer`, and its parts by one `unit` more. -/
structure StandsAt (outer unit : String) (d : Declaration) : Prop where
  indent : d.indent = outer
  fields : ∀ f ∈ d.fields, f.indent = outer ++ unit
  members : ∀ m ∈ d.members, m.indent = outer ++ unit

variable {outer inner outer' inner' : String} {d : Declaration}

theorem indented_indented :
    (d.indented outer inner).indented outer' inner' = d.indented outer' inner' := by
  obtain ⟨name, provenance, ty, doc, body, indent⟩ := d
  cases body <;> simp [Declaration.indented]

theorem standsAt_indented (outer unit : String) (d : Declaration) :
    (d.indented outer (outer ++ unit)).StandsAt outer unit := by
  refine ⟨rfl, ?_, ?_⟩ <;>
    cases hb : d.body <;>
    simp [Declaration.fields, Declaration.members, Declaration.indented, hb]

end Declaration

namespace Findings

/-- Findings without indentation. -/
def plain (found : Findings) : Findings :=
  { found with begun := found.begun.map (·.plain) }

variable {found : Findings} {d : Declaration} {slot : Slot}

theorem lookup_plain (found : Findings) (id : TypeId) :
    found.plain.lookup id = (found.lookup id).map (·.plain) := by
  simp only [lookup, slot?, plain, List.getElem?_map]
  cases found.seen.lookup id <;> rfl

theorem nameAt_plain (found : Findings) (slot : Slot) :
    found.plain.nameAt slot = found.nameAt slot := by
  simp only [nameAt, plain, List.getElem?_map]
  cases found.begun[slot]? <;> rfl

theorem nextSlot_plain (found : Findings) : found.plain.nextSlot = found.nextSlot :=
  List.length_map _

theorem enter_plain (hd : d.plain = d) : found.plain.enter d = (found.enter d).plain := by
  simp only [enter, nextSlot_plain]
  simp only [plain, List.map_append, List.map_singleton, hd]

theorem fill_plain {fields : List Field} (hfields : ∀ f ∈ fields, f.indent = "")
    (inherited : List String) : found.plain.fill slot (.interface fields inherited) =
      (found.fill slot (.interface fields inherited)).plain := by
  have hsame : fields.map (fun f => { f with indent := "" }) = fields := by
    refine (List.map_congr_left fun f hf => ?_).trans (List.map_id fields)
    rw [← hfields f hf, id]
  have hbody (d : Declaration) : ({ d with body := .interface fields inherited }).plain =
      { d.plain with body := .interface fields inherited } := by
    simp only [Declaration.plain, Declaration.indented, hsame]
  have hbegun : (found.plain.fill slot (.interface fields inherited)).begun =
      ((found.fill slot (.interface fields inherited)).plain).begun := by
    apply List.ext_getElem?
    intro i
    simp only [getElem?_begun_fill, plain, List.getElem?_map, Option.map_map]
    congr 1
    funext d
    simp only [Function.comp_apply]
    split
    · exact (hbody d).symm
    · rfl
  rw [Findings.mk.injEq]
  exact ⟨hbegun, rfl, rfl, rfl⟩

end Findings

namespace Catalog

variable {c : Catalog} {declare : Declare} {found : Findings} {id : TypeId}

/-- A way to declare structs that does not look at indentation. -/
def Heedless (declare : Declare) : Prop :=
  ∀ id name found, declare id name found.plain =
    (declare id name found).map fun result => (result.1, result.2.plain)

theorem plain_enumeration (c : Catalog) (id : TypeId) (name? package? : Option String) :
    (c.enumeration id name? package?).plain = c.enumeration id name? package? := by
  simp [enumeration, Declaration.plain, Declaration.indented, EnumMember.ofConstant]

theorem declareEnumeration_plain (c : Catalog) (id : TypeId) (name? package? : Option String)
    (found : Findings) : c.declareEnumeration id name? package? found.plain =
      ((c.declareEnumeration id name? package? found).1,
        (c.declareEnumeration id name? package? found).2.plain) := by
  have hslot : found.plain.slot? id = found.slot? id := rfl
  unfold declareEnumeration
  rw [hslot]
  cases found.slot? id with
  | some slot => rfl
  | none =>
    let d := c.enumeration id name? package?
    let noted := found.note (.enumDeclared d.name d.members.length)
    have henter : noted.plain.enter d = (noted.enter d).plain :=
      Findings.enter_plain (c.plain_enumeration id name? package?)
    simp only [Findings.nextSlot_plain, Prod.mk.injEq, true_and]
    exact congrArg (·.finish found.nextSlot) henter

theorem visitLeaf_plain (h : Heedless declare) (found : Findings) (leaf : Leaf) :
    c.visitLeaf declare found.plain leaf = (c.visitLeaf declare found leaf).map (·.plain) := by
  cases leaf with
  | aggregate id name =>
    simp only [visitLeaf, h id name found]
    cases declare id name found <;> rfl
  | enumeration id =>
    have hdeclared := c.declareEnumeration_plain id none none found
    exact congrArg (fun result => Except.ok result.2) hdeclared
  | inline | dangling => rfl

theorem visitLeaves_plain (h : Heedless declare) (leaves : List Leaf) (found : Findings) :
    leaves.foldlM (c.visitLeaf declare) found.plain =
      (leaves.foldlM (c.visitLeaf declare) found).map (·.plain) := by
  induction leaves generalizing found with
  | nil => rfl
  | cons leaf leaves ih =>
    simp only [List.foldlM_cons, visitLeaf_plain h]
    cases c.visitLeaf declare found leaf with
    | error e => rfl
    | ok found' => exact ih found'

theorem visitMember_plain (h : Heedless declare) (enclosing : String) (m : Member)
    (found : Findings) : c.visitMember declare enclosing m found.plain =
      (c.visitMember declare enclosing m found).map fun result => (result.1, result.2.plain) := by
  unfold visitMember
  cases c.part enclosing m with
  | error e => rfl
  | ok part =>
    simp only [bind, Except.bind]
    cases part with
    | nothing => rfl
    | field field =>
      simp only [visitLeaves_plain h]
      cases (c.leaves field.contextualName field.ty).foldlM (c.visitLeaf declare) found <;> rfl
    | base target field =>
      simp only
      split
      · rfl
      · rw [h]
        cases declare target _ found with
        | error e => rfl
        | ok result => simp only [Except.map, Findings.nameAt_plain]

theorem visitMembers_plain (h : Heedless declare) (enclosing : String) (ms : List Member)
    (found : Findings) : c.visitMembers declare enclosing ms found.plain =
      (c.visitMembers declare enclosing ms found).map fun result =>
        (result.1, result.2.plain) := by
  induction ms generalizing found with
  | nil => rfl
  | cons m ms ih =>
    simp only [visitMembers, bind, Except.bind, visitMember_plain h]
    cases c.visitMember declare enclosing m found with
    | error e => rfl
    | ok result =>
      simp only [Except.map, ih]
      cases c.visitMembers declare enclosing ms result.2 <;> rfl

/-- Fields are not indented while they are gathered. -/
theorem indent_visitMembers {enclosing : String} {ms : List Member} {found found' : Findings}
    {added : List Field × List String}
    (h : c.visitMembers declare enclosing ms found = .ok (added, found')) :
    ∀ f ∈ added.1, f.indent = "" := by
  induction ms generalizing found found' added with
  | nil =>
    obtain ⟨rfl, -⟩ := Prod.mk.inj (Except.ok.inj h)
    simp
  | cons m ms ih =>
    obtain ⟨⟨⟨fields, bases⟩, found₁⟩, hm, h⟩ := bind_eq_ok h
    obtain ⟨⟨⟨fields', bases'⟩, found₂⟩, hms, h⟩ := bind_eq_ok h
    obtain ⟨rfl, -⟩ := Prod.mk.inj (Except.ok.inj h)
    refine List.forall_mem_append.mpr ⟨?_, ih hms⟩
    obtain ⟨part, hp, hm⟩ := bind_eq_ok hm
    rcases part_eq_ok hp with ⟨-, rfl⟩ | ⟨-, -, rfl⟩ | ⟨-, -, -, -, -, rfl⟩
    · obtain ⟨⟨rfl, -⟩, -⟩ := Prod.mk.inj (Except.ok.inj hm) |>.imp_left Prod.mk.inj
      simp
    · obtain ⟨_, -, hm⟩ := bind_eq_ok hm
      obtain ⟨⟨rfl, -⟩, -⟩ := Prod.mk.inj (Except.ok.inj hm) |>.imp_left Prod.mk.inj
      exact List.forall_mem_singleton.mpr rfl
    · simp only at hm
      split at hm
      · obtain ⟨⟨rfl, -⟩, -⟩ := Prod.mk.inj (Except.ok.inj hm) |>.imp_left Prod.mk.inj
        simp
      · obtain ⟨_, -, hm⟩ := bind_eq_ok hm
        obtain ⟨⟨rfl, -⟩, -⟩ := Prod.mk.inj (Except.ok.inj hm) |>.imp_left Prod.mk.inj
        simp

/-- The declarations that are there already may be indented in any way. -/
theorem heedless_declare (c : Catalog) (depth : Nat) : Heedless (c.declare depth) := by
  induction depth with
  | zero => exact fun _ _ _ => rfl
  | succ depth ih =>
    intro id name found
    have hslot : found.plain.slot? id = found.slot? id := rfl
    simp only [declare, hslot]
    cases found.slot? id with
    | some slot => rfl
    | none =>
      cases c.types.get? id with
      | none => rfl
      | some own =>
        have henter : found.plain.enter (c.interface id name) =
            (found.enter (c.interface id name)).plain := Findings.enter_plain rfl
        simp only [bind, Except.bind, henter, visitMembers_plain ih, Findings.nextSlot_plain]
        cases hms : c.visitMembers (c.declare depth) name own.members
            (found.enter (c.interface id name)) with
        | error e => rfl
        | ok result =>
          obtain ⟨⟨fields, inherited⟩, found'⟩ := result
          simp only [Except.map, Findings.fill_plain (indent_visitMembers hms)]
          rfl

end Catalog

namespace Registry

/-! ### Calls that put out what is declared -/

/-- What takes a text: what of it arrives, and what goes wrong. -/
structure Receiver where
  received : String → String
  fault? : String → Option FileFault

/-- A receiver that takes a number of bytes. -/
def Receiver.limited (limit : Nat) : Receiver where
  received text :=
    if text.utf8ByteSize ≤ limit then text else String.ofList (cutAt limit text.toList)
  fault? text := if text.utf8ByteSize ≤ limit then none else some .full

/-- Renders with an assembler into a receiver, and gives what it received. -/
def renderInto (r : Registry) (assembler : Assembler) (receiver : Receiver) :
    String × Except Failure Unit × Registry :=
  let (result, r) := r.renderWith assembler
  match result with
  | .error f => ("", .error f, r)
  | .ok text =>
    (receiver.received text, (receiver.fault? text).elim (.ok ()) (.error <| .write ·), r)

/-- A call that puts out what is declared, or prepares it for that. -/
inductive Outlet
  | finish
  | render (receiver : Receiver)
  | renderWith (assembler : Assembler) (receiver : Receiver)
  | renderToString

/-- The registry that is left, whether the call succeeds or not. -/
def Outlet.apply (r : Registry) : Outlet → Registry
  | finish => r.finish
  | render receiver => (r.renderInto r.assembler receiver).2.2
  | renderWith assembler receiver => (r.renderInto assembler receiver).2.2
  | renderToString => r.render.2

/-- Any call on a registry. -/
inductive Move
  | output (outlet : Outlet)
  | attempt (g : Registration)
  | configure (settings : Settings) (annex : Annex) (assembler : Assembler)
  /-- Describes other types. -/
  | describe (types : TypeSet → TypeSet)

def Move.apply (r : Registry) : Move → Registry
  | output outlet => outlet.apply r
  | attempt g => (r.attempt g).2
  | configure settings annex assembler => { r with settings, annex, assembler }
  | describe types => { r with types := types r.types }

def Move.isOutput : Move → Bool
  | output _ => true
  | attempt _ | configure _ _ _ | describe _ => false

def after (r : Registry) (moves : List Move) : Registry :=
  moves.foldl Move.apply r

/-- A registry without indentation. -/
def plain (r : Registry) : Registry :=
  { r with findings := r.findings.plain }

/-- The indentation of declarations: one step inside a namespace. -/
def margin (r : Registry) : String :=
  if r.settings.scope.isSome then r.assembler.unit else ""

section Plain

variable {r r' : Registry}

/-- Rendering to a limit is rendering into a receiver of that limit. -/
theorem renderTo_eq_renderInto (r : Registry) (limit : Nat) :
    r.renderTo limit = r.renderInto r.assembler (.limited limit) := by
  unfold renderTo renderInto render
  obtain ⟨result, r'⟩ := r.renderWith r.assembler
  cases result with
  | error f => rfl
  | ok text =>
    simp only [Receiver.limited]
    split <;> rfl

theorem renderInto_snd (r : Registry) (assembler : Assembler) (receiver : Receiver) :
    (r.renderInto assembler receiver).2.2 = r.indented assembler.unit := by
  rw [← r.renderWith_snd assembler]
  unfold renderInto
  obtain ⟨result, r'⟩ := r.renderWith assembler
  cases result <;> rfl

theorem indented_indented (r : Registry) (unit unit' : String) :
    (r.indented unit).indented unit' = r.indented unit' := by
  simp only [indented, List.map_map, Function.comp_def, Declaration.indented_indented]
  rfl

theorem indented_plain (r : Registry) (unit : String) :
    r.plain.indented unit = r.indented unit := by
  simp only [indented, plain, Findings.plain, Declaration.plain, List.map_map, Function.comp_def,
    Declaration.indented_indented]
  rfl

theorem plain_of_indented (r : Registry) (unit : String) : (r.indented unit).plain = r.plain := by
  simp only [indented, plain, Findings.plain, Declaration.plain, List.map_map, Function.comp_def,
    Declaration.indented_indented]

/-- A call that puts something out indents, and does nothing else. -/
theorem Outlet.exists_apply_eq (outlet : Outlet) (r : Registry) :
    ∃ unit, outlet.apply r = r.indented unit := by
  cases outlet with
  | finish => exact ⟨_, rfl⟩
  | render receiver => exact ⟨_, r.renderInto_snd _ receiver⟩
  | renderWith assembler receiver => exact ⟨_, r.renderInto_snd assembler receiver⟩
  | renderToString => exact ⟨_, r.renderWith_snd _⟩

theorem discovered_plain (r : Registry) (g : Registration) (name : String) :
    r.plain.discovered g name = (r.discovered g name).map (·.plain) := by
  have hstruct : r.catalog.discover (g.target r.types) name r.findings.plain =
      (r.catalog.discover (g.target r.types) name r.findings).map (·.plain) := by
    simp only [Catalog.discover, r.catalog.heedless_declare _ (g.target r.types) name r.findings]
    cases r.catalog.declare _ (g.target r.types) name r.findings <;> rfl
  have henum := r.catalog.declareEnumeration_plain (g.target r.types) (some name)
  cases g with
  | addType id name? | registerAggregate id name? =>
    refine (congrArg (Except.mapError _) hstruct).trans ?_
    simp only [discovered]
    cases r.catalog.discover _ name r.findings <;> rfl
  | addEnumeration id name? package? | registerEnumeration id name? package? =>
    exact congrArg (fun result => Except.ok result.2) (henum package? r.findings)

/-- Registrations do not look at indentation. -/
theorem attempt_plain (r : Registry) (g : Registration) :
    r.plain.attempt g = ((r.attempt g).1.map (·.plain), (r.attempt g).2.plain) := by
  have htypes : r.plain.types = r.types := rfl
  have hname (x : TypeId) : r.plain.rootName x g.name? = r.rootName x g.name? := rfl
  exact attempt_map (htypes ▸ rfl) (htypes ▸ rfl) r.findings.lookup_plain hname
    (discovered_plain r g) Findings.lookup_plain fun found => rfl

/-- What a call does, but for indentation, does not depend on indentation. -/
theorem plain_apply (m : Move) (h : r.plain = r'.plain) :
    (m.apply r).plain = (m.apply r').plain := by
  cases m with
  | output outlet =>
    obtain ⟨unit, hr⟩ := outlet.exists_apply_eq r
    obtain ⟨unit', hr'⟩ := outlet.exists_apply_eq r'
    simp only [Move.apply, hr, hr', plain_of_indented, h]
  | attempt g =>
    have hattempt : (r.plain.attempt g).2 = (r'.plain.attempt g).2 := by rw [h]
    rw [attempt_plain, attempt_plain] at hattempt
    exact hattempt
  | configure settings annex assembler =>
    exact congrArg (fun r : Registry => { r with settings, annex, assembler }) h
  | describe types =>
    exact congrArg (fun r : Registry => { r with types := types r.types }) h

theorem plain_apply_of_isOutput {m : Move} (h : m.isOutput) : (m.apply r).plain = r.plain := by
  cases m with
  | output outlet =>
    obtain ⟨unit, hr⟩ := outlet.exists_apply_eq r
    simp only [Move.apply, hr, plain_of_indented]
  | attempt | configure | describe => cases h

/-- Whatever is put out on the way, the registry is in the end what it is without, but for
indentation. -/
theorem plain_after (moves : List Move) (h : r.plain = r'.plain) :
    (r.after moves).plain = (r'.after (moves.filter (!·.isOutput))).plain := by
  induction moves generalizing r r' with
  | nil => exact h
  | cons m moves ih =>
    cases hm : m.isOutput with
    | true =>
      rw [List.filter_cons_of_neg (by simp [hm])]
      exact ih ((plain_apply_of_isOutput hm).trans h)
    | false =>
      rw [List.filter_cons_of_pos (by simp [hm])]
      exact ih (plain_apply m h)

theorem indented_of_plain (h : r.plain = r'.plain) (unit : String) :
    r.indented unit = r'.indented unit := by
  rw [← r.indented_plain, h, r'.indented_plain]

theorem finish_of_plain (h : r.plain = r'.plain) : r.finish = r'.finish := by
  have hunit : r.assembler = r'.assembler := congrArg (·.assembler) h
  rw [finish, finish, hunit]
  exact indented_of_plain h _

theorem render_of_plain (h : r.plain = r'.plain) : r.render = r'.render := by
  have hunit : r.assembler = r'.assembler := congrArg (·.assembler) h
  simp only [render, renderWith, hunit, indented_of_plain h]

theorem standsAt_of_mem_finish {d : Declaration} (h : d ∈ r.finish.findings.begun) :
    d.StandsAt r.margin r.assembler.unit := by
  obtain ⟨d', -, rfl⟩ := List.mem_map.mp h
  exact d'.standsAt_indented _ _

/-- The calls of which registries are grown are moves. -/
theorem Change.exists_move (h : r.Change r') : ∃ m : Move, r' = m.apply r := by
  cases h with
  | attempt g => exact ⟨.attempt g, rfl⟩
  | configure settings annex assembler => exact ⟨.configure settings annex assembler, rfl⟩
  | call h =>
    cases h with
    | @register g d _ _ h =>
      exact ⟨.attempt g, (congrArg Prod.snd (perform_eq_ok.mp h)).symm⟩
    | finish => exact ⟨.output .finish, rfl⟩
    | render => exact ⟨.output .renderToString, rfl⟩
    | renderWith assembler =>
      refine ⟨.output (.renderWith assembler (.limited 0)), ?_⟩
      exact (r.renderWith_snd assembler).trans (r.renderInto_snd assembler _).symm
    | renderTo limit =>
      refine ⟨.output (.render (.limited limit)), ?_⟩
      rw [renderTo_eq_renderInto]
      rfl
    | setScope scope => exact ⟨.configure _ r.annex r.assembler, rfl⟩
    | @types types h => exact ⟨.describe fun _ => types, rfl⟩
    | build h =>
      obtain ⟨types, -, rfl⟩ := build_eq_ok h
      exact ⟨.describe fun _ => types, rfl⟩

theorem after_append (r : Registry) (moves moves' : List Move) :
    r.after (moves ++ moves') = (r.after moves).after moves' :=
  List.foldl_append

theorem exists_moves_of_changes (h : ReflTransGen Change r r') :
    ∃ moves : List Move, r' = r.after moves := by
  induction h with
  | refl => exact ⟨[], rfl⟩
  | tail _ hs ih =>
    obtain ⟨moves, rfl⟩ := ih
    obtain ⟨m, rfl⟩ := hs.exists_move
    exact ⟨moves ++ [m], (r.after_append moves [m]).symm⟩

end Plain

/-- Rendering does not disturb later rendering. However often, with whatever assemblers and
receivers, and with whatever success a registry is put out, nothing of it changes but indentation,
and it is finished and rendered as before. After any calls, finishing indents whatever was declared
for the namespace and the assembler that the registry has then; finishing once more changes
nothing; and the rendering is the same as if nothing had been put out on the way. -/
theorem rendering_leaves_no_trace (r : Registry) :
    (∀ outlets : List Outlet,
      let r' := r.after (outlets.map .output)
      r'.plain = r.plain ∧ r'.finish = r.finish ∧ r'.render = r.render) ∧
    (∀ moves : List Move,
      let r' := r.after moves
      (∀ d ∈ r'.finish.findings.begun, d.StandsAt r'.margin r'.assembler.unit) ∧
      r'.finish.finish = r'.finish ∧
      r'.render = (r.after (moves.filter (!·.isOutput))).render) ∧
    ∀ r', ReflTransGen Change r r' → ∃ moves : List Move, r' = r.after moves := by
  refine ⟨fun outlets => ?_, fun moves => ⟨fun d hd => standsAt_of_mem_finish hd, ?_, ?_⟩, ?_⟩
  · have hnone : (outlets.map Move.output).filter (!·.isOutput) = [] := by
      simp [Move.isOutput]
    have hplain : (r.after (outlets.map .output)).plain = r.plain := by
      rw [plain_after _ rfl, hnone]
      rfl
    exact ⟨hplain, finish_of_plain hplain, render_of_plain hplain⟩
  · exact indented_indented _ _ _
  · exact render_of_plain (plain_after moves rfl)
  · exact fun r' => exists_moves_of_changes

/-- A failed rendering with tabs is followed by another registration. -/
theorem linked_is_rendered_afresh :
    let r : Registry := { types := linked, settings := { scope := some "Api" } }
    let failing : Move := .output (.renderWith ⟨"\t", fun _ => none⟩ (.limited 3))
    let node : Move := .attempt (.addType ⟨8⟩ none)
    let kind : Move := .attempt (.registerEnumeration ⟨0⟩ (some "Kind") none)
    let r' := r.after [node, failing, kind]
    r'.finish.findings.begun.map (·.name) = ["Node", "Kind"] ∧
      (∀ d ∈ r'.finish.findings.begun, d.StandsAt "    " "    ") ∧
      (r.after [node, failing]).plain = (r.after [node]).plain ∧
      r'.render = (r.after [node, kind]).render := by
  intro r failing node kind r'
  obtain ⟨-, hafter, -⟩ := rendering_leaves_no_trace r
  obtain ⟨hindent, -, hrender⟩ := hafter [node, failing, kind]
  obtain ⟨houtputs, -, -⟩ := rendering_leaves_no_trace (r.after [node])
  have hplace : r'.margin = "    " ∧ r'.assembler.unit = "    " ∧
      r'.finish.findings.begun.map (·.name) = ["Node", "Kind"] := by decide +kernel
  obtain ⟨hmargin, hunit, hnames⟩ := hplace
  refine ⟨hnames, fun d hd => ?_, ?_, hrender⟩
  · have hd' := hindent d hd
    rwa [hmargin, hunit] at hd'
  · exact (houtputs [.renderWith ⟨"\t", fun _ => none⟩ (.limited 3)]).1

end Registry

end TypeGraph
