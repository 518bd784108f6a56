import TypeGraph.Proofs.Schema.WellFormed
import TypeGraph.Proofs.Schema.Words
/-!
Trees as text: one line for each item, member, variant and line of documentation. Only trees whose
parts can be written in the notation are printable; the spans of a tree are no part of its text.
-/

namespace TypeGraph.Schema

/-- Letters, digits and underscores, with no digit in front. -/
def Wordlike (s : String) : Prop :=
  ∃ c cs, s.toList = c :: cs ∧ isWordStart c ∧ ∀ d ∈ cs, isWordPart d

theorem wordlike_iff {s : String} :
    Wordlike s ↔ s.toList.head?.any isWordStart ∧ s.toList.all isWordPart := by
  unfold Wordlike
  cases s.toList with
  | nil => simp
  | cons c cs =>
    have hpart : isWordStart c → isWordPart c := by
      intro hstart
      simp only [isWordStart, isWordPart, Char.isAlphanum, Bool.or_eq_true] at hstart ⊢
      tauto
    constructor
    · rintro ⟨c', cs', heq, hstart, hparts⟩
      obtain ⟨rfl, rfl⟩ := List.cons.inj heq
      exact ⟨hstart, List.all_eq_true.mpr (List.forall_mem_cons.mpr ⟨hpart hstart, hparts⟩)⟩
    · rintro ⟨hstart, hparts⟩
      have hall := List.forall_mem_cons.mp (List.all_eq_true.mp hparts)
      exact ⟨c, cs, rfl, hstart, hall.2⟩

instance (s : String) : Decidable (Wordlike s) :=
  decidable_of_iff' _ wordlike_iff

/-- A name that is no keyword. -/
structure Identifier (s : String) : Prop where
  wordlike : Wordlike s
  kind : wordKind s.toList = .identifier

instance (s : String) : Decidable (Identifier s) :=
  decidable_of_iff (Wordlike s ∧ wordKind s.toList = .identifier)
    ⟨fun h => ⟨h.1, h.2⟩, fun h => ⟨h.wordlike, h.kind⟩⟩

/-- Documentation without blanks at the ends of its lines. -/
def Tidy (doc : Option String) : Prop :=
  ∀ text ∈ doc, ∀ line ∈ Text.lines text.toList, Text.trimEnd line = line

structure MemberDef.Printable (m : MemberDef TypeExpr) : Prop where
  name : if m.embedded then m.type.referredName = some m.name.text else Identifier m.name.text
  doc : Tidy m.doc

/-- What an expression asks for to be printed, apart from its parts. -/
def TypeExpr.PrintableAt : TypeExpr → Prop
  | .reference none name _ => Identifier name ∧ Scalar.ofKeyword? name = none
  | .reference (some package) name _ => Identifier package ∧ Identifier name
  | .record ms _ => ∀ m ∈ ms, m.Printable
  | .hole _ => False
  | _ => True

mutual

/-- How deep an expression nests. -/
def TypeExpr.depth : TypeExpr → Nat
  | .pointer target _ => target.depth + 1
  | .sequence element _ => element.depth + 1
  | .map key value _ => max key.depth value.depth + 1
  | .record ms _ => membersDepth ms + 1
  | _ => 1

def membersDepth : List (MemberDef TypeExpr) → Nat
  | [] => 0
  | ⟨_, type, _, _, _⟩ :: ms => max type.depth (membersDepth ms)

end

structure TypeExpr.Printable (x : TypeExpr) : Prop where
  parts : ∀ y, Within y x → y.PrintableAt
  depth : x.depth ≤ Parser.maxDepth

/-- Integers have an unsigned literal only where no signed one will do. -/
def Literal.Printable : Literal → Prop
  | .uint value => Nat.pow 2 63 ≤ value.toNat
  | .float _ => False
  | _ => True

structure Variant.Printable (v : Variant) : Prop where
  name : Identifier v.name.text
  value : Literal.Printable v.value
  doc : Tidy v.doc

structure StructDef.Printable (d : StructDef) : Prop where
  name : Identifier d.name.text
  doc : Tidy d.doc
  members : ∀ m ∈ d.members, m.Printable ∧ m.type.Printable

structure EnumDef.Printable (d : EnumDef) : Prop where
  name : Identifier d.name.text
  doc : Tidy d.doc
  base : Identifier d.base.text
  variants : ∀ v ∈ d.variants, v.Printable

structure SynonymDef.Printable (d : SynonymDef) : Prop where
  name : Identifier d.name.text
  doc : Tidy d.doc
  target : d.target.Printable

def Item.Printable : Item → Prop
  | .struct d => d.Printable
  | .enum d => d.Printable
  | .synonym d => d.Printable

def File.Printable (file : File) : Prop :=
  ∀ item ∈ file.items, item.Printable

section Bare

def Name.bare (n : Name) : Name :=
  { n with span := default }

def Attribute.bare (a : Attribute) : Attribute :=
  { a with span := default }

mutual

/-- The expression without its spans. -/
def TypeExpr.bare : TypeExpr → TypeExpr
  | .scalar kind _ => .scalar kind default
  | .reference package name _ => .reference package name default
  | .pointer target _ => .pointer target.bare default
  | .sequence element _ => .sequence element.bare default
  | .map key value _ => .map key.bare value.bare default
  | .record ms _ => .record (bareMembers ms) default
  | .hole _ => .hole default

def bareMembers : List (MemberDef TypeExpr) → List (MemberDef TypeExpr)
  | [] => []
  | ⟨name, type, embedded, attributes, doc⟩ :: ms =>
    ⟨name.bare, type.bare, embedded, attributes.map Attribute.bare, doc⟩ :: bareMembers ms

end

def MemberDef.bare (m : MemberDef TypeExpr) : MemberDef TypeExpr :=
  ⟨m.name.bare, m.type.bare, m.embedded, m.attributes.map Attribute.bare, m.doc⟩

def Variant.bare (v : Variant) : Variant :=
  { v with name := v.name.bare, valueSpan := default }

def Item.bare : Item → Item
  | .struct d => .struct { d with name := d.name.bare, members := d.members.map MemberDef.bare }
  | .enum d => .enum { d with
      name := d.name.bare, base := d.base.bare, variants := d.variants.map Variant.bare }
  | .synonym d => .synonym { d with name := d.name.bare, target := d.target.bare }

def PackageHeader.bare (h : PackageHeader) : PackageHeader :=
  { h with span := default }

/-- The file without its spans. -/
def File.bare (file : File) : File where
  source := file.source
  package := file.package.map PackageHeader.bare
  items := file.items.map Item.bare

theorem bareMembers_eq_map (ms : List (MemberDef TypeExpr)) :
    bareMembers ms = ms.map MemberDef.bare := by
  induction ms with
  | nil => rw [bareMembers, List.map_nil]
  | cons m ms ih => rw [bareMembers, ih, List.map_cons, MemberDef.bare]

end Bare

section Print

def indent (depth : Nat) : List Char :=
  List.replicate (4 * depth) ' '

def quotedChar (c : Char) : List Char :=
  if c = '\\' then ['\\', '\\']
  else if c = '"' then ['\\', '"']
  else if c = '\n' then ['\\', 'n']
  else [c]

def printString (s : String) : List Char :=
  '"' :: (s.toList.flatMap quotedChar ++ ['"'])

def printDoc (depth : Nat) (doc : Option String) : List Char :=
  doc.elim [] fun text => (Text.lines text.toList).flatMap fun line =>
    indent depth ++ ("/// ".toList ++ (line ++ ['\n']))

def AttributeKind.printArguments : AttributeKind → List Char
  | rename name => '(' :: (printString name ++ [')'])
  | _ => []

def Attribute.print (a : Attribute) : List Char :=
  ' ' :: '@' :: (a.kind.word.toList ++ a.kind.printArguments)

/-- What stands before the type of a member. -/
def printLead (name : String) (embedded : Bool) : List Char :=
  if embedded then "..".toList else name.toList ++ ": ".toList

def recordKeyword : List Char :=
  "struct".toList

/-- Lines in braces. -/
def printBlock (depth : Nat) (lines : List Char) : List Char :=
  " \x7b\n".toList ++ (lines ++ (indent depth ++ ['}']))

mutual

def TypeExpr.print : TypeExpr → Nat → List Char
  | .scalar kind _, _ => kind.keyword.toList
  | .reference none name _, _ => name.toList
  | .reference (some package) name _, _ => package.toList ++ '.' :: name.toList
  | .pointer target _, depth => '*' :: target.print depth
  | .sequence element _, depth => '[' :: (element.print depth ++ [']'])
  | .map key value _, depth =>
    '{' :: (key.print depth ++ (':' :: ' ' :: (value.print depth ++ ['}'])))
  | .record ms _, depth =>
    recordKeyword ++ printBlock depth (printMembers ms (depth + 1))
  | .hole _, _ => []

def printMembers : List (MemberDef TypeExpr) → Nat → List Char
  | [], _ => []
  | ⟨name, type, embedded, attributes, doc⟩ :: ms, depth =>
    printDoc depth doc ++ (indent depth ++ (printLead name.text embedded ++ (type.print depth ++
      (attributes.flatMap Attribute.print ++ ('\n' :: printMembers ms depth)))))

end

def Literal.print : Literal → List Char
  | .string value => printString value
  | .int value =>
    if 0 ≤ value.toInt then Nat.toDigits 10 value.toInt.natAbs
    else '-' :: Nat.toDigits 10 value.toInt.natAbs
  | .uint value => Nat.toDigits 10 value.toNat
  | .float _ => []

def Variant.print (v : Variant) : List Char :=
  printDoc 1 v.doc ++ (indent 1 ++ (v.name.text.toList ++ (" = ".toList ++
    (Literal.print v.value ++ ['\n']))))

def Item.print : Item → List Char
  | .struct d =>
    printDoc 0 d.doc ++ ("struct ".toList ++ (d.name.text.toList ++
      (printBlock 0 (printMembers d.members 1) ++ ['\n'])))
  | .enum d =>
    printDoc 0 d.doc ++ ("enum ".toList ++ (d.name.text.toList ++ (": ".toList ++
      (d.base.text.toList ++ (printBlock 0 (d.variants.flatMap Variant.print) ++ ['\n'])))))
  | .synonym d =>
    printDoc 0 d.doc ++ ("alias ".toList ++ (d.name.text.toList ++ (" = ".toList ++
      (d.target.print 0 ++ ['\n']))))

def PackageHeader.print (h : PackageHeader) : List Char :=
  "package ".toList ++ (printString h.path ++ ['\n'])

/-- The text of a file, a line for each part of it. -/
def File.print (file : File) : String :=
  String.ofList (file.package.elim [] PackageHeader.print ++ file.items.flatMap Item.print)

end Print

end TypeGraph.Schema
