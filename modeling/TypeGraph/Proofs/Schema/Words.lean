import TypeGraph.Schema.Parser
/-!
What tokens say, whatever their spelling, and how a tree is said in words.
-/

namespace TypeGraph.Schema

inductive Word where
  | mark (kind : TokenKind)
  | name (text : String)
  /-- Without a value where the token denotes none. -/
  | literal (value? : Option Literal)
  /-- A line of documentation. -/
  | doc (line : String)
  deriving DecidableEq

def Token.word (t : Token) : Word :=
  match t.kind with
  | .identifier => .name t.text
  | .string => .literal (some (.string (stringValue t.text)))
  | .integer => .literal (Parser.integerLiteral t.text)
  | .float => .literal ((Binary64.ofText? t.text).map .float)
  | .docComment => .doc (String.ofList (docLine t.text.toList))
  | kind => .mark kind

/-- Separators and documentation may stand at many places where the tree does not keep them. -/
def Word.matters : Word → Bool
  | .mark kind => kind != .comma && kind != .semicolon
  | .doc _ => false
  | _ => true

def plain (ws : List Word) : List Word :=
  ws.filter Word.matters

/-- What tokens say, apart from separators and documentation. -/
def said (ts : List Token) : List Word :=
  plain (ts.map Token.word)

def docWords (doc : Option String) : List Word :=
  doc.elim [] fun text => (Text.lines text.toList).map fun line => .doc (String.ofList line)

namespace AttributeKind

def word : AttributeKind → String
  | skip => "skip"
  | optional => "optional"
  | rename _ => "rename"

def arguments : AttributeKind → List Word
  | rename name => [.mark .leftParen, .literal (some (.string name)), .mark .rightParen]
  | _ => []

end AttributeKind

def Attribute.words (a : Attribute) : List Word :=
  .mark .atSign :: .name a.kind.word :: a.kind.arguments

/-- What stands before the type of a member. -/
def leadWords (name : String) (embedded : Bool) : List Word :=
  if embedded then [.mark .dotDot] else [.name name, .mark .colon]

mutual

def TypeExpr.words : TypeExpr → List Word
  | .scalar kind _ => [.name kind.keyword]
  | .reference none name _ => [.name name]
  | .reference (some package) name _ => [.name package, .mark .dot, .name name]
  | .pointer target _ => .mark .star :: target.words
  | .sequence element _ => .mark .leftBracket :: (element.words ++ [.mark .rightBracket])
  | .map key value _ =>
    .mark .leftBrace :: (key.words ++ (.mark .colon :: (value.words ++ [.mark .rightBrace])))
  | .record members _ =>
    .mark .structKeyword :: .mark .leftBrace :: (memberWords members ++ [.mark .rightBrace])
  | .hole _ => []

def memberWords : List (MemberDef TypeExpr) → List Word
  | [] => []
  | ⟨name, type, embedded, attributes, doc⟩ :: rest =>
    docWords doc ++ (leadWords name.text embedded ++
      (type.words ++ attributes.flatMap Attribute.words)) ++ memberWords rest

end

def MemberDef.words (m : MemberDef TypeExpr) : List Word :=
  docWords m.doc ++ (leadWords m.name.text m.embedded ++
    (m.type.words ++ m.attributes.flatMap Attribute.words))

theorem memberWords_eq_flatMap (ms : List (MemberDef TypeExpr)) :
    memberWords ms = ms.flatMap MemberDef.words := by
  induction ms with
  | nil => rw [memberWords, List.flatMap_nil]
  | cons m ms ih => rw [memberWords, ih, List.flatMap_cons, MemberDef.words]

def Variant.words (v : Variant) : List Word :=
  docWords v.doc ++ [.name v.name.text, .mark .equals, .literal (some v.value)]

def Item.words : Item → List Word
  | .struct d =>
    docWords d.doc ++ [.mark .structKeyword, .name d.name.text, .mark .leftBrace] ++
      d.members.flatMap MemberDef.words ++ [.mark .rightBrace]
  | .enum d =>
    docWords d.doc ++ [.mark .enumKeyword, .name d.name.text, .mark .colon, .name d.base.text,
      .mark .leftBrace] ++ d.variants.flatMap Variant.words ++ [.mark .rightBrace]
  | .synonym d =>
    docWords d.doc ++ [.mark .aliasKeyword, .name d.name.text, .mark .equals] ++ d.target.words

@[simp] theorem plain_nil : plain [] = [] :=
  rfl

@[simp] theorem plain_append (ws vs : List Word) : plain (ws ++ vs) = plain ws ++ plain vs :=
  List.filter_append ws vs

@[simp] theorem plain_docWords (doc : Option String) : plain (docWords doc) = [] := by
  cases doc <;> simp [plain, docWords, Word.matters]

theorem Item.words_ne_nil (item : Item) : plain item.words ≠ [] := by
  cases item <;> simp [Item.words, plain, Word.matters]

@[simp] theorem said_append (ts us : List Token) : said (ts ++ us) = said ts ++ said us := by
  simp [said]

end TypeGraph.Schema
