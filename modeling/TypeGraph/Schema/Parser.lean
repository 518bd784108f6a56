import TypeGraph.Diagnostic
import TypeGraph.Schema.Token
import TypeGraph.Schema.Tree
/-!
Reading a file of the schema notation. Reading never gives up: what does not fit is reported, and
reading goes on at the next item, or inside a block at the next member.
-/

namespace TypeGraph.Schema

/-- How far the reading of a source has come. -/
structure Reading where
  source : SourceId
  /-- Where the text ends. -/
  stop : Nat
  rest : List Token
  /-- Where the token read last ends. -/
  lastStop : Nat := 0
  package : Option PackageHeader := none
  diagnostics : List Diagnostic := []
  /-- Where the diagnostic reported last begins. -/
  lastReport : Option Nat := none

/-- Reports a diagnostic, unless the last one begins at the same place. -/
def Reading.report (r : Reading) (kind : Diagnostic.Kind) (span : Span) (detail? : Option String)
    (related : List Diagnostic.Related) (hints : List String) : Reading :=
  if r.lastReport = some span.start then r
  else { r with
    lastReport := some span.start
    diagnostics := r.diagnostics ++ [.make r.source kind span detail? related hints] }

/-- Goes on with `tokens`, without the unreadable ones at their front, which are reported. -/
def Reading.skipGarbage (r : Reading) : List Token → Reading
  | [] => { r with rest := [] }
  | t :: ts =>
    if t.kind = .garbage then
      (r.report .unexpectedCharacter t.span none [] []).skipGarbage ts
    else { r with rest := t :: ts }

abbrev Parser := StateM Reading

namespace Parser

def report (kind : Diagnostic.Kind) (span : Span) (detail? : Option String)
    (related : List Diagnostic.Related) (hints : List String) : Parser Unit :=
  modify (·.report kind span detail? related hints)

/-- The next token. -/
def current : Parser (Option Token) := do
  modify fun r => r.skipGarbage r.rest
  return (← get).rest.head?

def currentKind : Parser (Option TokenKind) :=
  return (← current).map (·.kind)

/-- The span of the next token, at the end of the text an empty one. -/
def currentSpan : Parser Span := do
  match ← current with
  | some t => return t.span
  | none =>
    let stop := (← get).stop
    return ⟨stop, stop⟩

/-- Takes the next token. -/
def bump : Parser Span := do
  match ← current with
  | some t =>
    modify fun r => { r with rest := r.rest.tail, lastStop := t.span.stop }
    return t.span
  | none => currentSpan

/-- Takes the next token if it is of this kind. -/
def eat (kind : TokenKind) : Parser (Option Token) := do
  match ← current with
  | some t =>
    if t.kind = kind then
      let _ ← bump
      return some t
    else return none
  | none => return none

/-- Reports a diagnostic at the next token. -/
def fail (kind : Diagnostic.Kind) (detail? : Option String) : Parser Unit := do
  report kind (← currentSpan) detail? [] []

/-- Takes the next token, or reports that it is not of this kind. -/
def expect (kind : TokenKind) : Parser (Option Token) := do
  match ← eat kind with
  | some t => return some t
  | none =>
    fail .expectedToken (some kind.label)
    return none

/-- Runs rounds until one asks to stop, and collects what they give. Every round that asks to go on
takes a token, so the guard holds whenever it is tested. -/
def collect (round : Parser (List α × Bool)) (r : Reading) : List α × Reading :=
  match round r with
  | ((found, goOn), s) =>
    if goOn ∧ s.rest.length < r.rest.length then
      let (more, t) := collect round s
      (found ++ more, t)
    else (found, s)
termination_by r.rest.length

def skipRound (stops : List Token → Bool) : Parser (List Unit × Bool) := do
  match ← current with
  | none => return ([], false)
  | some _ =>
    if stops (← get).rest then return ([], false)
    else
      let _ ← bump
      return ([], true)

/-- Takes tokens until `stops` holds of what is left. -/
def skipUntil (stops : List Token → Bool) : Parser Unit := do
  let _ ← collect (skipRound stops)

/-- Whether an item or its documentation begins here. -/
def atItem : List Token → Bool
  | t :: _ => t.kind.startsItem || t.kind == .docComment
  | [] => false

/-- Whether a member or the end of a block begins here. -/
def atMember : List Token → Bool
  | [] => false
  | t :: ts =>
    match t.kind with
    | .rightBrace | .dotDot | .docComment | .comma | .semicolon => true
    | .identifier =>
      match (ts.filter (·.kind ≠ .garbage)).head? with
      | some next => next.kind == .colon || next.kind == .equals
      | none => false
    | kind => kind.startsItem

/-- Leaves the token that does not fit and what follows it, up to the next item. -/
def recoverToItem : Parser Unit := do
  let _ ← bump
  skipUntil atItem

/-- Leaves the token that does not fit and what follows it, up to the next member. -/
def recoverInBlock : Parser Unit := do
  let _ ← bump
  skipUntil atMember

def docRound : Parser (List String × Bool) := do
  match ← eat .docComment with
  | some t => return ([String.ofList (docLine t.text.toList)], true)
  | none => return ([], false)

/-- Takes doc comments; each is one line of the documentation. -/
def docs : Parser (Option String) := do
  let lines ← collect docRound
  return if lines = [] then none else some ("\n".intercalate lines)

def name : Parser (Option Name) := do
  match ← eat .identifier with
  | some t => return some ⟨t.text, t.span⟩
  | none =>
    fail .expectedName none
    return none

def pathRound : Parser (List (Option String) × Bool) := do
  let separator ← do
    match ← eat .dot with
    | some t => pure (some t)
    | none => eat .slash
  match separator with
  | none => return ([], false)
  | some t =>
    match ← name with
    | some segment => return ([some (t.text ++ segment.text)], true)
    | none => return ([none], false)

/-- The separators and names after the first name of a package path; `none` marks a missing name. -/
def pathRest : Parser (List (Option String)) :=
  collect pathRound

/-- A package header: names separated by points and slashes, or a string. -/
def packageHeader : Parser (Option PackageHeader) := do
  let start := (← bump).start
  match ← eat .string with
  | some t => return some ⟨stringValue t.text, ⟨start, t.span.stop⟩⟩
  | none =>
    match ← name with
    | none => return none
    | some first =>
      let segments ← pathRest
      if segments.all (·.isSome) then
        let path := first.text ++ String.join (segments.filterMap id)
        return some ⟨path, ⟨start, (← get).lastStop⟩⟩
      else return none

def argumentRound : Parser (List Unit × Bool) := do
  match ← currentKind with
  | none => return ([], false)
  | some kind =>
    if kind = .rightBrace ∨ kind.startsItem then return ([], false)
    else
      let _ ← bump
      return ([], kind ≠ .rightParen)

/-- Leaves the arguments of an attribute. -/
def skipArguments : Parser Unit := do
  if (← currentKind) = some .leftParen then
    let _ ← collect argumentRound

/-- The parenthesised string after `@rename`. -/
def renameArgument : Parser (Option String) := do
  match ← expect .leftParen with
  | none => return none
  | some _ =>
    match ← eat .string with
    | none =>
      fail .expectedLiteral none
      skipArguments
      return none
    | some t =>
      match ← expect .rightParen with
      | some _ => return some (stringValue t.text)
      | none => return none

/-- What an attribute called `word` says, if it is known and its argument is in order. -/
def attributeKind (word : Name) : Parser (Option AttributeKind) := do
  if word.text = "skip" then return some .skip
  else if word.text = "optional" then return some .optional
  else if word.text = "rename" then return (← renameArgument).map .rename
  else
    report .unknownAttribute word.span (some word.text) [] []
    skipArguments
    return none

def attributeRound : Parser (List Attribute × Bool) := do
  match ← eat .atSign with
  | none => return ([], false)
  | some t =>
    match ← name with
    | none => return ([], false)
    | some word =>
      match ← attributeKind word with
      | some kind => return ([⟨kind, ⟨t.span.start, (← get).lastStop⟩⟩], true)
      | none => return ([], true)

def attributes : Parser (List Attribute) :=
  collect attributeRound

/-- A named member; `type` reads its type. -/
def member (type : Parser TypeExpr) (doc : Option String) :
    Parser (Option (MemberDef TypeExpr)) := do
  match ← name with
  | none => return none
  | some name =>
    match ← expect .colon with
    | none =>
      recoverInBlock
      return none
    | some _ =>
      let type ← type
      let attributes ← attributes
      return some { name, type, embedded := false, attributes, doc }

/-- An embedded member, which must refer to a type by name. -/
def embedded (type : Parser TypeExpr) (doc : Option String) :
    Parser (Option (MemberDef TypeExpr)) := do
  let _ ← bump
  let type ← type
  if type.isHole then return none
  else
    match type.referredName with
    | none =>
      report .expectedName type.span none [] ["embedded members name a struct, e.g. `..Base`"]
      return none
    | some text =>
      let attributes ← attributes
      return some { name := ⟨text, type.span⟩, type, embedded := true, attributes, doc }

/-- Reports that the block opened at `opening` is not closed. -/
def unclosed (opening : Span) : Parser Unit := do
  let source := (← get).source
  report .unclosedBlock (← currentSpan) none [⟨source, opening, "block opened here"⟩] []

/-- Reads one entry of a block, whose documentation was read before it. -/
abbrev EntryReader (α : Type) := Option String → Parser (List α)

def blockRound (opening : Span) (entry : TokenKind → Option (EntryReader α)) :
    Parser (List α × Bool) := do
  let doc ← docs
  match ← currentKind with
  | none =>
    unclosed opening
    return ([], false)
  | some kind =>
    if kind = .rightBrace then
      let _ ← bump
      return ([], false)
    else if kind.startsItem then
      unclosed opening
      return ([], false)
    else if kind = .comma ∨ kind = .semicolon then
      let _ ← bump
      return ([], true)
    else
      match entry kind with
      | some read => return (← read doc, true)
      | none =>
        fail .expectedName none
        recoverInBlock
        return ([], true)

/-- The entries of a block up to its closing brace. `entry` reads one entry from the kind of its
first token, or answers `none` if no entry begins with it. -/
def block (opening : Span) (entry : TokenKind → Option (EntryReader α)) : Parser (List α) :=
  collect (blockRound opening entry)

def memberEntry (type : Parser TypeExpr) (kind : TokenKind) :
    Option (EntryReader (MemberDef TypeExpr)) :=
  match kind with
  | .dotDot => some fun doc => return (← embedded type doc).toList
  | .identifier => some fun doc => return (← member type doc).toList
  | _ => none

/-- The members of a struct, in braces. -/
def members (type : Parser TypeExpr) : Parser (List (MemberDef TypeExpr)) := do
  match ← expect .leftBrace with
  | none => return []
  | some opening => block opening.span (memberEntry type)

/-- Ends a type that began at `start` with the token read last. -/
def finish (start : Nat) (make : Span → TypeExpr) : Parser TypeExpr := do
  return make ⟨start, max (← get).lastStop start⟩

/-- What a type that begins with the word `text` is, the word being taken. -/
def named (start : Nat) (text : String) : Parser TypeExpr := do
  match ← eat .dot with
  | some _ =>
    match ← name with
    | some name => finish start (.reference (some text) name.text)
    | none => finish start .hole
  | none =>
    match Scalar.ofKeyword? text with
    | some kind => finish start (.scalar kind)
    | none => finish start (.reference none text)

/-- Types that nest at most `depth` deep. -/
def type : Nat → Parser TypeExpr
  | 0 => do
    let span ← currentSpan
    report .expectedType span (some "type is nested too deeply") [] []
    return .hole span
  | depth + 1 => do
    let start := (← currentSpan).start
    match ← current with
    | none =>
      fail .expectedType none
      return .hole ⟨start, start⟩
    | some t =>
      match t.kind with
      | .star =>
        let _ ← bump
        let target ← type depth
        finish start (.pointer target)
      | .leftBracket =>
        let _ ← bump
        let element ← type depth
        let _ ← expect .rightBracket
        finish start (.sequence element)
      | .leftBrace =>
        let _ ← bump
        let key ← type depth
        let _ ← expect .colon
        let value ← type depth
        let _ ← expect .rightBrace
        finish start (.map key value)
      | .structKeyword =>
        let _ ← bump
        let members ← members (type depth)
        finish start (.record members)
      | .identifier =>
        let _ ← bump
        named start t.text
      | _ =>
        fail .expectedType none
        return .hole ⟨start, start⟩

/-- How deep types may nest. -/
def maxDepth : Nat := 128

def structItem (doc : Option String) : Parser (Option Item) := do
  let _ ← bump
  match ← name with
  | none =>
    recoverToItem
    return none
  | some name =>
    let members ← members (type maxDepth)
    return some (.struct { name, doc, members })

/-- The literal that an integer token denotes, if it fits in 64 bits. -/
def integerLiteral (text : String) : Option Literal :=
  let value : Int := match text.toList with
    | '-' :: digits => -(Decimal.digitsValue digits : Int)
    | digits => Decimal.digitsValue digits
  if -Int.pow 2 63 ≤ value ∧ value < Int.pow 2 63 then some (.int (.ofInt value))
  else if Int.pow 2 63 ≤ value ∧ value < Int.pow 2 64 then some (.uint (.ofNat value.toNat))
  else none

/-- The value of a variant and where it stands. -/
def literal : Parser (Option (Literal × Span)) := do
  match ← current with
  | some ⟨.string, text, span⟩ =>
    let _ ← bump
    return some (.string (stringValue text), span)
  | some ⟨.integer, text, span⟩ =>
    match integerLiteral text with
    | some value =>
      let _ ← bump
      return some (value, span)
    | none =>
      report .expectedLiteral span none [] ["integers must fit in 64 bits"]
      let _ ← bump
      return none
  | some ⟨.float, text, span⟩ =>
    match Binary64.ofText? text with
    | some value =>
      let _ ← bump
      return some (.float value, span)
    | none =>
      fail .expectedLiteral none
      let _ ← bump
      return none
  | _ =>
    fail .expectedLiteral none
    return none

def variant (doc : Option String) : Parser (Option Variant) := do
  match ← name with
  | none => return none
  | some name =>
    match ← expect .equals with
    | none =>
      recoverInBlock
      return none
    | some _ =>
      match ← literal with
      | none => return none
      | some (value, valueSpan) => return some { name, value, valueSpan, doc }

def variantEntry (kind : TokenKind) : Option (EntryReader Variant) :=
  match kind with
  | .identifier => some fun doc => return (← variant doc).toList
  | _ => none

/-- The variants of an enum, in braces. -/
def variants : Parser (List Variant) := do
  match ← expect .leftBrace with
  | none => return []
  | some opening => block opening.span variantEntry

def enumItem (doc : Option String) : Parser (Option Item) := do
  let _ ← bump
  match ← name with
  | none =>
    recoverToItem
    return none
  | some name =>
    match ← expect .colon with
    | none =>
      recoverToItem
      return none
    | some _ =>
      match ← Parser.name with
      | none =>
        recoverToItem
        return none
      | some base =>
        let variants ← variants
        return some (.enum { name, doc, base, variants })

def synonymItem (doc : Option String) : Parser (Option Item) := do
  let _ ← bump
  match ← name with
  | none =>
    recoverToItem
    return none
  | some name =>
    match ← expect .equals with
    | none =>
      recoverToItem
      return none
    | some _ =>
      let target ← type maxDepth
      return some (.synonym { name, doc, target })

/-- Keeps the first package header and reports any other. -/
def keepHeader (header : PackageHeader) : Parser Unit := do
  let r ← get
  match r.package with
  | none => set { r with package := some header }
  | some first =>
    report .duplicatePackage header.span none [⟨r.source, first.span, "first declared here"⟩] []

def package : Parser Unit := do
  match ← packageHeader with
  | none => return ()
  | some header => keepHeader header

def itemRound : Parser (List Item × Bool) := do
  let doc ← docs
  match ← currentKind with
  | none => return ([], false)
  | some .packageKeyword =>
    package
    return ([], true)
  | some .structKeyword => return ((← structItem doc).toList, true)
  | some .enumKeyword => return ((← enumItem doc).toList, true)
  | some .aliasKeyword => return ((← synonymItem doc).toList, true)
  | some _ =>
    fail .expectedToken (some "`struct`, `enum`, `alias` or `package`")
    recoverToItem
    return ([], true)

def items : Parser (List Item) :=
  collect itemRound

end Parser

/-- The tree of a source whose tokens are given, and what is wrong with it. -/
def parseTokens (source : SourceId) (stop : Nat) (tokens : List Token) :
    File × List Diagnostic :=
  let (items, r) := Parser.items { source, stop, rest := tokens }
  ({ source, package := r.package, items }, r.diagnostics)

def parse (source : SourceId) (text : String) : File × List Diagnostic :=
  parseTokens source text.utf8ByteSize (tokens text)

end TypeGraph.Schema
