import TypeGraph.Source
import TypeGraph.Text.Blank
/-!
Tokens of the schema notation. Every text is cut into lexemes that lose nothing; tokens are the
lexemes that matter to the grammar, with neighbouring unreadable ones joined.
-/

namespace TypeGraph.Schema

inductive TokenKind where
  | leftBrace
  | rightBrace
  | leftBracket
  | rightBracket
  | leftParen
  | rightParen
  | colon
  | equals
  | star
  | dotDot
  | dot
  | slash
  | atSign
  | comma
  | semicolon
  | packageKeyword
  | structKeyword
  | enumKeyword
  | aliasKeyword
  | identifier
  | string
  | integer
  | float
  | docComment
  | garbage
  deriving DecidableEq, Repr, Inhabited

namespace TokenKind

/-- The kind as it is named in messages. -/
def label : TokenKind → String
  | leftBrace => "`\x7b`"
  | rightBrace => "`\x7d`"
  | leftBracket => "`[`"
  | rightBracket => "`]`"
  | leftParen => "`(`"
  | rightParen => "`)`"
  | colon => "`:`"
  | equals => "`=`"
  | star => "`*`"
  | dotDot => "`..`"
  | dot => "`.`"
  | slash => "`/`"
  | atSign => "`@`"
  | comma => "`,`"
  | semicolon => "`;`"
  | packageKeyword => "`package`"
  | structKeyword => "`struct`"
  | enumKeyword => "`enum`"
  | aliasKeyword => "`alias`"
  | identifier => "identifier"
  | string => "string literal"
  | integer => "integer"
  | float => "float"
  | docComment => "doc comment"
  | garbage => "unrecognized input"

/-- Whether a token of this kind begins an item of a file. -/
def startsItem : TokenKind → Bool
  | structKeyword | enumKeyword | aliasKeyword | packageKeyword => true
  | _ => false

end TokenKind

structure Token where
  kind : TokenKind
  text : String
  span : Span
  deriving DecidableEq, Repr, Inhabited

/-- What a stretch of text is to the notation. -/
inductive LexemeKind where
  | token (kind : TokenKind)
  | blank
  | comment
  | unreadable
  deriving DecidableEq, Repr, Inhabited

structure Lexeme where
  kind : LexemeKind
  text : List Char
  deriving DecidableEq, Repr, Inhabited

/-- Blanks between tokens; other blank characters are unreadable. -/
def isGap (c : Char) : Bool :=
  c == ' ' || c == '\t' || c == '\r' || c == '\n'

def isWordStart (c : Char) : Bool :=
  c.isAlpha || c == '_'

def isWordPart (c : Char) : Bool :=
  c.isAlphanum || c == '_'

/-- How many characters follow an opening quote up to and including the closing one. A string ends
on its line, and a backslash takes the next character with it. -/
def closingQuote : List Char → Option Nat
  | [] => none
  | c :: cs =>
    if c = '"' then some 1
    else if c = '\n' then none
    else if c = '\\' then
      match cs with
      | [] => none
      | d :: ds => if d = '\n' then none else (closingQuote ds).map (· + 2)
    else (closingQuote cs).map (· + 1)

/-- How many of the first characters satisfy `p`. -/
def run (p : Char → Bool) (cs : List Char) : Nat :=
  (cs.takeWhile p).length

/-- The rest of a number whose first digits have been read: a point counts only before a digit. -/
def fraction (cs : List Char) : TokenKind × Nat :=
  match cs with
  | '.' :: d :: ds => if d.isDigit then (.float, 2 + run Char.isDigit ds) else (.integer, 0)
  | _ => (.integer, 0)

/-- A number whose first digit has been read. -/
def number (cs : List Char) : TokenKind × Nat :=
  let n := run Char.isDigit cs
  let (kind, more) := fraction (cs.drop n)
  (kind, n + more)

def wordKind (text : List Char) : TokenKind :=
  if text = "package".toList then .packageKeyword
  else if text = "struct".toList then .structKeyword
  else if text = "enum".toList then .enumKeyword
  else if text = "alias".toList then .aliasKeyword
  else .identifier

/-- Characters that are tokens by themselves. -/
def symbolKind (c : Char) : Option TokenKind :=
  if c = '{' then some .leftBrace
  else if c = '}' then some .rightBrace
  else if c = '[' then some .leftBracket
  else if c = ']' then some .rightBracket
  else if c = '(' then some .leftParen
  else if c = ')' then some .rightParen
  else if c = ':' then some .colon
  else if c = '=' then some .equals
  else if c = '*' then some .star
  else if c = '@' then some .atSign
  else if c = ',' then some .comma
  else if c = ';' then some .semicolon
  else none

/-- Exactly three slashes mark a comment as documentation. -/
def commentKind (text : List Char) : LexemeKind :=
  if "///".toList.isPrefixOf text && !"////".toList.isPrefixOf text then .token .docComment
  else .comment

/-- The lexeme that begins with `c`: its kind, and how many of the characters after `c` it takes. -/
def extent (c : Char) (cs : List Char) : LexemeKind × Nat :=
  if isGap c then (.blank, run isGap cs)
  else if isWordStart c then
    let n := run isWordPart cs
    (.token (wordKind (c :: cs.take n)), n)
  else if c.isDigit then
    let (kind, n) := number cs
    (.token kind, n)
  else if c = '-' then
    match cs with
    | d :: ds =>
      if d.isDigit then
        let (kind, n) := number ds
        (.token kind, n + 1)
      else (.unreadable, 0)
    | [] => (.unreadable, 0)
  else if c = '.' then
    if cs.head? = some '.' then (.token .dotDot, 1) else (.token .dot, 0)
  else if c = '/' then
    if cs.head? = some '/' then
      let n := run (· ≠ '\n') cs
      (commentKind (c :: cs.take n), n)
    else (.token .slash, 0)
  else if c = '"' then
    match closingQuote cs with
    | some n => (.token .string, n)
    | none => (.unreadable, run (· ≠ '\n') cs)
  else
    match symbolKind c with
    | some kind => (.token kind, 0)
    | none => (.unreadable, 0)

/-- Cuts a text into its lexemes. -/
def lexemes : List Char → List Lexeme
  | [] => []
  | c :: cs =>
    let (kind, n) := extent c cs
    ⟨kind, c :: cs.take n⟩ :: lexemes (cs.drop n)
termination_by cs => cs.length
decreasing_by simp only [List.length_drop, List.length_cons]; omega

/-- Joins neighbouring unreadable lexemes. -/
def joined : List Lexeme → List Lexeme
  | [] => []
  | l :: ls =>
    match l.kind, joined ls with
    | .unreadable, ⟨.unreadable, text⟩ :: rest => ⟨.unreadable, l.text ++ text⟩ :: rest
    | _, rest => l :: rest

/-- The size of a text in UTF-8. -/
def byteSize (cs : List Char) : Nat :=
  cs.foldr (fun c n => c.utf8Size + n) 0

/-- The token that a lexeme is, if any. -/
def Lexeme.token? (l : Lexeme) (start : Nat) : Option Token :=
  let token (kind : TokenKind) : Token :=
    ⟨kind, String.ofList l.text, ⟨start, start + byteSize l.text⟩⟩
  match l.kind with
  | .token kind => some (token kind)
  | .unreadable => some (token .garbage)
  | .blank | .comment => none

/-- The tokens among lexemes that begin at byte `start`. -/
def place (start : Nat) : List Lexeme → List Token
  | [] => []
  | l :: ls => (l.token? start).toList ++ place (start + byteSize l.text) ls

def tokens (text : String) : List Token :=
  place 0 (joined (lexemes text.toList))

/-- What a doc comment says: its text without the slashes, one space after them and the blanks at
its end. -/
def docLine (text : List Char) : List Char :=
  let body := if "///".toList.isPrefixOf text then text.drop 3 else text
  Text.trimEnd (match body with
    | ' ' :: rest => rest
    | _ => body)

/-- The text between the quotes. -/
def unquoted (text : List Char) : List Char :=
  match text with
  | '"' :: rest => if rest.getLast? = some '"' then rest.dropLast else text
  | _ => text

/-- The character that an escape stands for. -/
def escaped (c : Char) : Char :=
  if c = 'n' then '\n'
  else if c = 't' then '\t'
  else if c = 'r' then '\r'
  else if c = '0' then Char.ofNat 0
  else c

def unescape : List Char → List Char
  | [] => []
  | c :: cs =>
    if c = '\\' then
      match cs with
      | [] => ['\\']
      | d :: ds => escaped d :: unescape ds
    else c :: unescape cs

/-- The value of a string token. -/
def stringValue (text : String) : String :=
  String.ofList (unescape (unquoted text.toList))

end TypeGraph.Schema
