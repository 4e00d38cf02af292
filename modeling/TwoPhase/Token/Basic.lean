import TwoPhase.Span

/-!
# Tokens

The words of the language.  A path such as `at_runtime::dispatch` is one identifier.
-/

namespace TwoPhase

/-- Why some text is no token. -/
inductive LexError where
  | unterminatedString
  | integerOutOfRange
  | invalidCharacter
  deriving DecidableEq, Inhabited, Repr

inductive TokenKind where
  | int (value : Int64)
  | str (value : String)
  | ident (name : String)
  | kwBegin
  | kwSub
  | kwFn
  | kwLet
  | kwIf
  | kwElse
  | kwWhile
  | kwReturn
  | kwTrue
  | kwFalse
  | kwNil
  | parenOpen
  | parenClose
  | braceOpen
  | braceClose
  | bracketOpen
  | bracketClose
  | comma
  | semicolon
  | assign
  | equal
  | notEqual
  | less
  | lessEqual
  | greater
  | greaterEqual
  | plus
  | minus
  | star
  | slash
  | percent
  | bang
  | andAnd
  | orOr
  | bad (error : LexError)
  | endOfInput
  deriving DecidableEq, Inhabited, Repr

namespace TokenKind

/-- The keywords, by how they are spelled. -/
def keywords : List (List Char × TokenKind) := [
  (['b', 'e', 'g', 'i', 'n'], kwBegin),
  (['s', 'u', 'b'], kwSub),
  (['f', 'n'], kwFn),
  (['l', 'e', 't'], kwLet),
  (['i', 'f'], kwIf),
  (['e', 'l', 's', 'e'], kwElse),
  (['w', 'h', 'i', 'l', 'e'], kwWhile),
  (['r', 'e', 't', 'u', 'r', 'n'], kwReturn),
  (['t', 'r', 'u', 'e'], kwTrue),
  (['f', 'a', 'l', 's', 'e'], kwFalse),
  (['n', 'i', 'l'], kwNil)]

/-- The token that a word spells: a keyword, or else an identifier. -/
def ofWord (word : List Char) : TokenKind :=
  (keywords.lookup word).getD (ident (String.ofList word))

/-- The symbol that two characters spell. -/
def ofPair? : Char → Char → Option TokenKind
  | '=', '=' => some equal
  | '!', '=' => some notEqual
  | '<', '=' => some lessEqual
  | '>', '=' => some greaterEqual
  | '&', '&' => some andAnd
  | '|', '|' => some orOr
  | _, _ => none

/-- The symbol that a character spells, or an error. -/
def ofChar : Char → TokenKind
  | '(' => parenOpen
  | ')' => parenClose
  | '{' => braceOpen
  | '}' => braceClose
  | '[' => bracketOpen
  | ']' => bracketClose
  | ',' => comma
  | ';' => semicolon
  | '=' => assign
  | '<' => less
  | '>' => greater
  | '+' => plus
  | '-' => minus
  | '*' => star
  | '/' => slash
  | '%' => percent
  | '!' => bang
  | _ => bad .invalidCharacter

/-- How messages name the token where its text is not shown. -/
def describe : TokenKind → String
  | int _ => "integer"
  | str _ => "string"
  | ident _ => "identifier"
  | kwBegin => "`begin`"
  | kwSub => "`sub`"
  | kwFn => "`fn`"
  | kwLet => "`let`"
  | kwIf => "`if`"
  | kwElse => "`else`"
  | kwWhile => "`while`"
  | kwReturn => "`return`"
  | kwTrue => "`true`"
  | kwFalse => "`false`"
  | kwNil => "`nil`"
  | parenOpen => "`(`"
  | parenClose => "`)`"
  | braceOpen => "`\x7b`"
  | braceClose => "`\x7d`"
  | bracketOpen => "`[`"
  | bracketClose => "`]`"
  | comma => "`,`"
  | semicolon => "`;`"
  | assign => "`=`"
  | equal => "`==`"
  | notEqual => "`!=`"
  | less => "`<`"
  | lessEqual => "`<=`"
  | greater => "`>`"
  | greaterEqual => "`>=`"
  | plus => "`+`"
  | minus => "`-`"
  | star => "`*`"
  | slash => "`/`"
  | percent => "`%`"
  | bang => "`!`"
  | andAnd => "`&&`"
  | orOr => "`||`"
  | bad _ => "invalid token"
  | endOfInput => "end of input"

end TokenKind

/-- A token and where it stands. -/
structure Token where
  kind : TokenKind
  span : Span
  /-- Its characters, last first. -/
  lexeme : List Char
  deriving DecidableEq, Inhabited, Repr

/-- The text of a token as written. -/
def Token.text (t : Token) : String := String.ofList t.lexeme.reverse

end TwoPhase
