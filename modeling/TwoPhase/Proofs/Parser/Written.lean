import TwoPhase.Parser.Grammar

/-!
# How expressions are written

The grammar of expressions, said without the parser: which tokens write which expression.

```text
expr     := or
or       := and ("||" and)*
and      := equality ("&&" equality)*
equality := compare (("==" | "!=") compare)*
compare  := sum (("<" | "<=" | ">" | ">=") sum)*
sum      := product (("+" | "-") product)*
product  := unary (("*" | "/" | "%") unary)*
unary    := ("-" | "!") unary | call
call     := primary ("(" args ")")*
```

Operators of one precedence group to the left, so the left operand may have the precedence of the
operator and the right one must bind tighter.  What binds too loosely for its place stands in
parentheses, and anything may.  The items of a list and the arguments of a call are separated by
commas, with one behind the last item or not.
-/

namespace TwoPhase

/-- An expression without closures, as it is written: without spans, and with names that are not
resolved. -/
inductive Term where
  | nil
  | bool (value : Bool)
  | int (value : Int64)
  | str (value : String)
  | name (name : String)
  | list (items : List Term)
  | call (callee : Term) (args : List Term)
  | unary (op : UnaryOp) (operand : Term)
  | binary (op : BinaryOp) (left right : Term)
  deriving Inhabited

mutual

/-- What an expression is as it is written, if there is no closure in it. -/
def Expr.term? : Expr → Option Term
  | .nil _ => some .nil
  | .bool _ value => some (.bool value)
  | .int _ value => some (.int value)
  | .str _ value => some (.str value)
  | .list _ items => (terms? items).map .list
  | .lexical _ ref => some (.name ref.name)
  | .global _ cell => some (.name cell.name)
  | .call _ callee args =>
    callee.term?.bind fun callee => (terms? args).map fun args => .call callee args
  | .closure .. => none
  | .unary _ op operand => operand.term?.map (.unary op)
  | .binary _ op left right =>
    left.term?.bind fun left => right.term?.map fun right => .binary op left right

def terms? : List Expr → Option (List Term)
  | [] => some []
  | e :: es => e.term?.bind fun term => (terms? es).map fun terms => term :: terms

end

theorem Expr.term?_withSpan (span : Span) (e : Expr) : (e.withSpan span).term? = e.term? := by
  cases e <;> rfl

/-- How tightly an expression binds, from the loosest. -/
inductive Precedence where
  | or
  | and
  | equality
  | compare
  | sum
  | product
  | unary
  | call
  | primary
  deriving DecidableEq, Inhabited

/-- The next tighter precedence. -/
def Precedence.tighter : Precedence → Precedence
  | or => and
  | and => equality
  | equality => compare
  | compare => sum
  | sum => product
  | product => unary
  | unary => call
  | call => primary
  | primary => primary

namespace BinaryOp

/-- The token of an operator. -/
def kind : BinaryOp → TokenKind
  | mul => .star
  | div => .slash
  | mod => .percent
  | add => .plus
  | sub => .minus
  | less => .less
  | lessEqual => .lessEqual
  | greater => .greater
  | greaterEqual => .greaterEqual
  | equal => .equal
  | notEqual => .notEqual
  | and => .andAnd
  | or => .orOr

def precedence : BinaryOp → Precedence
  | mul | div | mod => .product
  | add | sub => .sum
  | less | lessEqual | greater | greaterEqual => .compare
  | equal | notEqual => .equality
  | and => .and
  | or => .or

end BinaryOp

/-- The token of a prefix operator. -/
def UnaryOp.kind : UnaryOp → TokenKind
  | neg => .minus
  | not => .bang

mutual

/-- Tokens of these kinds write an expression that binds at least as tightly as some precedence. -/
inductive Written : Precedence → List TokenKind → Term → Prop where
  | kwNil : Written .primary [.kwNil] .nil
  | kwTrue : Written .primary [.kwTrue] (.bool true)
  | kwFalse : Written .primary [.kwFalse] (.bool false)
  | int {value : Int64} (h : 0 ≤ value) : Written .primary [.int value] (.int value)
  | str (value : String) : Written .primary [.str value] (.str value)
  | name (name : String) : Written .primary [.ident name] (.name name)
  | list {kinds : List TokenKind} {items : List Term} (h : WrittenAll kinds items) :
      Written .primary (.bracketOpen :: (kinds ++ [.bracketClose])) (.list items)
  | parens {kinds : List TokenKind} {term : Term} (h : Written .or kinds term) :
      Written .primary (.parenOpen :: (kinds ++ [.parenClose])) term
  | call {kinds more : List TokenKind} {callee : Term} {args : List Term}
      (hcallee : Written .call kinds callee) (hargs : WrittenAll more args) :
      Written .call (kinds ++ .parenOpen :: (more ++ [.parenClose])) (.call callee args)
  | unary {kinds : List TokenKind} {operand : Term} (op : UnaryOp)
      (h : Written .unary kinds operand) : Written .unary (op.kind :: kinds) (.unary op operand)
  | binary {kinds more : List TokenKind} {left right : Term} (op : BinaryOp)
      (hleft : Written op.precedence kinds left)
      (hright : Written op.precedence.tighter more right) :
      Written op.precedence (kinds ++ op.kind :: more) (.binary op left right)
  | looser {precedence : Precedence} {kinds : List TokenKind} {term : Term}
      (h : Written precedence.tighter kinds term) : Written precedence kinds term

/-- Tokens of these kinds write some expressions with commas between them. -/
inductive WrittenAll : List TokenKind → List Term → Prop where
  | nil : WrittenAll [] []
  | last {kinds : List TokenKind} {term : Term} (h : Written .or kinds term) :
      WrittenAll kinds [term]
  | cons {kinds more : List TokenKind} {term : Term} {terms : List Term}
      (h : Written .or kinds term) (hmore : WrittenAll more terms) :
      WrittenAll (kinds ++ .comma :: more) (term :: terms)

end

/-- What binds tightest may stand anywhere. -/
theorem Written.anywhere {kinds : List TokenKind} {term : Term} (h : Written .primary kinds term)
    (precedence : Precedence) : Written precedence kinds term := by
  have hcall : Written .call kinds term := .looser h
  have hproduct : Written .product kinds term := .looser (.looser hcall)
  have hcompare : Written .compare kinds term := .looser (.looser hproduct)
  have hand : Written .and kinds term := .looser (.looser hcompare)
  cases precedence with
  | or => exact .looser hand
  | and => exact hand
  | equality => exact .looser hcompare
  | compare => exact hcompare
  | sum => exact .looser hproduct
  | product => exact hproduct
  | unary => exact .looser hcall
  | call => exact hcall
  | primary => exact h

/-- A token that can go on an expression: one that starts an argument list, or an operator between
two operands. -/
def TokenKind.Continues (kind : TokenKind) : Prop :=
  kind = .parenOpen ∨ ∃ op : BinaryOp, kind = op.kind

/-! ## First tokens -/

/-- Whether an expression that binds this tightly can start with a token. -/
def Precedence.opens (precedence : Precedence) : TokenKind → Bool
  | .kwNil | .kwTrue | .kwFalse | .int _ | .str _ | .ident _ | .bracketOpen | .parenOpen => true
  | .minus | .bang => precedence != .call && precedence != .primary
  | _ => false

theorem Precedence.opens_of_tighter {precedence : Precedence} {kind : TokenKind}
    (h : precedence.tighter.opens kind = true) : precedence.opens kind = true := by
  -- only the prefix operators depend on the precedence
  have hoperator : (precedence.tighter != .call && precedence.tighter != .primary) = true →
      (precedence != .call && precedence != .primary) = true := by
    cases precedence <;> decide
  cases kind with
  | minus => exact hoperator h
  | bang => exact hoperator h
  | _ => exact h

theorem Written.opens {precedence : Precedence} {kinds : List TokenKind} {term : Term} :
    Written precedence kinds term →
      ∃ kind more, kinds = kind :: more ∧ precedence.opens kind = true
  | .kwNil => ⟨_, _, rfl, rfl⟩
  | .kwTrue => ⟨_, _, rfl, rfl⟩
  | .kwFalse => ⟨_, _, rfl, rfl⟩
  | .int _ => ⟨_, _, rfl, rfl⟩
  | .str _ => ⟨_, _, rfl, rfl⟩
  | .name _ => ⟨_, _, rfl, rfl⟩
  | .list _ => ⟨_, _, rfl, rfl⟩
  | .parens _ => ⟨_, _, rfl, rfl⟩
  | .call hcallee _ => by
      obtain ⟨kind, more, rfl, hopens⟩ := hcallee.opens
      exact ⟨_, _, rfl, hopens⟩
  | .unary op _ => ⟨_, _, rfl, by cases op <;> rfl⟩
  | .binary op hleft _ => by
      obtain ⟨kind, more, rfl, hopens⟩ := hleft.opens
      exact ⟨_, _, rfl, hopens⟩
  | .looser h => by
      obtain ⟨kind, more, rfl, hopens⟩ := h.opens
      exact ⟨_, _, rfl, Precedence.opens_of_tighter hopens⟩

end TwoPhase
