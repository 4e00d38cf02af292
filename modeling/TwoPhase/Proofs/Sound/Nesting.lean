import TwoPhase.Tree
import TwoPhase.Proofs.Lexing.Partition

/-!
# Spans that nest

The span of every node of a tree holds those of its children, which stand one behind the other, and
none is empty.  Where a node is a single token, the text at its span is the text of that token,
perhaps in parentheses.  This is said of a tree, the text that was consumed for it and the tokens in
that text (`Expr.Nests`), and it stays true while more is consumed.
-/

namespace TwoPhase

/-! ## Spans in a row -/

namespace Span

/-- The spans of some parts are in a span, and stand one behind the other. -/
structure Bounds (span : Span) (parts : List Span) : Prop where
  inside : ∀ part ∈ parts, span.start ≤ part.start ∧ part.stop ≤ span.stop
  ordered : parts.Pairwise fun earlier later => earlier.stop ≤ later.start

/-- A span that is not empty, and that bounds the spans of some parts. -/
structure Holds (span : Span) (parts : List Span) : Prop extends Bounds span parts where
  proper : span.start < span.stop

/-- Spans that are not empty, one behind the other between two offsets. -/
def InRow (low : Nat) : List Span → Nat → Prop
  | [], high => low ≤ high
  | part :: parts, high => low ≤ part.start ∧ part.start < part.stop ∧ InRow part.stop parts high

namespace InRow

variable {low high : Nat} {part span : Span} {parts : List Span}

theorem le (h : InRow low parts high) : low ≤ high := by
  induction parts generalizing low with
  | nil => exact h
  | cons part parts ih =>
      have hrest := ih h.2.2
      have hfirst := h.1
      have hproper := h.2.1
      omega

theorem mono (h : InRow low parts high) {higher : Nat} (hle : high ≤ higher) :
    InRow low parts higher := by
  induction parts generalizing low with
  | nil => exact Nat.le_trans h hle
  | cons part parts ih => exact ⟨h.1, h.2.1, ih h.2.2⟩

theorem lower (h : InRow low parts high) {lowest : Nat} (hle : lowest ≤ low) :
    InRow lowest parts high := by
  cases parts with
  | nil => exact Nat.le_trans hle h
  | cons part parts => exact ⟨Nat.le_trans hle h.1, h.2⟩

theorem one (hlow : low ≤ part.start) (hproper : part.start < part.stop)
    (hhigh : part.stop ≤ high) : InRow low [part] high :=
  ⟨hlow, hproper, hhigh⟩

theorem append {more : List Span} {middle : Nat} (h : InRow low parts middle)
    (h' : InRow middle more high) : InRow low (parts ++ more) high := by
  induction parts generalizing low with
  | nil =>
      cases more with
      | nil => exact Nat.le_trans h h'
      | cons part more => exact ⟨Nat.le_trans h h'.1, h'.2⟩
  | cons part parts ih => exact ⟨h.1, h.2.1, ih h.2.2⟩

theorem le_start (h : InRow low parts high) (hmem : part ∈ parts) : low ≤ part.start := by
  induction parts generalizing low with
  | nil => cases hmem
  | cons first parts ih =>
      rcases List.mem_cons.1 hmem with rfl | hmem
      · exact h.1
      · have hrest := ih h.2.2 hmem
        have hfirst := h.1
        have hproper := h.2.1
        omega

theorem stop_le (h : InRow low parts high) (hmem : part ∈ parts) : part.stop ≤ high := by
  induction parts generalizing low with
  | nil => cases hmem
  | cons first parts ih =>
      rcases List.mem_cons.1 hmem with rfl | hmem
      · exact h.2.2.le
      · exact ih h.2.2 hmem

theorem bounds (h : InRow low parts high) (hlow : span.start ≤ low) (hhigh : high ≤ span.stop) :
    span.Bounds parts := by
  refine ⟨fun part hmem => ⟨hlow.trans (h.le_start hmem), (h.stop_le hmem).trans hhigh⟩, ?_⟩
  clear hlow hhigh
  induction parts generalizing low with
  | nil => exact .nil
  | cons part parts ih =>
      exact List.pairwise_cons.2 ⟨fun later hmem => h.2.2.le_start hmem, ih h.2.2⟩

theorem holds (h : InRow low parts high) (hlow : span.start ≤ low) (hhigh : high ≤ span.stop)
    (hproper : span.start < span.stop) : span.Holds parts :=
  ⟨h.bounds hlow hhigh, hproper⟩

end InRow

theorem Bounds.widen {span wider : Span} {parts : List Span} (h : span.Bounds parts)
    (hstart : wider.start ≤ span.start) (hstop : span.stop ≤ wider.stop) : wider.Bounds parts :=
  ⟨fun part hmem => ⟨hstart.trans (h.inside part hmem).1, (h.inside part hmem).2.trans hstop⟩,
    h.ordered⟩

theorem Holds.widen {span wider : Span} {parts : List Span} (h : span.Holds parts)
    (hstart : wider.start ≤ span.start) (hstop : span.stop ≤ wider.stop) : wider.Holds parts := by
  have hproper := h.proper
  exact ⟨h.toBounds.widen hstart hstop, by omega⟩

end Span

/-! ## Single tokens -/

namespace Scan

/-- The text of a token, perhaps in parentheses, with blanks and comments inside them. -/
inductive Wraps (token : List Char) : List Char → Prop where
  | bare : Wraps token token
  | parens {inner front back : List Char} (h : Wraps token inner)
      (hfront : Skips front (inner ++ (back ++ [')']))) (hback : Skips back [')']) :
      Wraps token ('(' :: (front ++ (inner ++ (back ++ [')']))))

/-- Of what is behind a gap only the first character matters. -/
theorem Skips.congr {gap rest other : List Char} (h : Skips gap rest)
    (hhead : other.head? = rest.head?) : Skips gap other := by
  induction h with
  | nil => exact .nil
  | blank hblank _ ih => exact .blank hblank (ih hhead)
  | @comment line gap rest hline hend _ ih =>
      refine .comment hline ?_ (ih hhead)
      cases gap with
      | nil =>
          intro c hc
          exact hend c (hhead ▸ hc)
      | cons d gap => exact hend

end Scan

open Scan (Wraps)

/-- A token of some kind stands for an expression by itself.  Which names the cell of a global is
for is said by `named`. -/
def Expr.IsToken (named : CellRef → String → Prop) : Expr → TokenKind → Prop
  | nil _, kind => kind = .kwNil
  | bool _ value, kind => kind = if value then .kwTrue else .kwFalse
  | int _ value, kind => kind = .int value
  | str _ value, kind => kind = .str value
  | lexical _ ref, kind => kind = .ident ref.name
  | global _ cell, kind => ∃ name, kind = .ident name ∧ named cell name
  | _, _ => False

/-- The text at the span of an expression is that of the token that stands for it, perhaps in
parentheses. -/
def Expr.Shows (named : CellRef → String → Prop) (text : List Char) (tokens : List Token)
    (e : Expr) : Prop :=
  ∃ token ∈ tokens, e.IsToken named token.kind ∧ e.span.start ≤ token.span.start ∧
    token.span.stop ≤ e.span.stop ∧ ∃ piece,
      Text.slice? text e.span.start e.span.stop = some piece ∧ Wraps token.lexeme.reverse piece

/-! ## Trees -/

mutual

/-- The spans of an expression nest. -/
inductive Expr.Nests (named : CellRef → String → Prop) (text : List Char) (tokens : List Token) :
    Expr → Prop where
  | leaf {e} (hproper : e.span.start < e.span.stop) (h : e.Shows named text tokens) :
      Expr.Nests named text tokens e
  | list {span items} (h : span.Holds (items.map Expr.span))
      (hitems : ∀ item ∈ items, Expr.Nests named text tokens item) :
      Expr.Nests named text tokens (.list span items)
  | call {span callee args} (h : span.Holds (callee.span :: args.map Expr.span))
      (hcallee : Expr.Nests named text tokens callee)
      (hargs : ∀ arg ∈ args, Expr.Nests named text tokens arg) :
      Expr.Nests named text tokens (.call span callee args)
  | closure {span function} (h : span.Holds [function.span])
      (hfunction : Function.Nests named text tokens function) :
      Expr.Nests named text tokens (.closure span function)
  | unary {span op operand} (h : span.Holds [operand.span])
      (hoperand : Expr.Nests named text tokens operand) :
      Expr.Nests named text tokens (.unary span op operand)
  | binary {span op left right} (h : span.Holds [left.span, right.span])
      (hleft : Expr.Nests named text tokens left) (hright : Expr.Nests named text tokens right) :
      Expr.Nests named text tokens (.binary span op left right)

/-- The spans of a statement nest. -/
inductive Stmt.Nests (named : CellRef → String → Prop) (text : List Char) (tokens : List Token) :
    Stmt → Prop where
  | define {span name value} (h : span.Holds [value.span])
      (hvalue : Expr.Nests named text tokens value) :
      Stmt.Nests named text tokens (.define span name value)
  | assignLexical {span ref value} (h : span.Holds [value.span])
      (hvalue : Expr.Nests named text tokens value) :
      Stmt.Nests named text tokens (.assignLexical span ref value)
  | assignGlobal {span cell value} (h : span.Holds [value.span])
      (hvalue : Expr.Nests named text tokens value) :
      Stmt.Nests named text tokens (.assignGlobal span cell value)
  | expr {e} (h : Expr.Nests named text tokens e) : Stmt.Nests named text tokens (.expr e)
  | ret {span value} (h : span.Holds (value.toList.map Expr.span))
      (hvalue : ∀ e ∈ value, Expr.Nests named text tokens e) :
      Stmt.Nests named text tokens (.ret span value)
  | block {body} (h : Block.Nests named text tokens body) :
      Stmt.Nests named text tokens (.block body)
  | cond {span test yes no}
      (h : span.Holds (test.span :: yes.span :: no.toList.map Block.span))
      (htest : Expr.Nests named text tokens test) (hyes : Block.Nests named text tokens yes)
      (hno : ∀ body ∈ no, Block.Nests named text tokens body) :
      Stmt.Nests named text tokens (.cond span test yes no)
  | loop {span test body} (h : span.Holds [test.span, body.span])
      (htest : Expr.Nests named text tokens test) (hbody : Block.Nests named text tokens body) :
      Stmt.Nests named text tokens (.loop span test body)

/-- The spans of a block nest. -/
inductive Block.Nests (named : CellRef → String → Prop) (text : List Char) (tokens : List Token) :
    Block → Prop where
  | mk {span stmts} (h : span.Holds (stmts.map Stmt.span))
      (hstmts : ∀ stmt ∈ stmts, Stmt.Nests named text tokens stmt) :
      Block.Nests named text tokens (.mk span stmts)

/-- The spans of a function nest. -/
inductive Function.Nests (named : CellRef → String → Prop) (text : List Char)
    (tokens : List Token) : Function → Prop where
  | mk {span name params body} (h : span.Holds [body.span])
      (hbody : Block.Nests named text tokens body) :
      Function.Nests named text tokens (.mk span name params body)

end

/-- The spans of a unit nest.  A unit without text is empty. -/
structure Block.UnitNests (named : CellRef → String → Prop) (text : List Char)
    (tokens : List Token) (unit : Block) : Prop where
  bounds : unit.span.Bounds (unit.stmts.map Stmt.span)
  stmts : ∀ stmt ∈ unit.stmts, stmt.Nests named text tokens

variable {named : CellRef → String → Prop} {text more : List Char} {tokens others : List Token}

/-! ## More text -/

theorem Expr.Shows.mono {e : Expr} (h : e.Shows named text tokens) (hmore : text <+: more)
    (hothers : ∀ token ∈ tokens, token ∈ others) : e.Shows named more others := by
  obtain ⟨token, hmem, htoken, hstart, hstop, piece, hslice, hwraps⟩ := h
  exact ⟨token, hothers token hmem, htoken, hstart, hstop, piece,
    Text.slice?_of_prefix hslice hmore, hwraps⟩

mutual

theorem Expr.Nests.mono (hmore : text <+: more) (hothers : ∀ token ∈ tokens, token ∈ others) :
    ∀ {e : Expr}, e.Nests named text tokens → e.Nests named more others
  | _, .leaf hproper h => .leaf hproper (h.mono hmore hothers)
  | _, .list h hitems => .list h fun item hitem => (hitems item hitem).mono hmore hothers
  | _, .call h hcallee hargs =>
    .call h (hcallee.mono hmore hothers) fun arg harg => (hargs arg harg).mono hmore hothers
  | _, .closure h hfunction => .closure h (hfunction.mono hmore hothers)
  | _, .unary h hoperand => .unary h (hoperand.mono hmore hothers)
  | _, .binary h hleft hright =>
    .binary h (hleft.mono hmore hothers) (hright.mono hmore hothers)

theorem Stmt.Nests.mono (hmore : text <+: more) (hothers : ∀ token ∈ tokens, token ∈ others) :
    ∀ {stmt : Stmt}, stmt.Nests named text tokens → stmt.Nests named more others
  | _, .define h hvalue => .define h (hvalue.mono hmore hothers)
  | _, .assignLexical h hvalue => .assignLexical h (hvalue.mono hmore hothers)
  | _, .assignGlobal h hvalue => .assignGlobal h (hvalue.mono hmore hothers)
  | _, .expr h => .expr (h.mono hmore hothers)
  | _, .ret h hvalue => .ret h fun e he => (hvalue e he).mono hmore hothers
  | _, .block h => .block (h.mono hmore hothers)
  | _, .cond h htest hyes hno =>
    .cond h (htest.mono hmore hothers) (hyes.mono hmore hothers)
      fun body hbody => (hno body hbody).mono hmore hothers
  | _, .loop h htest hbody => .loop h (htest.mono hmore hothers) (hbody.mono hmore hothers)

theorem Block.Nests.mono (hmore : text <+: more) (hothers : ∀ token ∈ tokens, token ∈ others) :
    ∀ {body : Block}, body.Nests named text tokens → body.Nests named more others
  | _, .mk h hstmts => .mk h fun stmt hstmt => (hstmts stmt hstmt).mono hmore hothers

theorem Function.Nests.mono (hmore : text <+: more) (hothers : ∀ token ∈ tokens, token ∈ others) :
    ∀ {function : Function}, function.Nests named text tokens → function.Nests named more others
  | _, .mk h hbody => .mk h (hbody.mono hmore hothers)

end

/-! ## Wider spans -/

theorem Expr.span_withSpan (e : Expr) (span : Span) : (e.withSpan span).span = span := by
  cases e <;> rfl

theorem Expr.isToken_withSpan {e : Expr} {span : Span} {kind : TokenKind} :
    (e.withSpan span).IsToken named kind ↔ e.IsToken named kind := by
  cases e <;> exact Iff.rfl

/-- An expression that is not a single token may have a wider span. -/
theorem Expr.Nests.withSpan {e : Expr} {span : Span} (h : e.Nests named text tokens)
    (hcompound : ∀ kind, ¬e.IsToken named kind) (hstart : span.start ≤ e.span.start)
    (hstop : e.span.stop ≤ span.stop) : (e.withSpan span).Nests named text tokens := by
  cases h with
  | leaf _ hshows =>
      obtain ⟨token, _, htoken, _⟩ := hshows
      exact absurd htoken (hcompound token.kind)
  | list h hitems => exact .list (h.widen hstart hstop) hitems
  | call h hcallee hargs => exact .call (h.widen hstart hstop) hcallee hargs
  | closure h hfunction => exact .closure (h.widen hstart hstop) hfunction
  | unary h hoperand => exact .unary (h.widen hstart hstop) hoperand
  | binary h hleft hright => exact .binary (h.widen hstart hstop) hleft hright

end TwoPhase
