import TwoPhase.Proofs.Words
import TwoPhase.Proofs.Parser.Rounds
import TwoPhase.Proofs.Parser.Replay
import TwoPhase.Proofs.Parser.Written
import TwoPhase.Proofs.Sound.Parser

/-!
# Passing tokens

What the operations on single tokens do to a state, as equations.  Whether the next token was looked
at makes no difference to what is read next, so two buffers that differ in nothing else stand for
each other: `lookAhead` makes them equal.
-/

namespace TwoPhase

/-! ## Values of integer literals -/

namespace Scan

theorem withDigit_le {value : Option Nat} (h : ∀ n, value = some n → n ≤ maxValue) (c : Char) :
    ∀ n, withDigit value c = some n → n ≤ maxValue := by
  intro n hn
  unfold withDigit at hn
  split at hn
  · exact h n hn
  · obtain ⟨shorter, _, hlarger⟩ := Option.bind_eq_some_iff.1 hn
    dsimp only at hlarger
    split at hlarger
    · cases hlarger
      assumption
    · cases hlarger

theorem digits_le {value : Option Nat} {read cs : List Char}
    (h : ∀ n, value = some n → n ≤ maxValue) :
    ∀ n, (digits value read cs).1 = some n → n ≤ maxValue := by
  fun_induction digits value read cs with
  | case1 value read => exact h
  | case2 value read c cs _ ih => exact ih (withDigit_le h c)
  | case3 value read c cs _ => exact h

theorem ofNat_nonneg {value : Nat} (h : value ≤ maxValue) : 0 ≤ Int64.ofNat value := by
  have hlt : value < 2 ^ 63 := by
    have hmax : maxValue = 2 ^ 63 - 1 := by decide
    omega
  rw [Int64.le_iff_toInt_le, Int64.toInt_ofNat_of_lt hlt]
  exact Int.natCast_nonneg value

/-- An integer literal has no sign. -/
theorem lexeme_int {c : Char} {cs : List Char} {value : Int64}
    (h : (lexeme c cs).1 = .int value) : 0 ≤ value := by
  cases c, cs using lexeme_cases with
  | word c cs hword =>
      rw [lexeme_word hword, wordKind] at h
      dsimp only at h
      split at h
      · cases h
      · exact absurd h (ofWord_ne (by simp [TokenKind.keywords]) (by simp) _)
  | number c cs hword hdigit =>
      rw [lexeme_number hword hdigit] at h
      have hle : ∀ n, (digits (withDigit (some 0) c) [c] cs).1 = some n → n ≤ maxValue :=
        digits_le (withDigit_le (by simp) c)
      dsimp only at h
      split at h
      · rename_i n hn
        cases h
        exact ofNat_nonneg (hle n hn)
      · cases h
  | closed cs tail htail =>
      rw [lexeme_closed htail] at h
      cases h
  | unclosed cs hclosed =>
      rw [lexeme_unclosed hclosed] at h
      cases h
  | symbol c cs hword hdigit hquote =>
      rw [lexeme_symbol hword hdigit hquote] at h
      have hchar := symbol_kind (fun d => by unfold TokenKind.ofPair?; split <;> simp) h
      unfold TokenKind.ofChar at hchar
      split at hchar <;> cases hchar

theorem first_int {offset : Nat} {cs : List Char} {value : Int64}
    (h : (first offset cs).token.kind = .int value) : 0 ≤ value := by
  cases hskip : skip cs with
  | nil =>
      rw [(first_of_skip_nil offset hskip).1] at h
      cases h
  | cons c more =>
      rw [(first_of_skip offset hskip).1] at h
      exact lexeme_int h

end Scan

/-! ## Buffers up to the next token -/

namespace Buffer

variable {b c d : Buffer} {kind : TokenKind} {kinds more : List TokenKind}

theorem snd_peek (b : Buffer) : b.peek.2 = b.lookAhead := by
  unfold peek
  cases hpeeked : b.peeked with
  | none => rfl
  | some found =>
      obtain ⟨before, after, cursor, peeked, consumed, hcursor, hfound⟩ := b
      cases hpeeked
      simp only [lookAhead, hfound found rfl]

theorem next_lookAhead (b : Buffer) : b.lookAhead.next = b.next := by
  rw [← snd_peek, next_peek]

@[simp] theorem lookAhead_lookAhead (b : Buffer) : b.lookAhead.lookAhead = b.lookAhead := rfl

theorem next_congr (h : b.lookAhead = c.lookAhead) : b.next = c.next := by
  rw [← b.next_lookAhead, h, c.next_lookAhead]

theorem next_int (b : Buffer) {value : Int64} (h : b.next.1.kind = .int value) : 0 ≤ value := by
  have hfirst : b.next.1 = (Scan.first b.cursor b.after).token := by rw [← b.found_eq]; rfl
  exact Scan.first_int (hfirst ▸ h)

/-- Consuming tokens of some kinds leads from one buffer to another, in which the next token may
have been looked at. -/
def Passes (b : Buffer) : List TokenKind → Buffer → Prop
  | [], c => b.lookAhead = c.lookAhead
  | kind :: kinds, c => b.next.1.kind = kind ∧ b.next.2.Passes kinds c

theorem Passes.of_lookAhead (h : b.lookAhead = c.lookAhead) (hc : c.Passes kinds d) :
    b.Passes kinds d := by
  cases kinds with
  | nil => exact h.trans hc
  | cons kind kinds =>
      rw [Passes, next_congr h]
      exact hc

theorem passes_append : b.Passes (kinds ++ more) d ↔ ∃ c, b.Passes kinds c ∧ c.Passes more d := by
  induction kinds generalizing b with
  | nil =>
      constructor
      · intro h
        exact ⟨b, rfl, h⟩
      · rintro ⟨c, hc, h⟩
        exact .of_lookAhead hc h
  | cons kind kinds ih =>
      constructor
      · rintro ⟨hkind, h⟩
        obtain ⟨c, hc, hmore⟩ := ih.1 h
        exact ⟨c, ⟨hkind, hc⟩, hmore⟩
      · rintro ⟨c, ⟨hkind, hc⟩, hmore⟩
        exact ⟨hkind, ih.2 ⟨c, hc, hmore⟩⟩

theorem Passes.append (h : b.Passes kinds c) (h' : c.Passes more d) :
    b.Passes (kinds ++ more) d :=
  passes_append.2 ⟨c, h, h'⟩

theorem Passes.one (h : b.next.1.kind = kind) (hc : b.next.2.lookAhead = c.lookAhead) :
    b.Passes [kind] c :=
  ⟨h, hc⟩

end Buffer

/-! ## States -/

namespace Parser

open Run (Triple Yields)

variable {σ α β : Type} {kind : TokenKind}

/-- The state with the next token looked at. -/
def State.lookAhead (s : State σ) : State σ := { s with buffer := s.buffer.lookAhead }

/-- The state behind the next token. -/
def State.next (s : State σ) : State σ := { s with buffer := s.buffer.next.2 }

@[simp] theorem State.buffer_lookAhead (s : State σ) :
    s.lookAhead.buffer = s.buffer.lookAhead := rfl

@[simp] theorem State.buffer_next (s : State σ) : s.next.buffer = s.buffer.next.2 := rfl

@[simp] theorem State.next_lookAhead (s : State σ) : s.lookAhead.next = s.next := by
  simp only [State.next, State.lookAhead, Buffer.next_lookAhead]

@[simp] theorem State.lookAhead_lookAhead (s : State σ) :
    s.lookAhead.lookAhead = s.lookAhead := rfl

@[simp] theorem peek_apply (s : State σ) :
    (peek : Parse σ Token) s = .value s.buffer.next.1 s.lookAhead := by
  simp only [peek, Run.modifyGet_apply, Buffer.fst_peek, Buffer.snd_peek]
  rfl

@[simp] theorem advance_apply (s : State σ) :
    (advance : Parse σ Token) s = .value s.buffer.next.1 s.next := rfl

@[simp] theorem check_apply (s : State σ) (kind : TokenKind) :
    (check kind : Parse σ Bool) s = .value (s.buffer.next.1.kind == kind) s.lookAhead := by
  simp only [check, Run.bind_apply, peek_apply]
  rfl

theorem expect_apply {s : State σ} (h : s.buffer.next.1.kind = kind) :
    (expect kind : Parse σ Token) s = .value s.buffer.next.1 s.next := by
  simp only [expect, Run.bind_apply, peek_apply, h, if_pos, advance_apply, State.buffer_lookAhead,
    Buffer.next_lookAhead, State.next_lookAhead]

theorem eat_apply (s : State σ) (kind : TokenKind) :
    (eat kind : Parse σ Bool) s =
      if s.buffer.next.1.kind = kind then .value true s.next else .value false s.lookAhead := by
  simp only [eat, Run.bind_apply, check_apply]
  by_cases hkind : s.buffer.next.1.kind = kind
  · rw [if_pos hkind, beq_iff_eq.2 hkind, if_pos rfl]
    simp only [Run.bind_apply, advance_apply, State.next_lookAhead, Run.pure_apply]
  · rw [if_neg hkind, beq_eq_false_iff_ne.2 hkind, if_neg Bool.false_ne_true, Run.pure_apply]

theorem inScope_apply (scope : ScopeKind) (names : List String) (body : Parse σ α) (s : State σ) :
    inScope scope names body s
      = (body { s with scopes := .declaring scope names :: s.scopes }).mapState
          fun t => { t with scopes := t.scopes.tail } := rfl

section

variable {host : Host σ} {bound rounds : Nat} {again : Again σ} {s : State σ}

/-- A block ends at its closing brace. -/
theorem round_close {openSpan : Span} {stmts : List Stmt}
    (hkind : s.buffer.next.1.kind = .braceClose) :
    round host rounds again (.braced openSpan) stmts s = .value
      (.done (.mk (openSpan.merge s.buffer.next.1.span) stmts.reverse)) s.next := by
  simp only [round, Run.bind_apply, peek_apply, hkind, advance_apply, State.next_lookAhead,
    Run.pure_apply]

theorem block_empty (hopen : s.buffer.next.1.kind = .braceOpen)
    (hclose : s.next.buffer.next.1.kind = .braceClose) (scope : ScopeKind) :
    run host (bound + 2) (.block scope) s = .value
      (.mk (s.buffer.next.1.span.merge s.next.buffer.next.1.span) []) s.next.next := by
  let inside : State σ := { s.next with scopes := .declaring scope [] :: s.scopes }
  have hround : round host (bound + 1) (run host (bound + 1)) (.braced s.buffer.next.1.span) []
      inside = .value (.done (.mk (s.buffer.next.1.span.merge s.next.buffer.next.1.span) []))
        inside.next := round_close hclose
  rw [run_succ, parse, block_eq, Run.bind_apply, expect_apply hopen]
  change (Run.iterate (bound + 1) _ [] inside).mapState _ = _
  rw [Run.iterate, hround]
  rfl

/-- Where the text of a unit starts with a `begin` block, the block runs before more is parsed. -/
theorem runUnit_begin {source : String} {h : σ} {body : Block} {t : State σ}
    (hkeyword : (Buffer.ofString source).next.1.kind = .kwBegin)
    (hbody : run host (bound + 1) (.block .beginBlock)
      ⟨(Buffer.ofString source).next.2, [.declaring .unit []], h⟩ = .value body t) :
    runUnit host (bound + 1) (.start source h) = ((do
      runBegin host (bound + 1) body ((Buffer.ofString source).next.1.span.merge body.span)
      Run.iterate bound (round host (bound + 1) (run host (bound + 1)) .unit) [] :
        Parse σ Block) t).mapState fun t => { t with scopes := t.scopes.tail } := by
  let inside : State σ := ⟨.ofString source, [.declaring .unit []], h⟩
  have hround : round host (bound + 1) (run host (bound + 1)) .unit [] inside = (do
      runBegin host (bound + 1) body ((Buffer.ofString source).next.1.span.merge body.span)
      return .next [] : Parse σ (Run.Step (List Stmt) Block)) t := round_begin_eq hkeyword hbody
  rw [runUnit, unit_eq, inScope_apply]
  change (Run.iterate (bound + 1) _ [] inside).mapState _ = _
  rw [Run.iterate, hround, Run.bind_apply, Run.bind_apply]
  cases runBegin host (bound + 1) body
    ((Buffer.ofString source).next.1.span.merge body.span) t <;> rfl

end

/-- A name is resolved to an expression that stands for it, whatever it refers to. -/
theorem resolve_apply {host : Host σ} (hnames : host.Names) (name : String) (span : Span)
    (s : State σ) : ∃ e h, resolve host name span s = .value e { s with host := h } ∧
      e.term? = some (.name name) := by
  obtain ⟨buffer, scopes, h⟩ := s
  cases hlexical : lexical? name scopes with
  | some ref =>
      refine ⟨.lexical span ref, h, by simp only [resolve, Run.modifyGet_apply, hlexical], ?_⟩
      rw [Expr.term?, lexical?_name hlexical]
  | none =>
      refine ⟨.global span (host.resolveGlobal name h).1, (host.resolveGlobal name h).2, ?_, ?_⟩
      · simp only [resolve, Run.modifyGet_apply, hlexical]
      · rw [Expr.term?, hnames name h]

/-! ## Operators -/

theorem operator?_kind (op : BinaryOp) : operator? op.kind = some op := by
  cases op <;> rfl

theorem operator?_eq_some {kind : TokenKind} {op : BinaryOp} (h : operator? kind = some op) :
    kind = op.kind := by
  unfold operator? at h
  split at h <;> cases h <;> rfl

theorem not_continues {kind : TokenKind} (hparen : kind ≠ .parenOpen)
    (hoperator : operator? kind = none) : ¬kind.Continues := by
  rintro (hkind | ⟨op, hkind⟩)
  · exact hparen hkind
  · rw [hkind, operator?_kind] at hoperator
    cases hoperator

/-! ## Loops over names and expressions -/

/-- A round of the loop over parameters, with those that were read so far, the last first. -/
def nameRound (openSpan : Span) (names : List String) :
    Parse σ (Run.Step (List String) (List String)) := do
  let token ← peek
  match token.kind with
  | .parenClose =>
    let _ ← advance
    return .done names.reverse
  | .endOfInput => fail (.unclosed '(' openSpan) token.span
  | _ =>
    let name ← expectLexicalName
    if !(← check .parenClose) then let _ ← expect .comma
    return .next (name :: names)

variable (rounds : Nat) (again : Again σ)

theorem parameters_eq : (parameters rounds : Parse σ (List String)) = (do
    let openToken ← expect .parenOpen
    Run.iterate rounds (nameRound openToken.span) []) := rfl

/-- A round of the loop over the items between delimiters, with those that were read so far, the
last first. -/
def itemRound (closing : TokenKind) (delimiter : Char) (openSpan : Span) (items : List Expr) :
    Parse σ (Run.Step (List Expr) (List Expr × Span)) := do
  let token ← peek
  if token.kind = closing then
    let _ ← advance
    return .done (items.reverse, token.span)
  if token.kind = .endOfInput then fail (.unclosed delimiter openSpan) token.span
  let item ← again .expr
  if !(← check closing) then let _ ← expect .comma
  return .next (item :: items)

theorem delimited_eq (opening closing : TokenKind) (delimiter : Char) :
    delimited rounds again opening closing delimiter = (do
      let openToken ← expect opening
      Run.iterate rounds (itemRound again closing delimiter openToken.span) []) := rfl

/-- A round of the loop over the calls of an expression. -/
def callRound (callee : Expr) : Parse σ (Run.Step Expr Expr) := do
  if ← check .parenOpen then
    let (args, close) ← delimited rounds again .parenOpen .parenClose '('
    return .next (.call (callee.span.merge close) callee args)
  else return .done callee

theorem call_eq (host : Host σ) : call host rounds again
    = primary host rounds again >>= Run.iterate rounds (callRound rounds again) := rfl

/-- A round of the loop over operators, with what is joined so far. -/
def joinRound (limit : Nat) (left : Expr) : Parse σ (Run.Step Expr Expr) := do
  let token ← peek
  match operator? token.kind with
  | none => return .done left
  | some op =>
    if limit ≤ looseness op then return .done left
    let _ ← advance
    let right ← again (.joined (looseness op))
    return .next (.binary (left.span.merge right.span) op left right)

theorem joined_eq (host : Host σ) (limit : Nat) : joined host rounds again limit
    = unary host rounds again >>= Run.iterate rounds (joinRound again limit) := rfl

end Parser

end TwoPhase
