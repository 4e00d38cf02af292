import TwoPhase.Proofs.FinalText
import TwoPhase.Proofs.Parser.Completeness
import TwoPhase.Proofs.Parser.Soundness

/-!
# Expressions and the grammar

The parser reads expressions with one loop for all operators and a limit on how loosely they may
bind.  That is the documented grammar, in which every precedence has a rule of its own: an
expression is read from the tokens that write it, and from no others.
-/

namespace TwoPhase.Parser

variable {σ : Type} {host : Host σ}

/-- Tokens that write an expression are parsed to it and consumed, up to the last and no further, if
the token behind them does not go on.  An expression without closures that is parsed was written by
the tokens that were consumed.  This is so in every state, and for every bound that leaves room for
the tokens. -/
theorem expr_parsed_as_written (hnames : host.Names) :
    (∀ {kinds term}, Written .or kinds term → ∀ {bound}, kinds.length < bound →
      ∀ {s : State σ} {c : Buffer}, s.buffer.Passes kinds c → ¬c.next.1.kind.Continues →
      ∃ e t, run host bound .expr s = .value e t ∧ e.term? = some term ∧
        s.buffer.Passes kinds t.buffer) ∧
    ∀ {bound s e t term}, run host bound .expr s = .value e t → e.term? = some term →
      ∃ kinds, Written .or kinds term ∧ s.buffer.Passes kinds t.buffer := by
  constructor
  · intro kinds term hwritten bound hbound s c hpasses hstop
    have hjoins : Joins host 6 kinds term := Written.meets hnames hwritten
    obtain ⟨e, t, hrun, hterm, ht⟩ := hjoins.expr hbound hpasses hstop
    refine ⟨e, t, hrun, hterm, ?_⟩
    rw [← List.append_nil kinds]
    exact hpasses.append ht.symm
  · intro bound s e t term hrun hterm
    exact (run_writes hnames bound).expr s |>.value rfl hrun term hterm

/-- A product is an operand of a difference, and the comma behind the last item of a list is read
with the list. -/
theorem expr_parsed_as_written_product :
    let s : State Unit := .start "1 - x * [2,];" ()
    let kinds : List TokenKind :=
      [.int 1, .minus, .ident "x", .star, .bracketOpen, .int 2, .comma, .bracketClose]
    let term : Term := .binary .sub (.int 1) (.binary .mul (.name "x") (.list [.int 2]))
    (Written .or kinds term ∧ ∃ c, s.buffer.Passes kinds c ∧ c.next.1.kind = .semicolon) ∧
      ∃ e t, run Host.silent 9 .expr s = .value e t ∧ e.term? = some term ∧
        s.buffer.Passes kinds t.buffer := by
  intro s kinds term
  have hlist : Written .primary [.bracketOpen, .int 2, .comma, .bracketClose] (.list [.int 2]) :=
    .list (.cons ((Written.int (by decide)).anywhere _) .nil)
  have hproduct : Written .product [.ident "x", .star, .bracketOpen, .int 2, .comma, .bracketClose]
      (.binary .mul (.name "x") (.list [.int 2])) :=
    .binary .mul ((Written.name "x").anywhere _) (hlist.anywhere _)
  have hsum : Written .sum kinds term :=
    .binary .sub ((Written.int (by decide)).anywhere _) hproduct
  have hwritten : Written .or kinds term := .looser (.looser (.looser (.looser hsum)))
  let c : Buffer := s.buffer.next.2.next.2.next.2.next.2.next.2.next.2.next.2.next.2
  have hpasses : s.buffer.Passes kinds c := by
    refine ⟨?_, ?_, ?_, ?_, ?_, ?_, ?_, ?_, rfl⟩ <;> decide +kernel
  have hnext : c.next.1.kind = .semicolon := by decide +kernel
  have hstop : ¬c.next.1.kind.Continues := by
    rw [hnext]
    exact not_continues (by simp) rfl
  have hnames : Host.silent.Names := fun _ _ => rfl
  exact ⟨⟨hwritten, c, hpasses, hnext⟩,
    (expr_parsed_as_written hnames).1 hwritten (by decide) hpasses hstop⟩

end TwoPhase.Parser
