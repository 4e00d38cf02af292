import TwoPhase.Proofs.Likeness.Value
import TwoPhase.Proofs.Words

/-!
# Buffers with the same words ahead

Where spans do not count, buffers are alike if the same words are ahead of their cursors.  Line mode
splices a text in further on than precise mode, but where it does so without a warning, there is
nothing but blanks and comments in between, and the words ahead are the same.
-/

namespace TwoPhase

variable {K : Comparison}

instance : HasLike TokenKind := .ofEq

/-- The same token, up to its span. -/
structure Token.Like (K : Comparison) (t u : Token) : Prop where
  kind : t.kind = u.kind
  lexeme : t.lexeme = u.lexeme
  span : t.span.Like K u.span

instance : HasLike Token := ⟨Token.Like, fun _ t => ⟨rfl, rfl, .refl t.span⟩⟩

/-- The same words ahead. -/
structure Buffer.Like (K : Comparison) (b c : Buffer) : Prop where
  words : Scan.words b.after = Scan.words c.after
  eq : K.exact → b = c

instance : HasLike Buffer := ⟨Buffer.Like, fun _ _ => ⟨rfl, fun _ => rfl⟩⟩

namespace Buffer.Like

variable {b c : Buffer}

/-! ## Reading -/

theorem refl (b : Buffer) : b.Like K b := ⟨rfl, fun _ => rfl⟩

theorem found (h : b.Like K c) : b.found.token.Like K c.found.token ∧
    Scan.words b.found.rest = Scan.words c.found.rest := by
  rw [b.found_eq, c.found_eq]
  obtain ⟨hkind, hlexeme, hrest⟩ := Scan.first_of_words h.words b.cursor c.cursor
  exact ⟨⟨hkind, hlexeme, fun hexact => by rw [h.eq hexact]⟩, hrest⟩

theorem next (h : b.Like K c) : b.next.1.Like K c.next.1 ∧ b.next.2.Like K c.next.2 :=
  ⟨h.found.1, h.found.2, fun hexact => by rw [h.eq hexact]⟩

theorem peek (h : b.Like K c) : b.peek.1.Like K c.peek.1 ∧ b.peek.2.Like K c.peek.2 := by
  have hpeek : ∀ d : Buffer, d.peek.1 = d.found.token ∧ d.peek.2.after = d.after := by
    intro d
    unfold Buffer.peek Buffer.found
    cases d.peeked <;> exact ⟨rfl, rfl⟩
  rw [(hpeek b).1, (hpeek c).1]
  refine ⟨h.found.1, ?_, fun hexact => by rw [h.eq hexact]⟩
  rw [(hpeek b).2, (hpeek c).2]
  exact h.words

end Buffer.Like

/-! ## Splicing a fragment in -/

namespace Buffer

theorem fuses_fragment (left : Option Char) (depth : Nat) (right : Option Char) :
    padded left (dispatchFragment depth).toList right
      = (if fuses left (some 'a') then [' '] else []) ++ (dispatchFragment depth).toList := by
  have hhead : (dispatchFragment depth).toList.head? = some 'a' := by
    rw [toList_dispatchFragment]
    rfl
  have hlast : (dispatchFragment depth).toList.getLast? = some '\x7d' := by
    rw [toList_dispatchFragment, toList_clearFragment, List.getLast?_append, List.getLast?_append,
      List.getLast?_append]
    rfl
  have hback : fuses (some '\x7d') right = false := rfl
  rw [padded, hhead, hlast, hback]
  simp

/-- Right behind the cursor, a fragment is read first. -/
theorem words_insertAtCursor (b : Buffer) (depth : Nat) :
    Scan.words (b.insertAtCursor (dispatchFragment depth)).2.after
      = fragmentWords depth ++ Scan.words b.after := by
  change Scan.words
    (padded b.before.head? (dispatchFragment depth).toList b.after.head? ++ b.after) = _
  rw [fuses_fragment]
  split
  · exact (Scan.words_blank rfl _).trans (words_dispatchFragment depth b.after)
  · exact words_dispatchFragment depth b.after

/-- Where no warning is due, only blanks and comments are left of the current line. -/
theorem skip_of_no_warning {b : Buffer} {text : String}
    (hwarning : (b.insertNextLine text).1.warning = none) :
    Scan.skip (b.after.takeWhile (· != '\n')) = [] := by
  have hspan : codeSpan? b.cursor (b.after.takeWhile (· != '\n')) = none :=
    Option.map_eq_none_iff.1 hwarning
  have htokens : Scan.tokens b.cursor (b.after.takeWhile (· != '\n')) = [] := by
    unfold codeSpan? at hspan
    split at hspan
    · assumption
    · cases hspan
  cases hskip : Scan.skip (b.after.takeWhile (· != '\n')) with
  | nil => rfl
  | cons c more =>
      rw [Scan.tokens_cons (Scan.first_kind_ne_end b.cursor hskip)] at htokens
      cases htokens

/-- On the next line, a fragment is read first if nothing is left of the current line. -/
theorem words_insertNextLine (b : Buffer) (depth : Nat)
    (hwarning : (b.insertNextLine (dispatchFragment depth)).1.warning = none) :
    Scan.words (b.insertNextLine (dispatchFragment depth)).2.after
      = fragmentWords depth ++ Scan.words b.after := by
  obtain ⟨line, following, hline, hafter, hinsert⟩ := b.insert_line_after (dispatchFragment depth)
  have hblank : Scan.skip line = [] := takeWhile_line hline hafter ▸ skip_of_no_warning hwarning
  have hahead : Scan.words b.after = Scan.words following := by
    rcases hafter with ⟨rfl, rfl⟩ | hafter
    · exact Scan.words_skip hblank
    · rw [hafter]
      exact Scan.words_skip (Scan.skip_line hline hblank following)
  change Scan.words (b.insert .line (dispatchFragment depth)).after = _
  rw [hinsert, Scan.words_skip (Scan.skip_line hline hblank _), fuses_fragment,
    if_neg (by decide), List.nil_append, words_dispatchFragment, hahead]

end Buffer

end TwoPhase
