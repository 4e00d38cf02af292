import TwoPhase.Proofs.Agreement
import TwoPhase.Proofs.Parser.Passing
import TwoPhase.Proofs.Sound.Nesting

/-!
# What a parse takes

Every part of the grammar takes at least one token, and the span of what it gives runs from the
start of the first token to the end of the last one in it.  Everything is read behind what was read
before, so the spans of parts stand one behind the other and nest in that of the whole.

A `begin` block may splice any text in behind the cursor.  What was taken before is in front of it
and stays (`Buffer.Grows`), so the block is only asked to do nothing else to the buffer
(`Host.Splices`).  What else is known of the host is a property that its operations keep
(`Keeper`).
-/

namespace TwoPhase

open Scan (Wraps)

/-! ## Buffers -/

theorem Span.merge_eq {p q : Span} (hstart : p.start ≤ q.start) (hstop : p.stop ≤ q.stop) :
    p.merge q = ⟨p.start, q.stop⟩ := by
  rw [merge, Nat.min_eq_left hstart, Nat.max_eq_right hstop]

namespace Buffer

variable {b c d : Buffer} {span p q : Span}

/-- More was consumed, and what was consumed stays. -/
structure Grows (b c : Buffer) : Prop where
  behind : b.behind <+: c.behind
  consumed : b.consumed <:+ c.consumed

theorem byteLength_behind (b : Buffer) : Text.byteLength b.behind = b.cursor := by
  rw [behind, Text.byteLength_reverse, b.cursor_eq]

namespace Grows

theorem refl (b : Buffer) : b.Grows b := ⟨List.prefix_rfl, List.suffix_rfl⟩

theorem trans (h : b.Grows c) (h' : c.Grows d) : b.Grows d :=
  ⟨h.behind.trans h'.behind, h.consumed.trans h'.consumed⟩

theorem cursor_le (h : b.Grows c) : b.cursor ≤ c.cursor := by
  rw [← b.byteLength_behind, ← c.byteLength_behind]
  exact Text.byteLength_mono h.behind

theorem mem (h : b.Grows c) : ∀ token ∈ b.consumed, token ∈ c.consumed :=
  fun _ hmem => h.consumed.subset hmem

theorem lookAhead (b : Buffer) : b.Grows b.lookAhead := ⟨List.prefix_rfl, List.suffix_rfl⟩

theorem of_lookAhead (h : b.lookAhead.Grows c) : b.Grows c := (lookAhead b).trans h

theorem next (b : Buffer) : b.Grows b.next.2 :=
  ⟨b.behind_le_next, List.suffix_cons b.next.1 b.consumed⟩

theorem of_spliced (h : b.Spliced c) : b.Grows c := by
  obtain ⟨hbefore, _, hconsumed⟩ := h.before
  refine ⟨?_, hconsumed ▸ List.suffix_rfl⟩
  rw [Buffer.behind, Buffer.behind, hbefore]

end Grows

theorem cursor_le_next (b : Buffer) : b.cursor ≤ b.next.1.span.start := by
  have hstart := Scan.first_start b.cursor b.after
  rw [← b.found_eq] at hstart
  change b.cursor ≤ b.found.token.span.start
  omega

theorem start_le_next (b : Buffer) : b.next.1.span.start ≤ b.next.1.span.stop := b.next_fits.ordered

/-- Only the end of a text is an empty token. -/
theorem next_lexeme_ne_nil (h : b.next.1.kind ≠ .endOfInput) : b.next.1.lexeme ≠ [] := by
  have hfound : b.next.1 = (Scan.first b.cursor b.after).token := by rw [← b.found_eq]; rfl
  rw [hfound] at h ⊢
  exact Scan.first_lexeme_ne_nil h

theorem next_proper (h : b.next.1.kind ≠ .endOfInput) :
    b.next.1.span.start < b.next.1.span.stop := by
  have hstart := Scan.first_start b.cursor b.after
  have hstop := Scan.first_span b.cursor b.after
  have hne := mt Scan.byteLength_eq_zero (b.next_lexeme_ne_nil h)
  rw [← b.found_eq] at hstart hstop
  change b.found.token.span.start < b.found.token.span.stop
  change Text.byteLength b.found.token.lexeme ≠ 0 at hne
  omega

/-- The next token, which is not the end of the text, was consumed, and perhaps more. -/
structure Past (b c : Buffer) : Prop where
  grows : b.next.2.Grows c
  token : b.next.1.kind ≠ .endOfInput

namespace Past

theorem next (h : b.next.1.kind ≠ .endOfInput) : b.Past b.next.2 := ⟨.refl _, h⟩

theorem mono (h : b.Past c) (h' : c.Grows d) : b.Past d := ⟨h.grows.trans h', h.token⟩

theorem of_lookAhead (h : b.lookAhead.Past c) : b.Past c := by
  have hgrows := h.grows
  have htoken := h.token
  rw [next_lookAhead] at hgrows htoken
  exact ⟨hgrows, htoken⟩

theorem toGrows (h : b.Past c) : b.Grows c := (Grows.next b).trans h.grows

/-- A part that takes a token comes behind one that grew the buffer. -/
theorem after (h : b.Grows c) (h' : c.Past d) : b.cursor < d.cursor := by
  have hle := h.cursor_le
  have hbefore := c.cursor_le_next
  have hproper := c.next_proper h'.token
  have hstop : c.next.1.span.stop ≤ d.cursor := h'.grows.cursor_le
  omega

theorem cursor_lt (h : b.Past c) : b.cursor < c.cursor := after (.refl b) h

end Past

/-- A span that starts with the next token, and ends in what was consumed then. -/
structure Takes (b : Buffer) (span : Span) (c : Buffer) : Prop where
  past : b.Past c
  start : span.start = b.next.1.span.start
  proper : span.start < span.stop
  stop : span.stop ≤ c.cursor

namespace Takes

theorem cursor_le (h : b.Takes span c) : b.cursor ≤ span.start := h.start ▸ b.cursor_le_next

theorem mono (h : b.Takes span c) (h' : c.Grows d) : b.Takes span d :=
  ⟨h.past.mono h', h.start, h.proper, h.stop.trans h'.cursor_le⟩

theorem of_lookAhead (h : b.lookAhead.Takes span c) : b.Takes span c := by
  have hstart := h.start
  rw [next_lookAhead] at hstart
  exact ⟨h.past.of_lookAhead, hstart, h.proper, h.stop⟩

/-- The next token alone. -/
theorem token (h : b.next.1.kind ≠ .endOfInput) : b.Takes b.next.1.span b.next.2 :=
  ⟨.next h, rfl, b.next_proper h, Nat.le_refl _⟩

theorem merge_eq (h : b.Takes p c) (h' : c.Takes q d) : p.merge q = ⟨p.start, q.stop⟩ := by
  have hstop := h.stop
  have hcursor := h'.cursor_le
  have hproper := h'.proper
  have hproper' := h.proper
  exact Span.merge_eq (by omega) (by omega)

/-- Two spans one behind the other as one. -/
theorem join (h : b.Takes p c) (h' : c.Takes q d) : b.Takes (p.merge q) d := by
  rw [h.merge_eq h']
  have hstop := h.stop
  have hcursor := h'.cursor_le
  have hproper := h'.proper
  have hproper' := h.proper
  exact ⟨h.past.mono h'.past.toGrows, h.start, by dsimp only; omega, h'.stop⟩

/-- What is between the first and the last span is held by both as one. -/
theorem holds (h : b.Takes p c) (h' : c.Takes q d) {low : Nat} {parts : List Span}
    (hrow : Span.InRow low parts c.cursor) (hlow : p.start ≤ low) : (p.merge q).Holds parts := by
  have hproper := (h.join h').proper
  have hcursor := h'.cursor_le
  have hproper' := h'.proper
  rw [h.merge_eq h'] at hproper ⊢
  exact hrow.holds hlow (by dsimp only; omega) hproper

/-- And so is the last one. -/
theorem holds_last (h : b.Takes p c) (h' : c.Takes q d) {low : Nat} {parts : List Span}
    (hrow : Span.InRow low parts c.cursor) (hlow : p.start ≤ low) :
    (p.merge q).Holds (parts ++ [q]) := by
  have hproper := (h.join h').proper
  rw [h.merge_eq h'] at hproper ⊢
  have hlast : Span.InRow c.cursor [q] q.stop := .one h'.cursor_le h'.proper (Nat.le_refl _)
  exact (hrow.append hlast).holds hlow (Nat.le_refl _) hproper

/-- A span and the part behind it. -/
theorem holds_one (h : b.Takes p c) (h' : c.Takes q d) : (p.merge q).Holds [q] := by
  have hnone : Span.InRow p.start [] c.cursor := h.proper.le.trans h.stop
  exact h.holds_last h' hnone (Nat.le_refl _)

/-- The last of some spans in a row. -/
theorem inRow (h : b.Takes span c) {low : Nat} (hlow : low ≤ b.cursor) :
    Span.InRow low [span] c.cursor :=
  .one (hlow.trans h.cursor_le) h.proper h.stop

end Takes

/-- The next token has a gap in front of it and is the longest match there. -/
theorem next_munch (h : b.next.1.kind ≠ .endOfInput) :
    Scan.Skips b.found.skipped.reverse (b.next.1.lexeme.reverse ++ b.next.2.after) ∧
      Scan.Munch b.next.1.kind b.next.1.lexeme.reverse b.next.2.after := by
  have hfound := b.found_eq
  change b.found.token.kind ≠ .endOfInput at h
  change Scan.Skips b.found.skipped.reverse (b.found.token.lexeme.reverse ++ b.found.rest) ∧
    Scan.Munch b.found.token.kind b.found.token.lexeme.reverse b.found.rest
  rw [hfound] at h ⊢
  exact Scan.first_munch h

end Buffer

/-! ## Expressions -/

/-- If an expression is a single token, then that is all that was consumed, perhaps in
parentheses. -/
def Expr.Single (named : CellRef → String → Prop) (b : Buffer) (e : Expr) (c : Buffer) : Prop :=
  ∀ kind, e.IsToken named kind → e.span.stop = c.cursor ∧
    ∃ token ∈ c.consumed, e.IsToken named token.kind ∧
      e.span.start ≤ token.span.start ∧ token.span.stop ≤ e.span.stop ∧
      ∃ piece, c.behind = b.behind ++ b.found.skipped.reverse ++ piece ∧
        Wraps token.lexeme.reverse piece

/-- What is known of an expression and the text that was consumed for it. -/
structure Expr.Taken (named : CellRef → String → Prop) (b : Buffer) (e : Expr) (c : Buffer) :
    Prop where
  takes : b.Takes e.span c
  nests : e.Nests named c.behind c.consumed
  single : e.Single named b c

namespace Expr

variable {named : CellRef → String → Prop} {b c d : Buffer} {e : Expr} {span : Span}
  {kind : TokenKind}

theorem Nests.grow (h : e.Nests named b.behind b.consumed) (hgrows : b.Grows c) :
    e.Nests named c.behind c.consumed :=
  h.mono hgrows.behind hgrows.mem

theorem single_of_compound (h : ∀ kind, ¬e.IsToken named kind) : e.Single named b c :=
  fun kind hkind => absurd hkind (h kind)

/-- A single token shows at its span. -/
theorem Taken.of_single (htakes : b.Takes e.span c) (hsingle : e.Single named b c)
    (htoken : e.IsToken named kind) : e.Taken named b c := by
  obtain ⟨hstop, token, hmem, hkind, hfirst, hlast, piece, hbehind, hwraps⟩ := hsingle kind htoken
  refine ⟨htakes, .leaf htakes.proper ⟨token, hmem, hkind, hfirst, hlast, piece, ?_, hwraps⟩,
    hsingle⟩
  have hstart := Scan.first_start b.cursor b.after
  rw [← b.found_eq] at hstart
  refine Text.slice?_eq_some_iff.2
    ⟨b.behind ++ b.found.skipped.reverse, [], by rw [List.append_nil, hbehind], ?_, ?_⟩
  · rw [htakes.start, Text.byteLength_append, b.byteLength_behind, Text.byteLength_reverse]
    exact hstart.symm
  · rw [hstop, ← c.byteLength_behind, hbehind]

theorem Taken.token (hspan : e.span = b.next.1.span) (htoken : e.IsToken named b.next.1.kind)
    (hkind : b.next.1.kind ≠ .endOfInput) : e.Taken named b b.next.2 := by
  refine .of_single (hspan ▸ .token hkind) (fun _ _ => ?_) htoken
  rw [hspan]
  exact ⟨rfl, b.next.1, List.mem_cons_self, htoken, Nat.le_refl _, Nat.le_refl _, _, b.behind_next,
    .bare⟩

theorem Taken.looked (h : e.Taken named b c) : e.Taken named b c.lookAhead :=
  ⟨h.takes.mono (.lookAhead c), h.nests, h.single⟩

theorem Taken.of_lookAhead (h : e.Taken named b.lookAhead c) :
    e.Taken named b c := by
  refine ⟨h.takes.of_lookAhead, h.nests, fun kind hkind => ?_⟩
  have hsingle := h.single kind hkind
  have hfound : b.lookAhead.found = b.found := by
    rw [b.found_eq]
    exact b.lookAhead.found_eq
  rw [hfound] at hsingle
  exact hsingle

/-- The text of what is in parentheses, with the parentheses. -/
theorem wraps_parens (hopen : b.next.1.kind = .parenOpen) (hpast : b.next.2.Past c)
    (hclose : c.next.1.kind = .parenClose) {token piece : List Char}
    (hbehind : c.behind = b.next.2.behind ++ b.next.2.found.skipped.reverse ++ piece)
    (hwraps : Wraps token piece) : ∃ whole,
      c.next.2.behind = b.behind ++ b.found.skipped.reverse ++ whole ∧ Wraps token whole := by
  have hleft : b.next.1.lexeme.reverse = ['('] :=
    (hopen ▸ (b.next_munch (by simp [hopen])).2).parenOpen
  obtain ⟨hback, hright⟩ := c.next_munch (by simp [hclose])
  have hright : c.next.1.lexeme.reverse = [')'] := (hclose ▸ hright).parenClose
  obtain ⟨hfront, _⟩ := b.next.2.next_munch hpast.token
  -- what is in the parentheses starts with the token behind the opening one
  obtain ⟨more, hpiece⟩ : b.next.2.next.1.lexeme.reverse <+: piece := by
    have hgrows := hpast.grows.behind
    rw [Buffer.behind_next, hbehind] at hgrows
    exact (List.prefix_append_right_inj _).1 hgrows
  have hne : b.next.2.next.1.lexeme.reverse ≠ [] := by
    simpa using b.next.2.next_lexeme_ne_nil hpast.token
  refine ⟨_, ?_, .parens hwraps (hfront.congr ?_) (hback.congr ?_)⟩
  · have hstart : b.next.2.behind
        = b.behind ++ b.found.skipped.reverse ++ b.next.1.lexeme.reverse := b.behind_next
    have hend : c.next.2.behind = c.behind ++ c.found.skipped.reverse ++ c.next.1.lexeme.reverse :=
      c.behind_next
    rw [hend, hbehind, hstart, hleft, hright]
    simp
  · rw [← hpiece, List.append_assoc, List.head?_append_of_ne_nil _ hne,
      List.head?_append_of_ne_nil _ hne]
  · rw [hright]
    rfl

/-- An expression in parentheses. -/
theorem Taken.parens (hopen : b.next.1.kind = .parenOpen) (h : e.Taken named b.next.2 c)
    (hclose : c.next.1.kind = .parenClose) :
    (e.withSpan (b.next.1.span.merge c.next.1.span)).Taken named b c.next.2 := by
  have hfirst : b.Takes b.next.1.span b.next.2 := .token (by simp [hopen])
  have hlast : c.Takes c.next.1.span c.next.2 := .token (by simp [hclose])
  have htakes := (hfirst.mono h.takes.past.toGrows).join hlast
  have hmerge := (hfirst.mono h.takes.past.toGrows).merge_eq hlast
  have hspan := e.span_withSpan (b.next.1.span.merge c.next.1.span)
  have hinner := h.takes.cursor_le
  have hstart : b.next.1.span.start ≤ e.span.start := by
    have hproper := hfirst.proper
    have hcursor := hfirst.stop
    omega
  have hstop : e.span.stop ≤ c.next.1.span.stop := by
    have hproper := hlast.proper
    have hcursor := hlast.cursor_le
    have hstop := h.takes.stop
    omega
  by_cases htoken : ∃ kind, e.IsToken named kind
  · obtain ⟨kind, htoken⟩ := htoken
    refine .of_single (hspan.symm ▸ htakes) (fun _ _ => ?_) (isToken_withSpan.2 htoken)
    obtain ⟨_, token, hmem, hkind, hfrom, hto, piece, hbehind, hwraps⟩ := h.single kind htoken
    obtain ⟨whole, hwhole, hwraps⟩ := wraps_parens hopen h.takes.past hclose hbehind hwraps
    rw [hspan, hmerge]
    exact ⟨rfl, token, List.mem_cons_of_mem _ hmem, isToken_withSpan.2 hkind, hstart.trans hfrom,
      hto.trans hstop, whole, hwhole, hwraps⟩
  · have hcompound : ∀ kind, ¬e.IsToken named kind := not_exists.1 htoken
    refine ⟨hspan.symm ▸ htakes, ?_,
      single_of_compound fun kind => mt isToken_withSpan.1 (hcompound kind)⟩
    rw [hmerge]
    exact (h.nests.grow (.next c)).withSpan hcompound hstart hstop

/-- Expressions that were taken one behind the other, from an offset on. -/
structure Row (named : CellRef → String → Prop) (low : Nat) (items : List Expr) (c : Buffer) :
    Prop where
  spans : Span.InRow low (items.map Expr.span) c.cursor
  nests : ∀ item ∈ items, item.Nests named c.behind c.consumed

theorem Row.grow {low : Nat} {items : List Expr} (h : Row named low items b) (hgrows : b.Grows c) :
    Row named low items c :=
  ⟨h.spans.mono hgrows.cursor_le, fun item hmem => (h.nests item hmem).grow hgrows⟩

theorem Row.snoc {low : Nat} {items : List Expr} (h : Row named low items b)
    (he : e.Taken named b c) : Row named low (items ++ [e]) c := by
  refine ⟨?_, fun item hmem => ?_⟩
  · rw [List.map_append]
    exact h.spans.append (he.takes.inRow (Nat.le_refl _))
  · rcases List.mem_append.1 hmem with hmem | hmem
    · exact (h.nests item hmem).grow he.takes.past.toGrows
    · rw [List.mem_singleton.1 hmem]
      exact he.nests

end Expr

/-! ## Statements, blocks and functions -/

/-- What is known of a statement and the text that was consumed for it. -/
structure Stmt.Taken (named : CellRef → String → Prop) (b : Buffer) (stmt : Stmt)
    (c : Buffer) : Prop where
  takes : b.Takes stmt.span c
  nests : stmt.Nests named c.behind c.consumed

/-- What is known of a block and the text that was consumed for it. -/
structure Block.Taken (named : CellRef → String → Prop) (b : Buffer) (body : Block)
    (c : Buffer) : Prop where
  takes : b.Takes body.span c
  nests : body.Nests named c.behind c.consumed

/-- What is known of a function and the text that was consumed for it. -/
structure Function.Taken (named : CellRef → String → Prop) (b : Buffer) (function : Function)
    (c : Buffer) : Prop where
  takes : b.Takes function.span c
  nests : function.Nests named c.behind c.consumed

section

variable {named : CellRef → String → Prop} {b c : Buffer}

theorem Stmt.Taken.grow {stmt : Stmt} (h : stmt.Taken named b c) {d : Buffer}
    (hgrows : c.Grows d) : stmt.Taken named b d :=
  ⟨h.takes.mono hgrows, h.nests.mono hgrows.behind hgrows.mem⟩

theorem Stmt.Taken.of_lookAhead {stmt : Stmt} (h : stmt.Taken named b.lookAhead c) :
    stmt.Taken named b c :=
  ⟨h.takes.of_lookAhead, h.nests⟩

theorem Block.Nests.grow {body : Block} (h : body.Nests named b.behind b.consumed)
    (hgrows : b.Grows c) : body.Nests named c.behind c.consumed :=
  h.mono hgrows.behind hgrows.mem

/-- Statements that were taken one behind the other, from an offset on. -/
structure Stmt.Row (named : CellRef → String → Prop) (low : Nat) (stmts : List Stmt)
    (c : Buffer) : Prop where
  spans : Span.InRow low (stmts.map Stmt.span) c.cursor
  nests : ∀ stmt ∈ stmts, stmt.Nests named c.behind c.consumed

theorem Stmt.Row.grow {low : Nat} {stmts : List Stmt} (h : Row named low stmts b)
    (hgrows : b.Grows c) : Row named low stmts c :=
  ⟨h.spans.mono hgrows.cursor_le,
    fun stmt hmem => (h.nests stmt hmem).mono hgrows.behind hgrows.mem⟩

theorem Stmt.Row.snoc {low : Nat} {stmts : List Stmt} {stmt : Stmt} (h : Row named low stmts b)
    (hstmt : stmt.Taken named b c) : Row named low (stmts ++ [stmt]) c := by
  have hgrows := hstmt.takes.past.toGrows
  refine ⟨?_, fun other hmem => ?_⟩
  · rw [List.map_append]
    exact h.spans.append (hstmt.takes.inRow (Nat.le_refl _))
  · rcases List.mem_append.1 hmem with hmem | hmem
    · exact (h.nests other hmem).mono hgrows.behind hgrows.mem
    · rw [List.mem_singleton.1 hmem]
      exact hstmt.nests

end

/-! ## Hosts -/

/-- The cell is one that a host gave for the name. -/
def Host.Gave {σ : Type} (host : Host σ) (cell : CellRef) (name : String) : Prop :=
  ∃ h, (host.resolveGlobal name h).1 = cell

namespace Parser

open Run (Agrees)

variable {σ α β : Type}

/-- A property of buffer and host that a parse keeps, if what it tells the host nests. -/
structure Keeper (host : Host σ) where
  Holds : Buffer → σ → Prop
  splices : host.Splices
  grows : ∀ {b c h}, b.Grows c → Holds b h → Holds c h
  resolves : ∀ {b h} (name : String), Holds b h → Holds b (host.resolveGlobal name h).2
  installs : ∀ {b h} (name : String) {function : Function},
    function.Nests host.Gave b.behind b.consumed → Holds b h →
      Holds b (host.installSub name function h)
  begins : ∀ {b h left body span result c h'}, body.Nests host.Gave b.behind b.consumed →
    Holds b h → (host.runBegin left body span).run? (b, h) = some (result, (c, h')) →
      b.Spliced c → Holds c h'

namespace Keeper

variable {host : Host σ} (K : Keeper host) {s t : State σ} {a : α} {body : Parse σ α}
  {more : α → Parse σ β} {Q : β → State σ → Prop} {kind : TokenKind}

/-- What becomes of buffer and host. -/
structure Goes (s t : State σ) : Prop where
  grows : s.buffer.Grows t.buffer
  holds : K.Holds s.buffer s.host → K.Holds t.buffer t.host

theorem Goes.trans {u : State σ} (h : K.Goes s t) (h' : K.Goes t u) : K.Goes s u :=
  ⟨h.grows.trans h'.grows, h'.holds ∘ h.holds⟩

instance : Trans K.Goes K.Goes K.Goes := ⟨Goes.trans K⟩

/-- However a parse ends, the buffer has grown, and what the host is known to do was kept.  If it
ends with a value, `Q` is known of it. -/
abbrev Does (s : State σ) (body : Parse σ α) (Q : α → State σ → Prop) : Prop :=
  Agrees K.Goes (fun _ _ => True) s body body Q

variable {K}

theorem Goes.of_grows (hgrows : s.buffer.Grows t.buffer) (hhost : t.host = s.host) : K.Goes s t :=
  ⟨hgrows, fun h => hhost ▸ K.grows hgrows h⟩

theorem Goes.refl (s : State σ) : K.Goes s s := .of_grows (.refl _) rfl

theorem Goes.lookAhead (s : State σ) : K.Goes s s.lookAhead := .of_grows (.lookAhead _) rfl

theorem Goes.next (s : State σ) : K.Goes s s.next := .of_grows (.next _) rfl

/-! ## Rules -/

theorem gives {Q : α → State σ → Prop} (h : Q a s) : K.Does s (pure a) Q := .pure (.refl s) h

/-- What is done behind a part that is known. -/
theorem after (hbody : body s = .value a t) (hgoes : K.Goes s t) (hmore : K.Does t (more a) Q) :
    K.Does s (body >>= more) Q := by
  refine Agrees.bind (Q := fun b u => b = a ∧ u = t)
    (.of_ends rfl (fun b u hrun => ?_) (fun e u hrun => ?_)) ?_
  · cases hbody.symm.trans hrun
    exact ⟨hgoes, rfl, rfl⟩
  · cases hbody.symm.trans hrun
  · rintro _ _ _ ⟨rfl, rfl⟩
    exact hmore

theorem look {next : Token → Parse σ β} (hnext : K.Does s.lookAhead (next s.buffer.next.1) Q) :
    K.Does s (peek >>= next) Q :=
  after (peek_apply s) (.lookAhead s) hnext

theorem take {next : Token → Parse σ β} (hnext : K.Does s.next (next s.buffer.next.1) Q) :
    K.Does s (advance >>= next) Q :=
  after (advance_apply s) (.next s) hnext

theorem fails {fault : ParseFault} {span : Span} {Q : α → State σ → Prop} :
    K.Does s (fail fault span) Q :=
  .throw (.refl s) trivial

theorem expected {next : Token → Parse σ β}
    (hnext : s.buffer.next.1.kind = kind → K.Does s.next (next s.buffer.next.1) Q) :
    K.Does s (expect kind >>= next) Q := by
  by_cases hkind : s.buffer.next.1.kind = kind
  · exact after (expect_apply hkind) (.next s) (hnext hkind)
  · have hfail : K.Does s (expect kind) fun _ _ => False := by
      refine look ?_
      rw [if_neg hkind]
      exact fails
    exact hfail.bind fun _ _ _ hfalse => hfalse.elim

theorem checked {next : Bool → Parse σ β}
    (hnext : K.Does s.lookAhead (next (s.buffer.next.1.kind == kind)) Q) :
    K.Does s (check kind >>= next) Q :=
  after (check_apply s kind) (.lookAhead s) hnext

theorem eaten {next : Bool → Parse σ β}
    (htrue : s.buffer.next.1.kind = kind → K.Does s.next (next true) Q)
    (hfalse : s.buffer.next.1.kind ≠ kind → K.Does s.lookAhead (next false) Q) :
    K.Does s (eat kind >>= next) Q := by
  by_cases hkind : s.buffer.next.1.kind = kind
  · exact after (by rw [eat_apply, if_pos hkind]) (.next s) (htrue hkind)
  · exact after (by rw [eat_apply, if_neg hkind]) (.lookAhead s) (hfalse hkind)

/-- A comma, unless the list ends. -/
theorem separated {next : Parse σ β} (hnext : ∀ t, K.Goes s t → K.Does t next Q) :
    K.Does s
      (do
        if !(← check kind) then let _ ← expect .comma
        next) Q := by
  refine checked ?_
  cases s.buffer.next.1.kind == kind with
  | true => exact hnext _ (.lookAhead s)
  | false => exact expected fun _ => hnext _ ((Goes.lookAhead s).trans K (.next _))

/-- A name must be there, and is consumed. -/
theorem identified {next : String × Span → Parse σ β}
    (hnext : ∀ found, s.buffer.next.1.kind ≠ .endOfInput → K.Does s.next (next found) Q) :
    K.Does s (expectIdent >>= next) Q := by
  have hident : K.Does s expectIdent fun _ t => t = s.next ∧
      s.buffer.next.1.kind ≠ .endOfInput := by
    refine look ?_
    split
    · rename_i name hkind
      refine take (gives ⟨s.next_lookAhead, ?_⟩)
      rw [hkind]
      simp
    · exact fails
  refine hident.bind fun found t _ ht => ?_
  obtain ⟨rfl, hkind⟩ := ht
  exact hnext found hkind

theorem named {next : String → Parse σ β}
    (hnext : ∀ name, s.buffer.next.1.kind ≠ .endOfInput → K.Does s.next (next name) Q) :
    K.Does s (expectLexicalName >>= next) Q := by
  have hname : K.Does s expectLexicalName fun _ t => t = s.next ∧
      s.buffer.next.1.kind ≠ .endOfInput := by
    refine identified fun found hkind => ?_
    obtain ⟨name, span⟩ := found
    dsimp only
    split
    · exact fails
    · exact gives ⟨rfl, hkind⟩
  refine hname.bind fun name t _ ht => ?_
  obtain ⟨rfl, hkind⟩ := ht
  exact hnext name hkind

theorem terminator : K.Does s expectTerminator fun _ _ => True := by
  refine eaten (fun _ => gives trivial) fun _ => look ?_
  split
  · exact gives trivial
  · exact gives trivial
  · exact fails

/-- The end of a statement. -/
theorem terminated {next : Parse σ β} (hnext : ∀ t, K.Goes s t → K.Does t next Q) :
    K.Does s
      (do
        expectTerminator
        next) Q :=
  terminator.bind fun _ t ht _ => hnext t ht

theorem inScope {kind : ScopeKind} {names : List String} {Q : α → State σ → Prop}
    (hbody : ∀ scopes, K.Does { s with scopes } body fun a t =>
      Q a { t with scopes := t.scopes.tail }) :
    K.Does s (inScope kind names body) Q :=
  (hbody (.declaring kind names :: s.scopes)).between rfl
    (fun _ _ ht ha => ⟨⟨ht.grows, ht.holds⟩, ha⟩) fun _ _ ht _ => ⟨⟨ht.grows, ht.holds⟩, trivial⟩

end Keeper

/-! ## Parts of the grammar -/

/-- What is known of a part and the text that was consumed for it. -/
def Goal.Taken (named : CellRef → String → Prop) (b : Buffer) :
    {α : Type} → Goal α → α → Buffer → Prop
  | _, .expr, e => e.Taken named b
  | _, .joined _, e => e.Taken named b
  | _, .unary, e => e.Taken named b
  | _, .block _, body => body.Taken named b
  | _, .conditional, stmt => stmt.Taken named b

namespace Keeper

variable {host : Host σ} {K : Keeper host} {s t : State σ} {rounds : Nat} {again : Again σ}

/-- A way to parse what may nest takes what it gives. -/
def Parts (K : Keeper host) (again : Again σ) : Prop :=
  ∀ {α : Type} (goal : Goal α) (s : State σ),
    K.Does s (again goal) fun a t => goal.Taken host.Gave s.buffer a t.buffer

namespace Parts

variable (h : K.Parts again)

include h

theorem expr (s : State σ) :
    K.Does s (again .expr) fun e t => e.Taken host.Gave s.buffer t.buffer :=
  h .expr s

theorem innerBlock (kind : ScopeKind) (s : State σ) :
    K.Does s (again (.block kind)) fun body t => body.Taken host.Gave s.buffer t.buffer :=
  h (.block kind) s

/-- A round takes one more item and what is behind it, or the closing delimiter. -/
theorem itemRound (closing : TokenKind) (delimiter : Char) (openSpan : Span) (items : List Expr)
    (s : State σ) :
    K.Does s (itemRound again closing delimiter openSpan items) fun step t => match step with
      | .next more => ∃ item c, more = item :: items ∧ item.Taken host.Gave s.buffer c ∧
          c.Grows t.buffer
      | .done found => found.1 = items.reverse ∧
          (closing ≠ .endOfInput → s.buffer.Takes found.2 t.buffer) := by
  refine look ?_
  split
  · rename_i hkind
    refine take (gives ⟨rfl, fun hclosing => ?_⟩)
    rw [State.next_lookAhead]
    exact .token (hkind ▸ hclosing)
  · split
    · exact (fails (Q := fun _ _ => False)).bind fun _ _ _ hfalse => hfalse.elim
    · exact (h.expr _).bind fun item u _ hitem => separated fun v hv =>
        gives ⟨item, u.buffer, rfl, hitem.of_lookAhead, hv.grows⟩

theorem delimited (opening : TokenKind) {closing : TokenKind} (hclosing : closing ≠ .endOfInput)
    (delimiter : Char) (s : State σ) :
    K.Does s (delimited rounds again opening closing delimiter) fun found t =>
      s.buffer.next.1.kind = opening ∧ ∃ c, Expr.Row host.Gave s.buffer.next.2.cursor found.1 c ∧
        s.buffer.next.2.Grows c ∧ c.Takes found.2 t.buffer := by
  rw [delimited_eq]
  refine expected fun hopen => ?_
  refine .iterate (J := fun items t =>
      Expr.Row host.Gave s.buffer.next.2.cursor items.reverse t.buffer ∧
        s.buffer.next.2.Grows t.buffer)
    (fun items t ht => ?_) rounds [] ⟨⟨Nat.le_refl _, by simp⟩, .refl _⟩
  obtain ⟨hitems, hgrows⟩ := ht
  refine (h.itemRound closing delimiter _ items t).weaken (fun _ hu => hu)
    (fun step u _ hstep => ?_) fun _ _ _ _ => trivial
  cases step with
  | next more =>
      obtain ⟨item, c, rfl, hitem, hc⟩ := hstep
      have hmore := (hitems.snoc hitem).grow hc
      rw [← List.reverse_cons] at hmore
      exact ⟨hmore, hgrows.trans (hitem.takes.past.toGrows.trans hc)⟩
  | done found =>
      obtain ⟨hfound, hclose⟩ := hstep
      exact ⟨hopen, t.buffer, hfound ▸ hitems, hgrows, hclose hclosing⟩

omit h in
/-- A round takes one more name and what is behind it, or the closing parenthesis. -/
theorem nameRound (openSpan : Span) (names : List String) (s : State σ) :
    K.Does s (nameRound openSpan names) fun _ t => s.buffer.Past t.buffer := by
  refine look ?_
  split
  · rename_i hkind
    refine take (gives ?_)
    rw [State.next_lookAhead]
    exact .next (by simp [hkind])
  · exact fails
  · refine named fun name hkind => separated fun u hu => gives ?_
    exact ((Buffer.Past.next hkind).mono hu.grows).of_lookAhead

omit h in
theorem parameters (s : State σ) : K.Does s (parameters rounds) fun _ t =>
    s.buffer.next.1.kind = .parenOpen ∧ s.buffer.next.2.Grows t.buffer := by
  rw [parameters_eq]
  refine expected fun hopen => ?_
  refine .iterate (J := fun _ t => s.next.buffer.Grows t.buffer) (fun names t ht => ?_) rounds []
    (.refl _)
  refine (nameRound _ names t).weaken (fun _ hu => hu) (fun step u _ hpast => ?_)
    fun _ _ _ _ => trivial
  have hgrows := ht.trans hpast.toGrows
  cases step with
  | next more => exact hgrows
  | done found => exact ⟨hopen, hgrows⟩

/-- A part in a scope of its own. -/
theorem inside {γ : Type} (goal : Goal γ) (kind : ScopeKind) (names : List String) (s : State σ) :
    K.Does s (Parser.inScope kind names (again goal)) fun a t =>
      goal.Taken host.Gave s.buffer a t.buffer :=
  inScope fun scopes => h goal { s with scopes }

/-- A function behind its keyword, and perhaps its name. -/
theorem function (name : Option String) (kind : ScopeKind) {start : Span} {b : Buffer} (s : State σ)
    (hstart : b.Takes start s.buffer) :
    K.Does s (function rounds again name kind start) fun f t => f.Taken host.Gave b t.buffer := by
  refine (parameters s).bind fun params t _ ht => ?_
  obtain ⟨_, hgrows⟩ := ht
  refine (h.inside (.block .block) kind params t).bind fun body u _ hbody => gives ?_
  have hbody : body.Taken host.Gave t.buffer u.buffer := hbody
  have hparams := hstart.mono ((Buffer.Grows.next s.buffer).trans hgrows)
  exact ⟨hparams.join hbody.takes, .mk (hparams.holds_one hbody.takes) hbody.nests⟩

/-! ### Expressions -/

omit h in
theorem resolved (name : String) (span : Span) {rest : Expr → Parse σ β} {Q : β → State σ → Prop}
    (hrest : ∀ e t, K.Goes s t → t.buffer = s.buffer → e.span = span →
      e.IsToken host.Gave (.ident name) → K.Does t (rest e) Q) :
    K.Does s (resolve host name span >>= rest) Q := by
  obtain ⟨buffer, scopes, s⟩ := s
  cases hlexical : lexical? name scopes with
  | some ref =>
      have hresolve : resolve host name span ⟨buffer, scopes, s⟩
          = .value (.lexical span ref) ⟨buffer, scopes, s⟩ := by
        simp only [resolve, Run.modifyGet_apply, hlexical]
      refine after hresolve (.refl _) (hrest _ _ (.refl _) rfl rfl ?_)
      rw [Expr.IsToken, lexical?_name hlexical]
  | none =>
      have hresolve : resolve host name span ⟨buffer, scopes, s⟩
          = .value (.global span (host.resolveGlobal name s).1)
            ⟨buffer, scopes, (host.resolveGlobal name s).2⟩ := by
        simp only [resolve, Run.modifyGet_apply, hlexical]
      have hgoes : K.Goes ⟨buffer, scopes, s⟩ ⟨buffer, scopes, (host.resolveGlobal name s).2⟩ :=
        ⟨.refl _, K.resolves name⟩
      exact after hresolve hgoes (hrest _ _ hgoes rfl rfl ⟨name, rfl, s, rfl⟩)

omit h in
theorem literal_isToken {named : CellRef → String → Prop} {token : Token} {e : Expr}
    (h : literal? token = some e) :
    e.span = token.span ∧ e.IsToken named token.kind ∧ token.kind ≠ .endOfInput := by
  obtain ⟨kind, span⟩ := token
  cases kind with
  | int | str | kwTrue | kwFalse | kwNil =>
      cases h
      exact ⟨rfl, rfl, by simp⟩
  | _ => cases h

theorem primary (s : State σ) : K.Does s (primary host rounds again) fun e t =>
    e.Taken host.Gave s.buffer t.buffer := by
  refine look ?_
  cases hliteral : literal? s.buffer.next.1 with
  | some e =>
      obtain ⟨hspan, htoken, hkind⟩ := literal_isToken hliteral
      refine take (gives ?_)
      rw [State.next_lookAhead]
      exact .token hspan htoken hkind
  | none =>
      dsimp only
      split
      · rename_i name hkind
        refine resolved name _ fun e t _ hbuffer hspan htoken => take (gives ?_)
        have hnext : t.next.buffer = s.buffer.next.2 := by
          rw [State.buffer_next, hbuffer, State.buffer_lookAhead, Buffer.next_lookAhead]
        rw [hnext]
        exact .token hspan (hkind ▸ htoken) (by simp [hkind])
      · rename_i hkind
        refine take ?_
        rw [State.next_lookAhead]
        refine (h.expr _).bind fun e t _ he => expected fun hclose => gives ?_
        exact he.parens hkind hclose
      · rename_i hkind
        refine (h.delimited _ (by simp) _ _).bind fun found t _ hfound => gives ?_
        obtain ⟨_, c, hitems, hgrows, hclose⟩ := hfound
        rw [State.buffer_lookAhead, Buffer.next_lookAhead] at hitems hgrows
        have hopen : s.buffer.Takes s.buffer.next.1.span c :=
          (Buffer.Takes.token (by simp [hkind])).mono hgrows
        have hholds := hopen.holds hclose hitems.spans (Buffer.start_le_next s.buffer)
        exact ⟨hopen.join hclose, .list hholds (hitems.grow hclose.past.toGrows).nests,
          Expr.single_of_compound fun _ => id⟩
      · rename_i hkind
        refine take ?_
        rw [State.next_lookAhead]
        have hstart : s.buffer.Takes s.buffer.next.1.span s.next.buffer :=
          .token (by simp [hkind])
        refine (h.function none .closure s.next hstart).bind fun f t _ hf => gives ?_
        refine ⟨hf.takes, .closure ?_ hf.nests, Expr.single_of_compound fun _ => id⟩
        exact (Span.InRow.one (Nat.le_refl _) hf.takes.proper (Nat.le_refl _)).holds
          (Nat.le_refl _) (Nat.le_refl _) hf.takes.proper
      · exact fails

/-- A round takes the arguments of a call, if there are any. -/
theorem callRound (callee : Expr) (s : State σ) :
    K.Does s (callRound rounds again callee) fun step t => match step with
      | .next e => s.buffer.Past t.buffer ∧
          ∀ b, callee.Taken host.Gave b s.buffer → e.Taken host.Gave b t.buffer
      | .done e => e = callee ∧ t.buffer = s.buffer.lookAhead := by
  refine checked ?_
  cases s.buffer.next.1.kind == .parenOpen with
  | false => exact gives ⟨rfl, rfl⟩
  | true =>
      refine (h.delimited _ (by simp) _ _).bind fun found u _ hfound => gives ?_
      obtain ⟨hopen, c, hargs, hgrows, hclose⟩ := hfound
      rw [State.buffer_lookAhead, Buffer.next_lookAhead] at hopen hargs hgrows
      have hopened : s.buffer.Past u.buffer :=
        ⟨hgrows.trans hclose.past.toGrows, by simp [hopen]⟩
      refine ⟨hopened, fun b hcallee => ?_⟩
      have hgrows := (Buffer.Grows.next s.buffer).trans hgrows
      have hrow : Span.InRow callee.span.start (callee.span :: found.1.map Expr.span) c.cursor :=
        ⟨Nat.le_refl _, hcallee.takes.proper,
          hargs.spans.lower (hcallee.takes.stop.trans (Buffer.Grows.next s.buffer).cursor_le)⟩
      have hfirst := hcallee.takes.mono hgrows
      refine ⟨hfirst.join hclose, .call (hfirst.holds hclose hrow (Nat.le_refl _)) ?_ ?_,
        Expr.single_of_compound fun _ => id⟩
      · exact hcallee.nests.grow hopened.toGrows
      · exact (hargs.grow hclose.past.toGrows).nests

theorem call (s : State σ) : K.Does s (call host rounds again) fun e t =>
    e.Taken host.Gave s.buffer t.buffer := by
  rw [call_eq]
  refine (h.primary s).bind fun callee t _ hcallee => ?_
  refine .iterate (J := fun callee t => callee.Taken host.Gave s.buffer t.buffer)
    (fun callee t hcallee => ?_) rounds callee hcallee
  refine (h.callRound callee t).weaken (fun _ hu => hu) (fun step u _ hstep => ?_)
    fun _ _ _ _ => trivial
  cases step with
  | next e => exact hstep.2 _ hcallee
  | done e =>
      obtain ⟨rfl, hu⟩ := hstep
      exact hu ▸ hcallee.looked

theorem unary (s : State σ) : K.Does s (unary host rounds again) fun e t =>
    e.Taken host.Gave s.buffer t.buffer := by
  have hoperator (op : UnaryOp) (hkind : s.buffer.next.1.kind ≠ .endOfInput) :
      K.Does s.lookAhead (do
        let _ ← advance
        let operand ← again .unary
        return .unary (s.buffer.next.1.span.merge operand.span) op operand : Parse σ Expr)
        fun e t => e.Taken host.Gave s.buffer t.buffer := by
    refine take ?_
    rw [State.next_lookAhead]
    refine (h .unary s.next).bind fun operand t _ hoperand => gives ?_
    have hoperand : operand.Taken host.Gave s.next.buffer t.buffer := hoperand
    have hfirst : s.buffer.Takes s.buffer.next.1.span s.next.buffer := .token hkind
    exact ⟨hfirst.join hoperand.takes, .unary (hfirst.holds_one hoperand.takes) hoperand.nests,
      Expr.single_of_compound fun _ => id⟩
  refine look ?_
  dsimp only
  split
  · rename_i hkind
    exact hoperator .neg (by simp [hkind])
  · rename_i hkind
    exact hoperator .not (by simp [hkind])
  · exact (h.call s.lookAhead).weaken (fun _ ht => ht) (fun _ _ _ he => he.of_lookAhead)
      fun _ _ _ _ => trivial

/-- A round takes an operator and its right operand, if there are any. -/
theorem joinRound (limit : Nat) (left : Expr) (s : State σ) :
    K.Does s (joinRound again limit left) fun step t => match step with
      | .next e => s.buffer.Past t.buffer ∧
          ∀ b, left.Taken host.Gave b s.buffer → e.Taken host.Gave b t.buffer
      | .done e => e = left ∧ t.buffer = s.buffer.lookAhead := by
  refine look ?_
  split
  · exact gives ⟨rfl, rfl⟩
  · rename_i op hop
    split
    · exact gives ⟨rfl, rfl⟩
    · refine take ?_
      rw [State.next_lookAhead]
      refine (h (.joined (looseness op)) s.next).bind fun right u _ hright => gives ?_
      have hright : right.Taken host.Gave s.next.buffer u.buffer := hright
      have hoperator : s.buffer.next.1.kind ≠ .endOfInput := fun hend => by
        rw [hend] at hop
        cases hop
      have hgrows := Buffer.Grows.next s.buffer
      refine ⟨⟨hright.takes.past.toGrows, hoperator⟩, fun b hleft => ?_⟩
      have hfirst := hleft.takes.mono hgrows
      have hrow : Span.InRow left.span.start [left.span] s.next.buffer.cursor :=
        .one (Nat.le_refl _) hfirst.proper hfirst.stop
      exact ⟨hfirst.join hright.takes,
        .binary (hfirst.holds_last hright.takes hrow (Nat.le_refl _))
          (hleft.nests.grow (hgrows.trans hright.takes.past.toGrows)) hright.nests,
        Expr.single_of_compound fun _ => id⟩

theorem joined (limit : Nat) (s : State σ) : K.Does s (joined host rounds again limit) fun e t =>
    e.Taken host.Gave s.buffer t.buffer := by
  rw [joined_eq]
  refine (h.unary s).bind fun left t _ hleft => ?_
  refine .iterate (J := fun left t => left.Taken host.Gave s.buffer t.buffer)
    (fun left t hleft => ?_) rounds left hleft
  refine (h.joinRound limit left t).weaken (fun _ hu => hu) (fun step u _ hstep => ?_)
    fun _ _ _ _ => trivial
  cases step with
  | next e => exact hstep.2 _ hleft
  | done e =>
      obtain ⟨rfl, hu⟩ := hstep
      exact hu ▸ hleft.looked

end Parts

end Keeper

end Parser

end TwoPhase
