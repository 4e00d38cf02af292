import TwoPhase.Proofs.Scan
import TwoPhase.Proofs.Splice
import TwoPhase.Proofs.Parser.ByName

/-!
# Replaying a parse

A parse whose `begin` blocks splice text in is compared with a plain parse of a fixed text, in which
`begin` blocks do nothing.  The two go in step: what is in front of the cursor is the same, and what
is ahead is the same as far as the parser looks before the next block runs.

What the first parse will find ahead is not decided until its last splice, so the comparison takes
the final text as given and goes backwards.  If the text fits the state in which a part of the
grammar ends, it fits the state in which the part starts (`Foresees`), and from there the plain
parse of the text does the same (`Replays`).  Where a `begin` block has just been closed, any text
fits.
-/

namespace TwoPhase

/-! ## Recorded hosts -/

/-- What a host is told while a unit is parsed. -/
inductive Happening where
  | installed (name : String) (function : Function)
  /-- A `begin` block ran, and failed or not. -/
  | ran (body : Block) (span : Span) (failed : Bool)

namespace Happening

def byName : Happening → Happening
  | installed name function => installed name function.byName
  | ran body span failed => ran body.byName span failed

def failed : Happening → Bool
  | installed .. => false
  | ran _ _ failed => failed

end Happening

namespace Host

variable {σ : Type}

/-- A host that also writes down what it is told, the last first. -/
def recorded (host : Host σ) : Host (σ × List Happening) where
  resolveGlobal name s :=
    let (cell, h) := host.resolveGlobal name s.1
    (cell, (h, s.2))
  installSub name function s :=
    (host.installSub name function s.1, .installed name function :: s.2)
  runBegin left body span := fun (buffer, h, log) =>
    match host.runBegin left body span (buffer, h) with
    | .value () (buffer, h) => .value () (buffer, h, .ran body span false :: log)
    | .error e (buffer, h) => .error e (buffer, h, .ran body span true :: log)
    | .cutOff => .cutOff
  nesting s := host.nesting s.1

/-- All that `begin` blocks do to the buffer is to splice text in. -/
def OnlySplices (host : Host σ) : Prop :=
  ∀ {left body span buffer s buffer' s'},
    host.runBegin left body span (buffer, s) = .value () (buffer', s') → buffer.Spliced buffer'

/-- Nor do `begin` blocks that fail do anything else. -/
def Splices (host : Host σ) : Prop :=
  ∀ {left body span buffer s result buffer' s'},
    (host.runBegin left body span).run? (buffer, s) = some (result, (buffer', s')) →
      buffer.Spliced buffer'

theorem Splices.onlySplices {host : Host σ} (h : host.Splices) : host.OnlySplices := by
  intro left body span buffer s buffer' s' hrun
  have hend : (host.runBegin left body span).run? (buffer, s) = some (.ok (), (buffer', s')) := by
    rw [Run.run?, hrun]
  exact h hend

/-- The `begin` blocks splice nothing and succeed. -/
def Quiet (host : Host σ) : Prop :=
  ∀ left body span buffer s, ∃ s', host.runBegin left body span (buffer, s) = .value () (buffer, s')

/-- A global name is resolved to a cell of that name. -/
def Names (host : Host σ) : Prop := ∀ name s, (host.resolveGlobal name s).1.name = name

end Host

namespace Parser

variable {σ τ α β γ δ : Type}

/-! ## States in step -/

/-- A text fits a state: it starts with what was consumed, and goes on with the same tokens. -/
def Foresees (b : Buffer) (text : List Char) : Prop :=
  ∃ rest, text = b.before.reverse ++ rest ∧ Scan.Ahead b.cursor b.after rest

/-- A text starts with what was consumed. -/
def Extends (b : Buffer) (text : List Char) : Prop := ∃ rest, text = b.before.reverse ++ rest

theorem Foresees.extends {b : Buffer} {text : List Char} (h : Foresees b text) :
    Extends b text := by
  obtain ⟨rest, hrest, _⟩ := h
  exact ⟨rest, hrest⟩

theorem Foresees.chars (b : Buffer) : Foresees b b.chars := ⟨b.after, rfl, .refl _ _⟩

/-- A state of the plain parse of a text that is in step with another state. -/
structure Mirrors (text : List Char) (p : State (σ × List Happening))
    (p' : State (τ × List Happening)) : Prop where
  chars : p'.buffer.chars = text
  before : p'.buffer.before = p.buffer.before
  consumed : p'.buffer.consumed = p.buffer.consumed
  scopes : p'.scopes = p.scopes
  log : p'.host.2.map Happening.byName = p.host.2.map Happening.byName

/-- The plain parse stands at the same offset, in front of a text with the same next token. -/
theorem Mirrors.found {text : List Char} {p : State (σ × List Happening)}
    {p' : State (τ × List Happening)} (h : Mirrors text p p') (htext : Foresees p.buffer text) :
    ∃ rest, p'.buffer.found = { p.buffer.found with rest := rest } := by
  obtain ⟨rest, hrest, hahead⟩ := htext
  have hafter : p'.buffer.after = rest := by
    have hchars := h.chars
    rw [hrest, Buffer.chars, h.before] at hchars
    exact List.append_cancel_left hchars
  have hcursor : p'.buffer.cursor = p.buffer.cursor := by
    rw [p'.buffer.cursor_eq, p.buffer.cursor_eq, h.before]
  rw [Buffer.found_eq, Buffer.found_eq, hafter, hcursor]
  exact hahead.first_eq

/-- A part of the grammar is replayed: if a text fits where the part ends (`K`), it fits where the
part starts (`J`), and the plain parse of the text does the same, up to `f`.  If the part fails, and
no `begin` block is to blame, then the plain parse of the text that is left fails in the same way.
-/
def Replays (P : State (σ × List Happening) → Prop) (J : Buffer → List Char → Prop)
    (body : Parse (σ × List Happening) α) (body' : Parse (τ × List Happening) α) (f : α → β)
    (K : α → Buffer → List Char → Prop) : Prop :=
  ∀ p, P p → match body p with
    | .value a q => ∀ text, K a q.buffer text → J p.buffer text ∧
        ∀ p', Mirrors text p p' → ∃ a' q', body' p' = .value a' q' ∧ f a = f a' ∧ Mirrors text q q'
    | .error e q => (∀ h ∈ q.host.2, h.failed = false) → J p.buffer q.buffer.chars ∧
        ∀ p', Mirrors q.buffer.chars p p' →
          ∃ q', body' p' = .error e q' ∧ Mirrors q.buffer.chars q q'
    | .cutOff => True

/-- The common case: the text fits on either side. -/
def Mimics (f : α → β) (body : Parse (σ × List Happening) α)
    (body' : Parse (τ × List Happening) α) : Prop :=
  Replays (fun _ => True) Foresees body body' f fun _ => Foresees

/-! ## Combinators -/

namespace Replays

variable {P : State (σ × List Happening) → Prop} {J : Buffer → List Char → Prop}
  {body : Parse (σ × List Happening) α} {body' : Parse (τ × List Happening) α} {f : α → β}
  {K K' : α → Buffer → List Char → Prop}

theorem pure {a a' : α} (h : f a = f a') :
    Replays P (K a) (Pure.pure a : Parse (σ × List Happening) α)
      (Pure.pure a' : Parse (τ × List Happening) α) f K :=
  fun _ _ _ htext => ⟨htext, fun p' hp' => ⟨a', p', rfl, h, hp'⟩⟩

theorem throw (e : CompileError) :
    Replays P Foresees (MonadExcept.throw e : Parse (σ × List Happening) α)
      (MonadExcept.throw e : Parse (τ × List Happening) α) f K :=
  fun p _ _ => ⟨.chars p.buffer, fun p' hp' => ⟨p', rfl, hp'⟩⟩

theorem weaken (h : Replays P J body body' f K) (hK : ∀ a b text, K' a b text → K a b text) :
    Replays P J body body' f K' := by
  intro p hp
  have h := h p hp
  cases hrun : body p with
  | value a q =>
      rw [hrun] at h
      exact fun text htext => h text (hK a _ text htext)
  | error e q =>
      rw [hrun] at h
      exact h
  | cutOff => trivial

/-- A part and what follows it.  The text is known to fit in between before the part is replayed,
whatever value the replay will give. -/
theorem bind {next : α → Parse (σ × List Happening) γ} {next' : α → Parse (τ × List Happening) γ}
    {g : γ → δ} {L : γ → Buffer → List Char → Prop} (h : Replays P J body body' f K)
    (hnext : ∀ a a', f a = f a' → Replays (fun _ => True) (K a) (next a) (next' a') g L) :
    Replays P J (body >>= next) (body' >>= next') g L := by
  intro p hp
  have h := h p hp
  rw [Run.bind_apply]
  cases hrun : body p with
  | cutOff => trivial
  | error e q =>
      rw [hrun] at h
      intro hlog
      obtain ⟨hstart, hreplay⟩ := h hlog
      refine ⟨hstart, fun p' hp' => ?_⟩
      obtain ⟨q', hq', hmirrors⟩ := hreplay p' hp'
      exact ⟨q', by rw [Run.bind_apply, hq'], hmirrors⟩
  | value a q =>
      rw [hrun] at h
      -- the rest says what text the first part can count on, so it is asked first; it is asked
      -- again with the value of the replay, whose cells can be others
      have hself := hnext a a rfl q trivial
      dsimp only
      cases hrest : next a q with
      | cutOff => trivial
      | error e r =>
          rw [hrest] at hself
          intro hlog
          obtain ⟨hstart, hreplay⟩ := h _ (hself hlog).1
          refine ⟨hstart, fun p' hp' => ?_⟩
          obtain ⟨a', q', hq', hsame, hmirrors⟩ := hreplay p' hp'
          have hother := hnext a a' hsame q trivial
          rw [hrest] at hother
          obtain ⟨r', hr', hend⟩ := (hother hlog).2 q' hmirrors
          exact ⟨r', by rw [Run.bind_apply, hq', ← hr'], hend⟩
      | value b r =>
          rw [hrest] at hself
          intro text htext
          obtain ⟨hstart, hreplay⟩ := h text (hself text htext).1
          refine ⟨hstart, fun p' hp' => ?_⟩
          obtain ⟨a', q', hq', hsame, hmirrors⟩ := hreplay p' hp'
          have hother := hnext a a' hsame q trivial
          rw [hrest] at hother
          obtain ⟨b', r', hr', hvalue, hend⟩ := (hother text htext).2 q' hmirrors
          exact ⟨b', r', by rw [Run.bind_apply, hq', ← hr'], hvalue, hend⟩

theorem assume {P' : State (σ × List Happening) → Prop} (h : Replays P J body body' f K)
    (hP : ∀ p, P' p → P p) : Replays P' J body body' f K :=
  fun p hp => h p (hP p hp)

theorem seen (h : Replays (fun _ => True) J body body' f K) : Replays P J body body' f K :=
  h.assume fun _ _ => trivial

theorem iterate_succ (rounds : Nat) (step : α → Parse (σ × List Happening) (Run.Step α γ)) (a : α) :
    Run.iterate (rounds + 1) step a = (do
      match ← step a with
      | .next a => Run.iterate rounds step a
      | .done c => return c) := by
  funext p
  rw [Run.iterate, Run.bind_apply]
  cases step a p with
  | value result q => cases result <;> rfl
  | error e q => rfl
  | cutOff => rfl

/-- What a round of a loop decides, up to `f` and `g`. -/
def stepBy (f : α → β) (g : γ → δ) : Run.Step α γ → Run.Step β δ
  | .next a => .next (f a)
  | .done c => .done (g c)

/-- Where a text must fit after a round: for another round, or for what follows the loop. -/
def stepFits (K : γ → Buffer → List Char → Prop) : Run.Step α γ → Buffer → List Char → Prop
  | .next _ => Foresees
  | .done c => K c

/-- A loop is replayed if each of its rounds is. -/
theorem iterate {step : α → Parse (σ × List Happening) (Run.Step α γ)}
    {step' : α → Parse (τ × List Happening) (Run.Step α γ)} {g : γ → δ}
    {L : γ → Buffer → List Char → Prop}
    (hstep : ∀ a a', f a = f a' →
      Replays (fun _ => True) Foresees (step a) (step' a') (stepBy f g) (stepFits L)) :
    ∀ (rounds : Nat) (a a' : α), f a = f a' → Replays (fun _ => True) Foresees
      (Run.iterate rounds step a) (Run.iterate rounds step' a') g L := by
  intro rounds
  induction rounds with
  | zero => exact fun _ _ _ _ _ => trivial
  | succ rounds ih =>
      intro a a' h
      rw [iterate_succ, iterate_succ]
      refine (hstep a a' h).bind fun result result' hresult => ?_
      cases result with
      | next b =>
          cases result' with
          | next b' => exact ih b b' (Run.Step.next.inj hresult)
          | done c' => cases hresult
      | done c =>
          cases result' with
          | next b' => cases hresult
          | done c' => exact .pure (Run.Step.done.inj hresult)

/-! ## Tokens -/

end Replays

/-- Peeking changes nothing but what is remembered. -/
theorem peek_buffer (b : Buffer) : b.peek.1 = b.found.token ∧ b.peek.2.before = b.before ∧
    b.peek.2.after = b.after ∧ b.peek.2.cursor = b.cursor ∧ b.peek.2.consumed = b.consumed := by
  unfold Buffer.peek
  split
  · rename_i found hpeeked
    exact ⟨by simp [Buffer.found, hpeeked], rfl, rfl, rfl, rfl⟩
  · rename_i hpeeked
    exact ⟨by simp [Buffer.found, Buffer.lookAhead, hpeeked], rfl, rfl, rfl, rfl⟩

namespace Replays

variable {P : State (σ × List Happening) → Prop} {f : α → β} {K : α → Buffer → List Char → Prop}

/-- A part that looks at the next token first. -/
theorem look {body : Token → Parse (σ × List Happening) α}
    {body' : Token → Parse (τ × List Happening) α}
    (h : ∀ token, Replays (fun p => p.buffer.found.token = token) Foresees (body token)
      (body' token) f K) :
    Replays P Foresees (Parser.peek >>= body) (Parser.peek >>= body') f K := by
  intro p _
  obtain ⟨htoken, hbefore, hafter, hcursor, hconsumed⟩ := peek_buffer p.buffer
  have hfound : p.buffer.peek.2.found = p.buffer.found := by
    rw [Buffer.found_eq, Buffer.found_eq, hafter, hcursor]
  have hfits : ∀ {text}, Foresees p.buffer.peek.2 text → Foresees p.buffer text := by
    rintro text ⟨rest, hrest, hahead⟩
    rw [hbefore] at hrest
    rw [hcursor, hafter] at hahead
    exact ⟨rest, hrest, hahead⟩
  -- both parses see the same token, and then stand in step as before
  have hstep : ∀ {text} {p' : State (τ × List Happening)}, Foresees p.buffer text →
      Mirrors text p p' → p'.buffer.peek.1 = p.buffer.peek.1 ∧
        Mirrors text { p with buffer := p.buffer.peek.2 }
          { p' with buffer := p'.buffer.peek.2 } := by
    intro text p' htext hp'
    obtain ⟨htoken', hbefore', hafter', _, hconsumed'⟩ := peek_buffer p'.buffer
    obtain ⟨rest, hsame⟩ := hp'.found htext
    refine ⟨by rw [htoken', htoken, hsame], ?_, ?_, ?_, hp'.scopes, hp'.log⟩
    · rw [Buffer.chars, hbefore', hafter']
      exact hp'.chars
    · exact hbefore'.trans (hp'.before.trans hbefore.symm)
    · exact hconsumed'.trans (hp'.consumed.trans hconsumed.symm)
  have hseen : p.buffer.peek.2.found.token = p.buffer.peek.1 := by rw [hfound, htoken]
  have hbody := h p.buffer.peek.1 { p with buffer := p.buffer.peek.2 } hseen
  have hpeek : ∀ {ρ : Type} (q : State ρ), (Parser.peek : Parse ρ Token) q
      = .value q.buffer.peek.1 { q with buffer := q.buffer.peek.2 } := fun _ => rfl
  rw [Run.bind_apply, hpeek]
  dsimp only
  cases hrun : body p.buffer.peek.1 { p with buffer := p.buffer.peek.2 } with
  | cutOff => trivial
  | error e q =>
      rw [hrun] at hbody
      intro hlog
      obtain ⟨hstart, hreplay⟩ := hbody hlog
      refine ⟨hfits hstart, fun p' hp' => ?_⟩
      obtain ⟨htoken', hmirrors⟩ := hstep (hfits hstart) hp'
      obtain ⟨q', hq', hend⟩ := hreplay _ hmirrors
      exact ⟨q', by rw [Run.bind_apply, hpeek, ← hq', ← htoken'], hend⟩
  | value a q =>
      rw [hrun] at hbody
      intro text htext
      obtain ⟨hstart, hreplay⟩ := hbody text htext
      refine ⟨hfits hstart, fun p' hp' => ?_⟩
      obtain ⟨htoken', hmirrors⟩ := hstep (hfits hstart) hp'
      obtain ⟨a', q', hq', hend⟩ := hreplay _ hmirrors
      exact ⟨a', q', by rw [Run.bind_apply, hpeek, ← hq', ← htoken'], hend⟩

/-- The token is consumed by both parses if the text fits behind it. -/
private theorem advance_of {p : State (σ × List Happening)} {text : List Char}
    (hahead : ∀ rest, text = p.buffer.next.2.before.reverse ++ rest → ∃ ds,
      Scan.Ahead p.buffer.cursor p.buffer.after ds ∧
        Scan.first p.buffer.cursor ds = { p.buffer.found with rest := rest })
    (htext : Extends p.buffer.next.2 text) :
    Foresees p.buffer text ∧ ∀ p', Mirrors text p p' →
      ∃ a' q', (Parser.advance : Parse (τ × List Happening) Token) p' = .value a' q' ∧
        id p.buffer.next.1 = id a' ∧ Mirrors text { p with buffer := p.buffer.next.2 } q' := by
  obtain ⟨rest, hrest⟩ := htext
  obtain ⟨ds, hds, hfirst⟩ := hahead rest hrest
  have happend := Scan.first_append p.buffer.cursor ds
  rw [hfirst] at happend
  have htext : text = p.buffer.before.reverse ++ ds := by
    rw [hrest, ← happend]
    simp [Buffer.next]
  have hforesees : Foresees p.buffer text := ⟨ds, htext, hds⟩
  refine ⟨hforesees, fun p' hp' =>
    ⟨p'.buffer.next.1, { p' with buffer := p'.buffer.next.2 }, rfl, ?_⟩⟩
  obtain ⟨other, hfound⟩ := hp'.found hforesees
  refine ⟨?_, (Buffer.chars_next _).trans hp'.chars, ?_, ?_, hp'.scopes, hp'.log⟩
  · simp [Buffer.next, hfound]
  · simp [Buffer.next, hfound, hp'.before]
  · simp [Buffer.next, hfound, hp'.consumed]

theorem advance : Mimics id (Parser.advance : Parse (σ × List Happening) Token)
    (Parser.advance : Parse (τ × List Happening) Token) := by
  intro p _ text htext
  refine advance_of (fun rest hrest => ?_) htext.extends
  obtain ⟨rest', hrest', hahead⟩ := htext
  obtain rfl : rest' = rest := List.append_cancel_left (hrest'.symm.trans hrest)
  have hfound := p.buffer.found_eq
  change Scan.Ahead p.buffer.found.token.span.stop p.buffer.found.rest rest' at hahead
  rw [hfound] at hahead ⊢
  exact hahead.before_token

/-- Any text fits where a closing brace has just been consumed. -/
theorem advance_brace : Replays (fun p => p.buffer.found.token.kind = .braceClose) Foresees
    (Parser.advance : Parse (σ × List Happening) Token)
    (Parser.advance : Parse (τ × List Happening) Token) id (fun _ => Extends) := by
  intro p hbrace text htext
  refine advance_of (fun rest _ => ?_) htext
  rw [Buffer.found_eq] at hbrace ⊢
  exact Scan.Ahead.before_brace hbrace rest

end Replays

namespace Mimics

variable {body : Parse (σ × List Happening) α} {body' : Parse (τ × List Happening) α} {f : α → β}

theorem pure {a a' : α} (h : f a = f a') : Mimics f (Pure.pure a : Parse (σ × List Happening) α)
    (Pure.pure a' : Parse (τ × List Happening) α) :=
  Replays.pure (K := fun _ => Foresees) h

theorem bind {next : α → Parse (σ × List Happening) γ} {next' : α → Parse (τ × List Happening) γ}
    {g : γ → δ} (h : Mimics f body body')
    (hnext : ∀ a a', f a = f a' → Mimics g (next a) (next' a')) :
    Mimics g (body >>= next) (body' >>= next') :=
  Replays.bind h hnext

/-- A part with the same value in both parses, and what follows it. -/
theorem also {next : α → Parse (σ × List Happening) γ} {next' : α → Parse (τ × List Happening) γ}
    {g : γ → δ} (h : Mimics id body body') (hnext : ∀ a, Mimics g (next a) (next' a)) :
    Mimics g (body >>= next) (body' >>= next') :=
  h.bind fun a a' ha => by
    obtain rfl : a = a' := ha
    exact hnext a

theorem look {body : Token → Parse (σ × List Happening) α}
    {body' : Token → Parse (τ × List Happening) α}
    (h : ∀ token, Mimics f (body token) (body' token)) :
    Mimics f (Parser.peek >>= body) (Parser.peek >>= body') :=
  Replays.look fun token => (h token).seen

theorem fail (fault : ParseFault) (span : Span) :
    Mimics f (fail fault span : Parse (σ × List Happening) α)
      (Parser.fail fault span : Parse (τ × List Happening) α) :=
  Replays.throw _

theorem check (kind : TokenKind) : Mimics id (check kind : Parse (σ × List Happening) Bool)
    (Parser.check kind : Parse (τ × List Happening) Bool) :=
  look fun _ => pure rfl

theorem eat (kind : TokenKind) : Mimics id (eat kind : Parse (σ × List Happening) Bool)
    (Parser.eat kind : Parse (τ × List Happening) Bool) :=
  (check kind).also fun found => by
    cases found with
    | true => exact Replays.advance.also fun _ => pure rfl
    | false => exact pure rfl

theorem expect (kind : TokenKind) : Mimics id (expect kind : Parse (σ × List Happening) Token)
    (Parser.expect kind : Parse (τ × List Happening) Token) := by
  refine look fun token => ?_
  split
  · exact Replays.advance
  · exact fail _ _

theorem expectIdent : Mimics id (expectIdent : Parse (σ × List Happening) (String × Span))
    (Parser.expectIdent : Parse (τ × List Happening) (String × Span)) := by
  refine look fun token => ?_
  split
  · exact Replays.advance.also fun _ => pure rfl
  · exact fail _ _

theorem expectLexicalName : Mimics id (expectLexicalName : Parse (σ × List Happening) String)
    (Parser.expectLexicalName : Parse (τ × List Happening) String) := by
  refine expectIdent.also fun found => ?_
  obtain ⟨name, span⟩ := found
  dsimp only
  split
  · exact fail _ _
  · exact pure rfl

theorem expectTerminator : Mimics id (expectTerminator : Parse (σ × List Happening) Unit)
    (Parser.expectTerminator : Parse (τ × List Happening) Unit) := by
  refine (eat .semicolon).also fun eaten => ?_
  cases eaten with
  | true => exact pure rfl
  | false =>
      refine look fun token => ?_
      split
      · exact pure rfl
      · exact pure rfl
      · exact fail _ _

/-! ## Scopes and events -/

theorem update {g : State (σ × List Happening) → State (σ × List Happening)}
    {g' : State (τ × List Happening) → State (τ × List Happening)}
    (hbuffer : ∀ p, (g p).buffer = p.buffer)
    (h : ∀ {text p p'}, Mirrors text p p' → Mirrors text (g p) (g' p')) :
    Mimics id (modify g : Parse (σ × List Happening) PUnit)
      (modify g' : Parse (τ × List Happening) PUnit) := by
  intro p _ text htext
  exact ⟨hbuffer p ▸ htext, fun p' hp' => ⟨⟨⟩, g' p', rfl, rfl, h hp'⟩⟩

/-- A change of scopes. -/
theorem updateScopes (g : List LexicalScope → List LexicalScope) :
    Mimics id (modify fun p => { p with scopes := g p.scopes } : Parse (σ × List Happening) PUnit)
      (modify fun p => { p with scopes := g p.scopes } : Parse (τ × List Happening) PUnit) :=
  update (fun _ => rfl) fun h => ⟨h.chars, h.before, h.consumed, congrArg g h.scopes, h.log⟩

theorem declare (name : String) : Mimics id (declare name : Parse (σ × List Happening) Unit)
    (Parser.declare name : Parse (τ × List Happening) Unit) :=
  updateScopes (declareIn name)

theorem mayReturn : Mimics id (mayReturn : Parse (σ × List Happening) Bool)
    (Parser.mayReturn : Parse (τ × List Happening) Bool) :=
  fun _ _ _ htext => ⟨htext, fun p' hp' =>
    ⟨inCallable p'.scopes, p', rfl, congrArg inCallable hp'.scopes.symm, hp'⟩⟩

end Mimics

namespace Replays

variable {J : Buffer → List Char → Prop} {body : Parse (σ × List Happening) α}
  {body' : Parse (τ × List Happening) α} {f : α → β} {K : α → Buffer → List Char → Prop}

/-- What is done to the scopes at the end, whether a part failed or not. -/
theorem ensuringScopes (g : List LexicalScope → List LexicalScope)
    (h : Replays (fun _ => True) J body body' f K) :
    Replays (fun _ => True) J
      (Run.ensuring body fun p => { p with scopes := g p.scopes })
      (Run.ensuring body' fun p => { p with scopes := g p.scopes }) f K := by
  intro p hp
  have h := h p hp
  unfold Run.ensuring
  have hleave : ∀ {text : List Char} {q : State (σ × List Happening)}
      {q' : State (τ × List Happening)}, Mirrors text q q' →
      Mirrors text { q with scopes := g q.scopes } { q' with scopes := g q'.scopes } :=
    fun h => ⟨h.chars, h.before, h.consumed, congrArg g h.scopes, h.log⟩
  cases hrun : body p with
  | cutOff => trivial
  | error e q =>
      rw [hrun] at h
      intro hlog
      obtain ⟨hstart, hreplay⟩ := h hlog
      refine ⟨hstart, fun p' hp' => ?_⟩
      obtain ⟨q', hq', hend⟩ := hreplay p' hp'
      exact ⟨{ q' with scopes := g q'.scopes }, by rw [hq']; rfl, hleave hend⟩
  | value a q =>
      rw [hrun] at h
      intro text htext
      obtain ⟨hstart, hreplay⟩ := h text htext
      refine ⟨hstart, fun p' hp' => ?_⟩
      obtain ⟨a', q', hq', hvalue, hend⟩ := hreplay p' hp'
      exact ⟨a', { q' with scopes := g q'.scopes }, by rw [hq']; rfl, hvalue, hleave hend⟩

theorem inScope (kind : ScopeKind) (names : List String)
    (h : Replays (fun _ => True) Foresees body body' f K) :
    Replays (fun _ => True) Foresees (inScope kind names body) (Parser.inScope kind names body') f
      K :=
  Replays.bind (Mimics.updateScopes fun scopes => .declaring kind names :: scopes)
    fun _ _ _ => ensuringScopes List.tail h

variable {host : Host σ} {host' : Host τ}

/-- While a block runs, text may be spliced in that the plain parse has had ahead all along. -/
theorem runBegin (hsplices : host.OnlySplices) (hquiet : host'.Quiet) (left : Nat)
    {block block' : Block} (hblock : block.byName = block'.byName) (span : Span) :
    Replays (fun _ => True) Extends (runBegin host.recorded left block span)
      (Parser.runBegin host'.recorded left block' span) id (fun _ => Foresees) := by
  rintro ⟨buffer, scopes, s, log⟩ _
  unfold Parser.runBegin Host.recorded
  dsimp only
  cases hrun : host.runBegin left block span (buffer, s) with
  | cutOff => trivial
  | error e q =>
      intro hlog
      exact absurd (hlog _ List.mem_cons_self) (by simp [Happening.failed])
  | value a q =>
      obtain ⟨buffer₁, s₁⟩ := q
      -- a splice goes behind the cursor, so the text in front of it and the tokens read stay
      obtain ⟨hbefore, _, hconsumed⟩ := (hsplices hrun).before
      intro text htext
      refine ⟨?_, ?_⟩
      · obtain ⟨rest, hrest⟩ := htext.extends
        exact ⟨rest, by rw [hrest]; exact congrArg (·.reverse ++ rest) hbefore⟩
      · rintro ⟨buffer', scopes', s', log'⟩ hp'
        obtain ⟨s₂, hrun'⟩ := hquiet left block' span buffer' s'
        refine ⟨(), ⟨buffer', scopes', s₂, .ran block' span false :: log'⟩, ?_, rfl, ?_⟩
        · simp [hrun', Run.Outcome.mapState]
        · refine ⟨hp'.chars, hp'.before.trans hbefore.symm, hp'.consumed.trans hconsumed.symm,
            hp'.scopes, ?_⟩
          have hlog := hp'.log
          simp only [List.map_cons, Happening.byName, hblock] at hlog ⊢
          rw [hlog]

end Replays

namespace Mimics

variable {host : Host σ} {host' : Host τ}

theorem resolve (hnames : host.Names) (hnames' : host'.Names) (name : String) (span : Span) :
    Mimics Expr.byName (resolve host.recorded name span)
      (Parser.resolve host'.recorded name span) := by
  rintro ⟨buffer, scopes, s, log⟩ _
  cases hlexical : lexical? name scopes with
  | some ref =>
    have hresolve : ∀ {ρ : Type} (host : Host ρ) (buffer : Buffer) (s : ρ) (log : List Happening),
        Parser.resolve host.recorded name span ⟨buffer, scopes, s, log⟩ =
          .value (.lexical span ref) ⟨buffer, scopes, s, log⟩ := by
      intro ρ host buffer s log
      simp only [Parser.resolve, Run.modifyGet_apply, hlexical]
    rw [hresolve]
    refine fun text htext => ⟨htext, ?_⟩
    rintro ⟨buffer', scopes', s', log'⟩ hp'
    obtain rfl : scopes' = scopes := hp'.scopes
    exact ⟨_, _, hresolve .., rfl, hp'⟩
  | none =>
    have hresolve : ∀ {ρ : Type} (host : Host ρ) (buffer : Buffer) (s : ρ) (log : List Happening),
        Parser.resolve host.recorded name span ⟨buffer, scopes, s, log⟩ =
          .value (.global span (host.resolveGlobal name s).1)
            ⟨buffer, scopes, (host.resolveGlobal name s).2, log⟩ := by
      intro ρ host buffer s log
      simp only [Parser.resolve, Run.modifyGet_apply, hlexical]
      rfl
    rw [hresolve]
    refine fun text htext => ⟨htext, ?_⟩
    rintro ⟨buffer', scopes', s', log'⟩ hp'
    obtain rfl : scopes' = scopes := hp'.scopes
    refine ⟨.global span (host'.resolveGlobal name s').1,
      ⟨buffer', scopes', (host'.resolveGlobal name s').2, log'⟩, hresolve .., ?_,
      ⟨hp'.chars, hp'.before, hp'.consumed, rfl, hp'.log⟩⟩
    simp [CellRef.byName, hnames name s, hnames' name s']

theorem installSub (name : String) {function function' : Function}
    (hfunction : function.byName = function'.byName) :
    Mimics id (installSub host.recorded name function)
      (Parser.installSub host'.recorded name function') := by
  refine update (fun _ => rfl) fun {text p p'} h => ⟨h.chars, h.before, h.consumed, h.scopes, ?_⟩
  have hlog := h.log
  simp only [Host.recorded, List.map_cons, Happening.byName, hfunction]
  rw [hlog]

end Mimics

end Parser

end TwoPhase
