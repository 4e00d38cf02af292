import TwoPhase.Session
import TwoPhase.Proofs.Interpreter.Within
import TwoPhase.Proofs.Parser.ReplayGrammar

/-!
# What was parsed is what was written

When a unit has been parsed, with all the text that its `begin` blocks spliced in, the buffer holds
the final text.  Parsing that text alone, with `begin` blocks that do nothing, gives the same tree,
or the same error, and tells the host the same on the way.

So the spans that later messages point at are spans of the final text.
-/

namespace TwoPhase

variable {σ τ : Type}

namespace Parser

/-! ## Consumed tokens -/

/-- The tokens of a text are those consumed and those ahead. -/
structure Lexed (text : List Char) (b : Buffer) : Prop where
  chars : b.chars = text
  tokens : Scan.tokens 0 text = b.consumed.reverse ++ Scan.tokens b.cursor b.after

theorem Lexed.start (source : String) : Lexed source.toList (.ofString source) := ⟨rfl, rfl⟩

theorem Lexed.next {text : List Char} {b : Buffer} (h : Lexed text b)
    (hkind : b.found.token.kind ≠ .endOfInput) : Lexed text b.next.2 := by
  refine ⟨b.chars_next.trans h.chars, h.tokens.trans ?_⟩
  have hfound := b.found_eq
  rw [Scan.tokens_cons (hfound ▸ hkind), ← hfound]
  simp [Buffer.next]

/-- A plain parse reads the tokens of its text, one after the other. -/
theorem runUnit_lexed {host : Host τ} (hquiet : host.Quiet) (bound : Nat) (text : List Char) :
    Run.Triple (Holds fun b _ => Lexed text b) (runUnit host.recorded bound)
      (fun _ p => Lexed text p.buffer) (fun _ p => Lexed text p.buffer) := by
  refine Run.Triple.weaken (runUnit_keeps (E := fun b _ => Lexed text b) (fun bound ih => ?_) bound)
    (fun _ => id) (fun _ _ hp => hp.1.keeps) (fun _ _ => id)
  refine {
    nested := ih
    weak := id
    looks := fun h => ⟨h.chars, h.tokens⟩
    advances := fun h hkind => h.next hkind.2
    resolves := fun _ => id
    installs := fun _ _ => id
    begins := beginStmt_holds (I := fun b _ => Lexed text b) (E := fun b _ => Lexed text b)
      (ih (.block .beginBlock)) (fun _ _ h hkind => h.next hkind) ?_ }
  rintro body span ⟨buffer, s, log⟩ h
  obtain ⟨s', hs'⟩ := hquiet bound body span buffer s
  simpa [Host.recorded, hs'] using h

end Parser

/-! ## Hosts -/

/-- The host whose `begin` blocks do nothing. -/
def Host.silent : Host Unit where
  resolveGlobal name s := (⟨0, name⟩, s)
  installSub _ _ s := s
  runBegin _ _ _ := pure ()
  nesting _ := 0

theorem Host.silent_quiet : silent.Quiet := fun _ _ _ _ s => ⟨s, rfl⟩

namespace Interpreter

/-- To the parser, all that running a `begin` block does to the buffer is to splice text in. -/
theorem host_splices (rounds bound : Nat) : (host rounds (run bound)).Splices := by
  intro left body span buffer s result buffer' s' hrun
  let start : State := { s.withBuffer buffer with
    depth := s.depth + 1, nesting := s.nesting + (rounds - left) }
  have hbegun : Run.Triple (· = (buffer, s)) ((host rounds (run bound)).runBegin left body span)
      (fun _ p => buffer.Spliced p.1) (fun _ p => buffer.Spliced p.1) := by
    refine runBegin_keeps (Q := fun b _ => buffer.Spliced b) (Within.stable start)
      (run_within bound start (.block body)) (.refl start) fun t ht => ?_
    have hunits : Widened start.units t.units := ht.units
    cases hs : s.units with
    | nil =>
        have hstart : start.units = [] := by simp [start, State.withBuffer, hs]
        have hnone : t.units = [] := (hstart ▸ hunits).nil_eq
        rw [State.bufferOr, hnone]
        exact .refl
    | cons unit outer =>
        have hstart : start.units = { unit with buffer } :: outer := by
          simp [start, State.withBuffer, hs]
        obtain ⟨after, hone, hspliced⟩ := Widened.cons (hstart ▸ hunits)
        rw [State.bufferOr, hone]
        exact hspliced
  exact hbegun.ends rfl hrun

theorem host_onlySplices (rounds bound : Nat) : (host rounds (run bound)).OnlySplices :=
  Host.Splices.onlySplices (host_splices rounds bound)

theorem host_names (rounds bound : Nat) : (host rounds (run bound)).Names :=
  fun name s => s.globals.cell_name name

end Interpreter

/-! ## The final text -/

namespace Parser

variable {host : Host σ} {plain : Host τ}

/-- What a parse consumed and told its host is what another one did. -/
structure Agree (p : State (σ × List Happening)) (p' : State (τ × List Happening)) : Prop where
  chars : p'.buffer.chars = p.buffer.chars
  consumed : p'.buffer.consumed = p.buffer.consumed
  told : p'.host.2.map Happening.byName = p.host.2.map Happening.byName
  tokens : p.buffer.consumed.reverse <+: Scan.tokens 0 p.buffer.chars

/-- A unit that was parsed, or where the parser itself found an error, is what the final text says:
a plain parse of that text gives the same tree or the same error, and meets the same subs and
`begin` blocks in the same order.  The tokens consumed are the first tokens of the final text. -/
theorem final_text_parses_alike (hsplices : host.OnlySplices) (hquiet : plain.Quiet)
    (hnames : host.Names) (hnames' : plain.Names) (bound : Nat) (source : String) (h : σ) (h' : τ) :
    (∀ tree p, runUnit host.recorded bound (.start source (h, [])) = .value tree p →
      ∃ tree' p', runUnit plain.recorded bound (.start p.buffer.source (h', [])) = .value tree' p' ∧
        tree.byName = tree'.byName ∧ Agree p p') ∧
    (∀ e p, runUnit host.recorded bound (.start source (h, [])) = .error e p →
      (∀ told ∈ p.host.2, told.failed = false) →
      ∃ p', runUnit plain.recorded bound (.start p.buffer.source (h', [])) = .error e p' ∧
        Agree p p') := by
  have hmimics := runUnit_mimics hsplices hquiet hnames hnames' bound
    (.start source (h, [])) trivial
  -- the final text is known only once the recorded parse has ended
  have hstart : ∀ b : Buffer,
      Mirrors b.chars (.start source (h, [])) (.start b.source (h', [])) :=
    fun b =>
      ⟨by simp [State.start, Buffer.ofString, Buffer.source, Buffer.chars], rfl, rfl, rfl, rfl⟩
  have hlexed : ∀ b : Buffer, Holds (fun c (_ : τ × List Happening) => Lexed b.chars c)
      (.start b.source (h', [])) :=
    fun b => ⟨Plain.nil, by simpa [State.start, Buffer.source] using Lexed.start b.source⟩
  have hagree : ∀ {p : State (σ × List Happening)} {p' : State (τ × List Happening)},
      Mirrors p.buffer.chars p p' → Lexed p.buffer.chars p'.buffer → Agree p p' := by
    intro p p' hp' hlexed
    refine ⟨hp'.chars, hp'.consumed, hp'.log, ?_⟩
    rw [hlexed.tokens, hp'.consumed]
    exact List.prefix_append _ _
  constructor
  · intro tree p hrun
    rw [hrun] at hmimics
    obtain ⟨_, hreplay⟩ := hmimics p.buffer.chars (.chars p.buffer)
    obtain ⟨tree', p', hrun', htree, hp'⟩ := hreplay _ (hstart p.buffer)
    have hread := runUnit_lexed hquiet bound p.buffer.chars _ (hlexed p.buffer)
    rw [hrun'] at hread
    exact ⟨tree', p', hrun', htree, hagree hp' hread⟩
  · intro e p hrun hlog
    rw [hrun] at hmimics
    obtain ⟨_, hreplay⟩ := hmimics hlog
    obtain ⟨p', hrun', hp'⟩ := hreplay _ (hstart p.buffer)
    have hread := runUnit_lexed hquiet bound p.buffer.chars _ (hlexed p.buffer)
    rw [hrun'] at hread
    exact ⟨p', hrun', hagree hp' hread⟩

/-- A block that is put off splices in a call and another block. -/
theorem final_text_after_deferral : ∃ tree p tree' p',
    runUnit (Interpreter.host 30 (Interpreter.run 30)).recorded 30
        (.start "begin { at_runtime(fn() { }); } f();"
          ((Session.start .default).enterUnit "main" .main none "", [])) = .value tree p ∧
      p.buffer.source =
        "begin { at_runtime(fn() { }); }at_runtime::dispatch(); begin { at_runtime::clear(1) } f();" ∧
      runUnit Host.silent.recorded 30 (.start p.buffer.source ((), [])) = .value tree' p' ∧
      tree.byName = tree'.byName ∧ Agree p p' := by
  have htest : (runUnit (Interpreter.host 30 (Interpreter.run 30)).recorded 30
      (.start "begin { at_runtime(fn() { }); } f();"
        ((Session.start .default).enterUnit "main" .main none "", []))).valueWith (fun _ p =>
        p.buffer.source =
        "begin { at_runtime(fn() { }); }at_runtime::dispatch(); begin { at_runtime::clear(1) } f();")
      = true := by
    decide +kernel
  obtain ⟨tree, p, hrun, hsource⟩ := Run.Outcome.exists_value htest
  have hfinal := final_text_parses_alike (Interpreter.host_onlySplices 30 30) Host.silent_quiet
    (Interpreter.host_names 30 30) (fun _ _ => rfl) 30 "begin { at_runtime(fn() { }); } f();"
    ((Session.start .default).enterUnit "main" .main none "") ()
  obtain ⟨tree', p', hplain, htree, hagree⟩ := hfinal.1 tree p hrun
  exact ⟨tree, p, tree', p', hrun, of_decide_eq_true hsource, hplain, htree, hagree⟩

end Parser

end TwoPhase
