import TwoPhase.Proofs.Sound.Construct

/-!
# Operators and native subs on sound values

What operators give has nothing in it.  Native subs give values that they were given, or that the
state holds, so these are sound.
-/

namespace TwoPhase

open Interpreter

/-! ## Operators -/

/-- A value with nothing inside, which cannot be called. -/
inductive Value.Atomic : Value → Prop where
  | nil : Value.Atomic .nil
  | bool (b : Bool) : Value.Atomic (.bool b)
  | int (n : Int64) : Value.Atomic (.int n)
  | str (text : String) : Value.Atomic (.str text)

theorem Value.Atomic.not_has {v : Value} (h : v.Atomic) (sub : Sub) : ¬v.Has sub := by
  cases h <;> exact nofun

/-- A value with nothing inside, or a fault of its own. -/
def SimpleResult (result : Except Fault Value) : Prop :=
  match result with
  | .ok v => v.Atomic
  | .error fault => ¬State.Special fault

theorem simple_fit64 (op : String) (n : Int) : SimpleResult (fit64 op n) := by
  unfold fit64
  dsimp only
  split
  · exact .int _
  · exact nofun

theorem BinaryOp.simple_mismatch (op : BinaryOp) (v w : Value) : SimpleResult (op.mismatch v w) :=
  nofun

theorem BinaryOp.simple_comparison (op : BinaryOp) (ordering : Ordering) (v w : Value) :
    SimpleResult (op.comparison ordering v w) := by
  unfold comparison
  split
  · exact .bool _
  · exact simple_mismatch _ _ _

theorem BinaryOp.simple_onInts (op : BinaryOp) (a b : Int64) : SimpleResult (op.onInts a b) := by
  unfold onInts
  dsimp only
  split
  · exact simple_fit64 _ _
  · exact simple_fit64 _ _
  · exact simple_fit64 _ _
  · split
    · exact nofun
    · exact simple_fit64 _ _
  · split
    · exact nofun
    · have hquotient := simple_fit64 (symbol .mod) (a.toInt.tdiv b.toInt)
      cases hfit : fit64 (symbol .mod) (a.toInt.tdiv b.toInt) with
      | ok v => exact simple_fit64 _ _
      | error fault =>
          rw [hfit] at hquotient
          exact hquotient
  · exact simple_comparison _ _ _ _

theorem BinaryOp.simple_apply (op : BinaryOp) (v w : Value) : SimpleResult (op.apply v w) := by
  unfold apply
  split
  · exact .bool _
  · exact .bool _
  · split
    · exact simple_onInts _ _ _
    · unfold onStrings
      split
      · exact .str _
      · exact simple_comparison _ _ _ _
    · split
      · exact .str _
      · exact simple_mismatch _ _ _
    · split
      · exact .str _
      · exact simple_mismatch _ _ _
    · exact simple_mismatch _ _ _

theorem UnaryOp.simple_apply (op : UnaryOp) (v : Value) : SimpleResult (op.apply v) := by
  unfold apply
  split
  · exact .bool _
  · exact simple_fit64 _ _
  · exact nofun

namespace Interpreter

open Run (Agrees)

variable {α : Type} {s t : State} {floor rounds : Nat} {again again' : Again} {text : List Char}
  {scopes : List Parser.LexicalScope}

namespace Runs

theorem orRaise (hs : s.Sound) {result : Except Fault Value} (h : SimpleResult result) :
    Runs floor s (orRaise result) (orRaise result) fun v t => v.Sound t := by
  cases result with
  | ok v => exact pure hs fun sub hsub => absurd hsub (h.not_has sub)
  | error fault => exact raise hs h

end Runs

/-! ## Native subs -/

namespace Runs

variable {args : List Value} (hs : s.Sound)

include hs

theorem oneArg (hargs : ∀ arg ∈ args, arg.Sound s) (name : String) :
    Runs floor s (oneArg name args) (oneArg name args) fun v t => v.Sound t := by
  unfold Interpreter.oneArg
  split
  · exact pure hs (hargs _ List.mem_cons_self)
  · exact raise hs nofun

theorem oneString (hargs : ∀ arg ∈ args, arg.Sound s) (name : String) :
    Runs floor s (oneString name args) (oneString name args) fun _ _ => True := by
  refine (oneArg hs hargs name).bind fun value t ht _ => ?_
  split
  · exact pure ht.sound trivial
  · exact raise ht.sound nofun

theorem oneDepth (hargs : ∀ arg ∈ args, arg.Sound s) (name : String) :
    Runs floor s (oneDepth name args) (oneDepth name args) fun _ _ => True := by
  refine (oneArg hs hargs name).bind fun value t ht _ => ?_
  dsimp only
  split
  · split
    · exact raise ht.sound nofun
    · exact pure ht.sound trivial
  · exact raise ht.sound nofun

theorem length (hargs : ∀ arg ∈ args, arg.Sound s) (name : String) :
    Runs floor s (length name args) (length name args) fun v t => v.Sound t := by
  refine (oneArg hs hargs name).bind fun value t ht _ => ?_
  split
  · exact pure ht.sound (.int _)
  · exact pure ht.sound (.int _)
  · exact raise ht.sound nofun

theorem println (line : String) :
    Runs floor s (println line) (println line) fun _ _ => True :=
  .update (.quiet hs rfl rfl rfl rfl) trivial

theorem defer {callable : Value} (hcallable : callable.Sound s) (after : Bool) :
    Runs floor s (defer callable after) (defer callable after) fun _ _ => True := by
  refine ⟨rfl, ?_⟩
  rcases defer_cases callable after s with ⟨fault, h, hfault⟩ | ⟨hook, t, hput, h, hhook⟩ <;> rw [h]
  · refine ⟨.refl hs, State.sound_raised ?_⟩
    rcases hfault with rfl | ⟨e, rfl⟩ <;> exact nofun
  · exact ⟨.putOff hs (hhook ▸ hcallable) hput, trivial⟩

theorem lexStuff (text : String) :
    Runs floor s (lexStuff text) (lexStuff text) fun _ _ => True := by
  refine ⟨rfl, ?_⟩
  rcases lexStuff_cases text s with ⟨e, h⟩ | ⟨t, hinjected, h⟩ <;> rw [h]
  · exact ⟨.refl hs, State.sound_raised nofun⟩
  · have hafter : s.After floor t := .injected hs hinjected
    exact ⟨hafter.trans (.quiet hafter.sound rfl rfl rfl rfl), trivial⟩

theorem clearDepth (depth : Nat) :
    Runs floor s (clearDepth depth) (clearDepth depth) fun _ _ => True := by
  refine ⟨rfl, ?_⟩
  rcases clearDepth_cases depth s with ⟨e, h⟩ | ⟨fn, hslot, h⟩ <;> rw [h]
  · exact ⟨.refl hs, State.sound_raised nofun⟩
  · exact ⟨.cleared hs depth, trivial⟩

end Runs

namespace SoundParts

variable (h : SoundParts again again')

section

variable {args : List Value} (hs : s.Sound) (hfloor : floor ≤ s.env.heap.size)
  (hargs : ∀ arg ∈ args, arg.Sound s)

include h hs hfloor hargs

theorem callBuiltin (sub : Builtin) :
    Runs floor s (callBuiltin rounds again sub args) (callBuiltin rounds again' sub args)
      fun v t => v.Sound t := by
  cases sub with
  | print => exact (Runs.println hs _).bind fun _ t ht _ => Runs.pure ht.sound .nil
  | atRuntime =>
      refine (Runs.oneArg hs hargs _).bind fun callable t ht hcallable => ?_
      exact (Runs.defer ht.sound hcallable _).bind fun _ u hu _ => Runs.pure hu.sound .nil
  | afterRuntime =>
      refine (Runs.oneArg hs hargs _).bind fun callable t ht hcallable => ?_
      exact (Runs.defer ht.sound hcallable _).bind fun _ u hu _ => Runs.pure hu.sound .nil
  | lexStuff =>
      refine (Runs.oneString hs hargs _).bind fun text t ht _ => ?_
      exact (Runs.lexStuff ht.sound text).bind fun _ u hu _ => Runs.pure hu.sound .nil
  | clear =>
      refine (Runs.oneDepth hs hargs _).bind fun depth t ht _ => ?_
      exact (Runs.clearDepth ht.sound depth).bind fun _ u hu _ => Runs.pure hu.sound .nil
  | eval =>
      refine (Runs.oneString hs hargs _).bind fun text t ht _ => ?_
      exact h.evalString ht.sound (Nat.le_trans hfloor ht.env.size) text
  | require =>
      refine (Runs.oneString hs hargs _).bind fun name t ht _ => ?_
      exact h.require ht.sound (Nat.le_trans hfloor ht.env.size) name
  | callers =>
      cases args with
      | nil =>
          refine Agrees.bind (Q := fun _ _ => True) (.update (.quiet hs rfl rfl rfl rfl) trivial)
            fun _ t ht _ => .get (Runs.pure ht.sound (.list fun v hv => ?_))
          obtain ⟨name, _, rfl⟩ := List.mem_map.1 (List.mem_toArray.1 hv)
          exact .str name
      | cons arg args => exact Runs.raise hs nofun
  | die => exact Runs.raise hs nofun
  | len => exact Runs.length hs hargs _
  | str => exact (Runs.oneArg hs hargs _).bind fun v t ht _ => Runs.pure ht.sound (.str _)

theorem callProbe (probe : Probe) :
    Runs floor s (callProbe again probe args) (callProbe again' probe args)
      fun v t => v.Sound t := by
  cases probe with
  | depth => exact .get (Runs.pure hs (.int _))
  | snapshot =>
      refine .get (Runs.pure hs (.list fun v hv => ?_))
      simp only [List.mem_toArray, List.mem_cons, List.not_mem_nil, or_false] at hv
      rcases hv with rfl | rfl
      · refine .list fun v hv => ?_
        obtain ⟨n, _, rfl⟩ := List.mem_map.1 (List.mem_toArray.1 hv)
        exact .int _
      · split
        · exact .int _
        · exact .nil
  | attempt =>
      cases args with
      | nil => exact Runs.raise hs nofun
      | cons callee args =>
          refine Agrees.bind (Agrees.attempt (Runs.nested h (.call callee args (.point 0)) hs
            ⟨hargs callee List.mem_cons_self,
              fun arg harg => hargs arg (List.mem_cons_of_mem _ harg)⟩ hfloor))
            fun result t ht hresult => ?_
          cases result with
          | ok v =>
              refine Runs.pure ht.sound (.list fun w hw => ?_)
              simp only [List.mem_toArray, List.mem_cons, List.not_mem_nil, or_false] at hw
              rcases hw with rfl | rfl
              · exact .bool true
              · exact hresult
          | error e =>
              refine Runs.pure ht.sound (.list fun w hw => ?_)
              simp only [List.mem_toArray, List.mem_cons, List.not_mem_nil, or_false] at hw
              rcases hw with rfl | rfl
              · exact .bool false
              · exact .str _
  | block =>
      exact Agrees.bind (Q := fun _ _ => True) (.modifyGet (.quiet hs rfl rfl rfl rfl) trivial)
        fun _ t ht _ => Runs.pure ht.sound (.native _)
  | blockBody id text =>
      exact (Runs.println hs _).bind fun _ t ht _ => Runs.pure ht.sound (.str text)
  | global =>
      refine .get (Runs.pure hs ?_)
      cases hvalue : s.globals.lookup? (slotName args) with
      | none => exact .nil
      | some v =>
          obtain ⟨cell, _, hcell⟩ := Option.bind_eq_some_iff.1 hvalue
          exact hs.values v (.global ⟨cell, hcell⟩)
  | keep =>
      have hvalue : (args[1]?.getD Value.nil).Sound s := by
        cases hvalue : args[1]? with
        | none => exact .nil
        | some v => exact hargs v (List.mem_of_getElem? hvalue)
      exact Agrees.bind (Q := fun _ _ => True) (.update (.keep hs _ hvalue) trivial)
        fun _ t ht _ => Runs.pure ht.sound .nil
  | kept =>
      refine .get (Runs.pure hs ?_)
      cases hvalue : s.kept[slotName args]? with
      | none => exact .nil
      | some v => exact hs.values v (.kept hvalue)

theorem callNative (native : Native) :
    Runs floor s (callNative rounds again native args) (callNative rounds again' native args)
      fun v t => v.Sound t := by
  cases native with
  | builtin sub => exact h.callBuiltin hs hfloor hargs sub
  | probe probe => exact h.callProbe hs hfloor hargs probe

end

end SoundParts

end Interpreter

end TwoPhase
