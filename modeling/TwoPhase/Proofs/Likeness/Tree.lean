import TwoPhase.Tree
import TwoPhase.Proofs.Likeness.Basic

/-!
# Trees up to spans

Trees are alike if they have the same form, with the same names and cells, and their spans agree
where spans count.  So trees that are alike are the same tree up to spans.
-/

namespace TwoPhase

instance : HasLike CellRef := .ofEq

mutual

/-- The same expression, up to spans. -/
inductive Expr.Like (K : Comparison) : Expr → Expr → Prop where
  | nil {p q : Span} (h : p.Like K q) : Expr.Like K (.nil p) (.nil q)
  | bool {p q : Span} (value : Bool) (h : p.Like K q) : Expr.Like K (.bool p value) (.bool q value)
  | int {p q : Span} (value : Int64) (h : p.Like K q) : Expr.Like K (.int p value) (.int q value)
  | str {p q : Span} (value : String) (h : p.Like K q) : Expr.Like K (.str p value) (.str q value)
  | list {p q : Span} {es fs : List Expr} (h : p.Like K q) (hitems : es.Forall₂ (Expr.Like K) fs) :
      Expr.Like K (.list p es) (.list q fs)
  | lexical {p q : Span} (ref : LexicalRef) (h : p.Like K q) :
      Expr.Like K (.lexical p ref) (.lexical q ref)
  | global {p q : Span} (cell : CellRef) (h : p.Like K q) :
      Expr.Like K (.global p cell) (.global q cell)
  | call {p q : Span} {e f : Expr} {es fs : List Expr} (h : p.Like K q) (hcallee : e.Like K f)
      (hargs : es.Forall₂ (Expr.Like K) fs) : Expr.Like K (.call p e es) (.call q f fs)
  | closure {p q : Span} {f g : Function} (h : p.Like K q) (hfunction : f.Like K g) :
      Expr.Like K (.closure p f) (.closure q g)
  | unary {p q : Span} {e f : Expr} (op : UnaryOp) (h : p.Like K q) (hoperand : e.Like K f) :
      Expr.Like K (.unary p op e) (.unary q op f)
  | binary {p q : Span} {e f e' f' : Expr} (op : BinaryOp) (h : p.Like K q) (hleft : e.Like K f)
      (hright : e'.Like K f') : Expr.Like K (.binary p op e e') (.binary q op f f')

/-- The same statement, up to spans. -/
inductive Stmt.Like (K : Comparison) : Stmt → Stmt → Prop where
  | define {p q : Span} {e f : Expr} (name : String) (h : p.Like K q) (hvalue : e.Like K f) :
      Stmt.Like K (.define p name e) (.define q name f)
  | assignLexical {p q : Span} {e f : Expr} (ref : LexicalRef) (h : p.Like K q)
      (hvalue : e.Like K f) : Stmt.Like K (.assignLexical p ref e) (.assignLexical q ref f)
  | assignGlobal {p q : Span} {e f : Expr} (cell : CellRef) (h : p.Like K q)
      (hvalue : e.Like K f) : Stmt.Like K (.assignGlobal p cell e) (.assignGlobal q cell f)
  | expr {e f : Expr} (h : e.Like K f) : Stmt.Like K (.expr e) (.expr f)
  | ret {p q : Span} (h : p.Like K q) : Stmt.Like K (.ret p none) (.ret q none)
  | retValue {p q : Span} {e f : Expr} (h : p.Like K q) (hvalue : e.Like K f) :
      Stmt.Like K (.ret p (some e)) (.ret q (some f))
  | block {b c : Block} (h : b.Like K c) : Stmt.Like K (.block b) (.block c)
  | cond {p q : Span} {e f : Expr} {b c : Block} (h : p.Like K q) (htest : e.Like K f)
      (hyes : b.Like K c) : Stmt.Like K (.cond p e b none) (.cond q f c none)
  | condElse {p q : Span} {e f : Expr} {b c b' c' : Block} (h : p.Like K q) (htest : e.Like K f)
      (hyes : b.Like K c) (hno : b'.Like K c') :
      Stmt.Like K (.cond p e b (some b')) (.cond q f c (some c'))
  | loop {p q : Span} {e f : Expr} {b c : Block} (h : p.Like K q) (htest : e.Like K f)
      (hbody : b.Like K c) : Stmt.Like K (.loop p e b) (.loop q f c)

/-- The same block, up to spans. -/
inductive Block.Like (K : Comparison) : Block → Block → Prop where
  | mk {p q : Span} {ss ts : List Stmt} (h : p.Like K q) (hstmts : ss.Forall₂ (Stmt.Like K) ts) :
      Block.Like K (.mk p ss) (.mk q ts)

/-- The same function, up to spans. -/
inductive Function.Like (K : Comparison) : Function → Function → Prop where
  | mk {p q : Span} {b c : Block} (name : Option String) (params : List String) (h : p.Like K q)
      (hbody : b.Like K c) : Function.Like K (.mk p name params b) (.mk q name params c)

end

variable {K : Comparison}

/-! ## Trees are like themselves -/

mutual

theorem Expr.Like.refl : ∀ e : Expr, e.Like K e
  | .nil p => .nil (.refl p)
  | .bool p value => .bool value (.refl p)
  | .int p value => .int value (.refl p)
  | .str p value => .str value (.refl p)
  | .list p items => .list (.refl p) (exprsLike_refl items)
  | .lexical p ref => .lexical ref (.refl p)
  | .global p cell => .global cell (.refl p)
  | .call p callee args => .call (.refl p) (Expr.Like.refl callee) (exprsLike_refl args)
  | .closure p function => .closure (.refl p) (Function.Like.refl function)
  | .unary p op operand => .unary op (.refl p) (Expr.Like.refl operand)
  | .binary p op left right => .binary op (.refl p) (Expr.Like.refl left) (Expr.Like.refl right)

theorem exprsLike_refl : ∀ es : List Expr, es.Forall₂ (Expr.Like K) es
  | [] => .nil
  | e :: es => .cons (Expr.Like.refl e) (exprsLike_refl es)

theorem Stmt.Like.refl : ∀ s : Stmt, s.Like K s
  | .define p name value => .define name (.refl p) (Expr.Like.refl value)
  | .assignLexical p ref value => .assignLexical ref (.refl p) (Expr.Like.refl value)
  | .assignGlobal p cell value => .assignGlobal cell (.refl p) (Expr.Like.refl value)
  | .expr e => .expr (Expr.Like.refl e)
  | .ret p none => .ret (.refl p)
  | .ret p (some value) => .retValue (.refl p) (Expr.Like.refl value)
  | .block body => .block (Block.Like.refl body)
  | .cond p test yes none => .cond (.refl p) (Expr.Like.refl test) (Block.Like.refl yes)
  | .cond p test yes (some no) =>
      .condElse (.refl p) (Expr.Like.refl test) (Block.Like.refl yes) (Block.Like.refl no)
  | .loop p test body => .loop (.refl p) (Expr.Like.refl test) (Block.Like.refl body)

theorem stmtsLike_refl : ∀ ss : List Stmt, ss.Forall₂ (Stmt.Like K) ss
  | [] => .nil
  | s :: ss => .cons (Stmt.Like.refl s) (stmtsLike_refl ss)

theorem Block.Like.refl : ∀ b : Block, b.Like K b
  | .mk p stmts => .mk (.refl p) (stmtsLike_refl stmts)

theorem Function.Like.refl : ∀ f : Function, f.Like K f
  | .mk p name params body => .mk name params (.refl p) (Block.Like.refl body)

end

/-! ## Where spans count, only equal trees are alike -/

mutual

theorem Expr.Like.eq (hexact : K.exact) : ∀ {e f : Expr}, e.Like K f → e = f
  | _, _, .nil h => by rw [h hexact]
  | _, _, .bool _ h => by rw [h hexact]
  | _, _, .int _ h => by rw [h hexact]
  | _, _, .str _ h => by rw [h hexact]
  | _, _, .list h hitems => by rw [h hexact, exprsLike_eq hexact hitems]
  | _, _, .lexical _ h => by rw [h hexact]
  | _, _, .global _ h => by rw [h hexact]
  | _, _, .call h hcallee hargs => by
      rw [h hexact, Expr.Like.eq hexact hcallee, exprsLike_eq hexact hargs]
  | _, _, .closure h hfunction => by rw [h hexact, Function.Like.eq hexact hfunction]
  | _, _, .unary _ h hoperand => by rw [h hexact, Expr.Like.eq hexact hoperand]
  | _, _, .binary _ h hleft hright => by
      rw [h hexact, Expr.Like.eq hexact hleft, Expr.Like.eq hexact hright]

theorem exprsLike_eq (hexact : K.exact) : ∀ {es fs : List Expr},
    es.Forall₂ (Expr.Like K) fs → es = fs
  | _, _, .nil => rfl
  | _, _, .cons h hs => by rw [Expr.Like.eq hexact h, exprsLike_eq hexact hs]

theorem Stmt.Like.eq (hexact : K.exact) : ∀ {s t : Stmt}, s.Like K t → s = t
  | _, _, .define _ h hvalue => by rw [h hexact, Expr.Like.eq hexact hvalue]
  | _, _, .assignLexical _ h hvalue => by rw [h hexact, Expr.Like.eq hexact hvalue]
  | _, _, .assignGlobal _ h hvalue => by rw [h hexact, Expr.Like.eq hexact hvalue]
  | _, _, .expr h => by rw [Expr.Like.eq hexact h]
  | _, _, .ret h => by rw [h hexact]
  | _, _, .retValue h hvalue => by rw [h hexact, Expr.Like.eq hexact hvalue]
  | _, _, .block h => by rw [Block.Like.eq hexact h]
  | _, _, .cond h htest hyes => by
      rw [h hexact, Expr.Like.eq hexact htest, Block.Like.eq hexact hyes]
  | _, _, .condElse h htest hyes hno => by
      rw [h hexact, Expr.Like.eq hexact htest, Block.Like.eq hexact hyes, Block.Like.eq hexact hno]
  | _, _, .loop h htest hbody => by
      rw [h hexact, Expr.Like.eq hexact htest, Block.Like.eq hexact hbody]

theorem stmtsLike_eq (hexact : K.exact) : ∀ {ss ts : List Stmt},
    ss.Forall₂ (Stmt.Like K) ts → ss = ts
  | _, _, .nil => rfl
  | _, _, .cons h hs => by rw [Stmt.Like.eq hexact h, stmtsLike_eq hexact hs]

theorem Block.Like.eq (hexact : K.exact) : ∀ {b c : Block}, b.Like K c → b = c
  | _, _, .mk h hstmts => by rw [h hexact, stmtsLike_eq hexact hstmts]

theorem Function.Like.eq (hexact : K.exact) : ∀ {f g : Function}, f.Like K g → f = g
  | _, _, .mk _ _ h hbody => by rw [h hexact, Block.Like.eq hexact hbody]

end

instance : HasLike Expr := ⟨Expr.Like, fun _ => .refl⟩
instance : HasLike Stmt := ⟨Stmt.Like, fun _ => .refl⟩
instance : HasLike Block := ⟨Block.Like, fun _ => .refl⟩
instance : HasLike Function := ⟨Function.Like, fun _ => .refl⟩

/-! ## Parts -/

theorem Expr.Like.span {e f : Expr} (h : e.Like K f) : e.span.Like K f.span := by
  cases h <;> assumption

theorem Expr.Like.withSpan {e f : Expr} {p q : Span} (h : e.Like K f) (hspan : p.Like K q) :
    (e.withSpan p).Like K (f.withSpan q) := by
  cases h with
  | nil => exact .nil hspan
  | bool value => exact .bool value hspan
  | int value => exact .int value hspan
  | str value => exact .str value hspan
  | list _ hitems => exact .list hspan hitems
  | lexical ref => exact .lexical ref hspan
  | global cell => exact .global cell hspan
  | call _ hcallee hargs => exact .call hspan hcallee hargs
  | closure _ hfunction => exact .closure hspan hfunction
  | unary op _ hoperand => exact .unary op hspan hoperand
  | binary op _ hleft hright => exact .binary op hspan hleft hright

theorem Block.Like.span {b c : Block} (h : b.Like K c) : b.span.Like K c.span := by
  cases h with
  | mk h _ => exact h

theorem Block.Like.stmts {b c : Block} (h : b.Like K c) :
    b.stmts.Forall₂ (Stmt.Like K) c.stmts := by
  cases h with
  | mk _ hstmts => exact hstmts

theorem Stmt.Like.span {s t : Stmt} (h : s.Like K t) : s.span.Like K t.span := by
  cases h with
  | expr h => exact h.span
  | block h => exact h.span
  | define _ h => exact h
  | assignLexical _ h => exact h
  | assignGlobal _ h => exact h
  | ret h => exact h
  | retValue h => exact h
  | cond h => exact h
  | condElse h => exact h
  | loop h => exact h

theorem Function.Like.span {f g : Function} (h : f.Like K g) : f.span.Like K g.span := by
  cases h with
  | mk _ _ h _ => exact h

theorem Function.Like.params {f g : Function} (h : f.Like K g) : f.params = g.params := by
  cases h with
  | mk => rfl

theorem Function.Like.body {f g : Function} (h : f.Like K g) : f.body.Like K g.body := by
  cases h with
  | mk _ _ _ hbody => exact hbody

end TwoPhase
