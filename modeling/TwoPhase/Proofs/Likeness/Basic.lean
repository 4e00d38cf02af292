import Mathlib.Data.List.Forall2
import TwoPhase.NameMap
import TwoPhase.Span

/-!
# Likeness

Two runs of a program can be compared although they are not the same.  One may splice a text in at
another place, so that everything behind it has other spans; one may run inside calls that the other
does not make.  A comparison says which differences count.  Data are alike if they differ in nothing
that counts, and where everything counts, they are equal.

Lists are alike item by item, and tables are alike if they were filled alike.
-/

namespace TwoPhase

/-- Which differences between two runs count. -/
structure Comparison where
  /-- Spans count, and so do the texts that they point into. -/
  exact : Prop
  /-- Call frames count. -/
  frames : Prop
  /-- Both runs are looked at only while depth and units move together. -/
  aligned : Prop
  /-- How many warnings of line mode there were at the start. -/
  warned : Nat
  /-- How many texts had been spliced in at the start. -/
  spliced : Nat
  /-- How often code had asked who called it at the start. -/
  asked : Nat

/-- A type whose values can be alike. -/
class HasLike (α : Type) where
  Like : Comparison → α → α → Prop
  like_refl : ∀ K a, Like K a a

/-- A type whose values differ in spans only if they are alike. -/
class SpansOnly (α : Type) [HasLike α] : Prop where
  eq_of_like : ∀ {K : Comparison} {a b : α}, K.exact → HasLike.Like K a b → a = b

export HasLike (Like like_refl)
export SpansOnly (eq_of_like)

variable {α β : Type} {K : Comparison}

/-- Values that can only be alike by being equal. -/
@[reducible] def HasLike.ofEq : HasLike α := ⟨fun _ => Eq, fun _ _ => rfl⟩

instance : HasLike Unit := .ofEq
instance : HasLike Bool := .ofEq
instance : HasLike Nat := .ofEq
instance : HasLike String := .ofEq

/-! ## Spans -/

/-- Spans that agree if spans count. -/
def Span.Like (K : Comparison) (p q : Span) : Prop := K.exact → p = q

namespace Span.Like

variable {p q p' q' : Span}

theorem refl (p : Span) : p.Like K p := fun _ => rfl

theorem merge (h : Span.Like K p q) (h' : Span.Like K p' q') :
    Span.Like K (p.merge p') (q.merge q') := by
  intro hexact
  rw [h hexact, h' hexact]

theorem unit (h : Span.Like K p q) : Span.Like K ⟨0, p.stop⟩ ⟨0, q.stop⟩ := by
  intro hexact
  rw [h hexact]

end Span.Like

instance : HasLike Span := ⟨Span.Like, fun _ => .refl⟩

/-! ## Options and lists -/

section

variable {R : α → α → Prop} {a b : α} {as bs as' bs' : List α}

theorem rel_refl (h : ∀ a, R a a) : ∀ o : Option α, Option.Rel R o o
  | none => .none
  | some a => .some (h a)

theorem eq_of_rel (h : ∀ {a b}, R a b → a = b) : ∀ {o o' : Option α}, Option.Rel R o o' → o = o'
  | _, _, .none => rfl
  | _, _, .some hab => congrArg some (h hab)

theorem rel_cases {o o' : Option α} (h : Option.Rel R o o') :
    (o = none ∧ o' = none) ∨ ∃ a b, o = some a ∧ o' = some b ∧ R a b := by
  cases h with
  | none => exact .inl ⟨rfl, rfl⟩
  | some hab => exact .inr ⟨_, _, rfl, rfl, hab⟩

theorem rel_isSome {o o' : Option α} (h : Option.Rel R o o') : o.isSome = o'.isSome := by
  cases h <;> rfl

theorem forall₂_refl_of (h : ∀ a, R a a) (as : List α) : as.Forall₂ R as :=
  List.forall₂_same.2 fun a _ => h a

theorem eq_of_forall₂ (h : ∀ {a b}, R a b → a = b) (hs : as.Forall₂ R bs) : as = bs := by
  induction hs with
  | nil => rfl
  | cons hab _ ih => rw [h hab, ih]

theorem forall₂_getElem? (h : as.Forall₂ R bs) (i : Nat) : Option.Rel R as[i]? bs[i]? := by
  induction h generalizing i with
  | nil => exact .none
  | cons hab _ ih =>
      cases i with
      | zero => exact .some hab
      | succ i => exact ih i

theorem forall₂_append (h : as.Forall₂ R bs) (h' : as'.Forall₂ R bs') :
    (as ++ as').Forall₂ R (bs ++ bs') :=
  List.rel_append h h'

theorem forall₂_modify {f g : α → α} (h : as.Forall₂ R bs) (hfg : ∀ {a b}, R a b → R (f a) (g b))
    (i : Nat) : (as.modify i f).Forall₂ R (bs.modify i g) := by
  induction h generalizing i with
  | nil => cases i <;> exact .nil
  | cons hab hs ih =>
      cases i with
      | zero => exact .cons (hfg hab) hs
      | succ i => exact .cons hab (ih i)

theorem forall₂_tail (h : as.Forall₂ R bs) : as.tail.Forall₂ R bs.tail := by
  cases h with
  | nil => exact .nil
  | cons _ hs => exact hs

theorem map_eq_of_forall₂ {f g : α → β} (h : as.Forall₂ R bs) (hfg : ∀ {a b}, R a b → f a = g b) :
    as.map f = bs.map g := by
  induction h with
  | nil => rfl
  | cons hab _ ih => rw [List.map_cons, List.map_cons, hfg hab, ih]

theorem forall₂_cases (h : as.Forall₂ R bs) :
    (as = [] ∧ bs = []) ∨
      ∃ a as' b bs', as = a :: as' ∧ bs = b :: bs' ∧ R a b ∧ as'.Forall₂ R bs' := by
  cases h with
  | nil => exact .inl ⟨rfl, rfl⟩
  | cons hab hs => exact .inr ⟨_, _, _, _, rfl, rfl, hab, hs⟩

theorem forall₂_isEmpty (h : as.Forall₂ R bs) : as.isEmpty = bs.isEmpty := by
  cases h <;> rfl

end

instance [HasLike α] : HasLike (Option α) :=
  ⟨fun K => Option.Rel (Like K), fun K => rel_refl (like_refl K)⟩

instance [HasLike α] : HasLike (List α) :=
  ⟨fun K => List.Forall₂ (Like K), fun K => forall₂_refl_of (like_refl K)⟩

instance [HasLike α] [SpansOnly α] : SpansOnly (List α) :=
  ⟨fun hexact => eq_of_forall₂ (eq_of_like hexact)⟩

instance [HasLike α] : HasLike (Array α) :=
  ⟨fun K as bs => as.toList.Forall₂ (Like K) bs.toList, fun K as => like_refl K as.toList⟩

instance [HasLike α] [SpansOnly α] : SpansOnly (Array α) :=
  ⟨fun hexact h => Array.toList_inj.1 (eq_of_forall₂ (eq_of_like hexact) h)⟩

instance [HasLike α] [HasLike β] : HasLike (α × β) :=
  ⟨fun K p q => Like K p.1 q.1 ∧ Like K p.2 q.2, fun K p => ⟨like_refl K p.1, like_refl K p.2⟩⟩

instance [HasLike α] [HasLike β] : HasLike (Except α β) where
  Like K
    | .ok a, .ok b => Like K a b
    | .error e, .error e' => Like K e e'
    | _, _ => False
  like_refl K
    | .ok a => like_refl K a
    | .error e => like_refl K e

/-- Results that can only be alike by being equal. -/
theorem eq_of_except [HasLike α] [HasLike β] (hα : ∀ {a b : α}, Like K a b → a = b)
    (hβ : ∀ {a b : β}, Like K a b → a = b) {r r' : Except α β} (h : Like K r r') : r = r' := by
  cases r <;> cases r'
  · exact congrArg _ (hα h)
  · cases h
  · cases h
  · exact congrArg _ (hβ h)

/-! ## Tables -/

/-- Tables that were filled alike. -/
inductive NameMap.Like (R : α → α → Prop) : NameMap α → NameMap α → Prop where
  | same (m : NameMap α) : NameMap.Like R m m
  | insert {m n : NameMap α} {a b : α} (name : String) (h : NameMap.Like R m n) (hab : R a b) :
      NameMap.Like R (m.insert name a) (n.insert name b)

namespace NameMap.Like

variable {R : α → α → Prop} {m n : NameMap α}

theorem eq (hR : ∀ {a b}, R a b → a = b) (h : NameMap.Like R m n) : m = n := by
  induction h with
  | same => rfl
  | insert name _ hab ih => rw [ih, hR hab]

theorem getElem? (hR : ∀ a, R a a) (h : NameMap.Like R m n) (name : String) :
    Option.Rel R m[name]? n[name]? := by
  induction h with
  | same m => exact rel_refl hR _
  | insert other _ hab ih =>
      rw [Std.TreeMap.getElem?_insert, Std.TreeMap.getElem?_insert]
      split
      · exact .some hab
      · exact ih

end NameMap.Like

end TwoPhase
