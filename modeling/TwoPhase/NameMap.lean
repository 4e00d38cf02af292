import Std.Data.TreeMap

/-!
# Tables by name

Names of variables, modules and the like are looked up in ordered tables, so that a program may
define many of them.
-/

namespace TwoPhase

/-- A finite map from names. -/
abbrev NameMap (α : Type) := Std.TreeMap String α

end TwoPhase
