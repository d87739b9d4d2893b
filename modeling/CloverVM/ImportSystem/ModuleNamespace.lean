import CloverVM.BuiltinTypes.ModuleObject

/-!
# The namespaces of modules

What globals are for: each module maps names to values.  A lookup takes the
module's own value and else that of its builtins, which are the module that
its `__builtins__` names, or the builtins module of the machine when it has no
`__builtins__`.  Shapes, slots, validity cells and caches do not occur here.
-/

namespace CloverVM.ImportSystem.ModuleNamespace

open CloverVM.BuiltinTypes.ModuleObject

/-- The own values of every module. -/
abbrev Namespaces (M O : Type) := M → String → Option (GlobalValue M O)

namespace Namespaces

variable {M O : Type}

/-- The builtins of a module, none when its `__builtins__` is no module. -/
def builtins (machine : M) (ns : Namespaces M O) (m : M) : Option M :=
  match ns m "__builtins__" with
  | none => some machine
  | some (.module b) => some b
  | some _ => none

/-- Module first, then its builtins. -/
def lookup (machine : M) (ns : Namespaces M O) (m : M) (name : String) :
    Option (GlobalValue M O) :=
  match ns m name with
  | some v => some v
  | none => (ns.builtins machine m).bind fun b => ns b name

/-- The namespaces after a name of a module got another value, or none. -/
def set [DecidableEq M] (ns : Namespaces M O) (m : M) (name : String)
    (value : Option (GlobalValue M O)) : Namespaces M O :=
  fun k n => if k = m ∧ n = name then value else ns k n

theorem set_self [DecidableEq M] {ns : Namespaces M O} {m : M}
    {name : String} {value : Option (GlobalValue M O)}
    (h : ns m name = value) : ns.set m name value = ns := by
  funext k n
  unfold set
  by_cases hk : k = m ∧ n = name
  · rw [if_pos hk, ← h, hk.1, hk.2]
  · rw [if_neg hk]

end Namespaces

end CloverVM.ImportSystem.ModuleNamespace
