import CloverVM.Runtime.BuiltinException

/-!
# Exceptions of the library modules

The library modules written in Python raise an exception by its class, without
arguments.
-/

namespace CloverVM.Stdlib

open CloverVM.Runtime

/-- `raise ValueError` -/
def valueError : BuiltinException :=
  { typeName := "ValueError", message := "" }

end CloverVM.Stdlib
