/-!
# Builtin exceptions raised by the runtime

Type names and message texts of the builtin exceptions that the modelled
instructions and builtins raise.
-/

namespace CloverVM.Runtime

/-- A builtin exception as the runtime sets it: a class name and a message. -/
structure BuiltinException where
  typeName : String
  message : String
deriving DecidableEq, Repr

def zeroDivisionError : BuiltinException :=
  { typeName := "ZeroDivisionError", message := "division by zero" }

def valueErrorNegativeShiftCount : BuiltinException :=
  { typeName := "ValueError", message := "negative shift count" }

def powZeroModuloError : BuiltinException :=
  { typeName := "ValueError", message := "pow() 3rd argument cannot be 0" }

def notInvertibleError : BuiltinException :=
  { typeName := "ValueError"
    message := "base is not invertible for the given modulus" }

def overflowError : BuiltinException :=
  { typeName := "OverflowError", message := "integer overflow" }

def unimplementedIntegerOverflow : BuiltinException :=
  { typeName := "UnimplementedError", message := "integer overflow" }

def invalidIntLiteralError : BuiltinException :=
  { typeName := "ValueError", message := "invalid literal for int()" }

def unsupportedTruthinessError : BuiltinException :=
  { typeName := "TypeError", message := "unsupported truthiness for object" }

def notIteratorError : BuiltinException :=
  { typeName := "TypeError", message := "object is not an iterator" }

def rangeIntegerArgumentError : BuiltinException :=
  { typeName := "TypeError", message := "range() arguments must be integers" }

def rangeZeroStepError : BuiltinException :=
  { typeName := "ValueError", message := "range() arg 3 must not be zero" }

def invalidRangeIterationStateError : BuiltinException :=
  { typeName := "SystemError", message := "invalid range iteration state" }

end CloverVM.Runtime
