import CloverVM.ObjectModel.MethodResolution
import CloverVM.ObjectModel.ValidityCells
import CloverVM.Runtime.OperatorDispatch
import CloverVM.Runtime.CallRules
import CloverVM.BuiltinTypes.DictReentryRun
import CloverVM.ImportSystem.ModuleGlobalTransparency
import CloverVM.Jit.SideExitTransition
import CloverVM.BuiltinTypes.IteratorExhaustion
import CloverVM.BuiltinTypes.BigIntDivisionStep
import CloverVM.ObjectModel.ObjectStoreRefinement
import CloverVM.BuiltinTypes.BigIntBitwise
import CloverVM.BuiltinTypes.IntShift
import CloverVM.BuiltinTypes.BigIntModularPower
import CloverVM.Compiler.IntLiteral
import CloverVM.BuiltinTypes.UnicodeRoundTrip
import CloverVM.BuiltinTypes.IntToDouble
import CloverVM.Jit.ConstantPoolPlacement
import CloverVM.Jit.TaggedValueGuardRun
import CloverVM.Stdlib.MathFunctions
import CloverVM.Stdlib.PosixpathRelative
import CloverVM.Stdlib.FnmatchAgreement
import CloverVM.BuiltinTypes.ListProgram
import CloverVM.BuiltinTypes.SequenceSearch
import CloverVM.BuiltinTypes.DictUpdate
import CloverVM.BuiltinTypes.NumberComparison
import CloverVM.Memory.HeapHistory
import CloverVM.Compiler.StringLiteral
