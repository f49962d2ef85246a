import IcLir.Compile
import IcLir.Tree.Traversal
import IcLir.Proofs.Accepted
import IcLir.Proofs.ClassLayouts
import IcLir.Proofs.ClassMembers
import IcLir.Proofs.ClassScopes
import IcLir.Proofs.ClassTable
import IcLir.Proofs.CodeRuns
import IcLir.Proofs.CompileOutcome
import IcLir.Proofs.DefinitionStep
import IcLir.Proofs.Evaluation
import IcLir.Proofs.Execution
import IcLir.Proofs.ExprCheck
import IcLir.Proofs.ControlFlow
import IcLir.Proofs.ExpressionRefinement
import IcLir.Proofs.ExpressionRuns
import IcLir.Proofs.FreshLabels
import IcLir.Proofs.HasType
import IcLir.Proofs.LayoutTables
import IcLir.Proofs.Lowered
import IcLir.Proofs.LoweredProgram
import IcLir.Proofs.LoweringTotal
import IcLir.Proofs.Machine
import IcLir.Proofs.MemberOwners
import IcLir.Proofs.MethodRefinement
import IcLir.Proofs.MethodScopes
import IcLir.Proofs.NameLookup
import IcLir.Proofs.OperandRuns
import IcLir.Proofs.OperationRuns
import IcLir.Proofs.Outcome
import IcLir.Proofs.CheckEffects
import IcLir.Proofs.ProgramScopes
import IcLir.Proofs.ScopeExtension
import IcLir.Proofs.ScopeSymbols
import IcLir.Proofs.ScopedBody
import IcLir.Proofs.StatementRuns
import IcLir.Proofs.TypeExtension
import IcLir.Proofs.TypeSoundness
import IcLir.Proofs.VirtualDispatch
import IcLir.Proofs.WellTyped
import IcLir.Proofs.Decides
import IcLir.Proofs.WellFormed
import IcLir.Proofs.WrittenTypes
import IcLir.Proofs.BodyRules
import IcLir.Proofs.MemberRules
import IcLir.Proofs.DefinitionRules
import IcLir.Proofs.LayoutAgreement
import IcLir.Proofs.NumberedLocals
import IcLir.Proofs.Lexical
import IcLir.Proofs.LexicalFrames
import IcLir.Proofs.LexicalScoping
import IcLir.Proofs.Interpreter
import IcLir.Proofs.StoreTyping
import IcLir.Proofs.RunSoundness
import IcLir.Proofs.TypeSafety
import IcLir.Proofs.ProgramText
import IcLir.Proofs.ProgramCode
import IcLir.Proofs.LineOrigins
import IcLir.Proofs.References
import IcLir.Proofs.Linking
import IcLir.Proofs.LabelUniqueness
import IcLir.Proofs.VariableSlots
import IcLir.Proofs.CallOrder
import IcLir.Proofs.GuardedCode
import IcLir.Proofs.OperandNames
import IcLir.Proofs.TypeRegistries
import IcLir.Proofs.EvaluationOrder
import IcLir.Proofs.FirstFailure
import IcLir.Proofs.SizeGuard
import IcLir.Proofs.ScopeNesting
import IcLir.Proofs.ScopeGraphs
import IcLir.Proofs.DefinitionChanges
import IcLir.Proofs.StaticCode
import IcLir.Proofs.TypingRules
import IcLir.Proofs.ValueTypes
import IcLir.Proofs.CheckRules
import IcLir.Proofs.AcceptedPrograms
import IcLir.Proofs.ClassOrder
import IcLir.Proofs.RegisterNeed
import IcLir.Proofs.Subtyping
import IcLir.Proofs.StrategyRegisters
import IcLir.Proofs.TypingFrame
import IcLir.Proofs.VoidArrays
import IcLir.Proofs.OperandForms
import IcLir.Proofs.LoopExits
import IcLir.Proofs.CallArity
import IcLir.Proofs.RegisterReads
import IcLir.Proofs.StringSection
import IcLir.Proofs.TypeNames
import IcLir.Proofs.ErrorPlaces
import IcLir.Proofs.ParenRemoval
import IcLir.Proofs.ParenAnalysis
import IcLir.Proofs.Parentheses
import IcLir.Proofs.StableSlots
import IcLir.Proofs.RegisterWeights
