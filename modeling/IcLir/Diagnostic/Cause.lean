import IcLir.Diagnostic.Basic

/-
  The rules a program can break. A rejection is the rule broken, the token quoted for it and
  the place of the token; `Cause.category` and `Cause.detail` give each rule its wording.
-/

namespace IcLir

inductive Cause where
  | undefinedType
  | duplicateClass
  | undefinedSuperclass
  | duplicateSymbol
  | redeclaredMember
  | missingEntry
  | repeatedEntry
  | unresolvedName
  | missingField (owner : String)
  | undefinedClass
  | unknownClass
  | notAMethod
  | unknownMethod
  | notAnObject
  | overloading
  | staticMix
  | renamedParameter
  | thisInStatic
  | fieldInStatic
  | notStatic
  | virtualInStatic
  | staticThroughObject
  | breakOutsideLoop
  | continueOutsideLoop
  | notAnArray
  | indexNotInt
  | voidElement
  | sizeNotInt
  | lengthOfNonArray
  | operandsDiffer
  | illegalPlus
  | nonIntArithmetic
  | nonBooleanLogic
  | voidComparison
  | unrelatedComparison
  | nonIntOrdering
  | nonIntNegation
  | nonBooleanNegation
  | notALocation
  | notACall
  | valueMismatch (expected : String)
  | ifCondition
  | whileCondition
  | argumentType
  | argumentCount
deriving DecidableEq, Repr, Inhabited

namespace Cause

def category : Cause → Category
  | .undefinedType | .duplicateClass | .undefinedSuperclass | .duplicateSymbol
  | .redeclaredMember | .missingEntry | .repeatedEntry | .unresolvedName | .missingField _
  | .undefinedClass | .unknownClass | .notAMethod | .unknownMethod | .notAnObject => .definition
  | .overloading | .staticMix | .renamedParameter => .signature
  | .thisInStatic | .fieldInStatic | .notStatic | .virtualInStatic | .staticThroughObject
  | .breakOutsideLoop | .continueOutsideLoop => .scope
  | .notAnArray | .indexNotInt | .voidElement | .sizeNotInt | .lengthOfNonArray
  | .operandsDiffer | .illegalPlus | .nonIntArithmetic | .nonBooleanLogic | .voidComparison
  | .unrelatedComparison | .nonIntOrdering | .nonIntNegation | .nonBooleanNegation
  | .notALocation | .notACall | .valueMismatch _ | .ifCondition | .whileCondition
  | .argumentType => .typeMismatch
  | .argumentCount => .arity

def detail : Cause → String
  | .undefinedType => "Type is undefined"
  | .duplicateClass => "Multiple definitions for class"
  | .undefinedSuperclass => "Class inherits from undefined class"
  | .duplicateSymbol => "Multiple definitions for symbol in scope"
  | .redeclaredMember => "Multiple definitions of symbol in class hierarchy"
  | .missingEntry => "Class hierarchy doesn't have main method"
  | .repeatedEntry => "More than one main method"
  | .unresolvedName => "Symbol cannot be resolved"
  | .missingField owner => s!"Location of type {owner} does not have a field"
  | .undefinedClass => "Class is undefined"
  | .unknownClass => "Class does not exist"
  | .notAMethod => "Symbol is not a method"
  | .unknownMethod => "Method not found"
  | .notAnObject => "Location is not of user defined type"
  | .overloading => "Overloading is not supported"
  | .staticMix => "Overriding mix of static and dynamic methods is not supported"
  | .renamedParameter => "Overriding method must keep the parameter names"
  | .thisInStatic => "Cannot use 'this' in a static method"
  | .fieldInStatic => "Cannot reference field from static method"
  | .notStatic => "Method is not static"
  | .virtualInStatic => "Calling virtual method from static scope"
  | .staticThroughObject => "External call to static method"
  | .breakOutsideLoop => "Break statement outside of a loop"
  | .continueOutsideLoop => "Continue statement outside of a loop"
  | .notAnArray => "Using [n] syntax on non-array type"
  | .indexNotInt => "The index of array must be of type int"
  | .voidElement => "Array elements cannot be of type void"
  | .sizeNotInt => "The size of array is not an integer"
  | .lengthOfNonArray => "Length requested not on array type"
  | .operandsDiffer => "Different operand types"
  | .illegalPlus => "Plus operation on illegal types"
  | .nonIntArithmetic => "Math operation on non-int type"
  | .nonBooleanLogic => "Logical operation on non boolean values"
  | .voidComparison => "Cannot compare void values"
  | .unrelatedComparison => "Comparing types that are not subtypes of one another"
  | .nonIntOrdering => "Comparing non-int values"
  | .nonIntNegation => "Math unary operation on a non-int type"
  | .nonBooleanNegation => "Logical unary operation on a non boolean type"
  | .notALocation => "Assignment target is not a variable, field or array element"
  | .notACall => "Only method calls can be used as statements"
  | .valueMismatch expected => s!"Types mismatch, not of type {expected}"
  | .ifCondition => "Condition in if statement is not of type boolean"
  | .whileCondition => "Condition in while statement is not of type boolean"
  | .argumentType => "Wrong argument type passed to method"
  | .argumentCount => "Wrong number of arguments passed to method"

end Cause

structure Rejection where
  cause : Cause
  token : String
  span : Span
deriving DecidableEq, Repr, Inhabited

def Rejection.diagnostic (r : Rejection) : Diagnostic :=
  .rejection r.cause.category r.cause.detail r.token r.span

/-- What the type table and the scope tree refuse. They know no places; whoever asked adds
    the span. -/
inductive DeclarationError where
  | undefinedType (name : String)
  | duplicateClass (name : String)
  | undefinedSuperclass (name superclass : String)
  | duplicateSymbol (name : String)
deriving DecidableEq, Repr, Inhabited

namespace DeclarationError

def message : DeclarationError → String
  | .undefinedType name => s!"type '{name}' is undefined"
  | .duplicateClass name => s!"class '{name}' is defined more than once"
  | .undefinedSuperclass name superclass => s!"class '{name}' extends undefined class '{superclass}'"
  | .duplicateSymbol name => s!"symbol '{name}' is already defined in this scope"

def cause : DeclarationError → Cause
  | .undefinedType _ => .undefinedType
  | .duplicateClass _ => .duplicateClass
  | .undefinedSuperclass _ _ => .undefinedSuperclass
  | .duplicateSymbol _ => .duplicateSymbol

def token : DeclarationError → String
  | .undefinedType name => name
  | .duplicateClass name => name
  | .undefinedSuperclass _ superclass => superclass
  | .duplicateSymbol name => name

def rejectAt (e : DeclarationError) (span : Span) : Rejection := ⟨e.cause, e.token, span⟩

end DeclarationError

end IcLir
