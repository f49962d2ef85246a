import IcLir.Typing.Reference
import IcLir.Typing.Rule

/-
  The typing stage. Each expression gets its type recorded, and each bare name also what it
  stands for. A local comes into view at its declaration, before its own initial value. The
  first rule broken ends the stage.
-/

namespace IcLir

namespace Typing

open Pass (reject fail require promised)

mutual

def checkExpr (env : MethodEnv) (scope : ScopeId) : Expr → Check TypeId
  | .literal node value => recorded node.id (pure (literalType value))
  | .var node name => recorded node.id (checkName env scope node name.name)
  | .field node object name => recorded node.id do
    let owner ← checkExpr env scope object
    checkField env owner name.name node.span
  | .index node array i => recorded node.id do
    let type ← checkExpr env scope array
    let types := (← get).types
    match types.element? type with
    | none => reject .notAnArray (types.name type) node.span
    | some element =>
      let subscript ← checkExpr env scope i
      require (subscript = TypeId.int) .indexNotInt i.token i.span
      return element
  | .staticCall node className method args => recorded node.id do
    let type ← staticCallee env className method node.span
    let signature ← callSignature method type args.length node.span
    checkArgs env scope args signature.params
    return signature.result
  | .ownCall node method args => recorded node.id do
    let type ← ownCallee env method node.span
    let signature ← callSignature method type args.length node.span
    checkArgs env scope args signature.params
    return signature.result
  | .methodCall node receiver method args => recorded node.id do
    let object ← checkExpr env scope receiver
    let type ← methodCallee env receiver object method node.span
    let signature ← callSignature method type args.length node.span
    checkArgs env scope args signature.params
    return signature.result
  | .this node => recorded node.id do
    require (!env.isStatic) .thisInStatic "this" node.span
    return env.type
  | .newObject node className => recorded node.id do
    match (← get).types.class? className.name with
    | some type => return type
    | none => reject .undefinedClass className.name node.span
  | .newArray node element size => recorded node.id do
    let type ← resolveType element
    require (type ≠ TypeId.void) .voidElement element.text element.span
    let count ← checkExpr env scope size
    require (count = TypeId.int) .sizeNotInt size.token size.span
    arrayOf type
  | .length node array => recorded node.id do
    let type ← checkExpr env scope array
    require ((← get).types.isArray type) .lengthOfNonArray "length" node.span
    return TypeId.int
  | .binary node op left right => recorded node.id do
    let leftType ← checkExpr env scope left
    let rightType ← checkExpr env scope right
    checkBinary op leftType rightType node.span
  | .unary node op operand => recorded node.id do
    let type ← checkExpr env scope operand
    checkUnary op type node.span
  | .paren node inner => recorded node.id (checkExpr env scope inner)

/-- Checks arguments against the parameters in the same places. -/
def checkArgs (env : MethodEnv) (scope : ScopeId) : List Expr → List TypeId → Check Unit
  | arg :: args, param :: params => do
    let actual ← checkExpr env scope arg
    requireSubtype actual param .argumentType arg.token arg.span
    checkArgs env scope args params
  | _, _ => pure ()

end

/-- Brings the local `name` of `scope` into view and gives its type. -/
def enterLocal (env : MethodEnv) (scope : ScopeId) (name : String) : Check TypeId := do
  match (env.scopes.scope scope).get? name with
  | none => fail (.undefinedLocal name)
  | some s =>
    match s.kind with
    | .localVar ordinal =>
      modify fun t => { t with visible := max t.visible (ordinal + 1) }
      return s.type
    | _ => fail (.notALocal name)

def checkCondition (env : MethodEnv) (scope : ScopeId) (condition : Expr) (cause : Cause) :
    Check Unit := do
  let type ← checkExpr env scope condition
  requireSubtype type TypeId.boolean cause condition.token condition.span

mutual

def checkStmt (env : MethodEnv) (inLoop : Bool) (scope : ScopeId) : Stmt → Check Unit
  | .assign node target value => do
    require target.isLocation .notALocation target.token node.span
    let expected ← checkExpr env scope target
    let actual ← checkExpr env scope value
    requireValue actual expected value.token node.span
  | .call node expr => do
    require expr.isCall .notACall expr.token node.span
    let _ ← checkExpr env scope expr
  | .ret node value => do
    let actual ← match value with
      | some e => checkExpr env scope e
      | none => pure TypeId.void
    requireValue actual env.returnType "return" node.span
  | .ifThen _ condition body => do
    checkCondition env scope condition .ifCondition
    let inner ← branchScope env.scopes scope body
    checkStmt env inLoop inner body
  | .ifElse _ condition thenBranch elseBranch => do
    checkCondition env scope condition .ifCondition
    let inner ← branchScope env.scopes scope thenBranch
    checkStmt env inLoop inner thenBranch
    let inner ← branchScope env.scopes scope elseBranch
    checkStmt env inLoop inner elseBranch
  | .loop _ condition body => do
    checkCondition env scope condition .whileCondition
    let inner ← branchScope env.scopes scope body
    checkStmt env true inner body
  | .breakLoop node => require inLoop .breakOutsideLoop "break" node.span
  | .continueLoop node => require inLoop .continueOutsideLoop "continue" node.span
  | .block node stmts => do
    let inner ← blockScope env.scopes node.id
    checkStmts env inLoop inner stmts
  | .declare node _ name init => do
    let expected ← enterLocal env scope name.name
    match init with
    | none => pure ()
    | some e =>
      let actual ← checkExpr env scope e
      requireValue actual expected e.token node.span

def checkStmts (env : MethodEnv) (inLoop : Bool) (scope : ScopeId) : List Stmt → Check Unit
  | [] => pure ()
  | s :: ss => do
    checkStmt env inLoop scope s
    checkStmts env inLoop scope ss

end

def checkMethod (scopes : ScopeTree) (c : ClassDecl) (m : MethodDecl) : Check Unit := do
  let type ← promised ((← get).types.class? c.name.name) (.unregisteredClass c.name.name)
  let owner ← classScope scopes type
  let scope ← promised (scopes.methodScopes.get? m.id) (.noMethodScope m.name.name)
  let returnType ← resolveType m.returnType
  modify ({ · with visible := 0 })
  checkStmts ⟨scopes, type, owner, m.isStatic, returnType⟩ false scope m.body

def checkClass (scopes : ScopeTree) (c : ClassDecl) : Check Unit :=
  (c.methods.filter (·.kind ≠ .library)).forM (checkMethod scopes c)

def checkProgram (p : Program) : Check Unit := do
  let scopes := (← get).scopes
  p.classes.forM (checkClass scopes)

end Typing

namespace Context

/-- The context at the start of the typing stage. -/
def typing (c : Context) : Typing := ⟨c, 0⟩

def check (p : Program) : Pass Context Unit := fun c =>
  match Typing.checkProgram p c.typing with
  | .ok _ t => .ok () t.toContext
  | .error e t => .error e t.toContext

end Context

end IcLir
