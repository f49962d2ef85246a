import IcLir.Proofs.ClassScopes
import IcLir.Proofs.HasType

/-
  The typing rules of statements. `WellTyped t env inLoop scope s` also says in which scopes the
  parts of `s` stand. A program is well typed if all bodies of its methods are (`BodiesTyped`).
-/

namespace IcLir

namespace Stmt

def exprIds (s : Stmt) : List NodeId := s.exprs.map Expr.id

def exprIdsOfList (ss : List Stmt) : List NodeId := (exprsOfList ss).map Expr.id

section

variable (n : Node) (e e' : Expr) (s s' : Stmt) (ss : List Stmt) (x : Ident) (type : TypeExpr)

@[simp] theorem exprIds_assign : (assign n e e').exprIds = e.ids ++ e'.ids := List.map_append

@[simp] theorem exprIds_ifThen : (ifThen n e s).exprIds = e.ids ++ s.exprIds := List.map_append

@[simp] theorem exprIds_ifElse :
    (ifElse n e s s').exprIds = e.ids ++ (s.exprIds ++ s'.exprIds) := by
  simp [exprIds, exprs, Expr.ids]

@[simp] theorem exprIds_loop : (loop n e s).exprIds = e.ids ++ s.exprIds := List.map_append

@[simp] theorem exprIdsOfList_cons :
    exprIdsOfList (s :: ss) = s.exprIds ++ exprIdsOfList ss := List.map_append

end

end Stmt

namespace Typing

open Pass Definition TypeTable

mutual

inductive WellTyped (t : Typing) (env : MethodEnv) : Bool → ScopeId → Stmt → Prop where
  | assign {inLoop : Bool} {scope : ScopeId} {node : Node} {target value : Expr}
      {expected actual : TypeId} :
    target.isLocation = true → HasType t env target expected → HasType t env value actual →
    t.types.isSubtype actual expected = true →
    WellTyped t env inLoop scope (.assign node target value)
  | call {inLoop : Bool} {scope : ScopeId} {node : Node} {expr : Expr} {type : TypeId} :
    expr.isCall = true → HasType t env expr type → WellTyped t env inLoop scope (.call node expr)
  | retNothing {inLoop : Bool} {scope : ScopeId} {node : Node} :
    t.types.isSubtype TypeId.void env.returnType = true →
    WellTyped t env inLoop scope (.ret node none)
  | retValue {inLoop : Bool} {scope : ScopeId} {node : Node} {value : Expr} {actual : TypeId} :
    HasType t env value actual → t.types.isSubtype actual env.returnType = true →
    WellTyped t env inLoop scope (.ret node (some value))
  | ifThen {inLoop : Bool} {scope inner : ScopeId} {node : Node} {condition : Expr}
      {body : Stmt} :
    HasType t env condition TypeId.boolean → env.scopes.BranchOf scope body inner →
    WellTyped t env inLoop inner body → WellTyped t env inLoop scope (.ifThen node condition body)
  | ifElse {inLoop : Bool} {scope inner inner' : ScopeId} {node : Node} {condition : Expr}
      {thenBranch elseBranch : Stmt} :
    HasType t env condition TypeId.boolean →
    env.scopes.BranchOf scope thenBranch inner → WellTyped t env inLoop inner thenBranch →
    env.scopes.BranchOf scope elseBranch inner' → WellTyped t env inLoop inner' elseBranch →
    WellTyped t env inLoop scope (.ifElse node condition thenBranch elseBranch)
  | loop {inLoop : Bool} {scope inner : ScopeId} {node : Node} {condition : Expr} {body : Stmt} :
    HasType t env condition TypeId.boolean → env.scopes.BranchOf scope body inner →
    WellTyped t env true inner body → WellTyped t env inLoop scope (.loop node condition body)
  | breakLoop {scope : ScopeId} {node : Node} : WellTyped t env true scope (.breakLoop node)
  | continueLoop {scope : ScopeId} {node : Node} : WellTyped t env true scope (.continueLoop node)
  | block {inLoop : Bool} {scope inner : ScopeId} {node : Node} {stmts : List Stmt} :
    env.scopes.BlockOf scope node.id inner → WellTypedList t env inLoop inner stmts →
    WellTyped t env inLoop scope (.block node stmts)
  | declare {inLoop : Bool} {scope : ScopeId} {node : Node} {type : TypeExpr} {name : Ident} :
    env.scopes.DeclaresLocal scope name.name →
    WellTyped t env inLoop scope (.declare node type name none)
  | declareValue {inLoop : Bool} {scope : ScopeId} {node : Node} {type : TypeExpr} {name : Ident}
      {value : Expr} {actual : TypeId} {s : Symbol} {ordinal : Nat} :
    (env.scopes.scope scope).get? name.name = some s → s.kind = .localVar ordinal →
    HasType t env value actual → t.types.isSubtype actual s.type = true →
    WellTyped t env inLoop scope (.declare node type name (some value))

inductive WellTypedList (t : Typing) (env : MethodEnv) : Bool → ScopeId → List Stmt → Prop where
  | nil {inLoop : Bool} {scope : ScopeId} : WellTypedList t env inLoop scope []
  | cons {inLoop : Bool} {scope : ScopeId} {s : Stmt} {ss : List Stmt} :
    WellTyped t env inLoop scope s → WellTypedList t env inLoop scope ss →
    WellTypedList t env inLoop scope (s :: ss)

end

/-! ## Work on other nodes -/

section

variable {ids : List NodeId} {t t' : Typing} {env : MethodEnv}

mutual

theorem WellTyped.step (hs : Step ids t t') (h : WellTyped t env inLoop scope s)
    (hids : ∀ n ∈ s.exprIds, n ∉ ids) : WellTyped t' env inLoop scope s := by
  match h with
  | .assign hloc htarget hvalue hsub =>
    have htarget' := htarget.step hs fun n hn => hids n (by simp [hn])
    have hvalue' := hvalue.step hs fun n hn => hids n (by simp [hn])
    exact .assign hloc htarget' hvalue' ((hs.types.isSubtype_eq _ _).trans hsub)
  | .call hcall hexpr => exact .call hcall (hexpr.step hs hids)
  | .retNothing hsub => exact .retNothing ((hs.types.isSubtype_eq _ _).trans hsub)
  | .retValue hvalue hsub =>
    exact .retValue (hvalue.step hs hids) ((hs.types.isSubtype_eq _ _).trans hsub)
  | .ifThen hc hb hbody =>
    have hc' := hc.step hs fun n hn => hids n (by simp [hn])
    exact .ifThen hc' hb (hbody.step hs fun n hn => hids n (by simp [hn]))
  | .ifElse hc hb hthen hb' helse =>
    have hc' := hc.step hs fun n hn => hids n (by simp [hn])
    have hthen' := hthen.step hs fun n hn => hids n (by simp [hn])
    have helse' := helse.step hs fun n hn => hids n (by simp [hn])
    exact .ifElse hc' hb hthen' hb' helse'
  | .loop hc hb hbody =>
    have hc' := hc.step hs fun n hn => hids n (by simp [hn])
    exact .loop hc' hb (hbody.step hs fun n hn => hids n (by simp [hn]))
  | .breakLoop => exact .breakLoop
  | .continueLoop => exact .continueLoop
  | .block hb hstmts => exact .block hb (hstmts.step hs hids)
  | .declare hlocal => exact .declare hlocal
  | .declareValue hget hk hvalue hsub =>
    exact .declareValue hget hk (hvalue.step hs hids) ((hs.types.isSubtype_eq _ _).trans hsub)

theorem WellTypedList.step (hs : Step ids t t') (h : WellTypedList t env inLoop scope ss)
    (hids : ∀ n ∈ Stmt.exprIdsOfList ss, n ∉ ids) : WellTypedList t' env inLoop scope ss := by
  match h with
  | .nil => exact .nil
  | .cons hfirst hrest =>
    have hfirst' := hfirst.step hs fun n hn => hids n (by simp [hn])
    exact .cons hfirst' (hrest.step hs fun n hn => hids n (by simp [hn]))

end

end

/-! ## Expressions of a typed body -/

section

variable {t : Typing} {env : MethodEnv} {e : Expr}

mutual

theorem WellTyped.exists_hasType (h : WellTyped t env inLoop scope s) (he : e ∈ s.exprs) :
    ∃ type, HasType t env e type := by
  match h with
  | .assign _ htarget hvalue _ =>
    rcases List.mem_append.mp he with he | he
    · exact htarget.exists_of_mem_nodes he
    · exact hvalue.exists_of_mem_nodes he
  | .call _ hexpr => exact hexpr.exists_of_mem_nodes he
  | .retValue hvalue _ => exact hvalue.exists_of_mem_nodes he
  | .ifThen hc _ hbody | .loop hc _ hbody =>
    rcases List.mem_append.mp he with he | he
    · exact hc.exists_of_mem_nodes he
    · exact hbody.exists_hasType he
  | .ifElse hc _ hthen _ helse =>
    rcases List.mem_append.mp he with he | he
    · rcases List.mem_append.mp he with he | he
      · exact hc.exists_of_mem_nodes he
      · exact hthen.exists_hasType he
    · exact helse.exists_hasType he
  | .block _ hstmts => exact hstmts.exists_hasType he
  | .declareValue _ _ hvalue _ => exact hvalue.exists_of_mem_nodes he
  | .retNothing _ | .breakLoop | .continueLoop | .declare _ => exact absurd he List.not_mem_nil

theorem WellTypedList.exists_hasType (h : WellTypedList t env inLoop scope ss)
    (he : e ∈ Stmt.exprsOfList ss) : ∃ type, HasType t env e type := by
  match h with
  | .nil => exact absurd he List.not_mem_nil
  | .cons hfirst hrest =>
    rcases List.mem_append.mp he with he | he
    · exact hfirst.exists_hasType he
    · exact hrest.exists_hasType he

end

end

/-! ## Methods -/

/-- The identities of the expressions in the bodies of some methods. -/
def bodyExprIds (ms : List MethodDecl) : List NodeId :=
  ms.flatMap fun m => Stmt.exprIdsOfList m.body

/-- `scope` is the scope of method `m`, which returns values of type `returnType`. -/
structure MethodReturns (t : Typing) (d : Definition) (owner : ScopeId) (m : MethodDecl)
    (scope : ScopeId) (returnType : TypeId) : Prop extends d.scopes.MethodOf owner m scope where
  returnType : t.types.denoted? m.returnType = some returnType

/-- The body of method `m` of class number `i` is well typed. -/
def MethodTyped (t : Typing) (d : Definition) (i : Nat) (c : ClassDecl) (m : MethodDecl) : Prop :=
  ∃ owner parent scope returnType, ClassOf d c (classId i) owner parent ∧
    MethodReturns t d owner m scope returnType ∧
    WellTypedList t ⟨d.scopes, classId i, owner, m.isStatic, returnType⟩ false scope m.body

theorem MethodTyped.step {ids : List NodeId} {t t' : Typing} {d : Definition} {i : Nat}
    {c : ClassDecl} {m : MethodDecl} (h : MethodTyped t d i c m) (hs : Step ids t t')
    (hids : ∀ n ∈ Stmt.exprIdsOfList m.body, n ∉ ids) : MethodTyped t' d i c m := by
  obtain ⟨owner, parent, scope, returnType, hclass, hmethod, hbody⟩ := h
  have hreturns : MethodReturns t' d owner m scope returnType :=
    ⟨hmethod.toMethodOf, hs.types.denoted?_of_some hmethod.returnType⟩
  exact ⟨owner, parent, scope, returnType, hclass, hreturns, hbody.step hs hids⟩

/-- Every body of the program is well typed. -/
def BodiesTyped (t : Typing) (d : Definition) (classes : List ClassDecl) : Prop :=
  ∀ i c, classes[i]? = some c → ∀ m ∈ c.methods, m.kind ≠ .library → MethodTyped t d i c m

end Typing

end IcLir
