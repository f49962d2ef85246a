import IcLir.Proofs.ClassOrder
import IcLir.Proofs.ParenAnalysis

/-
  Parentheses do not matter. The lowering of an expression looks at the weights and the types of
  its operands, and these are the same for an operand in parentheses. So a program and the one
  without its parentheses are lowered to the same code (`Lowering.tracks_lowerProgram`).
-/

namespace IcLir

namespace Lowering

open Pass Context Lexical

section

variable {r : Renumbering} {p : Program} {c c' : Context} {strategy : Strategy} {type : TypeId}

theorem tracks_self {α : Type} (x : Lower α) : Tracks Eq Eq x x := by
  rintro s _ rfl a s' h
  exact ⟨a, s', h, rfl, rfl⟩

theorem tracks_typeOf (h : c.Renumbered r p c') {e : Expr} (he : e ∈ bodyExprs p.methods) :
    Tracks Eq Eq (LowerEnv.typeOf ⟨c, strategy, type⟩ e)
      (LowerEnv.typeOf ⟨c', strategy, type⟩ (e.withoutParens r)) :=
  tracks_promised_eq (h.exprTypes e he)

theorem classType_eq (h : c.Renumbered r p c') :
    LowerEnv.classType ⟨c', strategy, type⟩ = LowerEnv.classType ⟨c, strategy, type⟩ := by
  funext name
  rw [LowerEnv.classType, LowerEnv.classType, h.types]

theorem classScope_eq (h : c.Renumbered r p c') :
    LowerEnv.classScope ⟨c', strategy, type⟩ = LowerEnv.classScope ⟨c, strategy, type⟩ := by
  funext id
  rw [LowerEnv.classScope, LowerEnv.classScope, h.scopes.classScopes, h.types]

theorem layout_eq (h : c.Renumbered r p c') :
    LowerEnv.layout ⟨c', strategy, type⟩ = LowerEnv.layout ⟨c, strategy, type⟩ := by
  funext id
  rw [LowerEnv.layout, LowerEnv.layout, h.layouts]

theorem fieldOffset_eq (h : c.Renumbered r p c') :
    LowerEnv.fieldOffset ⟨c', strategy, type⟩ = LowerEnv.fieldOffset ⟨c, strategy, type⟩ := by
  funext id name
  rw [LowerEnv.fieldOffset, LowerEnv.fieldOffset, layout_eq h]

theorem tracks_methodScope (h : c.Renumbered r p c') {m : MethodDecl} (hm : m ∈ p.methods) :
    Tracks Eq Eq (LowerEnv.methodScope ⟨c, strategy, type⟩ m)
      (LowerEnv.methodScope ⟨c', strategy, type⟩ (m.withoutParens r)) :=
  tracks_promised_eq (h.scopes.methodScopes m.id ⟨m, hm, rfl⟩)

theorem tracks_blockScope (h : c.Renumbered r p c') {node : NodeId} (hnode : p.IsStmtId node) :
    Tracks Eq Eq (LowerEnv.blockScope ⟨c, strategy, type⟩ node)
      (LowerEnv.blockScope ⟨c', strategy, type⟩ (r.stmts node)) :=
  tracks_promised_eq (h.scopes.blockScopes node hnode)

theorem tracks_branchScope (h : c.Renumbered r p c') (scope : ScopeId) {body : Stmt}
    (hbody : body ∈ p.stmts) :
    Tracks Eq Eq (LowerEnv.branchScope ⟨c, strategy, type⟩ scope body)
      (LowerEnv.branchScope ⟨c', strategy, type⟩ scope (body.withoutParens r)) := by
  unfold LowerEnv.branchScope
  rw [Stmt.isDeclaration_withoutParens, Stmt.id_withoutParens]
  split
  · exact tracks_blockScope h ⟨body, hbody, rfl⟩
  · exact tracks_pure rfl

theorem tracks_isConcat (h : c.Renumbered r p c') (op : BinaryOp) {left : Expr}
    (hleft : left ∈ bodyExprs p.methods) :
    Tracks Eq Eq (LowerEnv.isConcat ⟨c, strategy, type⟩ op left)
      (LowerEnv.isConcat ⟨c', strategy, type⟩ op (left.withoutParens r)) := by
  unfold LowerEnv.isConcat
  split
  · exact (tracks_typeOf h hleft).bind_eq fun _ => tracks_pure rfl
  · exact tracks_pure rfl

theorem tracks_inOrder {left right left' right' : Nat → Lower (Code × Operand)}
    (hleft : ∀ d, Tracks Eq Eq (left d) (left' d))
    (hright : ∀ d, Tracks Eq Eq (right d) (right' d)) (rightFirst : Bool) (d : Nat) :
    Tracks Eq Eq (inOrder rightFirst left right d) (inOrder rightFirst left' right' d) := by
  unfold inOrder
  split
  · exact (hright d).bind_eq fun _ => (hleft (d + 1)).bind_eq fun _ => tracks_pure rfl
  · exact (hleft d).bind_eq fun _ => (hright (d + 1)).bind_eq fun _ => tracks_pure rfl

/-! Calls. -/

/-- The same method, of which one has its parentheses taken away. -/
structure SameCallee (r : Renumbering) (p : Program) (k k' : Callee) : Prop where
  method : k'.method = k.method.withoutParens r
  mem : k.method ∈ p.methods
  kind : k'.kind = k.kind
  returnsValue : k'.returnsValue = k.returnsValue
  entry : k'.entry = k.entry

theorem tracks_declared (h : c.Renumbered r p c') (owner : Option TypeId) (name : String)
    (defect : Defect) :
    Tracks (Eq : Supply → Supply → Prop) (fun m m' => m' = m.withoutParens r ∧ m ∈ p.methods)
      (promised ((owner.bind c.declarations.get?).bind (·.method? name)) defect)
      (promised ((owner.bind c'.declarations.get?).bind (·.method? name)) defect) := by
  refine tracks_promised fun m hfound => ?_
  obtain ⟨k, hfound, hm⟩ := Option.bind_eq_some_iff.mp hfound
  obtain ⟨id, rfl, hk⟩ := Option.bind_eq_some_iff.mp hfound
  refine ⟨m.withoutParens r, ?_, rfl, ?_⟩
  · rw [Option.bind_some, h.declarations, hk, Option.map_some, Option.bind_some,
      Definition.method?_withoutParens, hm, Option.map_some]
  · exact List.mem_flatMap.mpr ⟨k, h.declared id k hk, List.mem_of_find?_eq_some hm⟩

theorem tracks_callee (h : c.Renumbered r p c') (id : TypeId) (name : String) :
    Tracks Eq (SameCallee r p) (LowerEnv.callee ⟨c, strategy, type⟩ id name)
      (LowerEnv.callee ⟨c', strategy, type⟩ id name) := by
  unfold LowerEnv.callee
  dsimp only
  rw [classScope_eq h, layout_eq h, h.scopes.lookupMember_eq, h.types, h.scopes.classOf?_eq]
  refine (tracks_self _).bind_eq fun scope => (tracks_self _).bind_eq fun symbol =>
    (tracks_self _).bind_eq fun kind => ?_
  refine (tracks_declared h _ name _).bind fun m m' hm => ?_
  refine (tracks_self _).bind_eq fun layout => (tracks_self _).bind_eq fun entry => ?_
  exact tracks_pure ⟨hm.1, hm.2, rfl, rfl, rfl⟩

theorem tracks_bindings (h : c.Renumbered r p c') {m : MethodDecl} (hm : m ∈ p.methods)
    (base : Nat) :
    Tracks Eq Eq (LowerEnv.bindings ⟨c, strategy, type⟩ m base)
      (LowerEnv.bindings ⟨c', strategy, type⟩ (m.withoutParens r) base) := by
  refine (tracks_methodScope h hm).bind_eq fun scope => ?_
  dsimp only
  rw [h.scopes.depth_eq]
  exact tracks_self _

theorem tracks_staticCallLine (h : c.Renumbered r p c') {k k' : Callee} (hk : SameCallee r p k k')
    (name : String) (d : Nat) :
    Tracks Eq Eq (LowerEnv.staticCallLine ⟨c, strategy, type⟩ k name d)
      (LowerEnv.staticCallLine ⟨c', strategy, type⟩ k' name d) := by
  unfold LowerEnv.staticCallLine Callee.result
  rw [hk.kind, hk.method, hk.returnsValue, hk.entry]
  cases k.kind with
  | library => exact tracks_self _
  | static | virtual => exact (tracks_bindings h hk.mem d).bind_eq fun _ => tracks_pure rfl

theorem tracks_virtualCallLine (h : c.Renumbered r p c') {k k' : Callee}
    (hk : SameCallee r p k k') (d : Nat) :
    Tracks Eq Eq (LowerEnv.virtualCallLine ⟨c, strategy, type⟩ k d)
      (LowerEnv.virtualCallLine ⟨c', strategy, type⟩ k' d) := by
  unfold LowerEnv.virtualCallLine Callee.result
  rw [hk.method, hk.returnsValue, hk.entry]
  refine (tracks_self _).bind_eq fun slot => ?_
  exact (tracks_bindings h hk.mem (d + 1)).bind_eq fun _ => tracks_pure rfl

theorem tracks_lowerName (h : c.Renumbered r p c') {node : Node} (hnode : p.IsKeptId node.id)
    (name : String) (d : Nat) :
    Tracks Eq Eq (lowerName ⟨c, strategy, type⟩ node name d)
      (lowerName ⟨c', strategy, type⟩ (node.renumber r.exprs) name d) := by
  refine (tracks_promised_eq (h.references node.id hnode)).bind_eq fun resolution => ?_
  match resolution with
  | .variable scope =>
    dsimp only
    rw [h.scopes.depth_eq]
    exact tracks_self _
  | .field scope =>
    dsimp only
    rw [fieldOffset_eq h]
    exact tracks_self _

theorem rightFirst_withoutParens (strategy : Strategy) (left right : Expr) :
    strategy.rightFirst (left.withoutParens r) (right.withoutParens r) =
      strategy.rightFirst left right := by
  rw [Strategy.rightFirst, Strategy.rightFirst, Expr.weight_withoutParens,
    Expr.weight_withoutParens]

/-! Expressions. -/

mutual

theorem tracks_lowerExpr (h : c.Renumbered r p c') (e : Expr)
    (he : e.nodes ⊆ bodyExprs p.methods) (d : Nat) :
    Tracks Eq Eq (lowerExpr ⟨c, strategy, type⟩ e d)
      (lowerExpr ⟨c', strategy, type⟩ (e.withoutParens r) d) := by
  match e with
  | .literal .. => exact tracks_self _
  | .var _ name =>
    exact tracks_lowerName h (isKeptId_of_mem (he List.mem_cons_self) rfl) name.name d
  | .field _ object name =>
    have hobject := List.subset_of_cons_subset he
    refine (tracks_lowerExpr h object hobject d).bind_eq fun code => ?_
    refine (tracks_typeOf h (hobject object.mem_nodes)).bind_eq fun owner => ?_
    rw [fieldOffset_eq h]
    exact tracks_self _
  | .index _ array i =>
    obtain ⟨harray, hi⟩ := List.append_subset.mp (List.subset_of_cons_subset he)
    rw [Expr.withoutParens, lowerExpr, lowerExpr, rightFirst_withoutParens]
    exact (tracks_inOrder (tracks_lowerExpr h array harray) (tracks_lowerExpr h i hi) _
      d).bind_eq fun _ => tracks_pure rfl
  | .staticCall _ className method args =>
    have hargs := List.subset_of_cons_subset he
    rw [Expr.withoutParens, lowerExpr, lowerExpr, classType_eq h]
    refine (tracks_self _).bind_eq fun owner => (tracks_callee h owner method.name).bind
      fun k k' hk => (tracks_lowerArgs h args hargs d).bind_eq fun code => ?_
    exact (tracks_staticCallLine h hk method.name d).bind_eq fun _ => tracks_pure rfl
  | .ownCall _ method args =>
    have hargs := List.subset_of_cons_subset he
    refine (tracks_callee h type method.name).bind fun k k' hk => ?_
    rw [hk.kind]
    split
    · refine (tracks_lowerArgs h args hargs d).bind_eq fun code => ?_
      exact (tracks_staticCallLine h hk method.name d).bind_eq fun _ => tracks_pure rfl
    · refine (tracks_lowerArgs h args hargs (d + 1)).bind_eq fun code => ?_
      exact (tracks_virtualCallLine h hk d).bind_eq fun _ => tracks_pure rfl
  | .methodCall _ receiver method args =>
    obtain ⟨hreceiver, hargs⟩ := List.append_subset.mp (List.subset_of_cons_subset he)
    refine (tracks_typeOf h (hreceiver receiver.mem_nodes)).bind_eq fun owner =>
      (tracks_callee h owner method.name).bind fun k k' hk => ?_
    refine (tracks_lowerExpr h receiver hreceiver d).bind_eq fun object =>
      (tracks_lowerArgs h args hargs (d + 1)).bind_eq fun code => ?_
    exact (tracks_virtualCallLine h hk d).bind_eq fun _ => tracks_pure rfl
  | .this _ => exact tracks_self _
  | .newObject _ className =>
    rw [Expr.withoutParens, lowerExpr, lowerExpr, lowerNewObject, lowerNewObject, classType_eq h,
      layout_eq h]
    exact tracks_self _
  | .newArray _ _ operand | .length _ operand | .unary _ _ operand =>
    have hoperand := List.subset_of_cons_subset he
    exact (tracks_lowerExpr h operand hoperand d).bind_eq fun _ => tracks_pure rfl
  | .binary _ (.logic op) left right =>
    obtain ⟨hleft, hright⟩ := List.append_subset.mp (List.subset_of_cons_subset he)
    refine (tracks_self _).bind_eq fun labels => ?_
    exact (tracks_lowerExpr h left hleft d).bind_eq fun _ =>
      (tracks_lowerExpr h right hright d).bind_eq fun _ => tracks_pure rfl
  | .binary _ (.compare op) left right =>
    obtain ⟨hleft, hright⟩ := List.append_subset.mp (List.subset_of_cons_subset he)
    rw [Expr.withoutParens, lowerExpr_compare, lowerExpr_compare, rightFirst_withoutParens]
    refine (tracks_self _).bind_eq fun labels => ?_
    exact (tracks_inOrder (tracks_lowerExpr h left hleft) (tracks_lowerExpr h right hright) _
      d).bind_eq fun _ => tracks_pure rfl
  | .binary _ (.arith op) left right =>
    obtain ⟨hleft, hright⟩ := List.append_subset.mp (List.subset_of_cons_subset he)
    rw [Expr.withoutParens, lowerExpr_arith, lowerExpr_arith, rightFirst_withoutParens]
    refine (tracks_isConcat h (.arith op) (hleft left.mem_nodes)).bind_eq fun isConcat => ?_
    exact (tracks_inOrder (tracks_lowerExpr h left hleft) (tracks_lowerExpr h right hright) _
      d).bind_eq fun _ => tracks_pure rfl
  | .paren _ inner =>
    exact tracks_lowerExpr h inner (List.subset_of_cons_subset he) d

theorem tracks_lowerArgs (h : c.Renumbered r p c') (args : List Expr)
    (hargs : Expr.nodesOfList args ⊆ bodyExprs p.methods) (base : Nat) :
    Tracks Eq Eq (lowerArgs ⟨c, strategy, type⟩ args base)
      (lowerArgs ⟨c', strategy, type⟩ (Expr.withoutParensOfList r args) base) := by
  match args with
  | [] => exact tracks_self _
  | arg :: args =>
    obtain ⟨harg, hrest⟩ := List.append_subset.mp hargs
    exact (tracks_lowerExpr h arg harg base).bind_eq fun _ =>
      (tracks_lowerArgs h args hrest (base + 1)).bind_eq fun _ => tracks_pure rfl

end

/-! Statements. -/

theorem tracks_lowerCondition (h : c.Renumbered r p c') {condition : Expr}
    (hc : condition.nodes ⊆ bodyExprs p.methods) :
    Tracks Eq Eq (lowerCondition ⟨c, strategy, type⟩ condition)
      (lowerCondition ⟨c', strategy, type⟩ (condition.withoutParens r)) :=
  (tracks_lowerExpr h condition hc 0).bind_eq fun _ => tracks_pure rfl

theorem tracks_lowerDeclaration (h : c.Renumbered r p c') (scope : ScopeId) (name : String)
    {e : Expr} (he : e.nodes ⊆ bodyExprs p.methods) :
    Tracks Eq Eq (lowerDeclaration ⟨c, strategy, type⟩ scope name (some e))
      (lowerDeclaration ⟨c', strategy, type⟩ scope name (some (e.withoutParens r))) := by
  rw [lowerDeclaration, lowerDeclaration, h.scopes.depth_eq]
  exact (tracks_lowerExpr h e he 0).bind_eq fun _ => tracks_pure rfl

mutual

theorem tracks_lowerStmt (h : c.Renumbered r p c') (loops : Loops) (scope : ScopeId) (s : Stmt)
    (hnodes : s.nodes ⊆ p.stmts) (hexprs : s.exprs ⊆ bodyExprs p.methods) :
    Tracks Eq Eq (lowerStmt ⟨c, strategy, type⟩ loops scope s)
      (lowerStmt ⟨c', strategy, type⟩ loops scope (s.withoutParens r)) := by
  match s with
  | .assign _ target value =>
    obtain ⟨htarget, hvalue⟩ := List.append_subset.mp hexprs
    exact (tracks_lowerExpr h value hvalue 0).bind_eq fun _ =>
      (tracks_lowerExpr h target htarget 1).bind_eq fun _ => tracks_pure rfl
  | .call _ e => exact (tracks_lowerExpr h e hexprs 0).bind_eq fun _ => tracks_pure rfl
  | .ret _ none => exact tracks_self _
  | .ret _ (some e) =>
    refine (tracks_lowerExpr h e hexprs 0).bind_eq fun code => ?_
    dsimp only
    split
    · exact tracks_pure rfl
    · exact tracks_pure rfl
  | .ifThen _ condition body =>
    have hbody := List.subset_of_cons_subset hnodes
    obtain ⟨hcondition, hexprs⟩ := List.append_subset.mp hexprs
    refine (tracks_self _).bind_eq fun labels => (tracks_lowerCondition h hcondition).bind_eq
      fun test => (tracks_branchScope h scope (hbody body.mem_nodes)).bind_eq fun inner => ?_
    exact (tracks_lowerStmt h loops inner body hbody hexprs).bind_eq fun _ => tracks_pure rfl
  | .ifElse _ condition thenBranch elseBranch =>
    obtain ⟨hthen, helse⟩ := List.append_subset.mp (List.subset_of_cons_subset hnodes)
    obtain ⟨hfirst, hsecond⟩ := List.append_subset.mp hexprs
    obtain ⟨hcondition, hfirst⟩ := List.append_subset.mp hfirst
    refine (tracks_self _).bind_eq fun labels => (tracks_lowerCondition h hcondition).bind_eq
      fun test => ?_
    refine (tracks_branchScope h scope (hthen thenBranch.mem_nodes)).bind_eq fun inner => ?_
    refine (tracks_lowerStmt h loops inner thenBranch hthen hfirst).bind_eq fun thenCode => ?_
    refine (tracks_branchScope h scope (helse elseBranch.mem_nodes)).bind_eq fun inner => ?_
    exact (tracks_lowerStmt h loops inner elseBranch helse hsecond).bind_eq fun _ =>
      tracks_pure rfl
  | .loop _ condition body =>
    have hbody := List.subset_of_cons_subset hnodes
    obtain ⟨hcondition, hexprs⟩ := List.append_subset.mp hexprs
    refine (tracks_self _).bind_eq fun labels => (tracks_lowerCondition h hcondition).bind_eq
      fun test => (tracks_branchScope h scope (hbody body.mem_nodes)).bind_eq fun inner => ?_
    exact (tracks_lowerStmt h (labels :: loops) inner body hbody hexprs).bind_eq fun _ =>
      tracks_pure rfl
  | .breakLoop _ | .continueLoop _ => exact tracks_self _
  | .block _ stmts =>
    refine (tracks_blockScope h ⟨_, hnodes List.mem_cons_self, rfl⟩).bind_eq fun inner => ?_
    exact tracks_lowerStmts h loops inner stmts (List.subset_of_cons_subset hnodes) hexprs
  | .declare _ _ _ none => exact tracks_self _
  | .declare _ _ name (some e) => exact tracks_lowerDeclaration h scope name.name hexprs

theorem tracks_lowerStmts (h : c.Renumbered r p c') (loops : Loops) (scope : ScopeId)
    (ss : List Stmt) (hnodes : Stmt.nodesOfList ss ⊆ p.stmts)
    (hexprs : Stmt.exprsOfList ss ⊆ bodyExprs p.methods) :
    Tracks Eq Eq (lowerStmts ⟨c, strategy, type⟩ loops scope ss)
      (lowerStmts ⟨c', strategy, type⟩ loops scope (Stmt.withoutParensOfList r ss)) := by
  match ss with
  | [] => exact tracks_self _
  | s :: ss =>
    obtain ⟨hs, hss⟩ := List.append_subset.mp hnodes
    obtain ⟨hfirst, hrest⟩ := List.append_subset.mp hexprs
    exact (tracks_lowerStmt h loops scope s hs hfirst).bind_eq fun code =>
      (tracks_lowerStmts h loops scope ss hss hrest).bind_eq fun _ => tracks_pure rfl

end

/-! Programs. -/

theorem needsReturn_withoutParens (m : MethodDecl) :
    needsReturn (m.withoutParens r) = needsReturn m := by
  have hlast : (m.withoutParens r).endsWithReturn = m.endsWithReturn := by
    unfold MethodDecl.endsWithReturn MethodDecl.withoutParens
    rw [Stmt.withoutParensOfList_eq_map, List.getLast?_map, Option.map_map]
    congr 2
    funext s
    exact s.isReturn_withoutParens r
  rw [needsReturn, needsReturn, hlast]
  rfl

theorem tracks_lowerMethod (h : c.Renumbered r p c') (k : ClassDecl) {m : MethodDecl}
    (hm : m ∈ p.methods) (hkind : m.kind ≠ .library) :
    Tracks Eq Eq (lowerMethod ⟨c, strategy, type⟩ k m)
      (lowerMethod ⟨c', strategy, type⟩ (k.withoutParens r) (m.withoutParens r)) := by
  unfold lowerMethod
  rw [needsReturn_withoutParens, h.isEntry m hm]
  refine (tracks_methodScope h hm).bind_eq fun scope => ?_
  refine (tracks_lowerStmts h [] scope m.body (fun x hx => List.mem_flatMap.mpr ⟨m, hm, hx⟩)
    fun x hx => ?_).bind_eq fun _ => tracks_pure rfl
  exact List.mem_flatMap.mpr ⟨m, List.mem_filter.mpr ⟨hm, by simpa using hkind⟩, hx⟩

theorem tracks_lowerClass (h : c.Renumbered r p c') {k : ClassDecl} (hk : k ∈ p.classes) :
    Tracks Eq Eq (lowerClass c strategy k) (lowerClass c' strategy (k.withoutParens r)) := by
  unfold lowerClass
  rw [h.types, ClassDecl.bodies_withoutParens]
  refine (tracks_self _).bind_eq fun type => tracks_mapM_map _ fun m hm => ?_
  obtain ⟨hm, hkind⟩ := List.mem_filter.mp hm
  have hm : m ∈ p.methods := List.mem_flatMap.mpr ⟨k, hk, hm⟩
  rw [h.isEntry m hm]
  exact (tracks_lowerMethod h k hm (by simpa using hkind)).bind_eq fun _ => tracks_pure rfl

theorem isLibrary_withoutParens (k : ClassDecl) : (k.withoutParens r).isLibrary = k.isLibrary := by
  unfold ClassDecl.isLibrary ClassDecl.withoutParens
  rw [List.isEmpty_map, List.all_map]
  rfl

theorem tracks_lowerProgram (h : c.Renumbered r p c') :
    Tracks Eq Eq (lowerProgram c strategy p) (lowerProgram c' strategy (p.withoutParens r)) := by
  have hclasses : (p.withoutParens r).classes.filter (fun k => !k.isLibrary) =
      (p.classes.filter fun k => !k.isLibrary).map (·.withoutParens r) := by
    unfold Program.withoutParens
    rw [List.filter_map]
    congr 2
    funext k
    exact congrArg not (isLibrary_withoutParens k)
  unfold lowerProgram
  rw [hclasses]
  refine (tracks_mapM_map _ fun k hk => tracks_lowerClass h (List.mem_filter.mp hk).1).bind_eq
    fun routines => (tracks_self _).bind_eq fun main => ?_
  refine (tracks_mapM_map _ fun k _ => ?_).bind_eq fun tables => tracks_self _
  unfold dispatchTable
  rw [h.types, h.layouts]
  exact tracks_self _

end

end Lowering

/-! ## Whole compilations -/

section

open Pass

variable {r : Renumbering} {p : Program} {options : Options}

theorem generate_withoutParens {c c' : Context} (h : c.Renumbered r p c') {strategy : Strategy}
    {a : Assembly} (ha : c.generate strategy p = .ok a) :
    c'.generate strategy (p.withoutParens r) = .ok a := by
  unfold Context.generate at ha ⊢
  cases hrun : Lowering.lowerProgram c strategy p .initial with
  | error e s => rw [hrun] at ha; cases ha
  | ok a' s =>
    rw [hrun] at ha
    obtain rfl := Except.ok.inj ha
    obtain ⟨_, _, hrun', rfl, -⟩ := Lowering.tracks_lowerProgram h _ _ rfl a' s hrun
    rw [hrun']

/-- The compilation of the program without parentheses ends with the same texts and numbers. -/
theorem compile_withoutParens (hp : p.DistinctNodes) (hq : (p.withoutParens r).DistinctNodes)
    {result : Compilation} (h : compile options p = .ok result) :
    compile options (p.withoutParens r) = .ok result := by
  unfold compile at h ⊢
  cases hc : analyzed options p with
  | error e => simp [hc, bind, Except.bind] at h
  | ok c =>
    obtain ⟨c', hc', hsame⟩ := exists_analyzed_withoutParens hp hq hc
    cases ha : c.generate options.strategy p with
    | error e => simp [hc, ha, bind, Except.bind] at h
    | ok a =>
      simp only [hc, ha, bind, Except.bind] at h
      simp only [hc', generate_withoutParens hsame ha, bind, Except.bind]
      rw [← h, Context.typeTable, Context.symbolTables, Context.typeTable, Context.symbolTables,
        hsame.types, hsame.scopes.render_eq, hsame.layouts]

/-- How operands are ordered has no part in what is accepted. -/
theorem exists_compile_iff (hp : p.DistinctNodes) :
    (∃ result, compile options p = .ok result) ↔
      p.WellFormed options.entryMethod ∧ p.WellTyped := by
  rw [← exists_analyzed_iff hp]
  cases hc : compile options p with
  | error e => rw [(compile_eq_error_iff hp).mp hc]; simp
  | ok result =>
    cases ha : analyzed options p with
    | error e => rw [(compile_eq_error_iff hp).mpr ha] at hc; cases hc
    | ok c => simp

end

/-- Parentheses are transparent. If a program is accepted, it is accepted without its parentheses,
    under both strategies, and all that the compilation gives is the same: the text, the
    tables and the statistics. It makes no difference which numbers the nodes have that are left. -/
theorem parentheses_are_transparent {p : Program} (hp : p.DistinctNodes) {options : Options}
    {accepted : Compilation} (h : compile options p = .ok accepted) (optimize : Bool) :
    ∃ result, compile { options with optimize := optimize } p = .ok result ∧
      compile { options with optimize := optimize } (p.withoutParens .same) = .ok result ∧
      ∀ r : Renumbering, (p.withoutParens r).DistinctNodes →
        compile { options with optimize := optimize } (p.withoutParens r) = .ok result := by
  have haccepted := (exists_compile_iff hp).mp ⟨accepted, h⟩
  obtain ⟨result, hresult⟩ : ∃ result, compile { options with optimize := optimize } p =
      .ok result := (exists_compile_iff hp).mpr haccepted
  exact ⟨result, hresult, compile_withoutParens hp hp.withoutParens hresult, fun r hq =>
    compile_withoutParens hp hq hresult⟩

namespace Wrapped

open Shapes

/-- `class Main { static void main(string[] args) {
      int[] a = new int[(3)];
      int x = (1) + ((a[(0)]) * (2));
      string s = (("a")) + "b";
      if ((x == a.length)) x = (x); } }` -/
def program : Program where
  classes := [{
    name := name "Main", superclass := none, fields := []
    methods := [{
      id := 0, kind := .static, returnType := type .void, name := name "main"
      params := [⟨⟨.string, 1, line 1⟩, name "args"⟩]
      body := [
        .declare (node 0) ⟨.int, 1, line 1⟩ (name "a") (some (.newArray (node 0) (type .int)
          (.paren (node 1) (.literal (node 2) (.int 3))))),
        .declare (node 1) (type .int) (name "x") (some (.binary (node 3) (.arith .add)
          (.paren (node 4) (.literal (node 5) (.int 1)))
          (.paren (node 6) (.binary (node 7) (.arith .mul)
            (.paren (node 8) (.index (node 9) (.var (node 10) (name "a"))
              (.paren (node 11) (.literal (node 12) (.int 0)))))
            (.paren (node 13) (.literal (node 14) (.int 2))))))),
        .declare (node 2) (type .string) (name "s") (some (.binary (node 15) (.arith .add)
          (.paren (node 16) (.paren (node 17) (.literal (node 18) (.string "a"))))
          (.literal (node 19) (.string "b")))),
        .ifThen (node 3)
          (.paren (node 20) (.binary (node 21) (.compare .eq) (.var (node 22) (name "x"))
            (.length (node 23) (.var (node 24) (name "a")))))
          (.assign (node 4) (.var (node 25) (name "x"))
            (.paren (node 26) (.var (node 27) (name "x"))))] }] }]

/-- The nodes that are left, numbered in another way. -/
def renumbering : Renumbering := ⟨(· + 1), (2 * ·), (100 - ·)⟩

theorem distinctNodes : program.DistinctNodes := ⟨by decide, by decide, by decide⟩

theorem distinctNodes_renumbered : (program.withoutParens renumbering).DistinctNodes :=
  ⟨by decide, by decide, by decide⟩

theorem analyzed_program : (analyzed {} program).toOption.isSome = true := by decide +kernel

end Wrapped

/-- Among the ten pairs of parentheses are some around a heavier right operand, and some around an
    operand whose type decides between addition and concatenation. -/
theorem parentheses_are_transparent_wrapped :
    (Wrapped.program.exprs.filter Expr.isParen).length = 10 ∧
      (Wrapped.program.withoutParens .same).exprs.filter Expr.isParen = [] ∧
      ∃ result, compile { optimize := true } Wrapped.program = .ok result ∧
        compile { optimize := true } (Wrapped.program.withoutParens .same) = .ok result ∧
        compile { optimize := true } (Wrapped.program.withoutParens Wrapped.renumbering) =
          .ok result := by
  have hanalyzed := Wrapped.analyzed_program
  cases hc : analyzed {} Wrapped.program with
  | error e => rw [hc] at hanalyzed; simp [Except.toOption] at hanalyzed
  | ok c =>
    obtain ⟨accepted, haccepted⟩ := (exists_compile_iff Wrapped.distinctNodes).mpr
      ((exists_analyzed_iff Wrapped.distinctNodes).mp ⟨c, hc⟩)
    obtain ⟨result, hresult, hsame, hall⟩ :=
      parentheses_are_transparent Wrapped.distinctNodes haccepted true
    exact ⟨by decide, rfl, result, hresult, hsame,
      hall Wrapped.renumbering Wrapped.distinctNodes_renumbered⟩

end IcLir
