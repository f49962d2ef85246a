import IcLir.Proofs.Accepted
import IcLir.Proofs.Lowered
import IcLir.Proofs.MemberOwners

/-
  Lowering the body of a method of an accepted program always ends: whatever a body asks for (a
  type, a scope, an offset, a slot, the labels of a loop) is there, and every operator has its
  instruction and finds its operands where it needs them (`operation_arith`).
-/

namespace IcLir

open Pass Definition Typing TypeTable

/-- The method is lowered in the class and with the scopes that it was checked with. -/
structure LowerEnv.Lowers (env : LowerEnv) (p : Program) (checked : MethodEnv) : Prop where
  accepts : env.context.Accepts p
  checks : ChecksIn checked p env.context.definition
  type : checked.type = env.type

namespace Context.Accepts

variable {c : Context} {p : Program} {i : Nat} {k : ClassDecl} {scope parent : ScopeId}

theorem exists_layout (h : c.Accepts p) (hi : p.classes[i]? = some k)
    (hc : ClassOf c.definition k (classId i) scope parent) :
    ∃ l, c.layouts.get? (classId i) = some l ∧ LayoutOf c.definition k scope l := by
  have hlt : i < p.classes.length := (List.getElem?_eq_some_iff.mp hi).1
  obtain ⟨l, hl, hof, _⟩ := h.laidOut i k scope parent hlt hi hc.toClassDefined
  exact ⟨l, hl, hof⟩

end Context.Accepts

namespace LowerEnv

variable {env : LowerEnv} {p : Program} {checked : MethodEnv} {s : Supply}

variable {i : Nat} {symbol : Symbol} {kind : MethodKind} {scope parent : ScopeId} {k : ClassDecl}
    {name : String} {callee : Callee}

/-! ## What a body asks for -/

theorem meets_typeOf {e : Expr} {type : TypeId}
    (h : HasType env.context.typing checked e type) {post : TypeId → Supply → Prop}
    (hpost : post type s) : Meets CompileError.Never (env.typeOf e) s post :=
  meets_promised h.recorded hpost

/-- A field that is found has an offset in the layout of the class. -/
theorem meets_fieldOffset (h : env.context.Accepts p) (hi : p.classes[i]? = some k)
    (hc : ClassOf env.context.definition k (classId i) scope parent)
    (hs : env.context.scopes.lookupMember scope name = some symbol) (hk : symbol.kind = .field)
    {post : Nat → Supply → Prop} (hpost : ∀ n, post n s) :
    Meets CompileError.Never (env.fieldOffset (classId i) name) s post := by
  obtain ⟨l, hl, hof⟩ := h.exists_layout hi hc
  obtain ⟨n, hn⟩ := hof.lays.field name symbol hs hk
  unfold fieldOffset
  rw [meets_bind]
  refine meets_promised hl ?_
  exact meets_promised hn (hpost n)

/-- What is looked up for a call. -/
structure Resolves (env : LowerEnv) (p : Program) (i : Nat) (symbol : Symbol) (kind : MethodKind)
    (callee : Callee) : Prop where
  kind_eq : callee.kind = kind
  declared : ∃ j k, DeclaredBy env.context.definition p.classes symbol j k callee.method
  entry : ∃ l, env.context.layouts.get? (classId i) = some l ∧
    l.method? callee.method.name.name = some callee.entry
  slot : callee.entry.slot.isSome = !kind.isStatic

theorem meets_callee (h : env.context.Accepts p) (hi : p.classes[i]? = some k)
    (hc : ClassOf env.context.definition k (classId i) scope parent)
    (hs : env.context.scopes.lookupMember scope name = some symbol)
    (hk : symbol.kind = .method kind) {post : Callee → Supply → Prop}
    (hpost : ∀ callee, Resolves env p i symbol kind callee → callee.method.name.name = name →
      post callee s) : Meets CompileError.Never (env.callee (classId i) name) s post := by
  obtain ⟨j, owner, m, hname, hdecl, _⟩ := exists_declaration h.defined hi hc hs hk
  obtain ⟨l, hl, hof⟩ := h.exists_layout hi hc
  obtain ⟨e, he, _, _, _, hslot⟩ := hof.lays.method name symbol kind hs hk
  have hscope : env.context.scopes.classScopes.get? (classId i) = some scope := hc.get?
  have hkind : symbol.kind.methodKind? = some kind := by rw [hk]; rfl
  have hmethod : ((env.context.scopes.classOf? symbol.scope).bind
      env.context.declarations.get?).bind (·.method? name) = some m :=
    hname ▸ hdecl.declaration
  unfold callee
  simp only [meets_bind]
  unfold classScope
  rw [hscope]
  refine meets_promised hs ?_
  refine meets_promised hkind ?_
  refine meets_promised hmethod ?_
  refine meets_promised hl ?_
  refine meets_promised he ?_
  exact hpost _ ⟨rfl, ⟨j, owner, hdecl⟩, ⟨l, hl, hname ▸ he⟩, hslot⟩ hname

/-- Arguments are bound to the parameters by name, at the depth of all methods. -/
theorem meets_bindings (h : Resolves env p i symbol kind callee) (base : Nat)
    {post : List (String × Register) → Supply → Prop} (hpost : ∀ bindings, bindings.map Prod.fst =
      callee.method.paramNames.map (Lowering.slotName · 2) → post bindings s) :
    Meets CompileError.Never (env.bindings callee.method base) s post := by
  obtain ⟨j, k, hdecl⟩ := h.declared
  obtain ⟨owner, parent, scope, hclass, hmethod⟩ := hdecl.methodOf
  have hdepth : env.context.scopes.depth scope = 2 := hmethod.depth.trans (by rw [hclass.depth])
  unfold bindings methodScope
  rw [meets_bind]
  refine meets_promised hmethod.get? (hpost _ ?_)
  have hnames : ∀ (params : List VarDecl) (n : Nat),
      (params.zipIdx n).map (fun q => Lowering.slotName q.1.name.name 2) =
        (params.map (·.name.name)).map (Lowering.slotName · 2) := by
    intro params
    induction params with
    | nil => simp
    | cons q params ih => simp [List.zipIdx_cons, ih]
  rw [List.map_map, hdepth]
  exact hnames callee.method.params 0

theorem meets_staticCallLine (h : Resolves env p i symbol kind callee) (name : String) (d : Nat)
    {post : Line → Supply → Prop} (hpost : ∀ line, post line s) :
    Meets CompileError.Never (env.staticCallLine callee name d) s post := by
  unfold staticCallLine
  dsimp only
  split
  · exact hpost _
  all_goals
    rw [meets_bind]
    exact meets_bindings h d fun _ _ => hpost _

theorem meets_virtualCallLine (h : Resolves env p i symbol kind callee)
    (hkind : kind.isStatic = false) (d : Nat) {post : Line → Supply → Prop}
    (hpost : ∀ slot bindings, callee.entry.slot = some slot →
      bindings.map Prod.fst = callee.method.paramNames.map (Lowering.slotName · 2) →
      post (.instr (.virtualCall (.general d) slot bindings (callee.result d))) s) :
    Meets CompileError.Never (env.virtualCallLine callee d) s post := by
  have hslot := h.slot
  rw [hkind] at hslot
  obtain ⟨slot, hslot⟩ := Option.isSome_iff_exists.mp hslot
  unfold virtualCallLine
  rw [meets_bind]
  refine meets_promised hslot ?_
  rw [meets_bind]
  exact meets_bindings h (d + 1) fun bindings hnames => hpost slot bindings hslot hnames

/-- The class that a type of the check stands for. -/
theorem Lowers.exists_classOf (h : env.Lowers p checked) {type : TypeId}
    (hc : env.context.typing.types.isClass type = true)
    (hscope : checked.scopes.classScopes.get? type = some scope) :
    ∃ i k parent, p.classes[i]? = some k ∧ type = classId i ∧
      ClassOf env.context.definition k (classId i) scope parent := by
  obtain ⟨i, k, hi, rfl⟩ := h.accepts.defined.table.isClass type hc
  obtain ⟨scope', parent, hclass⟩ := h.accepts.defined.classOf i k hi
  rw [h.checks.scopes] at hscope
  obtain rfl : scope' = scope := Option.some.inj (hclass.get?.symm.trans hscope)
  exact ⟨i, k, parent, hi, rfl, hclass⟩

/-- Lowering calls a method that the check has found. -/
theorem Lowers.meets_calleeOf (h : env.Lowers p checked) (hi : p.classes[i]? = some k)
    (hc : ClassOf env.context.definition k (classId i) scope parent) {signature : Signature}
    (hm : env.context.typing.HasMethod checked.scopes scope name kind signature)
    {post : Callee → Supply → Prop}
    (hpost : ∀ symbol callee, Resolves env p i symbol kind callee → post callee s) :
    Meets CompileError.Never (env.callee (classId i) name) s post := by
  obtain ⟨symbol, hs, hk, _⟩ := hm
  rw [h.checks.scopes] at hs
  exact meets_callee h.accepts hi hc hs hk fun callee hr _ => hpost symbol callee hr

end LowerEnv

namespace Lowering

variable {env : LowerEnv} {p : Program} {checked : MethodEnv}

/-! ## Expressions -/

theorem meets_freshLabels {s : Supply} {post : LabelSet → Supply → Prop}
    (h : ∀ labels s', post labels s') : Meets CompileError.Never freshLabels s post := h _ _

theorem meets_literalOperand (value : Literal) {s : Supply} {post : Operand → Supply → Prop}
    (h : ∀ o s', post o s') : Meets CompileError.Never (literalOperand value) s post := by
  unfold literalOperand
  split
  all_goals exact h _ _

theorem meets_lowerName (h : env.Lowers p checked) {node : Node} {name : Ident} {type : TypeId}
    (htype : HasType env.context.typing checked (.var node name) type) (d : Nat) (s : Supply) :
    Meets CompileError.Never (lowerName env node name.name d) s fun _ _ => True := by
  unfold lowerName
  rw [meets_bind]
  cases htype with
  | var _ _ href _ =>
    refine meets_promised href ?_
    exact trivial
  | ownField _ hs hk href _ =>
    refine meets_promised href ?_
    obtain ⟨i, k, parent, hi, hself, hclass⟩ := h.checks.classOf
    rw [h.type] at hself
    rw [h.checks.scopes] at hs
    dsimp only
    rw [meets_bind, hself]
    exact LowerEnv.meets_fieldOffset h.accepts hi hclass hs hk fun _ => trivial

theorem meets_lowerNewObject (h : env.Lowers p checked) {name : String} {type : TypeId}
    (hc : env.context.typing.types.class? name = some type) (d : Nat) (s : Supply) :
    Meets CompileError.Never (lowerNewObject env name d) s fun _ _ => True := by
  obtain ⟨i, k, hi, rfl, _⟩ := h.accepts.defined.table.of_class? hc
  obtain ⟨scope, parent, hclass⟩ := h.accepts.defined.classOf i k hi
  obtain ⟨l, hl, _⟩ := h.accepts.exists_layout hi hclass
  unfold lowerNewObject LowerEnv.classType LowerEnv.layout
  simp only [meets_bind]
  refine meets_promised hc ?_
  refine meets_promised hl ?_
  exact trivial

theorem meets_isConcat {left : Expr} {type : TypeId}
    (hleft : HasType env.context.typing checked left type) (op : BinaryOp) {s : Supply}
    {post : Bool → Supply → Prop} (h : ∀ b, post b s) :
    Meets CompileError.Never (env.isConcat op left) s post := by
  unfold LowerEnv.isConcat
  split
  · rw [meets_bind]
    exact LowerEnv.meets_typeOf hleft (h _)
  · exact h _

/-- Two operands, in either order. -/
theorem meets_inOrder {left right : Nat → Lower (Code × Operand)}
    (hleft : ∀ d s, Meets CompileError.Never (left d) s fun _ _ => True)
    (hright : ∀ d s, Meets CompileError.Never (right d) s fun _ _ => True)
    (rightFirst : Bool) (d : Nat) (s : Supply) :
    Meets CompileError.Never (inOrder rightFirst left right d) s fun _ _ => True := by
  unfold inOrder
  split
  · refine (hright d s).bind fun _ s₁ _ => ?_
    exact (hleft (d + 1) s₁).bind fun _ _ _ => trivial
  · refine (hleft d s).bind fun _ s₁ _ => ?_
    exact (hright (d + 1) s₁).bind fun _ _ _ => trivial

mutual

theorem meets_lowerExpr (h : env.Lowers p checked)
    (htype : HasType env.context.typing checked e type) (d : Nat) (s : Supply) :
    Meets CompileError.Never (lowerExpr env e d) s fun _ _ => True := by
  match htype with
  | .literal _ =>
    rw [lowerExpr, meets_bind]
    exact meets_literalOperand _ fun _ _ => trivial
  | .var hget hk href hr =>
    rw [lowerExpr]
    exact meets_lowerName h (.var hget hk href hr) d s
  | .ownField hstatic hm hk href hr =>
    rw [lowerExpr]
    exact meets_lowerName h (.ownField hstatic hm hk href hr) d s
  | .field hobject hc hscope hs hk _ =>
    obtain ⟨i, k, parent, hi, rfl, hclass⟩ := h.exists_classOf hc hscope
    rw [h.checks.scopes] at hs
    rw [lowerExpr]
    refine (meets_lowerExpr h hobject d s).bind fun _ s₁ _ => ?_
    dsimp only
    rw [meets_bind]
    refine LowerEnv.meets_typeOf hobject ?_
    rw [meets_bind]
    exact LowerEnv.meets_fieldOffset h.accepts hi hclass hs hk fun _ => trivial
  | .index harray _ hindex _ =>
    rw [lowerExpr]
    exact (meets_inOrder (meets_lowerExpr h harray) (meets_lowerExpr h hindex) _ d s).bind
      fun _ _ _ => trivial
  | .staticCall hc hscope hm _ hargs _ =>
    obtain ⟨i, k, parent, hi, rfl, hclass⟩ := h.exists_classOf (isClass_of_class? hc) hscope
    rw [lowerExpr, meets_bind]
    refine meets_promised hc ?_
    rw [meets_bind]
    refine h.meets_calleeOf hi hclass hm fun symbol callee hr => ?_
    refine (meets_lowerArgs h hargs d s).bind fun _ s₁ _ => ?_
    rw [meets_bind]
    exact LowerEnv.meets_staticCallLine hr _ d fun _ => trivial
  | .ownCall hm _ hargs _ =>
    obtain ⟨i, k, parent, hi, hself, hclass⟩ := h.checks.classOf
    rw [h.type] at hself
    rw [lowerExpr, meets_bind, hself]
    refine h.meets_calleeOf hi hclass hm fun symbol callee hr => ?_
    split
    · refine (meets_lowerArgs h hargs d s).bind fun _ s₁ _ => ?_
      rw [meets_bind]
      exact LowerEnv.meets_staticCallLine hr _ d fun _ => trivial
    · next hvirtual =>
      rw [hr.kind_eq, Bool.not_eq_true] at hvirtual
      refine (meets_lowerArgs h hargs (d + 1) s).bind fun _ s₁ _ => ?_
      rw [meets_bind]
      exact LowerEnv.meets_virtualCallLine hr hvirtual d fun _ _ _ _ => trivial
  | .methodCall hreceiver hc hscope hm hk hargs _ =>
    obtain ⟨i, k, parent, hi, rfl, hclass⟩ := h.exists_classOf hc hscope
    rw [lowerExpr, meets_bind]
    refine LowerEnv.meets_typeOf hreceiver ?_
    rw [meets_bind]
    refine h.meets_calleeOf hi hclass hm fun symbol callee hr => ?_
    refine (meets_lowerExpr h hreceiver d s).bind fun _ s₁ _ => ?_
    dsimp only
    refine (meets_lowerArgs h hargs (d + 1) s₁).bind fun _ s₂ _ => ?_
    rw [meets_bind]
    exact LowerEnv.meets_virtualCallLine hr hk d fun _ _ _ _ => trivial
  | .this _ _ => exact trivial
  | .newObject hc _ =>
    rw [lowerExpr]
    exact meets_lowerNewObject h hc d s
  | .newArray hsize _ _ =>
    rw [lowerExpr]
    exact (meets_lowerExpr h hsize d s).bind fun _ _ _ => trivial
  | .length harray _ _ =>
    rw [lowerExpr]
    exact (meets_lowerExpr h harray d s).bind fun _ _ _ => trivial
  | @HasType.binary _ _ _ op _ _ _ _ _ hleft hright _ _ =>
    cases op with
    | logic op =>
      rw [lowerExpr, meets_bind]
      refine meets_freshLabels fun _ s₁ => ?_
      refine (meets_lowerExpr h hleft d s₁).bind fun _ s₂ _ => ?_
      exact (meets_lowerExpr h hright d s₂).bind fun _ _ _ => trivial
    | compare op =>
      rw [lowerExpr_compare, meets_bind]
      refine meets_freshLabels fun _ s₁ => ?_
      exact (meets_inOrder (meets_lowerExpr h hleft) (meets_lowerExpr h hright) _ d s₁).bind
        fun _ _ _ => trivial
    | arith op =>
      rw [lowerExpr_arith, meets_bind]
      refine meets_isConcat hleft (.arith op) fun _ => ?_
      exact (meets_inOrder (meets_lowerExpr h hleft) (meets_lowerExpr h hright) _ d s).bind
        fun _ _ _ => trivial
  | .unary hoperand _ =>
    rw [lowerExpr]
    exact (meets_lowerExpr h hoperand d s).bind fun _ _ _ => trivial
  | .paren hinner _ =>
    rw [lowerExpr]
    exact meets_lowerExpr h hinner d s

theorem meets_lowerArgs (h : env.Lowers p checked) {types : List TypeId}
    (htypes : HasTypes env.context.typing checked es types) (d : Nat) (s : Supply) :
    Meets CompileError.Never (lowerArgs env es d) s fun _ _ => True := by
  match htypes with
  | .nil => exact trivial
  | .cons harg _ hargs =>
    rw [lowerArgs]
    refine (meets_lowerExpr h harg d s).bind fun _ s₁ _ => ?_
    dsimp only
    exact (meets_lowerArgs h hargs (d + 1) s₁).bind fun _ _ _ => trivial

end

/-! ## Statements -/

theorem meets_lowerCondition (h : env.Lowers p checked) {condition : Expr}
    (hc : HasType env.context.typing checked condition TypeId.boolean) (s : Supply) :
    Meets CompileError.Never (lowerCondition env condition) s fun _ _ => True := by
  unfold lowerCondition
  exact (meets_lowerExpr h hc 0 s).bind fun _ _ _ => trivial

theorem meets_branchScope (h : env.Lowers p checked) {scope inner : ScopeId} {body : Stmt}
    (hb : checked.scopes.BranchOf scope body inner) {s : Supply} {post : ScopeId → Supply → Prop}
    (hpost : post inner s) : Meets CompileError.Never (env.branchScope scope body) s post := by
  rw [h.checks.scopes] at hb
  unfold ScopeTree.BranchOf at hb
  unfold LowerEnv.branchScope
  split at hb
  · next hd =>
    rw [if_pos hd]
    exact meets_promised hb.get? hpost
  · next hd =>
    rw [if_neg hd]
    exact hb ▸ hpost

/-- The labels of a loop are at hand wherever `break` and `continue` were allowed. -/
def LoopsFit (inLoop : Bool) (loops : Loops) : Prop := inLoop = true → loops ≠ []

theorem LoopsFit.cons (labels : LabelSet) (loops : Loops) : LoopsFit true (labels :: loops) :=
  fun _ => List.cons_ne_nil labels loops

mutual

theorem meets_lowerStmt (h : env.Lowers p checked)
    (htyped : WellTyped env.context.typing checked inLoop scope stmt)
    (hloops : LoopsFit inLoop loops) (s : Supply) :
    Meets CompileError.Never (lowerStmt env loops scope stmt) s fun _ _ => True := by
  match htyped with
  | .assign _ htarget hvalue _ =>
    rw [lowerStmt]
    refine (meets_lowerExpr h hvalue 0 s).bind fun _ s₁ _ => ?_
    dsimp only
    exact (meets_lowerExpr h htarget 1 s₁).bind fun _ _ _ => trivial
  | .call _ hexpr =>
    rw [lowerStmt]
    exact (meets_lowerExpr h hexpr 0 s).bind fun _ _ _ => trivial
  | .retNothing _ => exact trivial
  | .retValue hvalue _ =>
    rw [lowerStmt, lowerReturn]
    refine (meets_lowerExpr h hvalue 0 s).bind fun r s₁ _ => ?_
    dsimp only
    split <;> exact trivial
  | .ifThen hc hb hbody =>
    rw [lowerStmt, meets_bind]
    refine meets_freshLabels fun _ s₁ => ?_
    refine (meets_lowerCondition h hc s₁).bind fun _ s₂ _ => ?_
    rw [meets_bind]
    refine meets_branchScope h hb ?_
    exact (meets_lowerStmt h hbody hloops s₂).bind fun _ _ _ => trivial
  | .ifElse hc hb hthen hb' helse =>
    rw [lowerStmt, meets_bind]
    refine meets_freshLabels fun _ s₁ => ?_
    refine (meets_lowerCondition h hc s₁).bind fun _ s₂ _ => ?_
    rw [meets_bind]
    refine meets_branchScope h hb ?_
    refine (meets_lowerStmt h hthen hloops s₂).bind fun _ s₃ _ => ?_
    rw [meets_bind]
    refine meets_branchScope h hb' ?_
    exact (meets_lowerStmt h helse hloops s₃).bind fun _ _ _ => trivial
  | .loop hc hb hbody =>
    rw [lowerStmt, meets_bind]
    refine meets_freshLabels fun labels s₁ => ?_
    refine (meets_lowerCondition h hc s₁).bind fun _ s₂ _ => ?_
    rw [meets_bind]
    refine meets_branchScope h hb ?_
    exact (meets_lowerStmt h hbody (.cons labels loops) s₂).bind fun _ _ _ => trivial
  | .breakLoop | .continueLoop =>
    obtain ⟨labels, rest, rfl⟩ := List.exists_cons_of_ne_nil (hloops rfl)
    rw [lowerStmt, meets_bind]
    exact meets_promised rfl trivial
  | .block hb hstmts =>
    rw [h.checks.scopes] at hb
    rw [lowerStmt, meets_bind]
    refine meets_promised hb.get? ?_
    exact meets_lowerStmts h hstmts hloops s
  | .declare _ => exact trivial
  | .declareValue _ _ hvalue _ =>
    rw [lowerStmt, lowerDeclaration]
    exact (meets_lowerExpr h hvalue 0 s).bind fun _ _ _ => trivial

theorem meets_lowerStmts (h : env.Lowers p checked)
    (htyped : WellTypedList env.context.typing checked inLoop scope stmts)
    (hloops : LoopsFit inLoop loops) (s : Supply) :
    Meets CompileError.Never (lowerStmts env loops scope stmts) s fun _ _ => True := by
  match htyped with
  | .nil => exact trivial
  | .cons hfirst hrest =>
    rw [lowerStmts]
    refine (meets_lowerStmt h hfirst hloops s).bind fun _ s₁ _ => ?_
    exact (meets_lowerStmts h hrest hloops s₁).bind fun _ _ _ => trivial

end

/-- An expression of a method body has a type, and lowering does not fail at it. -/
theorem exists_hasType_lowerExpr {c : Context} (h : c.Accepts p) {i : Nat} {k : ClassDecl}
    (hi : p.classes[i]? = some k) {m : MethodDecl} (hm : m ∈ k.methods) (hkind : m.kind ≠ .library)
    {e : Expr} (he : e ∈ Stmt.exprsOfList m.body) (strategy : Strategy) (d : Nat) (s : Supply) :
    ∃ owner returnType type,
      ChecksIn ⟨c.scopes, classId i, owner, m.isStatic, returnType⟩ p c.definition ∧
      HasType c.typing ⟨c.scopes, classId i, owner, m.isStatic, returnType⟩ e type ∧
      ∃ code o s', lowerExpr ⟨c, strategy, classId i⟩ e d s = .ok (code, o) s' := by
  obtain ⟨owner, parent, scope, returnType, hclass, _, hbody⟩ := h.typed i k hi m hm hkind
  obtain ⟨type, htype⟩ := hbody.exists_hasType he
  have hin : ChecksIn ⟨c.scopes, classId i, owner, m.isStatic, returnType⟩ p c.definition :=
    ⟨h.defined, rfl, i, k, parent, hi, rfl, hclass⟩
  have hlowers : LowerEnv.Lowers ⟨c, strategy, classId i⟩ p
      ⟨c.scopes, classId i, owner, m.isStatic, returnType⟩ := ⟨h, hin, rfl⟩
  obtain ⟨⟨code, o⟩, s', hlower, _⟩ := (meets_lowerExpr hlowers htype d s).exists_ok
  exact ⟨owner, returnType, type, hin, htype, code, o, s', hlower⟩

end Lowering

end IcLir
