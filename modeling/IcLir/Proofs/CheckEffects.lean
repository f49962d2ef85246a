import IcLir.Proofs.Outcome
import IcLir.Tree.Traversal
import IcLir.Typing.Check

/-
  What the typing stage changes. A check makes a few kinds of change to its tables (`Effect`), and
  which ones can be read off the expressions that it passes over (`Expr.effects`): it makes all of
  them if it ends, and no others, whether it ends or stops (`Makes`). What a check keeps and what
  it adds is then a matter of single changes: the rest of the context is left alone
  (`Follows.toContext_eq`), and its options are not looked at.
-/

namespace IcLir

namespace Typing

/-- A change that a check makes to its tables. -/
inductive Effect where
  /-- A written type is resolved. -/
  | resolve (type : TypeExpr)
  /-- An array type is entered, over a type other than `void`. -/
  | array
  | record (id : NodeId)
  | refer (id : NodeId) (name : String)
  /-- Other locals come into view. -/
  | view
deriving DecidableEq

end Typing

/-- The changes that are made for an expression itself. -/
def Expr.effects : Expr → List Typing.Effect
  | .var node name => [.record node.id, .refer node.id name.name]
  | .newArray node element _ => [.record node.id, .resolve element, .array]
  | e => [.record e.id]

namespace Expr

variable {e : Expr} {id : NodeId}

theorem record_mem_effects : .record id ∈ e.effects ↔ e.id = id := by
  cases e <;> simp [effects, Expr.id, Expr.node, eq_comm]

theorem refer_mem_effects {name : String} :
    .refer id name ∈ e.effects ↔ ∃ node x, e = .var node x ∧ id = node.id ∧ name = x.name := by
  cases e <;> simp [effects, and_assoc]

theorem view_notMem_effects (e : Expr) : .view ∉ e.effects := by cases e <;> simp [effects]

end Expr

namespace Typing

open Pass

/-- From `t` to `t'` one change is made. What a name may stand for depends on how many locals are
    in view. -/
def Effect.Changes (resolves : String → Nat → Resolution → Prop) :
    Effect → Typing → Typing → Prop
  | .resolve e, t, t' =>
    ∃ id types, t.types.resolve e = .ok (id, types) ∧ t' = { t with types := types }
  | .array, t, t' =>
    ∃ element, element ≠ TypeId.void ∧ t' = { t with types := (t.types.arrayOf element).2 }
  | .record id, t, t' => ∃ type, t' = { t with exprTypes := t.exprTypes.insert id type }
  | .refer id name, t, t' =>
    ∃ r, resolves name t.visible r ∧ t' = { t with references := t.references.insert id r }
  | .view, t, t' => ∃ n, t' = { t with visible := n }

inductive Follows (resolves : String → Nat → Resolution → Prop) :
    List Effect → Typing → Typing → Prop where
  | nil {t : Typing} : Follows resolves [] t t
  | cons {e : Effect} {es : List Effect} {t u t' : Typing} :
    e.Changes resolves t u → Follows resolves es u t' → Follows resolves (e :: es) t t'

/-- All changes made from `t` on are among the effects, and if the check has ended, all effects
    have come about, but for locals coming into view. -/
def Made (resolves : String → Nat → Resolution → Prop) {α : Type} (es : List Effect)
    (t : Typing) : EStateM.Result CompileError Typing α → Prop
  | .ok _ t' => ∃ l, (∀ e ∈ l, e ∈ es) ∧ (∀ e ∈ es, e ∈ l ∨ e = .view) ∧ Follows resolves l t t'
  | .error _ t' => ∃ l, (∀ e ∈ l, e ∈ es) ∧ Follows resolves l t t'

def withOptions (t : Typing) (o : Options) : Typing := { t with options := o }

/-- How a check ends that was started with other options. -/
def relabel (o : Options) {α : Type} :
    EStateM.Result CompileError Typing α → EStateM.Result CompileError Typing α
  | .ok a t => .ok a (t.withOptions o)
  | .error e t => .error e (t.withOptions o)

structure Makes (resolves : String → Nat → Resolution → Prop) {α : Type} (es : List Effect)
    (x : Check α) : Prop where
  made : ∀ t, Made resolves es t (x t)
  /-- The options are not looked at. -/
  blind : ∀ t o, x (t.withOptions o) = relabel o (x t)

variable {resolves resolves' : String → Nat → Resolution → Prop} {es es' : List Effect}
  {t t' : Typing} {α β : Type} {x : Check α} {f : α → Check β}

/-! ## Sequences of changes -/

theorem Follows.append {u : Typing} (h : Follows resolves es t u) (h' : Follows resolves es' u t') :
    Follows resolves (es ++ es') t t' := by
  induction h with
  | nil => exact h'
  | cons hchange _ ih => exact .cons hchange (ih h')

/-- What every change keeps is kept. -/
theorem Follows.rel {R : Typing → Typing → Prop} (hrefl : ∀ t, R t t)
    (htrans : ∀ t u v, R t u → R u v → R t v) (h : Follows resolves es t t')
    (hstep : ∀ e ∈ es, ∀ t u, e.Changes resolves t u → R t u) : R t t' := by
  induction h with
  | nil => exact hrefl _
  | cons hchange _ ih =>
    refine htrans _ _ _ (hstep _ List.mem_cons_self _ _ hchange) (ih fun e he => ?_)
    exact hstep e (List.mem_cons_of_mem _ he)

theorem Effect.Changes.mono (himp : ∀ name n r, resolves name n r → resolves' name n r) {e : Effect}
    (h : e.Changes resolves t t') : e.Changes resolves' t t' := by
  cases e with
  | refer id name =>
    obtain ⟨r, hr, ht⟩ := h
    exact ⟨r, himp name t.visible r hr, ht⟩
  | _ => exact h

theorem Follows.mono (himp : ∀ name n r, resolves name n r → resolves' name n r)
    (h : Follows resolves es t t') : Follows resolves' es t t' := by
  induction h with
  | nil => exact .nil
  | cons hchange _ ih => exact .cons (hchange.mono himp) ih

/-! ## Rules for passes -/

theorem Makes.mono (himp : ∀ name n r, resolves name n r → resolves' name n r)
    (h : Makes resolves es x) : Makes resolves' es x := by
  refine ⟨fun t => ?_, h.blind⟩
  have ht := h.made t
  cases hx : x t with
  | ok a t' =>
    rw [hx] at ht
    obtain ⟨l, hl, hes, hfollows⟩ := ht
    exact ⟨l, hl, hes, hfollows.mono himp⟩
  | error err t' =>
    rw [hx] at ht
    obtain ⟨l, hl, hfollows⟩ := ht
    exact ⟨l, hl, hfollows.mono himp⟩

theorem Makes.congr (h : Makes resolves es x) (hmem : ∀ e, e ∈ es' ↔ e ∈ es) :
    Makes resolves es' x := by
  refine ⟨fun t => ?_, h.blind⟩
  have ht := h.made t
  cases hx : x t with
  | ok a t' =>
    rw [hx] at ht
    obtain ⟨l, hl, hes, hfollows⟩ := ht
    exact ⟨l, fun e he => (hmem e).mpr (hl e he), fun e he => hes e ((hmem e).mp he), hfollows⟩
  | error err t' =>
    rw [hx] at ht
    obtain ⟨l, hl, hfollows⟩ := ht
    exact ⟨l, fun e he => (hmem e).mpr (hl e he), hfollows⟩

theorem makes_pure (a : α) : Makes resolves [] (pure a : Check α) :=
  ⟨fun _ => ⟨[], by simp, by simp, .nil⟩, fun _ _ => rfl⟩

/-- What is looked up first does not depend on the options. -/
theorem makes_get_bind {f : Typing → Check α} (hf : ∀ t o, f (t.withOptions o) = f t)
    (hblind : ∀ t u o, f t (u.withOptions o) = relabel o (f t u))
    (h : ∀ t, Made resolves es t (f t t)) : Makes resolves es (get >>= f) := by
  refine ⟨h, fun t o => ?_⟩
  change f (t.withOptions o) (t.withOptions o) = _
  rw [hf]
  exact hblind t t o

theorem makes_read {f : Typing → Check α} (hf : ∀ t o, f (t.withOptions o) = f t)
    (h : ∀ t, Makes resolves es (f t)) : Makes resolves es (get >>= f) :=
  makes_get_bind hf (fun t => (h t).blind) fun t => (h t).made t

theorem makes_throw (err : CompileError) : Makes resolves es (throw err : Check α) :=
  ⟨fun _ => ⟨[], by simp, .nil⟩, fun _ _ => rfl⟩

theorem made_ok {e : Effect} {a : α} (h : e.Changes resolves t t') :
    Made resolves [e] t (.ok a t') :=
  ⟨[e], fun _ he => he, fun _ he => .inl he, .cons h .nil⟩

/-- What a check goes on with may depend on a result it can give. -/
theorem makes_bind (hx : Makes resolves es x)
    (hf : ∀ a, (∃ t t', x t = .ok a t') → Makes resolves es' (f a)) :
    Makes resolves (es ++ es') (x >>= f) where
  blind t o := by
    change EStateM.bind x f (t.withOptions o) = relabel o (EStateM.bind x f t)
    unfold EStateM.bind
    rw [hx.blind]
    cases hr : x t with
    | ok a u => exact (hf a ⟨t, u, hr⟩).blind u o
    | error e u => rfl
  made t := by
    change Made resolves _ t (EStateM.bind x f t)
    unfold EStateM.bind
    have hfirst := hx.made t
    cases hr : x t with
    | error err u =>
      rw [hr] at hfirst
      obtain ⟨l, hl, hfollows⟩ := hfirst
      exact ⟨l, fun e he => List.mem_append_left _ (hl e he), hfollows⟩
    | ok a u =>
      rw [hr] at hfirst
      obtain ⟨l, hl, hes, hfollows⟩ := hfirst
      have hrest := (hf a ⟨t, u, hr⟩).made u
      dsimp only
      cases hr' : f a u with
      | ok b v =>
        rw [hr'] at hrest
        obtain ⟨l', hl', hes', hfollows'⟩ := hrest
        refine ⟨l ++ l', ?_, ?_, hfollows.append hfollows'⟩ <;> grind
      | error err v =>
        rw [hr'] at hrest
        obtain ⟨l', hl', hfollows'⟩ := hrest
        refine ⟨l ++ l', ?_, hfollows.append hfollows'⟩
        grind

theorem makes_bind_nil (hx : Makes resolves [] x) (hf : ∀ a, Makes resolves es (f a)) :
    Makes resolves es (x >>= f) :=
  makes_bind hx fun a _ => hf a

theorem makes_bind_last (hx : Makes resolves es x) (hf : ∀ a, Makes resolves [] (f a)) :
    Makes resolves es (x >>= f) := by
  have h := makes_bind hx fun a _ => hf a
  rwa [List.append_nil] at h

theorem makes_require (holds : Bool) (cause : Cause) (token : String) (span : Span) :
    Makes resolves [] (require holds cause token span) := by
  cases holds with
  | false => exact makes_throw _
  | true => exact makes_pure ()

theorem makes_promised (value : Option α) (defect : Defect) :
    Makes resolves [] (promised value defect) := by
  cases value with
  | none => exact makes_throw _
  | some a => exact makes_pure a

theorem makes_forM {f : α → Check PUnit} {effects : α → List Effect} {l : List α}
    (h : ∀ a ∈ l, Makes resolves (effects a) (f a)) :
    Makes resolves (l.flatMap effects) (l.forM f) := by
  induction l with
  | nil => exact makes_pure _
  | cons a l ih =>
    refine makes_bind (h a List.mem_cons_self) fun _ _ => ih fun b hb => h b ?_
    exact List.mem_cons_of_mem a hb

theorem makes_resolveType (e : TypeExpr) : Makes resolves [.resolve e] (resolveType e) := by
  refine makes_get_bind (fun _ _ => rfl) (fun t u o => ?_) fun t => ?_
  · cases t.types.resolve e <;> rfl
  cases hr : t.types.resolve e with
  | error err => exact ⟨[], by simp, .nil⟩
  | ok found => exact made_ok ⟨found.1, found.2, hr, rfl⟩

theorem makes_arrayOf {element : TypeId} (h : element ≠ TypeId.void) :
    Makes resolves [.array] (arrayOf element) :=
  ⟨fun _ => made_ok ⟨element, h, rfl⟩, fun _ _ => rfl⟩

theorem makes_recorded {id : NodeId} {check : Check TypeId} (h : Makes resolves es check) :
    Makes resolves (.record id :: es) (recorded id check) := by
  have hrecord (type : TypeId) : Makes resolves [.record id] (do
      modify fun t => { t with exprTypes := t.exprTypes.insert id type }
      return type : Check TypeId) := ⟨fun _ => made_ok ⟨type, rfl⟩, fun _ _ => rfl⟩
  exact (makes_bind h fun type _ => hrecord type).congr (by simp [or_comm])

/-! ## Checks that only look things up -/

theorem makes_requireSubtype (actual expected : TypeId) (cause : Cause) (token : String)
    (span : Span) : Makes resolves [] (requireSubtype actual expected cause token span) :=
  makes_read (fun _ _ => rfl) fun _ => makes_require _ _ _ _

theorem makes_requireValue (actual expected : TypeId) (token : String) (span : Span) :
    Makes resolves [] (requireValue actual expected token span) := by
  refine makes_read (fun _ _ => rfl) fun _ => ?_
  dsimp only
  split
  · exact makes_pure _
  · exact makes_throw _

theorem makes_classScope (scopes : ScopeTree) (type : TypeId) :
    Makes resolves [] (classScope scopes type) := by
  unfold classScope
  split
  · exact makes_pure _
  · exact makes_read (fun _ _ => rfl) fun _ => makes_throw _

theorem makes_branchScope (scopes : ScopeTree) (scope : ScopeId) (body : Stmt) :
    Makes resolves [] (branchScope scopes scope body) := by
  unfold branchScope
  split
  · exact makes_promised _ _
  · exact makes_pure _

/-- What a name stands for at this place, with so many locals in view. -/
def Resolves (env : MethodEnv) (scope : ScopeId) (name : String) (n : Nat) (r : Resolution) :
    Prop :=
  ∃ type, resolveName? env scope name n = some (r, type)

theorem makes_checkName (env : MethodEnv) (scope : ScopeId) (node : Node) (name : String) :
    Makes (Resolves env scope) [.refer node.id name] (checkName env scope node name) := by
  refine makes_get_bind (fun _ _ => rfl) (fun t u o => ?_) fun t => ?_
  · cases resolveName? env scope name t.visible with
    | none => dsimp only; split <;> rfl
    | some found => rfl
  cases hr : resolveName? env scope name t.visible with
  | none =>
    dsimp only
    split <;> exact ⟨[], by simp, .nil⟩
  | some found => exact made_ok ⟨found.1, ⟨found.2, hr⟩, rfl⟩

theorem makes_checkField (env : MethodEnv) (owner : TypeId) (name : String) (span : Span) :
    Makes resolves [] (checkField env owner name span) := by
  refine makes_read (fun _ _ => rfl) fun t => ?_
  dsimp only
  split
  · refine makes_bind_nil (makes_classScope _ _) fun scope => ?_
    split
    · exact makes_pure _
    · exact makes_throw _
  · exact makes_throw _

theorem makes_findMethod (env : MethodEnv) (scope : ScopeId) (name : Ident) :
    Makes resolves [] (findMethod env scope name) := by
  unfold findMethod
  split
  · exact makes_throw _
  · split
    · exact makes_pure _
    · exact makes_throw _

theorem makes_staticCallee (env : MethodEnv) (className method : Ident) (span : Span) :
    Makes resolves [] (staticCallee env className method span) := by
  refine makes_read (fun _ _ => rfl) fun t => ?_
  split
  · exact makes_throw _
  · exact makes_bind_nil (makes_classScope _ _) fun _ => makes_bind_nil (makes_findMethod _ _ _)
      fun _ => makes_bind_nil (makes_require _ _ _ _) fun _ => makes_pure _

theorem makes_ownCallee (env : MethodEnv) (method : Ident) (span : Span) :
    Makes resolves [] (ownCallee env method span) :=
  makes_bind_nil (makes_findMethod _ _ _) fun _ => makes_bind_nil (makes_require _ _ _ _)
    fun _ => makes_pure _

theorem makes_methodCallee (env : MethodEnv) (receiver : Expr) (type : TypeId) (method : Ident)
    (span : Span) : Makes resolves [] (methodCallee env receiver type method span) :=
  makes_read (fun _ _ => rfl) fun _ => makes_bind_nil (makes_require _ _ _ _) fun _ =>
    makes_bind_nil (makes_classScope _ _) fun _ => makes_bind_nil (makes_findMethod _ _ _)
      fun _ => makes_bind_nil (makes_require _ _ _ _) fun _ => makes_pure _

theorem makes_callSignature (method : Ident) (type : TypeId) (count : Nat) (span : Span) :
    Makes resolves [] (callSignature method type count span) :=
  makes_read (fun _ _ => rfl) fun _ => makes_bind_nil (makes_promised _ _) fun _ =>
    makes_bind_nil (makes_require _ _ _ _) fun _ => makes_pure _

/-- A call that passes the check has an argument for each parameter. -/
theorem length_of_callSignature {method : Ident} {type : TypeId} {count : Nat} {span : Span}
    {signature : Signature} (h : callSignature method type count span t = .ok signature t') :
    count = signature.params.length := by
  obtain ⟨_, _, _, h⟩ := Pass.bind_eq_ok.mp h
  obtain ⟨_, _, _, h⟩ := Pass.bind_eq_ok.mp h
  obtain ⟨_, _, hcount, h⟩ := Pass.bind_eq_ok.mp h
  obtain ⟨rfl, -⟩ := EStateM.Result.ok.inj h
  exact of_decide_eq_true (Pass.require_eq_ok.mp hcount).1

theorem makes_checkBinary (op : BinaryOp) (left right : TypeId) (span : Span) :
    Makes resolves [] (checkBinary op left right span) := by
  cases op with
  | arith a =>
    refine makes_bind_nil (makes_require _ _ _ _) fun _ => ?_
    split
    · exact makes_bind_nil (makes_require _ _ _ _) fun _ => makes_pure _
    · exact makes_bind_nil (makes_require _ _ _ _) fun _ => makes_pure _
  | logic l => exact makes_bind_nil (makes_require _ _ _ _) fun _ => makes_pure _
  | compare c =>
    unfold checkBinary
    dsimp only
    split
    · exact makes_bind_nil (makes_require _ _ _ _) fun _ => makes_read (fun _ _ => rfl) fun _ =>
        makes_bind_nil (makes_require _ _ _ _) fun _ => makes_pure _
    · exact makes_bind_nil (makes_require _ _ _ _) fun _ => makes_pure _

theorem makes_checkUnary (op : UnaryOp) (operand : TypeId) (span : Span) :
    Makes resolves [] (checkUnary op operand span) := by
  cases op with
  | neg => exact makes_bind_nil (makes_require _ _ _ _) fun _ => makes_pure _
  | not => exact makes_bind_nil (makes_require _ _ _ _) fun _ => makes_pure _

/-- All arguments of a call are checked, since there are as many as parameters. -/
theorem makes_callArgs {method : Ident} {type : TypeId} {args : List Expr} {span : Span}
    {env : MethodEnv} {scope : ScopeId}
    (h : ∀ params : List TypeId, args.length = params.length →
      Makes resolves es (checkArgs env scope args params)) :
    Makes resolves es (callSignature method type args.length span >>= fun signature =>
      checkArgs env scope args signature.params >>= fun _ => pure signature.result) := by
  refine makes_bind (makes_callSignature _ _ _ _) fun signature hsignature => ?_
  obtain ⟨t, t', hsignature⟩ := hsignature
  exact makes_bind_last (h _ (length_of_callSignature hsignature)) fun _ => makes_pure _

/-! ## Expressions -/

mutual

theorem makes_checkExpr (env : MethodEnv) (scope : ScopeId) :
    (e : Expr) → Makes (Resolves env scope) (e.nodes.flatMap Expr.effects) (checkExpr env scope e)
  | .literal _ _ => makes_recorded (makes_pure _)
  | .var _ _ => makes_recorded (makes_checkName _ _ _ _)
  | .field _ object _ => makes_recorded
      (makes_bind_last (makes_checkExpr env scope object) fun _ => makes_checkField _ _ _ _)
  | .index _ array i => by
    simp only [Expr.nodes, Expr.effects, List.flatMap_cons, List.flatMap_append,
      List.singleton_append]
    refine makes_recorded (makes_bind (makes_checkExpr env scope array) fun type _ =>
      makes_read (fun _ _ => rfl) fun t => ?_)
    dsimp only
    split
    · exact makes_throw _
    · exact makes_bind_last (makes_checkExpr env scope i) fun _ =>
        makes_bind_nil (makes_require _ _ _ _) fun _ => makes_pure _
  | .staticCall _ _ _ args => makes_recorded (makes_bind_nil (makes_staticCallee _ _ _ _)
      fun _ => makes_callArgs fun params hlength => makes_checkArgs env scope args params hlength)
  | .ownCall _ _ args => makes_recorded (makes_bind_nil (makes_ownCallee _ _ _)
      fun _ => makes_callArgs fun params hlength => makes_checkArgs env scope args params hlength)
  | .methodCall _ receiver _ args => by
    simp only [Expr.nodes, Expr.effects, List.flatMap_cons, List.flatMap_append,
      List.singleton_append]
    exact makes_recorded (makes_bind (makes_checkExpr env scope receiver) fun _ _ =>
      makes_bind_nil (makes_methodCallee _ _ _ _ _) fun _ =>
        makes_callArgs fun params hlength => makes_checkArgs env scope args params hlength)
  | .this _ => makes_recorded (makes_bind_nil (makes_require _ _ _ _) fun _ => makes_pure _)
  | .newObject _ _ => by
    refine makes_recorded (makes_read (fun _ _ => rfl) fun t => ?_)
    split
    · exact makes_pure _
    · exact makes_throw _
  | .newArray _ element size => by
    have hrest (type : TypeId) (hne : type ≠ TypeId.void) : Makes (Resolves env scope)
        (size.nodes.flatMap Expr.effects ++ [.array]) (do
          let count ← checkExpr env scope size
          require (count = TypeId.int) .sizeNotInt size.token size.span
          arrayOf type) :=
      makes_bind (makes_checkExpr env scope size) fun _ _ =>
        makes_bind_nil (makes_require _ _ _ _) fun _ => makes_arrayOf hne
    refine (makes_recorded (makes_bind (makes_resolveType element) fun type _ =>
      makes_bind (makes_require _ _ _ _) fun _ h => hrest type ?_)).congr fun e => ?_
    · obtain ⟨t, t', h⟩ := h
      exact of_decide_eq_true (require_eq_ok.mp h).1
    · simp [Expr.nodes, Expr.effects, or_comm, or_left_comm]
  | .length _ array => makes_recorded (makes_bind_last (makes_checkExpr env scope array)
      fun _ => makes_read (fun _ _ => rfl) fun _ =>
        makes_bind_nil (makes_require _ _ _ _) fun _ => makes_pure _)
  | .binary _ _ left right => by
    simp only [Expr.nodes, Expr.effects, List.flatMap_cons, List.flatMap_append,
      List.singleton_append]
    exact makes_recorded (makes_bind (makes_checkExpr env scope left) fun _ _ =>
      makes_bind_last (makes_checkExpr env scope right) fun _ => makes_checkBinary _ _ _ _)
  | .unary _ _ operand => makes_recorded (makes_bind_last (makes_checkExpr env scope operand)
      fun _ => makes_checkUnary _ _ _)
  | .paren _ inner => makes_recorded (makes_checkExpr env scope inner)

theorem makes_checkArgs (env : MethodEnv) (scope : ScopeId) :
    (args : List Expr) → (params : List TypeId) → args.length = params.length →
      Makes (Resolves env scope) ((Expr.nodesOfList args).flatMap Expr.effects)
        (checkArgs env scope args params)
  | [], [], _ => makes_pure _
  | arg :: args, param :: params, h => by
    rw [Expr.nodesOfList, List.flatMap_append]
    exact makes_bind (makes_checkExpr env scope arg) fun _ _ =>
      makes_bind_nil (makes_requireSubtype _ _ _ _ _) fun _ =>
        makes_checkArgs env scope args params (Nat.succ.inj h)

end

/-! ## Statements -/

/-- The check makes the changes for the expressions, and brings locals into view. -/
def Checks (es : List Expr) (x : Check α) : Prop :=
  Makes (fun _ _ _ => True) (.view :: es.flatMap Expr.effects) x

theorem checks_of_makes {es : List Expr} (h : Makes resolves (es.flatMap Expr.effects) x) :
    Checks es x := by
  refine ⟨fun t => ?_, h.blind⟩
  have ht := (h.mono fun _ _ _ _ => trivial).made t
  cases hx : x t with
  | ok a t' =>
    rw [hx] at ht
    obtain ⟨l, hl, hes, hfollows⟩ := ht
    exact ⟨l, by grind, by grind, hfollows⟩
  | error err t' =>
    rw [hx] at ht
    obtain ⟨l, hl, hfollows⟩ := ht
    exact ⟨l, by grind, hfollows⟩

theorem Checks.bind {es es' : List Expr} (hx : Checks es x) (hf : ∀ a, Checks es' (f a)) :
    Checks (es ++ es') (x >>= f) := by
  refine (makes_bind hx fun a _ => hf a).congr fun e => ?_
  simp only [List.flatMap_append, List.mem_cons, List.mem_append]
  grind

theorem checks_nil (h : Makes (fun _ _ _ => True) [] x) : Checks [] x :=
  checks_of_makes h

theorem checks_bind_nil {es : List Expr} (hx : Makes (fun _ _ _ => True) [] x)
    (hf : ∀ a, Checks es (f a)) : Checks es (x >>= f) :=
  (checks_nil hx).bind hf

theorem checks_bind_last {es : List Expr} (hx : Checks es x)
    (hf : ∀ a, Makes (fun _ _ _ => True) [] (f a)) : Checks es (x >>= f) := by
  have h := hx.bind fun a => checks_nil (hf a)
  rwa [List.append_nil] at h

theorem checks_checkExpr (env : MethodEnv) (scope : ScopeId) (e : Expr) :
    Checks e.nodes (checkExpr env scope e) := checks_of_makes (makes_checkExpr env scope e)

theorem checks_enterLocal (env : MethodEnv) (scope : ScopeId) (name : String) :
    Checks [] (enterLocal env scope name) := by
  unfold enterLocal
  split
  · exact makes_throw _
  · split
    · exact ⟨fun t => made_ok ⟨_, rfl⟩, fun _ _ => rfl⟩
    · exact makes_throw _

theorem checks_checkCondition (env : MethodEnv) (scope : ScopeId) (condition : Expr)
    (cause : Cause) : Checks condition.nodes (checkCondition env scope condition cause) :=
  checks_bind_last (checks_checkExpr env scope condition) fun _ => makes_requireSubtype _ _ _ _ _

mutual

theorem checks_checkStmt (env : MethodEnv) (inLoop : Bool) (scope : ScopeId) :
    (s : Stmt) → Checks s.exprs (checkStmt env inLoop scope s)
  | .assign _ target value => checks_bind_nil (makes_require _ _ _ _) fun _ =>
      (checks_checkExpr env scope target).bind fun _ =>
        checks_bind_last (checks_checkExpr env scope value) fun _ => makes_requireValue _ _ _ _
  | .call _ expr => checks_bind_nil (makes_require _ _ _ _) fun _ =>
      checks_bind_last (checks_checkExpr env scope expr) fun _ => makes_pure _
  | .ret _ none => checks_nil (makes_requireValue _ _ _ _)
  | .ret _ (some e) =>
    checks_bind_last (checks_checkExpr env scope e) fun _ => makes_requireValue _ _ _ _
  | .ifThen _ condition body => (checks_checkCondition env scope condition _).bind fun _ =>
      checks_bind_nil (makes_branchScope _ _ _) fun inner =>
        checks_checkStmt env inLoop inner body
  | .ifElse _ condition thenBranch elseBranch => by
    rw [Stmt.exprs, List.append_assoc]
    refine (checks_checkCondition env scope condition _).bind fun _ =>
      checks_bind_nil (makes_branchScope _ _ _) fun inner =>
        (checks_checkStmt env inLoop inner thenBranch).bind fun _ => ?_
    exact checks_bind_nil (makes_branchScope _ _ _) fun inner =>
      checks_checkStmt env inLoop inner elseBranch
  | .loop _ condition body => (checks_checkCondition env scope condition _).bind fun _ =>
      checks_bind_nil (makes_branchScope _ _ _) fun inner => checks_checkStmt env true inner body
  | .breakLoop _ => checks_nil (makes_require _ _ _ _)
  | .continueLoop _ => checks_nil (makes_require _ _ _ _)
  | .block _ stmts => checks_bind_nil (makes_promised _ _) fun inner =>
      checks_checkStmts env inLoop inner stmts
  | .declare _ _ _ none => checks_bind_last (checks_enterLocal _ _ _) fun _ => makes_pure _
  | .declare _ _ _ (some e) => (checks_enterLocal _ _ _).bind fun _ =>
      checks_bind_last (checks_checkExpr env scope e) fun _ => makes_requireValue _ _ _ _

theorem checks_checkStmts (env : MethodEnv) (inLoop : Bool) (scope : ScopeId) :
    (ss : List Stmt) → Checks (Stmt.exprsOfList ss) (checkStmts env inLoop scope ss)
  | [] => checks_nil (makes_pure _)
  | s :: ss => (checks_checkStmt env inLoop scope s).bind fun _ =>
      checks_checkStmts env inLoop scope ss

end

/-- The return type is looked up, and the body is checked with no locals in view. -/
theorem makes_checkMethod (scopes : ScopeTree) (c : ClassDecl) (m : MethodDecl) :
    Makes (fun _ _ _ => True)
      (.resolve m.returnType :: .view :: (Stmt.exprsOfList m.body).flatMap Expr.effects)
      (checkMethod scopes c m) := by
  have hview : Checks [] (modify ({ · with visible := 0 }) : Check PUnit) :=
    ⟨fun t => made_ok ⟨0, rfl⟩, fun _ _ => rfl⟩
  exact makes_read (fun _ _ => rfl) fun _ => makes_bind_nil (makes_promised _ _) fun _ =>
    makes_bind_nil (makes_classScope _ _) fun _ => makes_bind_nil (makes_promised _ _) fun _ =>
      makes_bind (makes_resolveType m.returnType) fun _ _ =>
        hview.bind fun _ => checks_checkStmts _ _ _ _

/-- The changes that a check of the program makes. -/
def programEffects (p : Program) : List Effect :=
  p.bodies.flatMap fun m =>
    .resolve m.returnType :: .view :: (Stmt.exprsOfList m.body).flatMap Expr.effects

theorem makes_checkProgram (p : Program) :
    Makes (fun _ _ _ => True) (programEffects p) (checkProgram p) := by
  have hprogram : Makes (fun _ _ _ => True) _ (checkProgram p) :=
    makes_read (fun _ _ => rfl) fun t =>
      makes_forM fun c _ => makes_forM fun m _ => makes_checkMethod t.scopes c m
  refine hprogram.congr fun e => ?_
  simp only [programEffects, Program.bodies, Program.methods, List.mem_flatMap, List.mem_filter]
  grind

end Typing

/-! ## What is left alone -/

/-- The context with what a check has found out. -/
def Context.withTyping (c : Context) (t : Typing) : Context :=
  { c with types := t.types, exprTypes := t.exprTypes, references := t.references }

namespace Typing

/-- No change is made to the rest of the context. -/
theorem Effect.Changes.toContext_eq {e : Effect} (h : e.Changes resolves t t') :
    t'.toContext = t.toContext.withTyping t' := by
  cases e with
  | resolve _ => obtain ⟨_, _, _, rfl⟩ := h; rfl
  | array => obtain ⟨_, _, rfl⟩ := h; rfl
  | record _ => obtain ⟨_, rfl⟩ := h; rfl
  | refer _ _ => obtain ⟨_, _, rfl⟩ := h; rfl
  | view => obtain ⟨_, rfl⟩ := h; rfl

theorem Follows.toContext_eq (h : Follows resolves es t t') :
    t'.toContext = t.toContext.withTyping t' := by
  refine h.rel (R := fun t t' => t'.toContext = t.toContext.withTyping t') (fun _ => rfl) ?_
    fun _ _ _ _ hchange => hchange.toContext_eq
  intro t u v hu hv
  rw [hv, hu]
  rfl

theorem toContext_of_ok {p : Program} {c : Context} (h : checkProgram p c.typing = .ok () t) :
    t.toContext = c.withTyping t := by
  have hmade := (makes_checkProgram p).made c.typing
  rw [h] at hmade
  obtain ⟨_, _, _, hfollows⟩ := hmade
  exact hfollows.toContext_eq

end Typing

end IcLir
