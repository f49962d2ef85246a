import IcLir.Proofs.WellFormed

/-
  Lexical scoping, said of the program text alone. One walk over a body in source order keeps a
  stack of frames: one for the parameters and the locals at the top of the body, one more for
  each block, and one for each declaration that stands alone as a branch. A local enters the
  innermost frame at its declaration, before its own initial value. `Program.uses` lists every
  bare name of a program with what this walk binds it to.
-/

namespace IcLir

/-- The node and the name, if the expression is a bare name. -/
def Expr.bareName? : Expr → Option (NodeId × String)
  | .var node name => some (node.id, name.name)
  | _ => none

theorem Expr.bareName?_eq_some {e : Expr} {x : NodeId × String} (h : e.bareName? = some x) :
    ∃ node name, e = .var node name ∧ x = (node.id, name.name) := by
  cases e with
  | var node name => exact ⟨node, name, rfl, (Option.some.inj h).symm⟩
  | _ => simp [bareName?] at h

theorem Stmt.mem_nodes (s : Stmt) : s ∈ s.nodes := by
  cases s <;> simp [nodes]

namespace Lexical

/-- What a frame belongs to. -/
inductive Origin where
  | method (id : NodeId)
  /-- A block, or a declaration that stands alone as a branch. -/
  | block (id : NodeId)
deriving DecidableEq, Repr

/-- The variables that are in view, the latest first. -/
structure Frame where
  origin : Origin
  vars : List (String × TypeExpr)
deriving DecidableEq, Repr

/-- What a bare name is bound to: a variable of a frame, or a field of a class. -/
inductive Binding where
  | var (origin : Origin) (type : TypeExpr)
  | field (owner : String) (type : TypeExpr)
deriving DecidableEq, Repr

/-- A bare name in a body. -/
structure Use where
  node : NodeId
  name : String
  binding : Option Binding
deriving DecidableEq, Repr

def Frame.find? (f : Frame) (name : String) : Option Binding :=
  (f.vars.lookup name).map (.var f.origin)

def field? (name : String) (c : ClassDecl) : Option Binding :=
  (c.fields.find? (·.name.name = name)).map fun f => .field c.name.name f.type

/-- The innermost frame comes first; after the frames come the fields of the classes. -/
def lookup (classes : List ClassDecl) (frames : List Frame) (name : String) : Option Binding :=
  (frames.findSome? (·.find? name)).or (classes.findSome? (field? name))

/-- The stack after a statement. -/
def enter : List Frame → Stmt → List Frame
  | f :: frames, .declare _ type name _ => { f with vars := (name.name, type) :: f.vars } :: frames
  | frames, _ => frames

/-- The stack at the start of an if or while body. -/
def enterBranch (frames : List Frame) (body : Stmt) : List Frame :=
  if body.isDeclaration then ⟨.block body.id, []⟩ :: frames else frames

section

variable (classes : List ClassDecl)

def usesOfExpr (frames : List Frame) (e : Expr) : List Use :=
  (e.nodes.filterMap Expr.bareName?).map fun x => ⟨x.1, x.2, lookup classes frames x.2⟩

mutual

def usesOfStmt : List Frame → Stmt → List Use
  | frames, .assign _ target value =>
    usesOfExpr classes frames target ++ usesOfExpr classes frames value
  | frames, .call _ e => usesOfExpr classes frames e
  | frames, .ret _ value => (value.map (usesOfExpr classes frames)).getD []
  | frames, .ifThen _ condition body =>
    usesOfExpr classes frames condition ++ usesOfStmt (enterBranch frames body) body
  | frames, .ifElse _ condition thenBranch elseBranch =>
    usesOfExpr classes frames condition ++ usesOfStmt (enterBranch frames thenBranch) thenBranch ++
      usesOfStmt (enterBranch frames elseBranch) elseBranch
  | frames, .loop _ condition body =>
    usesOfExpr classes frames condition ++ usesOfStmt (enterBranch frames body) body
  | _, .breakLoop _ => []
  | _, .continueLoop _ => []
  | frames, .block node stmts => usesOfStmts (⟨.block node.id, []⟩ :: frames) stmts
  | frames, .declare node type name init =>
    (init.map (usesOfExpr classes (enter frames (.declare node type name init)))).getD []

def usesOfStmts : List Frame → List Stmt → List Use
  | _, [] => []
  | frames, s :: ss => usesOfStmt frames s ++ usesOfStmts (enter frames s) ss

end

end

/-- The bare names in a method of the first of the classes, which the others are superclasses
    of. A static method sees no fields. -/
def usesOfMethod (classes : List ClassDecl) (m : MethodDecl) : List Use :=
  usesOfStmts (if m.isStatic then [] else classes)
    [⟨.method m.id, m.params.map fun q => (q.name.name, q.type)⟩] m.body

/-- The bare names in a class that is declared after `before`. -/
def usesOfClass (before : List ClassDecl) (c : ClassDecl) : List Use :=
  (c.methods.filter (·.kind ≠ .library)).flatMap (usesOfMethod (c :: c.superclasses before))

def usesOfClasses : List ClassDecl → List ClassDecl → List Use
  | _, [] => []
  | before, c :: classes => usesOfClass before c ++ usesOfClasses (before ++ [c]) classes

/-! ## Every bare name is listed once -/

/-- Which name stands at which node. -/
def Use.occurrence (u : Use) : NodeId × String := (u.node, u.name)

theorem occurrence_usesOfExpr (classes : List ClassDecl) (frames : List Frame) (e : Expr) :
    (usesOfExpr classes frames e).map Use.occurrence = e.nodes.filterMap Expr.bareName? := by
  unfold usesOfExpr
  rw [List.map_map]
  exact List.map_id _

mutual

theorem occurrence_usesOfStmt (classes : List ClassDecl) :
    ∀ (s : Stmt) (frames : List Frame),
      (usesOfStmt classes frames s).map Use.occurrence = s.exprs.filterMap Expr.bareName?
  | .assign _ target value, frames => by
    rw [usesOfStmt, Stmt.exprs, List.map_append, List.filterMap_append, occurrence_usesOfExpr,
      occurrence_usesOfExpr]
  | .call _ e, frames => by
    rw [usesOfStmt, Stmt.exprs, occurrence_usesOfExpr]
  | .ret _ none, frames => by
    rw [usesOfStmt, Stmt.exprs]
    rfl
  | .ret _ (some e), frames => by
    rw [usesOfStmt, Stmt.exprs]
    exact occurrence_usesOfExpr classes frames e
  | .ifThen _ condition body, frames => by
    rw [usesOfStmt, Stmt.exprs, List.map_append, List.filterMap_append, occurrence_usesOfExpr,
      occurrence_usesOfStmt classes body]
  | .ifElse _ condition thenBranch elseBranch, frames => by
    rw [usesOfStmt, Stmt.exprs, List.map_append, List.map_append, List.filterMap_append,
      List.filterMap_append, occurrence_usesOfExpr, occurrence_usesOfStmt classes thenBranch,
      occurrence_usesOfStmt classes elseBranch]
  | .loop _ condition body, frames => by
    rw [usesOfStmt, Stmt.exprs, List.map_append, List.filterMap_append, occurrence_usesOfExpr,
      occurrence_usesOfStmt classes body]
  | .breakLoop _, frames => by
    rw [usesOfStmt, Stmt.exprs]
    rfl
  | .continueLoop _, frames => by
    rw [usesOfStmt, Stmt.exprs]
    rfl
  | .block _ stmts, frames => by
    rw [usesOfStmt, Stmt.exprs, occurrence_usesOfStmts classes stmts]
  | .declare _ _ _ none, frames => by
    rw [usesOfStmt, Stmt.exprs]
    rfl
  | .declare _ _ _ (some e), frames => by
    rw [usesOfStmt, Stmt.exprs]
    exact occurrence_usesOfExpr classes _ e

theorem occurrence_usesOfStmts (classes : List ClassDecl) :
    ∀ (ss : List Stmt) (frames : List Frame),
      (usesOfStmts classes frames ss).map Use.occurrence =
        (Stmt.exprsOfList ss).filterMap Expr.bareName?
  | [], frames => by
    rw [usesOfStmts, Stmt.exprsOfList]
    rfl
  | s :: ss, frames => by
    rw [usesOfStmts, Stmt.exprsOfList, List.map_append, List.filterMap_append,
      occurrence_usesOfStmt classes s, occurrence_usesOfStmts classes ss]

end

/-- The expressions in the bodies that are looked at. -/
def bodyExprs (ms : List MethodDecl) : List Expr :=
  (ms.filter (·.kind ≠ .library)).flatMap fun m => Stmt.exprsOfList m.body

theorem occurrence_usesOfClass (before : List ClassDecl) (c : ClassDecl) :
    (usesOfClass before c).map Use.occurrence =
      (bodyExprs c.methods).filterMap Expr.bareName? := by
  unfold usesOfClass bodyExprs
  rw [List.map_flatMap, List.filterMap_flatMap]
  exact congrArg (List.flatMap · _) (funext fun m => occurrence_usesOfStmts _ m.body _)

theorem occurrence_usesOfClasses (before classes : List ClassDecl) :
    (usesOfClasses before classes).map Use.occurrence =
      (bodyExprs (classes.flatMap (·.methods))).filterMap Expr.bareName? := by
  induction classes generalizing before with
  | nil => rfl
  | cons c classes ih =>
    have hcons : bodyExprs ((c :: classes).flatMap (·.methods)) =
        bodyExprs c.methods ++ bodyExprs (classes.flatMap (·.methods)) := by
      simp [bodyExprs]
    rw [usesOfClasses, List.map_append, hcons, List.filterMap_append, occurrence_usesOfClass, ih]

/-- The bare names of each method are among those of the program. -/
theorem usesOfMethod_subset {before after pre : List ClassDecl} {c : ClassDecl} {m : MethodDecl}
    (hm : m ∈ c.methods) (hkind : m.kind ≠ .library) {u : Use}
    (hu : u ∈ usesOfMethod (c :: c.superclasses (pre ++ before)) m) :
    u ∈ usesOfClasses pre (before ++ c :: after) := by
  induction before generalizing pre with
  | nil =>
    rw [List.append_nil] at hu
    refine List.mem_append_left _ (List.mem_flatMap.mpr ⟨m, ?_, hu⟩)
    exact List.mem_filter.mpr ⟨hm, by simpa using hkind⟩
  | cons b before ih =>
    refine List.mem_append_right _ (ih ?_)
    rw [List.append_assoc]
    exact hu

/-! ## A variable belongs to its method -/

/-- The frame is that of the method, or of a statement in its body. -/
def Origin.IsOf (m : MethodDecl) : Origin → Prop
  | .method id => id = m.id
  | .block id => ∃ s ∈ Stmt.nodesOfList m.body, s.id = id

section

variable {classes : List ClassDecl} {allowed : Origin → Prop} {frames : List Frame}

/-- A name is bound to a variable of one of the frames. -/
theorem origin_of_lookup (hframes : ∀ f ∈ frames, allowed f.origin) {name : String}
    {origin : Origin} {type : TypeExpr}
    (h : lookup classes frames name = some (.var origin type)) : allowed origin := by
  unfold lookup at h
  cases hfind : frames.findSome? (·.find? name) with
  | some b =>
    rw [hfind] at h
    obtain rfl : b = .var origin type := Option.some.inj h
    obtain ⟨f, hf, hb⟩ := List.exists_of_findSome?_eq_some hfind
    obtain ⟨type', _, heq⟩ := Option.map_eq_some_iff.mp hb
    obtain ⟨rfl, _⟩ := Binding.var.inj heq
    exact hframes f hf
  | none =>
    rw [hfind, Option.none_or] at h
    obtain ⟨c, _, hb⟩ := List.exists_of_findSome?_eq_some h
    obtain ⟨_, _, heq⟩ := Option.map_eq_some_iff.mp hb
    cases heq

/-- What the uses are bound to lies in frames that are allowed. -/
def BoundIn (allowed : Origin → Prop) (us : List Use) : Prop :=
  ∀ u ∈ us, ∀ origin type, u.binding = some (.var origin type) → allowed origin

theorem BoundIn.append {us us' : List Use} (h : BoundIn allowed us) (h' : BoundIn allowed us') :
    BoundIn allowed (us ++ us') := by
  intro u hu
  rcases List.mem_append.mp hu with hu | hu
  · exact h u hu
  · exact h' u hu

theorem boundIn_usesOfExpr (hframes : ∀ f ∈ frames, allowed f.origin) (e : Expr) :
    BoundIn allowed (usesOfExpr classes frames e) := by
  intro u hu origin type hb
  obtain ⟨x, _, rfl⟩ := List.mem_map.mp hu
  exact origin_of_lookup hframes hb

theorem origin_of_mem_enter (hframes : ∀ f ∈ frames, allowed f.origin) (s : Stmt) :
    ∀ f ∈ enter frames s, allowed f.origin := by
  intro f hf
  unfold enter at hf
  split at hf
  · next g _ _ _ _ _ =>
    rcases List.mem_cons.mp hf with rfl | hf
    · exact hframes g List.mem_cons_self
    · exact hframes f (List.mem_cons_of_mem _ hf)
  · exact hframes f hf

theorem origin_of_mem_enterBranch (hframes : ∀ f ∈ frames, allowed f.origin) {body : Stmt}
    (hbody : allowed (.block body.id)) : ∀ f ∈ enterBranch frames body, allowed f.origin := by
  intro f hf
  unfold enterBranch at hf
  split at hf
  · rcases List.mem_cons.mp hf with rfl | hf
    · exact hbody
    · exact hframes f hf
  · exact hframes f hf

end

mutual

theorem boundIn_usesOfStmt :
    ∀ (s : Stmt) {frames : List Frame}, (∀ f ∈ frames, allowed f.origin) →
      (∀ x ∈ s.nodes, allowed (.block x.id)) → BoundIn allowed (usesOfStmt classes frames s)
  | .assign _ target value, _, hframes, _ => by
    rw [usesOfStmt]
    exact (boundIn_usesOfExpr hframes target).append (boundIn_usesOfExpr hframes value)
  | .call _ e, _, hframes, _ => by
    rw [usesOfStmt]
    exact boundIn_usesOfExpr hframes e
  | .ret _ none, _, _, _ | .breakLoop _, _, _, _ | .continueLoop _, _, _, _
  | .declare _ _ _ none, _, _, _ => by
    intro u hu
    rw [usesOfStmt] at hu
    exact absurd hu List.not_mem_nil
  | .ret _ (some e), _, hframes, _ => by
    rw [usesOfStmt]
    exact boundIn_usesOfExpr hframes e
  | .ifThen _ condition body, _, hframes, hnodes | .loop _ condition body, _, hframes, hnodes => by
    have hbody := (List.forall_mem_cons.mp hnodes).2
    rw [usesOfStmt]
    exact (boundIn_usesOfExpr hframes condition).append
      (boundIn_usesOfStmt body (origin_of_mem_enterBranch hframes (hbody _ (Stmt.mem_nodes body)))
        hbody)
  | .ifElse _ condition thenBranch elseBranch, _, hframes, hnodes => by
    obtain ⟨hthen, helse⟩ := List.forall_mem_append.mp (List.forall_mem_cons.mp hnodes).2
    rw [usesOfStmt]
    refine ((boundIn_usesOfExpr hframes condition).append ?_).append ?_
    · exact boundIn_usesOfStmt thenBranch
        (origin_of_mem_enterBranch hframes (hthen _ (Stmt.mem_nodes thenBranch))) hthen
    · exact boundIn_usesOfStmt elseBranch
        (origin_of_mem_enterBranch hframes (helse _ (Stmt.mem_nodes elseBranch))) helse
  | .block node stmts, _, hframes, hnodes => by
    rw [usesOfStmt]
    refine boundIn_usesOfStmts stmts ?_ (List.forall_mem_cons.mp hnodes).2
    intro f hf
    rcases List.mem_cons.mp hf with rfl | hf
    · exact hnodes (.block node stmts) List.mem_cons_self
    · exact hframes f hf
  | .declare node type name (some e), _, hframes, _ => by
    rw [usesOfStmt]
    exact boundIn_usesOfExpr (origin_of_mem_enter hframes _) e

theorem boundIn_usesOfStmts :
    ∀ (ss : List Stmt) {frames : List Frame}, (∀ f ∈ frames, allowed f.origin) →
      (∀ x ∈ Stmt.nodesOfList ss, allowed (.block x.id)) →
      BoundIn allowed (usesOfStmts classes frames ss)
  | [], _, _, _ => by
    intro u hu
    rw [usesOfStmts] at hu
    exact absurd hu List.not_mem_nil
  | s :: ss, _, hframes, hnodes => by
    rw [usesOfStmts]
    obtain ⟨hs, hss⟩ := List.forall_mem_append.mp hnodes
    exact (boundIn_usesOfStmt s hframes hs).append
      (boundIn_usesOfStmts ss (origin_of_mem_enter hframes s) hss)

end

/-- The variables of a method are its own. -/
theorem boundIn_usesOfMethod (classes : List ClassDecl) (m : MethodDecl) :
    BoundIn (Origin.IsOf m) (usesOfMethod classes m) := by
  refine boundIn_usesOfStmts m.body ?_ fun x hx => ⟨x, hx, rfl⟩
  intro f hf
  rw [List.mem_singleton.mp hf]
  rfl

end Lexical

/-- All bare names of a program, with what they are bound to. -/
def Program.uses (p : Program) : List Lexical.Use := Lexical.usesOfClasses [] p.classes

end IcLir
