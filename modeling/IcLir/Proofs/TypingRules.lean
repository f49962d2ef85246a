import IcLir.Proofs.Lexical

/-
  The rules of typing, said of the program text alone: a type is what is written for it, a member
  is looked for along the superclasses, and a variable on the stack of frames. `typeOf` is the
  type of an expression that has one, `stmtFits` says whether a statement keeps the rules. Of the
  other classes of the program a body sees only what their names stand for (`Outlook.lineage`),
  not in which order they are declared.
-/

namespace IcLir

/-- The type of a value, by what is written for it; null has a type of its own. -/
inductive ValueType where
  | null
  | written (base : BaseType) (dims : Nat)
deriving DecidableEq, Repr

namespace ValueType

def int : ValueType := .written .int 0

def boolean : ValueType := .written .boolean 0

def string : ValueType := .written .string 0

def void : ValueType := .written .void 0

def className? : ValueType → Option String
  | .written (.named name) 0 => some name
  | _ => none

/-- The type of the elements, if this is an array type. -/
def element? : ValueType → Option ValueType
  | .written base (dims + 1) => some (.written base dims)
  | _ => none

def ofLiteral : Literal → ValueType
  | .int _ => int
  | .string _ => string
  | .bool _ => boolean
  | .null => null

/-- The type that a unary operator takes and gives. -/
def ofUnary : UnaryOp → ValueType
  | .neg => int
  | .not => boolean

end ValueType

def TypeExpr.valueType (e : TypeExpr) : ValueType := .written e.base e.dims

def Lexical.Binding.type : Binding → TypeExpr
  | .var _ type => type
  | .field _ type => type

def MethodDecl.paramTypes (m : MethodDecl) : List ValueType := m.params.map (·.type.valueType)

/-- What a method body sees of the program around it. -/
structure Outlook where
  /-- The class of a name and its superclasses, nearest first; none if no class has the name. -/
  lineage : String → List ClassDecl
  /-- The name of the class that the method belongs to. -/
  owner : String
  isStatic : Bool
  result : ValueType

namespace Outlook

open Lexical

section

variable (o : Outlook)

def knows : BaseType → Bool
  | .named name => !(o.lineage name).isEmpty
  | .int | .boolean | .string | .void => true

/-- The classes whose fields can be named without an object. -/
def fieldsInView : List ClassDecl := if o.isStatic then [] else o.lineage o.owner

def method? (className name : String) : Option MethodDecl :=
  (o.lineage className).findSome? (·.method? name)

/-- The field `name` of an object of the type. -/
def fieldOf? (type : ValueType) (name : String) : Option ValueType :=
  type.className?.bind fun c =>
    ((o.lineage c).findSome? (Lexical.field? name)).map (·.type.valueType)

/-- The method `name` of an object of the type. -/
def methodOf? (type : ValueType) (name : String) : Option MethodDecl :=
  type.className?.bind fun c => o.method? c name

/-- A class is below its superclasses, null is below all but `int`, `boolean` and `void`, and
    every type is below itself. -/
def isSubtype (sub sup : ValueType) : Bool :=
  if sub = sup then true
  else
    match sub with
    | .null => !(sup = .int || sup = .boolean || sup = .void)
    | .written .. =>
      match sub.className?, sup.className? with
      | some name, some base => (o.lineage name).any (·.name.name = base)
      | _, _ => false

def binaryType (op : BinaryOp) (left right : ValueType) : Option ValueType :=
  match op with
  | .arith a =>
    if left = right ∧ (left = .int ∨ a = .add ∧ left = .string) then some left else none
  | .logic _ => if left = .boolean ∧ right = .boolean then some .boolean else none
  | .compare c =>
    if c.isEquality then
      if (left ≠ .void ∧ right ≠ .void) ∧ (o.isSubtype left right ∨ o.isSubtype right left) then
        some .boolean
      else none
    else if left = .int ∧ right = .int then some .boolean else none

variable (frames : List Frame)

mutual

def typeOf : Expr → Option ValueType
  | .literal _ value => some (.ofLiteral value)
  | .var _ name => (lookup o.fieldsInView frames name.name).map (·.type.valueType)
  | .field _ object name =>
    (typeOf object).bind fun type => o.fieldOf? type name.name
  | .index _ array i =>
    (typeOf array).bind fun type => type.element?.bind fun element =>
      (typeOf i).bind fun subscript => if subscript = .int then some element else none
  | .staticCall _ className method args =>
    ((o.method? className.name method.name).filter (·.isStatic)).bind fun callee =>
      if argsFit args callee.paramTypes then some callee.returnType.valueType else none
  | .ownCall _ method args =>
    ((o.method? o.owner method.name).filter fun m => !o.isStatic || m.isStatic).bind fun callee =>
      if argsFit args callee.paramTypes then some callee.returnType.valueType else none
  | .methodCall _ receiver method args =>
    (typeOf receiver).bind fun type =>
      ((o.methodOf? type method.name).filter (!·.isStatic)).bind fun callee =>
        if argsFit args callee.paramTypes then some callee.returnType.valueType else none
  | .this _ => if !o.isStatic then some (.written (.named o.owner) 0) else none
  | .newObject _ className =>
    if o.knows (.named className.name) then some (.written (.named className.name) 0) else none
  | .newArray _ element size =>
    if o.knows element.base then
      if element.valueType ≠ .void then
        (typeOf size).bind fun count =>
          if count = .int then some (.written element.base (element.dims + 1)) else none
      else none
    else none
  | .length _ array => (typeOf array).bind fun type =>
    if type.element?.isSome then some .int else none
  | .binary _ op left right =>
    (typeOf left).bind fun leftType => (typeOf right).bind (o.binaryType op leftType)
  | .unary _ op operand => (typeOf operand).bind fun type =>
    if type = .ofUnary op then some type else none
  | .paren _ inner => typeOf inner

/-- Whether there are as many arguments as parameters, and each can stand for the parameter in
    its place. -/
def argsFit : List Expr → List ValueType → Bool
  | [], [] => true
  | arg :: args, param :: params => (typeOf arg).any (o.isSubtype · param) && argsFit args params
  | [], _ :: _ | _ :: _, [] => false

end

theorem length_of_argsFit {args : List Expr} {params : List ValueType}
    (h : argsFit o frames args params = true) : args.length = params.length := by
  induction args generalizing params with
  | nil =>
    cases params with
    | nil => rfl
    | cons param params => simp [argsFit] at h
  | cons arg args ih =>
    cases params with
    | nil => simp [argsFit] at h
    | cons param params =>
      rw [argsFit, Bool.and_eq_true] at h
      rw [List.length_cons, List.length_cons, ih h.2]

/-- Whether the value of an expression can stand where `expected` is declared. -/
def valueFits (expected : ValueType) (e : Expr) : Bool :=
  (o.typeOf frames e).any (o.isSubtype · expected)

end

section

variable (o : Outlook)

mutual

def stmtFits : Bool → List Frame → Stmt → Bool
  | _, frames, .assign _ target value =>
    target.isLocation && (o.typeOf frames target).any (o.valueFits frames · value)
  | _, frames, .call _ e => e.isCall && (o.typeOf frames e).isSome
  | _, frames, .ret _ (some e) => o.valueFits frames o.result e
  | _, _, .ret _ none => o.isSubtype .void o.result
  | inLoop, frames, .ifThen _ condition body =>
    o.valueFits frames .boolean condition && stmtFits inLoop (enterBranch frames body) body
  | inLoop, frames, .ifElse _ condition thenBranch elseBranch =>
    o.valueFits frames .boolean condition &&
      (stmtFits inLoop (enterBranch frames thenBranch) thenBranch &&
        stmtFits inLoop (enterBranch frames elseBranch) elseBranch)
  | _, frames, .loop _ condition body =>
    o.valueFits frames .boolean condition && stmtFits true (enterBranch frames body) body
  | inLoop, _, .breakLoop _ => inLoop
  | inLoop, _, .continueLoop _ => inLoop
  | inLoop, frames, .block node stmts => stmtsFit inLoop (⟨.block node.id, []⟩ :: frames) stmts
  | _, frames, .declare node type name init =>
    init.all (o.valueFits (enter frames (.declare node type name init)) type.valueType)

def stmtsFit : Bool → List Frame → List Stmt → Bool
  | _, _, [] => true
  | inLoop, frames, s :: ss => stmtFits inLoop frames s && stmtsFit inLoop (enter frames s) ss

end

end

end Outlook

namespace Program

/-- The class `name` and its superclasses, nearest first, where the latest class of a name
    counts. -/
def lineage (p : Program) (name : String) : List ClassDecl :=
  ClassDecl.superclassesFrom p.classes.reverse (some name)

/-- Classes of other names are passed over. -/
theorem superclassesFrom_append {name : String} {l : List ClassDecl}
    (h : name ∉ l.map (·.name.name)) (earlier : List ClassDecl) :
    ClassDecl.superclassesFrom (l ++ earlier) (some name) =
      ClassDecl.superclassesFrom earlier (some name) := by
  induction l with
  | nil => rfl
  | cons b l ih =>
    rw [List.map_cons, List.mem_cons, not_or] at h
    rw [List.cons_append, ClassDecl.superclassesFrom, if_neg (Ne.symm h.1), ih h.2]

section

variable {p : Program}

theorem lineage_eq_nil {name : String} (h : name ∉ p.classNames) : p.lineage name = [] := by
  have hnone : name ∉ p.classes.reverse.map (·.name.name) := by
    rw [List.map_reverse, List.mem_reverse]
    exact h
  have hskip := superclassesFrom_append hnone []
  rw [List.append_nil] at hskip
  exact hskip

variable {before after : List ClassDecl} {c : ClassDecl}

/-- A class is followed by its superclasses. -/
theorem lineage_eq_cons (hnodup : p.classNames.Nodup) (hp : p.classes = before ++ c :: after) :
    p.lineage c.name.name = c :: c.superclasses before := by
  have hafter : c.name.name ∉ after.reverse.map (·.name.name) := by
    rw [classNames, hp, List.map_append, List.map_cons, List.nodup_append] at hnodup
    rw [List.map_reverse, List.mem_reverse]
    exact (List.nodup_cons.mp hnodup.2.1).1
  rw [lineage, hp, List.reverse_append, List.reverse_cons, List.append_assoc,
    superclassesFrom_append hafter, List.singleton_append, ClassDecl.superclassesFrom, if_pos rfl]
  rfl

/-- The superclasses of a class are the superclass it names and what follows that. -/
theorem superclasses_eq_lineage (hnodup : p.classNames.Nodup)
    (hp : p.classes = before ++ c :: after) {base : Ident} (hbase : c.superclass = some base)
    (hbefore : base.name ∈ before.map (·.name.name)) :
    c.superclasses before = p.lineage base.name := by
  have hafter : base.name ∉ (c :: after).reverse.map (·.name.name) := by
    rw [classNames, hp, List.map_append, List.nodup_append] at hnodup
    rw [List.map_reverse, List.mem_reverse]
    exact fun hmem => hnodup.2.2 _ hbefore _ hmem rfl
  rw [lineage, hp, List.reverse_append, superclassesFrom_append hafter, ClassDecl.superclasses,
    hbase]
  rfl

end

def outlook (p : Program) (c : ClassDecl) (m : MethodDecl) : Outlook :=
  ⟨p.lineage, c.name.name, m.isStatic, m.returnType.valueType⟩

/-- Whether the body of a method keeps the rules. -/
def bodyFits (p : Program) (c : ClassDecl) (m : MethodDecl) : Bool :=
  (p.outlook c m).stmtsFit false [⟨.method m.id, m.params.map fun q => (q.name.name, q.type)⟩]
    m.body

/-- All rules of typing. The routines of the library have no bodies to look at. -/
def WellTyped (p : Program) : Prop :=
  ∀ c ∈ p.classes, ∀ m ∈ c.methods, m.kind ≠ .library → p.bodyFits c m = true

end Program

end IcLir
