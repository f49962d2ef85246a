import IcLir.Tree.Traversal
import IcLir.TypeTable

/-
  The rules of declaration, said of the program text alone: no table, scope or numbering occurs
  in them. `Program.WellFormed` puts them together.
-/

namespace IcLir

/-- A written type up to its place in the source: the base and the number of brackets. -/
def TypeExpr.shape (e : TypeExpr) : BaseType × Nat := (e.base, e.dims)

/-- The base of a type is built in or one of the classes named. -/
def BaseType.IsKnown (classNames : List String) : BaseType → Prop
  | .named name => name ∈ classNames
  | .int | .boolean | .string | .void => True

namespace Stmt

def declaredName? : Stmt → Option String
  | .declare _ _ name _ => some name.name
  | _ => none

/-- The names declared by the statements of a list themselves, not inside of them. -/
def localNames (ss : List Stmt) : List String := ss.filterMap declaredName?

/-- What is required of each statement of a body: a declaration has a known type, and a block
    declares no name twice. -/
def IsProper (classNames : List String) : Stmt → Prop
  | .declare _ type _ _ => type.base.IsKnown classNames
  | .block _ stmts => (localNames stmts).Nodup
  | _ => True

end Stmt

namespace MethodDecl

/-- The rules for the parameters and locals of a method. The locals at the top of the body share
    the scope of the parameters; a declaration that stands alone as a branch has a scope to
    itself. -/
structure WellScoped (classNames : List String) (m : MethodDecl) : Prop where
  result : m.returnType.base.IsKnown classNames
  params : ∀ q ∈ m.params, q.type.base.IsKnown classNames
  names : (m.paramNames ++ Stmt.localNames m.body).Nodup
  body : ∀ s ∈ Stmt.nodesOfList m.body, s.IsProper classNames

/-- The two methods have the same types of result and parameters. -/
def SameSignature (m m' : MethodDecl) : Prop :=
  m.returnType.shape = m'.returnType.shape ∧
    m.params.map (·.type.shape) = m'.params.map (·.type.shape)

/-- `m` may replace the inherited method `base`. -/
structure MayReplace (m base : MethodDecl) : Prop where
  signature : base.SameSignature m
  isStatic : base.isStatic = m.isStatic
  params : m.isStatic = false → base.paramNames = m.paramNames

/-- The shape of an entry method, `static void entry(string[] args)`. -/
def isEntry (entryMethod : String) (m : MethodDecl) : Bool :=
  m.kind = .static ∧ m.name.name = entryMethod ∧ m.returnType.shape = (.void, 0) ∧
    m.params.map (·.type.shape) = [(.string, 1)]

end MethodDecl

namespace ClassDecl

def fieldNames (c : ClassDecl) : List String := c.fields.map (·.name.name)

def methodNames (c : ClassDecl) : List String := c.methods.map (·.name.name)

/-- A class whose methods have different names knows each of them by its name. -/
theorem method?_of_mem {c : ClassDecl} (hnodup : c.methodNames.Nodup) {m : MethodDecl}
    (hm : m ∈ c.methods) : c.method? m.name.name = some m := by
  unfold methodNames at hnodup
  unfold method?
  generalize c.methods = methods at hm hnodup
  induction methods with
  | nil => simp at hm
  | cons m' methods ih =>
    rw [List.map_cons, List.nodup_cons] at hnodup
    rcases List.mem_cons.mp hm with rfl | hm
    · exact List.find?_cons_of_pos (by simp)
    · have hne : m'.name.name ≠ m.name.name := fun heq =>
        hnodup.1 (heq ▸ List.mem_map_of_mem (f := fun m => m.name.name) hm)
      rw [List.find?_cons_of_neg (by simpa using hne)]
      exact ih hm hnodup.2

theorem method?_eq_none {c : ClassDecl} {name : String} (h : name ∉ c.methodNames) :
    c.method? name = none := by
  rw [method?, List.find?_eq_none]
  intro m hm hname
  exact h (List.mem_map.mpr ⟨m, hm, by simpa using hname⟩)

/-- The superclasses along the names written, nearest first, where `earlier` are the classes to
    look in, the latest first. -/
def superclassesFrom : List ClassDecl → Option String → List ClassDecl
  | _, none => []
  | [], some _ => []
  | b :: earlier, some base =>
    if b.name.name = base then b :: superclassesFrom earlier (b.superclass.map (·.name))
    else superclassesFrom earlier (some base)

/-- The superclasses of a class that is declared after `before`, nearest first. -/
def superclasses (before : List ClassDecl) (c : ClassDecl) : List ClassDecl :=
  superclassesFrom before.reverse (c.superclass.map (·.name))

/-- The rules for the members of a class with the superclasses `above`, nearest first. -/
structure MembersFit (above : List ClassDecl) (c : ClassDecl) : Prop where
  fields_nodup : c.fieldNames.Nodup
  field_new : ∀ f ∈ c.fields, ∀ b ∈ above, f.name.name ∉ b.fieldNames ∧ f.name.name ∉ b.methodNames
  methods_nodup : c.methodNames.Nodup
  method_new : ∀ m ∈ c.methods, m.name.name ∉ c.fieldNames
  method_above : ∀ m ∈ c.methods, ∀ b ∈ above, m.name.name ∉ b.fieldNames
  override : ∀ m ∈ c.methods, ∀ base, above.findSome? (·.method? m.name.name) = some base →
    m.MayReplace base

end ClassDecl

namespace Program

def classNames (p : Program) : List String := p.classes.map (·.name.name)

/-- All rules of declaration. -/
structure WellFormed (p : Program) (entryMethod : String) : Prop where
  classes_nodup : p.classNames.Nodup
  not_builtIn : ∀ c ∈ p.classes, c.name.name ∉ Primitive.all.map Primitive.text
  superclass : ∀ before c after, p.classes = before ++ c :: after →
    ∀ base, c.superclass = some base → base.name ∈ before.map (·.name.name)
  fieldTypes : ∀ c ∈ p.classes, ∀ f ∈ c.fields, f.type.base.IsKnown p.classNames
  members : ∀ before c after, p.classes = before ++ c :: after →
    c.MembersFit (c.superclasses before)
  methods : ∀ m ∈ p.methods, m.WellScoped p.classNames
  entry : (p.methods.filter (·.isEntry entryMethod)).length = 1

end Program

end IcLir
