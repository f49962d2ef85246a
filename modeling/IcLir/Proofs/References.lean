import IcLir.Proofs.FreshLabels
import IcLir.Proofs.LineOrigins
import IcLir.Proofs.LoweringTotal

/-
  What the code of a body refers to: the routines that it calls by their labels, and the
  dispatch tables that it stores in new objects. Each reference comes from one node of the body,
  and what a node refers to is read off the node and the classes of the program (`RefersTo`).
-/

namespace IcLir

variable {name : String} {d : Definition} {owner : ClassDecl} {m : MethodDecl}

/-- Something that is named by its label. -/
inductive Reference where
  /-- The target of a static call. -/
  | call (name : String)
  /-- The dispatch table that is stored in a new object. -/
  | table (name : String)
deriving DecidableEq

/-- A dispatch table is what is stored at offset 0 of an object. -/
def Line.reference? : Line → Option Reference
  | .instr (.staticCall name _ _) => some (.call name)
  | .instr (.move (.label name) (.field _ 0)) => some (.table name)
  | _ => none

theorem Line.reference?_move {src dst : Operand} (h : ∀ base, dst ≠ .field base 0) :
    (Line.instr (.move src dst)).reference? = none := by
  unfold reference?
  split
  · next heq => simp at heq
  · next heq =>
    obtain ⟨_, rfl⟩ := Instr.move.inj (Line.instr.inj heq)
    exact absurd rfl (h _)
  · rfl

theorem Operand.r_ne_field (n base offset : Nat) : r n ≠ .field base offset := by
  simp [r]

/-! ## References of code -/

namespace Code

def references (code : Code) : List Reference := code.filterMap Line.reference?

theorem references_append (a b : Code) : references (a ++ b) = references a ++ references b :=
  List.filterMap_append ..

end Code

namespace Lowering

open Code Pass

variable {env : LowerEnv} {s s' : Supply}

theorem reference?_staticCallLine {callee : Callee} {name : String} {d : Nat} {line : Line}
    (h : env.staticCallLine callee name d s = .ok line s') :
    line.reference? = if callee.kind = .library then none else some (.call callee.entry.label) := by
  rcases eq_staticCallLine h with ⟨hkind, rfl⟩ | ⟨hkind, _, _, _, rfl⟩
  · rw [if_pos hkind]
    rfl
  · rw [if_neg hkind]
    rfl

theorem reference?_virtualCallLine {callee : Callee} {d : Nat} {line : Line}
    (h : env.virtualCallLine callee d s = .ok line s') : line.reference? = none := by
  obtain ⟨_, _, _, _, _, rfl⟩ := eq_virtualCallLine h
  rfl

end Lowering

/-! ## What a node refers to -/

/-- Looking for a method from class `type` upward, the first one found is `m` of class `owner`. -/
def Definition.Reaches (d : Definition) (type : TypeId) (name : String) (owner : ClassDecl)
    (m : MethodDecl) : Prop :=
  d.nearestDeclaring? type name = some owner ∧ owner.method? name = some m

theorem Definition.Reaches.unique {type : TypeId} {owner' : ClassDecl} {m' : MethodDecl}
    (h : d.Reaches type name owner m) (h' : d.Reaches type name owner' m') :
    owner = owner' ∧ m = m' := by
  obtain rfl : owner = owner' := Option.some.inj (h.1.symm.trans h'.1)
  exact ⟨rfl, Option.some.inj (h.2.symm.trans h'.2)⟩

theorem Definition.Reaches.name_eq {type : TypeId} (h : d.Reaches type name owner m) :
    m ∈ owner.methods ∧ m.name.name = name :=
  ⟨List.mem_of_find?_eq_some h.2, by simpa using List.find?_some h.2⟩

/-- What is reached from a class of the program is in a class of the program. -/
theorem Definition.Reaches.owner_mem {classes : List ClassDecl}
    (h : Definition.Scopes classes classes d) {i : Nat} {k : ClassDecl} (hi : classes[i]? = some k)
    (hr : d.Reaches (TypeTable.classId i) name owner m) : owner ∈ classes := by
  obtain ⟨t, ht, hfilter⟩ := List.exists_of_findSome?_eq_some hr.1
  obtain ⟨j, b, hb, rfl⟩ : ∃ j b, classes[j]? = some b ∧ t = TypeTable.classId j := by
    rcases List.mem_cons.mp ht with rfl | ht
    · exact ⟨i, k, hi, rfl⟩
    · obtain ⟨j, b, _, hb, rfl⟩ := h.table.mem_ancestors hi ht
      exact ⟨j, b, hb, rfl⟩
  rw [h.declarations j b hb] at hfilter
  obtain ⟨hsome, _⟩ := Option.filter_eq_some_iff.mp hfilter
  exact Option.some.inj hsome ▸ List.mem_of_getElem? hb

/-- A call on the class goes to method `m` of class `owner`. -/
structure LowerEnv.CallsMethod (env : LowerEnv) (type : TypeId) (name : String)
    (callee : Callee) (owner : ClassDecl) (m : MethodDecl) : Prop where
  reaches : env.context.definition.Reaches type name owner m
  method : callee.method = m
  kind : callee.kind = m.kind
  slot : callee.entry.slot.isSome = !m.kind.isStatic
  label : callee.entry.label = Lowering.methodLabel owner.name.name name

open Pass Definition TypeTable

theorem LowerEnv.callsMethod_of_callee {env : LowerEnv} {p : Program} (h : env.context.Accepts p)
    {i : Nat} {k : ClassDecl} (hi : p.classes[i]? = some k) {s s' : Supply} {callee : Callee}
    (hcallee : env.callee (classId i) name s = .ok callee s') :
    ∃ owner m, env.CallsMethod (classId i) name callee owner m := by
  obtain ⟨scope, parent, hclass⟩ := h.defined.classOf i k hi
  obtain ⟨l, hl, hof⟩ := h.exists_layout hi hclass
  have hscope : env.context.scopes.classScopes.get? (classId i) = some scope := hclass.get?
  have hreads : Meets CompileError.Any (env.callee (classId i) name) s fun callee _ =>
      ∃ owner m, env.CallsMethod (classId i) name callee owner m := by
    unfold LowerEnv.callee classScope layout
    rw [hscope]
    simp only [meets_bind]
    refine meets_promised_any fun symbol hs => ?_
    refine meets_promised_any fun kind hk => ?_
    refine meets_promised_any fun m' hm' => ?_
    refine meets_promised_any fun l' hl' => ?_
    refine meets_promised_any fun e he => ?_
    obtain rfl : l = l' := Option.some.inj (hl.symm.trans hl')
    have hkind : symbol.kind = .method kind := by
      cases hsymbol : symbol.kind <;> simp_all [SymbolKind.methodKind?]
    obtain ⟨j, owner, m, hname, hdecl, hnearest⟩ :=
      exists_declaration h.defined hi hclass hs hkind
    obtain ⟨e', he', hename, howner, _, hslot⟩ := hof.lays.method name symbol kind hs hkind
    obtain rfl : e = e' := Option.some.inj (he.symm.trans he')
    have hownerName : e.owner = owner.name.name := by
      unfold ownerName at howner
      rw [hdecl.owner] at howner
      exact (Option.some.inj howner).symm
    obtain ⟨oscope, oparent, _, hoclass, _⟩ := hdecl.methodOf
    have hmethod : owner.method? name = some m := hname ▸ hoclass.members.method?_eq hdecl.mem
    have hcalled : m' = m := Option.some.inj (hm'.symm.trans (hname ▸ hdecl.declaration))
    have hkinds : kind = m.kind := SymbolKind.method.inj (hkind.symm.trans hdecl.kind)
    refine ⟨owner, m, ⟨hnearest, hmethod⟩, hcalled, hkinds, hkinds ▸ hslot, ?_⟩
    rw [MethodEntry.label, hownerName, hename]
    rfl
  exact hreads.of_ok hcallee

/-- What the code of an expression in class `type` refers to, its parts apart. -/
def RefersTo (c : Context) (type : TypeId) (ref : Reference) : Expr → Prop
  | .field .. | .methodCall .. | .length .. => ref = .call Guard.nullRef.routine
  | .index .. => ref = .call Guard.nullRef.routine ∨ ref = .call Guard.arrayAccess.routine
  | .newArray .. => ref = .call Guard.size.routine
  | .binary _ (.arith op) _ _ => op.divides = true ∧ ref = .call Guard.zero.routine
  | .staticCall _ className method _ => ∃ t owner m, c.types.class? className.name = some t ∧
    c.definition.Reaches t method.name owner m ∧ m.kind ≠ .library ∧
    ref = .call (Lowering.methodLabel owner.name.name method.name)
  | .ownCall _ method _ => ∃ owner m, c.definition.Reaches type method.name owner m ∧
    m.kind = .static ∧ ref = .call (Lowering.methodLabel owner.name.name method.name)
  | .newObject _ className => ref = .table (ClassLayout.tableLabel className.name)
  | .literal .. | .var .. | .this _ | .binary _ (.compare _) .. | .binary _ (.logic _) ..
  | .unary .. | .paren .. => False

/-- One of the expressions refers to `ref`. -/
def Mentions (c : Context) (type : TypeId) (ref : Reference) (es : List Expr) : Prop :=
  ∃ e ∈ es, RefersTo c type ref e

/-! ## Where fields lie -/

namespace ClassLayout

/-- No field lies where the dispatch table does. -/
def FieldsPastTable (l : ClassLayout) : Prop := ∀ name n, l.offset? name = some n → n ≠ 0

theorem FieldsPastTable.addSymbol {l : ClassLayout} (h : l.FieldsPastTable) (s : Symbol) :
    (l.addSymbol s).FieldsPastTable := by
  unfold ClassLayout.addSymbol
  split
  · intro name n hn
    by_cases heq : name = s.name
    · rw [heq, offset?_addField_self] at hn
      exact Option.some.inj hn ▸ Nat.succ_ne_zero _
    · rw [offset?_addField_of_ne l heq] at hn
      exact h name n hn
  · intro name n hn
    rw [offset?_addMethod] at hn
    exact h name n hn
  all_goals exact h

theorem FieldsPastTable.foldl_addSymbol {l : ClassLayout} (h : l.FieldsPastTable)
    (symbols : List Symbol) : (symbols.foldl ClassLayout.addSymbol l).FieldsPastTable := by
  induction symbols generalizing l with
  | nil => exact h
  | cons s symbols ih => exact ih (h.addSymbol s)

end ClassLayout

namespace LayoutTable

open ClassLayout

variable {table : LayoutTable} {types : TypeTable} {scopes : ScopeTree}

def FieldsPastTables (table : LayoutTable) : Prop :=
  ∀ type l, table.get? type = some l → l.FieldsPastTable

theorem FieldsPastTables.start (h : FieldsPastTables table) {type : TypeId} {name : String}
    {l : ClassLayout} (hl : start table types type name = .ok l) : l.FieldsPastTable := by
  unfold LayoutTable.start at hl
  split at hl
  · obtain rfl := Except.ok.inj hl
    intro _ _ hn
    simp [ClassLayout.root, offset?, OrderedMap.get?, OrderedMap.empty] at hn
  · split at hl
    · next base hbase =>
      obtain rfl := Except.ok.inj hl
      exact h _ base hbase
    · simp at hl

theorem FieldsPastTables.addClass {table' : LayoutTable} (h : FieldsPastTables table)
    {c : TypeId × String} (ht : addClass types scopes table c = .ok table') :
    FieldsPastTables table' := by
  unfold LayoutTable.addClass at ht
  cases hl : LayoutTable.start table types c.1 c.2 with
  | error e => simp [hl, bind, Except.bind] at ht
  | ok l =>
    simp only [hl, bind, Except.bind] at ht
    split at ht
    · simp at ht
    · obtain rfl := Except.ok.inj ht
      intro type l' hl'
      by_cases heq : type = c.1
      · rw [heq, OrderedMap.get?_insert_self] at hl'
        obtain rfl := Option.some.inj hl'
        exact (h.start hl).foldl_addSymbol _
      · rw [OrderedMap.get?_insert_of_ne _ _ heq] at hl'
        exact h type l' hl'

theorem FieldsPastTables.foldlM_addClass {classes : List (TypeId × String)} {table' : LayoutTable}
    (h : FieldsPastTables table)
    (hfold : classes.foldlM (LayoutTable.addClass types scopes) table = .ok table') :
    FieldsPastTables table' := by
  induction classes generalizing table with
  | nil => exact Except.ok.inj hfold ▸ h
  | cons c classes ih =>
    rw [List.foldlM_cons] at hfold
    cases hadd : LayoutTable.addClass types scopes table c with
    | error e => simp [hadd, bind, Except.bind] at hfold
    | ok next =>
      rw [hadd] at hfold
      exact ih (h.addClass hadd) hfold

theorem fieldsPastTables_of_build (h : build types scopes = .ok table) :
    FieldsPastTables table := by
  have hempty : FieldsPastTables .empty := by
    intro _ _ hl
    simp [OrderedMap.get?, OrderedMap.empty] at hl
  exact hempty.foldlM_addClass h

end LayoutTable

/-! ## The code of a body -/

/-- What lowering relies on: the program is accepted, the method is one of a class of it, and no
    field lies where the dispatch table does. -/
structure LowerEnv.Sound (env : LowerEnv) (p : Program) : Prop where
  accepts : env.context.Accepts p
  type : ∃ i k, p.classes[i]? = some k ∧ env.type = classId i
  offset : ∀ type name n, env.HasOffset type name n → n ≠ 0

namespace Lowering

open Code

variable {env : LowerEnv} {p : Program}

variable {s s' s₁ : Supply} {type : TypeId} {callee : Callee}

theorem ne_field_of_literalOperand {value : Literal} {o : Operand}
    (h : literalOperand value s = .ok o s') (base : Nat) : o ≠ .field base 0 := by
  have hlit : Meets CompileError.Any (literalOperand value) s fun o _ => o ≠ .field base 0 := by
    unfold literalOperand
    split
    · simp
    · rw [meets_bind]
      exact meets_any fun _ _ _ => by simp
    all_goals simp
  exact hlit.of_ok h

theorem receiver_ne_field (base offset : Nat) : Operand.receiver ≠ .field base offset := by
  simp [Operand.receiver]

theorem slot_ne_field (scope : ScopeId) (name : String) (base offset : Nat) :
    env.slot scope name ≠ .field base offset := by
  simp [LowerEnv.slot]

theorem indexCode_ne_field (rightFirst : Bool) (left right : Code × Operand) (d base offset : Nat) :
    (indexCode rightFirst left right d).2 ≠ .field base offset := by
  cases rightFirst <;> simp [indexCode]

/-- No operand is the place of a dispatch table. -/
theorem Lowered.ne_field (h : env.Sound p) {e : Expr} {d : Nat} {s s' : Supply}
    {r : Code × Operand} (hr : Lowered env e d s r s') (base : Nat) : r.2 ≠ .field base 0 := by
  match hr with
  | .literal hv => exact ne_field_of_literalOperand hv base
  | .ownField _ ho =>
    intro heq
    exact h.offset _ _ _ ho (Operand.field.inj heq).2
  | .field _ _ ho =>
    intro heq
    exact h.offset _ _ _ ho (Operand.field.inj heq).2
  | .index _ => exact indexCode_ne_field _ _ _ d base 0
  | .paren hinner => exact hinner.ne_field h base
  | .var _ => exact slot_ne_field _ _ base 0
  | .this => exact receiver_ne_field base 0
  | .staticCall .. | .ownStatic .. | .ownVirtual .. | .methodCall .. | .newObject ..
  | .newArray .. | .length .. | .logic .. | .compare .. | .arith .. | .unary .. =>
    exact Operand.r_ne_field _ base 0

variable {ref : Reference}

/-- A static call refers to the method that it reaches, unless that is a library routine. -/
theorem reference?_staticCallLine_iff (h : env.Sound p) {name : String} {d : Nat} {s₂ s₃ : Supply}
    {line : Line} (hclass : ∃ i k, p.classes[i]? = some k ∧ type = classId i)
    (hcallee : env.callee type name s = .ok callee s₁)
    (hline : env.staticCallLine callee name d s₂ = .ok line s₃) :
    line.reference? = some ref ↔ ∃ owner m, env.context.definition.Reaches type name owner m ∧
      m.kind ≠ .library ∧ ref = .call (methodLabel owner.name.name name) := by
  obtain ⟨i, k, hi, rfl⟩ := hclass
  obtain ⟨owner, m, hcalls⟩ := LowerEnv.callsMethod_of_callee h.accepts hi hcallee
  rw [reference?_staticCallLine hline, hcalls.kind, hcalls.label]
  constructor
  · intro href
    split at href
    · cases href
    · next hkind => exact ⟨owner, m, hcalls.reaches, hkind, (Option.some.inj href).symm⟩
  · intro href
    obtain ⟨owner', m', hreaches, hkind, rfl⟩ := href
    obtain ⟨rfl, rfl⟩ := hcalls.reaches.unique hreaches
    rw [if_neg hkind]

/-- The kind of the method that a call reaches. -/
theorem kind_of_reaches (h : env.Sound p) {name : String}
    (hclass : ∃ i k, p.classes[i]? = some k ∧ type = classId i)
    (hcallee : env.callee type name s = .ok callee s₁) {owner : ClassDecl} {m : MethodDecl}
    (hreaches : env.context.definition.Reaches type name owner m) : callee.kind = m.kind := by
  obtain ⟨i, k, hi, rfl⟩ := hclass
  obtain ⟨owner', m', hcalls⟩ := LowerEnv.callsMethod_of_callee h.accepts hi hcallee
  obtain ⟨_, rfl⟩ := hcalls.reaches.unique hreaches
  exact hcalls.kind

theorem dispatchLabel_eq (h : env.Sound p) {className : Ident} {layout : ClassLayout}
    (hc : env.context.types.class? className.name = some type)
    (hl : env.context.layouts.get? type = some layout) :
    layout.dispatchLabel = ClassLayout.tableLabel className.name := by
  obtain ⟨i, k, hi, rfl, hname⟩ := h.accepts.defined.table.of_class? hc
  obtain ⟨scope, parent, hclass⟩ := h.accepts.defined.classOf i k hi
  obtain ⟨l, hl', hof⟩ := h.accepts.exists_layout hi hclass
  obtain rfl : l = layout := Option.some.inj (hl'.symm.trans hl)
  rw [← hname, ← hof.name]
  rfl

/-- Only additions join strings. -/
theorem isConcat_eq_false {op : ArithOp} {left : Expr} {isConcat : Bool}
    (h : env.isConcat (.arith op) left s = .ok isConcat s') (hop : op.divides = true) :
    isConcat = false := by
  cases op with
  | add => simp [ArithOp.divides] at hop
  | sub => exact (EStateM.Result.ok.inj h).1.symm
  | mul => exact (EStateM.Result.ok.inj h).1.symm
  | div => exact (EStateM.Result.ok.inj h).1.symm
  | mod => exact (EStateM.Result.ok.inj h).1.symm

/-- A call of an own method refers to it if it is static. -/
theorem refersTo_ownCall (h : env.Sound p) {node : Node} {method : Ident} {args : List Expr}
    (hcallee : env.callee env.type method.name s = .ok callee s₁) :
    RefersTo env.context env.type ref (.ownCall node method args) ↔
      callee.kind.isStatic = true ∧ ∃ owner m,
        env.context.definition.Reaches env.type method.name owner m ∧ m.kind ≠ .library ∧
          ref = .call (methodLabel owner.name.name method.name) := by
  have hkinds : ∀ kind : MethodKind, kind = .static ↔ kind.isStatic = true ∧ kind ≠ .library := by
    intro kind
    cases kind <;> simp [MethodKind.isStatic]
  unfold RefersTo
  constructor
  · intro href
    obtain ⟨owner, m, hreaches, hkind, rfl⟩ := href
    obtain ⟨hstatic, hlibrary⟩ := (hkinds m.kind).mp hkind
    rw [← kind_of_reaches h h.type hcallee hreaches] at hstatic
    exact ⟨hstatic, owner, m, hreaches, hlibrary, rfl⟩
  · intro href
    obtain ⟨hstatic, owner, m, hreaches, hlibrary, rfl⟩ := href
    rw [kind_of_reaches h h.type hcallee hreaches] at hstatic
    exact ⟨owner, m, hreaches, (hkinds m.kind).mpr ⟨hstatic, hlibrary⟩, rfl⟩

/-- The lines that refer to `ref` come from the nodes that do. -/
def referenceMarking (h : env.Sound p) (ref : Reference) : Marking env where
  line l := l.reference? = some ref
  operand _ := False
  node := RefersTo env.context env.type ref
  r _ := not_false
  int _ := not_false
  label _ := by simp [Line.reference?]
  jump _ _ _ _ := by simp [Line.reference?, jumpLine]
  load o n := by simp [Line.reference?_move fun base => Operand.r_ne_field n base 0]
  compare _ _ _ := by simp [Line.reference?]
  arith _ _ _ _ := by simp [Line.reference?]
  ret _ _ := by simp [Line.reference?]
  storeSlot _ scope name _ _ := by
    have hslot : ∀ base, env.slot scope name ≠ .field base 0 := fun base =>
      slot_ne_field scope name base 0
    simp [Line.reference?_move hslot]
  store _ _ _ _ _ _ _ _ hr _ := by simp [Line.reference?_move (hr.ne_field h)]
  own e lines os howned := by
    have hguard (g : Guard) (registers : List Nat) :
        (g.call registers).reference? = some (.call g.routine) := rfl
    have hreceiver (n : Nat) : (Line.instr (.move .receiver (.r n))).reference? = none :=
      Line.reference?_move fun base => Operand.r_ne_field n base 0
    cases howned with
    | literal | var | this | logic | compare | paren => simp [RefersTo]
    | ownField => simp [RefersTo, hreceiver]
    | field | index => simp [RefersTo, hguard, eq_comm]
    | staticCall hc hcallee hline =>
      obtain ⟨i, k, hi, htype, _⟩ := h.accepts.defined.table.of_class? hc
      simp [RefersTo, hc, reference?_staticCallLine_iff h ⟨i, k, hi, htype⟩ hcallee hline]
    | ownStatic hcallee hstatic hline =>
      simp [refersTo_ownCall h hcallee, hstatic,
        reference?_staticCallLine_iff h h.type hcallee hline]
    | ownVirtual hcallee hvirtual hline =>
      simp [refersTo_ownCall h hcallee, hvirtual, hreceiver, reference?_virtualCallLine hline]
    | methodCall _ _ hline =>
      simp [RefersTo, hguard, reference?_virtualCallLine hline, eq_comm]
    | newObject hc hl =>
      simp [RefersTo, libraryCall, Line.reference?, dispatchLabel_eq h hc hl, eq_comm]
    | newArray | length => simp [RefersTo, Guard.call, libraryCall, Line.reference?, eq_comm]
    | concat hconcat =>
      have hop := mt (isConcat_eq_false hconcat) (by decide)
      simp [RefersTo, libraryCall, Line.reference?, hop]
    | @arith _ op =>
      cases hop : op.divides <;> simp [RefersTo, hguard, hop, eq_comm]
    | @unary _ op => cases op <;> simp [RefersTo, unaryCode, Line.reference?]

theorem LoweredStmts.mem_references (h : env.Sound p) {loops : Loops} {scope : ScopeId}
    {stmts : List Stmt} {code : Code} (hformed : ∀ x ∈ Stmt.nodesOfList stmts, x.isFormed = true)
    (hs : LoweredStmts env loops scope stmts s code s') :
    ref ∈ references code ↔ Mentions env.context env.type ref (Stmt.exprsOfList stmts) := by
  rw [references, List.mem_filterMap]
  exact hs.marked_iff_of_slots (referenceMarking h ref) (fun _ _ => not_false) hformed

end Lowering

end IcLir
