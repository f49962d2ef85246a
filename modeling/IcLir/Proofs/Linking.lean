import IcLir.Proofs.ProgramCode
import IcLir.Proofs.References

/-
  Whether everything that the code of a program refers to is defined in its text. A static call
  names the class and the method that it reaches, and the code of that method stands under this
  label, except that of the entry method, which has a label of its own. A new object takes the
  dispatch table of its class, and every class has one, except those of library methods only. So
  a program links exactly if it keeps clear of the two exceptions.
-/

namespace IcLir

open Pass Definition TypeTable Lowering

variable {p : Program} {c : Context} {strategy : Strategy} {a : Assembly} {ref : Reference}

/-! ## References of the whole text -/

theorem Code.references_flatMap {α : Type} (f : α → Code) (l : List α) :
    references (l.flatMap f) = l.flatMap fun x => references (f x) :=
  List.filterMap_flatMap ..

/-- The guard routines refer to nothing. -/
theorem Assembly.references_code (a : Assembly) :
    a.code.references = a.routines.flatMap fun r => r.body.references := by
  have hguards : Code.references (Guard.all.flatMap Guard.code) = [] := rfl
  rw [code_eq, Code.references_append, Code.references_append, hguards, Code.references_flatMap]
  exact List.append_nil _

theorem fieldsPastTables_of_analyzed {options : Options} (h : analyzed options p = .ok c) :
    LayoutTable.FieldsPastTables c.layouts := by
  obtain ⟨_, c₂, _, _, hlayOut⟩ := exists_stages_of_analyzed h
  obtain ⟨layouts, hbuild, rfl⟩ := layOut_eq_ok_iff.mp hlayOut
  exact LayoutTable.fieldsPastTables_of_build hbuild

/-- A body of the program, in the class `type`, has the node `x`. -/
def Context.Holds (c : Context) (p : Program) (type : TypeId) (x : Expr) : Prop :=
  ∃ k ∈ p.classes, ∃ m ∈ k.methods, m.kind ≠ .library ∧
    c.types.class? k.name.name = some type ∧ x ∈ Stmt.exprsOfList m.body

theorem Context.Holds.exists_class (h : c.Accepts p) {type : TypeId} {x : Expr}
    (hx : c.Holds p type x) : ∃ i k, p.classes[i]? = some k ∧ type = classId i := by
  obtain ⟨_, _, _, _, _, htype, _⟩ := hx
  obtain ⟨i, k, hi, htype, _⟩ := h.defined.table.of_class? htype
  exact ⟨i, k, hi, htype⟩

/-- The statements of an accepted program have the right parts. -/
theorem Context.Accepts.isFormed_of_mem_nodes (h : c.Accepts p) {e : ClassDecl × MethodDecl}
    (he : e ∈ emitted p) {x : Stmt} (hx : x ∈ Stmt.nodesOfList e.2.body) : x.isFormed = true := by
  obtain ⟨hk, hm, hkind⟩ := mem_emitted.mp he
  obtain ⟨i, hi⟩ := List.mem_iff_getElem?.mp hk
  obtain ⟨_, _, _, _, _, _, htyped⟩ := h.typed i e.1 hi e.2 hm hkind
  exact htyped.isFormed_of_mem_nodes hx

theorem Lowering.LoweredMethod.mem_references (h : c.Accepts p)
    (hfields : LayoutTable.FieldsPastTables c.layouts) {e : ClassDecl × MethodDecl}
    (he : e ∈ emitted p) {s s' : Supply} {r : Routine} (hr : LoweredMethod c strategy e s r s') :
    ref ∈ r.body.references ↔ ∃ type, c.types.class? e.1.name.name = some type ∧
      Mentions c type ref (Stmt.exprsOfList e.2.body) := by
  obtain ⟨type, scope, code, htype, _, hcode, hbody⟩ := hr.body
  obtain ⟨i, k, hi, hid, _⟩ := h.defined.table.of_class? htype
  have hsound : LowerEnv.Sound ⟨c, strategy, type⟩ p := by
    refine ⟨h, ⟨i, k, hi, hid⟩, fun t name n hn => ?_⟩
    obtain ⟨l, hl, hoffset⟩ := hn
    exact hfields t l hl name n hoffset
  have hreturn : Code.references (if needsReturn e.2 then [Code.returnNothing] else []) = [] := by
    split <;> rfl
  rw [hbody, Code.references_append, hreturn, List.append_nil,
    hcode.mem_references hsound fun _ => h.isFormed_of_mem_nodes he]
  simp [htype]

/-- The text refers to what the nodes of its bodies refer to. -/
theorem Lowering.Assembled.mem_references (ha : Assembled c strategy p a) (h : c.Accepts p)
    (hfields : LayoutTable.FieldsPastTables c.layouts) :
    ref ∈ a.code.references ↔ ∃ type x, c.Holds p type x ∧ RefersTo c type ref x := by
  rw [Assembly.references_code, List.mem_flatMap]
  constructor
  · intro href
    obtain ⟨r, hr, href⟩ := href
    obtain ⟨e, he, _, _, hlowered⟩ := ha.exists_of_mem_routines hr
    obtain ⟨type, htype, x, hx, hrefers⟩ := (hlowered.mem_references h hfields he).mp href
    obtain ⟨hk, hm, hkind⟩ := mem_emitted.mp he
    exact ⟨type, x, ⟨e.1, hk, e.2, hm, hkind, htype, hx⟩, hrefers⟩
  · intro href
    obtain ⟨type, x, ⟨k, hk, m, hm, hkind, htype, hx⟩, hrefers⟩ := href
    have he : (k, m) ∈ emitted p := mem_emitted.mpr ⟨hk, hm, hkind⟩
    obtain ⟨r, hr, _, _, hlowered⟩ := ha.exists_routine he
    exact ⟨r, hr, (hlowered.mem_references h hfields he).mpr ⟨type, htype, x, hx, hrefers⟩⟩

/-! ## Calls -/

/-- The expression calls method `m` of class `owner`, without an object. -/
inductive Context.Calls (c : Context) (type : TypeId) : Expr → ClassDecl → MethodDecl → Prop where
  | ofClass {node : Node} {className method : Ident} {args : List Expr} {t : TypeId}
      {owner : ClassDecl} {m : MethodDecl} :
    c.types.class? className.name = some t → c.definition.Reaches t method.name owner m →
    Calls c type (.staticCall node className method args) owner m
  | ofOwn {node : Node} {method : Ident} {args : List Expr} {owner : ClassDecl} {m : MethodDecl} :
    c.definition.Reaches type method.name owner m →
    Calls c type (.ownCall node method args) owner m

theorem Context.Calls.mem {type : TypeId} (h : c.Accepts p)
    (htype : ∃ i k, p.classes[i]? = some k ∧ type = classId i) {x : Expr} {owner : ClassDecl}
    {m : MethodDecl} (hx : c.Calls type x owner m) : owner ∈ p.classes ∧ m ∈ owner.methods := by
  cases hx with
  | ofClass ht hreaches =>
    obtain ⟨j, k, hj, rfl, _⟩ := h.defined.table.of_class? ht
    exact ⟨hreaches.owner_mem h.defined hj, hreaches.name_eq.1⟩
  | ofOwn hreaches =>
    obtain ⟨i, k, hi, rfl⟩ := htype
    exact ⟨hreaches.owner_mem h.defined hi, hreaches.name_eq.1⟩

/-- A static method that is called is referred to by its class and name. -/
theorem Context.Calls.refersTo {type : TypeId} {x : Expr} {owner : ClassDecl} {m : MethodDecl}
    (hx : c.Calls type x owner m) (hkind : m.kind = .static) :
    RefersTo c type (.call (methodLabel owner.name.name m.name.name)) x := by
  cases hx with
  | ofClass ht hreaches =>
    refine ⟨_, owner, m, ht, hreaches, by rw [hkind]; decide, ?_⟩
    rw [hreaches.name_eq.2]
  | ofOwn hreaches =>
    refine ⟨owner, m, hreaches, hkind, ?_⟩
    rw [hreaches.name_eq.2]

/-- A call goes to a guard, or to a method by its class and name. -/
theorem exists_calls_of_refersTo {type : TypeId} {x : Expr} {label : String}
    (hx : RefersTo c type (.call label) x) :
    (∃ g : Guard, label = g.routine) ∨ ∃ owner m, c.Calls type x owner m ∧ m.kind ≠ .library ∧
      label = methodLabel owner.name.name m.name.name := by
  unfold RefersTo at hx
  split at hx
  · exact .inl ⟨_, Reference.call.inj hx⟩
  · exact .inl ⟨_, Reference.call.inj hx⟩
  · exact .inl ⟨_, Reference.call.inj hx⟩
  · rcases hx with hx | hx
    · exact .inl ⟨_, Reference.call.inj hx⟩
    · exact .inl ⟨_, Reference.call.inj hx⟩
  · exact .inl ⟨_, Reference.call.inj hx⟩
  · exact .inl ⟨_, Reference.call.inj hx.2⟩
  · obtain ⟨t, owner, m, ht, hreaches, hkind, heq⟩ := hx
    refine .inr ⟨owner, m, .ofClass ht hreaches, hkind, ?_⟩
    rw [hreaches.name_eq.2]
    exact Reference.call.inj heq
  · obtain ⟨owner, m, hreaches, hkind, heq⟩ := hx
    refine .inr ⟨owner, m, .ofOwn hreaches, by rw [hkind]; decide, ?_⟩
    rw [hreaches.name_eq.2]
    exact Reference.call.inj heq
  · simp at hx
  all_goals exact hx.elim

/-- Some body calls the entry method. -/
def Context.CallsEntry (c : Context) (p : Program) : Prop :=
  ∃ type x owner m, c.Holds p type x ∧ c.Calls type x owner m ∧ c.isEntry m = true

/-- The labels of routines: those of the guards and those of the methods. -/
def Assembly.bodyLabels (a : Assembly) : List String :=
  Guard.all.map Guard.routine ++ a.routines.map (·.label)

theorem Guard.routine_mem_all (g : Guard) : g.routine ∈ Guard.all.map Guard.routine := by
  cases g <;> decide

/-- The entry method of an accepted program. -/
theorem Context.Accepts.exists_entry (h : c.Accepts p) :
    ∃ k ∈ p.classes, ∃ m ∈ k.methods, c.isEntry m = true ∧ m.kind = .static := by
  obtain ⟨e, he, k, hk, hm, hstatic⟩ := h.entry
  exact ⟨k, hk, e.method, hm, by simp [Context.isEntry, he], hstatic⟩

/-- There is one entry method. -/
theorem eq_of_isEntry (hp : p.DistinctNodes) {e e' : ClassDecl × MethodDecl}
    (hk : e.1 ∈ p.classes) (hm : e.2 ∈ e.1.methods) (hk' : e'.1 ∈ p.classes)
    (hm' : e'.2 ∈ e'.1.methods) (hentry : c.isEntry e.2 = true)
    (hentry' : c.isEntry e'.2 = true) : e = e' := by
  refine eq_of_id_eq hp hk hm hk' hm' ?_
  unfold Context.isEntry at hentry hentry'
  cases hc : c.entry with
  | none => simp [hc] at hentry
  | some entry => simp_all

/-- Only a call of the entry method can miss its target. -/
theorem Lowering.Assembled.callsEntry_of_not_mem (ha : Assembled c strategy p a)
    (h : c.Accepts p) (hfields : LayoutTable.FieldsPastTables c.layouts) {label : String}
    (href : .call label ∈ a.code.references) (hlabel : label ∉ a.bodyLabels) :
    c.CallsEntry p ∧ ∃ k ∈ p.classes, ∃ m ∈ k.methods, c.isEntry m = true ∧
      label = methodLabel k.name.name m.name.name := by
  rw [Assembly.bodyLabels, List.mem_append, not_or, ha.mem_labels_routines] at hlabel
  obtain ⟨type, x, hx, hrefers⟩ := (ha.mem_references h hfields).mp href
  rcases exists_calls_of_refersTo hrefers with ⟨g, rfl⟩ | ⟨owner, m, hcalls, hkind, rfl⟩
  · exact absurd g.routine_mem_all hlabel.1
  · obtain ⟨howner, hm⟩ := hcalls.mem h (hx.exists_class h)
    cases hentry : c.isEntry m with
    | true => exact ⟨⟨type, x, owner, m, hx, hcalls, hentry⟩, owner, howner, m, hm, hentry, rfl⟩
    | false =>
      refine absurd ⟨(owner, m), mem_emitted.mpr ⟨howner, hm, hkind⟩, ?_⟩ hlabel.2
      rw [routineLabel, if_neg (by simp [hentry])]

/-- Every static call of a program has its target in the text, unless some body calls the entry
    method and the name of that method is not by chance the label of another one. -/
theorem call_targets_have_bodies_iff {p : Program} (hp : p.DistinctNodes) {options : Options}
    {r : Compilation} (h : compile options p = .ok r) :
    ∃ c a k m, analyzed options p = .ok c ∧ c.generate options.strategy p = .ok a ∧
      r.lir = String.join (a.parts.map Part.text) ∧
      k ∈ p.classes ∧ m ∈ k.methods ∧ c.isEntry m = true ∧
      (∀ label, .call label ∈ a.code.references → label ∉ a.bodyLabels →
        c.CallsEntry p ∧ label = methodLabel k.name.name m.name.name) ∧
      ((∀ label, .call label ∈ a.code.references → label ∈ a.bodyLabels) ↔
        (c.CallsEntry p → methodLabel k.name.name m.name.name ∈ a.bodyLabels)) := by
  obtain ⟨c, a, hc, hgenerate, hlir⟩ := exists_generate_of_compile h
  have haccepts := accepts_of_analyzed hp hc
  have ha := haccepts.assembled hp hgenerate
  have hfields := fieldsPastTables_of_analyzed hc
  obtain ⟨k, hk, m, hm, hentry, hstatic⟩ := haccepts.exists_entry
  have hunique : ∀ k' m', k' ∈ p.classes → m' ∈ k'.methods → c.isEntry m' = true →
      (k', m') = (k, m) := fun k' m' hk' hm' hentry' =>
    eq_of_isEntry hp hk' hm' hk hm hentry' hentry
  have hmissing : ∀ label, .call label ∈ a.code.references → label ∉ a.bodyLabels →
      c.CallsEntry p ∧ label = methodLabel k.name.name m.name.name := by
    intro label href hlabel
    obtain ⟨hcalls, k', hk', m', hm', hentry', rfl⟩ :=
      ha.callsEntry_of_not_mem haccepts hfields href hlabel
    obtain ⟨rfl, rfl⟩ := Prod.mk.inj (hunique k' m' hk' hm' hentry')
    exact ⟨hcalls, rfl⟩
  refine ⟨c, a, k, m, hc, hgenerate, hlir.trans a.render_eq, hk, hm, hentry, hmissing, ?_, ?_⟩
  · intro hall hcalls
    obtain ⟨type, x, owner, m', hx, hcall, hentry'⟩ := hcalls
    obtain ⟨howner, hm'⟩ := hcall.mem haccepts (hx.exists_class haccepts)
    obtain ⟨rfl, rfl⟩ := Prod.mk.inj (hunique owner m' howner hm' hentry')
    refine hall _ ((ha.mem_references haccepts hfields).mpr ⟨type, x, hx, ?_⟩)
    exact hcall.refersTo hstatic
  · intro hcalls label href
    by_cases hlabel : label ∈ a.bodyLabels
    · exact hlabel
    · obtain ⟨hentry', rfl⟩ := hmissing label href hlabel
      exact hcalls hentry'

/-- All targets in `Shapes` have bodies. The entry method by its class and name is none of them,
    so no body calls it. -/
theorem call_targets_have_bodies_iff_shapes :
    ∃ r c a, compile {} Shapes.program = .ok r ∧ analyzed {} Shapes.program = .ok c ∧
      c.generate .baseline Shapes.program = .ok a ∧
      .call "_Square_halvings" ∈ a.code.references ∧ "_Square_main" ∉ a.bodyLabels ∧
      ¬ c.CallsEntry Shapes.program := by
  have hlinks : (assembled? {} Shapes.program).any (fun x => decide (
      Reference.call "_Square_halvings" ∈ x.2.code.references ∧ "_Square_main" ∉ x.2.bodyLabels ∧
      x.2.code.references ⊆ Reference.table "_DV_Square" :: x.2.bodyLabels.map Reference.call ∧
      ∀ k ∈ Shapes.program.classes, ∀ m ∈ k.methods, x.1.isEntry m = true →
        methodLabel k.name.name m.name.name = "_Square_main")) = true := by
    decide +kernel
  obtain ⟨r, c, a, hr, hc, ha, _, hlinks⟩ := exists_compile_of_any hlinks
  obtain ⟨hcall, hmain, hall, hentry⟩ := of_decide_eq_true hlinks
  obtain ⟨c', a', k, m, hc', ha', _, hk, hm, hkm, _, hiff⟩ :=
    call_targets_have_bodies_iff Shapes.distinctNodes hr
  obtain ⟨rfl, rfl⟩ := assembled_unique hc ha hc' ha'
  refine ⟨r, c, a, hr, hc, ha, hcall, hmain, fun hcalls => hmain ?_⟩
  rw [← hentry k hk m hm hkm]
  refine hiff.mp (fun label href => ?_) hcalls
  simpa using hall href

namespace SelfCall

open Shapes

/-- `static void main(string[] args) { Main.main(args); }` -/
def main : MethodDecl := mainOf 0 [.call (node 0) (.staticCall (node 0) (name "Main") (name "main")
  [.var (node 1) (name "args")])]

/-- A program whose entry method calls itself. -/
def program : Program := ⟨[⟨name "Main", none, [], [main]⟩]⟩

end SelfCall

/-- The code of the entry method does not stand under the label that its call names. -/
theorem entry_call_has_no_body :
    ∃ r c a, compile {} SelfCall.program = .ok r ∧ analyzed {} SelfCall.program = .ok c ∧
      c.generate .baseline SelfCall.program = .ok a ∧
      r.lir = String.join (a.parts.map Part.text) ∧
      .call "_Main_main" ∈ a.code.references ∧ "_Main_main" ∉ a.bodyLabels := by
  have hcall : (assembled? {} SelfCall.program).any (fun x => decide (
      Reference.call "_Main_main" ∈ x.2.code.references ∧
        "_Main_main" ∉ x.2.bodyLabels)) = true := by
    decide +kernel
  obtain ⟨r, c, a, hr, hc, ha, hlir, hcall⟩ := exists_compile_of_any hcall
  exact ⟨r, c, a, hr, hc, ha, hlir.trans a.render_eq, of_decide_eq_true hcall⟩

/-! ## Dispatch tables -/

/-- Some body creates an object of the class `name`. -/
def Program.Instantiates (p : Program) (name : String) : Prop :=
  ∃ k ∈ p.classes, ∃ m ∈ k.methods, m.kind ≠ .library ∧
    ∃ node className, Expr.newObject node className ∈ Stmt.exprsOfList m.body ∧
      className.name = name

/-- Only classes of the program have objects. -/
theorem Context.Accepts.exists_class_of_instantiates (h : c.Accepts p) {name : String}
    (hname : p.Instantiates name) : ∃ k ∈ p.classes, k.name.name = name := by
  obtain ⟨k, hk, m, hm, hkind, node, className, hx, rfl⟩ := hname
  obtain ⟨i, hi⟩ := List.mem_iff_getElem?.mp hk
  obtain ⟨_, _, _, _, _, _, hbody⟩ := h.typed i k hi m hm hkind
  obtain ⟨type, htype⟩ := hbody.exists_hasType hx
  cases htype with
  | newObject hc _ =>
    obtain ⟨j, k', hj, _, hname⟩ := h.defined.table.of_class? hc
    exact ⟨k', List.mem_of_getElem? hj, hname⟩

/-- New objects take the tables of their classes. -/
theorem Lowering.Assembled.mem_references_table (ha : Assembled c strategy p a)
    (h : c.Accepts p) (hfields : LayoutTable.FieldsPastTables c.layouts) {label : String} :
    .table label ∈ a.code.references ↔
      ∃ k ∈ p.classes, p.Instantiates k.name.name ∧ label = ClassLayout.tableLabel k.name.name := by
  rw [ha.mem_references h hfields]
  constructor
  · intro href
    obtain ⟨type, x, ⟨k, hk, m, hm, hkind, _, hx⟩, hrefers⟩ := href
    unfold RefersTo at hrefers
    split at hrefers
    all_goals simp at hrefers
    subst hrefers
    next node className =>
      have hname : p.Instantiates className.name := ⟨k, hk, m, hm, hkind, node, className, hx, rfl⟩
      obtain ⟨k', hk', hname'⟩ := h.exists_class_of_instantiates hname
      exact ⟨k', hk', hname' ▸ hname, by rw [hname']⟩
  · intro href
    obtain ⟨k, _, ⟨k', hk', m, hm, hkind, node, className, hx, hname⟩, rfl⟩ := href
    obtain ⟨i, hi⟩ := List.mem_iff_getElem?.mp hk'
    refine ⟨classId i, .newObject node className,
      ⟨k', hk', m, hm, hkind, h.defined.table.class? i k' hi, hx⟩, ?_⟩
    rw [← hname]
    rfl

theorem ClassLayout.tableLabel_inj {name name' : String} (h : tableLabel name = tableLabel name') :
    name = name' := (String.append_right_inj _).mp h

/-- The tables are those of the classes that have a method with code. -/
theorem Lowering.Assembled.mem_tables (ha : Assembled c strategy p a) (h : c.Accepts p)
    {k : ClassDecl} (hk : k ∈ p.classes) :
    ClassLayout.tableLabel k.name.name ∈ a.tables.map (·.label) ↔ k.isLibrary = false := by
  rw [ha.tables, List.mem_map]
  constructor
  · intro hlabel
    obtain ⟨k', hk', hlabel⟩ := hlabel
    obtain ⟨hmem, hlibrary⟩ := List.mem_filter.mp hk'
    obtain ⟨i, hi⟩ := List.mem_iff_getElem?.mp hk
    obtain ⟨j, hj⟩ := List.mem_iff_getElem?.mp hmem
    obtain rfl := h.defined.table.index_unique hj hi (ClassLayout.tableLabel_inj hlabel)
    obtain rfl : k' = k := Option.some.inj (hj.symm.trans hi)
    simpa using hlibrary
  · intro hlibrary
    exact ⟨k, List.mem_filter.mpr ⟨hk, by simp [hlibrary]⟩, rfl⟩

/-- Every dispatch table that is stored in a new object is declared in the text, unless the
    object is one of a class of library methods only. -/
theorem stored_tables_are_declared_iff {p : Program} (hp : p.DistinctNodes) {options : Options}
    {r : Compilation} (h : compile options p = .ok r) :
    ∃ c a, analyzed options p = .ok c ∧ c.generate options.strategy p = .ok a ∧
      r.lir = String.join (a.parts.map Part.text) ∧
      (∀ label, .table label ∈ a.code.references ↔ ∃ k ∈ p.classes,
        p.Instantiates k.name.name ∧ label = ClassLayout.tableLabel k.name.name) ∧
      (∀ k ∈ p.classes, ClassLayout.tableLabel k.name.name ∈ a.tables.map (·.label) ↔
        k.isLibrary = false) ∧
      ((∀ label, .table label ∈ a.code.references → label ∈ a.tables.map (·.label)) ↔
        ∀ k ∈ p.classes, p.Instantiates k.name.name → k.isLibrary = false) := by
  obtain ⟨c, a, hc, hgenerate, hlir⟩ := exists_generate_of_compile h
  have haccepts := accepts_of_analyzed hp hc
  have ha := haccepts.assembled hp hgenerate
  have hstored : ∀ label, .table label ∈ a.code.references ↔ ∃ k ∈ p.classes,
      p.Instantiates k.name.name ∧ label = ClassLayout.tableLabel k.name.name := fun label =>
    ha.mem_references_table haccepts (fieldsPastTables_of_analyzed hc)
  have hdeclared : ∀ k ∈ p.classes, ClassLayout.tableLabel k.name.name ∈ a.tables.map (·.label) ↔
      k.isLibrary = false := fun k hk => ha.mem_tables haccepts hk
  refine ⟨c, a, hc, hgenerate, hlir.trans a.render_eq, hstored, hdeclared, ?_, ?_⟩
  · intro hall k hk hnew
    exact (hdeclared k hk).mp (hall _ ((hstored _).mpr ⟨k, hk, hnew, rfl⟩))
  · intro hall label hlabel
    obtain ⟨k, hk, hnew, rfl⟩ := (hstored label).mp hlabel
    exact (hdeclared k hk).mpr (hall k hk hnew)

/-- No class of `Shapes` is one of library methods only. -/
theorem stored_tables_are_declared_iff_shapes :
    ∃ r c a, compile {} Shapes.program = .ok r ∧ analyzed {} Shapes.program = .ok c ∧
      c.generate .baseline Shapes.program = .ok a ∧ .table "_DV_Square" ∈ a.code.references ∧
      ∀ label, .table label ∈ a.code.references → label ∈ a.tables.map (·.label) := by
  have hstores : (assembled? {} Shapes.program).any (fun x =>
      decide (Reference.table "_DV_Square" ∈ x.2.code.references)) = true := by
    decide +kernel
  obtain ⟨r, c, a, hr, hc, ha, _, hstores⟩ := exists_compile_of_any hstores
  obtain ⟨c', a', hc', ha', _, _, _, hiff⟩ :=
    stored_tables_are_declared_iff Shapes.distinctNodes hr
  obtain ⟨rfl, rfl⟩ := assembled_unique hc ha hc' ha'
  have hclasses : ∀ k ∈ Shapes.program.classes, k.isLibrary = false := by decide
  exact ⟨r, c, a, hr, hc, ha, of_decide_eq_true hstores,
    hiff.mpr fun k hk _ => hclasses k hk⟩

namespace LibraryObject

open Shapes

/-- `library void println(string s);` -/
def println : MethodDecl where
  id := 0
  kind := .library
  returnType := type .void
  name := name "println"
  params := [⟨type .string, name "s"⟩]
  body := []

/-- `static void main(string[] args) { Library l = new Library(); }` -/
def main : MethodDecl := mainOf 1 [.declare (node 0) (type (.named "Library")) (name "l")
  (some (.newObject (node 0) (name "Library")))]

/-- A program with an object of a library class. -/
def program : Program :=
  ⟨[⟨name "Library", none, [], [println]⟩, ⟨name "Main", none, [], [main]⟩]⟩

end LibraryObject

/-- The object takes a table that is nowhere declared. -/
theorem library_object_has_no_table :
    ∃ r c a, compile {} LibraryObject.program = .ok r ∧
      analyzed {} LibraryObject.program = .ok c ∧
      c.generate .baseline LibraryObject.program = .ok a ∧
      r.lir = String.join (a.parts.map Part.text) ∧
      .table "_DV_Library" ∈ a.code.references ∧ "_DV_Library" ∉ a.tables.map (·.label) := by
  have hstores : (assembled? {} LibraryObject.program).any (fun x => decide (
      Reference.table "_DV_Library" ∈ x.2.code.references ∧
        "_DV_Library" ∉ x.2.tables.map DispatchTable.label)) = true := by
    decide +kernel
  obtain ⟨r, c, a, hr, hc, ha, hlir, hstores⟩ := exists_compile_of_any hstores
  exact ⟨r, c, a, hr, hc, ha, hlir.trans a.render_eq, of_decide_eq_true hstores⟩

end IcLir
