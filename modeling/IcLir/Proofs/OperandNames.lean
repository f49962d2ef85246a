import IcLir.Proofs.SourceCalls
import IcLir.Proofs.Linking
import IcLir.Proofs.VariableSlots

/-
  The names of slots, next to those of registers and string literals. The code names the slots of
  the variables that are used by the nodes of its bodies and of the locals that are given initial
  values (`Assembled.mem_slots`); all other names of slots are fixed and do not end in a digit.
  Registers and string literals are numbered as slots are, so that a slot has the name of one of
  them exactly if the name of its variable runs into the number (`RunsInto`).
-/

namespace IcLir

open Lowering

/-! ## Numbered names -/

def endsInDigit (name : String) : Bool := name.toList.getLast?.any Char.isDigit

theorem endsInDigit_of_toList {name : String} {front digits : List Char}
    (h : name.toList = front ++ digits) (hne : digits ≠ [])
    (hdigits : ∀ x ∈ digits, x.isDigit = true) : endsInDigit name = true := by
  rw [endsInDigit, h, List.getLast?_append_of_ne_nil _ hne, List.getLast?_eq_some_getLast hne]
  exact hdigits _ (List.getLast_mem hne)

theorem endsInDigit_slotName (name : String) (depth : Nat) :
    endsInDigit (slotName name depth) = true :=
  endsInDigit_of_toList (toList_slotName name depth) Nat.toDigits_ne_nil fun _ =>
    Nat.isDigit_of_mem_toDigits (by decide) (by decide)

/-- The name goes on from `stem` with the first digits of `n`, if any, and the others are those
    of `depth`. -/
def RunsInto (stem : String) (n : Nat) (name : String) (depth : Nat) : Prop :=
  ∃ digits, name = stem ++ digits ∧ toString n = digits ++ toString depth

/-- Behind a stem with no digit at its end the number can start in one place only. -/
theorem slotName_eq_iff_runsInto {stem name : String} {n depth : Nat}
    (hstem : endsInDigit stem = false) :
    slotName name depth = slotName stem n ↔ RunsInto stem n name depth := by
  constructor
  · intro heq
    rw [← String.toList_inj, toList_slotName, toList_slotName] at heq
    rcases List.append_eq_append_iff.mp heq with ⟨rest, hname, hdigits⟩ | ⟨rest, hname, hdigits⟩
    · -- what the stem has beyond the name are digits of the depth
      have hrest : rest = [] := by
        by_contra hrest
        have hdigit : endsInDigit stem = true := by
          refine endsInDigit_of_toList hname hrest fun x hx => ?_
          have hmem : x ∈ Nat.toDigits 10 depth := by
            rw [hdigits]
            exact List.mem_append_left _ hx
          exact Nat.isDigit_of_mem_toDigits (by decide) (by decide) hmem
        rw [hdigit] at hstem
        cases hstem
      subst hrest
      refine ⟨"", ?_, ?_⟩
      · rw [← String.toList_inj]
        simpa using hname.symm
      · rw [← String.toList_inj]
        simpa using hdigits.symm
    · refine ⟨String.ofList rest, ?_, ?_⟩
      · rw [← String.toList_inj]
        simpa using hname
      · rw [← String.toList_inj]
        simpa using hdigits
  · intro hruns
    obtain ⟨digits, rfl, hdigits⟩ := hruns
    have hlist := congrArg String.toList hdigits
    rw [← String.toList_inj, toList_slotName, toList_slotName, String.toList_append,
      List.append_assoc]
    simpa using hlist.symm

/-! ## Slots in code -/

/-- The name of an operand that is a slot. -/
def Operand.slots : Operand → List String
  | .slot name => [name]
  | .reg _ | .int _ | .label _ | .field .. | .element .. => []

/-- The names that a line has for slots: as operands, and for the parameters of a call. -/
def Line.slots : Line → List String
  | .instr (.move src dst) => src.slots ++ dst.slots
  | .instr (.arith _ src _) | .instr (.xor src _) | .instr (.compare src _) => src.slots
  | .instr (.library _ args _) => args.flatMap Operand.slots
  | .instr (.staticCall _ bindings _) | .instr (.virtualCall _ _ bindings _) =>
    bindings.map Prod.fst
  | .instr (.ret value) => value.slots
  | .instr (.arrayLength ..) | .instr (.neg _) | .instr (.jump ..) | .label _ => []

namespace Code

def slots (code : Code) : List String := code.flatMap Line.slots

theorem slots_append (a b : Code) : slots (a ++ b) = slots a ++ slots b :=
  List.flatMap_append ..

theorem slots_flatMap {α : Type} (f : α → Code) (l : List α) :
    slots (l.flatMap f) = l.flatMap fun x => slots (f x) :=
  List.flatMap_assoc ..

end Code

section

variable {name : String}

/-- The values under guard have no numbers. -/
theorem not_mem_slots_guardCall (hname : endsInDigit name = true) (g : Guard)
    (registers : List Nat) : name ∉ (g.call registers).slots := by
  have hformals : ∀ formal ∈ g.formals, endsInDigit formal = false := by
    cases g <;> decide
  intro hmem
  obtain ⟨b, hb, rfl⟩ := List.mem_map.mp hmem
  rw [hformals b.1 (List.of_mem_zip hb).1] at hname
  cases hname

theorem not_mem_slots_receiver (hname : endsInDigit name = true) :
    name ∉ Operand.receiver.slots := by
  intro hmem
  obtain rfl := List.mem_singleton.mp hmem
  exact absurd hname (by decide)

end

/-! ## Variables in use -/

/-- A call of the method that class `type` has under `name` is passed the parameter `v`. -/
def Context.Passes (c : Context) (type : TypeId) (name : String) (v : Variable) : Prop :=
  ∃ owner m, c.definition.Reaches type name owner m ∧ m.kind ≠ .library ∧
    c.scopes.methodScopes.get? m.id = some v.scope ∧ v.name ∈ m.paramNames

/-- The variables that an expression in class `type` uses, its parts apart: the one that it
    stands for, and the parameters of the method that it calls. -/
def Context.Uses (c : Context) (type : TypeId) (v : Variable) : Expr → Prop
  | .var node name => c.references.get? node.id = some (.variable v.scope) ∧ name.name = v.name
  | .staticCall _ className method _ =>
    ∃ t, c.types.class? className.name = some t ∧ c.Passes t method.name v
  | .ownCall _ method _ => c.Passes type method.name v
  | .methodCall _ receiver method _ =>
    ∃ t, c.exprTypes.get? receiver.id = some t ∧ c.Passes t method.name v
  | .literal .. | .field .. | .index .. | .this _ | .newObject .. | .newArray .. | .length ..
  | .binary .. | .unary .. | .paren .. => False

/-- One of the expressions uses a variable whose slot has this name. -/
def UsesSlot (c : Context) (type : TypeId) (name : String) (es : List Expr) : Prop :=
  ∃ e ∈ es, ∃ v, c.Uses type v e ∧ c.slot v = name

/-- What lowering relies on: the program is accepted, and all classes with a layout are of the
    program. -/
structure Context.Grounded (c : Context) (p : Program) : Prop where
  accepts : c.Accepts p
  layouts : ∀ type l, c.layouts.get? type = some l →
    ∃ i k, p.classes[i]? = some k ∧ type = TypeTable.classId i

namespace Lowering

open Code Pass TypeTable

variable {env : LowerEnv} {p : Program} {name : String}

variable {s s' : Supply} {type : TypeId} {method : String} {callee : Callee}

variable {m : MethodDecl} {base d : Nat} {bindings : List (String × Register)} {s₁ s₂ s₃ : Supply}
    {line : Line}

/-- Arguments are bound to the slots of the parameters. -/
theorem map_fst_bindings (h : env.bindings m base s = .ok bindings s') :
    ∃ scope, env.context.scopes.methodScopes.get? m.id = some scope ∧
      bindings.map Prod.fst = m.paramNames.map fun x => env.context.slot ⟨scope, x⟩ := by
  obtain ⟨scope, hscope, rfl⟩ := eq_bindings h
  refine ⟨scope, hscope, ?_⟩
  calc
    _ = (m.params.zipIdx.map Prod.fst).map fun q => env.context.slot ⟨scope, q.name.name⟩ := by
      simp only [List.map_map]
      rfl
    _ = _ := by
      rw [List.zipIdx_map_fst, MethodDecl.paramNames, List.map_map]
      rfl

/-- A method is only looked for in classes of the program. -/
theorem exists_class_of_callee (h : env.context.Grounded p)
    (hcallee : env.callee type method s = .ok callee s') :
    ∃ i k, p.classes[i]? = some k ∧ type = classId i := by
  have hreads : Meets CompileError.Any (env.callee type method) s fun _ _ =>
      ∃ i k, p.classes[i]? = some k ∧ type = classId i := by
    unfold LowerEnv.callee LowerEnv.layout
    simp only [meets_bind]
    refine meets_any fun scope s₁ _ => ?_
    refine meets_promised_any fun symbol _ => ?_
    refine meets_promised_any fun kind _ => ?_
    refine meets_promised_any fun m _ => ?_
    refine meets_promised_any fun l hl => ?_
    exact meets_promised_any fun entry _ => h.layouts type l hl
  exact hreads.of_ok hcallee

theorem exists_callsMethod (h : env.context.Grounded p)
    (hcallee : env.callee type method s = .ok callee s') :
    ∃ owner m, env.CallsMethod type method callee owner m := by
  obtain ⟨i, k, hi, rfl⟩ := exists_class_of_callee h hcallee
  exact LowerEnv.callsMethod_of_callee h.accepts hi hcallee

/-- The names in a call are those of the parameters of the method that it reaches. -/
theorem mem_map_fst_bindings {owner : ClassDecl} (h : env.CallsMethod type method callee owner m)
    (hkind : m.kind ≠ .library) (hb : env.bindings callee.method base s = .ok bindings s') :
    name ∈ bindings.map Prod.fst ↔
      ∃ v, env.context.Passes type method v ∧ env.context.slot v = name := by
  obtain ⟨scope, hscope, hnames⟩ := map_fst_bindings hb
  rw [h.method] at hscope hnames
  rw [hnames, List.mem_map]
  constructor
  · intro hx
    obtain ⟨x, hx, rfl⟩ := hx
    exact ⟨⟨scope, x⟩, ⟨owner, m, h.reaches, hkind, hscope, hx⟩, rfl⟩
  · intro hv
    obtain ⟨v, ⟨owner', m', hreaches, _, hscope', hx⟩, rfl⟩ := hv
    obtain ⟨_, rfl⟩ := h.reaches.unique hreaches
    obtain rfl : scope = v.scope := Option.some.inj (hscope.symm.trans hscope')
    exact ⟨v.name, hx, rfl⟩

theorem mem_slots_staticCallLine (h : env.context.Grounded p)
    (hcallee : env.callee type method s = .ok callee s₁)
    (hline : env.staticCallLine callee method d s₂ = .ok line s₃) :
    name ∈ line.slots ↔ ∃ v, env.context.Passes type method v ∧ env.context.slot v = name := by
  obtain ⟨owner, m, hcalls⟩ := exists_callsMethod h hcallee
  rcases eq_staticCallLine hline with ⟨hkind, rfl⟩ | ⟨hkind, bindings, s₄, hb, rfl⟩
  · -- a library routine takes its arguments in registers
    have hnone : ¬ ∃ v, env.context.Passes type method v ∧ env.context.slot v = name := by
      intro hv
      obtain ⟨v, ⟨owner', m', hreaches, hkind', _⟩, _⟩ := hv
      obtain ⟨_, rfl⟩ := hcalls.reaches.unique hreaches
      exact hkind' (hcalls.kind.symm.trans hkind)
    simp [hnone, Line.slots, Operand.slots, Operand.r]
  · rw [← mem_map_fst_bindings hcalls (hcalls.kind ▸ hkind) hb]
    rfl

theorem mem_slots_virtualCallLine (h : env.context.Grounded p)
    (hcallee : env.callee type method s = .ok callee s₁)
    (hline : env.virtualCallLine callee d s₂ = .ok line s₃) :
    name ∈ line.slots ↔ ∃ v, env.context.Passes type method v ∧ env.context.slot v = name := by
  obtain ⟨owner, m, hcalls⟩ := exists_callsMethod h hcallee
  obtain ⟨slot, bindings, s₄, hslot, hb, rfl⟩ := eq_virtualCallLine hline
  have hkind : m.kind ≠ .library := by
    intro hkind
    have hstatic := hcalls.slot
    rw [hslot, hkind] at hstatic
    cases hstatic
  rw [← mem_map_fst_bindings hcalls hkind hb]
  rfl

theorem not_mem_slots_literalOperand {value : Literal} {o : Operand}
    (h : literalOperand value s = .ok o s') : name ∉ o.slots := by
  have hlit : Meets CompileError.Any (literalOperand value) s fun o _ => name ∉ o.slots := by
    unfold literalOperand
    split
    · simp [Operand.slots]
    · rw [meets_bind]
      exact meets_any fun _ _ _ => by simp [Operand.slots]
    all_goals simp [Operand.slots]
  exact hlit.of_ok h

theorem mem_slots_var (env : LowerEnv) {node : Node} {x : Ident} {scope : ScopeId}
    (href : env.context.references.get? node.id = some (.variable scope)) :
    name ∈ (env.slot scope x.name).slots ↔
      ∃ v, env.context.Uses env.type v (.var node x) ∧ env.context.slot v = name := by
  have hslot : (env.slot scope x.name).slots = [env.context.slot ⟨scope, x.name⟩] := rfl
  rw [hslot, List.mem_singleton]
  constructor
  · intro heq
    exact ⟨⟨scope, x.name⟩, ⟨href, rfl⟩, heq.symm⟩
  · intro hv
    obtain ⟨v, ⟨href', hx⟩, rfl⟩ := hv
    obtain rfl : scope = v.scope :=
      Resolution.variable.inj (Option.some.inj (href.symm.trans href'))
    rw [hx]

/-- The lines that name a numbered slot come from the nodes that use a variable with this slot. -/
def slotMarking (h : env.context.Grounded p) (hname : endsInDigit name = true) : Marking env where
  line l := name ∈ l.slots
  operand o := name ∈ o.slots
  node e := ∃ v, env.context.Uses env.type v e ∧ env.context.slot v = name
  r _ := List.not_mem_nil
  int _ := List.not_mem_nil
  label _ := List.not_mem_nil
  jump _ _ _ _ := List.not_mem_nil
  load o n := by simp [Line.slots, Operand.slots, Operand.r]
  compare _ _ _ := Iff.rfl
  arith _ _ _ _ := Iff.rfl
  ret _ _ := Iff.rfl
  storeSlot _ _ _ _ _ := List.mem_append
  store _ _ _ _ _ _ _ _ _ _ := List.mem_append
  own e lines os howned := by
    have hguard := not_mem_slots_guardCall hname
    have hreceiver := not_mem_slots_receiver hname
    have hload (n : Nat) : (Line.instr (.move .receiver (.r n))).slots = Operand.receiver.slots :=
      rfl
    cases howned with
    | literal hv => simp [Context.Uses, not_mem_slots_literalOperand hv]
    | var href => simp [mem_slots_var env href]
    | @ownField _ _ _ d offset href _ =>
      have hfield : (Operand.field d offset).slots = [] := rfl
      simp [Context.Uses, href, hload, hreceiver, hfield]
    | this => simp [Context.Uses, hreceiver]
    | field | index => simp [Context.Uses, hguard, Operand.slots]
    | @newArray _ _ _ d =>
      have hmul : (Line.instr (.arith .mul (.int 4) (.general d))).slots = [] := rfl
      have hallocate : (libraryCall "__allocateArray" [.r d] d).slots = [] := rfl
      simp [Context.Uses, hguard, hmul, hallocate]
    | @length _ _ d =>
      have hlength : (Line.instr (.arrayLength (.general d) (.general d))).slots = [] := rfl
      simp [Context.Uses, hguard, hlength]
    | staticCall hc hcallee hline =>
      simp [Context.Uses, hc, mem_slots_staticCallLine h hcallee hline]
    | ownStatic hcallee _ hline => simp [Context.Uses, mem_slots_staticCallLine h hcallee hline]
    | ownVirtual hcallee _ hline =>
      simp [Context.Uses, hload, hreceiver, mem_slots_virtualCallLine h hcallee hline]
    | methodCall htype hcallee hline =>
      simp [Context.Uses, htype, hguard, mem_slots_virtualCallLine h hcallee hline]
    | newObject => simp [Context.Uses, Line.slots, libraryCall, Operand.slots]
    | concat => simp [Context.Uses, Line.slots, libraryCall, Operand.slots, Operand.r]
    | logic | compare | paren => simp [Context.Uses]
    | @arith _ op => cases hop : op.divides <;> simp [Context.Uses, hguard]
    | @unary _ op => cases op <;> simp [Context.Uses, Line.slots, unaryCode, Operand.slots]

end Lowering

/-! ## Slots of bodies -/

/-- The local that a statement in its scope gives an initial value to. -/
def Variable.initialized? : ScopeId × Stmt → Option Variable
  | (scope, .declare _ _ name (some _)) => some ⟨scope, name.name⟩
  | _ => none

/-- The locals in statements that have initial values. -/
def Stmt.initializedOfList (t : ScopeTree) (scope : ScopeId) (ss : List Stmt) : List Variable :=
  (placesOfList t scope ss).filterMap Variable.initialized?

/-- Statements name the slots of the variables that they use and of the locals that they give
    initial values. -/
theorem Lowering.LoweredStmts.mem_slots {env : LowerEnv} {p : Program} {name : String}
    (h : env.context.Grounded p) (hname : endsInDigit name = true) {loops : Loops}
    {scope : ScopeId} {stmts : List Stmt} {s s' : Supply} {code : Code}
    (hformed : ∀ x ∈ Stmt.nodesOfList stmts, x.isFormed = true)
    (hs : LoweredStmts env loops scope stmts s code s') :
    name ∈ code.slots ↔ UsesSlot env.context env.type name (Stmt.exprsOfList stmts) ∨
      ∃ v ∈ Stmt.initializedOfList env.context.scopes scope stmts, env.context.slot v = name := by
  have hplace : ∀ x, (slotMarking h hname).OnPlace x ↔
      ∃ v, Variable.initialized? x = some v ∧ env.context.slot v = name := by
    intro x
    unfold Marking.OnPlace Variable.initialized?
    split
    · simp [slotMarking, Operand.slots, LowerEnv.slot, Context.slot, eq_comm]
    · simp
  have hmarked := hs.marked_iff (slotMarking h hname) hformed
  rw [Code.slots, List.mem_flatMap]
  refine hmarked.trans (or_congr_right ?_)
  simp only [hplace, Stmt.initializedOfList, List.mem_filterMap]
  grind

/-! ## Classes with layouts -/

namespace LayoutTable

variable {types : TypeTable} {scopes : ScopeTree} {table table' : LayoutTable}

theorem exists_eq_insert_of_addClass {c : TypeId × String}
    (h : addClass types scopes table c = .ok table') : ∃ l, table' = table.insert c.1 l := by
  unfold addClass at h
  cases hl : start table types c.1 c.2 with
  | error e => simp [hl, bind, Except.bind] at h
  | ok l =>
    simp only [hl, bind, Except.bind] at h
    split at h
    · cases h
    · exact ⟨_, (Except.ok.inj h).symm⟩

/-- Only the classes that are added get layouts. -/
theorem exists_mem_of_foldlM_addClass {type : TypeId} {classes : List (TypeId × String)}
    (h : classes.foldlM (addClass types scopes) table = .ok table') {l : ClassLayout}
    (hl : table'.get? type = some l) : table.get? type = some l ∨ ∃ c ∈ classes, c.1 = type := by
  induction classes generalizing table with
  | nil => exact .inl (Except.ok.inj h ▸ hl)
  | cons c classes ih =>
    rw [List.foldlM_cons] at h
    cases hadd : addClass types scopes table c with
    | error e => simp [hadd, bind, Except.bind] at h
    | ok next =>
      rw [hadd] at h
      rcases ih h with hnext | ⟨c', hc', rfl⟩
      · obtain ⟨l', rfl⟩ := exists_eq_insert_of_addClass hadd
        by_cases heq : type = c.1
        · exact .inr ⟨c, List.mem_cons_self, heq.symm⟩
        · rw [OrderedMap.get?_insert_of_ne _ _ heq] at hnext
          exact .inl hnext
      · exact .inr ⟨c', List.mem_cons_of_mem _ hc', rfl⟩

end LayoutTable

section

open Pass TypeTable

variable {p : Program} {c : Context} {strategy : Strategy} {a : Assembly} {name : String}

theorem grounded_of_analyzed (hp : p.DistinctNodes) {options : Options}
    (h : analyzed options p = .ok c) : c.Grounded p := by
  have haccepts := accepts_of_analyzed hp h
  obtain ⟨_, c₂, _, _, hlayOut⟩ := exists_stages_of_analyzed h
  obtain ⟨layouts, hbuild, rfl⟩ := layOut_eq_ok_iff.mp hlayOut
  have hclasses : c₂.types.classes = p.classes.zipIdx.map fun x => (classId x.2, x.1.name.name) :=
    haccepts.defined.table.classes_eq
  refine ⟨haccepts, fun type l hl => ?_⟩
  obtain ⟨x, hx, rfl⟩ : ∃ x ∈ c₂.types.classes, x.1 = type := by
    refine (LayoutTable.exists_mem_of_foldlM_addClass hbuild hl).resolve_left fun hempty => ?_
    rw [OrderedMap.get?_empty] at hempty
    cases hempty
  rw [hclasses] at hx
  obtain ⟨y, hy, rfl⟩ := List.mem_map.mp hx
  exact ⟨y.2, y.1, List.mk_mem_zipIdx_iff_getElem?.mp hy, rfl⟩

/-- The variables that the code of a method uses. -/
def Context.UsedBy (c : Context) (e : ClassDecl × MethodDecl) (v : Variable) : Prop :=
  (∃ type, c.types.class? e.1.name.name = some type ∧
    ∃ x ∈ Stmt.exprsOfList e.2.body, c.Uses type v x) ∨
  ∃ scope, c.scopes.methodScopes.get? e.2.id = some scope ∧
    v ∈ Stmt.initializedOfList c.scopes scope e.2.body

/-- The variables that the code of a program uses. -/
def Context.InUse (c : Context) (p : Program) (v : Variable) : Prop :=
  ∃ e ∈ emitted p, c.UsedBy e v

theorem Lowering.LoweredMethod.mem_slots (h : c.Grounded p)
    (hname : endsInDigit name = true) {e : ClassDecl × MethodDecl} (he : e ∈ emitted p)
    {s s' : Supply} {r : Routine} (hr : LoweredMethod c strategy e s r s') :
    name ∈ r.body.slots ↔ ∃ v, c.UsedBy e v ∧ c.slot v = name := by
  obtain ⟨type, scope, code, htype, hscope, hcode, hbody⟩ := hr.body
  have hreturn : Code.slots (if needsReturn e.2 then [Code.returnNothing] else []) = [] := by
    split <;> rfl
  rw [hbody, Code.slots_append, hreturn, List.append_nil,
    hcode.mem_slots h hname fun _ => h.accepts.isFormed_of_mem_nodes he]
  constructor
  · intro hmem
    rcases hmem with ⟨x, hx, v, hv, rfl⟩ | ⟨v, hv, rfl⟩
    · exact ⟨v, .inl ⟨type, htype, x, hx, hv⟩, rfl⟩
    · exact ⟨v, .inr ⟨scope, hscope, hv⟩, rfl⟩
  · intro hmem
    obtain ⟨v, ⟨type', htype', x, hx, hv⟩ | ⟨scope', hscope', hv⟩, rfl⟩ := hmem
    · obtain rfl : type = type' := Option.some.inj (htype.symm.trans htype')
      exact .inl ⟨x, hx, v, hv, rfl⟩
    · obtain rfl : scope = scope' := Option.some.inj (hscope.symm.trans hscope')
      exact .inr ⟨v, hv, rfl⟩

theorem Assembly.mem_slots_code (hname : endsInDigit name = true) :
    name ∈ a.code.slots ↔ ∃ r ∈ a.routines, name ∈ r.body.slots := by
  have hguards : ∀ x ∈ Code.slots (Guard.all.flatMap Guard.code), endsInDigit x = false := by
    decide
  have hfixed : name ∉ Code.slots (Guard.all.flatMap Guard.code) := by
    intro hmem
    rw [hguards name hmem] at hname
    cases hname
  have hexit : Code.slots [.label Guard.exitLabel] = [] := rfl
  rw [a.code_eq, Code.slots_append, Code.slots_append, hexit, List.append_nil, List.mem_append,
    or_iff_right hfixed, Code.slots_flatMap, List.mem_flatMap]
  rfl

/-- The numbered names of slots are those of the variables in use. -/
theorem Lowering.Assembled.mem_slots (ha : Assembled c strategy p a) (h : c.Grounded p)
    (hname : endsInDigit name = true) :
    name ∈ a.code.slots ↔ ∃ v, c.InUse p v ∧ c.slot v = name := by
  rw [Assembly.mem_slots_code hname]
  constructor
  · intro hmem
    obtain ⟨r, hr, hmem⟩ := hmem
    obtain ⟨e, he, _, _, hlowered⟩ := ha.exists_of_mem_routines hr
    obtain ⟨v, hv, hslot⟩ := (hlowered.mem_slots h hname he).mp hmem
    exact ⟨v, ⟨e, he, hv⟩, hslot⟩
  · intro hmem
    obtain ⟨v, ⟨e, he, hv⟩, hslot⟩ := hmem
    obtain ⟨r, hr, _, _, hlowered⟩ := ha.exists_routine he
    exact ⟨r, hr, (hlowered.mem_slots h hname he).mpr ⟨v, hv, hslot⟩⟩

/-- A number after `stem` names a slot if a variable in use runs into it. -/
theorem Lowering.Assembled.slotName_mem_slots (ha : Assembled c strategy p a) (h : c.Grounded p)
    {stem : String} (hstem : endsInDigit stem = false) (n : Nat) :
    slotName stem n ∈ a.code.slots ↔
      ∃ v, c.InUse p v ∧ RunsInto stem n v.name (c.scopes.depth v.scope) := by
  rw [ha.mem_slots h (endsInDigit_slotName stem n)]
  simp only [Context.slot, slotName_eq_iff_runsInto hstem]

end

/-! ## Names of registers and string literals -/

theorem Register.text_general (n : Nat) : (general n).text = slotName "R" n := rfl

theorem StringPool.label_eq (n : Nat) : label n = slotName "str" n := rfl

/-- The variables in use have slots in the code. None of the slots has the name of a register or
    of a string literal exactly if none of these variables runs into one. -/
theorem operand_names_are_unambiguous_iff {p : Program} (hp : p.DistinctNodes) {options : Options}
    {r : Compilation} (h : compile options p = .ok r) :
    ∃ c a, analyzed options p = .ok c ∧ c.generate options.strategy p = .ok a ∧ r.lir = a.render ∧
      (∀ v, c.InUse p v → c.slot v ∈ a.code.slots) ∧
      ((∀ n, (Register.general n).text ∉ a.code.slots) ↔
        ∀ v, c.InUse p v → ∀ n, ¬ RunsInto "R" n v.name (c.scopes.depth v.scope)) ∧
      ((∀ n < a.strings.size, StringPool.label n ∉ a.code.slots) ↔
        ∀ v, c.InUse p v → ∀ n < a.strings.size,
          ¬ RunsInto "str" n v.name (c.scopes.depth v.scope)) := by
  obtain ⟨c, a, hc, hgenerate, hlir⟩ := exists_generate_of_compile h
  have hgrounded := grounded_of_analyzed hp hc
  have ha := hgrounded.accepts.assembled hp hgenerate
  have hregister : ∀ n, (Register.general n).text ∈ a.code.slots ↔
      ∃ v, c.InUse p v ∧ RunsInto "R" n v.name (c.scopes.depth v.scope) := fun n => by
    rw [Register.text_general, ha.slotName_mem_slots hgrounded (by decide)]
  have hliteral : ∀ n, StringPool.label n ∈ a.code.slots ↔
      ∃ v, c.InUse p v ∧ RunsInto "str" n v.name (c.scopes.depth v.scope) := fun n => by
    rw [StringPool.label_eq, ha.slotName_mem_slots hgrounded (by decide)]
  refine ⟨c, a, hc, hgenerate, hlir, fun v hv => ?_, ?_, ?_⟩
  · exact (ha.mem_slots hgrounded (endsInDigit_slotName _ _)).mpr ⟨v, hv, rfl⟩
  · constructor
    · intro hall v hv n hruns
      exact hall n ((hregister n).mpr ⟨v, hv, hruns⟩)
    · intro hall n hmem
      obtain ⟨v, hv, hruns⟩ := (hregister n).mp hmem
      exact hall v hv n hruns
  · constructor
    · intro hall v hv n hn hruns
      exact hall n hn ((hliteral n).mpr ⟨v, hv, hruns⟩)
    · intro hall n hn hmem
      obtain ⟨v, hv, hruns⟩ := (hliteral n).mp hmem
      exact hall v hv n hn hruns

namespace Texts

open Shapes

/-- `string str = "a"; str = "b";` -/
def stores : List Stmt :=
  [.declare (node 0) (type .string) (name "str") (some (.literal (node 0) (.string "a"))),
    .assign (node 1) (.var (node 1) (name "str")) (.literal (node 2) (.string "b"))]

/-- `static void main(string[] args) { .. }` -/
def main (body : List Stmt) : MethodDecl := mainOf 0 body

def program (body : List Stmt) : Program := ⟨[⟨name "Main", none, [], [main body]⟩]⟩

theorem distinctNodes : (program stores).DistinctNodes := ⟨by decide, by decide, by decide⟩

/-- `int R = 1; string str = "a"; str = "b"; str = "c";` -/
def clashing : List Stmt :=
  .declare (node 3) (type .int) (name "R") (some (.literal (node 5) (.int 1))) ::
    (stores ++ [.assign (node 2) (.var (node 3) (name "str")) (.literal (node 4) (.string "c"))])

end Texts

/-- With two string literals, the local `str` of depth 2 is clear of them and of the registers. -/
theorem operand_names_are_unambiguous_iff_texts :
    ∃ r c a, compile {} (Texts.program Texts.stores) = .ok r ∧
      analyzed {} (Texts.program Texts.stores) = .ok c ∧
      c.generate .baseline (Texts.program Texts.stores) = .ok a ∧
      "str2" ∈ a.code.slots ∧ a.strings.size = 2 ∧
      ∀ v, c.InUse (Texts.program Texts.stores) v →
        (∀ n, ¬ RunsInto "R" n v.name (c.scopes.depth v.scope)) ∧
        ∀ n < 2, ¬ RunsInto "str" n v.name (c.scopes.depth v.scope) := by
  have hslots : (assembled? {} (Texts.program Texts.stores)).any (fun x => decide (
      "str2" ∈ x.2.code.slots ∧ x.2.strings.size = 2 ∧
      (∀ name ∈ x.2.code.slots, name.toList.head? ≠ some 'R') ∧
      ∀ n < 2, StringPool.label n ∉ x.2.code.slots)) = true := by
    decide +kernel
  obtain ⟨r, c, a, hr, hc, ha, _, hslots⟩ := exists_compile_of_any hslots
  obtain ⟨hmem, hsize, hregisters, hliterals⟩ := of_decide_eq_true hslots
  obtain ⟨c', a', hc', ha', _, _, hregister, hliteral⟩ :=
    operand_names_are_unambiguous_iff Texts.distinctNodes hr
  obtain ⟨rfl, rfl⟩ := assembled_unique hc ha hc' ha'
  rw [hsize] at hliteral
  have hclear : ∀ n, (Register.general n).text ∉ a.code.slots := by
    intro n hn
    refine hregisters _ hn ?_
    rw [Register.text_general, toList_slotName]
    rfl
  exact ⟨r, c, a, hr, hc, ha, hmem, hsize, fun v hv =>
    ⟨hregister.mp hclear v hv, hliteral.mp hliterals v hv⟩⟩

/-- The locals `R` and `str` of depth 2 have the names of a register and of the third string
    literal, which is stored in a slot of its own name. -/
theorem locals_have_names_of_register_and_literal :
    ∃ r c a, compile {} (Texts.program Texts.clashing) = .ok r ∧
      analyzed {} (Texts.program Texts.clashing) = .ok c ∧
      c.generate .baseline (Texts.program Texts.clashing) = .ok a ∧ r.lir = a.render ∧
      (Register.general 2).text = "R2" ∧ "R2" ∈ a.code.slots ∧
      StringPool.label 2 = "str2" ∧ 2 < a.strings.size ∧
      [.instr (.move (.label "str2") (.r 0)), .instr (.move (.r 0) (.slot "str2"))] <:+:
        a.code := by
  have hclash : (assembled? {} (Texts.program Texts.clashing)).any (fun x => decide (
      (Register.general 2).text = "R2" ∧ "R2" ∈ x.2.code.slots ∧
      StringPool.label 2 = "str2" ∧ 2 < x.2.strings.size ∧
      [Line.instr (.move (.label "str2") (.r 0)), .instr (.move (.r 0) (.slot "str2"))] <:+:
        x.2.code)) = true := by
    decide +kernel
  obtain ⟨r, c, a, hr, hc, ha, hlir, hclash⟩ := exists_compile_of_any hclash
  exact ⟨r, c, a, hr, hc, ha, hlir, of_decide_eq_true hclash⟩

end IcLir
