import IcLir.Proofs.DefinitionChanges
import IcLir.Proofs.Evaluation
import IcLir.Proofs.OperandNames

/-
  Static methods have no receiver. The code of an expression has `this` among its operands only
  if one of its nodes needs the receiver (`NeedsReceiver`): `this` itself, a field of the own
  class, or a call of a method of the own class that is not static. None of them is well typed in
  a static method, so that its code is free of `this` (`LoweredMethod.receiverFree`). Nor does a
  name in a static method ever stand for a member of a class, since lookups pass the classes by.
-/

namespace IcLir

open Lowering

/-! ## Operands -/

namespace Instr

/-- All that an instruction works on, next to the routine or the slot that it calls. -/
@[simp] def operands : Instr → List Operand
  | .move src dst => [src, dst]
  | .arrayLength array dst => [.reg array, .reg dst]
  | .arith _ src dst | .xor src dst | .compare src dst => [src, .reg dst]
  | .neg dst => [.reg dst]
  | .jump _ target => [.label target]
  | .library _ args result => args ++ [.reg result]
  | .staticCall _ bindings result =>
    bindings.flatMap (fun b => [.slot b.1, .reg b.2]) ++ [.reg result]
  | .virtualCall object _ bindings result =>
    .reg object :: bindings.flatMap (fun b => [.slot b.1, .reg b.2]) ++ [.reg result]
  | .ret value => [value]

end Instr

def Line.operands : Line → List Operand
  | .label _ => []
  | .instr i => i.operands

/-- The operand is not printed as the receiver is. -/
def Operand.ReceiverFree (o : Operand) : Prop := o.text ≠ Operand.receiver.text

def Line.ReceiverFree (line : Line) : Prop := ∀ o ∈ line.operands, o.ReceiverFree

def Code.ReceiverFree (code : Code) : Prop := ∀ line ∈ code, line.ReceiverFree

namespace Operand

theorem receiverFree_of_endsInDigit {o : Operand} (h : endsInDigit o.text = true) :
    o.ReceiverFree := by
  intro heq
  rw [heq] at h
  exact absurd h (by decide)

theorem receiverFree_of_stem {o : Operand} (stem : String) {rest : String}
    (h : o.text = stem ++ rest) (hne : stem.toList ≠ [])
    (hhead : stem.toList.head? ≠ some 't') : o.ReceiverFree := by
  intro heq
  have hlist := congrArg (fun text : String => text.toList.head?) (h.symm.trans heq)
  rw [String.toList_append, List.head?_append_of_ne_nil _ hne] at hlist
  exact hhead hlist

@[simp] theorem receiverFree_reg (x : Register) : (reg x).ReceiverFree := by
  cases x with
  | general n => exact receiverFree_of_endsInDigit (endsInDigit_slotName "R" n)
  | scratch n => exact receiverFree_of_endsInDigit (endsInDigit_slotName "Rc" n)
  | discard => exact ne_of_beq_false rfl

@[simp] theorem receiverFree_r (n : Nat) : (r n).ReceiverFree := receiverFree_reg _

@[simp] theorem receiverFree_int (value : Int) : (int value).ReceiverFree := by
  have hdigits : ∃ stem n, (int value).text = slotName stem n := by
    cases value with
    | ofNat n => exact ⟨"", n, (String.empty_append (s := toString n)).symm⟩
    | negSucc n => exact ⟨"-", n + 1, rfl⟩
  obtain ⟨stem, n, htext⟩ := hdigits
  exact receiverFree_of_endsInDigit (htext ▸ endsInDigit_slotName stem n)

@[simp] theorem receiverFree_field (base offset : Nat) : (field base offset).ReceiverFree :=
  receiverFree_of_endsInDigit (endsInDigit_slotName ("R" ++ toString base ++ ".") offset)

@[simp] theorem receiverFree_element (base index : Nat) : (element base index).ReceiverFree := by
  have htext : (element base index).text =
      "R" ++ (toString base ++ ("[R" ++ (toString index ++ "]"))) := by
    rw [← String.append_assoc, ← String.append_assoc, ← String.append_assoc]
    rfl
  exact receiverFree_of_stem "R" htext (by decide) (by decide)

@[simp] theorem receiverFree_slotName (name : String) (depth : Nat) :
    (slot (slotName name depth)).ReceiverFree :=
  receiverFree_of_endsInDigit (endsInDigit_slotName name depth)

end Operand

namespace Code

@[simp] theorem receiverFree_append {a b : Code} :
    ReceiverFree (a ++ b) ↔ a.ReceiverFree ∧ b.ReceiverFree :=
  List.forall_mem_append

end Code

/-! ## Lines -/

namespace Line

variable {bindings : List (String × Register)} {result : Register}

section

@[simp] theorem receiverFree_label (name : String) : (label name).ReceiverFree :=
  fun _ h => absurd h List.not_mem_nil

@[simp low] theorem receiverFree_instr {i : Instr} :
    (instr i).ReceiverFree ↔ ∀ o ∈ i.operands, o.ReceiverFree := Iff.rfl

@[simp] theorem receiverFree_library {routine : String} {args : List Operand}
    {result : Register} :
    (instr (.library routine args result)).ReceiverFree ↔ ∀ o ∈ args, o.ReceiverFree := by
  simp [or_imp, forall_and]

@[simp] theorem receiverFree_unaryCode (op : UnaryOp) (d : Nat) :
    (instr (unaryCode op d)).ReceiverFree := by
  cases op <;> simp [unaryCode]

end

/-- Arguments are bound to slots and taken from registers. -/
theorem receiverFree_bindings (h : ∀ b ∈ bindings, (Operand.slot b.1).ReceiverFree) :
    ∀ o ∈ bindings.flatMap fun b => [Operand.slot b.1, .reg b.2], o.ReceiverFree := by
  intro o ho
  obtain ⟨b, hb, ho⟩ := List.mem_flatMap.mp ho
  rcases List.mem_cons.mp ho with rfl | ho
  · exact h b hb
  · rw [List.mem_singleton.mp ho]
    exact Operand.receiverFree_reg b.2

theorem receiverFree_staticCall {label : String}
    (h : ∀ b ∈ bindings, (Operand.slot b.1).ReceiverFree) :
    (instr (.staticCall label bindings result)).ReceiverFree := by
  refine List.forall_mem_append.mpr ⟨receiverFree_bindings h, ?_⟩
  simp

theorem receiverFree_virtualCall {object : Register} {slot : Nat}
    (h : ∀ b ∈ bindings, (Operand.slot b.1).ReceiverFree) :
    (instr (.virtualCall object slot bindings result)).ReceiverFree := by
  refine List.forall_mem_append.mpr ⟨?_, by simp⟩
  exact List.forall_mem_cons.mpr ⟨Operand.receiverFree_reg object, receiverFree_bindings h⟩

end Line

section

variable (labels : LabelSet)

@[simp] theorem LabelSet.receiverFree_trueLabel :
    (Operand.label labels.trueLabel).ReceiverFree :=
  Operand.receiverFree_of_endsInDigit (endsInDigit_slotName "_true_label" labels.number)

@[simp] theorem LabelSet.receiverFree_falseLabel :
    (Operand.label labels.falseLabel).ReceiverFree :=
  Operand.receiverFree_of_endsInDigit (endsInDigit_slotName "_false_label" labels.number)

@[simp] theorem LabelSet.receiverFree_endLabel :
    (Operand.label labels.endLabel).ReceiverFree :=
  Operand.receiverFree_of_endsInDigit (endsInDigit_slotName "_end_label" labels.number)

@[simp] theorem LabelSet.receiverFree_conditionLabel :
    (Operand.label labels.conditionLabel).ReceiverFree :=
  Operand.receiverFree_of_endsInDigit (endsInDigit_slotName "_while_cond_label" labels.number)

@[simp] theorem ClassLayout.receiverFree_dispatchLabel (l : ClassLayout) :
    (Operand.label l.dispatchLabel).ReceiverFree :=
  Operand.receiverFree_of_stem "_DV_" rfl (by decide) (by decide)

theorem StringPool.receiverFree_intern (pool : StringPool) (text : String) :
    (Operand.label (pool.intern text).1).ReceiverFree := by
  have hlabel : ∃ i, (pool.intern text).1 = label i := by
    unfold intern
    split
    · exact ⟨_, rfl⟩
    · exact ⟨_, rfl⟩
  obtain ⟨i, hi⟩ := hlabel
  rw [hi]
  exact Operand.receiverFree_of_endsInDigit (endsInDigit_slotName "str" i)

end

@[simp] theorem Guard.receiverFree_call (g : Guard) (registers : List Nat) :
    (g.call registers).ReceiverFree := by
  have hformals : ∀ formal ∈ g.formals, (Operand.slot formal).text ≠ Operand.receiver.text := by
    cases g <;> decide
  exact Line.receiverFree_staticCall fun b hb => hformals b.1 (List.of_mem_zip hb).1

@[simp] theorem Code.receiverFree_returnNothing : returnNothing.ReceiverFree :=
  List.forall_mem_singleton.mpr (Operand.receiverFree_int 9999)

/-! ## The code of bodies -/

/-- The expression is evaluated with the receiver, its parts apart. -/
def LowerEnv.NeedsReceiver (env : LowerEnv) : Expr → Prop
  | .this _ => True
  | .var node _ => ∃ scope, env.context.references.get? node.id = some (.field scope)
  | .ownCall _ method _ =>
    ∃ callee s, env.callee env.type method.name s = .ok callee s ∧ callee.kind.isStatic = false
  | .literal .. | .field .. | .index .. | .staticCall .. | .methodCall .. | .newObject ..
  | .newArray .. | .length .. | .binary .. | .unary .. | .paren .. => False

namespace Lowering

open Code Pass

variable {env : LowerEnv}

variable {s s' : Supply} {callee : Callee}

theorem receiverFree_literalOperand {value : Literal} {o : Operand}
    (h : literalOperand value s = .ok o s') : o.ReceiverFree := by
  have hlit : Meets CompileError.Any (literalOperand value) s fun o _ => o.ReceiverFree := by
    unfold literalOperand
    split
    · exact Operand.receiverFree_int _
    · exact s.strings.receiverFree_intern _
    all_goals exact Operand.receiverFree_int _
  exact hlit.of_ok h

/-- Parameters have slots of their own. -/
theorem receiverFree_of_mem_bindings {m : MethodDecl} {base : Nat}
    {bindings : List (String × Register)} (h : env.bindings m base s = .ok bindings s') :
    ∀ b ∈ bindings, (Operand.slot b.1).ReceiverFree := by
  obtain ⟨scope, _, rfl⟩ := eq_bindings h
  intro b hb
  obtain ⟨q, _, rfl⟩ := List.mem_map.mp hb
  exact Operand.receiverFree_slotName _ _

theorem receiverFree_staticCallLine {name : String} {d : Nat} {line : Line}
    (h : env.staticCallLine callee name d s = .ok line s') : line.ReceiverFree := by
  rcases eq_staticCallLine h with ⟨_, rfl⟩ | ⟨_, bindings, _, hb, rfl⟩
  · simp
  · exact Line.receiverFree_staticCall (receiverFree_of_mem_bindings hb)

theorem receiverFree_virtualCallLine {d : Nat} {line : Line}
    (h : env.virtualCallLine callee d s = .ok line s') : line.ReceiverFree := by
  obtain ⟨slot, bindings, _, _, hb, rfl⟩ := eq_virtualCallLine h
  exact Line.receiverFree_virtualCall (receiverFree_of_mem_bindings hb)

/-- The kind of a callee is that of the symbol under its name. -/
theorem exists_symbol_of_callee {type : TypeId} {name : String}
    (h : env.callee type name s = .ok callee s') :
    ∃ scope symbol, env.context.scopes.classScopes.get? type = some scope ∧
      env.context.scopes.lookupMember scope name = some symbol ∧
      symbol.kind = .method callee.kind := by
  have hreads : Meets CompileError.Any (env.callee type name) s fun callee _ =>
      ∃ scope symbol, env.context.scopes.classScopes.get? type = some scope ∧
        env.context.scopes.lookupMember scope name = some symbol ∧
        symbol.kind = .method callee.kind := by
    unfold LowerEnv.callee LowerEnv.classScope
    rw [meets_bind]
    cases hscope : env.context.scopes.classScopes.get? type with
    | none => exact trivial
    | some scope =>
      simp only [meets_bind, meets_pure]
      refine meets_promised_any fun symbol hsymbol => meets_promised_any fun kind hkind => ?_
      refine meets_promised_any fun method _ => meets_any fun layout s₁ _ => ?_
      refine meets_promised_any fun entry _ => ⟨scope, symbol, rfl, hsymbol, ?_⟩
      cases hs : symbol.kind <;> simp_all [SymbolKind.methodKind?]
  exact hreads.of_ok h

theorem needsReceiver_ownCall_iff {node : Node} {method : Ident} {args : List Expr}
    (h : env.callee env.type method.name s = .ok callee s) :
    env.NeedsReceiver (.ownCall node method args) ↔ callee.kind.isStatic = false := by
  constructor
  · intro hneeds
    obtain ⟨callee', s', h', hvirtual⟩ := hneeds
    obtain ⟨scope, symbol, hscope, hsymbol, hkind⟩ := exists_symbol_of_callee h
    obtain ⟨scope', symbol', hscope', hsymbol', hkind'⟩ := exists_symbol_of_callee h'
    obtain rfl : scope = scope' := Option.some.inj (hscope.symm.trans hscope')
    obtain rfl : symbol = symbol' := Option.some.inj (hsymbol.symm.trans hsymbol')
    rw [SymbolKind.method.inj (hkind.symm.trans hkind')]
    exact hvirtual
  · exact fun hvirtual => ⟨callee, s, h, hvirtual⟩

/-- The nodes that need the receiver, and no others, put it into the code. -/
def receiverMarking (env : LowerEnv) : Marking env where
  line l := ¬ l.ReceiverFree
  operand o := ¬ o.ReceiverFree
  node := env.NeedsReceiver
  r n := by simp
  int value := by simp
  label name := by simp
  jump condition labels target htarget := by
    simp only [List.mem_cons, List.not_mem_nil, or_false] at htarget
    rcases htarget with rfl | rfl | rfl | rfl <;> simp [jumpLine]
  load o n := by simp
  compare o n _ := by simp
  arith op o n _ := by simp
  ret o _ := by simp
  storeSlot src scope name _ _ := by simp [not_and_or, -not_and]
  store src e d s r s' _ _ _ _ := by simp [not_and_or, -not_and]
  own e lines os howned := by
    have hreceiver : ¬ Operand.receiver.ReceiverFree := fun h => h rfl
    cases howned with
    | literal hv => simp [LowerEnv.NeedsReceiver, receiverFree_literalOperand hv]
    | var href => simp [LowerEnv.NeedsReceiver, LowerEnv.slot, href]
    | ownField href _ => simp [LowerEnv.NeedsReceiver, hreceiver, href]
    | staticCall _ _ hline => simp [LowerEnv.NeedsReceiver, receiverFree_staticCallLine hline]
    | ownStatic hcallee hstatic hline =>
      simp [needsReceiver_ownCall_iff hcallee, hstatic, receiverFree_staticCallLine hline]
    | ownVirtual hcallee hvirtual _ =>
      simp [needsReceiver_ownCall_iff hcallee, hvirtual, hreceiver]
    | methodCall _ _ hline => simp [LowerEnv.NeedsReceiver, receiverFree_virtualCallLine hline]
    | this => simp [LowerEnv.NeedsReceiver, hreceiver]
    | arith => split <;> simp [LowerEnv.NeedsReceiver]
    | _ => simp [LowerEnv.NeedsReceiver, libraryCall]

end Lowering

/-! ## Static methods -/

section

open Typing TypeTable

variable {p : Program} {c : Context} {strategy : Strategy} {type : TypeId}

/-- What needs the receiver is not well typed without one. -/
theorem not_needsReceiver_of_hasType {owner : ScopeId} {returnType : TypeId}
    (howner : c.scopes.classScopes.get? type = some owner) {e : Expr} {t : TypeId}
    (h : HasType c.typing ⟨c.scopes, type, owner, true, returnType⟩ e t) :
    ¬ LowerEnv.NeedsReceiver ⟨c, strategy, type⟩ e := by
  intro hneeds
  cases h with
  | this hstatic => cases hstatic
  | ownField hstatic => cases hstatic
  | var _ _ href =>
    obtain ⟨scope, hfield⟩ := hneeds
    cases href.symm.trans hfield
  | ownCall hmethod hkind =>
    obtain ⟨callee, s, hcallee, hvirtual⟩ := hneeds
    obtain ⟨scope, symbol, hscope, hsymbol, hcalled⟩ := exists_symbol_of_callee hcallee
    obtain ⟨symbol', hsymbol', hkind', _⟩ := hmethod
    obtain rfl : owner = scope := Option.some.inj (howner.symm.trans hscope)
    obtain rfl : symbol = symbol' := Option.some.inj (hsymbol.symm.trans hsymbol')
    have hstatic := hkind rfl
    rw [SymbolKind.method.inj (hkind'.symm.trans hcalled), hvirtual] at hstatic
    cases hstatic
  | _ => exact hneeds

theorem Lowering.LoweredMethod.receiverFree (h : c.Accepts p) {e : ClassDecl × MethodDecl}
    (he : e ∈ emitted p) (hstatic : e.2.kind = .static) {s s' : Supply} {r : Routine}
    (hr : LoweredMethod c strategy e s r s') : r.body.ReceiverFree := by
  obtain ⟨hk, hm, hkind⟩ := mem_emitted.mp he
  obtain ⟨i, hi⟩ := List.getElem?_of_mem hk
  obtain ⟨owner, parent, scope, returnType, hclass, _, hbody⟩ := h.typed i e.1 hi e.2 hm hkind
  obtain ⟨type, _, code, htype, _, hcode, hrbody⟩ := hr.body
  obtain rfl : classId i = type :=
    Option.some.inj ((h.defined.table.class? i _ hi).symm.trans htype)
  have hisStatic : e.2.isStatic = true := by rw [MethodDecl.isStatic, hstatic]; rfl
  rw [hisStatic] at hbody
  have hmarked := hcode.marked_iff_of_slots (receiverMarking _)
    (fun _ _ => by simp [receiverMarking, LowerEnv.slot])
    fun _ => h.isFormed_of_mem_nodes he
  have hfree : code.ReceiverFree := by
    intro line hline
    by_contra hfree
    obtain ⟨x, hx, hneeds⟩ := hmarked.mp ⟨line, hline, hfree⟩
    obtain ⟨t, ht⟩ := hbody.exists_hasType hx
    exact not_needsReceiver_of_hasType hclass.get? ht hneeds
  rw [hrbody]
  refine Code.receiverFree_append.mpr ⟨hfree, ?_⟩
  split <;> simp [Code.ReceiverFree]

/-- The entry method is static. -/
theorem Context.Accepts.kind_of_isEntry (h : c.Accepts p) (hp : p.DistinctNodes)
    {e : ClassDecl × MethodDecl} (he : e ∈ emitted p) (hentry : c.isEntry e.2 = true) :
    e.2.kind = .static := by
  obtain ⟨entry, hsome, k, hk, hm, hkind⟩ := h.entry
  obtain ⟨hk', hm', _⟩ := mem_emitted.mp he
  have hid : entry.method.id = e.2.id := by
    rw [Context.isEntry, hsome] at hentry
    exact of_decide_eq_true hentry
  have heq := eq_of_id_eq hp (e := (k, entry.method)) hk hm hk' hm' hid
  rw [← heq]
  exact hkind

end

/-- In an accepted program the code of the static methods, the entry method among them, has no
    operand that reads `this`. And whatever programs are defined one after the other, and whether
    the stage ends or stops at an error: what a lookup from inside a static method finds is a
    symbol of a scope that is no class. -/
theorem static_code_never_touches_receiver :
    (∀ (options : Options) (p : Program) (r : Compilation), p.DistinctNodes →
      compile options p = .ok r →
      ∃ c a, analyzed options p = .ok c ∧ c.generate options.strategy p = .ok a ∧
        r.lir = a.render ∧
        List.Forall₂ (fun e routine => routine.label = routineLabel c e ∧
          (e.2.kind = .static → ∀ line ∈ routine.body, ∀ o ∈ line.operands, o.text ≠ "this"))
          (arranged c p) a.routines ∧
        ∀ line ∈ a.main.body, ∀ o ∈ line.operands, o.text ≠ "this") ∧
    ∀ (options : Options) (ps : List Program) (t : ScopeTree),
      (ps.foldl Context.afterDefine (.initial options)).scopes = t →
      ∀ (id m : ScopeId) (name : String) (s : Symbol), m ∈ t.path id →
        (t.scope m).kind.isStaticMethod = true →
        (t.lookup id name = some s ∨ ∃ visible, t.lookupVisible id name visible = some s) →
        (t.scope s.scope).get? name = some s ∧ (t.scope s.scope).kind.isClass = false := by
  refine ⟨?_, ?_⟩
  · intro options p r hp h
    obtain ⟨c, a, hc, ha, hr⟩ := exists_generate_of_compile h
    have haccepts := accepts_of_analyzed hp hc
    have hassembled := haccepts.assembled hp ha
    refine ⟨c, a, hc, ha, hr, ?_, ?_⟩
    · refine List.forall₂_iff_get.mpr ⟨hassembled.forall₂_routines.length_eq, ?_⟩
      intro i hi hi'
      obtain ⟨s, s', hroutine⟩ := (List.forall₂_iff_get.mp hassembled.forall₂_routines).2 i hi hi'
      refine ⟨hroutine.label, fun hstatic => ?_⟩
      exact hroutine.receiverFree haccepts (mem_emitted_of_mem_arranged (List.get_mem ..)) hstatic
    · obtain ⟨rs, s, hmethods, _, _, hmain⟩ := hassembled.routines
      have hmem : (true, a.main) ∈ rs :=
        List.mem_of_mem_filter (hmain ▸ List.mem_singleton_self (true, a.main))
      obtain ⟨e, he, hentry, s₁, s₂, hroutine⟩ := hmethods.exists_of_mem hmem
      exact hroutine.receiverFree haccepts he (haccepts.kind_of_isEntry hp he hentry.symm)
  · rintro options ps t rfl id m name s hm hstatic hlookup
    have hnested := Context.nested_foldl_afterDefine options ps
    rcases hlookup with hlookup | ⟨visible, hlookup⟩
    · exact hnested.not_isClass_of_lookupVisible hm hstatic hlookup
    · exact hnested.not_isClass_of_lookupVisible hm hstatic hlookup

/-- Of a class with a field and a subclass with two static methods: the field is taken from the
    receiver, but not by the static methods, and it is not found from the block in one of them. -/
theorem static_code_never_touches_receiver_shapes :
    ∃ r c a, compile {} Shapes.program = .ok r ∧ analyzed {} Shapes.program = .ok c ∧
      c.generate .baseline Shapes.program = .ok a ∧
      (arranged c Shapes.program).map (fun e => (e.2.name.name, e.2.kind)) =
        [("area", .virtual), ("area", .virtual), ("halvings", .static), ("main", .static)] ∧
      List.Forall₂ (fun e routine =>
        e.2.kind = .static → ∀ line ∈ routine.body, ∀ o ∈ line.operands, o.text ≠ "this")
        (arranged c Shapes.program) a.routines ∧
      (∃ routine ∈ a.routines, ∃ line ∈ routine.body, ∃ o ∈ line.operands, o.text = "this") ∧
      ∃ t s, ([Shapes.program].foldl Context.afterDefine (.initial {})).scopes = t ∧
        (t.scope 6).kind = .block ∧ t.lookup 6 "size" = none ∧ t.lookup 6 "k" = some s ∧
        (t.scope s.scope).kind.isClass = false := by
  have hany : (assembled? {} Shapes.program).any (fun x =>
      (decide ((arranged x.1 Shapes.program).map (fun e => (e.2.name.name, e.2.kind)) =
        [("area", .virtual), ("area", .virtual), ("halvings", .static), ("main", .static)])) &&
      decide (∃ routine ∈ x.2.routines, ∃ line ∈ routine.body, ∃ o ∈ line.operands,
        o.text = "this")) = true := by decide +kernel
  obtain ⟨r, c, a, hcompile, hc, ha, -, hcheck⟩ := exists_compile_of_any hany
  obtain ⟨hmethods, hthis⟩ := Bool.and_eq_true_iff.mp hcheck
  obtain ⟨c', a', hc', ha', -, hroutines, -⟩ :=
    static_code_never_touches_receiver.1 {} Shapes.program r Shapes.distinctNodes hcompile
  obtain ⟨rfl, rfl⟩ := assembled_unique hc ha hc' ha'
  have hlookup : ∃ s, ([Shapes.program].foldl Context.afterDefine (.initial {})).scopes.lookup 6
      "k" = some s := Option.isSome_iff_exists.mp (by decide +kernel)
  obtain ⟨s, hs⟩ := hlookup
  have hclass := static_code_never_touches_receiver.2 {} [Shapes.program] _ rfl 6 5 "k" s
    (by decide +kernel) (by decide +kernel) (.inl hs)
  exact ⟨r, c, a, hcompile, hc, ha, of_decide_eq_true hmethods,
    hroutines.imp fun _ _ hroutine => hroutine.2, of_decide_eq_true hthis, _, s, rfl,
    by decide +kernel, by decide +kernel, hs, hclass.2⟩

end IcLir
