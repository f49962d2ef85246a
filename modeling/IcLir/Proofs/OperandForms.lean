import IcLir.Proofs.OperandNames
import IcLir.Proofs.RegisterUse

/-
  The operand forms of instructions. Which operands an instruction takes is a table by opcode
  (`Opcode.takes`): memory is reached by moves from and to registers only, and no move has memory
  on both sides. Lowering keeps to the table, since a value in memory is loaded before it is used
  and a target of an assignment is a variable, a field or an element.
-/

namespace IcLir

open Lowering

/-! ## Forms -/

namespace Operand

/-- A numbered register. -/
def isGeneral : Operand → Bool
  | .reg (.general _) => true
  | _ => false

def isField : Operand → Bool
  | .field .. => true
  | _ => false

def isElement : Operand → Bool
  | .element .. => true
  | _ => false

/-- A register or a literal. -/
def isImmediate (o : Operand) : Bool := o.isGeneral || o.isLiteral

/-- An operand that is not reached through a register. -/
def isDirect (o : Operand) : Bool := o.isImmediate || o.isSlot

/-- What a value is read from. -/
def isReadable (o : Operand) : Bool := o.isDirect || o.isIndirect

/-- What a value is stored to. -/
def isStorage (o : Operand) : Bool := o.isSlot || o.isIndirect

end Operand

/-- Whether `op src,dst` has a legal form. -/
def Opcode.takes (op : Opcode) (src dst : Operand) : Bool :=
  match op with
  | .move => (src.isDirect && dst.isGeneral) || (src.isImmediate && dst.isSlot)
  | .moveField => (src.isField && dst.isGeneral) || (src.isImmediate && dst.isField)
  | .moveArray => (src.isElement && dst.isGeneral) || (src.isImmediate && dst.isElement)
  | .add | .sub | .mul | .div | .mod | .xor | .compare => src.isDirect && dst.isGeneral
  | .arrayLength | .neg | .jump | .jumpTrue | .jumpFalse | .jumpG | .jumpGE | .jumpL | .jumpLE
  | .library | .staticCall | .virtualCall | .ret => false

/-- Whether an instruction has a legal form. The instructions without a rule have registers
    only. -/
def Instr.isLegal (i : Instr) : Bool :=
  match i with
  | .move src dst => i.opcode.takes src dst
  | .arith _ src dst | .xor src dst | .compare src dst => i.opcode.takes src (.reg dst)
  | .library _ args _ => args.all Operand.isImmediate
  | .ret value => !value.isIndirect
  | .arrayLength .. | .neg _ | .jump .. | .staticCall .. | .virtualCall .. => true

def Line.isLegal : Line → Bool
  | .label _ => true
  | .instr i => i.isLegal

def Code.IsLegal (code : Code) : Prop := ∀ line ∈ code, line.isLegal = true

instance (code : Code) : Decidable code.IsLegal := inferInstanceAs (Decidable (∀ _ ∈ _, _))

namespace Operand

@[simp] theorem isImmediate_r (n : Nat) : (r n).isImmediate = true := rfl

@[simp] theorem isImmediate_int (value : Int) : (int value).isImmediate = true := rfl

/-- All but registers can be read. -/
theorem isReadable_of_ne {o : Operand} (h : ∀ x, o ≠ .reg x) : o.isReadable = true := by
  cases o with
  | reg x => exact absurd rfl (h x)
  | int | label | slot | field | element => rfl

theorem isReadable_of_isStorage {o : Operand} (h : o.isStorage = true) : o.isReadable = true := by
  refine isReadable_of_ne fun x hx => ?_
  rw [hx] at h
  cases h

end Operand

theorem LowerEnv.isStorage_slot (env : LowerEnv) (scope : ScopeId) (name : String) :
    (env.slot scope name).isStorage = true := rfl

/-! ## Lines -/

namespace Line

variable {src dst : Operand} {n : Nat}

@[simp] theorem isLegal_arith {op : ArithOp} :
    (instr (.arith op src (.general n))).isLegal = src.isDirect := by
  cases op <;> simp [isLegal, Instr.isLegal, Instr.opcode, ArithOp.opcode, Opcode.takes,
    Operand.isGeneral]

@[simp] theorem isLegal_compare :
    (instr (.compare src (.general n))).isLegal = src.isDirect := by
  simp [isLegal, Instr.isLegal, Instr.opcode, Opcode.takes, Operand.isGeneral]

/-- Every value can be loaded. -/
@[simp] theorem isLegal_move_r : (instr (.move src (.r n))).isLegal = src.isReadable := by
  cases src with
  | reg x => cases x <;> rfl
  | int | label | slot | field | element => rfl

/-- A register or a literal can be stored anywhere. -/
theorem isLegal_store (hindirect : src.isIndirect = false) (hslot : src.isSlot = false)
    (hdst : dst.isStorage = true) : (instr (.move src dst)).isLegal = src.isReadable := by
  have hsrc : src.isReadable = src.isImmediate := by
    simp [Operand.isReadable, Operand.isDirect, hindirect, hslot]
  cases dst with
  | reg | int | label => cases hdst
  | slot | field | element =>
    simp [isLegal, Instr.isLegal, Instr.opcode, hindirect, Operand.moveOpcode, Opcode.takes, hsrc,
      Operand.isSlot, Operand.isField, Operand.isElement, Operand.isGeneral]

end Line

/-! ## The code of bodies -/

namespace Lowering

open Code Pass

variable {env : LowerEnv}

theorem isReadable_literalOperand {value : Literal} {s s' : Supply} {o : Operand}
    (h : literalOperand value s = .ok o s') : o.isReadable = true := by
  have hlit : Meets CompileError.Any (literalOperand value) s fun o _ => o.isReadable = true := by
    unfold literalOperand
    split
    all_goals exact rfl
  exact hlit.of_ok h

/-- A target of an assignment is a variable or lies in memory. -/
theorem Lowered.isStorage {e : Expr} {d : Nat} {s s' : Supply} {r : Code × Operand}
    (h : Lowered env e d s r s') (he : e.isLocation = true) : r.2.isStorage = true := by
  cases h with
  | var | ownField | field => rfl
  | @index _ _ _ _ _ _ rightFirst => cases rightFirst <;> rfl
  | literal | staticCall | ownStatic | ownVirtual | methodCall | this | newObject | newArray
  | length | logic | compare | arith | unary | paren => cases he

/-- No line is illegal, since all operands can be read. A value that is returned counts too. -/
def illegalMarking (env : LowerEnv) : Marking env where
  line l := l.isLegal = false ∨ ∃ o, l = .instr (.ret o) ∧ o.isReadable = false
  operand o := o.isReadable = false
  node _ := False
  r _ := Bool.noConfusion
  int _ := Bool.noConfusion
  label _ := by simp [Line.isLegal]
  jump _ _ _ _ := by simp [Line.isLegal, Instr.isLegal, jumpLine]
  load o n := by simp
  compare o n h := by simp [Operand.isReadable, h]
  arith op o n h := by simp [Operand.isReadable, h]
  ret o h := by simp [Line.isLegal, Instr.isLegal, h]
  storeSlot src scope name hi hs := by
    have hstorage := env.isStorage_slot scope name
    simp [Line.isLegal_store hi hs hstorage, Operand.isReadable_of_isStorage hstorage]
  store src e d s r s' hi hs hr he := by
    have hstorage := hr.isStorage he
    simp [Line.isLegal_store hi hs hstorage, Operand.isReadable_of_isStorage hstorage]
  own e lines os howned := by
    cases howned with
    | literal hv => simp [isReadable_literalOperand hv]
    | staticCall _ _ hline | ownStatic _ _ hline =>
      rcases eq_staticCallLine hline with ⟨_, rfl⟩ | ⟨_, _, _, _, rfl⟩ <;>
        simp [Line.isLegal, Instr.isLegal]
    | @ownVirtual _ _ _ _ d _ _ _ _ _ hline =>
      obtain ⟨_, _, _, _, _, rfl⟩ := eq_virtualCallLine hline
      have hmove : (Instr.move .receiver (.r d)).opcode.takes .receiver (.r d) = true := rfl
      simp [hmove, Line.isLegal, Instr.isLegal]
    | methodCall _ _ hline =>
      obtain ⟨_, _, _, _, _, rfl⟩ := eq_virtualCallLine hline
      simp [Line.isLegal, Instr.isLegal, Guard.call]
    | @newObject _ _ _ _ d =>
      have hstore (l : String) : (Instr.move (.label l) (.field d 0)).opcode.takes
          (.label l) (.field d 0) = true := rfl
      simp [hstore, Line.isLegal, Instr.isLegal, libraryCall]
    | @newArray _ _ _ d =>
      have hmul : (Instr.arith .mul (.int 4) (.general d)).opcode.takes (.int 4)
          (.reg (.general d)) = true := rfl
      simp [hmul, Line.isLegal, Instr.isLegal, Guard.call, libraryCall]
    | @arith _ op => cases op.divides <;> simp [Line.isLegal, Instr.isLegal, Guard.call]
    | @unary _ op _ d =>
      have hunary : (Line.instr (unaryCode op d)).isLegal = true := by cases op <;> rfl
      cases op <;> simp [unaryCode] at hunary ⊢ <;> simp [hunary]
    | @ownField _ _ _ d =>
      have hthis : (Instr.move .receiver (.r d)).opcode.takes .receiver (.r d) = true := rfl
      simp [hthis, Line.isLegal, Instr.isLegal, Operand.isReadable_of_ne]
    | _ =>
      simp [Line.isLegal, Instr.isLegal, Guard.call, libraryCall, Operand.isReadable_of_ne,
        Operand.receiver, LowerEnv.slot]

theorem LoweredStmts.isLegal {loops : Loops} {scope : ScopeId} {stmts : List Stmt}
    {s s' : Supply} {code : Code} (hformed : ∀ x ∈ Stmt.nodesOfList stmts, x.isFormed = true)
    (h : LoweredStmts env loops scope stmts s code s') : code.IsLegal := by
  have hmarked := h.marked_iff_of_slots (illegalMarking env) (fun _ _ => Bool.noConfusion) hformed
  intro line hline
  by_contra hlegal
  obtain ⟨_, _, hnode⟩ := hmarked.mp ⟨line, hline, .inl (Bool.eq_false_iff.mpr hlegal)⟩
  exact hnode

end Lowering

/-! ## Programs -/

theorem Lowering.LoweredMethod.isLegal {p : Program} {c : Context} {strategy : Strategy}
    (hc : c.Accepts p) {e : ClassDecl × MethodDecl} (he : e ∈ emitted p) {s s' : Supply}
    {r : Routine} (h : LoweredMethod c strategy e s r s') : r.body.IsLegal := by
  obtain ⟨type, scope, code, _, _, hcode, hbody⟩ := h.body
  have hreturn : Code.IsLegal (if needsReturn e.2 then [Code.returnNothing] else []) := by
    split <;> decide
  rw [hbody]
  exact List.forall_mem_append.mpr
    ⟨hcode.isLegal fun _ => hc.isFormed_of_mem_nodes he, hreturn⟩

/-- Every instruction of a generated method has a legal form. -/
theorem instructions_have_legal_forms {p : Program} (hp : p.DistinctNodes) {options : Options}
    {r : Compilation} (h : compile options p = .ok r) :
    ∃ c a, analyzed options p = .ok c ∧ c.generate options.strategy p = .ok a ∧
      r.lir = a.render ∧
      ∀ routine ∈ a.routines, ∀ i, .instr i ∈ routine.body → i.isLegal = true := by
  obtain ⟨c, a, hc, ha, hlir⟩ := exists_generate_of_compile h
  refine ⟨c, a, hc, ha, hlir, ?_⟩
  have haccepts := accepts_of_analyzed hp hc
  intro routine hroutine i hi
  obtain ⟨e, he, s, s', hlowered⟩ := (haccepts.assembled hp ha).exists_of_mem_routines hroutine
  exact hlowered.isLegal haccepts he _ hi

namespace Moves

open Shapes

/-- `Cell c = new Cell(); int[] a = new int[2]; c.v = 1; a[0] = c.v; a[1] = a[0] - c.v;` -/
def main : MethodDecl := mainOf 1 [
  .declare (node 10) (type (.named "Cell")) (name "c")
    (some (.newObject (node 20) (name "Cell"))),
  .declare (node 11) ⟨.int, 1, line 1⟩ (name "a")
    (some (.newArray (node 21) (type .int) (.literal (node 22) (.int 2)))),
  .assign (node 12) (.field (node 23) (.var (node 24) (name "c")) (name "v"))
    (.literal (node 25) (.int 1)),
  .assign (node 13)
    (.index (node 26) (.var (node 27) (name "a")) (.literal (node 28) (.int 0)))
    (.field (node 29) (.var (node 30) (name "c")) (name "v")),
  .assign (node 14)
    (.index (node 31) (.var (node 32) (name "a")) (.literal (node 33) (.int 1)))
    (.binary (node 34) (.arith .sub)
      (.index (node 35) (.var (node 36) (name "a")) (.literal (node 37) (.int 0)))
      (.field (node 38) (.var (node 39) (name "c")) (name "v")))]

def program : Program where
  classes := [{ name := name "Cell", superclass := none
                fields := [⟨type .int, name "v"⟩], methods := [main] }]

theorem distinctNodes : program.DistinctNodes := ⟨by decide, by decide, by decide⟩

/-- Loads and stores of a field and of an element. -/
def moves : List Instr :=
  [.move (.int 1) (.field 1 1), .move (.field 0 1) (.r 0), .move (.r 0) (.element 1 2),
   .move (.element 0 1) (.r 0)]

end Moves

/-- The sample moves values to and from memory in all legal ways. -/
theorem instructions_have_legal_forms_moves :
    ∃ r c a, compile { optimize := true } Moves.program = .ok r ∧
      analyzed { optimize := true } Moves.program = .ok c ∧
      c.generate .pressureAware Moves.program = .ok a ∧
      ∀ i ∈ Moves.moves, .instr i ∈ a.main.body ∧ i.isLegal = true := by
  have hq : (assembled? { optimize := true } Moves.program).any
      (fun x => decide (∀ i ∈ Moves.moves, Line.instr i ∈ x.2.main.body)) = true := by
    decide +kernel
  obtain ⟨r, c, a, hr, hc, ha, _, hq⟩ := exists_compile_of_any hq
  obtain ⟨c', a', hc', ha', _, hall⟩ := instructions_have_legal_forms Moves.distinctNodes hr
  obtain ⟨rfl, rfl⟩ := assembled_unique hc ha hc' ha'
  have hmem := of_decide_eq_true hq
  have hmain : a.main ∈ a.routines := by simp [Assembly.routines]
  exact ⟨r, c, a, hr, hc, ha, fun i hi => ⟨hmem i hi, hall a.main hmain i (hmem i hi)⟩⟩

end IcLir
