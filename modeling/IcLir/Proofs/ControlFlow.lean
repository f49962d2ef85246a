import IcLir.Proofs.ProgramCode
import IcLir.Proofs.StatementRuns
import Mathlib.Logic.Relation

/-
  The ways of control through the code of a method. A place is given by the code that is left
  there. From a line control may go on to the next one, or to the label that the line jumps to,
  whatever its condition (`Flows`). Jumps never lead out of the code of an expression, and out
  of the code of a statement only to the innermost loop (`JumpsTo`). From this follows which
  statements let control come out at their end: those that `completes` says, and no other.
-/

namespace IcLir

open Lowering

namespace Line

/-- The label that a line may jump to. -/
def target? : Line → Option String
  | .instr (.jump _ target) => some target
  | _ => none

/-- Whether control may go on to the next line. -/
def goesOn : Line → Bool
  | .instr (.jump .always _) => false
  | .instr (.ret _) => false
  | _ => true

end Line

namespace Code

/-! ## Jumps -/

def targets (code : Code) : List String := code.filterMap Line.target?

@[simp] theorem targets_append (a b : Code) : targets (a ++ b) = targets a ++ targets b :=
  List.filterMap_append

theorem mem_targets_of_suffix {condition : Condition} {target : String} {rest code : Code}
    (h : .instr (.jump condition target) :: rest <:+ code) : target ∈ targets code := by
  obtain ⟨before, rfl⟩ := h
  rw [targets_append]
  exact List.mem_append_right _ (.head _)

theorem exists_of_mem_labels {name : String} {code : Code} (h : name ∈ labels code) :
    ∃ a b, code = a ++ .label name :: b := by
  obtain ⟨line, hmem, hline⟩ := List.mem_filterMap.mp h
  cases line with
  | label n =>
    obtain rfl := Option.some.inj hline
    exact List.append_of_mem hmem
  | instr => cases hline

/-- Every jump goes to a label of the code or to one of `others`. -/
def JumpsTo (others : List String) (code : Code) : Prop :=
  ∀ target ∈ targets code, target ∈ labels code ∨ target ∈ others

/-- Control goes through the lines one after the other. -/
def Straight (code : Code) : Prop := ∀ line ∈ code, line.target? = none ∧ line.goesOn = true

section

variable {others others' : List String} {a b code : Code} {name : String}

theorem straight_nil : Straight [] := fun _ h => by cases h

theorem Straight.cons {line : Line} (h : line.target? = none ∧ line.goesOn = true)
    (hcode : Straight code) : Straight (line :: code) := by
  intro x hx
  rcases List.mem_cons.mp hx with rfl | hx
  · exact h
  · exact hcode x hx

theorem straight_load (src : Operand) (n : Nat) : Straight (load src n) := by
  unfold load
  split
  · exact straight_nil
  · exact straight_nil.cons ⟨rfl, rfl⟩

namespace JumpsTo

theorem append (ha : JumpsTo others a) (hb : JumpsTo others b) : JumpsTo others (a ++ b) := by
  intro target h
  rw [targets_append] at h
  rw [labels_append, List.mem_append]
  rcases List.mem_append.mp h with h | h
  · rcases ha target h with h | h
    · exact .inl (.inl h)
    · exact .inr h
  · rcases hb target h with h | h
    · exact .inl (.inr h)
    · exact .inr h

theorem mono (h : JumpsTo others code) (hsub : others ⊆ others') : JumpsTo others' code :=
  fun target ht => (h target ht).imp_right (@hsub target)

theorem nil : JumpsTo others [] := fun _ h => by cases h

theorem cons {line : Line} (hline : line.target? = none) (h : JumpsTo others code) :
    JumpsTo others (line :: code) := by
  intro target ht
  have htargets : targets (line :: code) = targets code := List.filterMap_cons_none hline
  rw [htargets] at ht
  refine (h target ht).imp_left fun hlabel => ?_
  exact ((List.sublist_cons_self line code).filterMap Line.label?).subset hlabel

theorem jump {condition : Condition} (hname : name ∈ others) (h : JumpsTo others code) :
    JumpsTo others (jumpLine condition name :: code) := by
  intro target ht
  rcases List.mem_cons.mp ht with rfl | ht
  · exact .inr hname
  · exact h target ht

/-- A label of the code itself need not be mentioned. -/
theorem close (h : JumpsTo (name :: others) code) (hname : name ∈ labels code) :
    JumpsTo others code := by
  intro target ht
  rcases h target ht with h | h
  · exact .inl h
  · rcases List.mem_cons.mp h with rfl | h
    · exact .inl hname
    · exact .inr h

end JumpsTo

theorem Straight.jumpsTo (h : Straight code) : JumpsTo others code := by
  intro target ht
  obtain ⟨line, hmem, hline⟩ := List.mem_filterMap.mp ht
  rw [(h line hmem).1] at hline
  cases hline

end

/-! ## Ways -/

/-- Where control may go from a place in the code `whole`. Nothing is left outside: behind the
    last line, and at a label that `whole` does not have. -/
inductive Flows (whole : Code) : Code → Code → Prop where
  | next {line : Line} {rest : Code} : line.goesOn = true → Flows whole (line :: rest) rest
  | jump {condition : Condition} {target : String} {rest : Code} :
    Flows whole (.instr (.jump condition target) :: rest) ((after? target whole).getD [])

def Path (whole : Code) : Code → Code → Prop := Relation.ReflTransGen (Flows whole)

/-- Some way leads out of the code. -/
def Leaves (whole place : Code) : Prop := Path whole place []

/-- Wherever the code stands, some way leads through it to its end. -/
def Passable (code : Code) : Prop :=
  ∀ whole post, Placed whole code post → Path whole (code ++ post) post

section

variable {whole a b code post : Code} {name : String} {others : List String}

/-- A way that comes to an end has come outside or to a return. -/
theorem exists_flows_or_ret {place : Code} (h : place ≠ []) :
    (∃ next, Flows whole place next) ∨ ∃ value rest, place = .instr (.ret value) :: rest := by
  match place with
  | [] => exact absurd rfl h
  | .label _ :: rest => exact .inl ⟨rest, .next rfl⟩
  | .instr i :: rest =>
    cases i with
    | jump => exact .inl ⟨_, .jump⟩
    | ret value => exact .inr ⟨value, rest, rfl⟩
    | move | arrayLength | arith | xor | neg | compare | library | staticCall | virtualCall =>
      exact .inl ⟨rest, .next rfl⟩

namespace Passable

theorem nil : Passable [] := fun _ _ _ => .refl

theorem append (ha : Passable a) (hb : Passable b) : Passable (a ++ b) := by
  intro whole post hp
  rw [List.append_assoc]
  exact (ha _ _ hp.left).trans (hb _ _ hp.right)

theorem cons {line : Line} (hline : line.goesOn = true) (h : Passable code) :
    Passable (line :: code) :=
  fun whole post hp => .head (.next hline) (h whole post hp.tail)

/-- A jump to a label further on. -/
theorem jump {condition : Condition} (h : Passable b) :
    Passable (jumpLine condition name :: (a ++ .label name :: b)) := by
  intro whole post hp
  have hdest : after? name whole = some (b ++ post) := hp.tail.right.after?
  refine .head .jump ?_
  rw [hdest]
  exact h whole post hp.tail.right.tail

end Passable

theorem Straight.passable (h : Straight code) : Passable code := by
  induction code with
  | nil => exact .nil
  | cons line code ih =>
    exact .cons (h line List.mem_cons_self).2 (ih fun x hx => h x (List.mem_cons_of_mem _ hx))

/-- Code that control can leave at its end, and nowhere else. -/
structure Sealed (code : Code) : Prop where
  closed : JumpsTo [] code
  passable : Passable code

/-- A way out of the whole leads out of each piece that it comes to: at the end of the piece, or
    by a jump to a label that it does not have. -/
theorem Leaves.out_of (h : Leaves whole (code ++ post)) (hp : Placed whole code post)
    (hj : JumpsTo others code) :
    Leaves whole post ∨ ∃ name ∈ others, Leaves whole ((after? name whole).getD []) := by
  -- along the way, as long as it is at a line of the piece
  suffices hway : ∀ place, Leaves whole place → ∀ rest, rest <:+ code → place = rest ++ post →
      Leaves whole post ∨ ∃ name ∈ others, Leaves whole ((after? name whole).getD []) from
    hway _ h code (List.suffix_refl code) rfl
  intro place hplace
  induction hplace using Relation.ReflTransGen.head_induction_on with
  | refl =>
    intro rest _ heq
    obtain ⟨_, rfl⟩ := List.append_eq_nil_iff.mp heq.symm
    exact .inl .refl
  | @head place next hstep hnext ih =>
    intro rest hrest heq
    cases rest with
    | nil =>
      subst heq
      exact .inl (.head hstep hnext)
    | cons line rest =>
      subst heq
      have htail : rest <:+ code := (List.suffix_cons line rest).trans hrest
      cases hstep with
      | next _ => exact ih rest htail rfl
      | jump =>
        rcases hj _ (mem_targets_of_suffix hrest) with hlabel | hother
        · obtain ⟨before, dest, rfl⟩ := exists_of_mem_labels hlabel
          have hdest := hp before _ dest rfl
          rw [hdest] at ih
          exact ih dest ((List.suffix_cons _ dest).trans (List.suffix_append before _)) rfl
        · exact .inr ⟨_, hother, hnext⟩

theorem not_leaves_ret {value : Operand} {rest : Code} :
    ¬ Leaves whole (.instr (.ret value) :: rest) := by
  intro h
  rcases Relation.ReflTransGen.cases_head h with h | ⟨_, hstep, _⟩
  · cases h
  · cases hstep with
    | next hgoes => cases hgoes

theorem Leaves.of_jump {condition : Condition} {rest : Code}
    (h : Leaves whole (jumpLine condition name :: rest)) :
    (condition ≠ .always ∧ Leaves whole rest) ∨ Leaves whole ((after? name whole).getD []) := by
  rcases Relation.ReflTransGen.cases_head h with h | ⟨_, hstep, hnext⟩
  · cases h
  · cases hstep with
    | next hgoes =>
      refine .inl ⟨?_, hnext⟩
      rintro rfl
      cases hgoes
    | jump => exact .inr hnext

theorem Leaves.of_always {rest : Code} (h : Leaves whole (jumpLine .always name :: rest)) :
    Leaves whole ((after? name whole).getD []) := by
  rcases h.of_jump with ⟨hne, _⟩ | h
  · exact absurd rfl hne
  · exact h

theorem Leaves.of_sealed (h : Leaves whole (code ++ post)) (hp : Placed whole code post)
    (hcode : Sealed code) : Leaves whole post := by
  rcases h.out_of hp hcode.closed with h | ⟨_, hname, _⟩
  · exact h
  · cases hname

end

namespace Sealed

variable {a b code : Code}

theorem jumpsTo {others : List String} (h : Sealed code) : JumpsTo others code :=
  h.closed.mono (List.nil_subset others)

theorem of_straight (h : Straight code) : Sealed code := ⟨h.jumpsTo, h.passable⟩

theorem append (ha : Sealed a) (hb : Sealed b) : Sealed (a ++ b) :=
  ⟨ha.closed.append hb.closed, ha.passable.append hb.passable⟩

theorem load (h : Sealed code) (src : Operand) (n : Nat) :
    Sealed (code ++ Code.load src n) :=
  h.append (.of_straight (straight_load src n))

/-- With a line at its end that neither jumps nor returns. -/
theorem concat {line : Line} (h : Sealed code)
    (hline : line.target? = none ∧ line.goesOn = true) : Sealed (code ++ [line]) :=
  h.append (.of_straight (straight_nil.cons hline))

end Sealed

end Code

/-! ## Expressions -/

namespace Lowering

open Code Pass

variable {env : LowerEnv}

section

variable {callee : Callee} {d : Nat} {line : Line} {s s' : Supply}

theorem plain_staticCallLine {name : String}
    (h : env.staticCallLine callee name d s = .ok line s') :
    line.target? = none ∧ line.goesOn = true := by
  rcases eq_staticCallLine h with ⟨_, rfl⟩ | ⟨_, _, _, _, rfl⟩ <;> exact ⟨rfl, rfl⟩

theorem plain_virtualCallLine (h : env.virtualCallLine callee d s = .ok line s') :
    line.target? = none ∧ line.goesOn = true := by
  obtain ⟨_, _, _, _, _, rfl⟩ := eq_virtualCallLine h
  exact ⟨rfl, rfl⟩

end

theorem plain_unaryCode (op : UnaryOp) (d : Nat) :
    (Line.instr (unaryCode op d)).target? = none ∧ (Line.instr (unaryCode op d)).goesOn = true := by
  cases op <;> exact ⟨rfl, rfl⟩

theorem straight_rightOperand (strategy : Strategy) (keep : Bool) (value : Operand) (n : Nat) :
    Straight (rightOperand strategy keep value n).1 := by
  unfold rightOperand
  split
  · exact straight_nil
  · exact straight_load value n

theorem straight_storeSource (strategy : Strategy) (value : Operand) :
    Straight (storeSource strategy value).1 := by
  unfold storeSource
  split
  · exact straight_nil
  · exact straight_load value 0

section

variable {l r : Code × Operand} {os : Operands}

theorem sealed_operands (hl : Sealed l.1) (hr : Sealed r.1) (strategy : Strategy)
    (rightFirst keep : Bool) (d : Nat) :
    Sealed (operands strategy rightFirst keep d l r).code := by
  cases rightFirst with
  | false =>
    exact ((hl.load l.2 d).append hr).append
      (.of_straight (straight_rightOperand strategy keep r.2 (d + 1)))
  | true =>
    exact ((hr.append (.of_straight (straight_rightOperand strategy keep r.2 d))).append hl).load
      l.2 (d + 1)

theorem sealed_indexCode (hl : Sealed l.1) (hr : Sealed r.1) (rightFirst : Bool)
    (d : Nat) : Sealed (indexCode rightFirst l r d).1 := by
  cases rightFirst with
  | false =>
    have harray : Sealed (l.1 ++ Code.load l.2 d ++ [Guard.nullRef.call [d]]) :=
      (hl.load l.2 d).concat ⟨rfl, rfl⟩
    exact ((harray.append hr).load r.2 (d + 1)).concat ⟨rfl, rfl⟩
  | true =>
    have hboth := ((hr.load r.2 d).append hl).load l.2 (d + 1)
    exact hboth.append (.of_straight ((straight_nil.cons ⟨rfl, rfl⟩).cons ⟨rfl, rfl⟩))

theorem sealed_operationCode (isConcat : Bool) (op : ArithOp) (d : Nat)
    (h : Sealed os.code) : Sealed (operationCode isConcat op os d) := by
  cases isConcat with
  | true => exact h.concat ⟨rfl, rfl⟩
  | false =>
    have hguard : Sealed (os.code ++ divisorGuard op os.right) := by
      rcases divisorGuard_cases op os.right with hnil | ⟨n, -, hcall⟩
      · rw [hnil, List.append_nil]
        exact h
      · rw [hcall]
        exact h.concat ⟨rfl, rfl⟩
    exact (hguard.concat ⟨rfl, rfl⟩).load (.r os.left) d

theorem sealed_compareCode (op : CompareOp) (names : LabelSet) (d : Nat)
    (h : Sealed os.code) : Sealed (compareCode op names os d) where
  closed := by
    have hopen : JumpsTo [names.trueLabel, names.endLabel] (compareCode op names os d) := by
      refine (h.jumpsTo).append (.cons rfl (.jump (.head _) ?_))
      exact .cons rfl (.jump (.tail _ (.head _)) (.cons rfl (.cons rfl (.cons rfl .nil))))
    have hlabels := labels_compareCode op names os d
    exact (hopen.close (by simp [hlabels])).close (by simp [hlabels])
  passable :=
    h.passable.append (.cons rfl (.jump (a := [_, _]) (.cons rfl (.cons rfl .nil))))

theorem sealed_logicCode (op : LogicOp) (names : LabelSet) (d : Nat) (hl : Sealed l.1)
    (hr : Sealed r.1) : Sealed (logicCode op names l r d) where
  closed := by
    have htest : JumpsTo [exitLabel op names, names.endLabel]
        (logicTest op d (exitLabel op names)) := .cons rfl (.jump (.head _) .nil)
    have htail : JumpsTo [exitLabel op names, names.endLabel] (op.tail names d) :=
      .cons rfl (.jump (.tail _ (.head _)) (.cons rfl (.cons rfl (.cons rfl .nil))))
    have hopen : JumpsTo [exitLabel op names, names.endLabel] (logicCode op names l r d) := by
      rw [LogicOp.logicCode_eq]
      refine ((hl.load l.2 d).jumpsTo).append (htest.append ?_)
      exact ((hr.load r.2 d).jumpsTo).append (htest.append htail)
    have hlabels := labels_logicCode op names l r d
    exact (hopen.close (by simp [hlabels])).close (by simp [hlabels])
  passable := by
    rw [LogicOp.logicCode_eq]
    have htail : Passable (op.tail names d) :=
      .cons rfl (.jump (a := [_, _]) .nil)
    refine (hl.load l.2 d).passable.append (.cons rfl (.cons rfl ?_))
    exact (hr.load r.2 d).passable.append (.cons rfl (.cons rfl htail))

end

mutual

/-- Control leaves the code of an expression at its end only. -/
theorem Lowered.sealed (h : Lowered env e d s r s') : Sealed r.1 := by
  match h with
  | .literal _ => exact .of_straight straight_nil
  | .var _ => exact .of_straight straight_nil
  | .ownField _ _ => exact .of_straight (straight_nil.cons ⟨rfl, rfl⟩)
  | .field hobject _ _ => exact (hobject.sealed.load _ _).concat ⟨rfl, rfl⟩
  | .index hpair =>
    obtain ⟨hl, hr⟩ := hpair.sealed
    exact sealed_indexCode hl hr _ _
  | .staticCall _ _ hargs hline | .ownStatic _ _ hargs hline =>
    exact hargs.sealed.concat (plain_staticCallLine hline)
  | .ownVirtual _ _ hargs hline =>
    have hreceiver : Sealed [Line.instr (.move .receiver (.r d))] :=
      .of_straight (straight_nil.cons ⟨rfl, rfl⟩)
    exact (hreceiver.append hargs.sealed).concat (plain_virtualCallLine hline)
  | .methodCall _ _ hobject hargs hline =>
    exact (((hobject.sealed.load _ _).concat ⟨rfl, rfl⟩).append hargs.sealed).concat
      (plain_virtualCallLine hline)
  | .this => exact .of_straight straight_nil
  | .newObject _ _ => exact .of_straight ((straight_nil.cons ⟨rfl, rfl⟩).cons ⟨rfl, rfl⟩)
  | .newArray hsize =>
    exact (hsize.sealed.load _ _).append
      (.of_straight (((straight_nil.cons ⟨rfl, rfl⟩).cons ⟨rfl, rfl⟩).cons ⟨rfl, rfl⟩))
  | .length harray =>
    exact (harray.sealed.load _ _).append
      (.of_straight ((straight_nil.cons ⟨rfl, rfl⟩).cons ⟨rfl, rfl⟩))
  | .logic hl hr => exact sealed_logicCode _ _ _ hl.sealed hr.sealed
  | .compare hpair =>
    obtain ⟨hl, hr⟩ := hpair.sealed
    exact sealed_compareCode _ _ _ (sealed_operands hl hr _ _ _ _)
  | .arith _ hpair =>
    obtain ⟨hl, hr⟩ := hpair.sealed
    exact sealed_operationCode _ _ _ (sealed_operands hl hr _ _ _ _)
  | .unary hoperand => exact (hoperand.sealed.load _ _).concat (plain_unaryCode _ _)
  | .paren hinner => exact hinner.sealed

theorem LoweredPair.sealed (h : LoweredPair env left right d s rightFirst l r s') :
    Sealed l.1 ∧ Sealed r.1 := by
  match h with
  | .leftFirst _ hl hr => exact ⟨hl.sealed, hr.sealed⟩
  | .rightFirst _ hr hl => exact ⟨hl.sealed, hr.sealed⟩

theorem LoweredArgs.sealed (h : LoweredArgs env es d s code s') : Sealed code := by
  match h with
  | .nil => exact .of_straight straight_nil
  | .cons he hes => exact (he.sealed.load _ _).append hes.sealed

end

end Lowering

/-! ## Statements -/

namespace Stmt

mutual

/-- Whether control can come out at the end of a statement. Conditions are not looked at: the
    end of a loop and of an if without else is always in reach. -/
def completes : Stmt → Bool
  | .assign .. | .call .. | .declare .. | .ifThen .. | .loop .. => true
  | .ret .. | .breakLoop _ | .continueLoop _ => false
  | .ifElse _ _ thenBranch elseBranch => thenBranch.completes || elseBranch.completes
  | .block _ stmts => completesAll stmts

def completesAll : List Stmt → Bool
  | [] => true
  | stmt :: stmts => stmt.completes && completesAll stmts

end

theorem completesAll_of_getLast? {stmts : List Stmt}
    (h : (stmts.getLast?.map isReturn).getD false = true) : completesAll stmts = false := by
  induction stmts with
  | nil => cases h
  | cons stmt rest ih =>
    cases rest with
    | nil =>
      cases stmt with
      | ret => rfl
      | assign | call | ifThen | ifElse | loop | breakLoop | continueLoop | block | declare =>
        cases h
    | cons => rw [completesAll, ih h, Bool.and_false]

end Stmt

/-- The labels that a statement in the loops can leave for. -/
def Loops.targets : Loops → List String
  | [] => []
  | names :: _ => [names.endLabel, names.conditionLabel]

theorem Loops.mem_targets_of_break {loops : Loops} {target : String}
    (h : loops.breakTarget? = some target) : target ∈ loops.targets := by
  cases loops with
  | nil => cases h
  | cons names _ =>
    obtain rfl := Option.some.inj h
    exact .head _

theorem Loops.mem_targets_of_continue {loops : Loops} {target : String}
    (h : loops.continueTarget? = some target) : target ∈ loops.targets := by
  cases loops with
  | nil => cases h
  | cons names _ =>
    obtain rfl := Option.some.inj h
    exact .tail _ (.head _)

namespace Lowering

open Code

variable {env : LowerEnv}

section

variable {l r : Code × Operand} {test code code' : Code} {others : List String}

theorem sealed_conditionCode (h : Sealed r.1) : Sealed (conditionCode r) :=
  (h.load r.2 0).concat ⟨rfl, rfl⟩

/-- The code that a value is stored with, behind that of the place. -/
theorem sealed_store (strategy : Strategy) (place : Operand) (hr : Sealed r.1)
    (hcode : Sealed code) :
    Sealed (r.1 ++ (storeSource strategy r.2).1 ++ code ++
      [.instr (.move (storeSource strategy r.2).2 place)]) :=
  ((hr.append (.of_straight (straight_storeSource strategy r.2))).append hcode).concat ⟨rfl, rfl⟩

theorem sealed_storeSlot (strategy : Strategy) (place : Operand) (hr : Sealed r.1) :
    Sealed (r.1 ++ (storeSource strategy r.2).1 ++
      [.instr (.move (storeSource strategy r.2).2 place)]) :=
  (hr.append (.of_straight (straight_storeSource strategy r.2))).concat ⟨rfl, rfl⟩

/-- A return comes after the code of its value. -/
theorem exists_returnCode_eq (h : Sealed r.1) :
    ∃ code value, returnCode r = code ++ [.instr (.ret value)] ∧ Sealed code := by
  unfold returnCode
  split
  · exact ⟨_, _, rfl, h.load r.2 0⟩
  · exact ⟨_, _, rfl, h⟩

theorem jumpsTo_returnCode (h : Sealed r.1) : JumpsTo others (returnCode r) := by
  obtain ⟨code, value, hcode, hsealed⟩ := exists_returnCode_eq h
  rw [hcode]
  exact (hsealed.jumpsTo).append (.cons rfl .nil)

theorem jumpsTo_ifThen (names : LabelSet) (htest : JumpsTo others test)
    (hcode : JumpsTo others code) :
    JumpsTo others (test ++ [jumpLine (.when .eq) names.endLabel] ++ code ++
      [.label names.endLabel]) := by
  rw [ifThenCode_eq]
  have hsub : others ⊆ names.endLabel :: others := List.subset_cons_self _ _
  have hopen : JumpsTo (names.endLabel :: others) (test ++ jumpLine (.when .eq) names.endLabel ::
      (code ++ [.label names.endLabel])) :=
    (htest.mono hsub).append (.jump (.head _) ((hcode.mono hsub).append (.cons rfl .nil)))
  exact hopen.close (by simp)

theorem jumpsTo_ifElse (names : LabelSet) (htest : JumpsTo others test)
    (hcode : JumpsTo others code) (hcode' : JumpsTo others code') :
    JumpsTo others (test ++ [jumpLine (.when .eq) names.falseLabel] ++ code ++
      [jumpLine .always names.endLabel, .label names.falseLabel] ++ code' ++
      [.label names.endLabel]) := by
  rw [ifElseCode_eq]
  have hsub : others ⊆ names.falseLabel :: names.endLabel :: others := by simp
  have hopen : JumpsTo (names.falseLabel :: names.endLabel :: others)
      (test ++ jumpLine (.when .eq) names.falseLabel :: (code ++ (jumpLine .always names.endLabel ::
        .label names.falseLabel :: (code' ++ [.label names.endLabel])))) := by
    refine (htest.mono hsub).append (.jump (.head _) ((hcode.mono hsub).append ?_))
    exact .jump (.tail _ (.head _)) (.cons rfl ((hcode'.mono hsub).append (.cons rfl .nil)))
  exact (hopen.close (by simp)).close (by simp)

theorem jumpsTo_loop (names : LabelSet) (hr : Sealed r.1)
    (hcode : JumpsTo [names.endLabel, names.conditionLabel] code) :
    JumpsTo others (.label names.conditionLabel :: loopCode names r code) := by
  have hsub : [names.endLabel, names.conditionLabel] ⊆
      names.endLabel :: names.conditionLabel :: others := by simp
  have hback : JumpsTo (names.endLabel :: names.conditionLabel :: others)
      [jumpLine .always names.conditionLabel, .label names.endLabel] :=
    .jump (.tail _ (.head _)) (.cons rfl .nil)
  have hopen : JumpsTo (names.endLabel :: names.conditionLabel :: others)
      (.label names.conditionLabel :: loopCode names r code) :=
    .cons rfl ((sealed_conditionCode hr).jumpsTo.append
      (.jump (.head _) ((hcode.mono hsub).append hback)))
  exact (hopen.close (by simp [loopCode])).close (by simp)

theorem passable_ifThen (names : LabelSet) (htest : Passable test) :
    Passable (test ++ [jumpLine (.when .eq) names.endLabel] ++ code ++
      [.label names.endLabel]) := by
  rw [ifThenCode_eq]
  exact htest.append (.jump .nil)

theorem passable_ifElse (names : LabelSet) (htest : Passable test)
    (h : Passable code ∨ Passable code') :
    Passable (test ++ [jumpLine (.when .eq) names.falseLabel] ++ code ++
      [jumpLine .always names.endLabel, .label names.falseLabel] ++ code' ++
      [.label names.endLabel]) := by
  rw [ifElseCode_eq]
  refine htest.append ?_
  rcases h with hcode | hcode'
  · exact .cons rfl (hcode.append (.jump (a := .label names.falseLabel :: code') .nil))
  · have hsplit : code ++ (jumpLine .always names.endLabel :: .label names.falseLabel ::
        (code' ++ [.label names.endLabel])) = (code ++ [jumpLine .always names.endLabel]) ++
          .label names.falseLabel :: (code' ++ [.label names.endLabel]) := by simp
    rw [hsplit]
    exact .jump (hcode'.append (.cons rfl .nil))

theorem passable_loop (names : LabelSet) (hr : Sealed r.1) :
    Passable (.label names.conditionLabel :: loopCode names r code) := by
  have hsplit : loopCode names r code = conditionCode r ++ jumpLine (.when .eq) names.endLabel ::
      ((code ++ [jumpLine .always names.conditionLabel]) ++ [.label names.endLabel]) := by
    simp [loopCode]
  rw [hsplit]
  exact .cons rfl ((sealed_conditionCode hr).passable.append (.jump .nil))

end

mutual

/-- Jumps lead out of a statement to the innermost loop only. -/
theorem LoweredStmt.jumpsTo (h : LoweredStmt env loops scope stmt s code s') :
    JumpsTo loops.targets code := by
  match h with
  | .assign hv ht => exact (sealed_store _ _ hv.sealed ht.sealed).jumpsTo
  | .call he => exact he.sealed.jumpsTo
  | .retNothing => exact .cons rfl .nil
  | .retValue hr => exact jumpsTo_returnCode hr.sealed
  | .ifThen hr _ hbody =>
    exact jumpsTo_ifThen _ ((sealed_conditionCode hr.sealed).jumpsTo)
      hbody.jumpsTo
  | .ifElse hr _ hthen _ helse =>
    exact jumpsTo_ifElse _ ((sealed_conditionCode hr.sealed).jumpsTo)
      hthen.jumpsTo helse.jumpsTo
  | .loop hr _ hbody =>
    rw [labelled_loopCode_eq]
    exact jumpsTo_loop _ hr.sealed hbody.jumpsTo
  | .breakLoop htarget => exact .jump (Loops.mem_targets_of_break htarget) .nil
  | .continueLoop htarget => exact .jump (Loops.mem_targets_of_continue htarget) .nil
  | .block _ hstmts => exact hstmts.jumpsTo
  | .declare => exact .nil
  | .declareValue hr => exact (sealed_storeSlot _ _ hr.sealed).jumpsTo

theorem LoweredStmts.jumpsTo (h : LoweredStmts env loops scope stmts s code s') :
    JumpsTo loops.targets code := by
  match h with
  | .nil => exact .nil
  | .cons hs hss => exact hs.jumpsTo.append hss.jumpsTo

end

mutual

theorem LoweredStmt.passable (h : LoweredStmt env loops scope stmt s code s')
    (hc : stmt.completes = true) : Passable code := by
  match h with
  | .retNothing | .retValue _ | .breakLoop _ | .continueLoop _ => cases hc
  | .assign hv ht => exact (sealed_store _ _ hv.sealed ht.sealed).passable
  | .call he => exact he.sealed.passable
  | .ifThen hr _ _ => exact passable_ifThen _ (sealed_conditionCode hr.sealed).passable
  | .ifElse hr _ hthen _ helse =>
    refine passable_ifElse _ (sealed_conditionCode hr.sealed).passable ?_
    rcases Bool.or_eq_true_iff.mp hc with hc | hc
    · exact .inl (hthen.passable hc)
    · exact .inr (helse.passable hc)
  | .loop hr _ _ =>
    rw [labelled_loopCode_eq]
    exact passable_loop _ hr.sealed
  | .block _ hstmts => exact hstmts.passable hc
  | .declare => exact .nil
  | .declareValue hr => exact (sealed_storeSlot _ _ hr.sealed).passable

theorem LoweredStmts.passable (h : LoweredStmts env loops scope stmts s code s')
    (hc : Stmt.completesAll stmts = true) : Passable code := by
  match h with
  | .nil => exact .nil
  | .cons hs hss =>
    obtain ⟨hc, hcs⟩ := Bool.and_eq_true_iff.mp hc
    exact (hs.passable hc).append (hss.passable hcs)

end

section

variable {whole post test code code' : Code} {r : Code × Operand}

theorem not_leaves_returnCode (hr : Sealed r.1) (hp : Placed whole (returnCode r) post) :
    ¬ Leaves whole (returnCode r ++ post) := by
  intro h
  obtain ⟨code, value, hcode, hsealed⟩ := exists_returnCode_eq hr
  rw [hcode] at hp h
  rw [List.append_assoc] at h
  exact not_leaves_ret (h.of_sealed hp.left hsealed)

/-- A way out that comes to an if comes to one of its branches. -/
theorem leaves_branch (names : LabelSet) (htest : Sealed test)
    (hp : Placed whole (test ++ jumpLine (.when .eq) names.falseLabel ::
      (code ++ (jumpLine .always names.endLabel :: .label names.falseLabel ::
        (code' ++ [.label names.endLabel])))) post)
    (h : Leaves whole (test ++ jumpLine (.when .eq) names.falseLabel ::
      (code ++ (jumpLine .always names.endLabel :: .label names.falseLabel ::
        (code' ++ [.label names.endLabel]))) ++ post)) :
    Leaves whole (code ++ ((jumpLine .always names.endLabel :: .label names.falseLabel ::
      (code' ++ [.label names.endLabel])) ++ post)) ∨
        Leaves whole (code' ++ ([.label names.endLabel] ++ post)) := by
  have hfalse := hp.right.tail.right.tail.after?
  rw [List.append_assoc] at h
  rcases (h.of_sealed hp.left htest).of_jump with ⟨_, h⟩ | h
  · refine .inl ?_
    rw [← List.append_assoc]
    exact h
  · rw [hfalse, Option.getD_some, List.append_assoc] at h
    exact .inr h

end

mutual

/-- A way out of the whole that comes to a statement which does not complete leaves it for the
    innermost loop. -/
theorem LoweredStmt.leaves (h : LoweredStmt env loops scope stmt s code s')
    (hc : stmt.completes = false) (hp : Placed whole code post)
    (hleaves : Leaves whole (code ++ post)) :
    ∃ name ∈ loops.targets, Leaves whole ((after? name whole).getD []) := by
  match h with
  | .assign _ _ | .call _ | .ifThen _ _ _ | .loop _ _ _ | .declare | .declareValue _ => cases hc
  | .retNothing => exact absurd hleaves not_leaves_ret
  | .retValue hr =>
    exact absurd hleaves (not_leaves_returnCode hr.sealed hp)
  | .ifElse hr _ hthen _ helse =>
    obtain ⟨hc, hc'⟩ := Bool.or_eq_false_iff.mp hc
    rw [ifElseCode_eq] at hp hleaves
    rcases leaves_branch _ (sealed_conditionCode hr.sealed) hp hleaves with hleaves | hleaves
    · exact hthen.leaves hc hp.right.tail.left hleaves
    · exact helse.leaves hc' hp.right.tail.right.tail.tail.left hleaves
  | .breakLoop htarget =>
    exact ⟨_, Loops.mem_targets_of_break htarget, Leaves.of_always hleaves⟩
  | .continueLoop htarget =>
    exact ⟨_, Loops.mem_targets_of_continue htarget, Leaves.of_always hleaves⟩
  | .block _ hstmts => exact hstmts.leaves hc hp hleaves

theorem LoweredStmts.leaves (h : LoweredStmts env loops scope stmts s code s')
    (hc : Stmt.completesAll stmts = false) (hp : Placed whole code post)
    (hleaves : Leaves whole (code ++ post)) :
    ∃ name ∈ loops.targets, Leaves whole ((after? name whole).getD []) := by
  match h with
  | .nil => cases hc
  | .cons hs hss =>
    rw [List.append_assoc] at hleaves
    rcases Bool.and_eq_false_iff.mp hc with hc | hc
    · exact hs.leaves hc hp.left hleaves
    · rcases Leaves.out_of hleaves hp.left hs.jumpsTo with hleaves | hleaves
      · exact hss.leaves hc hp.right hleaves
      · exact hleaves

end

/-! ## Methods -/

variable {c : Context} {strategy : Strategy} {e : ClassDecl × MethodDecl} {s s' : Supply}
  {r : Routine}

/-- Control runs past the end of a method that must return a value, if its body completes, and
    of no other one. -/
theorem LoweredMethod.leaves_iff (h : LoweredMethod c strategy e s r s') :
    Leaves r.body r.body ↔
      e.2.returnType.isVoid = false ∧ Stmt.completesAll e.2.body = true := by
  obtain ⟨type, scope, code, _, _, hcode, hbody⟩ := h.body
  have hnodup := hcode.issues.nodup
  by_cases hreturn : needsReturn e.2 = true
  · -- the return that is added stands at the end
    obtain ⟨hvoid, _⟩ := Bool.and_eq_true_iff.mp hreturn
    rw [if_pos hreturn] at hbody
    have hplaced : Placed r.body (code ++ [returnNothing]) [] := by
      rw [hbody]
      exact placed_self (by simpa using hnodup)
    refine iff_of_false (fun h => ?_) (by simp [hvoid])
    rw [hbody] at h hplaced
    rcases h.out_of hplaced.left hcode.jumpsTo with h | ⟨_, hname, _⟩
    · exact not_leaves_ret h
    · cases hname
  · rw [if_neg hreturn, List.append_nil] at hbody
    have hplaced : Placed r.body code [] := by
      rw [hbody]
      exact placed_self hnodup
    have hleaves : Leaves r.body (code ++ []) ↔ Stmt.completesAll e.2.body = true := by
      constructor
      · intro hleaves
        by_contra hcompletes
        obtain ⟨_, hname, _⟩ := hcode.leaves (eq_false_of_ne_true hcompletes) hplaced hleaves
        cases hname
      · exact fun hcompletes => hcode.passable hcompletes _ _ hplaced
    rw [List.append_nil, ← hbody] at hleaves
    rw [hleaves]
    refine ⟨fun hcompletes => ⟨?_, hcompletes⟩, fun h => h.2⟩
    -- a void method without a return added ends with one
    by_contra hvoid
    rw [Bool.not_eq_false] at hvoid
    have hends : e.2.endsWithReturn = true := by
      simpa [needsReturn, hvoid] using hreturn
    rw [Stmt.completesAll_of_getLast? hends] at hcompletes
    cases hcompletes

end Lowering

/-- Every way through the code from its start goes on forever or ends in a return. -/
def Code.StaysInside (code : Code) : Prop :=
  ∀ place, Path code code place →
    (∃ next, Flows code place next) ∨ ∃ value rest, place = .instr (.ret value) :: rest

theorem Code.staysInside_iff {code : Code} : code.StaysInside ↔ ¬ Leaves code code := by
  constructor
  · intro h hleaves
    rcases h [] hleaves with ⟨_, hstep⟩ | ⟨_, _, heq⟩
    · cases hstep
    · cases heq
  · intro h place hpath
    refine exists_flows_or_ret fun heq => h ?_
    rw [heq] at hpath
    exact hpath

/-- Control stays in every method that returns nothing, and in one that returns a value if its
    body cannot complete without a return. -/
theorem control_stays_in_methods_iff {p : Program} (hp : p.DistinctNodes) {options : Options}
    {r : Compilation} (h : compile options p = .ok r) :
    ∃ c a, analyzed options p = .ok c ∧ c.generate options.strategy p = .ok a ∧
      r.lir = a.render ∧
      List.Forall₂ (fun e routine => routine.label = routineLabel c e ∧
        (routine.body.StaysInside ↔
          e.2.returnType.isVoid = true ∨ Stmt.completesAll e.2.body = false))
        (arranged c p) a.routines := by
  obtain ⟨c, a, hc, ha, hlir⟩ := exists_generate_of_compile h
  refine ⟨c, a, hc, ha, hlir, ?_⟩
  refine ((accepts_of_analyzed hp hc).assembled hp ha).forall₂_routines.imp ?_
  rintro e routine ⟨s, s', hmethod⟩
  refine ⟨hmethod.label, ?_⟩
  rw [Code.staysInside_iff, hmethod.leaves_iff, not_and_or, Bool.not_eq_false, Bool.not_eq_true]

/-- Control stays in all methods of the program. -/
theorem control_stays_in_methods_iff_shapes :
    ∃ r c a, compile {} Shapes.program = .ok r ∧ analyzed {} Shapes.program = .ok c ∧
      c.generate .baseline Shapes.program = .ok a ∧ a.routines.length = 4 ∧
      ∀ routine ∈ a.routines, routine.body.StaysInside := by
  have hfour : (assembled? {} Shapes.program).any (fun x =>
      decide (x.2.routines.length = 4)) = true := by
    decide +kernel
  obtain ⟨r, c, a, hr, hc, ha, _, hfour⟩ := exists_compile_of_any hfour
  obtain ⟨c', a', hc', ha', _, hall⟩ := control_stays_in_methods_iff Shapes.distinctNodes hr
  obtain ⟨rfl, rfl⟩ := assembled_unique hc ha hc' ha'
  refine ⟨r, c, a, hr, hc, ha, of_decide_eq_true hfour, fun routine hroutine => ?_⟩
  have hreturns : ∀ k ∈ Shapes.program.classes, ∀ m ∈ k.methods,
      m.returnType.isVoid = true ∨ Stmt.completesAll m.body = false := by decide
  obtain ⟨e, he, _, hstays⟩ := exists_left_of_mem hall hroutine
  obtain ⟨hk, hm, _⟩ := mem_emitted.mp (mem_emitted_of_mem_arranged he)
  exact hstays.mpr (hreturns e.1 hk e.2 hm)

namespace Signs

open Shapes

/-- `static int sign(int n) { if (n < 0) return -1; }` -/
def sign : MethodDecl where
  id := 0
  kind := .static
  returnType := type .int
  name := name "sign"
  params := [⟨type .int, name "n"⟩]
  body := [
    .ifThen (node 0) (.binary (node 1) (.compare .lt) (.var (node 2) (name "n"))
      (.literal (node 3) (.int 0)))
      (.ret (node 1) (some (.unary (node 4) .neg (.literal (node 5) (.int 1)))))]

/-- `static void main(string[] args) { }` -/
def main : MethodDecl := mainOf 1 []

def signs : ClassDecl := ⟨name "Main", none, [], [sign, main]⟩

def program : Program := ⟨[signs]⟩

theorem distinctNodes : program.DistinctNodes := ⟨by decide, by decide, by decide⟩

end Signs

/-- If the number is not negative, control runs past the end of `sign`. -/
theorem missing_return_runs_past_the_end :
    ∃ r c a, compile {} Signs.program = .ok r ∧ analyzed {} Signs.program = .ok c ∧
      c.generate .baseline Signs.program = .ok a ∧ r.lir = a.render ∧
      ∃ routine ∈ a.routines, routine.label = "_Main_sign" ∧
        Code.Path routine.body routine.body [] ∧ ¬ routine.body.StaysInside := by
  have hlabel : (assembled? {} Signs.program).any (fun x =>
      decide (routineLabel x.1 (Signs.signs, Signs.sign) = "_Main_sign")) = true := by
    decide +kernel
  obtain ⟨r, c, a, hr, hc, ha, hlir, hlabel⟩ := exists_compile_of_any hlabel
  have hassembled := (accepts_of_analyzed Signs.distinctNodes hc).assembled Signs.distinctNodes ha
  have hsign : (Signs.signs, Signs.sign) ∈ emitted Signs.program := by
    rw [mem_emitted]
    exact ⟨.head _, .head _, by decide⟩
  obtain ⟨routine, hroutine, s, s', hmethod⟩ := hassembled.exists_routine hsign
  have hleaves := hmethod.leaves_iff.mpr ⟨rfl, rfl⟩
  refine ⟨r, c, a, hr, hc, ha, hlir, routine, hroutine, ?_, hleaves, fun hstays => ?_⟩
  · rw [hmethod.label]
    exact of_decide_eq_true hlabel
  · exact Code.staysInside_iff.mp hstays hleaves

end IcLir
