import IcLir.Proofs.CodeRuns
import IcLir.Proofs.Lowered
import Mathlib

/-
  The labels of emitted code. Every construct takes its labels under a number of its own, so
  that no label is defined twice in the code of a method, and the texts of the string literals
  are kept while more are added.
-/

namespace IcLir

/-! ## Names of labels -/

/-- Two equal texts that start with `a` and `b` agree wherever both `a` and `b` reach. -/
theorem getElem?_of_append_eq {a b t u : String} (h : a ++ t = b ++ u) {i : Nat}
    (ha : i < a.toList.length) (hb : i < b.toList.length) : a.toList[i]? = b.toList[i]? := by
  have hl := congrArg (fun s : String => s.toList[i]?) h
  simpa only [String.toList_append, List.getElem?_append_left ha,
    List.getElem?_append_left hb] using hl

namespace LabelSet

/-- What the labels of a construct start with. -/
def stems : List String := ["_true_label", "_false_label", "_end_label", "_while_cond_label"]

/-- All labels under a number. -/
def names (l : LabelSet) : List String := stems.map (· ++ toString l.number)

variable {l l' : LabelSet}

theorem trueLabel_mem (l : LabelSet) : l.trueLabel ∈ l.names := .head _

theorem falseLabel_mem (l : LabelSet) : l.falseLabel ∈ l.names := .tail _ (.head _)

theorem endLabel_mem (l : LabelSet) : l.endLabel ∈ l.names := .tail _ (.tail _ (.head _))

theorem conditionLabel_mem (l : LabelSet) : l.conditionLabel ∈ l.names :=
  .tail _ (.tail _ (.tail _ (.head _)))

/-- The stems differ in their second letter. -/
theorem stem_eq_of_append_eq {a b t u : String} (ha : a ∈ stems) (hb : b ∈ stems)
    (h : a ++ t = b ++ u) : a = b := by
  have hsecond : ∀ a ∈ stems, ∀ b ∈ stems,
      1 < a.toList.length ∧ 1 < b.toList.length ∧ (a.toList[1]? = b.toList[1]? → a = b) := by
    decide
  obtain ⟨hla, hlb, heq⟩ := hsecond a ha b hb
  exact heq (getElem?_of_append_eq h hla hlb)

/-- A label belongs to one number. -/
theorem eq_of_mem_names {name : String} (h : name ∈ l.names) (h' : name ∈ l'.names) : l = l' := by
  obtain ⟨a, ha, rfl⟩ := List.mem_map.mp h
  obtain ⟨b, hb, heq⟩ := List.mem_map.mp h'
  obtain rfl := stem_eq_of_append_eq hb ha heq
  have hnumber : toString l'.number = toString l.number := (String.append_right_inj _).mp heq
  cases l
  cases l'
  exact congrArg LabelSet.mk (Nat.repr_inj.mp hnumber).symm

theorem trueLabel_ne_endLabel (l : LabelSet) : l.trueLabel ≠ l.endLabel := fun h =>
  absurd (stem_eq_of_append_eq (a := "_true_label") (by decide) (by decide) h) (by decide)

theorem falseLabel_ne_endLabel (l : LabelSet) : l.falseLabel ≠ l.endLabel := fun h =>
  absurd (stem_eq_of_append_eq (a := "_false_label") (by decide) (by decide) h) (by decide)

theorem conditionLabel_ne_endLabel (l : LabelSet) : l.conditionLabel ≠ l.endLabel := fun h =>
  absurd (stem_eq_of_append_eq (a := "_while_cond_label") (by decide) (by decide) h) (by decide)

end LabelSet

/-! ## Labels that are handed out -/

/-- Between the supplies `s` and `s'` the given labels were handed out, each once. -/
structure Supply.Issues (s s' : Supply) (names : List String) : Prop where
  le : s.nextLabel ≤ s'.nextLabel
  texts : s.strings.texts <+: s'.strings.texts
  nodup : names.Nodup
  number : ∀ name ∈ names, ∃ l : LabelSet, name ∈ l.names ∧ s.nextLabel ≤ l.number ∧
    l.number < s'.nextLabel

namespace Supply.Issues

variable {s s₁ s' : Supply} {a b names : List String}

theorem refl (s : Supply) : Issues s s [] :=
  ⟨Nat.le_refl _, List.prefix_refl _, List.nodup_nil, by simp⟩

theorem append (h : Issues s s₁ a) (h' : Issues s₁ s' b) : Issues s s' (a ++ b) where
  le := Nat.le_trans h.le h'.le
  texts := h.texts.trans h'.texts
  nodup := by
    rw [List.nodup_append]
    refine ⟨h.nodup, h'.nodup, fun name ha name' hb heq => ?_⟩
    subst heq
    obtain ⟨l, hl, _, hlt⟩ := h.number name ha
    obtain ⟨l', hl', hle, _⟩ := h'.number name hb
    obtain rfl := LabelSet.eq_of_mem_names hl hl'
    omega
  number name hm := by
    have hle := h.le
    have hle' := h'.le
    rcases List.mem_append.mp hm with hm | hm
    · obtain ⟨l, hl, hge, hlt⟩ := h.number name hm
      exact ⟨l, hl, hge, by omega⟩
    · obtain ⟨l, hl, hge, hlt⟩ := h'.number name hm
      exact ⟨l, hl, by omega, hlt⟩

theorem perm (h : Issues s s' a) (hp : a.Perm b) : Issues s s' b :=
  ⟨h.le, h.texts, hp.nodup_iff.mp h.nodup, fun name hm => h.number name (hp.mem_iff.mpr hm)⟩

/-- A construct adds labels under the number that it takes first. -/
theorem own (h : Issues s.next s' a) (hnodup : b.Nodup) (hsub : b ⊆ s.labels.names) :
    Issues s s' (b ++ a) := by
  have htaken : Issues s s.next b :=
    ⟨Nat.le_succ _, List.prefix_refl _, hnodup, fun name hm =>
      ⟨s.labels, hsub hm, Nat.le_refl _, Nat.lt_succ_self _⟩⟩
  exact htaken.append h

theorem own_pair {x y : String} (h : Issues s.next s' a) (hne : x ≠ y)
    (hx : x ∈ s.labels.names) (hy : y ∈ s.labels.names) : Issues s s' ([x, y] ++ a) := by
  refine h.own (by simp [hne]) fun name hm => ?_
  rcases List.mem_cons.mp hm with rfl | hm
  · exact hx
  · exact List.mem_singleton.mp hm ▸ hy

end Supply.Issues

/-! ## Labels of emitted code -/

namespace Code

@[simp] theorem labels_guardCall (g : Guard) (registers : List Nat) (code : Code) :
    labels (g.call registers :: code) = labels code := rfl

@[simp] theorem labels_libraryCall (routine : String) (args : List Operand) (n : Nat)
    (code : Code) : labels (Lowering.libraryCall routine args n :: code) = labels code := rfl

@[simp] theorem labels_jumpLine (condition : Condition) (target : String) (code : Code) :
    labels (Lowering.jumpLine condition target :: code) = labels code := rfl

@[simp] theorem labels_returnNothing : labels [returnNothing] = [] := rfl

end Code

namespace Lowering

open Code Pass

variable {env : LowerEnv} {s s' : Supply}

theorem labels_staticCallLine {callee : Callee} {name : String} {d : Nat} {line : Line}
    (h : env.staticCallLine callee name d s = .ok line s') : labels [line] = [] := by
  rcases eq_staticCallLine h with ⟨_, rfl⟩ | ⟨_, _, _, _, rfl⟩ <;> rfl

theorem labels_virtualCallLine {callee : Callee} {d : Nat} {line : Line}
    (h : env.virtualCallLine callee d s = .ok line s') : labels [line] = [] := by
  obtain ⟨_, _, _, _, _, rfl⟩ := eq_virtualCallLine h
  rfl

/-- The labels of two operands, in the order of evaluation. -/
def pairLabels (rightFirst : Bool) (l r : Code × Operand) : List String :=
  if rightFirst then labels r.1 ++ labels l.1 else labels l.1 ++ labels r.1

theorem labels_rightOperand (strategy : Strategy) (keep : Bool) (value : Operand) (n : Nat) :
    labels (rightOperand strategy keep value n).1 = [] := by
  unfold rightOperand
  split <;> simp

theorem labels_operands (strategy : Strategy) (rightFirst keep : Bool) (d : Nat)
    (l r : Code × Operand) :
    labels (operands strategy rightFirst keep d l r).code = pairLabels rightFirst l r := by
  cases rightFirst <;> simp [operands, pairLabels, labels_rightOperand]

theorem labels_indexCode (rightFirst : Bool) (l r : Code × Operand) (d : Nat) :
    labels (indexCode rightFirst l r d).1 = pairLabels rightFirst l r := by
  cases rightFirst <;> simp [indexCode, pairLabels]

theorem labels_compareCode (op : CompareOp) (names : LabelSet) (os : Operands) (d : Nat) :
    labels (compareCode op names os d) = labels os.code ++ [names.trueLabel, names.endLabel] := by
  simp [compareCode]

theorem labels_operationCode (isConcat : Bool) (op : ArithOp) (os : Operands) (d : Nat) :
    labels (operationCode isConcat op os d) = labels os.code := by
  cases isConcat with
  | true => simp [operationCode, concatCode]
  | false =>
    simp only [operationCode, arithCode, Bool.false_eq_true, if_false]
    rcases divisorGuard_cases op os.right with hnil | ⟨n, -, hcall⟩ <;> simp [*]

/-- The label that a logical operation leaves for once it is settled. -/
def exitLabel (op : LogicOp) (names : LabelSet) : String :=
  match op with
  | .and => names.falseLabel
  | .or => names.trueLabel

theorem labels_logicCode (op : LogicOp) (names : LabelSet) (l r : Code × Operand) (d : Nat) :
    labels (logicCode op names l r d) =
      labels l.1 ++ labels r.1 ++ [exitLabel op names, names.endLabel] := by
  cases op <;> simp [logicCode, logicTest, exitLabel]

theorem issues_literalOperand {value : Literal} {o : Operand}
    (h : literalOperand value s = .ok o s') : s.Issues s' [] := by
  have hlit : Meets CompileError.Any (literalOperand value) s fun _ s' => s.Issues s' [] := by
    unfold literalOperand
    split
    · exact .refl s
    · next text =>
      rw [meets_bind]
      refine ⟨Nat.le_refl _, ?_, List.nodup_nil, by simp⟩
      change s.strings.texts <+: (s.strings.intern text).2.texts
      by_cases hm : text ∈ s.strings.texts
      · exact ⟨[], by rw [StringPool.intern_of_mem _ hm, List.append_nil]⟩
      · rw [StringPool.texts_intern_of_not_mem _ hm]
        exact List.prefix_append ..
    all_goals exact .refl s
  exact hlit.of_ok h

mutual

theorem Lowered.issues {e : Expr} {d : Nat} {s s' : Supply} {r : Code × Operand}
    (h : Lowered env e d s r s') : s.Issues s' (labels r.1) := by
  match h with
  | .literal hv => exact issues_literalOperand hv
  | .var _ => exact .refl s
  | .ownField _ _ => exact .refl s
  | .field hobject _ _ => simpa using hobject.issues
  | .index hpair =>
    rw [labels_indexCode]
    exact hpair.issues
  | .staticCall _ _ hargs hline | .ownStatic _ _ hargs hline =>
    simpa [labels_staticCallLine hline] using hargs.issues
  | .ownVirtual _ _ hargs hline => simpa [labels_virtualCallLine hline] using hargs.issues
  | .methodCall _ _ hobject hargs hline =>
    simpa [labels_virtualCallLine hline] using hobject.issues.append hargs.issues
  | .this => exact .refl s
  | .newObject _ _ => exact .refl s
  | .newArray hsize => simpa using hsize.issues
  | .length harray => simpa using harray.issues
  | @Lowered.logic _ _ op _ _ _ _ _ _ _ _ hl hr =>
    rw [labels_logicCode]
    refine ((hl.issues.append hr.issues).own_pair ?_ ?_ s.labels.endLabel_mem).perm
      List.perm_append_comm
    · cases op with
      | and => exact s.labels.falseLabel_ne_endLabel
      | or => exact s.labels.trueLabel_ne_endLabel
    · cases op with
      | and => exact s.labels.falseLabel_mem
      | or => exact s.labels.trueLabel_mem
  | .compare hpair =>
    rw [labels_compareCode, labels_operands]
    exact (hpair.issues.own_pair s.labels.trueLabel_ne_endLabel s.labels.trueLabel_mem
      s.labels.endLabel_mem).perm List.perm_append_comm
  | .arith _ hpair =>
    rw [labels_operationCode, labels_operands]
    exact hpair.issues
  | .unary hoperand => simpa using hoperand.issues
  | .paren hinner => exact hinner.issues

theorem LoweredPair.issues {left right : Expr} {d : Nat} {s s' : Supply} {rightFirst : Bool}
    {l r : Code × Operand} (h : LoweredPair env left right d s rightFirst l r s') :
    s.Issues s' (pairLabels rightFirst l r) := by
  match h with
  | .leftFirst _ hl hr => exact hl.issues.append hr.issues
  | .rightFirst _ hr hl => exact hr.issues.append hl.issues

theorem LoweredArgs.issues {es : List Expr} {d : Nat} {s s' : Supply} {code : Code}
    (h : LoweredArgs env es d s code s') : s.Issues s' (labels code) := by
  match h with
  | .nil => exact .refl s
  | .cons he hes => simpa using he.issues.append hes.issues

end

@[simp] theorem labels_conditionCode (r : Code × Operand) :
    labels (conditionCode r) = labels r.1 := by
  simp [conditionCode]

theorem labels_returnCode (r : Code × Operand) : labels (returnCode r) = labels r.1 := by
  unfold returnCode
  split <;> simp

@[simp] theorem labels_storeSource (strategy : Strategy) (value : Operand) :
    labels (storeSource strategy value).1 = [] := by
  unfold storeSource
  split <;> simp

mutual

theorem LoweredStmt.issues {loops : Loops} {scope : ScopeId} {stmt : Stmt} {s s' : Supply}
    {code : Code} (h : LoweredStmt env loops scope stmt s code s') :
    s.Issues s' (labels code) := by
  match h with
  | .assign hv ht => simpa using hv.issues.append ht.issues
  | .call he => exact he.issues
  | .retNothing => exact .refl s
  | .retValue hr =>
    rw [labels_returnCode]
    exact hr.issues
  | .ifThen hr _ hbody =>
    have hown := (hr.issues.append hbody.issues).own (b := [s.labels.endLabel]) (by simp)
      (by simp [LabelSet.endLabel_mem])
    refine hown.perm (List.perm_iff_count.mpr fun name => ?_)
    simp [List.count_cons]
    omega
  | .ifElse hr _ hthen _ helse =>
    have hown := ((hr.issues.append hthen.issues).append helse.issues).own_pair
      s.labels.falseLabel_ne_endLabel s.labels.falseLabel_mem s.labels.endLabel_mem
    refine hown.perm (List.perm_iff_count.mpr fun name => ?_)
    simp [List.count_cons]
    omega
  | .loop hr _ hbody =>
    have hown := (hr.issues.append hbody.issues).own_pair
      s.labels.conditionLabel_ne_endLabel s.labels.conditionLabel_mem s.labels.endLabel_mem
    refine hown.perm (List.perm_iff_count.mpr fun name => ?_)
    simp [List.count_cons]
    omega
  | .breakLoop _ => exact .refl s
  | .continueLoop _ => exact .refl s
  | .block _ hstmts => exact hstmts.issues
  | .declare => exact .refl s
  | .declareValue hr => simpa using hr.issues

theorem LoweredStmts.issues {loops : Loops} {scope : ScopeId} {stmts : List Stmt} {s s' : Supply}
    {code : Code} (h : LoweredStmts env loops scope stmts s code s') :
    s.Issues s' (labels code) := by
  match h with
  | .nil => exact .refl s
  | .cons hs hss => simpa using hs.issues.append hss.issues

end

end Lowering

end IcLir
