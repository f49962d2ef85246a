import IcLir.Proofs.Execution
import IcLir.Proofs.ExpressionRuns

/-
  Lowered statements run as they are executed. `Follows`: from any machine whose slots are the
  cells, the code of a statement arrives where its completion says: behind the code, at a label
  of the innermost loop, or at the end of the method. One rule per construct puts such runs
  together, and induction on the execution does the rest (`Exec.follows`).
-/

namespace IcLir

open Code Lowering

/-- The slots of the machine are the cells. -/
def Machine.Carries (m : Machine) (cells : Cells) : Prop := m.slots = fun name => (cells name).word

theorem Machine.Carries.setSlot {m : Machine} {cells : Cells} (h : m.Carries cells) (name : String)
    (v : Value) : (m.setSlot name v.word).Carries (cells.set name v) := by
  funext name'
  change (if name' = name then v.word else m.slots name') = (cells.set name v name').word
  unfold Cells.set
  split
  · rfl
  · exact congrFun h name'

/-- What a run comes to that ends along with its method. A method that returns nothing leaves a
    word that nobody reads. -/
def Ending.config (m : Machine) : Ending → Config
  | .returned (some v) => .returned v.word m
  | .returned none => .returned (.int 9999) m
  | .divisionByZero => .stopped .zero m

/-- Where the code of a statement arrives. -/
inductive Arrives (routine : Code) (loops : Loops) (post : Code) (cells : Cells) :
    Completion → Config → Prop where
  | normal {m : Machine} : m.Carries cells →
    Arrives routine loops post cells .normal (.running post m)
  | broken {m : Machine} {target : String} {rest : Code} :
    loops.breakTarget? = some target → after? target routine = some rest → m.Carries cells →
    Arrives routine loops post cells .broken (.running rest m)
  | continued {m : Machine} {target : String} {rest : Code} :
    loops.continueTarget? = some target → after? target routine = some rest →
    m.Carries cells → Arrives routine loops post cells .continued (.running rest m)
  | ended {m : Machine} {e : Ending} : m.Carries cells →
    Arrives routine loops post cells (.ended e) (e.config m)

/-- From the cells to the cells, the code completes as `r`. -/
def Follows (P : Platform) (routine : Code) (loops : Loops) (code post : Code) (cells : Cells)
    (r : Completion) (cells' : Cells) : Prop :=
  ∀ m, m.Carries cells →
    ∃ k, Reaches P routine (.running (code ++ post) m) k ∧ Arrives routine loops post cells' r k

/-- The labels of the innermost loop are in the routine. -/
def LoopsPlaced (routine : Code) (loops : Loops) : Prop :=
  ∀ names, loops.head? = some names →
    (∃ rest, after? names.endLabel routine = some rest) ∧
      ∃ rest, after? names.conditionLabel routine = some rest

/-! ## Putting code together -/

section

variable {P : Platform} {routine : Code} {loops : Loops} {code code' rest post post' : Code}
  {cells cells₁ cells' : Cells} {r : Completion} {m : Machine}

/-- A statement that does not complete normally does not mind what comes after it. -/
theorem Arrives.of_ne_normal {k : Config} (h : Arrives routine loops post cells r k)
    (hr : r ≠ .normal) : Arrives routine loops post' cells r k := by
  cases h with
  | normal => exact absurd rfl hr
  | broken ht hrest hm => exact .broken ht hrest hm
  | continued ht hrest hm => exact .continued ht hrest hm
  | ended hm => exact .ended hm

namespace Follows

theorem nil : Follows P routine loops [] post cells .normal cells :=
  fun _ hm => ⟨_, .refl, .normal hm⟩

theorem append (h : Follows P routine loops code (code' ++ post) cells .normal cells₁)
    (h' : Follows P routine loops code' post cells₁ r cells') :
    Follows P routine loops (code ++ code') post cells r cells' := by
  intro m hm
  obtain ⟨k, hreach, harrives⟩ := h m hm
  cases harrives with
  | normal hm₁ =>
    obtain ⟨k', hreach', harrives'⟩ := h' _ hm₁
    rw [← List.append_assoc] at hreach
    exact ⟨k', hreach.trans hreach', harrives'⟩

theorem abrupt (h : Follows P routine loops code (code' ++ post) cells r cells')
    (hr : r ≠ .normal) : Follows P routine loops (code ++ code') post cells r cells' := by
  intro m hm
  obtain ⟨k, hreach, harrives⟩ := h m hm
  rw [← List.append_assoc] at hreach
  exact ⟨k, hreach, harrives.of_ne_normal hr⟩

/-- Code with an end that does nothing to the cells. -/
theorem finish (h : Follows P routine loops code (code' ++ post) cells r cells')
    (h' : Follows P routine loops code' post cells' .normal cells') :
    Follows P routine loops (code ++ code') post cells r cells' := by
  by_cases hr : r = .normal
  · subst hr
    exact h.append h'
  · exact h.abrupt hr

theorem label {name : String} (h : Follows P routine loops rest post cells r cells') :
    Follows P routine loops (.label name :: rest) post cells r cells' := by
  intro m hm
  obtain ⟨k, hreach, harrives⟩ := h m hm
  exact ⟨k, .step rfl hreach, harrives⟩

theorem jump {target : String} (ht : after? target routine = some (rest ++ post))
    (h : Follows P routine loops rest post cells r cells') :
    Follows P routine loops (jumpLine .always target :: code) post cells r cells' := by
  intro m hm
  obtain ⟨k, hreach, harrives⟩ := h m hm
  exact ⟨k, .step (step_jump rfl ht) hreach, harrives⟩

end Follows

end

/-! ## Expressions in statements -/

section

variable {P : Platform} {env : LowerEnv} {routine : Code} {loops : Loops} {rest post : Code}
  {cells cells' : Cells} {c : Completion} {e : Expr} {d : Nat} {s s' : Supply}
  {r : Code × Operand} {m : Machine} {v : Value}

/-- Where the expressions of a body over variables run; they call no guard but one. -/
def scalarSite (P : Platform) (env : LowerEnv) (routine : Code) (m : Machine) : Site :=
  ⟨P, routine, env.strategy, fun g => g = .zero, m.slots, m.memory⟩

theorem stands_of_isScalar (h : ∀ x ∈ e.nodes, x.isScalar env.context = true)
    (hm : m.Carries cells) :
    (scalarSite P env routine m).Stands env (cells.state env.context) e where
  held := by
    constructor
    case field => exact fun hitem => by cases hitem
    case length => exact fun hitem => by cases hitem
    case element => exact fun hitem => by cases hitem
  calls {x g} hx hg := by
    have hscalar := h x hx
    cases x with
    | field | length | index => cases hscalar
    | binary _ op _ _ =>
      cases op with
      | arith op =>
        change g ∈ (if op.divides then [Guard.zero] else []) at hg
        split at hg
        · exact List.mem_singleton.mp hg
        · cases hg
      | compare | logic => cases hg
    | literal | var | staticCall | ownCall | methodCall | this | newObject | newArray | unary
    | paren => cases hg
  receiver hx := by cases h _ hx
  var _ := congrFun hm _
  ownField hx href := by
    obtain ⟨scope, hvariable⟩ := Expr.exists_variable_of_isScalar (h _ hx)
    rw [href] at hvariable
    cases hvariable
  field hx := by cases h _ hx

theorem delivers_of_isScalar (hl : Lowered env e d s r s')
    (h : ∀ x ∈ e.nodes, x.isScalar env.context = true) (hm : m.Carries cells) :
    (scalarSite P env routine m).Delivers (e.eval env.context P (cells.state env.context)) r d := by
  refine hl.delivers rfl (Expr.isPlain_of_isScalar h) (stands_of_isScalar h hm) ?_
  intro node text hmem
  cases h _ hmem

theorem Site.Runs.exists_of_ok {S : Site} {piece : Code} {Q : Machine → Prop}
    (h : S.Runs piece post m Q (.ok v)) :
    ∃ m', Reaches S.platform S.routine (.running (piece ++ post) m) (.running post m') ∧ Q m' := by
  rcases h with h | ⟨_, _, _, _, hstop, _⟩
  · exact h
  · exact hstop.elim

/-- A division by zero in the first expression of a statement ends the run. -/
theorem follows_failed (hl : Lowered env e d s r s')
    (h : ∀ x ∈ e.nodes, x.isScalar env.context = true)
    (heval : e.eval env.context P (cells.state env.context) = .error (.guard .zero))
    (hp : Placed routine (r.1 ++ rest) post) :
    Follows P routine loops (r.1 ++ rest) post cells (.ended .divisionByZero) cells := by
  intro m hm
  have hrun := delivers_of_isScalar (P := P) hl h hm _ m hp.left ⟨rfl, rfl⟩
  rw [heval] at hrun
  rcases hrun with ⟨_, _, _, hends⟩ | ⟨g, m', hreach, hg, _, hholds⟩
  · exact hends.elim
  · obtain rfl : g = .zero := hg
    have hm' : m'.Carries cells := hholds.slots.trans hm
    rw [List.append_assoc]
    exact ⟨_, hreach, .ended (e := .divisionByZero) hm'⟩

/-- The code that stores a value in a slot. -/
def storeCode (strategy : Strategy) (r : Code × Operand) (name : String) : Code :=
  r.1 ++ ((storeSource strategy r.2).1 ++
    [.instr (.move (storeSource strategy r.2).2 (.slot name))])

theorem follows_store {name : String} (hl : Lowered env e 0 s r s')
    (h : ∀ x ∈ e.nodes, x.isScalar env.context = true)
    (heval : e.eval env.context P (cells.state env.context) = .ok v)
    (hp : Placed routine (storeCode env.strategy r name) post) :
    Follows P routine loops (storeCode env.strategy r name) post cells .normal
      (cells.set name v) := by
  intro m hm
  have hrun := delivers_of_isScalar (P := P) hl h hm _ m hp.left ⟨rfl, rfl⟩
  rw [heval] at hrun
  have hstored : (scalarSite P env routine m).Runs (storeCode env.strategy r name) post m
      (fun m' => m'.Carries (cells.set name v)) (.ok v) := by
    refine .append hrun fun m₁ h₁ => ?_
    obtain ⟨hkeeps, hv⟩ := h₁
    have hv : m₁.value P r.2 = v.word := hv
    have hm₁ : m₁.Carries cells := hkeeps.slots.trans hm
    unfold storeSource
    split
    · refine .instr rfl (.nil ?_)
      change (m₁.setSlot name (m₁.value P r.2)).Carries _
      rw [hv]
      exact hm₁.setSlot name v
    · refine .append (Site.runs_load fun m₂ hk₂ hreg => And.intro hk₂ hreg) fun m₂ h₂ => ?_
      obtain ⟨hk₂, hreg⟩ := h₂
      refine .instr rfl (.nil ?_)
      change (m₂.setSlot name (m₂.registers (.general 0))).Carries _
      rw [hreg.trans hv]
      exact Machine.Carries.setSlot (hk₂.slots.trans hm₁) name v
  obtain ⟨m', hreach, hm'⟩ := hstored.exists_of_ok
  exact ⟨_, hreach, .normal hm'⟩

/-- A value that is returned. -/
theorem follows_return (hl : Lowered env e 0 s r s')
    (h : ∀ x ∈ e.nodes, x.isScalar env.context = true)
    (heval : e.eval env.context P (cells.state env.context) = .ok v)
    (hp : Placed routine (returnCode r) post) :
    Follows P routine loops (returnCode r) post cells (.ended (.returned (some v))) cells := by
  intro m hm
  have hdelivers : (scalarSite P env routine m).Delivers _ r 0 := delivers_of_isScalar hl h hm
  rw [heval] at hdelivers
  have hret : ∀ {m' : Machine} {o : Operand} {rest : Code}, m'.slots = m.slots →
      m'.value P o = v.word → ∃ k, Reaches P routine (.running (.instr (.ret o) :: rest) m') k ∧
        Arrives routine loops post cells (.ended (.returned (some v))) k := by
    intro m' o rest hslots hvalue
    have hm' : m'.Carries cells := hslots.trans hm
    refine ⟨.returned v.word m', .step ?_ .refl, .ended (e := .returned (some v)) hm'⟩
    rw [← hvalue]
    rfl
  unfold returnCode at hp ⊢
  split at hp
  · next hindirect =>
    rw [if_pos hindirect]
    obtain ⟨m', hreach, hkeeps, hv⟩ :=
      (hdelivers.load _ m hp.left ⟨rfl, rfl⟩).exists_of_ok
    obtain ⟨k, hreach', harrives⟩ := hret (o := .r 0) hkeeps.slots hv
    rw [List.append_assoc]
    exact ⟨k, hreach.trans hreach', harrives⟩
  · next hdirect =>
    rw [if_neg hdirect]
    obtain ⟨m', hreach, hkeeps, hv⟩ := (hdelivers _ m hp.left ⟨rfl, rfl⟩).exists_of_ok
    obtain ⟨k, hreach', harrives⟩ := hret hkeeps.slots hv
    rw [List.append_assoc]
    exact ⟨k, hreach.trans hreach', harrives⟩

/-- A condition leaves a sign that tells its value. -/
theorem reaches_condition (hl : Lowered env e 0 s r s')
    (h : ∀ x ∈ e.nodes, x.isScalar env.context = true) {b : Bool}
    (heval : e.eval env.context P (cells.state env.context) = .ok (.bool b))
    (hp : Placed routine (conditionCode r ++ rest) post) (hm : m.Carries cells) :
    ∃ m', Reaches P routine (.running (conditionCode r ++ rest ++ post) m)
      (.running (rest ++ post) m') ∧ m'.Carries cells ∧
        (Condition.when .eq).holds m'.sign = !b := by
  let S := scalarSite P env routine m
  have hdelivers : S.Delivers _ r 0 := delivers_of_isScalar hl h hm
  rw [heval] at hdelivers
  have htested : S.Runs (conditionCode r) (rest ++ post) m
      (fun m' => m'.Carries cells ∧ (Condition.when .eq).holds m'.sign = !b)
      (.ok (.bool b)) := by
    refine .append (hdelivers.load _ m hp.left.left ⟨rfl, rfl⟩) fun m₁ h₁ => ?_
    obtain ⟨hkeeps, hv⟩ := h₁
    have hv : m₁.registers (.general 0) = Word.ofBool b := hv
    refine .instr rfl (.nil ⟨hkeeps.slots.trans hm, ?_⟩)
    change decide (P.order (m₁.registers (.general 0)) (.int 0) = .eq) = !b
    rw [hv]
    simp only [P.order_eq_iff]
    cases b <;> rfl
  obtain ⟨m', hreach, hm', hsign⟩ := htested.exists_of_ok
  rw [List.append_assoc]
  exact ⟨m', hreach, hm', hsign⟩

theorem follows_test_true {target : String} (hl : Lowered env e 0 s r s')
    (h : ∀ x ∈ e.nodes, x.isScalar env.context = true)
    (heval : e.eval env.context P (cells.state env.context) = .ok (.bool true))
    (hp : Placed routine (conditionCode r ++ jumpLine (.when .eq) target :: rest) post)
    (hrest : Follows P routine loops rest post cells c cells') :
    Follows P routine loops (conditionCode r ++ jumpLine (.when .eq) target :: rest) post cells c
      cells' := by
  intro m hm
  obtain ⟨m₁, hreach, hm₁, hsign⟩ := reaches_condition hl h heval hp hm
  obtain ⟨k, hreach', harrives⟩ := hrest m₁ hm₁
  exact ⟨k, hreach.trans (.step (step_jump_skip hsign) hreach'), harrives⟩

theorem follows_test_false {target : String} {dest : Code} (hl : Lowered env e 0 s r s')
    (h : ∀ x ∈ e.nodes, x.isScalar env.context = true)
    (heval : e.eval env.context P (cells.state env.context) = .ok (.bool false))
    (hp : Placed routine (conditionCode r ++ jumpLine (.when .eq) target :: rest) post)
    (htarget : after? target routine = some (dest ++ post))
    (hdest : Follows P routine loops dest post cells c cells') :
    Follows P routine loops (conditionCode r ++ jumpLine (.when .eq) target :: rest) post cells c
      cells' := by
  intro m hm
  obtain ⟨m₁, hreach, hm₁, hsign⟩ := reaches_condition hl h heval hp hm
  obtain ⟨k, hreach', harrives⟩ := hdest m₁ hm₁
  exact ⟨k, hreach.trans (.step (step_jump hsign htarget) hreach'), harrives⟩

theorem ifThenCode_eq (test code : Code) (names : LabelSet) :
    test ++ [jumpLine (.when .eq) names.endLabel] ++ code ++ [.label names.endLabel] =
      test ++ jumpLine (.when .eq) names.endLabel :: (code ++ [.label names.endLabel]) := by
  simp

theorem ifElseCode_eq (test code code' : Code) (names : LabelSet) :
    test ++ [jumpLine (.when .eq) names.falseLabel] ++ code ++
      [jumpLine .always names.endLabel, .label names.falseLabel] ++ code' ++
      [.label names.endLabel] =
    test ++ jumpLine (.when .eq) names.falseLabel :: (code ++ (jumpLine .always names.endLabel ::
      .label names.falseLabel :: (code' ++ [.label names.endLabel]))) := by
  simp

/-- The code of a statement starts with that of the expression that it evaluates first. -/
theorem Lowering.LoweredStmt.exists_operand {scope : ScopeId} {stmt : Stmt} {code : Code}
    (hl : LoweredStmt env loops scope stmt s code s') (he : stmt.operand? = some e) :
    ∃ s₁ r s₂, Lowered env e 0 s₁ r s₂ ∧ r.1 <+: code := by
  cases hl with
  | call | retNothing | loop | breakLoop | continueLoop | block | declare => cases he
  | assign hv _ | declareValue hv =>
    obtain rfl := Option.some.inj he
    refine ⟨_, _, _, hv, ?_⟩
    simp only [List.append_assoc]
    exact List.prefix_append ..
  | retValue hv =>
    obtain rfl := Option.some.inj he
    refine ⟨_, _, _, hv, ?_⟩
    unfold returnCode
    split
    · rw [List.append_assoc]
      exact List.prefix_append ..
    · exact List.prefix_append ..
  | ifThen hc _ _ | ifElse hc _ _ _ _ =>
    obtain rfl := Option.some.inj he
    refine ⟨_, _, _, hc, ?_⟩
    simp only [conditionCode, List.append_assoc]
    exact List.prefix_append ..

end

/-! ## Loops -/

section

variable {P : Platform} {routine : Code} {loops : Loops} {post : Code} {cells : Cells}
  {r : Completion} {k : Config}

/-- The code of a loop behind its first label. -/
def loopCode (names : LabelSet) (condition : Code × Operand) (body : Code) : Code :=
  conditionCode condition ++ jumpLine (.when .eq) names.endLabel ::
    (body ++ [jumpLine .always names.conditionLabel, .label names.endLabel])

theorem labelled_loopCode_eq (names : LabelSet) (condition : Code × Operand) (body : Code) :
    .label names.conditionLabel :: conditionCode condition ++
      [jumpLine (.when .eq) names.endLabel] ++ body ++
      [jumpLine .always names.conditionLabel, .label names.endLabel] =
    .label names.conditionLabel :: loopCode names condition body := by
  simp [loopCode]

theorem loopsPlaced_cons {names : LabelSet} {dest : Code}
    (hcondition : after? names.conditionLabel routine = some dest)
    (hend : after? names.endLabel routine = some post) : LoopsPlaced routine (names :: loops) := by
  intro names' hnames
  obtain rfl : names = names' := Option.some.inj hnames
  exact ⟨⟨post, hend⟩, ⟨dest, hcondition⟩⟩

/-- A body that lets its loop go on gets to the condition. -/
theorem Arrives.reaches_condition {names : LabelSet} {rest dest : Code}
    (h : Arrives routine (names :: loops) (jumpLine .always names.conditionLabel :: rest) cells r k)
    (hr : r.goesOn = true) (hcondition : after? names.conditionLabel routine = some dest) :
    ∃ m', Reaches P routine k (.running dest m') ∧ m'.Carries cells := by
  cases h with
  | normal hm => exact ⟨_, .step (step_jump rfl hcondition) .refl, hm⟩
  | continued ht hrest hm =>
    obtain rfl := Option.some.inj ht
    rw [hcondition] at hrest
    obtain rfl := Option.some.inj hrest
    exact ⟨_, .refl, hm⟩
  | broken | ended => cases hr

/-- A body that breaks its loop gets behind it. -/
theorem Arrives.exists_of_broken {names : LabelSet} {rest dest : Code}
    (h : Arrives routine (names :: loops) rest cells .broken k)
    (hend : after? names.endLabel routine = some dest) :
    ∃ m', k = .running dest m' ∧ m'.Carries cells := by
  cases h with
  | broken ht hrest hm =>
    obtain rfl := Option.some.inj ht
    rw [hend] at hrest
    obtain rfl := Option.some.inj hrest
    exact ⟨_, rfl, hm⟩

/-- The end of a method leaves all its loops. -/
theorem Arrives.of_ended {e : Ending} {loops' : Loops} {post' : Code}
    (h : Arrives routine loops' post' cells (.ended e) k) :
    Arrives routine loops post cells (.ended e) k := by
  cases h with
  | ended hm => exact .ended hm

end

/-! ## Statements -/

section

variable {P : Platform} {env : LowerEnv} {routine : Code}

mutual

theorem Exec.follows (h : Exec env.context P scope stmt cells r cells')
    (hl : LoweredStmt env loops scope stmt s code s')
    (hs : ∀ e ∈ stmt.exprs, e.isScalar env.context = true) (hloops : LoopsPlaced routine loops)
    (hp : Placed routine code post) : Follows P routine loops code post cells r cells' := by
  match h with
  | .failed hoperand heval =>
    obtain ⟨s₁, lowered, s₂, hlowered, rest, rfl⟩ := hl.exists_operand hoperand
    exact follows_failed hlowered (fun x hx => hs x (Stmt.nodes_subset_exprs hoperand hx)) heval hp
  | .assign heval href =>
    cases hl with
    | assign hvalue htarget =>
      -- the target is a slot and takes no code
      cases htarget with
      | ownField href' _ =>
        rw [href] at href'
        cases href'
      | var href' =>
        rw [href] at href'
        obtain rfl := Resolution.variable.inj (Option.some.inj href')
        rw [List.append_nil, List.append_assoc] at hp ⊢
        exact follows_store hvalue (List.forall_mem_append.mp hs).2 heval hp
  | .declare =>
    cases hl with
    | declare => exact .nil
  | .declareValue heval =>
    cases hl with
    | declareValue hvalue =>
      rw [List.append_assoc] at hp ⊢
      exact follows_store hvalue hs heval hp
  | .retNothing =>
    cases hl with
    | retNothing =>
      intro m hm
      exact ⟨.returned (.int 9999) m, .step rfl .refl, .ended (e := .returned none) hm⟩
  | .retValue heval =>
    cases hl with
    | retValue hvalue => exact follows_return hvalue hs heval hp
  | .ifThen heval hinner hbody =>
    cases hl with
    | ifThen hcondition hinner' hcode =>
      obtain rfl := Option.some.inj (hinner.symm.trans hinner')
      rw [ifThenCode_eq] at hp ⊢
      obtain ⟨hs, hs'⟩ := List.forall_mem_append.mp hs
      refine follows_test_true hcondition hs heval hp ?_
      have hfollows := hbody.follows hcode hs' hloops hp.right.tail.left
      exact hfollows.finish (.label .nil)
  | .ifThenSkip heval =>
    cases hl with
    | ifThen hcondition _ _ =>
      rw [ifThenCode_eq] at hp ⊢
      exact follows_test_false hcondition (List.forall_mem_append.mp hs).1 heval hp
        hp.right.tail.right.after? .nil
  | .ifTrue heval hinner hbody =>
    cases hl with
    | ifElse hcondition hinner' hcode _ _ =>
      obtain rfl := Option.some.inj (hinner.symm.trans hinner')
      rw [ifElseCode_eq] at hp ⊢
      obtain ⟨hs, hs'⟩ := List.forall_mem_append.mp (List.forall_mem_append.mp hs).1
      refine follows_test_true hcondition hs heval hp ?_
      have hfollows := hbody.follows hcode hs' hloops hp.right.tail.left
      exact hfollows.finish (.jump hp.right.tail.right.tail.tail.right.after? .nil)
  | .ifFalse heval hinner hbody =>
    cases hl with
    | ifElse hcondition _ _ hinner' hcode =>
      obtain rfl := Option.some.inj (hinner.symm.trans hinner')
      rw [ifElseCode_eq] at hp ⊢
      have helse := hp.right.tail.right.tail
      obtain ⟨hs, hs'⟩ := List.forall_mem_append.mp hs
      refine follows_test_false hcondition (List.forall_mem_append.mp hs).1 heval hp helse.after? ?_
      have hfollows := hbody.follows hcode hs' hloops helse.tail.left
      exact hfollows.finish (.label .nil)
  | .loop hinner hexec =>
    cases hl with
    | loop hcondition hinner' hcode =>
      obtain rfl := Option.some.inj (hinner.symm.trans hinner')
      rw [labelled_loopCode_eq] at hp ⊢
      obtain ⟨hs, hs'⟩ := List.forall_mem_append.mp hs
      exact .label (hexec.follows hcondition hcode hs hs' hp)
  | .breakLoop =>
    cases hl with
    | breakLoop htarget =>
      intro m hm
      obtain ⟨names, hnames, rfl⟩ := Option.map_eq_some_iff.mp htarget
      obtain ⟨rest, hrest⟩ := (hloops names hnames).1
      exact ⟨_, .step (step_jump rfl hrest) .refl, .broken htarget hrest hm⟩
  | .continueLoop =>
    cases hl with
    | continueLoop htarget =>
      intro m hm
      obtain ⟨names, hnames, rfl⟩ := Option.map_eq_some_iff.mp htarget
      obtain ⟨rest, hrest⟩ := (hloops names hnames).2
      exact ⟨_, .step (step_jump rfl hrest) .refl, .continued htarget hrest hm⟩
  | .block hinner hexec =>
    cases hl with
    | block hinner' hcode =>
      obtain rfl := Option.some.inj (hinner.symm.trans hinner')
      exact hexec.follows hcode hs hloops hp

theorem ExecLoop.follows {inner : ScopeId}
    (h : ExecLoop env.context P inner condition body cells r cells')
    (hcondition : Lowered env condition 0 s lc s₁)
    (hcode : LoweredStmt env (names :: loops) inner body s₁ code s')
    (hs : ∀ x ∈ condition.nodes, x.isScalar env.context = true)
    (hs' : ∀ x ∈ body.exprs, x.isScalar env.context = true)
    (hp : Placed routine (.label names.conditionLabel :: loopCode names lc code) post) :
    Follows P routine loops (loopCode names lc code) post cells r cells' := by
  have hstart := hp.after?
  have hbody := hp.tail.right.tail.left
  have hend := hp.tail.right.tail.right.tail.after?
  have hloops : LoopsPlaced routine (names :: loops) := loopsPlaced_cons hstart hend
  match h with
  | .failed heval =>
    have hsplit : loopCode names lc code = lc.1 ++ (load lc.2 0 ++
        .instr (.compare (.int 0) (.general 0)) :: jumpLine (.when .eq) names.endLabel ::
          (code ++ [jumpLine .always names.conditionLabel, .label names.endLabel])) := by
      simp [loopCode, conditionCode]
    have hp := hp.tail
    rw [hsplit] at hp ⊢
    exact follows_failed hcondition hs heval hp
  | .done heval => exact follows_test_false hcondition hs heval hp.tail hend .nil
  | .next heval hexec hgoesOn hrest =>
    refine follows_test_true hcondition hs heval hp.tail fun m hm => ?_
    obtain ⟨k, hreach, harrives⟩ := hexec.follows hcode hs' hloops hbody m hm
    obtain ⟨m₁, hback, hm₁⟩ := harrives.reaches_condition (P := P) hgoesOn hstart
    obtain ⟨k', hreach', harrives'⟩ := hrest.follows hcondition hcode hs hs' hp m₁ hm₁
    rw [List.append_assoc]
    exact ⟨k', hreach.trans (hback.trans hreach'), harrives'⟩
  | .broken heval hexec =>
    refine follows_test_true hcondition hs heval hp.tail fun m hm => ?_
    obtain ⟨k, hreach, harrives⟩ := hexec.follows hcode hs' hloops hbody m hm
    obtain ⟨m₁, rfl, hm₁⟩ := harrives.exists_of_broken hend
    rw [List.append_assoc]
    exact ⟨_, hreach, .normal hm₁⟩
  | .ended heval hexec =>
    refine follows_test_true hcondition hs heval hp.tail fun m hm => ?_
    obtain ⟨k, hreach, harrives⟩ := hexec.follows hcode hs' hloops hbody m hm
    rw [List.append_assoc]
    exact ⟨k, hreach, harrives.of_ended⟩

theorem ExecList.follows (h : ExecList env.context P scope stmts cells r cells')
    (hl : LoweredStmts env loops scope stmts s code s')
    (hs : ∀ e ∈ Stmt.exprsOfList stmts, e.isScalar env.context = true)
    (hloops : LoopsPlaced routine loops) (hp : Placed routine code post) :
    Follows P routine loops code post cells r cells' := by
  match h with
  | .nil =>
    cases hl with
    | nil => exact .nil
  | .cons hfirst hrest =>
    cases hl with
    | cons hl hls =>
      obtain ⟨hs, hs'⟩ := List.forall_mem_append.mp hs
      have hhead := hfirst.follows hl hs hloops hp.left
      have htail := hrest.follows hls hs' hloops hp.right
      exact hhead.append htail
  | .abrupt hfirst hr =>
    cases hl with
    | cons hl hls =>
      have hhead := hfirst.follows hl (List.forall_mem_append.mp hs).1 hloops hp.left
      exact hhead.abrupt hr

end

end

end IcLir
