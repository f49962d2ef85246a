import IcLir.Proofs.RegisterUse

/-
  Guards in the code of a method. What an instruction relies on is read off its operands
  (`Instr.needs`): an array and its index, an object, a divisor, the size of an allocation. The
  code before it must have called the guard on those registers and left them alone since
  (`Provides`). A divisor or a size that is in no register is a need that nothing sees to. Code
  at base register `d` leaves the registers below `d` alone (`WritesFrom`), and the operand that
  an expression comes to needs no more than its own code provides. Only a library routine that
  the program declares itself is called without a guard.
-/

namespace IcLir

/-! ## Needs -/

/-- What has to hold before an instruction is run. -/
inductive Need where
  /-- The guard has passed the registers. -/
  | checked (g : Guard) (registers : List Nat)
  /-- The register holds an object: one that a guard has passed, or the receiver. -/
  | object (base : Nat)
  /-- The operand is in a general register. No code sees to this: it holds of the operand that
      the instruction has, or not at all. -/
  | loaded (o : Operand)

/-- What reading or writing an operand relies on. The dispatch table of an object, its word 0,
    is only written when the object is made. -/
def Operand.needs : Operand → List Need
  | .element base index => [.checked .nullRef [base], .checked .arrayAccess [base, index]]
  | .field base (_ + 1) => [.object base]
  | .field _ 0 | .reg _ | .int _ | .label _ | .slot _ => []

/-- The operand has passed a guard, which takes registers only. -/
def Operand.passes (o : Operand) (g : Guard) : Need :=
  match o.general? with
  | some n => .checked g [n]
  | none => .loaded o

def Instr.needs : Instr → List Need
  | .move src dst => src.needs ++ dst.needs
  | .arrayLength array _ => [(Operand.reg array).passes .nullRef]
  | .arith op divisor _ => if op.divides then [divisor.passes .zero] else []
  | .library "__allocateArray" sizes _ => sizes.map (·.passes .size)
  | .virtualCall (.general base) _ _ _ => [.object base]
  | .virtualCall object _ _ _ => [.loaded (.reg object)]
  | _ => []

namespace Line

def needs : Line → List Need
  | .label _ => []
  | .instr i => i.needs

def isLibrary : Line → Bool
  | .instr (.library ..) => true
  | _ => false

/-- The line changes no register below `d`. -/
def WritesFrom (d : Nat) (line : Line) : Prop :=
  ∀ n, line.written? = some (.general n) → d ≤ n

end Line

namespace Code

/-- No line of the code changes one of the registers. -/
def Spares (registers : List Nat) (code : Code) : Prop :=
  ∀ line ∈ code, ∀ n ∈ registers, line.written? ≠ some (.general n)

/-- The code before an instruction sees to a need. -/
inductive Provides (before : Code) : Need → Prop where
  | guard {u v : Code} {g : Guard} {registers : List Nat} :
    before = u ++ g.call registers :: v → Spares registers v →
    Provides before (.checked g registers)
  | object {base : Nat} : Provides before (.checked .nullRef [base]) →
    Provides before (.object base)
  | receiver {u v : Code} {base : Nat} :
    before = u ++ .instr (.move .receiver (.r base)) :: v → Spares [base] v →
    Provides before (.object base)

/-- Behind the code `before`, all needs of the code are seen to, but for library routines among
    the given calls. These are the calls in the code that are not added, in this order. -/
inductive Guarded : Code → Code → List Line → Prop where
  | nil {before : Code} : Guarded before [] []
  | line {before code : Code} {calls : List Line} {line : Line} :
    (line.isCall = true → line.Added) → (∀ need ∈ line.needs, Provides before need) →
    Guarded (before ++ [line]) code calls → Guarded before (line :: code) calls
  | call {before code : Code} {calls : List Line} {line : Line} :
    line.isCall = true → (line.isLibrary = false → ∀ need ∈ line.needs, Provides before need) →
    Guarded (before ++ [line]) code calls → Guarded before (line :: code) (line :: calls)

def WritesFrom (d : Nat) (code : Code) : Prop := ∀ line ∈ code, line.WritesFrom d

theorem spares_nil {registers : List Nat} : Spares registers [] := fun _ h => by cases h

theorem spares_guard {registers : List Nat} (g : Guard) (registers' : List Nat) :
    Spares registers [g.call registers'] := by
  intro line hline n _ hwrites
  rw [List.mem_singleton.mp hline] at hwrites
  cases hwrites

section

variable {before u a b code : Code} {calls calls' : List Line} {line : Line} {need : Need}

theorem Provides.after (h : Provides before need) (u : Code) : Provides (u ++ before) need := by
  induction h with
  | guard hb hs =>
    subst hb
    exact .guard (List.append_assoc u _ _).symm hs
  | object _ ih => exact .object ih
  | receiver hb hs =>
    subst hb
    exact .receiver (List.append_assoc u _ _).symm hs

theorem Spares.append {registers : List Nat} (ha : Spares registers a) (hb : Spares registers b) :
    Spares registers (a ++ b) := by
  intro line hline
  rcases List.mem_append.mp hline with h | h
  · exact ha line h
  · exact hb line h

theorem UsesOnly.writesFrom {d : Nat} (h : code.UsesOnly (d ≤ ·)) : WritesFrom d code :=
  fun _ hline _ hwritten => (h.line hline).written hwritten

theorem WritesFrom.spares {d : Nat} (h : WritesFrom d code) {registers : List Nat}
    (hr : ∀ n ∈ registers, n < d) : Spares registers code := by
  intro line hline n hn hwrites
  have hle := h line hline n hwrites
  have hlt := hr n hn
  omega

/-- An object stays where it is. -/
theorem Provides.keep {base : Nat} (h : Provides before (.object base)) (hb : Spares [base] b) :
    Provides (before ++ b) (.object base) := by
  cases h with
  | object h =>
    cases h with
    | guard hbefore hs =>
      subst hbefore
      exact .object (.guard (List.append_assoc ..) (hs.append hb))
  | receiver hbefore hs =>
    subst hbefore
    exact .receiver (List.append_assoc ..) (hs.append hb)

namespace Guarded

theorem after (h : Guarded before code calls) (u : Code) : Guarded (u ++ before) code calls := by
  induction h with
  | nil => exact .nil
  | line hline hneeds _ ih =>
    rw [← List.append_assoc] at ih
    exact .line hline (fun need hn => (hneeds need hn).after u) ih
  | call hline hneeds _ ih =>
    rw [← List.append_assoc] at ih
    exact .call hline (fun hl need hn => (hneeds hl need hn).after u) ih

theorem append (ha : Guarded before a calls) (hb : Guarded (before ++ a) b calls') :
    Guarded before (a ++ b) (calls ++ calls') := by
  induction ha with
  | nil =>
    rw [List.append_nil] at hb
    exact hb
  | line hline hneeds _ ih =>
    refine .line hline hneeds (ih ?_)
    rw [List.append_assoc]
    exact hb
  | call hline hneeds _ ih =>
    refine .call hline hneeds (ih ?_)
    rw [List.append_assoc]
    exact hb

theorem userCalls (h : Guarded before code calls) : UserCalls code calls := by
  induction h with
  | nil => exact .nil
  | line hline _ _ ih => exact .other hline ih
  | call hline _ _ ih => exact .call hline ih

/-- What a line needs is seen to by the code before it. -/
theorem provides (h : Guarded before code calls) (hcode : code = a ++ line :: b) :
    (∀ need ∈ line.needs, Provides (before ++ a) need) ∨ line.isLibrary = true ∧ line ∈ calls := by
  induction h generalizing a with
  | nil => simp at hcode
  | line _ hneeds _ ih =>
    cases a with
    | nil =>
      obtain ⟨rfl, _⟩ := List.cons.inj hcode
      rw [List.append_nil]
      exact .inl hneeds
    | cons first a =>
      obtain ⟨rfl, hrest⟩ := List.cons.inj hcode
      have hrest := ih hrest
      rw [List.append_assoc] at hrest
      exact hrest
  | @call before' code' calls' line' _ hneeds _ ih =>
    cases a with
    | nil =>
      obtain ⟨rfl, _⟩ := List.cons.inj hcode
      rw [List.append_nil]
      cases hlibrary : line'.isLibrary with
      | false => exact .inl (hneeds hlibrary)
      | true => exact .inr ⟨rfl, List.mem_cons_self⟩
    | cons first a =>
      obtain ⟨rfl, hrest⟩ := List.cons.inj hcode
      have hrest := ih hrest
      rw [List.append_assoc] at hrest
      exact hrest.imp_right fun h => ⟨h.1, List.mem_cons_of_mem _ h.2⟩

end Guarded

end

/-- The code sees to what the operand needs. -/
def Supplies (code : Code) (o : Operand) : Prop := ∀ need ∈ o.needs, Provides code need

theorem Supplies.after {code : Code} {o : Operand} (h : Supplies code o) (u : Code) :
    Supplies (u ++ code) o := fun need hn => (h need hn).after u

end Code

/-! ## Lowered expressions -/

namespace Lowering

open Code Pass

variable {env : LowerEnv}

/-- Guarded code for the calls of the source. -/
def GuardsCalls (env : LowerEnv) (sources : List Expr) (code : Code) : Prop :=
  ∃ calls, List.Forall₂ env.Makes sources calls ∧ Guarded [] code calls

namespace GuardsCalls

variable {sources sources' : List Expr} {a b : Code} {line : Line} {o : Operand}

theorem nil : GuardsCalls env [] [] := ⟨[], .nil, .nil⟩

theorem append (ha : GuardsCalls env sources a) (hb : GuardsCalls env sources' b) :
    GuardsCalls env (sources ++ sources') (a ++ b) := by
  obtain ⟨calls, hmakes, hguarded⟩ := ha
  obtain ⟨calls', hmakes', hguarded'⟩ := hb
  refine ⟨calls ++ calls', List.rel_append hmakes hmakes', hguarded.append ?_⟩
  have hbehind := hguarded'.after a
  rw [List.append_nil] at hbehind
  exact hbehind

theorem concat (ha : GuardsCalls env sources a) (hline : line.isCall = true → line.Added)
    (hneeds : ∀ need ∈ line.needs, Provides a need) : GuardsCalls env sources (a ++ [line]) := by
  obtain ⟨calls, hmakes, hguarded⟩ := ha
  refine ⟨calls, hmakes, ?_⟩
  have hlast : Guarded ([] ++ a) [line] [] := .line hline hneeds .nil
  have hboth := hguarded.append hlast
  rw [List.append_nil] at hboth
  exact hboth

/-- A line that relies on nothing. -/
theorem concat_free (ha : GuardsCalls env sources a) (hline : line.isCall = true → line.Added)
    (hneeds : line.needs = []) : GuardsCalls env sources (a ++ [line]) := by
  refine ha.concat hline fun need hn => ?_
  rw [hneeds] at hn
  cases hn

theorem concat_safe (ha : GuardsCalls env sources a) (hcall : line.isCall = false)
    (hneeds : line.needs = []) : GuardsCalls env sources (a ++ [line]) :=
  ha.concat_free (Line.added_of_not_isCall hcall) hneeds

theorem concat_guard (ha : GuardsCalls env sources a) (g : Guard) (registers : List Nat) :
    GuardsCalls env sources (a ++ [g.call registers]) :=
  ha.concat_free (fun _ => .guard g registers) rfl

theorem load (ha : GuardsCalls env sources a) (ho : Supplies a o) (n : Nat) :
    GuardsCalls env sources (a ++ Code.load o n) := by
  unfold Code.load
  split
  · rw [List.append_nil]
    exact ha
  · exact ha.concat (Line.added_of_not_isCall rfl)
      fun need hneed => ho need ((List.append_nil o.needs) ▸ hneed)

theorem concat_call {x : Expr} (ha : GuardsCalls env sources a) (hmakes : env.Makes x line)
    (hline : line.isCall = true)
    (hneeds : line.isLibrary = false → ∀ need ∈ line.needs, Provides a need) :
    GuardsCalls env (sources ++ [x]) (a ++ [line]) := by
  obtain ⟨calls, hcalls, hguarded⟩ := ha
  exact ⟨calls ++ [line], List.rel_append hcalls (.cons hmakes .nil),
    hguarded.append (.call hline hneeds .nil)⟩

/-- Lines that call nothing and rely on nothing. -/
theorem append_safe (ha : GuardsCalls env sources a) (hcalls : b.any Line.isCall = false)
    (hb : b.flatMap Line.needs = []) : GuardsCalls env sources (a ++ b) := by
  induction b generalizing a with
  | nil =>
    rw [List.append_nil]
    exact ha
  | cons line b ih =>
    obtain ⟨hline, hrest⟩ := List.append_eq_nil_iff.mp hb
    obtain ⟨hcall, hcalls⟩ := Bool.or_eq_false_iff.mp hcalls
    have hrest := ih (ha.concat_safe hcall hline) hcalls hrest
    rw [List.append_assoc] at hrest
    exact hrest

/-- Two operands in either order, where only operands without calls are exchanged. -/
theorem swap {left right : Expr} (hl : GuardsCalls env left.calls a)
    (hr : GuardsCalls env right.calls b) (h : env.strategy.rightFirst left right = true) :
    GuardsCalls env (left.calls ++ right.calls) (b ++ a) := by
  obtain ⟨hleft, hright⟩ := Expr.calls_eq_nil_of_rightFirst h
  have hswapped := hr.append hl
  rwa [hleft, hright] at hswapped ⊢

end GuardsCalls

section

variable {callee : Callee} {line : Line} {name : String} {d : Nat} {s s' : Supply}

variable {code : Code} {sources args : List Expr} {x : Expr} {rightFirst : Bool}

/-- A static call relies on nothing, and a library routine is not guarded. -/
theorem needs_staticCallLine (h : env.staticCallLine callee name d s = .ok line s')
    (hline : line.isLibrary = false) : line.needs = [] := by
  rcases eq_staticCallLine h with ⟨_, rfl⟩ | ⟨_, _, _, _, rfl⟩
  · cases hline
  · rfl

theorem needs_virtualCallLine (h : env.virtualCallLine callee d s = .ok line s') :
    line.needs = [.object d] := by
  obtain ⟨_, _, _, _, _, rfl⟩ := eq_virtualCallLine h
  rfl

/-- Guarded code that sees to what its operand needs. -/
structure Prepares (env : LowerEnv) (e : Expr) (r : Code × Operand) : Prop where
  guards : GuardsCalls env e.calls r.1
  supplies : Supplies r.1 r.2

theorem supplies_of_needs {o : Operand} (h : o.needs = []) : Supplies code o := by
  intro need hn
  rw [h] at hn
  cases hn

theorem prepares_of_guards {e : Expr} (h : GuardsCalls env e.calls code) :
    Prepares env e (code, .r d) :=
  ⟨h, supplies_of_needs rfl⟩

variable {e left right : Expr} {l r : Code × Operand}

theorem Prepares.load (h : Prepares env e r) (n : Nat) :
    GuardsCalls env e.calls (r.1 ++ load r.2 n) :=
  h.guards.load h.supplies n

theorem GuardsCalls.rightOperand {a : Code} {value : Operand} (ha : GuardsCalls env sources a)
    (ho : Supplies a value) (strategy : Strategy) (keep : Bool) (n : Nat) :
    GuardsCalls env sources (a ++ (rightOperand strategy keep value n).1) := by
  unfold Lowering.rightOperand
  split
  · rw [List.append_nil]
    exact ha
  · exact ha.load ho n

theorem guards_operands (hl : Prepares env left l) (hr : Prepares env right r)
    (horder : env.strategy.rightFirst left right = rightFirst) (keep : Bool) :
    GuardsCalls env (left.calls ++ right.calls)
      (operands env.strategy rightFirst keep d l r).code := by
  cases rightFirst with
  | false =>
    exact ((hl.load d).append hr.guards).rightOperand (hr.supplies.after _) env.strategy keep _
  | true =>
    have hright := hr.guards.rightOperand hr.supplies env.strategy keep d
    have hboth := (hl.load (d + 1)).swap hright horder
    rwa [← List.append_assoc] at hboth

theorem prepares_index (node : Node) (hl : Prepares env left l) (hr : Prepares env right r)
    (horder : env.strategy.rightFirst left right = rightFirst)
    (hlater : rightFirst = false → StaysFrom (d + 1) r) :
    Prepares env (.index node left right) (indexCode rightFirst l r d) := by
  cases rightFirst with
  | false =>
    have hboth := ((hl.load d).concat_guard .nullRef [d]).append (hr.load (d + 1))
    rw [← List.append_assoc] at hboth
    refine ⟨hboth.concat_guard .arrayAccess [d, d + 1], fun need hn => ?_⟩
    rcases List.mem_cons.mp hn with rfl | hn
    · -- the code of the index leaves the array alone
      have hspares : Spares [d] (r.1 ++ Code.load r.2 (d + 1) ++
          [Guard.arrayAccess.call [d, d + 1]]) :=
        ((hlater rfl).load.writesFrom.spares (by simp)).append
          (spares_guard .arrayAccess [d, d + 1])
      refine .guard (u := l.1 ++ Code.load l.2 d) ?_ hspares
      simp [indexCode]
    · rw [List.mem_singleton.mp hn]
      exact .guard rfl spares_nil
  | true =>
    have hboth := (hl.load (d + 1)).swap (hr.load d) horder
    rw [← List.append_assoc] at hboth
    have hguarded := (hboth.concat_guard .nullRef [d + 1]).concat_guard .arrayAccess [d + 1, d]
    rw [List.append_assoc] at hguarded
    refine ⟨hguarded, fun need hn => ?_⟩
    rcases List.mem_cons.mp hn with rfl | hn
    · exact .guard rfl (spares_guard .arrayAccess [d + 1, d])
    · rw [List.mem_singleton.mp hn]
      refine .guard (u := r.1 ++ Code.load r.2 d ++ l.1 ++ Code.load l.2 (d + 1) ++
        [Guard.nullRef.call [d + 1]]) ?_ spares_nil
      simp [indexCode]

theorem guards_operationCode {os : Operands} (isConcat : Bool) (op : ArithOp)
    (h : GuardsCalls env sources os.code)
    (hright : isConcat = false → op.divides = true → ∃ n, os.right = .r n) :
    GuardsCalls env sources (operationCode isConcat op os d) := by
  cases isConcat with
  | true => exact h.concat_free (fun _ => .stringCat os.left os.right d) rfl
  | false =>
    have hsum : GuardsCalls env sources (os.code ++ divisorGuard op os.right ++
        [.instr (.arith op os.right (.general os.left))]) := by
      cases hop : op.divides with
      | true =>
        obtain ⟨n, hn⟩ := hright rfl hop
        rw [hn, divisorGuard_r, if_pos hop]
        refine (h.concat_guard .zero [n]).concat (Line.added_of_not_isCall rfl) fun need hneed => ?_
        change need ∈ (if op.divides then [Need.checked .zero [n]] else []) at hneed
        rw [if_pos hop] at hneed
        rw [List.mem_singleton.mp hneed]
        exact .guard rfl spares_nil
      | false =>
        rw [divisorGuard, hop, if_neg Bool.false_ne_true, List.append_nil]
        exact h.concat_safe rfl (if_neg (by rw [hop]; exact Bool.false_ne_true))
    exact hsum.load (supplies_of_needs rfl) d

theorem guards_compareCode {os : Operands} (op : CompareOp) (names : LabelSet)
    (h : GuardsCalls env sources os.code) : GuardsCalls env sources (compareCode op names os d) :=
  h.append_safe rfl rfl

theorem guards_logicCode (op : LogicOp) (names : LabelSet) (hl : Prepares env left l)
    (hr : Prepares env right r) :
    GuardsCalls env (left.calls ++ right.calls) (logicCode op names l r d) := by
  have htested : ∀ exit, GuardsCalls env (left.calls ++ right.calls)
      (l.1 ++ load l.2 d ++ logicTest op d exit ++ r.1 ++ load r.2 d ++ logicTest op d exit) := by
    intro exit
    have hboth := ((hl.load d).append_safe (b := logicTest op d exit) rfl rfl).append (hr.load d)
    rw [← List.append_assoc] at hboth
    exact hboth.append_safe rfl rfl
  cases op with
  | and | or => exact (htested _).append_safe rfl rfl

theorem prepares_field (node : Node) (name : Ident) (offset : Nat) (h : Prepares env e r) :
    Prepares env (.field node e name)
      (r.1 ++ load r.2 d ++ [Guard.nullRef.call [d]], .field d offset) := by
  refine ⟨(h.load d).concat_guard .nullRef [d], fun need hn => ?_⟩
  cases offset with
  | zero => cases hn
  | succ offset =>
    rw [List.mem_singleton.mp hn]
    exact .object (.guard rfl spares_nil)

theorem prepares_ownField (node : Node) (name : Ident) (offset : Nat) :
    Prepares env (.var node name) ([.instr (.move .receiver (.r d))], .field d offset) := by
  refine ⟨GuardsCalls.nil.concat_safe rfl rfl, fun need hn => ?_⟩
  cases offset with
  | zero => cases hn
  | succ offset =>
    rw [List.mem_singleton.mp hn]
    exact .receiver (u := []) rfl spares_nil

theorem prepares_length (node : Node) (h : Prepares env e r) :
    Prepares env (.length node e) (r.1 ++ load r.2 d ++
      [Guard.nullRef.call [d], .instr (.arrayLength (.general d) (.general d))], .r d) := by
  have hline : GuardsCalls env e.calls (r.1 ++ load r.2 d ++ [Guard.nullRef.call [d]] ++
      [.instr (.arrayLength (.general d) (.general d))]) := by
    refine ((h.load d).concat_guard .nullRef [d]).concat (Line.added_of_not_isCall rfl)
      fun need hn => ?_
    rw [List.mem_singleton.mp hn]
    exact .guard rfl spares_nil
  rw [List.append_assoc] at hline
  exact prepares_of_guards hline

theorem prepares_newArray (node : Node) (element : TypeExpr) (h : Prepares env e r) :
    Prepares env (.newArray node element e)
      (r.1 ++ load r.2 d ++ [.instr (.arith .mul (.int 4) (.general d)), Guard.size.call [d],
        libraryCall "__allocateArray" [.r d] d], .r d) := by
  have hline : GuardsCalls env e.calls (r.1 ++ load r.2 d ++
      [.instr (.arith .mul (.int 4) (.general d))] ++ [Guard.size.call [d]] ++
      [libraryCall "__allocateArray" [.r d] d]) := by
    refine (((h.load d).concat_safe rfl rfl).concat_guard .size [d]).concat
      (fun _ => .allocateArray d) fun need hn => ?_
    rw [List.mem_singleton.mp hn]
    exact .guard rfl spares_nil
  rw [List.append_assoc, List.append_assoc] at hline
  exact prepares_of_guards hline

theorem prepares_unary (node : Node) (op : UnaryOp) (h : Prepares env e r) :
    Prepares env (.unary node op e) (r.1 ++ load r.2 d ++ [.instr (unaryCode op d)], .r d) := by
  refine prepares_of_guards ((h.load d).concat_safe ?_ ?_) <;> cases op <;> rfl

/-- A call of a method by its name, or of a library routine. -/
theorem guards_staticCall (hargs : GuardsCalls env args code) (hmakes : env.Makes x line)
    (hline : env.staticCallLine callee name d s = .ok line s') :
    GuardsCalls env (args ++ [x]) (code ++ [line]) := by
  refine hargs.concat_call hmakes (isCall_staticCallLine hline) fun hlibrary need hn => ?_
  rw [needs_staticCallLine hline hlibrary] at hn
  cases hn

/-- A virtual call whose object stays where it is while the arguments are evaluated. -/
theorem guards_virtualCall {before : Code} (hbefore : GuardsCalls env sources before)
    (hobject : Provides before (.object d)) (hargs : GuardsCalls env args code)
    (hwrites : WritesFrom (d + 1) code) (hmakes : env.Makes x line)
    (hline : env.virtualCallLine callee d s = .ok line s') :
    GuardsCalls env (sources ++ args ++ [x]) (before ++ code ++ [line]) := by
  refine (hbefore.append hargs).concat_call hmakes (isCall_virtualCallLine hline)
    fun _ need hn => ?_
  rw [needs_virtualCallLine hline] at hn
  rw [List.mem_singleton.mp hn]
  exact hobject.keep (hwrites.spares (by simp))

theorem prepares_arith (node : Node) (isConcat : Bool) (op : ArithOp) (hl : Prepares env left l)
    (hr : Prepares env right r) (horder : env.strategy.rightFirst left right = rightFirst) :
    Prepares env (.binary node (.arith op) left right) (operationCode isConcat op
      (operands env.strategy rightFirst (keepsRight isConcat op.divides) d l r) d, .r d) := by
  refine prepares_of_guards (guards_operationCode isConcat op (guards_operands hl hr horder _) ?_)
  rintro rfl
  exact exists_divisor env.strategy rightFirst d l r

end

theorem needs_of_literalOperand {value : Literal} {o : Operand} {s s' : Supply}
    (h : literalOperand value s = .ok o s') : o.needs = [] := by
  have hlit : Meets CompileError.Any (literalOperand value) s fun o _ => o.needs = [] := by
    unfold literalOperand
    split
    · exact rfl
    · rw [meets_bind]
      exact rfl
    all_goals exact rfl
  exact hlit.of_ok h

theorem prepares_of_needs {e : Expr} {o : Operand} (hcalls : e.calls = []) (ho : o.needs = []) :
    Prepares env e ([], o) := by
  refine ⟨?_, supplies_of_needs ho⟩
  rw [hcalls]
  exact .nil

/-- What is evaluated second stays away from the register of the first. -/
theorem LoweredPair.staysFrom_right {left right : Expr} {d : Nat} {s s' : Supply}
    {rightFirst : Bool} {l r : Code × Operand}
    (h : LoweredPair env left right d s rightFirst l r s') (hr : rightFirst = false) :
    StaysFrom (d + 1) r := by
  cases h with
  | leftFirst _ _ hright => exact hright.staysFrom
  | rightFirst => cases hr

mutual

/-- The code of an expression is guarded and sees to what its operand needs. -/
theorem Lowered.prepares (h : Lowered env e d s r s') : Prepares env e r := by
  match h with
  | .literal hv => exact prepares_of_needs rfl (needs_of_literalOperand hv)
  | .var _ | .this => exact prepares_of_needs rfl rfl
  | .ownField _ _ => exact prepares_ownField _ _ _
  | .field hobject _ _ => exact prepares_field _ _ _ hobject.prepares
  | .index hpair =>
    obtain ⟨hl, hr⟩ := hpair.prepares
    exact prepares_index _ hl hr hpair.rightFirst_eq hpair.staysFrom_right
  | .staticCall hc hcallee hargs hline =>
    exact prepares_of_guards
      (guards_staticCall hargs.guards (.staticCall hc hcallee hline) hline)
  | .ownStatic hcallee hkind hargs hline =>
    exact prepares_of_guards
      (guards_staticCall hargs.guards (.ownStatic hcallee hkind hline) hline)
  | .ownVirtual hcallee hkind hargs hline =>
    have hreceiver : GuardsCalls env [] [Line.instr (.move .receiver (.r d))] :=
      GuardsCalls.nil.concat_safe rfl rfl
    exact prepares_of_guards (guards_virtualCall hreceiver (.receiver (u := []) rfl spares_nil)
      hargs.guards hargs.usesOnly.writesFrom (.ownVirtual hcallee hkind hline) hline)
  | .methodCall htype hcallee hobject hargs hline =>
    have hchecked := (hobject.prepares.load d).concat_guard .nullRef [d]
    exact prepares_of_guards (guards_virtualCall hchecked (.object (.guard rfl spares_nil))
      hargs.guards hargs.usesOnly.writesFrom (.methodCall htype hcallee hline) hline)
  | .newObject _ _ =>
    exact prepares_of_guards ((GuardsCalls.nil.concat_free (fun _ => .allocateObject _ d)
      rfl).concat_safe rfl rfl)
  | .newArray hsize => exact prepares_newArray _ _ hsize.prepares
  | .length harray => exact prepares_length _ harray.prepares
  | .logic hl hr =>
    exact prepares_of_guards (guards_logicCode _ _ hl.prepares hr.prepares)
  | .compare hpair =>
    obtain ⟨hl, hr⟩ := hpair.prepares
    exact prepares_of_guards (guards_compareCode _ _ (guards_operands hl hr hpair.rightFirst_eq _))
  | .arith _ hpair =>
    obtain ⟨hl, hr⟩ := hpair.prepares
    exact prepares_arith _ _ _ hl hr hpair.rightFirst_eq
  | .unary hoperand => exact prepares_unary _ _ hoperand.prepares
  | .paren hinner => exact ⟨hinner.prepares.guards, hinner.prepares.supplies⟩

theorem LoweredPair.prepares (h : LoweredPair env left right d s rightFirst l r s') :
    Prepares env left l ∧ Prepares env right r := by
  match h with
  | .leftFirst _ hl hr => exact ⟨hl.prepares, hr.prepares⟩
  | .rightFirst _ hr hl => exact ⟨hl.prepares, hr.prepares⟩

theorem LoweredArgs.guards (h : LoweredArgs env es d s code s') :
    GuardsCalls env (Expr.callsOfList es) code := by
  match h with
  | .nil => exact .nil
  | .cons he hes => exact (he.prepares.load d).append hes.guards

end

/-! ## Lowered statements -/

section

variable {e : Expr} {r t : Code × Operand} {sources : List Expr} {a : Code}

theorem GuardsCalls.storeSource {value : Operand} (ha : GuardsCalls env sources a)
    (ho : Supplies a value) (strategy : Strategy) :
    GuardsCalls env sources (a ++ (storeSource strategy value).1) := by
  unfold Lowering.storeSource
  split
  · rw [List.append_nil]
    exact ha
  · exact ha.load ho 0

theorem needs_storeSource (strategy : Strategy) (value : Operand) :
    (storeSource strategy value).2.needs = [] := by
  unfold storeSource
  split
  · next h =>
    obtain ⟨_, hliteral⟩ := Bool.and_eq_true_iff.mp h
    cases value with
    | int | label => rfl
    | reg | slot | field | element => cases hliteral
  · rfl

theorem guards_assign {target : Expr} (strategy : Strategy) (hv : Prepares env e r)
    (ht : Prepares env target t) :
    GuardsCalls env (e.calls ++ target.calls) (r.1 ++ (storeSource strategy r.2).1 ++ t.1 ++
      [.instr (.move (storeSource strategy r.2).2 t.2)]) := by
  refine ((hv.guards.storeSource hv.supplies strategy).append ht.guards).concat
    (Line.added_of_not_isCall rfl) fun need hn => ?_
  change need ∈ (storeSource strategy r.2).2.needs ++ t.2.needs at hn
  rw [needs_storeSource, List.nil_append] at hn
  exact ht.supplies.after _ need hn

theorem guards_declare (strategy : Strategy) (name : String) (hv : Prepares env e r) :
    GuardsCalls env e.calls (r.1 ++ (storeSource strategy r.2).1 ++
      [.instr (.move (storeSource strategy r.2).2 (.slot name))]) := by
  refine (hv.guards.storeSource hv.supplies strategy).concat_safe rfl ?_
  change (storeSource strategy r.2).2.needs ++ [] = []
  rw [needs_storeSource]
  rfl

theorem guards_conditionCode (h : Prepares env e r) : GuardsCalls env e.calls (conditionCode r) :=
  (h.load 0).concat_safe rfl rfl

theorem guards_returnCode (h : Prepares env e r) : GuardsCalls env e.calls (returnCode r) := by
  unfold returnCode
  split
  · exact (h.load 0).concat_safe rfl rfl
  · exact h.guards.concat_safe rfl rfl

end

mutual

/-- The code of a statement is guarded. -/
theorem LoweredStmt.guards (h : LoweredStmt env loops scope stmt s code s') :
    GuardsCalls env stmt.calls code := by
  match h with
  | .assign hv ht => exact guards_assign _ hv.prepares ht.prepares
  | .call he => exact he.prepares.guards
  | .retNothing => exact GuardsCalls.nil.concat_safe rfl rfl
  | .retValue hr => exact guards_returnCode hr.prepares
  | .ifThen hr _ hbody =>
    exact (((guards_conditionCode hr.prepares).concat_safe rfl rfl).append
      hbody.guards).concat_safe rfl rfl
  | .ifElse hr _ hthen _ helse =>
    exact (((((guards_conditionCode hr.prepares).concat_safe rfl rfl).append
      hthen.guards).append_safe rfl rfl).append helse.guards).concat_safe rfl rfl
  | .loop hr _ hbody =>
    have hlabel : GuardsCalls env [] [.label s.labels.conditionLabel] :=
      GuardsCalls.nil.concat_safe rfl rfl
    have htest := hlabel.append (guards_conditionCode hr.prepares)
    exact ((htest.concat_safe rfl rfl).append hbody.guards).append_safe rfl rfl
  | .breakLoop _ | .continueLoop _ => exact GuardsCalls.nil.concat_safe rfl rfl
  | .block _ hstmts => exact hstmts.guards
  | .declare => exact .nil
  | .declareValue hr => exact guards_declare _ _ hr.prepares

theorem LoweredStmts.guards (h : LoweredStmts env loops scope stmts s code s') :
    GuardsCalls env (Stmt.callsOfList stmts) code := by
  match h with
  | .nil => exact .nil
  | .cons hs hss => exact hs.guards.append hss.guards

end

theorem LoweredMethod.guards {c : Context} {strategy : Strategy} {e : ClassDecl × MethodDecl}
    {s s' : Supply} {r : Routine} (h : LoweredMethod c strategy e s r s') :
    ∃ type, c.types.class? e.1.name.name = some type ∧
      GuardsCalls ⟨c, strategy, type⟩ (Stmt.callsOfList e.2.body) r.body := by
  obtain ⟨type, scope, code, htype, _, hcode, hbody⟩ := h.body
  refine ⟨type, htype, ?_⟩
  rw [hbody]
  refine hcode.guards.append_safe ?_ ?_ <;> split <;> rfl

end Lowering

open Lowering

/-- Every dangerous instruction of a method is guarded, but for library routines that the method
    calls itself: these come one by one to the calls of the source. -/
theorem dangerous_instructions_are_guarded {p : Program} (hp : p.DistinctNodes)
    {options : Options} {r : Compilation} (h : compile options p = .ok r) :
    ∃ c a, analyzed options p = .ok c ∧ c.generate options.strategy p = .ok a ∧
      r.lir = a.render ∧
      List.Forall₂ (fun e routine => routine.label = routineLabel c e ∧
        ∃ type calls, c.types.class? e.1.name.name = some type ∧
          List.Forall₂ (LowerEnv.Makes ⟨c, options.strategy, type⟩) (Stmt.callsOfList e.2.body)
            calls ∧
          Code.Guarded [] routine.body calls ∧
          ∀ before line after, routine.body = before ++ line :: after →
            (∀ need ∈ line.needs, Code.Provides before need) ∨
              line.isLibrary = true ∧ line ∈ calls)
        (arranged c p) a.routines := by
  obtain ⟨c, a, hc, ha, hlir⟩ := exists_generate_of_compile h
  refine ⟨c, a, hc, ha, hlir, ?_⟩
  refine ((accepts_of_analyzed hp hc).assembled hp ha).forall₂_routines.imp ?_
  rintro e routine ⟨s, s', hmethod⟩
  obtain ⟨type, htype, calls, hmakes, hguarded⟩ := hmethod.guards
  exact ⟨hmethod.label, type, calls, htype, hmakes, hguarded,
    fun before line after hbody => hguarded.provides hbody⟩

namespace Mean

open Shapes

/-- `static void main(string[] args) { int[] a = new int[3]; a[1] = a[0] / a.length; }` -/
def main : MethodDecl := mainOf 0 [
  .declare (node 0) ⟨.int, 1, line 1⟩ (name "a")
    (some (.newArray (node 0) (type .int) (.literal (node 1) (.int 3)))),
  .assign (node 1) (.index (node 2) (.var (node 3) (name "a")) (.literal (node 4) (.int 1)))
    (.binary (node 5) (.arith .div)
      (.index (node 6) (.var (node 7) (name "a")) (.literal (node 8) (.int 0)))
      (.length (node 9) (.var (node 10) (name "a"))))]

def program : Program := ⟨[⟨name "Main", none, [], [main]⟩]⟩

theorem distinctNodes : program.DistinctNodes := ⟨by decide, by decide, by decide⟩

end Mean

/-- The allocation, both accesses, the length and the division rely on seven guards in all, and
    all of them stand where they have to. -/
theorem dangerous_instructions_are_guarded_mean :
    ∃ r c a, compile {} Mean.program = .ok r ∧ analyzed {} Mean.program = .ok c ∧
      c.generate .baseline Mean.program = .ok a ∧ (a.main.body.flatMap Line.needs).length = 7 ∧
      ∀ before line after, a.main.body = before ++ line :: after →
        ∀ need ∈ line.needs, Code.Provides before need := by
  have hneeds : (assembled? {} Mean.program).any (fun x =>
      decide ((x.2.main.body.flatMap Line.needs).length = 7)) = true := by
    decide +kernel
  obtain ⟨r, c, a, hr, hc, ha, _, hneeds⟩ := exists_compile_of_any hneeds
  obtain ⟨c', a', hc', ha', _, hall⟩ := dangerous_instructions_are_guarded Mean.distinctNodes hr
  obtain ⟨rfl, rfl⟩ := assembled_unique hc ha hc' ha'
  refine ⟨r, c, a, hr, hc, ha, of_decide_eq_true hneeds, fun before line after hbody => ?_⟩
  obtain ⟨e, he, _, _, calls, _, hmakes, _, hguarded⟩ :=
    exists_left_of_mem hall (List.mem_append_right _ (List.mem_singleton_self a.main))
  obtain ⟨hk, hm, _⟩ := mem_emitted.mp (mem_emitted_of_mem_arranged he)
  rw [List.mem_singleton.mp hk] at hm
  have hnone : Stmt.callsOfList e.2.body = [] := by
    rw [List.mem_singleton.mp hm]
    rfl
  rw [hnone] at hmakes
  cases hmakes with
  | nil =>
    rcases hguarded before line after hbody with h | ⟨_, h⟩
    · exact h
    · cases h

namespace Allocating

open Shapes

/-- `class Library { library int[] allocateArray(int n); }` -/
def library : ClassDecl where
  name := name "Library"
  superclass := none
  fields := []
  methods := [
    { id := 0, kind := .library, returnType := ⟨.int, 1, line 1⟩, name := name "allocateArray"
      params := [⟨type .int, name "n"⟩], body := [] }]

/-- `static void main(string[] args) { int[] a = Library.allocateArray(-1); }` -/
def main : MethodDecl := mainOf 1 [
  .declare (node 0) ⟨.int, 1, line 1⟩ (name "a")
    (some (.staticCall (node 0) (name "Library") (name "allocateArray")
      [.literal (node 1) (.int (-1))]))]

def program : Program := ⟨[library, ⟨name "Main", none, [], [main]⟩]⟩

end Allocating

/-- A routine `allocateArray` that the program declares is called without a guard. -/
theorem declared_allocation_is_not_guarded :
    ∃ r c a before after, compile {} Allocating.program = .ok r ∧
      analyzed {} Allocating.program = .ok c ∧
      c.generate .baseline Allocating.program = .ok a ∧ r.lir = a.render ∧
      a.main.body = before ++ libraryCall "__allocateArray" [.r 0] 0 :: after ∧
      Need.checked .size [0] ∈ (libraryCall "__allocateArray" [.r 0] 0).needs ∧
      ¬ Code.Provides before (.checked .size [0]) := by
  have hbody : (assembled? {} Allocating.program).any (fun x => decide (x.2.main.body =
      [.instr (.move (.int (-1)) (.r 0)), libraryCall "__allocateArray" [.r 0] 0,
        .instr (.move (.r 0) (.slot "a2")), Code.returnNothing])) = true := by
    decide +kernel
  obtain ⟨r, c, a, hr, hc, ha, hlir, hbody⟩ := exists_compile_of_any hbody
  refine ⟨r, c, a, [.instr (.move (.int (-1)) (.r 0))], _, hr, hc, ha, hlir,
    of_decide_eq_true hbody, List.mem_singleton_self _, fun h => ?_⟩
  cases h with
  | guard hbefore _ =>
    have hguard : Guard.size.call [0] ∈ [Line.instr (.move (.int (-1)) (.r 0))] := by
      rw [hbefore]
      exact List.mem_append_right _ List.mem_cons_self
    exact absurd hguard (by decide)

end IcLir
