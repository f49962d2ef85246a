import IcLir.Proofs.CompileOutcome
import IcLir.Proofs.StatementRuns

/-
  Lowering of methods, for accepted programs. The routine of a method whose body is over
  variables only runs as the method is executed: where the execution ends, the run ends the same
  way, with the same word returned and the same slots.
-/

namespace IcLir

open Code Lowering Pass TypeTable

variable {c : Context} {strategy : Strategy} {i : Nat} {k : ClassDecl} {m : MethodDecl}
    {r : Routine} {P : Platform} {cells cells' : Cells}

/-- A routine is the code of the body, with a return behind it if one is needed. -/
theorem Lowering.IsRoutineOf.exists_body (h : IsRoutineOf c strategy i k m r) :
    ∃ scope body s s', c.scopes.methodScopes.get? m.id = some scope ∧
      LoweredStmts ⟨c, strategy, classId i⟩ [] scope m.body s body s' ∧
      r.body = body ++ if needsReturn m then [Code.returnNothing] else [] := by
  obtain ⟨s, s', h⟩ := h
  have hmeets : Meets CompileError.Any (lowerMethod ⟨c, strategy, classId i⟩ k m) s fun r _ =>
      ∃ scope body s s', c.scopes.methodScopes.get? m.id = some scope ∧
        LoweredStmts ⟨c, strategy, classId i⟩ [] scope m.body s body s' ∧
        r.body = body ++ if needsReturn m then [Code.returnNothing] else [] := by
    unfold lowerMethod LowerEnv.methodScope
    rw [meets_bind]
    refine meets_promised_any fun scope hscope => ?_
    rw [meets_bind]
    refine meets_any fun body s' hbody => ?_
    exact ⟨scope, body, s, s', hscope, loweredStmts_of_ok hbody, rfl⟩
  exact hmeets.of_ok h

/-- A void method that runs off its end has a return there. -/
theorem needsReturn_of_normal {scope : ScopeId} (hvoid : m.returnType.isVoid = true)
    (h : ExecList c P scope m.body cells .normal cells') : needsReturn m = true := by
  unfold needsReturn MethodDecl.endsWithReturn
  rw [hvoid]
  cases hlast : m.body.getLast? with
  | none => rfl
  | some s =>
    cases s with
    | ret node value => exact absurd rfl (h.ne_normal_of_getLast? hlast)
    | assign | call | ifThen | ifElse | loop | breakLoop | continueLoop | block | declare => rfl

theorem Lowering.IsRoutineOf.reaches {method : MethodDecl} (h : IsRoutineOf c strategy i k method r)
    (hs : method.IsScalar c) {e : Ending} (hexec : MethodExec c P method cells e cells')
    {m : Machine} (hm : m.Carries cells) :
    ∃ m', Reaches P r.body (.running r.body m) (e.config m') ∧ m'.Carries cells' := by
  obtain ⟨scope, body, s, s', hscope, hlowered, hbody⟩ := h.exists_body
  have hlabels : labels r.body = labels body := by
    rw [hbody]
    cases needsReturn method <;> simp
  have hplaced := placed_self (hlabels ▸ hlowered.issues.nodup : (labels r.body).Nodup)
  have hloops : LoopsPlaced r.body [] := fun _ hnames => by cases hnames
  have hrun : ∀ {scope' c'}, c.scopes.methodScopes.get? method.id = some scope' →
      ExecList c P scope' method.body cells c' cells' →
      Follows P r.body [] body ((if needsReturn method then [Code.returnNothing] else []) ++ [])
        cells c' cells' := by
    intro scope' c' hscope' hlist
    obtain rfl := Option.some.inj (hscope.symm.trans hscope')
    refine hlist.follows hlowered hs hloops (Placed.left ?_)
    rw [← hbody]
    exact hplaced
  cases hexec with
  | ended hscope' hlist =>
    obtain ⟨k, hreach, harrives⟩ := hrun hscope' hlist m hm
    rw [← List.append_assoc, ← hbody, List.append_nil] at hreach
    cases harrives with
    | ended hm' => exact ⟨_, hreach, hm'⟩
  | offEnd hscope' hvoid hlist =>
    obtain ⟨k, hreach, harrives⟩ := hrun hscope' hlist m hm
    rw [← List.append_assoc, ← hbody, List.append_nil] at hreach
    cases harrives with
    | @normal m' hm' =>
      rw [needsReturn_of_normal hvoid hlist] at hreach
      exact ⟨m', hreach.trans (.step rfl .refl), hm'⟩

/-- Every method of an accepted program that has a body over variables only, and either
    strategy: the program is lowered, and the routine of the method runs from its first
    instruction as the method is executed from the same slots. -/
theorem lowered_method_runs_as_executed {options : Options} {p : Program} {c : Context}
    (hp : p.DistinctNodes) (hc : analyzed options p = .ok c) {i : Nat} {k : ClassDecl}
    (hi : p.classes[i]? = some k) {method : MethodDecl} (hm : method ∈ k.methods)
    (hkind : method.kind ≠ .library) (hscalar : method.IsScalar c) (strategy : Strategy) :
    ∃ assembly, c.generate strategy p = .ok assembly ∧ ∃ r ∈ assembly.routines,
      IsRoutineOf c strategy i k method r ∧
      ∀ (P : Platform) (cells cells' : Cells) (e : Ending) (m : Machine),
        MethodExec c P method cells e cells' → m.Carries cells →
        ∃ m', Reaches P r.body (.running r.body m) (e.config m') ∧ m'.Carries cells' := by
  have h := accepts_of_analyzed hp hc
  obtain ⟨assembly, hgenerate, hcovers⟩ := h.exists_generate hp strategy
  obtain ⟨r, hr, hplace⟩ := hcovers i k method hi hm hkind
  have hmem : r ∈ assembly.routines := by
    unfold Assembly.routines
    split at hplace
    · rw [← hplace]
      exact List.mem_append_right _ List.mem_cons_self
    · exact List.mem_append_left _ hplace
  refine ⟨assembly, hgenerate, r, hmem, hr, ?_⟩
  intro P cells cells' e m hexec hm
  exact hr.reaches hscalar hexec hm

namespace Shapes

/-- Every variable is 2. -/
def allTwo : Cells := fun _ => .int 2

def twoMachine : Machine where
  registers _ := .int 0
  slots _ := .int 2
  memory := ⟨fun _ _ => .int 0, fun _ => .int 0, fun _ _ => .int 0⟩
  sign := .eq

theorem isScalar_halvings : halvings.IsScalar context := by
  have hall : ∀ e ∈ Stmt.exprsOfList halvings.body, e.isScalar context = true := by
    decide +kernel
  exact hall

/-- 2 is halved once: one turn of the loop, and a second one that breaks it. -/
theorem exec_halvings :
    ∃ cells', MethodExec context .exact halvings allTwo (.returned (some (.int 1))) cells' ∧
      cells' "n2" = .int 1 ∧ cells' "k2" = .int 1 := by
  have hscope : context.scopes.methodScopes.get? halvings.id = some 5 := by decide +kernel
  have hblock : context.scopes.blockScopes.get? 4 = some 6 := by decide +kernel
  have hvariable : ∀ n, n = 13 ∨ n = 17 → context.references.get? n = some (.variable 5) := by
    rintro n (rfl | rfl) <;> decide +kernel
  have hbranch : ∀ stmts, context.scopes.branchScope? 5 (.block (node 4) stmts) = some 5 :=
    fun _ => rfl
  refine ⟨_, .ended hscope (.cons (.declareValue (v := .int 0) ?zero) (.cons (.loop (hbranch _)
    (.next ?test (.block hblock (.cons (.ifThenSkip ?large) (.cons
      (.assign (v := .int 1) ?half (hvariable 13 (.inl rfl))) (.cons
      (.assign (v := .int 1) ?count (hvariable 17 (.inr rfl))) .nil)))) rfl
    (.broken ?again (.block hblock (.abrupt (.ifThen ?small rfl .breakLoop) (by decide))))))
    (.abrupt (.retValue (v := .int 1) ?result) (by decide)))), ?n, ?k⟩
  case n | k => decide +kernel
  all_goals exact Outcome.eq_ok_of_toOption (by decide +kernel)

end Shapes

theorem lowered_method_runs_as_executed_halvings :
    ∃ assembly, Shapes.context.generate .pressureAware Shapes.program = .ok assembly ∧
      ∃ r ∈ assembly.routines,
        IsRoutineOf Shapes.context .pressureAware 1 Shapes.square Shapes.halvings r ∧
        ∃ m', Reaches .exact r.body (.running r.body Shapes.twoMachine)
          (.returned (.int 1) m') ∧ m'.slots "n2" = .int 1 ∧ m'.slots "k2" = .int 1 := by
  have hi : Shapes.program.classes[1]? = some Shapes.square := rfl
  have hm : Shapes.halvings ∈ Shapes.square.methods := List.mem_cons_of_mem _ List.mem_cons_self
  obtain ⟨assembly, hgenerate, r, hmem, hr, hrun⟩ := lowered_method_runs_as_executed
    Shapes.distinctNodes Shapes.analyzed_program hi hm (by decide) Shapes.isScalar_halvings
    .pressureAware
  obtain ⟨cells', hexec, hn, hk⟩ := Shapes.exec_halvings
  obtain ⟨m', hreach, hm'⟩ := hrun .exact _ cells' _ Shapes.twoMachine hexec rfl
  have hslot : ∀ name, m'.slots name = (cells' name).word := congrFun hm'
  exact ⟨assembly, hgenerate, r, hmem, hr, m', hreach, (hslot "n2").trans (by rw [hn]; rfl),
    (hslot "k2").trans (by rw [hk]; rfl)⟩

end IcLir
