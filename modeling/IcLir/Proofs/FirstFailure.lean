import IcLir.Proofs.ExpressionRefinement

/-
  The guard that stops the code of an expression, under both strategies. The code of the baseline
  strategy stops at the guard that fails first from left to right, that of the pressure-aware
  strategy at the one that fails first if the heavier operand is evaluated first. One of them
  stops exactly if the other does, but not always at a guard of the same kind: where the operands
  of a node are exchanged and both fail, the kind that is reported is that of the right operand.
-/

namespace IcLir

open Code Definition Lowering TypeTable Typing

/-! ## Where a run ends -/

/-- Nothing follows the configuration. -/
def Config.IsFinal (P : Platform) (code : Code) : Config → Prop
  | .running rest m => code.step P rest m = none
  | .returned .. | .stopped .. => True

/-- A run ends in one way. -/
theorem Code.Reaches.eq_of_isFinal {P : Platform} {code : Code} {k a b : Config}
    (h : code.Reaches P k a) (h' : code.Reaches P k b) (ha : a.IsFinal P code)
    (hb : b.IsFinal P code) : a = b := by
  induction h with
  | refl =>
    cases h' with
    | refl => rfl
    | step hstep _ =>
      rw [show code.step P _ _ = none from ha] at hstep
      cases hstep
  | step hstep _ ih =>
    cases h' with
    | refl =>
      rw [show code.step P _ _ = none from hb] at hstep
      cases hstep
    | step hstep' hrest =>
      obtain rfl := Option.some.inj (hstep.symm.trans hstep')
      exact ih hrest ha

/-- Run from its start, the code stops at the guard. -/
def Code.Stops (P : Platform) (code : Code) (m : Machine) (g : Guard) : Prop :=
  ∃ m', code.Reaches P (.running code m) (.stopped g m')

/-! ## Labels -/

/-- The platform with other words for the labels. -/
def Platform.withLabels (P : Platform) (label : String → Word) : Platform :=
  { P with label := label }

/-- Labels belong to code and not to expressions. -/
theorem Expr.evalIn_withLabels {order : Expr → Expr → Bool} {c : Context} {σ : State}
    (P : Platform) (label : String → Word) (e : Expr) :
    e.evalIn order c (P.withLabels label) σ = e.evalIn order c P σ := by
  fun_induction evalIn order c P σ e with
  | case1 n object name ih => rw [evalIn, ih]
  | case2 n array i ih ih' => rw [evalIn, ih, ih']
  | case3 n array ih => rw [evalIn, ih]
  | case4 n op left right ih ih' => rw [evalIn, ih, ih']
  | case5 n op left right ih ih' => rw [evalIn, ih, ih']
  | case6 n op left right ih ih' =>
    rw [evalIn, ih, ih']
    rfl
  | case7 n op operand ih =>
    rw [evalIn, ih]
    rfl
  | case8 n inner ih => rw [evalIn, ih]
  | _ => rfl

/-- The right operand goes first if it is the heavier. -/
def Expr.heavierFirst (left right : Expr) : Bool := left.weight.prefersRight right.weight

/-! ## Expressions of accepted programs -/

theorem Typing.HasType.neverStuck {σ : State} {c : Context} {p : Program} {env : MethodEnv}
    (hin : ChecksIn env p c.definition) (P : Platform) {e : Expr} {type : TypeId}
    (h : HasType c.typing env e type) (hplain : e.IsPlain)
    (hfits : σ.Fits c env.type env.isStatic e) : e.NeverStuck c P σ := by
  intro x hx hstuck
  obtain ⟨type', hx'⟩ := h.exists_of_mem_nodes hx
  have hsub := Expr.nodes_subset_of_mem hx
  have hsafe := hx'.safe hin P (hplain.mono hsub) (hfits.mono hsub)
  rw [hstuck] at hsafe
  exact hsafe

section

variable {options : Options} {p : Program} {c : Context} {i : Nat} {k : ClassDecl}
  {method : MethodDecl} {e : Expr}

/-- The code of a plain expression stops at the guard that fails first in the order of the
    strategy. -/
theorem stops_iff_evalIn (hp : p.DistinctNodes) (hc : analyzed options p = .ok c)
    (hi : p.classes[i]? = some k) (hm : method ∈ k.methods) (hkind : method.kind ≠ .library)
    (he : e ∈ Stmt.exprsOfList method.body) (hplain : e.IsPlain) (strategy : Strategy) (d : Nat)
    (s : Supply) :
    ∃ code o s', lowerExpr ⟨c, strategy, classId i⟩ e d s = .ok (code, o) s' ∧
      ∀ (P : Platform) (σ : State) (m : Machine), P.Links s'.strings →
        σ.Fits c (classId i) method.isStatic e → m.Represents c method.isStatic e σ →
        e.NeverStuck c P σ ∧
        ∀ g, (code ++ load o d).Stops P m g ↔
          e.evalIn strategy.rightFirst c P σ = .error (.guard g) := by
  have h := accepts_of_analyzed hp hc
  obtain ⟨owner, returnType, type, hin, htype, code, o, s', hlower⟩ :=
    exists_hasType_lowerExpr h hi hm hkind he strategy d s
  refine ⟨code, o, s', hlower, fun P σ m hlinks hfits hrep => ?_⟩
  -- a site of the baseline strategy holds its code to the order, whichever that is
  let S : Site := ⟨P, code ++ load o d, .baseline, fun _ => True, m.slots, m.memory⟩
  have hlowered := lowered_of_ok hlower
  have hstands : S.Stands ⟨c, strategy, classId i⟩ σ e :=
    Site.stands_of_fits h hin htype hplain hfits ⟨rfl, rfl⟩ hrep (fun _ => trivial) strategy
  have hnodup : (labels (code ++ load o d)).Nodup := by
    simpa using hlowered.issues.nodup
  have hobeys : Obeys S ⟨c, strategy, classId i⟩ strategy.rightFirst := fun _ _ => .inl rfl
  have hrun := (hlowered.delivers_evalIn hobeys hplain hstands fun _ _ _ => hlinks).load [] m
    (placed_self hnodup) ⟨rfl, rfl⟩
  have hstuck := htype.neverStuck hin P hplain hfits
  have hne : e.evalIn strategy.rightFirst c P σ ≠ .error .stuck := Expr.evalIn_ne_stuck hstuck
  change (∃ m', _ ∧ m.Keeps d m' ∧ EndsIn (e.evalIn strategy.rightFirst c P σ) _) ∨
    ∃ g m', _ ∧ True ∧ StopsAt .baseline (e.evalIn strategy.rightFirst c P σ) g ∧ S.Holds m'
    at hrun
  rw [List.append_nil] at hrun
  refine ⟨hstuck, fun g => ?_⟩
  cases hx : e.evalIn strategy.rightFirst c P σ with
  | ok v =>
    rw [hx] at hrun
    rcases hrun with ⟨m', hends, _⟩ | ⟨_, _, _, _, hstop, _⟩
    · refine ⟨fun hstops => ?_, fun heq => by cases heq⟩
      obtain ⟨_, hreach⟩ := hstops
      cases hends.eq_of_isFinal hreach rfl trivial
    · exact hstop.elim
  | error fault =>
    rw [hx] at hrun
    cases fault with
    | stuck => exact absurd hx hne
    | guard g' =>
      rcases hrun with ⟨_, _, _, hends⟩ | ⟨g₁, m', hreach, _, hstop, _⟩
      · exact hends.elim
      · obtain rfl : g₁ = g' := hstop rfl
        constructor
        · intro hstops
          obtain ⟨_, hreach'⟩ := hstops
          cases hreach.eq_of_isFinal hreach' trivial trivial
          rfl
        · intro heq
          obtain rfl := Fault.guard.inj (Except.error.inj heq)
          exact ⟨m', hreach⟩

/-- An expression of a method body, under both strategies, with any base registers and labels. The
    code of the baseline strategy stops at the guard that fails first from left to right, that of
    the pressure-aware strategy at the one that fails first if heavier operands go first. If one
    stops, so does the other, and at a guard of the same kind unless, somewhere in the
    expression, a right operand that goes first and its left operand fail guards of different
    kinds. -/
theorem strategies_stop_alike_unless_operands_fail_apart (hp : p.DistinctNodes)
    (hc : analyzed options p = .ok c) (hi : p.classes[i]? = some k) (hm : method ∈ k.methods)
    (hkind : method.kind ≠ .library) (he : e ∈ Stmt.exprsOfList method.body)
    (hplain : e.IsPlain) (d d' : Nat) (s s' : Supply) :
    ∃ code o t code' o' t',
      lowerExpr ⟨c, .baseline, classId i⟩ e d s = .ok (code, o) t ∧
      lowerExpr ⟨c, .pressureAware, classId i⟩ e d' s' = .ok (code', o') t' ∧
      ∀ (P : Platform) (label : String → Word) (σ : State) (m m' : Machine),
        P.Links t.strings → (P.withLabels label).Links t'.strings →
        σ.Fits c (classId i) method.isStatic e → m.Represents c method.isStatic e σ →
        m'.Represents c method.isStatic e σ →
        (∀ g, (code ++ load o d).Stops P m g ↔ e.eval c P σ = .error (.guard g)) ∧
        (∀ g, (code' ++ load o' d').Stops (P.withLabels label) m' g ↔
          e.evalIn Expr.heavierFirst c P σ = .error (.guard g)) ∧
        ((∃ g, (code ++ load o d).Stops P m g) ↔
          ∃ g, (code' ++ load o' d').Stops (P.withLabels label) m' g) ∧
        (e.NeverApart Expr.heavierFirst c P σ → ∀ g, (code ++ load o d).Stops P m g ↔
          (code' ++ load o' d').Stops (P.withLabels label) m' g) := by
  obtain ⟨code, o, t, hlower, hstops⟩ :=
    stops_iff_evalIn hp hc hi hm hkind he hplain .baseline d s
  obtain ⟨code', o', t', hlower', hstops'⟩ :=
    stops_iff_evalIn hp hc hi hm hkind he hplain .pressureAware d' s'
  refine ⟨code, o, t, code', o', t', hlower, hlower', ?_⟩
  intro P label σ m m' hlinks hlinks' hfits hrep hrep'
  obtain ⟨hnever, hleft⟩ := hstops P σ m hlinks hfits hrep
  obtain ⟨_, hheavier⟩ := hstops' (P.withLabels label) σ m' hlinks' hfits hrep'
  have hbaseline : e.evalIn (Strategy.rightFirst .baseline) c P σ = e.eval c P σ :=
    Expr.evalIn_false e
  have hpressure : e.evalIn (Strategy.rightFirst .pressureAware) c (P.withLabels label) σ =
      e.evalIn Expr.heavierFirst c P σ := Expr.evalIn_withLabels P label e
  rw [hbaseline] at hleft
  rw [hpressure] at hheavier
  refine ⟨hleft, hheavier, ?_, fun hapart g => ?_⟩
  · simp only [hleft, hheavier]
    exact (Expr.exists_guard_evalIn_iff hnever).symm
  · rw [hleft g, hheavier g, Expr.evalIn_eq_eval hnever hapart]

end

/-! ## A program that fails -/

def Outcome.fault? {α : Type} : Outcome α → Option Fault
  | .ok _ => none
  | .error fault => some fault

theorem Outcome.eq_error_of_fault? {α : Type} {x : Outcome α} {fault : Fault}
    (h : x.fault? = some fault) : x = .error fault := by
  cases x with
  | ok a => cases h
  | error fault' => exact congrArg Except.error (Option.some.inj h)

namespace Failing

open Shapes (node name type line mainOf)

/-- `a[1 / 0]` -/
def access : Expr := .index (node 1) (.var (node 2) (name "a"))
  (.binary (node 3) (.arith .div) (.literal (node 4) (.int 1)) (.literal (node 5) (.int 0)))

/-- `1 % (2 / 0)` -/
def remainder : Expr := .binary (node 6) (.arith .mod) (.literal (node 7) (.int 1))
  (.paren (node 8) (.binary (node 9) (.arith .div) (.literal (node 10) (.int 2))
    (.literal (node 11) (.int 0))))

/-- `static void main(string[] args) { int[] a = null; int x = a[1 / 0]; int y = 1 % (2 / 0); }` -/
def main : MethodDecl := mainOf 0 [
  .declare (node 0) ⟨.int, 1, line 1⟩ (name "a") (some (.literal (node 0) .null)),
  .declare (node 1) (type .int) (name "x") (some access),
  .declare (node 2) (type .int) (name "y") (some remainder)]

def owner : ClassDecl := ⟨name "Main", none, [], [main]⟩

def program : Program := ⟨[owner]⟩

theorem distinctNodes : program.DistinctNodes := ⟨by decide, by decide, by decide⟩

/-- What the analysis of the program leaves. -/
@[irreducible] def context : Context := contextOf {} program

/-- The program is accepted, and `a` may be null wherever it is declared. -/
theorem context_facts :
    (analyzed {} program).toOption.isSome = true ∧
    ∀ scope ∈ context.scopes.scopes, (scope.get? "a").all fun s =>
      context.types.isSubtype TypeId.null s.type := by
  decide +kernel

theorem analyzed_program : analyzed {} program = .ok context := by
  unfold context
  exact analyzed_eq_contextOf context_facts.1

/-- All variables are null. -/
def state : State := ⟨fun _ _ => .null, .null, fun _ => none⟩

def machine : Machine := ⟨fun _ => .int 0, fun _ => Word.null, ⟨fun _ _ => .int 0, fun _ => .int 0,
  fun _ _ => .int 0⟩, .eq⟩

theorem fits {e : Expr} (h : ∀ scope name, e.Reads context scope name → name = "a") :
    state.Fits context (classId 0) true e where
  isClass h := by cases h
  field h := by cases h
  array h := by cases h
  receiver h := by cases h
  var {scope name s} hr hs := by
    obtain rfl := h scope name hr
    cases hscope : context.scopes.scopes[scope]? with
    | none =>
      rw [ScopeTree.scope, ScopeTree.scope?, hscope] at hs
      cases hs
    | some declaring =>
      rw [ScopeTree.scope, ScopeTree.scope?, hscope] at hs
      have htype := context_facts.2 declaring (List.mem_of_getElem? hscope)
      rw [show declaring.get? "a" = some s from hs] at htype
      exact htype

theorem represents (e : Expr) : machine.Represents context true e state where
  heap := ⟨fun h => (by cases h), fun h => (by cases h), fun h => (by cases h)⟩
  receiver h := by cases h
  var _ := rfl

/-- The string literals that the lowering of an expression meets. -/
def texts (strategy : Strategy) (e : Expr) : List String :=
  match lowerExpr ⟨context, strategy, classId 0⟩ e 0 .initial with
  | .ok _ s => s.strings.texts
  | .error _ _ => []

/-- Where there are none, any labels will do. -/
theorem links {strategy : Strategy} {e : Expr} (h : texts strategy e = []) {r : Code × Operand}
    {s : Supply} (hr : lowerExpr ⟨context, strategy, classId 0⟩ e 0 .initial = .ok r s)
    (P : Platform) : P.Links s.strings := by
  intro i text hi
  rw [texts, hr] at h
  rw [show s.strings.texts = [] from h] at hi
  cases hi

theorem reads_access {scope : ScopeId} {x : String} (h : access.Reads context scope x) :
    x = "a" := by
  obtain ⟨node, ident, hmem, rfl, _⟩ := h
  simp only [access, Expr.nodes, List.cons_append, List.nil_append, List.mem_cons, reduceCtorEq,
    Expr.var.injEq, List.not_mem_nil, or_false, false_or] at hmem
  rw [hmem.2]
  rfl

theorem not_reads_remainder {scope : ScopeId} {x : String} :
    ¬ remainder.Reads context scope x := by
  rintro ⟨node, ident, hmem, _⟩
  simp [remainder, Expr.nodes] at hmem

end Failing

/-- `1 % (2 / 0)` has its operands exchanged and stops at the same guard under both strategies. -/
theorem strategies_stop_alike_unless_operands_fail_apart_remainder :
    Expr.heavierFirst (.literal (Shapes.node 7) (.int 1)) (.paren (Shapes.node 8)
      (.binary (Shapes.node 9) (.arith .div) (.literal (Shapes.node 10) (.int 2))
        (.literal (Shapes.node 11) (.int 0)))) = true ∧
    ∃ code o t code' o' t',
      lowerExpr ⟨Failing.context, .baseline, classId 0⟩ Failing.remainder 0 .initial =
        .ok (code, o) t ∧
      lowerExpr ⟨Failing.context, .pressureAware, classId 0⟩ Failing.remainder 0 .initial =
        .ok (code', o') t' ∧
      (code ++ load o 0).Stops .exact Failing.machine .zero ∧
      (code' ++ load o' 0).Stops .exact Failing.machine .zero := by
  obtain ⟨code, o, t, code', o', t', hlower, hlower', hstops⟩ :=
    strategies_stop_alike_unless_operands_fail_apart Failing.distinctNodes
      Failing.analyzed_program (i := 0) rfl (List.mem_singleton_self Failing.main) (by decide)
      (e := Failing.remainder) (List.mem_of_getElem? (i := 6) rfl) (by decide) 0 0 .initial
      .initial
  have hfits : Failing.state.Fits Failing.context (classId 0) true Failing.remainder :=
    Failing.fits fun _ _ h => absurd h Failing.not_reads_remainder
  obtain ⟨hleft, hheavier, _, _⟩ := hstops .exact Platform.exact.label Failing.state
    Failing.machine Failing.machine (Failing.links (by decide +kernel) hlower _)
    (Failing.links (by decide +kernel) hlower' _) hfits (Failing.represents _)
    (Failing.represents _)
  have hfault : Failing.remainder.eval Failing.context .exact Failing.state =
      .error (.guard .zero) := Outcome.eq_error_of_fault? (by decide +kernel)
  have hfault' : Failing.remainder.evalIn Expr.heavierFirst Failing.context .exact
      Failing.state = .error (.guard .zero) := Outcome.eq_error_of_fault? (by decide +kernel)
  exact ⟨by decide, code, o, t, code', o', t', hlower, hlower', (hleft .zero).mpr hfault,
    (hheavier .zero).mpr hfault'⟩

/-- With `a` null, `a[1 / 0]` is stopped as a null reference from left to right, and as a division
    by zero if the heavier index goes first. -/
theorem strategies_stop_at_different_guards :
    analyzed {} Failing.program = .ok Failing.context ∧
      Failing.access ∈ Stmt.exprsOfList Failing.main.body ∧
      Failing.state.Fits Failing.context (classId 0) Failing.main.isStatic Failing.access ∧
      Failing.machine.Represents Failing.context Failing.main.isStatic Failing.access
        Failing.state ∧
      ∃ code o t code' o' t',
        lowerExpr ⟨Failing.context, .baseline, classId 0⟩ Failing.access 0 .initial =
          .ok (code, o) t ∧
        lowerExpr ⟨Failing.context, .pressureAware, classId 0⟩ Failing.access 0 .initial =
          .ok (code', o') t' ∧
        (code ++ load o 0).Stops .exact Failing.machine .nullRef ∧
        (code' ++ load o' 0).Stops .exact Failing.machine .zero ∧
        ¬ (code' ++ load o' 0).Stops .exact Failing.machine .nullRef := by
  have hmember : Failing.main ∈ Failing.owner.methods := List.mem_singleton_self _
  have haccess : Failing.access ∈ Stmt.exprsOfList Failing.main.body :=
    List.mem_of_getElem? (i := 1) rfl
  have hfits : Failing.state.Fits Failing.context (classId 0) true Failing.access :=
    Failing.fits fun _ _ h => Failing.reads_access h
  have hlowered := stops_iff_evalIn Failing.distinctNodes Failing.analyzed_program (i := 0) rfl
    hmember (by decide) haccess (by decide)
  obtain ⟨code, o, t, hlower, hstops⟩ := hlowered .baseline 0 .initial
  obtain ⟨code', o', t', hlower', hstops'⟩ := hlowered .pressureAware 0 .initial
  obtain ⟨_, hleft⟩ := hstops .exact Failing.state Failing.machine
    (Failing.links (by decide +kernel) hlower _) hfits (Failing.represents _)
  obtain ⟨_, hheavier⟩ := hstops' .exact Failing.state Failing.machine
    (Failing.links (by decide +kernel) hlower' _) hfits (Failing.represents _)
  have hfault : Failing.access.evalIn (Strategy.rightFirst .baseline) Failing.context .exact
      Failing.state = .error (.guard .nullRef) := Outcome.eq_error_of_fault? (by decide +kernel)
  have hfault' : Failing.access.evalIn (Strategy.rightFirst .pressureAware) Failing.context
      .exact Failing.state = .error (.guard .zero) :=
    Outcome.eq_error_of_fault? (by decide +kernel)
  refine ⟨Failing.analyzed_program, haccess, hfits, Failing.represents _, code, o, t, code', o',
    t', hlower, hlower', (hleft .nullRef).mpr hfault, (hheavier .zero).mpr hfault', ?_⟩
  intro hstop
  have hother := (hheavier .nullRef).mp hstop
  rw [hfault'] at hother
  cases hother

end IcLir
