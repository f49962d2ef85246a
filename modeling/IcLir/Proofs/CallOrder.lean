import IcLir.Proofs.GuardedCode

/-
  The calls in the code of a method, under either strategy. The calls of the source are lowered
  one by one in the order in which they are made, since guarded code keeps to that order and no
  operand with a call in it is moved. The labels and literals that are taken from the supply
  depend on the nodes of the source only, not on their order (`Supply.Takes`).
-/

namespace IcLir

/-! ## What is taken from the supply -/

/-- Whether an expression takes labels, its parts apart. -/
def Expr.takesLabels : Expr → Bool
  | .binary _ (.logic _) _ _ | .binary _ (.compare _) _ _ => true
  | _ => false

/-- The text of a string literal. -/
def Expr.text? : Expr → Option String
  | .literal _ (.string text) => some text
  | _ => none

def Stmt.takesLabels : Stmt → Bool
  | .ifThen .. | .ifElse .. | .loop .. => true
  | _ => false

/-- From the supply `s` to `s'`, each of the nodes took what it needs, in any order. -/
structure Supply.Takes (s s' : Supply) (exprs : List Expr) (stmts : List Stmt) : Prop where
  labels : s'.nextLabel =
    s.nextLabel + exprs.countP Expr.takesLabels + stmts.countP Stmt.takesLabels
  texts : ∀ text, text ∈ s'.strings.texts ↔
    text ∈ s.strings.texts ∨ text ∈ exprs.filterMap Expr.text?
  nodup : s.strings.texts.Nodup → s'.strings.texts.Nodup

namespace Supply.Takes

variable {s s₁ s' : Supply} {a b : List Expr} {x y : List Stmt} {e : Expr} {stmt : Stmt}

theorem refl (s : Supply) : Takes s s [] [] := ⟨rfl, by simp, id⟩

theorem append (h : Takes s s₁ a x) (h' : Takes s₁ s' b y) : Takes s s' (a ++ b) (x ++ y) where
  labels := by
    rw [h'.labels, h.labels, List.countP_append, List.countP_append]
    omega
  texts text := by
    rw [h'.texts, h.texts, List.filterMap_append, List.mem_append, or_assoc]
  nodup hs := h'.nodup (h.nodup hs)

theorem perm (h : Takes s s' a x) (ha : a.Perm b) (hx : x.Perm y) : Takes s s' b y where
  labels := by rw [h.labels, ha.countP_eq, hx.countP_eq]
  texts text := by rw [h.texts, (ha.filterMap Expr.text?).mem_iff]
  nodup := h.nodup

/-- A node that takes nothing. -/
theorem cons (h : Takes s s' a x) (he : e.takesLabels = false) (htext : e.text? = none) :
    Takes s s' (e :: a) x where
  labels := by rw [h.labels, List.countP_cons_of_neg (by simp [he])]
  texts text := by rw [h.texts, List.filterMap_cons_none htext]
  nodup := h.nodup

/-- A node that takes labels before its parts do. -/
theorem label (h : Takes s.next s' a x) (he : e.takesLabels = true) (htext : e.text? = none) :
    Takes s s' (e :: a) x where
  labels := by
    rw [h.labels, List.countP_cons_of_pos he]
    change s.nextLabel + 1 + _ + _ = _
    omega
  texts text := by
    rw [h.texts, List.filterMap_cons_none htext]
    rfl
  nodup := h.nodup

theorem skip (h : Takes s s' a x) (hs : stmt.takesLabels = false) : Takes s s' a (stmt :: x) where
  labels := by rw [h.labels, List.countP_cons_of_neg (by simp [hs])]
  texts := h.texts
  nodup := h.nodup

theorem control (h : Takes s.next s' a x) (hs : stmt.takesLabels = true) :
    Takes s s' a (stmt :: x) where
  labels := by
    rw [h.labels, List.countP_cons_of_pos hs]
    change s.nextLabel + 1 + _ + _ = _
    omega
  texts := h.texts
  nodup := h.nodup

/-- However the nodes are ordered, they take as many labels and the same literals. -/
theorem agree {s₀ : Supply} (hs₀ : s₀.strings.texts.Nodup) (h : Takes s₀ s a x)
    (h' : Takes s₀ s' a x) :
    s.nextLabel = s'.nextLabel ∧ s.strings.texts.Perm s'.strings.texts := by
  refine ⟨h.labels.trans h'.labels.symm, ?_⟩
  rw [List.perm_ext_iff_of_nodup (h.nodup hs₀) (h'.nodup hs₀)]
  intro text
  rw [h.texts, h'.texts]

end Supply.Takes

namespace Lowering

open Pass

variable {env : LowerEnv}

theorem takes_literalOperand {value : Literal} {o : Operand} {s s' : Supply} (node : Node)
    (h : literalOperand value s = .ok o s') : s.Takes s' [.literal node value] [] := by
  have hlit : Meets CompileError.Any (literalOperand value) s fun _ s' =>
      s.Takes s' [.literal node value] [] := by
    unfold literalOperand
    split
    · exact (Supply.Takes.refl s).cons rfl rfl
    · next text =>
      rw [meets_bind]
      refine ⟨rfl, fun text' => ?_, s.strings.nodup_texts_intern text⟩
      change text' ∈ (s.strings.intern text).2.texts ↔ text' ∈ s.strings.texts ∨ text' ∈ [text]
      by_cases hm : text ∈ s.strings.texts
      · rw [StringPool.intern_of_mem _ hm, List.mem_singleton]
        exact ⟨.inl, fun h => h.elim id fun h => h ▸ hm⟩
      · rw [StringPool.texts_intern_of_not_mem _ hm, List.mem_append]
    all_goals exact (Supply.Takes.refl s).cons rfl rfl
  exact hlit.of_ok h

mutual

theorem Lowered.takes (h : Lowered env e d s r s') : s.Takes s' e.nodes [] := by
  match h with
  | .literal hv => exact takes_literalOperand _ hv
  | .var _ => exact (Supply.Takes.refl s).cons rfl rfl
  | .ownField _ _ => exact (Supply.Takes.refl s).cons rfl rfl
  | .field hobject _ _ => exact hobject.takes.cons rfl rfl
  | .index hpair => exact hpair.takes.cons rfl rfl
  | .staticCall _ _ hargs _ => exact hargs.takes.cons rfl rfl
  | .ownStatic _ _ hargs _ => exact hargs.takes.cons rfl rfl
  | .ownVirtual _ _ hargs _ => exact hargs.takes.cons rfl rfl
  | .methodCall _ _ hobject hargs _ => exact (hobject.takes.append hargs.takes).cons rfl rfl
  | .this => exact (Supply.Takes.refl s).cons rfl rfl
  | .newObject _ _ => exact (Supply.Takes.refl s).cons rfl rfl
  | .newArray hsize => exact hsize.takes.cons rfl rfl
  | .length harray => exact harray.takes.cons rfl rfl
  | .logic hl hr => exact (hl.takes.append hr.takes).label rfl rfl
  | .compare hpair => exact hpair.takes.label rfl rfl
  | .arith _ hpair => exact hpair.takes.cons rfl rfl
  | .unary hoperand => exact hoperand.takes.cons rfl rfl
  | .paren hinner => exact hinner.takes.cons rfl rfl

theorem LoweredPair.takes (h : LoweredPair env left right d s rightFirst l r s') :
    s.Takes s' (left.nodes ++ right.nodes) [] := by
  match h with
  | .leftFirst _ hl hr => exact hl.takes.append hr.takes
  | .rightFirst _ hr hl => exact (hr.takes.append hl.takes).perm List.perm_append_comm (.refl _)

theorem LoweredArgs.takes (h : LoweredArgs env es d s code s') :
    s.Takes s' (Expr.nodesOfList es) [] := by
  match h with
  | .nil => exact .refl s
  | .cons he hes => exact he.takes.append hes.takes

end

mutual

theorem LoweredStmt.takes (h : LoweredStmt env loops scope stmt s code s') :
    s.Takes s' stmt.exprs stmt.nodes := by
  match h with
  | .assign hv ht =>
    exact ((hv.takes.append ht.takes).perm List.perm_append_comm (.refl _)).skip rfl
  | .call he => exact he.takes.skip rfl
  | .retNothing => exact (Supply.Takes.refl s).skip rfl
  | .retValue hr => exact hr.takes.skip rfl
  | .ifThen hr _ hbody => exact (hr.takes.append hbody.takes).control rfl
  | .ifElse hr _ hthen _ helse =>
    exact ((hr.takes.append hthen.takes).append helse.takes).control rfl
  | .loop hr _ hbody => exact (hr.takes.append hbody.takes).control rfl
  | .breakLoop _ => exact (Supply.Takes.refl s).skip rfl
  | .continueLoop _ => exact (Supply.Takes.refl s).skip rfl
  | .block _ hstmts => exact hstmts.takes.skip rfl
  | .declare => exact (Supply.Takes.refl s).skip rfl
  | .declareValue hr => exact hr.takes.skip rfl

theorem LoweredStmts.takes (h : LoweredStmts env loops scope stmts s code s') :
    s.Takes s' (Stmt.exprsOfList stmts) (Stmt.nodesOfList stmts) := by
  match h with
  | .nil => exact .refl s
  | .cons hs hss => exact hs.takes.append hss.takes

end

/-! ## Methods and programs -/

theorem LoweredMethods.takes {c : Context} {strategy : Strategy}
    {es : List (ClassDecl × MethodDecl)} {s s' : Supply} {rs : List (Bool × Routine)}
    (h : LoweredMethods c strategy es s rs s') :
    s.Takes s' (es.flatMap fun e => Stmt.exprsOfList e.2.body)
      (es.flatMap fun e => Stmt.nodesOfList e.2.body) := by
  induction h with
  | nil => exact .refl _
  | cons hm _ ih =>
    obtain ⟨_, _, _, _, _, hcode, _⟩ := hm.body
    exact hcode.takes.append ih

end Lowering

open Lowering

/-! ## The analysis under both strategies -/

namespace Context

variable {p : Program} {c c' : Context} {o : Options}

def withOptions (c : Context) (o : Options) : Context := { c with options := o }

theorem define_withOptions (h : define p c = .ok () c')
    (ho : o.entryMethod = c.options.entryMethod) :
    define p (c.withOptions o) = .ok () (c'.withOptions o) := by
  obtain ⟨entry, d, hd, rfl⟩ := define_eq_ok_iff.mp h
  rw [← ho] at hd
  exact define_eq_ok_iff.mpr ⟨entry, d, hd, rfl⟩

theorem check_withOptions (h : check p c = .ok () c') :
    check p (c.withOptions o) = .ok () (c'.withOptions o) := by
  obtain ⟨t, ht, rfl⟩ := check_eq_ok_iff.mp h
  have hblind := (Typing.makes_checkProgram p).blind c.typing o
  rw [ht] at hblind
  exact check_eq_ok_iff.mpr ⟨t.withOptions o, hblind, rfl⟩

theorem layOut_withOptions (h : layOut c = .ok () c') :
    layOut (c.withOptions o) = .ok () (c'.withOptions o) := by
  obtain ⟨layouts, hbuild, rfl⟩ := layOut_eq_ok_iff.mp h
  exact layOut_eq_ok_iff.mpr ⟨layouts, hbuild, rfl⟩

end Context

/-- The analysis does not look at how the code is to be generated. -/
theorem analyzed_withOptions {o o' : Options} {p : Program} {c : Context}
    (h : analyzed o p = .ok c) (ho : o'.entryMethod = o.entryMethod) :
    analyzed o' p = .ok (c.withOptions o') := by
  obtain ⟨c₁, c₂, hdefine, hcheck, hlayOut⟩ := exists_stages_of_analyzed h
  have hanalyze : Context.analyze p (.initial o') = .ok () (c.withOptions o') :=
    Pass.bind_eq_ok.mpr ⟨_, _, Context.define_withOptions hdefine ho, Pass.bind_eq_ok.mpr
      ⟨_, _, Context.check_withOptions hcheck, Context.layOut_withOptions hlayOut⟩⟩
  unfold analyzed
  rw [hanalyze]

/-- A call comes to the same lines whatever the strategy. -/
theorem LowerEnv.Makes.withOptions {c : Context} {o : Options} {strategy strategy' : Strategy}
    {type : TypeId} {x : Expr} {line : Line}
    (h : LowerEnv.Makes ⟨c.withOptions o, strategy, type⟩ x line) :
    LowerEnv.Makes ⟨c, strategy', type⟩ x line := by
  cases h with
  | staticCall hc hcallee hline => exact .staticCall hc hcallee hline
  | ownStatic hcallee hkind hline => exact .ownStatic hcallee hkind hline
  | ownVirtual hcallee hkind hline => exact .ownVirtual hcallee hkind hline
  | methodCall htype hcallee hline => exact .methodCall htype hcallee hline

theorem map_blank_eq {env : LowerEnv} {sources : List Expr} {calls calls' : List Line}
    (h : List.Forall₂ env.Makes sources calls) (h' : List.Forall₂ env.Makes sources calls') :
    calls.map Line.blank = calls'.map Line.blank := by
  induction h generalizing calls' with
  | nil =>
    cases h' with
    | nil => rfl
  | cons hmakes _ ih =>
    cases h' with
    | cons hmakes' hrest' => rw [List.map_cons, List.map_cons, hmakes.blank_eq hmakes', ih hrest']

/-- Two lists that are both related to a third one, member by member. -/
theorem forall₂_of_common {α β γ : Type} {R : α → β → Prop} {S : α → γ → Prop} {as : List α}
    {bs : List β} {cs : List γ} (h : List.Forall₂ R as bs) (h' : List.Forall₂ S as cs) :
    List.Forall₂ (fun b c => ∃ a ∈ as, R a b ∧ S a c) bs cs := by
  induction h generalizing cs with
  | nil =>
    cases h' with
    | nil => exact .nil
  | cons hr _ ih =>
    cases h' with
    | cons hs hrest' =>
      refine .cons ⟨_, List.mem_cons_self, hr, hs⟩ ((ih hrest').imp ?_)
      rintro b c ⟨a, ha, hrs⟩
      exact ⟨a, List.mem_cons_of_mem _ ha, hrs⟩

/-- A compilation with the context, the program and the supply that it leads to. -/
structure Generates (options : Options) (p : Program) (c : Context) (a : Assembly) (s : Supply)
    (r : Compilation) : Prop where
  analyzed : analyzed options p = .ok c
  lowered : lowerProgram c options.strategy p .initial = .ok a s
  compiled : compile options p = .ok r
  result : r = ⟨a.render, c.typeTable, c.symbolTables,
    ⟨c.layouts.size, a.methodCount, a.instructionCount, a.stringCount⟩⟩

theorem exists_generates {p : Program} (hp : p.DistinctNodes) {o : Options} {c : Context}
    (hc : analyzed o p = .ok c) : ∃ a s r, Generates o p c a s r := by
  obtain ⟨a, ha, _⟩ := (accepts_of_analyzed hp hc).exists_generate hp o.strategy
  have hgenerate := ha
  unfold Context.generate at ha
  split at ha
  · next a' s hlower =>
    obtain rfl := Except.ok.inj ha
    refine ⟨a', s, _, hc, hlower, ?_, rfl⟩
    unfold compile
    rw [hc]
    simp only [hgenerate, bind, Except.bind]
  · cases ha

namespace Generates

variable {options : Options} {p : Program} {c : Context} {a : Assembly} {s : Supply}
  {r : Compilation}

theorem assembled (h : Generates options p c a s r) (hp : p.DistinctNodes) :
    Assembled c options.strategy p a := by
  refine (accepts_of_analyzed hp h.analyzed).assembled hp ?_
  unfold Context.generate
  rw [h.lowered]

theorem assembled?_eq (h : Generates options p c a s r) : assembled? options p = some (c, a) := by
  unfold assembled? Context.generate
  rw [h.analyzed]
  simp [Except.toOption, h.lowered]

theorem takes (h : Generates options p c a s r) (hp : p.DistinctNodes) :
    a.strings = s.strings ∧
      Supply.initial.Takes s ((emitted p).flatMap fun e => Stmt.exprsOfList e.2.body)
        ((emitted p).flatMap fun e => Stmt.nodesOfList e.2.body) := by
  obtain ⟨rs, hrs, hstrings, _⟩ := (accepts_of_analyzed hp h.analyzed).exists_methods hp h.lowered
  exact ⟨hstrings, hrs.takes⟩

end Generates

/-- With and without the optimisation, a method makes the same calls in the same order, the
    numbers of registers apart, and the program takes as many labels and the same literals. -/
theorem optimization_keeps_calls {p : Program} (hp : p.DistinctNodes) {options : Options}
    {r : Compilation} (h : compile options p = .ok r) :
    ∃ c a s r₀ c' a' s' r₁,
      Generates { options with optimize := false } p c a s r₀ ∧
      Generates { options with optimize := true } p c' a' s' r₁ ∧
      List.Forall₂ (fun b o => ∃ e ∈ emitted p, b.label = routineLabel c e ∧ o.label = b.label ∧
        ∃ type calls calls', c.types.class? e.1.name.name = some type ∧
          List.Forall₂ (LowerEnv.Makes ⟨c, .baseline, type⟩) (Stmt.callsOfList e.2.body) calls ∧
          List.Forall₂ (LowerEnv.Makes ⟨c', .pressureAware, type⟩) (Stmt.callsOfList e.2.body)
            calls' ∧
          b.body.UserCalls calls ∧ o.body.UserCalls calls' ∧
          calls.map Line.blank = calls'.map Line.blank) a.routines a'.routines ∧
      s.nextLabel = s'.nextLabel ∧ a.strings.texts.Perm a'.strings.texts ∧
      r₀.typeTable = r₁.typeTable ∧ r₀.symbolTables = r₁.symbolTables ∧
      r₀.statistics.classes = r₁.statistics.classes ∧
      r₀.statistics.methods = r₁.statistics.methods ∧
      r₀.statistics.stringLiterals = r₁.statistics.stringLiterals := by
  obtain ⟨c₀, _, hc₀, _⟩ := exists_generate_of_compile h
  have hoff : analyzed { options with optimize := false } p = .ok _ := analyzed_withOptions hc₀ rfl
  have hon : analyzed { options with optimize := true } p = .ok _ := analyzed_withOptions hc₀ rfl
  obtain ⟨a, s, r₀, hgen⟩ := exists_generates hp hoff
  obtain ⟨a', s', r₁, hgen'⟩ := exists_generates hp hon
  obtain ⟨hstrings, htakes⟩ := hgen.takes hp
  obtain ⟨hstrings', htakes'⟩ := hgen'.takes hp
  obtain ⟨hlabels, htexts⟩ := htakes.agree List.nodup_nil htakes'
  rw [← hstrings, ← hstrings'] at htexts
  have hroutines := forall₂_of_common (hgen.assembled hp).forall₂_routines
    (hgen'.assembled hp).forall₂_routines
  have hcount : a.methodCount = a'.methodCount := hroutines.length_eq
  have hsize : a.stringCount = a'.stringCount := htexts.length_eq
  refine ⟨_, a, s, r₀, _, a', s', r₁, hgen, hgen', ?_, hlabels, htexts, ?_⟩
  · refine hroutines.imp ?_
    rintro b o ⟨e, he, ⟨_, _, hb⟩, _, _, ho⟩
    obtain ⟨type, htype, calls, hmakes, hcalls⟩ := hb.guards
    obtain ⟨type', htype', calls', hmakes', hcalls'⟩ := ho.guards
    obtain rfl := Option.some.inj (htype.symm.trans htype')
    refine ⟨e, mem_emitted_of_mem_arranged he, hb.label, ho.label.trans hb.label.symm, type, calls,
      calls', htype, hmakes, hmakes', hcalls.userCalls, hcalls'.userCalls, ?_⟩
    have hsame : List.Forall₂ (LowerEnv.Makes ⟨c₀, .baseline, type⟩) _ calls :=
      hmakes.imp fun _ _ h => h.withOptions
    exact map_blank_eq hsame (hmakes'.imp fun _ _ h => h.withOptions)
  · rw [hgen.result, hgen'.result]
    exact ⟨rfl, rfl, rfl, hcount, hsize⟩

namespace Twice

open Shapes

/-- `static int twice(int n) { return n + n; }` -/
def twice : MethodDecl where
  id := 0
  kind := .static
  returnType := type .int
  name := name "twice"
  params := [⟨type .int, name "n"⟩]
  body := [.ret (node 0) (some (.binary (node 0) (.arith .add) (.var (node 1) (name "n"))
    (.var (node 2) (name "n"))))]

/-- `static void main(string[] args) { int a = 3; int b = twice(a - a * a) - twice(a); }` -/
def main : MethodDecl := mainOf 1 [
  .declare (node 1) (type .int) (name "a") (some (.literal (node 3) (.int 3))),
  .declare (node 2) (type .int) (name "b") (some (.binary (node 4) (.arith .sub)
    (.ownCall (node 5) (name "twice") [.binary (node 6) (.arith .sub) (.var (node 7) (name "a"))
      (.binary (node 8) (.arith .mul) (.var (node 9) (name "a")) (.var (node 10) (name "a")))])
    (.ownCall (node 11) (name "twice") [.var (node 12) (name "a")])))]

def program : Program := ⟨[⟨name "Main", none, [], [twice, main]⟩]⟩

theorem distinctNodes : program.DistinctNodes := ⟨by decide, by decide, by decide⟩

end Twice

/-- The operands of the subtraction are exchanged, and `twice` is called twice all the same. -/
theorem optimization_keeps_calls_twice :
    ∃ c a s r₀ c' a' s' r₁ calls calls',
      Generates {} Twice.program c a s r₀ ∧
      Generates { optimize := true } Twice.program c' a' s' r₁ ∧ a.main.body ≠ a'.main.body ∧
      a.main.body.UserCalls calls ∧ a'.main.body.UserCalls calls' ∧ calls.length = 2 ∧
      calls.map Line.blank = calls'.map Line.blank ∧ s.nextLabel = s'.nextLabel ∧
      r₀.statistics.methods = r₁.statistics.methods := by
  have hfacts : (assembled? {} Twice.program).any (fun x => decide (
      (∀ e ∈ emitted Twice.program, routineLabel x.1 e = Routine.entryLabel →
        (Stmt.callsOfList e.2.body).length = 2) ∧ x.2.main.label = Routine.entryLabel ∧
      (assembled? { optimize := true } Twice.program).map (·.2.main.body) ≠ some x.2.main.body))
        = true := by
    decide +kernel
  obtain ⟨r, _, _, hr, _⟩ := exists_compile_of_any hfacts
  obtain ⟨c, a, s, r₀, c', a', s', r₁, hgen, hgen', hall, hlabels, _, _, _, _, hmethods, _⟩ :=
    optimization_keeps_calls Twice.distinctNodes hr
  have hoff : assembled? {} Twice.program = some (c, a) := hgen.assembled?_eq
  have hon : assembled? { optimize := true } Twice.program = some (c', a') := hgen'.assembled?_eq
  rw [hoff, hon, Option.any_some, decide_eq_true_eq] at hfacts
  obtain ⟨hcalls, hmain, hbody⟩ := hfacts
  -- the entry methods stand last in both programs
  have hlast := List.forall₂_reverse_iff.mpr hall
  rw [Assembly.routines, Assembly.routines, List.reverse_append, List.reverse_append] at hlast
  cases hlast with
  | cons hentry _ =>
    obtain ⟨e, he, hlabel, _, _, calls, calls', _, hmakes, _, huser, huser', hblank⟩ := hentry
    have hlength : calls.length = 2 := by
      rw [← hmakes.length_eq]
      exact hcalls e he (hlabel.symm.trans hmain)
    exact ⟨c, a, s, r₀, c', a', s', r₁, calls, calls', hgen, hgen', fun h => hbody (by simp [h]),
      huser, huser', hlength, hblank, hlabels, hmethods⟩

end IcLir
