import IcLir.Proofs.LexicalScoping
import IcLir.Proofs.LineOrigins
import IcLir.Proofs.RunSoundness

/-
  Type safety of accepted methods. Well-typedness of the store is an invariant of statements:
  a run ends with a well-typed store or at a guard, and what it returns is of the method's type.
-/

namespace IcLir

open Pass Definition Typing TypeTable IcLir.Action

/-! ## Statements -/

/-- Only inside a loop is a loop left or continued; what is returned is of the given type. -/
def Flow.Fits (σ : Store) (types : TypeTable) (returnType : TypeId) (inLoop : Bool) : Flow → Prop
  | .normal | .unfinished => True
  | .broken | .continued => inLoop = true
  | .returned v => σ.Admits types returnType v

/-- How a run of a statement ends. -/
def Store.Completes (c : Context) (type : TypeId) (m : MethodDecl) (returnType : TypeId)
    (inLoop : Bool) (flow : Flow) (σ : Store) : Prop :=
  σ.WellTyped c type m ∧ flow.Fits σ c.types returnType inLoop

section

variable {c : Context} {p : Program} {env : MethodEnv} {m : MethodDecl} {inLoop : Bool}

/-- Well-typedness is the invariant of a loop. -/
theorem Action.meets_loop {type returnType : TypeId} {test : Action Bool} {body : Action Flow}
    (htest : ∀ σ : Store, σ.WellTyped c type m →
      Meets Fault.IsGuard test σ fun _ σ' => σ'.WellTyped c type m)
    (hbody : ∀ σ : Store, σ.WellTyped c type m →
      Meets Fault.IsGuard body σ (Store.Completes c type m returnType true))
    (limit : Nat) {σ : Store} (hσ : σ.WellTyped c type m) :
    Meets Fault.IsGuard (loop test body limit) σ
      (Store.Completes c type m returnType inLoop) := by
  induction limit generalizing σ with
  | zero => exact ⟨hσ, trivial⟩
  | succ limit ih =>
    rw [loop]
    refine (htest σ hσ).bind ?_
    intro b σ₁ h₁
    cases b with
    | false => exact ⟨h₁, trivial⟩
    | true =>
      rw [if_pos rfl]
      refine (hbody σ₁ h₁).bind ?_
      intro flow σ₂ h₂
      cases flow with
      | normal | continued => exact ih h₂.1
      | broken | unfinished => exact ⟨h₂.1, trivial⟩
      | returned v => exact h₂

theorem Action.meets_inScope {scope : Option ScopeId} {inner : ScopeId}
    {f : ScopeId → Action Flow} {σ : Store} {post : Flow → Store → Prop}
    (hscope : scope = some inner) (h : Meets Fault.IsGuard (f inner) σ post) :
    Meets Fault.IsGuard (inScope scope f) σ post := by
  subst hscope
  exact h

mutual

theorem Typing.WellTyped.meets_run (hin : c.RunsIn p env m) (P : Platform) (limit : Nat)
    {inLoop : Bool} {scope : ScopeId} {s : Stmt} (h : WellTyped c.typing env inLoop scope s)
    (hr : m.Runs s.exprs) {σ : Store} (hσ : σ.WellTyped c env.type m) :
    Meets Fault.IsGuard (s.run c P limit scope) σ
      (Store.Completes c env.type m env.returnType inLoop) := by
  match h with
  | @WellTyped.assign _ _ _ _ node target value expected actual hloc htarget hvalue hsub =>
    have hleft : target.nodes ⊆ (Stmt.assign node target value).exprs :=
      List.subset_append_left ..
    have hright : value.nodes ⊆ (Stmt.assign node target value).exprs :=
      List.subset_append_right ..
    rw [Stmt.run]
    refine (hvalue.meets_run hin P (hr.mono hright)
      hσ).bind ?_
    intro v σ₁ h₁
    refine (htarget.meets_assign hin P hloc (hr.mono hleft) h₁.wellTyped
      (h₁.wellTyped.upcast hin.accepts h₁.admits hsub)).bind ?_
    intro _ σ₂ h₂
    exact ⟨h₂, trivial⟩
  | @WellTyped.call _ _ _ _ node expr _ hcall _ =>
    rw [(hr expr (Expr.mem_nodes expr)).1] at hcall
    simp at hcall
  | .retNothing hsub =>
    have hunit : σ.Admits c.types TypeId.void .unit := ⟨rfl, fun _ => rfl⟩
    rw [Stmt.run]
    exact ⟨hσ, hσ.upcast hin.accepts hunit hsub⟩
  | @WellTyped.retValue _ _ _ _ node value _ hvalue hsub =>
    rw [Stmt.run]
    refine (hvalue.meets_run hin P hr hσ).bind ?_
    intro v σ₁ h₁
    exact ⟨h₁.wellTyped, h₁.wellTyped.upcast hin.accepts h₁.admits hsub⟩
  | @WellTyped.ifThen _ _ _ _ inner node condition body hc hb hbody =>
    have hcondition : condition.nodes ⊆ (Stmt.ifThen node condition body).exprs :=
      List.subset_append_left ..
    have hexprs : body.exprs ⊆ (Stmt.ifThen node condition body).exprs :=
      List.subset_append_right ..
    rw [hin.scopes] at hb
    rw [Stmt.run]
    refine (hc.meets_test hin P (hr.mono hcondition) hσ).bind ?_
    intro b σ₁ h₁
    cases b with
    | false => exact ⟨h₁, trivial⟩
    | true =>
      refine meets_inScope hb.branchScope?_eq ?_
      exact hbody.meets_run hin P limit (hr.mono hexprs) h₁
  | @WellTyped.ifElse _ _ _ _ inner inner' node condition thenBranch elseBranch hc hb hthen hb'
      helse =>
    have hcondition : condition.nodes ⊆ (Stmt.ifElse node condition thenBranch elseBranch).exprs :=
      fun x hx => List.mem_append_left _ (List.mem_append_left _ hx)
    have hexprs : thenBranch.exprs ⊆ (Stmt.ifElse node condition thenBranch elseBranch).exprs :=
      fun x hx => List.mem_append_left _ (List.mem_append_right _ hx)
    have hexprs' : elseBranch.exprs ⊆ (Stmt.ifElse node condition thenBranch elseBranch).exprs :=
      List.subset_append_right ..
    rw [hin.scopes] at hb hb'
    rw [Stmt.run]
    refine (hc.meets_test hin P (hr.mono hcondition) hσ).bind ?_
    intro b σ₁ h₁
    cases b with
    | false =>
      refine meets_inScope hb'.branchScope?_eq ?_
      exact helse.meets_run hin P limit (hr.mono hexprs') h₁
    | true =>
      refine meets_inScope hb.branchScope?_eq ?_
      exact hthen.meets_run hin P limit (hr.mono hexprs) h₁
  | @WellTyped.loop _ _ _ _ inner node condition body hc hb hbody =>
    have hcondition : condition.nodes ⊆ (Stmt.loop node condition body).exprs :=
      List.subset_append_left ..
    have hexprs : body.exprs ⊆ (Stmt.loop node condition body).exprs :=
      List.subset_append_right ..
    rw [hin.scopes] at hb
    rw [Stmt.run]
    refine meets_inScope hb.branchScope?_eq (meets_loop ?_ ?_ limit hσ)
    · exact fun σ' hσ' => hc.meets_test hin P (hr.mono hcondition) hσ'
    · exact fun σ' hσ' => hbody.meets_run hin P limit (hr.mono hexprs) hσ'
  | .breakLoop =>
    rw [Stmt.run]
    exact ⟨hσ, rfl⟩
  | .continueLoop =>
    rw [Stmt.run]
    exact ⟨hσ, rfl⟩
  | .block hb hstmts =>
    rw [hin.scopes] at hb
    rw [Stmt.run]
    exact meets_inScope hb.get? (hstmts.meets_runList hin P limit hr hσ)
  | .declare _ =>
    rw [Stmt.run]
    exact ⟨hσ, trivial⟩
  | @WellTyped.declareValue _ _ _ _ node type name value _ s _ hget _ hvalue hsub =>
    rw [hin.scopes] at hget
    rw [Stmt.run]
    refine (hvalue.meets_run hin P hr hσ).bind ?_
    intro v σ₁ h₁
    rw [meets_bind, meets_modify]
    exact ⟨h₁.wellTyped.setVar hget (h₁.wellTyped.upcast hin.accepts h₁.admits hsub), trivial⟩

theorem Typing.WellTypedList.meets_runList (hin : c.RunsIn p env m) (P : Platform) (limit : Nat)
    {inLoop : Bool} {scope : ScopeId} {ss : List Stmt}
    (h : WellTypedList c.typing env inLoop scope ss) (hr : m.Runs (Stmt.exprsOfList ss))
    {σ : Store} (hσ : σ.WellTyped c env.type m) :
    Meets Fault.IsGuard (Stmt.runList c P limit scope ss) σ
      (Store.Completes c env.type m env.returnType inLoop) := by
  match h with
  | .nil =>
    rw [Stmt.runList]
    exact ⟨hσ, trivial⟩
  | .cons hfirst hrest =>
    rw [Stmt.runList, andThen]
    refine (hfirst.meets_run hin P limit (hr.mono (List.subset_append_left ..)) hσ).bind ?_
    intro flow σ₁ h₁
    cases flow with
    | normal =>
      exact hrest.meets_runList hin P limit (hr.mono (List.subset_append_right ..)) h₁.1
    | broken | continued | returned | unfinished => exact h₁

end

end

/-! ## Methods -/

section

variable {options : Options} {p : Program} {c : Context}

/-- A variable that is named in a method is one of its own. -/
theorem isScopeOf_of_reference (hp : p.DistinctNodes) (hc : analyzed options p = .ok c)
    {k : ClassDecl} (hk : k ∈ p.classes) {m : MethodDecl} (hm : m ∈ k.methods)
    (hkind : m.kind ≠ .library) {node : Node} {name : Ident} {scope : ScopeId}
    (he : Expr.var node name ∈ Stmt.exprsOfList m.body)
    (href : c.references.get? node.id = some (.variable scope)) : c.IsScopeOf m scope := by
  obtain ⟨c₁, c₂, hdefine, hcheck, hlayOut⟩ := exists_stages_of_analyzed hc
  obtain ⟨_, _, rfl⟩ := layOut_eq_ok_iff.mp hlayOut
  obtain ⟨before, after, hclasses⟩ := List.append_of_mem hk
  -- the walk with frames meets the name, and binds it in a frame of the method
  obtain ⟨u, hu, hocc⟩ : ∃ u ∈ Lexical.usesOfMethod (k :: k.superclasses before) m,
      u.occurrence = (node.id, name.name) := by
    have hocc : (Lexical.usesOfMethod (k :: k.superclasses before) m).map Lexical.Use.occurrence =
        (Stmt.exprsOfList m.body).filterMap Expr.bareName? :=
      Lexical.occurrence_usesOfStmts _ m.body _
    have hmem : (node.id, name.name) ∈ (Stmt.exprsOfList m.body).filterMap Expr.bareName? :=
      List.mem_filterMap.mpr ⟨_, he, rfl⟩
    rw [← hocc] at hmem
    exact List.mem_map.mp hmem
  have huse : u ∈ p.uses := by
    unfold Program.uses
    rw [hclasses]
    exact Lexical.usesOfMethod_subset hm hkind hu
  obtain ⟨b, r, type, hb, hmeaning, href', _⟩ := exists_binding_of_check hp hdefine hcheck huse
  have hr : r = .variable scope := by
    rw [show u.node = node.id from congrArg Prod.fst hocc] at href'
    exact Option.some.inj (href'.symm.trans href)
  subst hr
  cases b with
  | field owner written =>
    obtain ⟨_, _, hmeaning⟩ := Option.bind_eq_some_iff.mp hmeaning
    obtain ⟨_, _, hmeaning⟩ := Option.map_eq_some_iff.mp hmeaning
    simp at hmeaning
  | var origin written =>
    obtain ⟨scope', hscope, hmeaning⟩ := Option.bind_eq_some_iff.mp hmeaning
    obtain ⟨_, _, hmeaning⟩ := Option.map_eq_some_iff.mp hmeaning
    obtain rfl : scope' = scope := Resolution.variable.inj (Prod.mk.inj hmeaning).1
    have horigin := Lexical.boundIn_usesOfMethod _ m u hu origin written hb
    cases origin with
    | method id => exact .inl (horigin ▸ hscope)
    | block id =>
      obtain ⟨s, hs, rfl⟩ := horigin
      exact .inr ⟨s, hs, hscope⟩

/-- A store in which a method of the class may start: its receiver is a new object, and its
    variables hold the initial values of their types. -/
def Context.initialStore (c : Context) (type : TypeId) : Store where
  var scope name := (((c.scopes.scope scope).get? name).map fun s => .initial s.type).getD .null
  receiver := .ref 0
  items := [c.newObject type]

theorem wellTyped_initialStore (h : c.Accepts p) {i : Nat} {k : ClassDecl}
    (hi : p.classes[i]? = some k) (m : MethodDecl) :
    (c.initialStore (classId i)).WellTyped c (classId i) m where
  var scope name s _ hs := by
    unfold Context.initialStore
    dsimp only
    rw [hs]
    exact Store.admits_initial _ c.types s.type
  receiver _ := ⟨0, classId i, _, rfl, rfl, ClassTable.isSubtype_self (classId i)⟩
  item item hitem := by
    rw [List.mem_singleton.mp hitem]
    exact Store.itemFits_newObject h (h.defined.table.class? i k hi)

/-- Code that the checker accepts is type safe, as far as it makes no calls. Run in a well-typed
    store, every expression of a method that is no library method stops at a guard or ends with
    a value of the type that is recorded for it, as evaluation says if it allocates nothing; every
    statement, where it stands, and the whole body stop at a guard or end with a store that is
    well typed again, and return only values of the type that the method declares. -/
theorem checked_code_is_type_safe (hp : p.DistinctNodes) (hc : analyzed options p = .ok c) {i : Nat}
    {k : ClassDecl} (hi : p.classes[i]? = some k) {m : MethodDecl} (hm : m ∈ k.methods)
    (hkind : m.kind ≠ .library) :
    ∃ scope returnType, c.scopes.methodScopes.get? m.id = some scope ∧
      c.types.denoted? m.returnType = some returnType ∧
      (Stmt.placesOfList c.scopes scope m.body).map Prod.snd = Stmt.nodesOfList m.body ∧
      ∀ (P : Platform) (σ : Store), σ.WellTyped c (classId i) m →
        (∀ e ∈ Stmt.exprsOfList m.body, e.IsCallFree →
          ∃ type, c.exprTypes.get? e.id = some type ∧
            (Meets Fault.IsGuard (e.run c P) σ fun v σ' =>
              σ'.WellTyped c (classId i) m ∧ σ'.Admits c.types type v) ∧
            (e.IsPlain → e.run c P σ = ask (fun s => e.eval c P s) σ)) ∧
        (∀ x ∈ Stmt.placesOfList c.scopes scope m.body, x.2.IsCallFree → ∀ limit,
          Meets Fault.IsGuard (x.2.run c P limit x.1) σ fun flow σ' =>
            σ'.WellTyped c (classId i) m ∧
              ∀ v, flow = .returned v → σ'.Admits c.types returnType v) ∧
        ((∀ e ∈ Stmt.exprsOfList m.body, e.isCall = false) → ∀ limit,
          Meets Fault.IsGuard (Stmt.runList c P limit scope m.body) σ fun flow σ' =>
            σ'.WellTyped c (classId i) m ∧ flow ≠ .broken ∧ flow ≠ .continued ∧
              ∀ v, flow = .returned v → σ'.Admits c.types returnType v) := by
  have h := accepts_of_analyzed hp hc
  obtain ⟨owner, parent, scope, returnType, hclass, hmethod, hbody⟩ := h.typed i k hi m hm hkind
  have hin : c.RunsIn p ⟨c.scopes, classId i, owner, m.isStatic, returnType⟩ m :=
    ⟨⟨h.defined, rfl, i, k, parent, hi, rfl, hclass⟩, h, rfl, fun _ _ _ he href =>
      isScopeOf_of_reference hp hc (List.mem_of_getElem? hi) hm hkind he href⟩
  refine ⟨scope, returnType, hmethod.get?, hmethod.returnType,
    Stmt.map_snd_placesOfList c.scopes m.body scope, fun P σ hσ => ⟨?_, ?_, ?_⟩⟩
  · intro e he hfree
    obtain ⟨type, htype⟩ := hbody.exists_hasType he
    have hrun := htype.meets_run hin P (fun x hx =>
      ⟨hfree x hx, Stmt.nodes_subset_of_mem_exprsOfList he hx⟩) hσ
    refine ⟨type, htype.recorded, hrun.mono ?_, fun hplain => ?_⟩
    · intro v σ' h'
      exact ⟨h'.wellTyped, h'.admits⟩
    · exact (e.run_refines_eval c P hplain).eq_of_meets hrun
  · intro x hx hfree limit
    obtain ⟨hexprs, inLoop, hx⟩ := hbody.of_mem_placesOfList hx
    refine (hx.meets_run hin P limit (fun e he => ⟨hfree e he, hexprs he⟩) hσ).mono ?_
    intro flow σ' h'
    refine ⟨h'.1, fun v hv => ?_⟩
    subst hv
    exact h'.2
  · intro hfree limit
    refine (hbody.meets_runList hin P limit (fun e he => ⟨hfree e he, he⟩) hσ).mono ?_
    intro flow σ' h'
    cases flow with
    | normal | unfinished => exact ⟨h'.1, by simp, by simp, by simp⟩
    | broken | continued => exact absurd h'.2 Bool.false_ne_true
    | returned v =>
      refine ⟨h'.1, by simp, by simp, fun w hw => ?_⟩
      obtain rfl := Flow.returned.inj hw
      exact h'.2

end

namespace Filling

open Shapes (name type node line)

/-- `class Cell { int value; }` -/
def cell : ClassDecl where
  name := name "Cell"
  superclass := none
  fields := [⟨type .int, name "value"⟩]
  methods := []

/-- `int fill(int n) { cells = new Cell[n]; int i = 0; while (i < n) { cells[i] = new Tally();
    cells[i].value = i; i = i + 1; } return cells[n].value; }` -/
def fill : MethodDecl where
  id := 1
  kind := .virtual
  returnType := type .int
  name := name "fill"
  params := [⟨type .int, name "n"⟩]
  body := [
    .assign (node 0) (.var (node 0) (name "cells"))
      (.newArray (node 1) (type (.named "Cell")) (.var (node 2) (name "n"))),
    .declare (node 1) (type .int) (name "i") (some (.literal (node 3) (.int 0))),
    .loop (node 2) (.binary (node 4) (.compare .lt) (.var (node 5) (name "i"))
      (.var (node 6) (name "n"))) (.block (node 3) [
        .assign (node 4) (.index (node 7) (.var (node 8) (name "cells")) (.var (node 9) (name "i")))
          (.newObject (node 10) (name "Tally")),
        .assign (node 5) (.field (node 11) (.index (node 12) (.var (node 13) (name "cells"))
          (.var (node 14) (name "i"))) (name "value")) (.var (node 15) (name "i")),
        .assign (node 6) (.var (node 16) (name "i")) (.binary (node 17) (.arith .add)
          (.var (node 18) (name "i")) (.literal (node 19) (.int 1)))]),
    .ret (node 7) (some (.field (node 20) (.index (node 21) (.var (node 22) (name "cells"))
      (.var (node 23) (name "n"))) (name "value")))]

/-- `class Tally extends Cell { Cell[] cells; … }` with the method and an entry. -/
def tally : ClassDecl where
  name := name "Tally"
  superclass := some (name "Cell")
  fields := [⟨⟨.named "Cell", 1, line 1⟩, name "cells"⟩]
  methods := [fill, Shadowing.main]

def program : Program := ⟨[cell, tally]⟩

theorem exists_analyzed : ∃ c, analyzed {} program = .ok c := by
  have hok : (analyzed {} program).toOption.isSome = true := by decide +kernel
  cases h : analyzed {} program with
  | ok c => exact ⟨c, rfl⟩
  | error e => rw [h] at hok; simp [Except.toOption] at hok

/-- Where a run of the method on `n` stops, if it does. -/
def fault? (limit : Nat) (n : Int) : Option Fault :=
  match analyzed {} program with
  | .error _ => none
  | .ok c =>
    let scope := (c.scopes.methodScopes.get? fill.id).getD 0
    let start := (c.initialStore (classId 1)).setVar scope "n" (.int n)
    match Stmt.runList c .exact limit scope fill.body start with
    | .ok _ _ => none
    | .error fault _ => some fault

-- the two cells are filled with objects of the subclass, and there is no third
example : fault? 2 2 = none := by decide +kernel

example : fault? 3 2 = some (.guard .arrayAccess) := by decide +kernel

example : fault? 3 (-1) = some (.guard .size) := by decide +kernel

end Filling

theorem checked_code_is_type_safe_filling :
    ∃ c, analyzed {} Filling.program = .ok c ∧
      (c.initialStore (classId 1)).WellTyped c (classId 1) Filling.fill ∧
      ∃ scope returnType, c.scopes.methodScopes.get? 1 = some scope ∧
        c.types.denoted? (Shapes.type .int) = some returnType ∧
        ∀ limit, Meets Fault.IsGuard
          (Stmt.runList c .exact limit scope Filling.fill.body) (c.initialStore (classId 1))
          fun flow σ' => σ'.WellTyped c (classId 1) Filling.fill ∧ flow ≠ .broken ∧
            flow ≠ .continued ∧ ∀ v, flow = .returned v → σ'.Admits c.types returnType v := by
  obtain ⟨c, hc⟩ := Filling.exists_analyzed
  have hnodes : Filling.program.DistinctNodes := ⟨by decide, by decide, by decide⟩
  have hi : Filling.program.classes[1]? = some Filling.tally := rfl
  have hstart := wellTyped_initialStore (accepts_of_analyzed hnodes hc) hi Filling.fill
  obtain ⟨scope, returnType, hscope, hreturn, _, hsafe⟩ :=
    checked_code_is_type_safe hnodes hc hi (m := Filling.fill) List.mem_cons_self (by decide)
  have hfree : ∀ e ∈ Stmt.exprsOfList Filling.fill.body, e.isCall = false := by decide
  exact ⟨c, hc, hstart, scope, returnType, hscope, hreturn, (hsafe .exact _ hstart).2.2 hfree⟩

end IcLir
