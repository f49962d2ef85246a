import IcLir.Proofs.AcceptedPrograms
import IcLir.Proofs.StaticCode

/-
  Calls and the methods that they reach. The method that lowering finds for a call is the one
  that the check has found, by way of the type of its symbol, which is the signature of the
  declaration. So in an accepted program a call passes as many arguments as the method that it
  reaches has parameters, and what is called on a class is static (`fits_of_analyzed`).
-/

namespace IcLir

def Expr.isStaticCall : Expr → Bool
  | .staticCall .. => true
  | _ => false

/-- The arguments of a call. -/
def Expr.args : Expr → List Expr
  | .staticCall _ _ _ args | .ownCall _ _ args | .methodCall _ _ _ args => args
  | _ => []

namespace LowerEnv

/-- The method that a call of the source is resolved to. -/
inductive Calls (env : LowerEnv) : Expr → Callee → Prop where
  | staticCall {node : Node} {className method : Ident} {args : List Expr} {type : TypeId}
      {callee : Callee} {s : Supply} :
    env.context.types.class? className.name = some type →
    env.callee type method.name s = .ok callee s →
    Calls env (.staticCall node className method args) callee
  | ownCall {node : Node} {method : Ident} {args : List Expr} {callee : Callee} {s : Supply} :
    env.callee env.type method.name s = .ok callee s → Calls env (.ownCall node method args) callee
  | methodCall {node : Node} {receiver : Expr} {method : Ident} {args : List Expr}
      {type : TypeId} {callee : Callee} {s : Supply} :
    env.context.exprTypes.get? receiver.id = some type →
    env.callee type method.name s = .ok callee s →
    Calls env (.methodCall node receiver method args) callee

open Lowering in
theorem Calls.unique {env : LowerEnv} {call : Expr} {callee callee' : Callee}
    (h : env.Calls call callee) (h' : env.Calls call callee') : callee = callee' := by
  cases h with
  | staticCall hc hcallee =>
    cases h' with
    | staticCall hc' hcallee' =>
      obtain rfl := Option.some.inj (hc.symm.trans hc')
      exact fixed_callee _ _ _ _ _ _ _ _ hcallee hcallee'
  | ownCall hcallee =>
    cases h' with
    | ownCall hcallee' => exact fixed_callee _ _ _ _ _ _ _ _ hcallee hcallee'
  | methodCall htype hcallee =>
    cases h' with
    | methodCall htype' hcallee' =>
      obtain rfl := Option.some.inj (htype.symm.trans htype')
      exact fixed_callee _ _ _ _ _ _ _ _ hcallee hcallee'

end LowerEnv

namespace Lowering

/-- A call passes as many arguments as the method has parameters, and what is called on a class
    is static. -/
structure CallFits (e : Expr) (callee : Callee) : Prop where
  length_eq : callee.method.params.length = e.args.length
  isStatic : e.isStaticCall = true → callee.kind.isStatic = true

/-- All calls among the expressions fit what they call. -/
def Fits (env : LowerEnv) (es : List Expr) : Prop :=
  ∀ e ∈ es, ∀ callee, env.Calls e callee → CallFits e callee

theorem Fits.mono {env : LowerEnv} {es es' : List Expr} (h : Fits env es) (hsub : es' ⊆ es) :
    Fits env es' := fun e he => h e (hsub he)

theorem Fits.args {env : LowerEnv} {e : Expr} (h : Fits env e.nodes) :
    Fits env (Expr.nodesOfList e.args) := by
  refine h.mono fun x hx => ?_
  cases e <;> simp_all [Expr.args, Expr.nodes, Expr.nodesOfList]

end Lowering

/-! ## Calls of accepted programs -/

section

open Definition Lowering Pass TypeTable Typing

variable {env : LowerEnv} {p : Program} {options : Options} {checked : MethodEnv} {n : ScopeId}

variable {type : TypeId} {m : MethodDecl} {name : String} {callee : Callee}

variable {signature : Signature} {c : Context} {s s' : Supply} {k : ClassDecl} {scope : ScopeId}
    {kind : MethodKind}

theorem TypeTable.SignatureOf.params_length {t : TypeTable} {id : TypeId} (h : t.SignatureOf m id)
    (hsignature : t.signature? id = some signature) :
    m.params.length = signature.params.length := by
  obtain ⟨signature', hsignature', _, hparams⟩ := h
  obtain rfl := Option.some.inj (hsignature.symm.trans hsignature')
  simpa using congrArg List.length hparams

theorem Typing.HasTypes.length_eq {t : Typing} {checked : MethodEnv} {args : List Expr}
    {types : List TypeId} (h : HasTypes t checked args types) : args.length = types.length := by
  induction args generalizing types with
  | nil =>
    cases h with
    | nil => rfl
  | cons arg args ih =>
    cases h with
    | cons _ _ hrest => rw [List.length_cons, List.length_cons, ih hrest]

/-- The members of all classes are in their scopes, with the types written for them. -/
theorem classesFilled_of_analyzed (hp : p.DistinctNodes) (h : analyzed options p = .ok c) :
    ∃ n, ClassesFilled p.classes p.classes n c.definition := by
  obtain ⟨c₁, c₂, hdefine, hcheck, hlayOut⟩ := exists_stages_of_analyzed h
  obtain ⟨_, _, hfilled, _⟩ := (Context.decides_check_of_define hp hdefine).of_ok hcheck
  obtain ⟨_, _, rfl⟩ := layOut_eq_ok_iff.mp hlayOut
  exact ⟨_, hfilled⟩

theorem exists_declaration_of_callee (h : env.callee type name s = .ok callee s') :
    ∃ scope symbol, env.context.scopes.classScopes.get? type = some scope ∧
      env.context.scopes.lookupMember scope name = some symbol ∧
      env.context.definition.declaration? symbol name = some callee.method := by
  have hreads : Meets CompileError.Any (env.callee type name) s fun callee _ =>
      ∃ scope symbol, env.context.scopes.classScopes.get? type = some scope ∧
        env.context.scopes.lookupMember scope name = some symbol ∧
        env.context.definition.declaration? symbol name = some callee.method := by
    unfold LowerEnv.callee LowerEnv.classScope
    rw [meets_bind]
    cases hscope : env.context.scopes.classScopes.get? type with
    | none => exact trivial
    | some scope =>
      simp only [meets_bind, meets_pure]
      refine meets_promised_any fun symbol hsymbol => meets_promised_any fun kind _ => ?_
      refine meets_promised_any fun method hmethod => meets_any fun layout s₁ _ => ?_
      exact meets_promised_any fun entry _ => ⟨scope, symbol, rfl, hsymbol, hmethod⟩
  exact hreads.of_ok h

/-- The type of a method symbol is the signature of its declaration. -/
theorem signatureOf_declaration {d : Definition} (h : ClassesFilled p.classes p.classes n d)
    {i : Nat} (hi : p.classes[i]? = some k)
    (hscope : d.scopes.classScopes.get? (classId i) = some scope) {s : Symbol}
    (hs : d.scopes.lookupMember scope name = some s) (hk : s.kind = .method kind)
    (hm : d.declaration? s name = some m) : d.types.SignatureOf m s.type := by
  obtain ⟨scope', parent, _, hclass, hfit⟩ := h.filled i k hi
  obtain rfl := Option.some.inj (hclass.get?.symm.trans hscope)
  have hall : ClassesFilled (p.classes ++ []) p.classes n d := by
    rw [List.append_nil]
    exact h
  have habove : Above d (k.superclasses ((p.classes ++ []).take i)) parent :=
    hall.above (by rw [List.append_nil]; exact hi)
      (Nat.le_of_lt (List.getElem?_eq_some_iff.mp hi).1) hclass.liesIn
  rw [List.append_nil] at habove
  have hfrom : Above d (k :: k.superclasses (p.classes.take i)) scope' :=
    ⟨classId i, parent, hclass, hfit, habove⟩
  rcases hfrom.lookupMember_cases h.sound name with
    ⟨hnone, _⟩ | ⟨_, b, _, type, inner, _, s', _, _, hfitb, hb, hget, hs'⟩
  · rw [hs] at hnone
    cases hnone
  obtain rfl := Option.some.inj (hs.symm.trans hs')
  -- the symbol is in the scope of the class `b`, which has the declaration
  have howner : (d.scopes.classOf? s.scope).bind d.declarations.get? = some b := by
    rw [(h.sound.symbols inner name s hget).scope_eq, ScopeTree.classOf?, hb.kind]
    exact hb.declaration
  rw [declaration?, howner, Option.bind_some] at hm
  rcases hb.holds.cases hget with ⟨_, _, _, hfield⟩ | ⟨m', hm', rfl, hmethod⟩
  · rw [hfield.kind] at hk
    cases hk
  · rw [ClassDecl.method?_of_mem hfitb.methods_nodup hm'] at hm
    exact Option.some.inj hm ▸ hmethod.type

/-- Lowering finds the method that the check has found. -/
theorem callee_eq_of_hasMethod (h : env.Lowers p checked) (hground : env.context.Grounded p)
    (hfilled : ClassesFilled p.classes p.classes n env.context.definition)
    (hscope : checked.scopes.classScopes.get? type = some scope)
    (hm : env.context.typing.HasMethod checked.scopes scope name kind signature)
    (hcallee : env.callee type name s = .ok callee s') :
    callee.kind = kind ∧ callee.method.params.length = signature.params.length := by
  obtain ⟨i, k, hi, rfl⟩ := exists_class_of_callee hground hcallee
  obtain ⟨symbol, hs, hk, hsignature⟩ := hm
  rw [h.checks.scopes] at hs hscope
  constructor
  · obtain ⟨scope', symbol', hscope', hs', hk'⟩ := exists_symbol_of_callee hcallee
    obtain rfl := Option.some.inj (hscope'.symm.trans hscope)
    obtain rfl := Option.some.inj (hs'.symm.trans hs)
    exact SymbolKind.method.inj (hk'.symm.trans hk)
  · obtain ⟨scope', symbol', hscope', hs', hdeclared⟩ := exists_declaration_of_callee hcallee
    obtain rfl := Option.some.inj (hscope'.symm.trans hscope)
    obtain rfl := Option.some.inj (hs'.symm.trans hs)
    exact (signatureOf_declaration hfilled hi hscope hs hk hdeclared).params_length hsignature

theorem callFits_of_hasType (h : env.Lowers p checked) (hground : env.context.Grounded p)
    (hfilled : ClassesFilled p.classes p.classes n env.context.definition) {e : Expr}
    (htyped : HasType env.context.typing checked e type) (hcalls : env.Calls e callee) :
    CallFits e callee := by
  cases hcalls with
  | staticCall hc hcallee =>
    cases htyped with
    | staticCall hc' hscope hm hk hargs _ =>
      obtain rfl := Option.some.inj (hc'.symm.trans hc)
      obtain ⟨hkind, hlength⟩ := callee_eq_of_hasMethod h hground hfilled hscope hm hcallee
      exact ⟨hlength.trans hargs.length_eq.symm, fun _ => hkind ▸ hk⟩
  | ownCall hcallee =>
    cases htyped with
    | ownCall hm _ hargs _ =>
      obtain ⟨i, k, parent, _, htype, hclass⟩ := h.checks.classOf
      have hscope : checked.scopes.classScopes.get? env.type = some checked.classScope := by
        rw [← h.type, htype, h.checks.scopes]
        exact hclass.get?
      obtain ⟨_, hlength⟩ := callee_eq_of_hasMethod h hground hfilled hscope hm hcallee
      exact ⟨hlength.trans hargs.length_eq.symm, fun hstatic => by cases hstatic⟩
  | methodCall hreceiver hcallee =>
    cases htyped with
    | methodCall htyped _ hscope hm _ hargs _ =>
      obtain rfl := Option.some.inj (htyped.recorded.symm.trans hreceiver)
      obtain ⟨_, hlength⟩ := callee_eq_of_hasMethod h hground hfilled hscope hm hcallee
      exact ⟨hlength.trans hargs.length_eq.symm, fun hstatic => by cases hstatic⟩

/-- In an accepted program all calls fit the methods that they reach. -/
theorem fits_of_analyzed (hp : p.DistinctNodes) (hc : analyzed options p = .ok c)
    (strategy : Strategy) (hk : k ∈ p.classes) (hm : m ∈ k.methods) (hkind : m.kind ≠ .library)
    (htype : c.types.class? k.name.name = some type) :
    Fits ⟨c, strategy, type⟩ (Stmt.exprsOfList m.body) := by
  have haccepts := accepts_of_analyzed hp hc
  obtain ⟨n, hfilled⟩ := classesFilled_of_analyzed hp hc
  obtain ⟨i, hi⟩ := List.mem_iff_getElem?.mp hk
  obtain ⟨_, _, _, hnamed, _⟩ := hfilled.filled i k hi
  obtain rfl : type = classId i := Option.some.inj (htype.symm.trans hnamed.named)
  obtain ⟨owner, parent, _, returnType, hclass, _, htyped⟩ := haccepts.typed i k hi m hm hkind
  have hlowers : LowerEnv.Lowers ⟨c, strategy, classId i⟩ p
      ⟨c.scopes, classId i, owner, m.isStatic, returnType⟩ :=
    ⟨haccepts, ⟨haccepts.defined, rfl, i, k, parent, hi, rfl, hclass⟩, rfl⟩
  intro x hx callee hcalls
  obtain ⟨_, hx⟩ := htyped.exists_hasType hx
  exact callFits_of_hasType hlowers (grounded_of_analyzed hp hc) hfilled hx hcalls

end

end IcLir
