import IcLir.Proofs.CheckEffects
import IcLir.Proofs.ExprCheck
import IcLir.Proofs.WellTyped
import Mathlib.Data.List.Flatten

/-
  The typing stage accepts exactly the programs that keep the rules of typing, and all bodies of
  a program that it accepts are well typed (`decides_checkProgram`). The references that it notes
  are those of the uses in the program text: a use is noted as what the frames around it bind it
  to (`Work`).
-/

namespace IcLir

namespace Typing

open Pass Definition Lexical TypeTable

/-! ## References -/

/-- The references that the check of an expression notes are what its bare names resolve to. -/
theorem meets_references (env : MethodEnv) (scope : ScopeId) (e : Expr) (t : Typing) :
    Meets CompileError.Any (checkExpr env scope e) t fun _ t' =>
      ∀ id r, t'.references.get? id = some r → t.references.get? id = some r ∨
        ∃ node name type, .var node name ∈ e.nodes ∧ node.id = id ∧
          resolveName? env scope name.name t.visible = some (r, type) := by
  refine meets_any fun a t' hx => ?_
  have hmade := (makes_checkExpr env scope e).made t
  rw [hx] at hmade
  obtain ⟨l, hl, _, hfollows⟩ := hmade
  -- nothing comes into view on the way
  refine (hfollows.rel (R := fun u u' => u.visible = t.visible → u'.visible = t.visible ∧
    ∀ id r, u'.references.get? id = some r → u.references.get? id = some r ∨
      ∃ node name type, .var node name ∈ e.nodes ∧ node.id = id ∧
        resolveName? env scope name.name t.visible = some (r, type))
    (fun u hu => ⟨hu, fun _ _ h => .inl h⟩) ?_ ?_ rfl).2
  · intro u v w hv hw hu
    obtain ⟨hn, hnew⟩ := hv hu
    refine ⟨(hw hn).1, fun id r hr => ?_⟩
    rcases (hw hn).2 id r hr with hr | hr
    · exact hnew id r hr
    · exact .inr hr
  · intro change hmem u u' hchange hu
    cases change with
    | resolve =>
      obtain ⟨_, _, _, rfl⟩ := hchange
      exact ⟨hu, fun _ _ h => .inl h⟩
    | array =>
      obtain ⟨_, _, rfl⟩ := hchange
      exact ⟨hu, fun _ _ h => .inl h⟩
    | record id =>
      obtain ⟨_, rfl⟩ := hchange
      exact ⟨hu, fun _ _ h => .inl h⟩
    | refer id name =>
      obtain ⟨r, ⟨type, hr⟩, rfl⟩ := hchange
      obtain ⟨x, hx, hmem⟩ := List.mem_flatMap.mp (hl _ hmem)
      obtain ⟨node, ident, rfl, rfl, rfl⟩ := Expr.refer_mem_effects.mp hmem
      refine ⟨hu, fun i r' hi => ?_⟩
      rw [OrderedMap.get?_insert] at hi
      split at hi
      · next heq =>
        rw [← Option.some.inj hi]
        exact .inr ⟨node, ident, type, hx, heq.symm, hu ▸ hr⟩
      · exact .inl hi
    | view =>
      obtain ⟨x, _, hmem⟩ := List.mem_flatMap.mp (hl _ hmem)
      exact absurd hmem x.view_notMem_effects

/-- The use is bound, and the declaration that it is bound to is noted as `r`. -/
def Binds (d : Definition) (u : Use) (r : Resolution) : Prop :=
  ∃ b s, u.binding = some b ∧ b.meaning? d.types d.scopes = some (r, s.type) ∧
    (d.scopes.scope r.scope).get? u.name = some s

/-- The state after work on the nodes `ids`, in which references were noted for the uses `us`. -/
structure Work (d : Definition) (ids : List NodeId) (us : List Use) (t t' : Typing) : Prop
    extends Step ids t t' where
  noted : ∀ n r, t'.references.get? n = some r →
    t.references.get? n = some r ∨ ∃ u ∈ us, u.node = n ∧ Binds d u r

section

variable {d : Definition} {ids ids' : List NodeId} {us us' : List Use} {t t' t'' : Typing}

theorem Work.trans (h : Work d ids us t t') (h' : Work d ids' us' t' t'') :
    Work d (ids ++ ids') (us ++ us') t t'' := by
  refine ⟨h.toStep.trans h'.toStep, fun n r hr => ?_⟩
  rcases h'.noted n r hr with hr | ⟨u, hu, hbinds⟩
  · rcases h.noted n r hr with hr | ⟨u, hu, hbinds⟩
    · exact .inl hr
    · exact .inr ⟨u, List.mem_append_left _ hu, hbinds⟩
  · exact .inr ⟨u, List.mem_append_right _ hu, hbinds⟩

theorem Work.mono (h : Work d ids us t t') (hids : ids ⊆ ids') (hus : us ⊆ us') :
    Work d ids' us' t t' := by
  refine ⟨h.toStep.mono hids, fun n r hr => (h.noted n r hr).imp_right ?_⟩
  rintro ⟨u, hu, hbinds⟩
  exact ⟨u, hus hu, hbinds⟩

/-- Work on no node notes nothing. -/
theorem Step.work (h : Step [] t t') : Work d [] [] t t' :=
  ⟨h, fun n _ hr => .inl ((h.references n List.not_mem_nil).symm.trans hr)⟩

end

/-! ## Statements -/

section

variable {p : Program} {d : Definition} {env : MethodEnv} {o : Outlook}

/-- The state at a place in a body with the first `n` locals in view. -/
structure Ready (d : Definition) (env : MethodEnv) (o : Outlook) (n : Nat) (t : Typing) : Prop where
  types : d.types.Extends t.types
  visible : t.visible = n
  result : t.types.Means env.returnType o.result

/-- The work on a part of a body, after which the first `n` locals are in view. -/
structure Passed (d : Definition) (env : MethodEnv) (o : Outlook) (n : Nat) (ids : List NodeId)
    (us : List Use) (t t' : Typing) : Prop extends Work d ids us t t' where
  ready : Ready d env o n t'

variable {lo n : Nat} {scope : ScopeId} {outer : List ScopeId} {frames : List Frame} {t : Typing}

theorem Passed.trans {n' : Nat} {ids ids' : List NodeId} {us us' : List Use} {t' t'' : Typing}
    (h : Passed d env o n ids us t t') (h' : Passed d env o n' ids' us' t' t'') :
    Passed d env o n' (ids ++ ids') (us ++ us') t t'' := ⟨h.toWork.trans h'.toWork, h'.ready⟩

theorem Ready.passed (h : Ready d env o n t) : Passed d env o n [] [] t t :=
  ⟨(Step.refl [] t).work, h⟩

/-- The bare names of an expression resolve to what the frames bind them to. -/
theorem computes_exprOf (hs : Sees p d env o) (h : Stack d env lo n scope outer frames)
    (hr : Ready d env o n t) (e : Expr) (hids : e.ids.Nodup) :
    Computes (o.typeOf frames e) (checkExpr env scope e) t fun type id t' =>
      Passed d env o n e.ids (usesOfExpr o.fieldsInView frames e) t t' ∧
        t'.types.Means id type ∧ HasType t' env e id := by
  refine ((computes_checkExpr hs h e hr.types hr.visible hids).and_meets
    (meets_references env scope e t)).mono fun type id t' hchecked => ?_
  obtain ⟨hchecked, hreferences⟩ := hchecked
  have hready : Ready d env o n t' := ⟨hr.types.trans hchecked.types,
    hchecked.visible.trans hr.visible, hr.result.extend hchecked.types⟩
  refine ⟨⟨⟨hchecked.toStep, fun i r hi => (hreferences i r hi).imp_right ?_⟩, hready⟩,
    hchecked.means, hchecked.hasType⟩
  rintro ⟨node, name, type, hmem, rfl, hname⟩
  rw [hr.visible] at hname
  obtain ⟨b, hb, hmeaning⟩ := h.exists_lookup hs.surrounds hname
  obtain ⟨s, rfl, hget, hcases⟩ := resolveName?_cases h hs.surrounds hname
  refine ⟨⟨node.id, name.name, lookup o.fieldsInView frames name.name⟩, ?_, rfl, b, s,
    hs.fieldsInView_eq ▸ hb, hmeaning, ?_⟩
  · exact List.mem_map.mpr ⟨(node.id, name.name), List.mem_filterMap.mpr ⟨_, hmem, rfl⟩, rfl⟩
  · obtain ⟨_, rfl⟩ | ⟨_, _, _, rfl⟩ := hcases <;> exact hget

/-- An expression is checked, and then whether its type is below the one expected. -/
theorem decides_valueFits (hs : Sees p d env o) (h : Stack d env lo n scope outer frames)
    (hr : Ready d env o n t) (e : Expr) (hids : e.ids.Nodup) {expected : ValueType} {id : TypeId}
    {f : TypeId → Check Unit}
    (hf : ∀ a actual t', t.types.Extends t'.types → t'.types.Means actual a →
      Decides (o.isSubtype a expected = true) (f actual) t'
        fun _ t'' => t'' = t' ∧ t'.types.isSubtype actual id = true) :
    Decides (o.valueFits frames expected e = true) (checkExpr env scope e >>= f) t fun _ t' =>
      Passed d env o n e.ids (usesOfExpr o.fieldsInView frames e) t t' ∧
        ∃ actual, HasType t' env e actual ∧ t'.types.isSubtype actual id = true := by
  rw [Outlook.valueFits, Option.any_eq_true]
  refine (computes_exprOf hs h hr e hids).bind_decides fun a actual t₁ _ h₁ => ?_
  obtain ⟨hpassed, hmeans, htype⟩ := h₁
  refine (hf a actual t₁ hpassed.types hmeans).mono fun _ t₂ _ h₂ => ?_
  obtain ⟨rfl, hsub⟩ := h₂
  exact ⟨hpassed, actual, htype, hsub⟩

theorem decides_checkValue (hs : Sees p d env o) (h : Stack d env lo n scope outer frames)
    (hr : Ready d env o n t) (e : Expr) (hids : e.ids.Nodup) {type : ValueType} {id : TypeId}
    (hid : t.types.Means id type) (token : String) (span : Span) :
    Decides (o.valueFits frames type e = true)
      (checkExpr env scope e >>= fun actual => requireValue actual id token span) t fun _ t' =>
        Passed d env o n e.ids (usesOfExpr o.fieldsInView frames e) t t' ∧
          ∃ actual, HasType t' env e actual ∧ t'.types.isSubtype actual id = true :=
  decides_valueFits hs h hr e hids fun _ _ _ hk ha =>
    decides_requireValue hs (hr.types.trans hk) ha (hid.extend hk) token span

theorem decides_checkCondition (hs : Sees p d env o) (h : Stack d env lo n scope outer frames)
    (hr : Ready d env o n t) (condition : Expr) (hids : condition.ids.Nodup) (cause : Cause) :
    Decides (o.valueFits frames .boolean condition = true)
      (checkCondition env scope condition cause) t fun _ t' =>
        Passed d env o n condition.ids (usesOfExpr o.fieldsInView frames condition) t t' ∧
          HasType t' env condition TypeId.boolean := by
  refine (decides_valueFits hs h hr condition hids fun _ _ _ hk ha =>
    decides_requireSubtype hs (hr.types.trans hk) ha (means_boolean _) ..).mono fun _ t' _ h' => ?_
  obtain ⟨hpassed, actual, htype, hsub⟩ := h'
  rw [(hs.table.extend hpassed.ready.types).eq_boolean_of_isSubtype hsub] at htype
  exact ⟨hpassed, htype⟩

theorem blockScope_eq {t : ScopeTree} {node : NodeId} {inner : ScopeId}
    (h : t.blockScopes.get? node = some inner) : blockScope t node = pure inner := by
  rw [blockScope, h]
  rfl

theorem branchScope_eq {t : ScopeTree} {body : Stmt} {inner : ScopeId}
    (h : t.EntersAt scope body n inner) : Typing.branchScope t scope body = pure inner := by
  unfold ScopeTree.EntersAt at h
  unfold Typing.branchScope
  by_cases hd : body.isDeclaration = true
  · rw [if_pos hd] at h ⊢
    exact blockScope_eq h.get?
  · rw [if_neg hd] at h ⊢
    rw [h]

theorem decides_enterLocal (hs : Sees p d env o) (hr : Ready d env o n t) {name : String}
    {type : TypeExpr} {s : Symbol} (h : d.scopes.LocalAt d.types lo scope name type n s) :
    Decides True (enterLocal env scope name) t fun id t' => Passed d env o (n + 1) [] [] t t' ∧
      t'.types.Means id type.valueType ∧ id = s.type := by
  unfold enterLocal
  rw [hs.surrounds.scopes, h.get?]
  dsimp only
  rw [h.kind]
  have hstep : Step [] t { t with visible := max t.visible (n + 1) } :=
    ⟨.refl _, fun _ _ => rfl, fun _ _ => rfl⟩
  refine decides_modify.mpr (decides_pure ⟨⟨hstep.work, hr.types, ?_, hr.result⟩,
    hr.types.denoted?_of_some h.type, rfl⟩)
  change max t.visible (n + 1) = n + 1
  rw [hr.visible]
  omega

mutual

theorem decides_checkStmt (hs : Sees p d env o) :
    ∀ (s : Stmt) (inLoop : Bool) {scope : ScopeId} {n n' : Nat} {outer : List ScopeId}
      {frames : List Frame} {t : Typing}, d.scopes.Numbered d.types lo scope s n n' →
      Stack d env lo n scope outer frames → Ready d env o n t → s.exprIds.Nodup →
      Decides (o.stmtFits inLoop frames s = true) (checkStmt env inLoop scope s) t fun _ t' =>
        Passed d env o n' s.exprIds (usesOfStmt o.fieldsInView frames s) t t' ∧
          WellTyped t' env inLoop scope s
  | .assign node target value, _, _, _, _, _, _, _, hn, h, hr, hids => by
    obtain rfl := hn
    rw [Stmt.exprIds_assign] at hids ⊢
    rw [List.nodup_append'] at hids
    rw [checkStmt, Outlook.stmtFits, usesOfStmt, Bool.and_eq_true, Option.any_eq_true]
    refine decides_require_bind fun hloc => ?_
    refine (computes_exprOf hs h hr target hids.1).bind_decides fun type id t₁ _ h₁ => ?_
    obtain ⟨h₁, hmeans, htarget⟩ := h₁
    refine (decides_checkValue hs h h₁.ready value hids.2.1 hmeans _ _).mono fun _ t₂ _ h₂ => ?_
    obtain ⟨h₂, actual, hvalue, hsub⟩ := h₂
    have htarget₂ := htarget.step h₂.toStep hids.2.2
    exact ⟨h₁.trans h₂, .assign hloc htarget₂ hvalue hsub⟩
  | .call node expr, _, _, _, _, _, frames, t, hn, h, hr, hids => by
    obtain rfl := hn
    rw [checkStmt, Outlook.stmtFits, usesOfStmt, Bool.and_eq_true]
    refine decides_require_bind fun hcall => ?_
    refine ((computes_exprOf hs h hr expr hids).bind_decides fun _ _ _ _ h₁ =>
      decides_pure ⟨h₁.1, .call hcall h₁.2.2⟩).congr ?_
    simp [Option.isSome_iff_exists]
  | .ret node none, _, _, _, _, _, _, t, hn, _, hr, _ => by
    obtain rfl := hn
    rw [checkStmt, Outlook.stmtFits, usesOfStmt]
    refine (decides_requireValue hs hr.types t.types.means_void hr.result _ _).mono
      fun _ t' _ ht => ?_
    obtain ⟨rfl, hsub⟩ := ht
    exact ⟨hr.passed, .retNothing hsub⟩
  | .ret node (some value), _, _, _, _, _, _, _, hn, h, hr, hids => by
    obtain rfl := hn
    rw [checkStmt, Outlook.stmtFits, usesOfStmt]
    refine (decides_checkValue hs h hr value hids hr.result _ _).mono fun _ t₁ _ h₁ => ?_
    obtain ⟨h₁, actual, hvalue, hsub⟩ := h₁
    exact ⟨h₁, .retValue hvalue hsub⟩
  | .ifThen node condition body, inLoop, _, _, _, _, _, _, hn, h, hr, hids => by
    obtain ⟨inner, henters, hbody⟩ := hn
    obtain ⟨outer', hinner⟩ := h.branch hs.surrounds.sound henters
    rw [Stmt.exprIds_ifThen] at hids ⊢
    rw [List.nodup_append'] at hids
    rw [checkStmt, hs.surrounds.scopes, branchScope_eq henters, Outlook.stmtFits, usesOfStmt,
      Bool.and_eq_true]
    refine (decides_checkCondition hs h hr condition hids.1 _).bind fun _ t₁ _ h₁ => ?_
    refine (decides_checkStmt hs body inLoop hbody hinner h₁.1.ready hids.2.1).mono
      fun _ t₂ _ h₂ => ?_
    have hcondition := h₁.2.step h₂.1.toStep hids.2.2
    exact ⟨h₁.1.trans h₂.1,
      .ifThen hcondition (hs.surrounds.scopes ▸ henters.branchOf) h₂.2⟩
  | .ifElse node condition thenBranch elseBranch, inLoop, _, _, _, _, _, _, hn, h, hr, hids => by
    obtain ⟨mid, ⟨inner, henters, hthen⟩, inner', henters', helse⟩ := hn
    have hmid := h.afterBranch hs.surrounds.sound henters fun _ _ =>
      Stack.stmt hs.surrounds.sound thenBranch hthen
    obtain ⟨outer', hinner⟩ := h.branch hs.surrounds.sound henters
    obtain ⟨outer'', hinner'⟩ := hmid.branch hs.surrounds.sound henters'
    rw [Stmt.exprIds_ifElse, ← List.append_assoc] at hids ⊢
    rw [List.nodup_append', List.nodup_append'] at hids
    obtain ⟨⟨hnode, hthenIds, hdisjoint⟩, helseIds, hrest⟩ := hids
    rw [checkStmt, hs.surrounds.scopes, branchScope_eq henters, branchScope_eq henters',
      Outlook.stmtFits, usesOfStmt, Bool.and_eq_true, Bool.and_eq_true]
    refine (decides_checkCondition hs h hr condition hnode _).bind fun _ t₁ _ h₁ => ?_
    refine (decides_checkStmt hs thenBranch inLoop hthen hinner h₁.1.ready hthenIds).bind
      fun _ t₂ _ h₂ => ?_
    refine (decides_checkStmt hs elseBranch inLoop helse hinner' h₂.1.ready helseIds).mono
      fun _ t₃ _ h₃ => ?_
    have hcondition := (h₁.2.step h₂.1.toStep hdisjoint).step
      h₃.1.toStep fun n hn hn' => hrest (List.mem_append_left _ hn) hn'
    have hthen₃ := h₂.2.step h₃.1.toStep fun n hn hn' =>
      hrest (List.mem_append_right _ hn) hn'
    exact ⟨(h₁.1.trans h₂.1).trans h₃.1, .ifElse hcondition
      (hs.surrounds.scopes ▸ henters.branchOf) hthen₃
      (hs.surrounds.scopes ▸ henters'.branchOf) h₃.2⟩
  | .loop node condition body, _, _, _, _, _, _, _, hn, h, hr, hids => by
    obtain ⟨inner, henters, hbody⟩ := hn
    obtain ⟨outer', hinner⟩ := h.branch hs.surrounds.sound henters
    rw [Stmt.exprIds_loop] at hids ⊢
    rw [List.nodup_append'] at hids
    rw [checkStmt, hs.surrounds.scopes, branchScope_eq henters, Outlook.stmtFits, usesOfStmt,
      Bool.and_eq_true]
    refine (decides_checkCondition hs h hr condition hids.1 _).bind fun _ t₁ _ h₁ => ?_
    refine (decides_checkStmt hs body true hbody hinner h₁.1.ready hids.2.1).mono
      fun _ t₂ _ h₂ => ?_
    have hcondition := h₁.2.step h₂.1.toStep hids.2.2
    exact ⟨h₁.1.trans h₂.1,
      .loop hcondition (hs.surrounds.scopes ▸ henters.branchOf) h₂.2⟩
  | .breakLoop node, inLoop, _, _, _, _, _, _, hn, _, hr, _ => by
    obtain rfl := hn
    rw [checkStmt, Outlook.stmtFits, usesOfStmt]
    refine (decides_require ..).mono fun _ _ hloop ht => ?_
    subst hloop ht
    exact ⟨hr.passed, .breakLoop⟩
  | .continueLoop node, inLoop, _, _, _, _, _, _, hn, _, hr, _ => by
    obtain rfl := hn
    rw [checkStmt, Outlook.stmtFits, usesOfStmt]
    refine (decides_require ..).mono fun _ _ hloop ht => ?_
    subst hloop ht
    exact ⟨hr.passed, .continueLoop⟩
  | .block node stmts, inLoop, _, _, _, _, _, _, hn, h, hr, hids => by
    obtain ⟨inner, hopens, hstmts⟩ := hn
    rw [checkStmt, hs.surrounds.scopes, blockScope_eq hopens.get?, Outlook.stmtFits, usesOfStmt]
    refine (decides_checkStmts hs stmts inLoop hstmts (h.block hs.surrounds.sound hopens) hr
      hids).mono fun _ t₁ _ h₁ => ?_
    exact ⟨h₁.1, .block (hs.surrounds.scopes ▸ hopens.toBlockOf) h₁.2⟩
  | .declare node type name none, _, _, _, _, _, _, _, hn, _, hr, _ => by
    obtain ⟨rfl, s, hlocal⟩ := hn
    rw [checkStmt, Outlook.stmtFits, usesOfStmt]
    refine (decides_enterLocal hs hr hlocal).bind_of_true fun id t₁ h₁ => ?_
    refine (decides_pure ⟨h₁.1, .declare ⟨s, _, ?_, hlocal.kind⟩⟩).congr (by simp)
    rw [hs.surrounds.scopes]
    exact hlocal.get?
  | .declare node type name (some value), _, _, _, _, _, _, _, hn, h, hr, hids => by
    obtain ⟨rfl, s, hlocal⟩ := hn
    rw [checkStmt, Outlook.stmtFits, usesOfStmt, Option.all_some]
    refine (decides_enterLocal hs hr hlocal).bind_of_true fun id t₁ h₁ => ?_
    obtain ⟨h₁, hmeans, rfl⟩ := h₁
    -- the local is in view in its own initial value
    refine (decides_checkValue hs (h.declare hs.surrounds.sound hlocal) h₁.ready value hids hmeans
      _ _).mono fun _ t₂ _ h₂ => ?_
    obtain ⟨h₂, actual, hvalue, hsub⟩ := h₂
    refine ⟨h₁.trans h₂, .declareValue ?_ hlocal.kind hvalue hsub⟩
    rw [hs.surrounds.scopes]
    exact hlocal.get?

theorem decides_checkStmts (hs : Sees p d env o) :
    ∀ (ss : List Stmt) (inLoop : Bool) {scope : ScopeId} {n n' : Nat} {outer : List ScopeId}
      {frames : List Frame} {t : Typing}, d.scopes.NumberedList d.types lo scope ss n n' →
      Stack d env lo n scope outer frames → Ready d env o n t →
      (Stmt.exprIdsOfList ss).Nodup →
      Decides (o.stmtsFit inLoop frames ss = true) (checkStmts env inLoop scope ss) t fun _ t' =>
        Passed d env o n' (Stmt.exprIdsOfList ss) (usesOfStmts o.fieldsInView frames ss) t t' ∧
          WellTypedList t' env inLoop scope ss
  | [], _, _, _, _, _, _, _, hn, _, hr, _ => by
    obtain rfl := hn
    rw [checkStmts, Outlook.stmtsFit, usesOfStmts]
    exact ⟨rfl, hr.passed, .nil⟩
  | s :: ss, inLoop, _, _, _, _, _, _, hn, h, hr, hids => by
    obtain ⟨mid, hfirst, hrest⟩ := hn
    rw [Stmt.exprIdsOfList_cons] at hids ⊢
    rw [List.nodup_append'] at hids
    rw [checkStmts, Outlook.stmtsFit, usesOfStmts, Bool.and_eq_true]
    refine (decides_checkStmt hs s inLoop hfirst h hr hids.1).bind fun _ t₁ _ h₁ => ?_
    refine (decides_checkStmts hs ss inLoop hrest (Stack.stmt hs.surrounds.sound s hfirst h)
      h₁.1.ready hids.2.1).mono fun _ t₂ _ h₂ => ?_
    have hs₂ := h₁.2.step h₂.1.toStep hids.2.2
    exact ⟨h₁.1.trans h₂.1, .cons hs₂ h₂.2⟩

end

end

/-! ## Programs -/

section

variable {p : Program} {d : Definition} {k : ScopeId} {i : Nat} {c : ClassDecl} {t : Typing}

/-- The classes around the methods of a class are those that the text gives. -/
theorem surrounds_of_defined (h : Defined p d)
    (hfilled : ClassesFilled p.classes p.classes k d) {before after : List ClassDecl}
    (hp : p.classes = before ++ c :: after) (hi : i = before.length) {owner parent : ScopeId}
    (hclass : ClassOf d c (classId i) owner parent) (isStatic : Bool)
    (returnType : TypeId) :
    Surrounds d ⟨d.scopes, classId i, owner, isStatic, returnType⟩
      (c :: c.superclasses before) := by
  have hget : p.classes[i]? = some c := by simp [hp, hi]
  have htake : p.classes.take i = before := by rw [hp, hi, List.take_left]
  refine ⟨rfl, h.sound, h.isGlobal, h.upToGlobal hget hclass, ?_⟩
  obtain ⟨owner', parent', _, hc, hfit⟩ := hfilled.filled i c hget
  obtain rfl : owner' = owner := Option.some.inj (hc.get?.symm.trans hclass.get?)
  have hall : ClassesFilled (p.classes ++ []) p.classes k d := by
    rw [List.append_nil]
    exact hfilled
  have hget' : (p.classes ++ [])[i]? = some c := by
    rw [List.append_nil]
    exact hget
  have habove := hall.above hget' (Nat.le_of_lt (List.getElem?_eq_some_iff.mp hget).1) hc.liesIn
  rw [List.append_nil, htake] at habove
  rw [htake] at hfit
  exact ⟨classId i, parent', hc, hfit, habove⟩

/-- What a body sees of the program is what the text says. -/
theorem sees_of_defined (h : Defined p d) (hfilled : ClassesFilled p.classes p.classes k d)
    (hi : p.classes[i]? = some c) {owner parent : ScopeId}
    (hclass : ClassOf d c (classId i) owner parent) (m : MethodDecl) (returnType : TypeId) :
    Sees p d ⟨d.scopes, classId i, owner, m.isStatic, returnType⟩ (p.outlook c m) := by
  have hsurrounds : ∀ {j : Nat} {b : ClassDecl} {owner parent : ScopeId},
      p.classes[j]? = some b → ClassOf d b (classId j) owner parent →
      Surrounds d ⟨d.scopes, classId j, owner, m.isStatic, returnType⟩
        (p.lineage b.name.name) := by
    intro j b owner parent hj hb
    rw [h.table.lineage_eq hj]
    have hlength : j = (p.classes.take j).length := by
      rw [List.length_take, Nat.min_eq_left (Nat.le_of_lt (List.getElem?_eq_some_iff.mp hj).1)]
    exact surrounds_of_defined h hfilled (eq_append_cons_of_getElem? hj) hlength hb _ _
  refine ⟨h.table, rfl, rfl, h.table.class? i c hi, hsurrounds hi hclass, ?_⟩
  intro name id hid
  obtain ⟨j, b, hj, rfl, rfl⟩ := h.table.of_class? hid
  obtain ⟨owner', parent', hb⟩ := h.classOf j b hj
  exact ⟨owner', hb.get?, (hsurrounds hj hb).above⟩

theorem decides_checkMethod (h : Defined p d) (hfilled : ClassesFilled p.classes p.classes k d)
    (hi : p.classes[i]? = some c) {m : MethodDecl} (hm : m ∈ c.methods) (hkind : m.kind ≠ .library)
    (ht : d.types.Extends t.types) (hids : (Stmt.exprIdsOfList m.body).Nodup) :
    Decides (p.bodyFits c m = true) (checkMethod d.scopes c m) t fun _ t' =>
      Work d (Stmt.exprIdsOfList m.body) p.uses t t' ∧ MethodTyped t' d i c m := by
  obtain ⟨owner, parent, hclass⟩ := h.classOf i c hi
  obtain ⟨scope, hmethod, hvars⟩ := hclass.methods m hm
  obtain ⟨n, hbody⟩ := hvars.body
  have htable := h.table.extend ht
  unfold checkMethod classScope
  rw [decides_get]
  refine decides_promised_bind (htable.class? i c hi) ?_
  rw [hclass.get?, pure_bind]
  refine decides_promised_bind hmethod.get? ?_
  -- the type of the result was resolved before
  have hknown : (p.outlook c m).knows m.returnType.base = true ↔ True := by
    obtain ⟨_, _, _, hc, _⟩ := hfilled.filled i c hi
    obtain ⟨s, hs⟩ := hc.holds.method m hm
    obtain ⟨sig, _, hresult, _⟩ := hs.type.extend ht
    obtain ⟨base, hbase, _⟩ := Option.bind_eq_some_iff.mp hresult
    rw [htable.knows_eq (o := p.outlook c m) rfl, hbase]
    simp
  refine Decides.bind_of_true
    ((Typing.decides_resolveType htable (o := p.outlook c m) rfl m.returnType).congr hknown)
    fun returnType t₁ h₁ => ?_
  rw [decides_modify]
  have hs := sees_of_defined h hfilled hi hclass m returnType
  have hstack : Stack d ⟨d.scopes, classId i, owner, m.isStatic, returnType⟩ scope 0 scope []
      [⟨.method m.id, m.params.map fun q => (q.name.name, q.type)⟩] :=
    ⟨hmethod.inside h.sound.symbols, by simp, pictures_method hvars hmethod.get?, trivial⟩
  have hready : Ready d ⟨d.scopes, classId i, owner, m.isStatic, returnType⟩ (p.outlook c m) 0
      { t₁ with visible := 0 } := ⟨ht.trans h₁.1.types, rfl, h₁.2⟩
  refine (decides_checkStmts hs m.body false hbody hstack hready hids).mono fun _ t₂ _ h₂ => ?_
  have hreset : Step [] t { t₁ with visible := 0 } :=
    ⟨h₁.1.types, h₁.1.exprTypes, h₁.1.references⟩
  have hreturns : MethodReturns t₂ d owner m scope returnType :=
    ⟨hmethod, h₂.1.types.denoted?_of_some h₁.2⟩
  refine ⟨(hreset.work.trans h₂.1.toWork).mono (fun _ hn => hn) fun u hu => ?_,
    owner, parent, scope, returnType, hclass, hreturns, h₂.2⟩
  have hclasses := eq_append_cons_of_getElem? hi
  have hlineage := h.table.lineage_eq hi
  unfold Program.uses
  rw [hclasses]
  refine usesOfMethod_subset hm hkind ?_
  rw [List.nil_append, ← hlineage]
  exact hu

theorem bodyExprIds_append (ms ms' : List MethodDecl) :
    bodyExprIds (ms ++ ms') = bodyExprIds ms ++ bodyExprIds ms' := List.flatMap_append

theorem decides_checkClass (h : Defined p d) (hfilled : ClassesFilled p.classes p.classes k d)
    (hi : p.classes[i]? = some c) (ht : d.types.Extends t.types)
    (hids : (bodyExprIds c.methods).Nodup) :
    Decides (∀ m ∈ c.methods, m.kind ≠ .library → p.bodyFits c m = true) (checkClass d.scopes c) t
      fun _ t' => Work d (bodyExprIds c.methods) p.uses t t' ∧
        ∀ m ∈ c.methods, m.kind ≠ .library → MethodTyped t' d i c m := by
  let bodies := c.methods.filter (·.kind ≠ .library)
  have hbodies : ∀ m, m ∈ bodies ↔ m ∈ c.methods ∧ m.kind ≠ .library := by simp [bodies]
  have hsub : (bodyExprIds bodies).Sublist (bodyExprIds c.methods) :=
    List.filter_sublist.flatMap _
  refine ((decides_forM (fun done t' => Work d (bodyExprIds done) p.uses t t' ∧
    ∀ m ∈ done, MethodTyped t' d i c m) (fun _ m => p.bodyFits c m = true) bodies ?_
    ⟨(Step.refl [] t).work.mono (by simp) (by simp), by simp⟩).congr ?_).mono ?_
  · rintro done m rest hsplit t₁ ⟨hwork, hdone⟩
    obtain ⟨hm, hkind⟩ := (hbodies m).mp (by simp [hsplit])
    have hnodup := hids.sublist hsub
    have hrest : bodyExprIds (m :: rest) = Stmt.exprIdsOfList m.body ++ bodyExprIds rest := rfl
    rw [hsplit, bodyExprIds_append, hrest, List.nodup_append', List.nodup_append'] at hnodup
    refine (decides_checkMethod h hfilled hi hm hkind (ht.trans hwork.types) hnodup.2.1.1).mono ?_
    rintro _ t₂ _ ⟨hwork₂, htyped⟩
    refine ⟨(hwork.trans hwork₂).mono (by simp [bodyExprIds]) (by simp), fun m' hm' => ?_⟩
    rcases List.mem_append.mp hm' with hm' | hm'
    · refine (hdone m' hm').step hwork₂.toStep fun n hn hn' => ?_
      exact hnodup.2.2 (List.mem_flatMap.mpr ⟨m', hm', hn⟩) (List.mem_append_left _ hn')
    · rw [List.mem_singleton.mp hm']
      exact htyped
  · rw [eachAfter_iff_forall]
    simp only [hbodies, and_imp]
  · rintro _ t' _ ⟨hwork, htyped⟩
    exact ⟨hwork.mono hsub.subset (fun _ hu => hu),
      fun m hm hkind => htyped m ((hbodies m).mpr ⟨hm, hkind⟩)⟩

theorem decides_checkProgram (h : Defined p d) (hfilled : ClassesFilled p.classes p.classes k d)
    (hp : p.DistinctNodes) (ht : d.types.Extends t.types) (hscopes : t.scopes = d.scopes) :
    Decides p.WellTyped (checkProgram p) t fun _ t' =>
      Work d (bodyExprIds p.methods) p.uses t t' ∧ BodiesTyped t' d p.classes := by
  unfold checkProgram
  rw [decides_get, hscopes]
  have hids : (bodyExprIds p.methods).Nodup := by
    have := hp.exprs
    rwa [Program.exprs, List.map_flatMap] at this
  refine (decides_forM (fun done t' => Work d (bodyExprIds (Program.mk done).methods) p.uses t t' ∧
    BodiesTyped t' d done)
    (fun _ c => ∀ m ∈ c.methods, m.kind ≠ .library → p.bodyFits c m = true) p.classes ?_
    ⟨(Step.refl [] t).work.mono (by simp) (by simp), by simp [BodiesTyped]⟩).congr
    eachAfter_iff_forall
  rintro done c rest hclasses t₁ ⟨hwork, hdone⟩
  have hi : p.classes[done.length]? = some c := by simp [hclasses]
  have hmethods : p.methods =
      (Program.mk done).methods ++ (c.methods ++ (Program.mk rest).methods) := by
    simp [Program.methods, hclasses]
  rw [hmethods, bodyExprIds_append, bodyExprIds_append, List.nodup_append',
    List.nodup_append'] at hids
  refine (decides_checkClass h hfilled hi (ht.trans hwork.types) hids.2.1.1).mono ?_
  rintro _ t₂ _ ⟨hwork₂, hc⟩
  refine ⟨(hwork.trans hwork₂).mono ?_ (by simp), fun i c' hi' m hm hkind => ?_⟩
  · have hsnoc : (Program.mk (done ++ [c])).methods = (Program.mk done).methods ++ c.methods := by
      simp [Program.methods]
    rw [hsnoc, bodyExprIds_append]
    exact fun _ hn => hn
  · rcases Nat.lt_or_ge i done.length with hlt | hge
    · rw [List.getElem?_append_left hlt] at hi'
      refine (hdone i c' hi' m hm hkind).step hwork₂.toStep fun n hn hn' => ?_
      have hmem : m ∈ (Program.mk done).methods :=
        List.mem_flatMap.mpr ⟨c', List.mem_of_getElem? hi', hm⟩
      exact hids.2.2 (List.mem_flatMap.mpr ⟨m, hmem, hn⟩) (List.mem_append_left _ hn')
    · rw [List.getElem?_append_right hge, List.getElem?_singleton] at hi'
      split at hi'
      · next hzero =>
        obtain rfl := Option.some.inj hi'
        obtain rfl : i = done.length := by omega
        exact hc m hm hkind
      · simp at hi'

end

end Typing

end IcLir
