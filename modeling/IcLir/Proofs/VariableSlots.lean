import IcLir.Proofs.DefinitionRules
import IcLir.Proofs.FreshLabels
import IcLir.Proofs.ProgramCode
import IcLir.Proofs.TypeSafety
import Mathlib.Data.List.Intervals
import Mathlib.Data.List.Nodup

/-
  The slots of variables. A slot is named by the name of a variable followed by the depth of its
  scope, with nothing between them. The variables of a method are its parameters and all locals
  of its body (`MethodDecl.vars`); no two of them have both scope and name in common, since
  the locals are numbered one by one. On the way inward the depth grows (`ScopeTree.Beneath`), so
  two variables that are in view together share a slot exactly if the name further out goes on
  with the first digits of the depth further in (`TakesDigits`).
-/

namespace IcLir

open Lowering

/-! ## Names of slots -/

theorem length_toDigits_mono {n n' : Nat} (h : n ≤ n') :
    (Nat.toDigits 10 n).length ≤ (Nat.toDigits 10 n').length := by
  have hlt : n' < 10 ^ (Nat.toDigits 10 n').length :=
    (Nat.length_toDigits_le_iff (by decide) Nat.length_toDigits_pos).mp (Nat.le_refl _)
  exact (Nat.length_toDigits_le_iff (by decide) Nat.length_toDigits_pos).mpr
    (Nat.lt_of_le_of_lt h hlt)

/-- The name `outer` is `inner` with the first digits of `depth'`, and the others are those of
    `depth`. -/
def TakesDigits (outer : String) (depth : Nat) (inner : String) (depth' : Nat) : Prop :=
  ∃ digits, digits ≠ "" ∧ outer = inner ++ digits ∧ toString depth' = digits ++ toString depth

theorem toList_slotName (name : String) (depth : Nat) :
    (slotName name depth).toList = name.toList ++ Nat.toDigits 10 depth := by
  simp [slotName, toString]

/-- The name of a slot can be cut in one place only, unless the shallower of two variables takes
    digits from the deeper one. -/
theorem slotName_eq_iff {outer inner : String} {depth depth' : Nat} (h : depth ≤ depth') :
    slotName outer depth = slotName inner depth' ↔
      outer = inner ∧ depth = depth' ∨ TakesDigits outer depth inner depth' := by
  rw [← String.toList_inj, toList_slotName, toList_slotName]
  constructor
  · intro heq
    rcases List.append_eq_append_iff.mp heq with ⟨rest, hname, hdigits⟩ | ⟨rest, hname, hdigits⟩
    · -- the deeper number would be the shorter one
      have hlength := congrArg List.length hdigits
      have hmono := length_toDigits_mono h
      rw [List.length_append] at hlength
      obtain rfl : rest = [] := List.eq_nil_of_length_eq_zero (by omega)
      rw [List.append_nil, String.toList_inj] at hname
      refine .inl ⟨hname.symm, Nat.repr_inj.mp ?_⟩
      rw [← String.toList_inj]
      simpa using hdigits
    · by_cases hrest : rest = []
      · subst hrest
        rw [List.append_nil, String.toList_inj] at hname
        refine .inl ⟨hname, Nat.repr_inj.mp ?_⟩
        rw [← String.toList_inj]
        simpa using hdigits.symm
      · refine .inr ⟨String.ofList rest, by simpa using hrest, ?_, ?_⟩
        · rw [← String.toList_inj]
          simpa using hname
        · rw [← String.toList_inj]
          simpa using hdigits
  · intro heq
    rcases heq with ⟨rfl, rfl⟩ | ⟨digits, _, rfl, hdigits⟩
    · rfl
    · have hlist := congrArg String.toList hdigits
      rw [String.toList_append, List.append_assoc]
      simpa using hlist.symm

/-! ## The variables of a method -/

/-- A variable is known by its scope and its name. -/
@[ext] structure Variable where
  scope : ScopeId
  name : String
deriving DecidableEq

/-- The slot of a variable. -/
def Context.slot (c : Context) (v : Variable) : String := slotName v.name (c.scopes.depth v.scope)

/-- The variable that is declared by a statement in its scope. -/
def Variable.declared? (place : ScopeId × Stmt) : Option Variable :=
  place.2.declaredName?.map (Variable.mk place.1)

namespace Stmt

/-- The variables that are declared in a statement. -/
def vars (t : ScopeTree) (scope : ScopeId) (s : Stmt) : List Variable :=
  (s.places t scope).filterMap Variable.declared?

def varsOfList (t : ScopeTree) (scope : ScopeId) (ss : List Stmt) : List Variable :=
  (placesOfList t scope ss).filterMap Variable.declared?

section

variable (t : ScopeTree) (scope : ScopeId) (node : Node) (condition : Expr)

theorem vars_block (stmts : List Stmt) :
    (block node stmts).vars t scope =
      varsOfList t ((t.blockScopes.get? node.id).getD scope) stmts := by
  rw [vars, places]
  rfl

theorem vars_ifThen (body : Stmt) :
    (ifThen node condition body).vars t scope =
      body.vars t ((t.branchScope? scope body).getD scope) := by
  rw [vars, places]
  rfl

theorem vars_loop (body : Stmt) :
    (loop node condition body).vars t scope =
      body.vars t ((t.branchScope? scope body).getD scope) := by
  rw [vars, places]
  rfl

theorem vars_ifElse (thenBranch elseBranch : Stmt) :
    (ifElse node condition thenBranch elseBranch).vars t scope =
      thenBranch.vars t ((t.branchScope? scope thenBranch).getD scope) ++
        elseBranch.vars t ((t.branchScope? scope elseBranch).getD scope) := by
  rw [vars, places]
  exact List.filterMap_append

theorem varsOfList_cons (s : Stmt) (ss : List Stmt) :
    varsOfList t scope (s :: ss) = s.vars t scope ++ varsOfList t scope ss := by
  rw [varsOfList, placesOfList]
  exact List.filterMap_append

end

end Stmt

/-- The parameters of a method with the scope `scope`, and the locals of its body. -/
def MethodDecl.vars (t : ScopeTree) (scope : ScopeId) (m : MethodDecl) : List Variable :=
  m.paramNames.map (Variable.mk scope) ++ Stmt.varsOfList t scope m.body

/-! ## No variable occurs twice -/

def SymbolKind.ordinal? : SymbolKind → Option Nat
  | .localVar ordinal => some ordinal
  | .className | .field | .method _ | .parameter => none

namespace ScopeTree

variable {t : ScopeTree} {types : TypeTable} {lo : ScopeId}

/-- The number of a local. -/
def ordinal? (t : ScopeTree) (v : Variable) : Option Nat :=
  ((t.scope v.scope).get? v.name).bind (·.kind.ordinal?)

theorem EntersAt.branchScope?_eq {scope inner : ScopeId} {body : Stmt} {n : Nat}
    (h : t.EntersAt scope body n inner) : t.branchScope? scope body = some inner := by
  refine BranchOf.branchScope?_eq ?_
  unfold EntersAt at h
  unfold BranchOf
  split at h
  · next hd => exact (if_pos hd).mpr h.toBlockOf
  · next hd => exact (if_neg hd).mpr h

mutual

/-- The locals of a statement have the numbers that are handed out to them, in this order. -/
theorem Numbered.map_ordinal? :
    ∀ (s : Stmt) {scope : ScopeId} {n n' : Nat}, t.Numbered types lo scope s n n' →
      (s.vars t scope).map t.ordinal? = (List.Ico n n').map some
  | .declare _ _ name _, _, n, _, h => by
    obtain ⟨rfl, s, hs⟩ := h
    simp [Stmt.vars, Stmt.places, Variable.declared?, Stmt.declaredName?, ordinal?, hs.get?,
      hs.kind, SymbolKind.ordinal?, List.Ico.succ_singleton]
  | .block _ stmts, _, _, _, h => by
    obtain ⟨inner, hb, hs⟩ := h
    rw [Stmt.vars_block, hb.get?]
    exact NumberedList.map_ordinal? stmts hs
  | .ifThen _ _ body, _, _, _, h => by
    obtain ⟨inner, hb, hs⟩ := h
    rw [Stmt.vars_ifThen, hb.branchScope?_eq]
    exact Numbered.map_ordinal? body hs
  | .loop _ _ body, _, _, _, h => by
    obtain ⟨inner, hb, hs⟩ := h
    rw [Stmt.vars_loop, hb.branchScope?_eq]
    exact Numbered.map_ordinal? body hs
  | .ifElse _ _ thenBranch elseBranch, _, _, _, h => by
    obtain ⟨mid, ⟨inner, hb, hthen⟩, inner', hb', helse⟩ := h
    rw [Stmt.vars_ifElse, hb.branchScope?_eq, hb'.branchScope?_eq, List.map_append,
      ← List.Ico.append_consecutive (Numbered.le thenBranch hthen) (Numbered.le elseBranch helse),
      List.map_append]
    exact congrArg₂ (· ++ ·) (Numbered.map_ordinal? thenBranch hthen)
      (Numbered.map_ordinal? elseBranch helse)
  | .assign .., _, n, _, h | .call .., _, n, _, h | .ret .., _, n, _, h | .breakLoop _, _, n, _, h
  | .continueLoop _, _, n, _, h => by
    obtain rfl := h
    simp [Stmt.vars, Stmt.places, Variable.declared?, Stmt.declaredName?]

theorem NumberedList.map_ordinal? :
    ∀ (ss : List Stmt) {scope : ScopeId} {n n' : Nat}, t.NumberedList types lo scope ss n n' →
      (Stmt.varsOfList t scope ss).map t.ordinal? = (List.Ico n n').map some
  | [], _, n, _, h => by
    obtain rfl := h
    simp [Stmt.varsOfList, Stmt.placesOfList]
  | s :: ss, _, _, _, h => by
    obtain ⟨mid, hs, hss⟩ := h
    rw [Stmt.varsOfList_cons, List.map_append,
      ← List.Ico.append_consecutive (Numbered.le s hs) (NumberedList.le ss hss), List.map_append]
    exact congrArg₂ (· ++ ·) (Numbered.map_ordinal? s hs) (NumberedList.map_ordinal? ss hss)

end

end ScopeTree

/-- The names of the parameters are different, and a parameter has no number. -/
theorem Definition.HasVars.nodup_vars {d : Definition} {m : MethodDecl} {scope : ScopeId}
    (h : HasVars d m scope) (hparams : m.paramNames.Nodup) :
    (m.vars d.scopes scope).Nodup := by
  obtain ⟨n, hbody⟩ := h.body
  have hordinals := ScopeTree.NumberedList.map_ordinal? m.body hbody
  have hsome : ∀ v ∈ Stmt.varsOfList d.scopes scope m.body, (d.scopes.ordinal? v).isSome := by
    intro v hv
    have hmem : d.scopes.ordinal? v ∈ (List.Ico 0 n).map some :=
      hordinals ▸ List.mem_map_of_mem hv
    obtain ⟨ordinal, _, heq⟩ := List.mem_map.mp hmem
    rw [← heq]
    rfl
  refine List.nodup_append.mpr ⟨?_, ?_, ?_⟩
  · refine List.Nodup.map (fun name name' heq => ?_) hparams
    exact (Variable.mk.inj heq).2
  · have hnodup : ((Stmt.varsOfList d.scopes scope m.body).map d.scopes.ordinal?).Nodup := by
      rw [hordinals]
      exact List.Nodup.map (fun _ _ => Option.some.inj) (List.Ico.nodup 0 n)
    exact hnodup.of_map
  · rintro v hv w hw rfl
    obtain ⟨name, hname, rfl⟩ := List.mem_map.mp hv
    obtain ⟨q, hq, rfl⟩ := List.mem_map.mp hname
    obtain ⟨s, hs⟩ := h.param q hq
    have hnone := hsome _ hw
    simp [ScopeTree.ordinal?, hs.get?, hs.kind, SymbolKind.ordinal?] at hnone

/-! ## Depth grows inward -/

namespace ScopeTree

variable {t : ScopeTree} {lo scope inner : ScopeId}

/-- `inner` lies within the method with scope `lo`, deeper than the scopes of the method around
    it. -/
structure Beneath (t : ScopeTree) (lo inner : ScopeId) : Prop where
  le : lo ≤ inner
  depth_lt : ∀ j ∈ t.path inner, lo ≤ j → j ≠ inner → t.depth j < t.depth inner

/-- Around the scope of a method are older scopes only. -/
theorem beneath_self (ho : t.Ordered) (scope : ScopeId) : t.Beneath scope scope := by
  refine ⟨Nat.le_refl _, fun j hj hle hne => ?_⟩
  have hlt := ho scope j ((List.mem_cons.mp hj).resolve_left hne)
  exact absurd hlt (Nat.not_lt.mpr hle)

theorem Beneath.block {node : NodeId} (h : t.Beneath lo scope) (hb : t.BlockOf scope node inner)
    (ho : t.Ordered) : t.Beneath lo inner := by
  have hscope : scope ∈ (t.scope inner).enclosing := by
    rw [hb.enclosing]
    exact List.mem_cons_self
  have hdepth : t.depth inner = t.depth scope + 1 := hb.depth
  refine ⟨Nat.le_of_lt (Nat.lt_of_le_of_lt h.le (ho inner scope hscope)), fun j hj hle hne => ?_⟩
  have hj : j ∈ t.path scope := hb.enclosing ▸ (List.mem_cons.mp hj).resolve_left hne
  by_cases hself : j = scope
  · rw [hself]
    omega
  · have := h.depth_lt j hj hle hself
    omega

theorem Beneath.branch {body : Stmt} (h : t.Beneath lo scope) (hb : t.BranchOf scope body inner)
    (ho : t.Ordered) : t.Beneath lo inner := by
  unfold BranchOf at hb
  split at hb
  · exact h.block hb ho
  · exact hb ▸ h

mutual

theorem Scoped.beneath_of_mem_places (ho : t.Ordered) :
    ∀ (s : Stmt) {scope : ScopeId}, t.Scoped scope s → t.Beneath lo scope →
      ∀ x ∈ s.places t scope, t.Beneath lo x.1
  | .declare .., _, _, h, x, hx | .assign .., _, _, h, x, hx | .call .., _, _, h, x, hx
  | .ret .., _, _, h, x, hx | .breakLoop _, _, _, h, x, hx | .continueLoop _, _, _, h, x, hx => by
    rw [Stmt.places] at hx
    rw [List.mem_singleton.mp hx]
    exact h
  | .block _ stmts, _, hs, h, x, hx => by
    obtain ⟨inner, hb, hs⟩ := hs
    rw [Stmt.places, hb.get?] at hx
    rcases List.mem_cons.mp hx with rfl | hx
    · exact h
    · exact ScopedList.beneath_of_mem_places ho stmts hs (h.block hb ho) x hx
  | .ifThen _ _ body, _, hs, h, x, hx | .loop _ _ body, _, hs, h, x, hx => by
    obtain ⟨inner, hb, hs⟩ := hs
    rw [Stmt.places, hb.branchScope?_eq] at hx
    rcases List.mem_cons.mp hx with rfl | hx
    · exact h
    · exact Scoped.beneath_of_mem_places ho body hs (h.branch hb ho) x hx
  | .ifElse _ _ thenBranch elseBranch, _, hs, h, x, hx => by
    obtain ⟨⟨inner, hb, hthen⟩, inner', hb', helse⟩ := hs
    rw [Stmt.places, hb.branchScope?_eq, hb'.branchScope?_eq] at hx
    rcases List.mem_cons.mp hx with rfl | hx
    · exact h
    · rcases List.mem_append.mp hx with hx | hx
      · exact Scoped.beneath_of_mem_places ho thenBranch hthen (h.branch hb ho) x hx
      · exact Scoped.beneath_of_mem_places ho elseBranch helse (h.branch hb' ho) x hx

theorem ScopedList.beneath_of_mem_places (ho : t.Ordered) :
    ∀ (ss : List Stmt) {scope : ScopeId}, t.ScopedList scope ss → t.Beneath lo scope →
      ∀ x ∈ Stmt.placesOfList t scope ss, t.Beneath lo x.1
  | [], _, _, _, x, hx => by
    rw [Stmt.placesOfList] at hx
    exact absurd hx List.not_mem_nil
  | s :: ss, _, hs, h, x, hx => by
    rw [Stmt.placesOfList] at hx
    rcases List.mem_append.mp hx with hx | hx
    · exact Scoped.beneath_of_mem_places ho s hs.1 h x hx
    · exact ScopedList.beneath_of_mem_places ho ss hs.2 h x hx

end

theorem MethodOf.beneath_of_mem_vars {owner : ScopeId} {m : MethodDecl}
    (h : t.MethodOf owner m scope) (ho : t.Ordered) {v : Variable}
    (hv : v ∈ m.vars t scope) : t.Beneath scope v.scope := by
  rcases List.mem_append.mp hv with hv | hv
  · obtain ⟨name, _, rfl⟩ := List.mem_map.mp hv
    exact beneath_self ho scope
  · obtain ⟨x, hx, hdeclared⟩ := List.mem_filterMap.mp hv
    obtain ⟨name, _, rfl⟩ := Option.map_eq_some_iff.mp hdeclared
    exact ScopedList.beneath_of_mem_places ho m.body h.body (beneath_self ho scope) x hx

end ScopeTree

/-! ## Initial values -/

section

variable {env : LowerEnv} {place : ScopeId} {node : Node} {type : TypeExpr} {name : Ident}
  {value : Expr}

mutual

/-- The code of a statement stores each initial value in the slot of its variable. -/
theorem Lowering.LoweredStmt.exists_store (hs : LoweredStmt env loops scope stmt s code s')
    (hx : (place, .declare node type name (some value)) ∈ stmt.places env.context.scopes scope) :
    ∃ source, .instr (.move source (env.slot place name.name)) ∈ code := by
  match hs with
  | .assign .. | .call .. | .retNothing | .retValue .. | .breakLoop _ | .continueLoop _
  | .declare =>
    simp [Stmt.places] at hx
  | .ifThen _ hb hbody | .loop _ hb hbody =>
    rw [Stmt.places, hb] at hx
    obtain ⟨source, hstore⟩ := hbody.exists_store ((List.mem_cons.mp hx).resolve_left (by simp))
    exact ⟨source, by simp [hstore]⟩
  | .ifElse _ hb hthen hb' helse =>
    rw [Stmt.places, hb, hb'] at hx
    rcases List.mem_append.mp ((List.mem_cons.mp hx).resolve_left (by simp)) with hx | hx
    · obtain ⟨source, hstore⟩ := hthen.exists_store hx
      exact ⟨source, by simp [hstore]⟩
    · obtain ⟨source, hstore⟩ := helse.exists_store hx
      exact ⟨source, by simp [hstore]⟩
  | .block hb hstmts =>
    rw [Stmt.places, hb] at hx
    exact hstmts.exists_store ((List.mem_cons.mp hx).resolve_left (by simp))
  | .declareValue _ =>
    rw [Stmt.places] at hx
    obtain ⟨rfl, heq⟩ := Prod.mk.inj (List.mem_singleton.mp hx)
    obtain ⟨_, _, rfl, _⟩ := Stmt.declare.inj heq
    exact ⟨_, List.mem_append_right _ (List.mem_singleton_self _)⟩

theorem Lowering.LoweredStmts.exists_store (hs : LoweredStmts env loops scope stmts s code s')
    (hx : (place, .declare node type name (some value)) ∈ Stmt.placesOfList env.context.scopes scope
      stmts) : ∃ source, .instr (.move source (env.slot place name.name)) ∈ code := by
  match hs with
  | .nil => simp [Stmt.placesOfList] at hx
  | .cons hfirst hrest =>
    rw [Stmt.placesOfList] at hx
    rcases List.mem_append.mp hx with hx | hx
    · obtain ⟨source, hstore⟩ := hfirst.exists_store hx
      exact ⟨source, List.mem_append_left _ hstore⟩
    · obtain ⟨source, hstore⟩ := hrest.exists_store hx
      exact ⟨source, List.mem_append_right _ hstore⟩

end

theorem Lowering.Assembled.exists_store {c : Context} {strategy : Strategy} {p : Program}
    {a : Assembly} (ha : Assembled c strategy p a) {e : ClassDecl × MethodDecl}
    (he : e ∈ emitted p) {scope : ScopeId} (hscope : c.scopes.methodScopes.get? e.2.id = some scope)
    (hx : (place, .declare node type name (some value)) ∈
      Stmt.placesOfList c.scopes scope e.2.body) :
    ∃ source, .instr (.move source (.slot (c.slot ⟨place, name.name⟩))) ∈ a.code := by
  obtain ⟨r, hr, _, _, hlowered⟩ := ha.exists_routine he
  obtain ⟨_, scope', code, _, hscope', hcode, hbody⟩ := hlowered.body
  obtain rfl : scope = scope' := Option.some.inj (hscope.symm.trans hscope')
  obtain ⟨source, hstore⟩ := hcode.exists_store hx
  have hroutine : .instr (.move source (.slot (c.slot ⟨place, name.name⟩))) ∈ r.code := by
    refine List.mem_cons_of_mem _ ?_
    rw [hbody]
    exact List.mem_append_left _ hstore
  refine ⟨source, ?_⟩
  rw [a.code_eq]
  exact List.mem_append_left _ (List.mem_append_right _ (List.mem_flatMap.mpr ⟨r, hr, hroutine⟩))

end

/-! ## Shared slots -/

/-- The variable `v` is in view from the scope of `w`, so it lies no deeper. -/
theorem ScopeTree.MethodOf.slot_eq_iff {c : Context} {owner scope : ScopeId} {m : MethodDecl}
    (h : c.scopes.MethodOf owner m scope) (ho : c.scopes.Ordered) {v w : Variable}
    (hv : v ∈ m.vars c.scopes scope) (hw : w ∈ m.vars c.scopes scope) (hne : v ≠ w)
    (hpath : v.scope ∈ c.scopes.path w.scope) :
    c.slot v = c.slot w ↔
      TakesDigits v.name (c.scopes.depth v.scope) w.name (c.scopes.depth w.scope) := by
  have hbeneath := h.beneath_of_mem_vars ho hv
  have hbeneath' := h.beneath_of_mem_vars ho hw
  have hlt : v.scope ≠ w.scope → c.scopes.depth v.scope < c.scopes.depth w.scope :=
    hbeneath'.depth_lt v.scope hpath hbeneath.le
  have hle : c.scopes.depth v.scope ≤ c.scopes.depth w.scope := by
    by_cases hscope : v.scope = w.scope
    · exact Nat.le_of_eq (congrArg c.scopes.depth hscope)
    · exact Nat.le_of_lt (hlt hscope)
  unfold Context.slot
  rw [slotName_eq_iff hle]
  refine ⟨fun heq => heq.resolve_left fun hsame => ?_, .inr⟩
  have hscope : v.scope = w.scope := by
    by_contra hscope
    have := hlt hscope
    omega
  exact hne (Variable.ext hscope hsame.1)

theorem wellFormed_of_analyzed {options : Options} {p : Program} {c : Context}
    (h : analyzed options p = .ok c) : p.WellFormed options.entryMethod := by
  obtain ⟨_, _, hdefine, _⟩ := exists_stages_of_analyzed h
  exact ((Definition.decides_define p options).of_ok hdefine).1

/-- The code stores the initial values of locals in their slots. Two variables of a method that
    are in view together share a slot exactly if the name of the one further out is the name of
    the other with the first digits of its depth. -/
theorem variables_share_a_slot_iff {p : Program} (hp : p.DistinctNodes) {options : Options}
    {r : Compilation} (h : compile options p = .ok r) {m : MethodDecl} (hm : m ∈ p.methods) :
    ∃ c a scope, analyzed options p = .ok c ∧ c.generate options.strategy p = .ok a ∧
      r.lir = a.render ∧ c.scopes.methodScopes.get? m.id = some scope ∧
      (m.kind ≠ .library → ∀ place node type name value,
        (place, .declare node type name (some value)) ∈ Stmt.placesOfList c.scopes scope m.body →
        ∃ source, .instr (.move source (.slot (c.slot ⟨place, name.name⟩))) ∈ a.code) ∧
      (m.vars c.scopes scope).Nodup ∧
      ∀ v ∈ m.vars c.scopes scope, ∀ w ∈ m.vars c.scopes scope, v ≠ w →
        v.scope ∈ c.scopes.path w.scope →
        (c.slot v = c.slot w ↔
          TakesDigits v.name (c.scopes.depth v.scope) w.name (c.scopes.depth w.scope)) := by
  obtain ⟨c, a, hc, hgenerate, hlir⟩ := exists_generate_of_compile h
  have haccepts := accepts_of_analyzed hp hc
  have ha := haccepts.assembled hp hgenerate
  obtain ⟨k, hk, hmk⟩ := List.mem_flatMap.mp hm
  obtain ⟨i, hi⟩ := List.mem_iff_getElem?.mp hk
  obtain ⟨owner, _, hclass⟩ := haccepts.defined.classOf i k hi
  obtain ⟨scope, hmethod, hvars⟩ := hclass.methods m hmk
  have hnames := ((wellFormed_of_analyzed hc).methods m hm).names
  refine ⟨c, a, scope, hc, hgenerate, hlir, hmethod.get?, ?_,
    hvars.nodup_vars (List.nodup_append.mp hnames).1, ?_⟩
  · intro hkind place node type name value hx
    have he : (k, m) ∈ emitted p := mem_emitted.mpr ⟨hk, hmk, hkind⟩
    exact ha.exists_store he hmethod.get? hx
  · intro v hv w hw hne hpath
    exact hmethod.slot_eq_iff haccepts.defined.sound.ordered hv hw hne hpath

namespace Nesting

open Shapes

/-- Some statements in `n` blocks. -/
def nested (ss : List Stmt) : Nat → List Stmt
  | 0 => ss
  | n + 1 => [.block (node n) (nested ss n)]

/-- `static void main(string[] args) { int x1 = 1; {{{{{{{{{{ int x = 2; }}}}}}}}}} }` -/
def main : MethodDecl := mainOf 0 <|
  .declare (node 10) (type .int) (name "x1") (some (.literal (node 0) (.int 1))) ::
    nested [.declare (node 11) (type .int) (name "x") (some (.literal (node 1) (.int 2)))] 10

def program : Program := ⟨[⟨name "Main", none, [], [main]⟩]⟩

theorem distinctNodes : program.DistinctNodes := ⟨by decide, by decide, by decide⟩

/-- The code of the two declarations, where their variables have the slots `outer` and `inner`. -/
def stores (outer inner : String) : Code :=
  [.instr (.move (.int 1) (.r 0)), .instr (.move (.r 0) (.slot outer)),
    .instr (.move (.int 2) (.r 0)), .instr (.move (.r 0) (.slot inner))]

theorem exists_compile :
    ∃ r c a, compile {} program = .ok r ∧ analyzed {} program = .ok c ∧
      c.generate .baseline program = .ok a ∧ r.lir = a.render ∧
      c.scopes.methodScopes.get? main.id = some 2 ∧
      main.vars c.scopes 2 = [⟨2, "args"⟩, ⟨2, "x1"⟩, ⟨12, "x"⟩] ∧ 2 ∈ c.scopes.path 12 ∧
      c.slot ⟨2, "x1"⟩ = "x12" ∧ c.slot ⟨12, "x"⟩ = "x12" ∧
      stores "x12" "x12" <:+: a.code := by
  have hfacts : (assembled? {} program).any (fun x => decide (
      x.1.scopes.methodScopes.get? main.id = some 2 ∧
      main.vars x.1.scopes 2 = [⟨2, "args"⟩, ⟨2, "x1"⟩, ⟨12, "x"⟩] ∧ 2 ∈ x.1.scopes.path 12 ∧
      x.1.slot ⟨2, "x1"⟩ = "x12" ∧ x.1.slot ⟨12, "x"⟩ = "x12" ∧
      stores "x12" "x12" <:+: x.2.code)) = true := by
    decide +kernel
  obtain ⟨r, c, a, hr, hc, ha, hlir, hfacts⟩ := exists_compile_of_any hfacts
  exact ⟨r, c, a, hr, hc, ha, hlir, of_decide_eq_true hfacts⟩

end Nesting

/-- The parameter and the local in the innermost block have slots of their own. -/
theorem variables_share_a_slot_iff_nesting :
    ∃ r c, compile {} Nesting.program = .ok r ∧ analyzed {} Nesting.program = .ok c ∧
      2 ∈ c.scopes.path 12 ∧ c.slot ⟨2, "args"⟩ ≠ c.slot ⟨12, "x"⟩ := by
  obtain ⟨r, c, _, hr, hc, _, _, hscope, hvars, hpath, _⟩ := Nesting.exists_compile
  have hmain : Nesting.main ∈ Nesting.program.methods := List.mem_singleton_self _
  obtain ⟨c', _, scope, hc', _, _, hscope', _, _, hslots⟩ :=
    variables_share_a_slot_iff Nesting.distinctNodes hr hmain
  obtain rfl : c = c' := Except.ok.inj (hc.symm.trans hc')
  obtain rfl : 2 = scope := Option.some.inj (hscope.symm.trans hscope')
  refine ⟨r, c, hr, hc, hpath, fun heq => ?_⟩
  obtain ⟨digits, _, hname, _⟩ :=
    (hslots ⟨2, "args"⟩ (by simp [hvars]) ⟨12, "x"⟩ (by simp [hvars]) (by decide) hpath).mp heq
  simpa using congrArg String.toList hname

/-- The local `x1` of depth 2 and the local `x` of depth 12 share the slot `x12`. -/
theorem nested_locals_share_a_slot :
    ∃ r c a, compile {} Nesting.program = .ok r ∧ analyzed {} Nesting.program = .ok c ∧
      c.generate .baseline Nesting.program = .ok a ∧ r.lir = a.render ∧
      ⟨2, "x1"⟩ ∈ Nesting.main.vars c.scopes 2 ∧ ⟨12, "x"⟩ ∈ Nesting.main.vars c.scopes 2 ∧
      2 ∈ c.scopes.path 12 ∧ c.slot ⟨2, "x1"⟩ = c.slot ⟨12, "x"⟩ ∧
      Nesting.stores (c.slot ⟨2, "x1"⟩) (c.slot ⟨12, "x"⟩) <:+: a.code := by
  obtain ⟨r, c, a, hr, hc, ha, hlir, _, hvars, hpath, houter, hinner, hstores⟩ :=
    Nesting.exists_compile
  refine ⟨r, c, a, hr, hc, ha, hlir, by simp [hvars], by simp [hvars], hpath,
    houter.trans hinner.symm, ?_⟩
  rw [houter, hinner]
  exact hstores

end IcLir
