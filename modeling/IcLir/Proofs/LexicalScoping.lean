import IcLir.Proofs.CompileOutcome

/-
  Names are resolved by lexical scoping. Every reference that the typing stage notes is one that
  the walk with frames gives (`decides_checkProgram`). Each bare name of a well-typed body has an
  entry among the references, and no two nodes share one; so the entry of a bare name is what
  the walk binds it to.
-/

namespace IcLir

namespace Typing

open Pass Definition Lexical TypeTable

variable {p : Program} {env : MethodEnv} {t : Typing}

/-- A bare name of a well-typed body has an entry, which fixes its type. -/
theorem HasType.exists_reference {node : Node} {name : Ident} {type : TypeId}
    (h : HasType t env (.var node name) type) (hfit : env.scopes.SymbolsFit) :
    ∃ r s, t.references.get? node.id = some r ∧
      (env.scopes.scope r.scope).get? name.name = some s ∧ s.type = type := by
  cases h with
  | var hget _ href _ => exact ⟨_, _, href, hget, rfl⟩
  | ownField _ hmember _ href _ =>
    obtain ⟨j, _, _, hget⟩ := ScopeTree.mem_path_of_lookupMember hmember
    refine ⟨_, _, href, ?_, rfl⟩
    rw [Resolution.scope, (hfit j _ _ hget).scope_eq]
    exact hget

/-- Every node of a program that is a bare name is a use by itself. -/
theorem nodup_uses (hp : p.DistinctNodes) : (p.uses.map (·.node)).Nodup := by
  have hmap : p.uses.map (·.node) =
      ((bodyExprs p.methods).filterMap Expr.bareName?).map Prod.fst := by
    have hocc : p.uses.map Use.occurrence = (bodyExprs p.methods).filterMap Expr.bareName? :=
      occurrence_usesOfClasses [] p.classes
    rw [← hocc, List.map_map]
    rfl
  have hids : ∀ es : List Expr,
      ((es.filterMap Expr.bareName?).map Prod.fst).Sublist (es.map Expr.id) := by
    intro es
    induction es with
    | nil => exact .slnil
    | cons e es ih =>
      rw [List.filterMap_cons]
      cases he : e.bareName? with
      | none => exact ih.cons e.id
      | some x =>
        obtain ⟨node, name, rfl, rfl⟩ := Expr.bareName?_eq_some he
        exact ih.cons_cons node.id
  have hbodies : (bodyExprs p.methods).Sublist p.exprs := List.filter_sublist.flatMap _
  rw [hmap]
  exact hp.exprs.sublist ((hids _).trans (hbodies.map _))

end Typing

open Definition Typing Lexical

theorem exists_binding_of_check {p : Program} (hp : p.DistinctNodes) {options : Options}
    {c c' : Context} (hdefine : Context.define p (.initial options) = .ok () c)
    (hcheck : Context.check p c = .ok () c') {u : Use} (hu : u ∈ p.uses) :
    ∃ b r type, u.binding = some b ∧ b.meaning? c'.types c'.scopes = some (r, type) ∧
      c'.references.get? u.node = some r ∧ c'.exprTypes.get? u.node = some type := by
  have hdefined : Defined p c.definition := ((Context.meets_define hp options).of_ok hdefine).1
  obtain ⟨_, hdefined', _, htyped, _⟩ := (Context.decides_check_of_define hp hdefine).of_ok hcheck
  obtain ⟨t, ht, rfl⟩ := check_eq_ok_iff.mp hcheck
  obtain ⟨_, hwork, _⟩ := (decides_checkProgram hdefined (classesFilled_of_define hdefine) hp
    (t := c.typing) (.refl _) rfl).of_ok ht
  -- the node of the use has an entry, which fixes its type
  have hmem : u.occurrence ∈ (bodyExprs p.methods).filterMap Expr.bareName? :=
    occurrence_usesOfClasses [] p.classes ▸ List.mem_map_of_mem hu
  obtain ⟨e, he, hname⟩ := List.mem_filterMap.mp hmem
  obtain ⟨node, name, rfl, huse⟩ := Expr.bareName?_eq_some hname
  obtain ⟨hnode, hname⟩ := Prod.mk.inj huse
  obtain ⟨m, hm, he⟩ := List.mem_flatMap.mp he
  obtain ⟨hm, hkind⟩ := List.mem_filter.mp hm
  obtain ⟨k, hk, hm⟩ := List.mem_flatMap.mp hm
  obtain ⟨i, hi⟩ := List.getElem?_of_mem hk
  obtain ⟨owner, parent, scope, returnType, _, _, hbody⟩ :=
    htyped i k hi m hm (by simpa using hkind)
  obtain ⟨type, htype⟩ := hbody.exists_hasType he
  obtain ⟨r, s, hr, hget, rfl⟩ := htype.exists_reference hdefined'.sound.symbols
  -- the entry is noted for a use of that node, and there is but one
  have hempty : c.references.get? node.id = none := by
    obtain ⟨_, _, _, rfl⟩ := define_eq_ok_iff.mp hdefine
    rfl
  obtain ⟨u', hu', hnode', b, s', hb, hmeaning, hget'⟩ :=
    (hwork.noted node.id r hr).resolve_left fun hold => absurd (hempty.symm.trans hold) (by simp)
  obtain rfl : u' = u := List.inj_on_of_nodup_map (nodup_uses hp) hu' hu (hnode'.trans hnode.symm)
  have hsame : s' = s := by
    rw [hname] at hget'
    exact Option.some.inj (hget'.symm.trans hget)
  subst hsame
  refine ⟨b, r, s'.type, hb, Binding.meaning?_extend hwork.types hmeaning, ?_, ?_⟩
  · rw [hnode]
    exact hr
  · rw [hnode]
    exact htype.recorded

/-- Resolving names against scopes that already hold all declarations is lexical scoping. The
    uses are the bare names of the bodies, in source order. In a program that passes the typing
    stage each is bound, and what is recorded for it is what it is bound to; a program with a
    use that is not bound is rejected. -/
theorem names_resolve_lexically {p : Program} (hp : p.DistinctNodes) {options : Options}
    {c : Context} (hdefine : Context.define p (.initial options) = .ok () c) :
    p.uses.map Use.occurrence =
        (p.bodies.flatMap fun m => Stmt.exprsOfList m.body).filterMap Expr.bareName? ∧
      (∀ c', Context.check p c = .ok () c' → ∀ u ∈ p.uses, ∃ b r type,
        u.binding = some b ∧ b.meaning? c'.types c'.scopes = some (r, type) ∧
          c'.references.get? u.node = some r ∧ c'.exprTypes.get? u.node = some type) ∧
      ((∃ u ∈ p.uses, u.binding = none) →
        ∃ r c', Context.check p c = .error (.rejected r) c') := by
  refine ⟨occurrence_usesOfClasses [] p.classes,
    fun c' hcheck u hu => exists_binding_of_check hp hdefine hcheck hu, ?_⟩
  intro hex
  obtain ⟨u, hu, hnone⟩ := hex
  cases hcheck : Context.check p c with
  | ok x c' =>
    obtain ⟨b, _, _, hb, _⟩ := exists_binding_of_check hp hdefine hcheck hu
    rw [hnone] at hb
    simp at hb
  | error e c' =>
    obtain ⟨_, r, rfl⟩ := (Context.decides_check_of_define hp hdefine).of_error hcheck
    exact ⟨r, c', rfl⟩

namespace Shadowing

open Shapes (name type node mainOf)

/-- `int step(int k) { n = k; { boolean n = n; if (n) int k = k; else k = 1; } return n; }` -/
def step : MethodDecl where
  id := 1
  kind := .virtual
  returnType := type .int
  name := name "step"
  params := [⟨type .int, name "k"⟩]
  body := [
    .assign (node 0) (.var (node 0) (name "n")) (.var (node 1) (name "k")),
    .block (node 1) [
      .declare (node 2) (type .boolean) (name "n") (some (.var (node 2) (name "n"))),
      .ifElse (node 3) (.var (node 3) (name "n"))
        (.declare (node 4) (type .int) (name "k") (some (.var (node 4) (name "k"))))
        (.assign (node 5) (.var (node 5) (name "k")) (.literal (node 6) (.int 1)))],
    .ret (node 6) (some (.var (node 7) (name "n")))]

/-- `int early() { k = 1; int k; return k; }` -/
def early : MethodDecl where
  id := 1
  kind := .virtual
  returnType := type .int
  name := name "early"
  params := []
  body := [
    .assign (node 0) (.var (node 0) (name "k")) (.literal (node 1) (.int 1)),
    .declare (node 1) (type .int) (name "k") none,
    .ret (node 2) (some (.var (node 2) (name "k")))]

def main : MethodDecl := mainOf 0 []

/-- `class Counter { int n; … }` with the method and an entry. -/
def program (m : MethodDecl) : Program :=
  ⟨[{ name := name "Counter", superclass := none, fields := [⟨type .int, name "n"⟩],
      methods := [m, main] }]⟩

-- the field and the parameter are hidden from the declaration on, and in view again where the
-- block or the branch ends
example : (program step).uses.map (·.binding) = [
    some (.field "Counter" (type .int)), some (.var (.method 1) (type .int)),
    some (.var (.block 1) (type .boolean)), some (.var (.block 1) (type .boolean)),
    some (.var (.block 4) (type .int)), some (.var (.method 1) (type .int)),
    some (.field "Counter" (type .int))] := by decide

/-- The stages up to which the class with the method is accepted. -/
def passes (m : MethodDecl) : Bool × Bool :=
  match Context.define (program m) (.initial {}) with
  | .error _ _ => (false, false)
  | .ok _ c =>
    match Context.check (program m) c with
    | .error _ _ => (true, false)
    | .ok _ _ => (true, true)

theorem exists_define {m : MethodDecl} (h : (passes m).1 = true) :
    ∃ c, Context.define (program m) (.initial {}) = .ok () c := by
  unfold passes at h
  cases hd : Context.define (program m) (.initial {}) with
  | ok _ c => exact ⟨c, rfl⟩
  | error e c => rw [hd] at h; simp at h

theorem exists_check {m : MethodDecl} (h : (passes m).2 = true) {c : Context}
    (hd : Context.define (program m) (.initial {}) = .ok () c) :
    ∃ c', Context.check (program m) c = .ok () c' := by
  unfold passes at h
  rw [hd] at h
  dsimp only at h
  cases hc : Context.check (program m) c with
  | ok _ c' => exact ⟨c', rfl⟩
  | error e c' => rw [hc] at h; simp at h

end Shadowing

theorem names_resolve_lexically_shadowing :
    (∃ c c', Context.define (Shadowing.program Shadowing.step) (.initial {}) = .ok () c ∧
      Context.check (Shadowing.program Shadowing.step) c = .ok () c' ∧
      ∀ u ∈ (Shadowing.program Shadowing.step).uses, ∃ b r type,
        u.binding = some b ∧ b.meaning? c'.types c'.scopes = some (r, type) ∧
          c'.references.get? u.node = some r ∧ c'.exprTypes.get? u.node = some type) ∧
      ∃ c r c', Context.define (Shadowing.program Shadowing.early) (.initial {}) = .ok () c ∧
        Context.check (Shadowing.program Shadowing.early) c = .error (.rejected r) c' := by
  constructor
  · obtain ⟨c, hd⟩ := Shadowing.exists_define (m := Shadowing.step) (by decide +kernel)
    obtain ⟨c', hc⟩ := Shadowing.exists_check (by decide +kernel) hd
    have hnodes : (Shadowing.program Shadowing.step).DistinctNodes :=
      ⟨by decide, by decide, by decide⟩
    exact ⟨c, c', hd, hc, (names_resolve_lexically hnodes hd).2.1 c' hc⟩
  · obtain ⟨c, hd⟩ := Shadowing.exists_define (m := Shadowing.early) (by decide +kernel)
    have hnodes : (Shadowing.program Shadowing.early).DistinctNodes :=
      ⟨by decide, by decide, by decide⟩
    have hfree : ∃ u ∈ (Shadowing.program Shadowing.early).uses, u.binding = none :=
      ⟨⟨0, "k", none⟩, by decide, rfl⟩
    obtain ⟨r, c', hc⟩ := (names_resolve_lexically hnodes hd).2.2 hfree
    exact ⟨c, r, c', hd, hc⟩

end IcLir
