import IcLir.Proofs.CompileOutcome
import IcLir.Proofs.ExpressionRuns
import IcLir.Proofs.TypeSoundness
import IcLir.Proofs.VirtualDispatch

/-
  Lowering of expressions, for accepted programs. In a state that fits the checked types, and on
  a machine that holds it as the class layouts say, an expression of a method body is never
  stuck; so its code ends with its value in the base register, or stops at a guard where the
  evaluation fails.
-/

namespace IcLir

open Code Definition Lowering TypeTable Typing

/-- The machine holds the state: its heap, its receiver, and the variables that `e` reads. -/
structure Machine.Represents (m : Machine) (c : Context) (isStatic : Bool) (e : Expr)
    (σ : State) : Prop where
  heap : σ.HeldBy c m.memory
  receiver : isStatic = false → σ.receiver.IsWord (m.slots "this")
  var {scope : ScopeId} {name : String} : e.Reads c scope name →
    (σ.var scope name).IsWord (m.slots (slotName name (c.scopes.depth scope)))

section

variable {c : Context} {p : Program} {σ : State} {memory : Memory}

/-- A field lies where the layout of any class above its object has it. -/
theorem Context.Accepts.endsIn_field (h : c.Accepts p) (hfits : σ.HeapFits c)
    (hheld : σ.HeldBy c memory) {strategy : Strategy} {type : TypeId} {i : Nat} {v : Value}
    (hv : σ.IsObjectOf c.types (classId i) v) {name : String} {offset : Nat}
    (ho : LowerEnv.HasOffset ⟨c, strategy, type⟩ (classId i) name offset) :
    ∃ a, v = .ref a ∧ EndsIn (σ.field a name) (memory.field (.address a) offset) := by
  obtain ⟨a, owner, field, rfl, hitem, hsub⟩ := hv
  obtain ⟨j, k, hj, rfl⟩ := h.defined.table.isClass owner (hfits.isClass hitem)
  obtain ⟨layout, hlayout, hoffset⟩ := ho
  obtain ⟨layout', hlayout', hinherits⟩ := h.inherits_of_isSubtype hj hsub hlayout
  refine ⟨a, rfl, ?_⟩
  rw [State.field, hitem]
  exact hheld.field hitem hlayout' (hinherits.offset name offset hoffset)

/-- An address that a value of a class type is kept as leads to an object of the class. -/
theorem State.HeapFits.isObjectOf_of_endsIn (h : σ.HeapFits c)
    (ht : ClassTable p.classes c.types) {type : TypeId} (hclass : c.types.isClass type = true)
    {x : Outcome Value} (hsafe : σ.Safe c.types type x) {a : Nat} (hx : EndsIn x (.address a)) :
    σ.IsObjectOf c.types type (.ref a) := by
  cases x with
  | error fault =>
    cases fault with
    | guard g => exact hx.elim
    | stuck => exact hsafe.elim
  | ok v =>
    rcases h.null_or_object ht hclass hsafe with rfl | hobj
    · cases hx
    · obtain ⟨a', owner, field, rfl, hitem, hsub⟩ := hobj
      obtain rfl : a = a' := Word.address.inj hx
      exact ⟨a, owner, field, rfl, hitem, hsub⟩

/-- A machine that holds a fitting state stands for it. -/
theorem Site.stands_of_fits {S : Site} {checked : MethodEnv} {e : Expr} {type : TypeId}
    (h : c.Accepts p) (hin : ChecksIn checked p c.definition)
    (htype : HasType c.typing checked e type) (hplain : e.IsPlain)
    (hfits : σ.Fits c checked.type checked.isStatic e) {m : Machine} (hm : S.Holds m)
    (hrep : m.Represents c checked.isStatic e σ) (hcalls : ∀ g, S.calls g) (strategy : Strategy) :
    S.Stands ⟨c, strategy, checked.type⟩ σ e where
  held := hm.memory ▸ hrep.heap
  calls _ _ := hcalls _
  receiver hnode := by
    obtain ⟨_, hthis⟩ := htype.exists_of_mem_nodes hnode
    cases hthis with
    | this hstatic _ => exact hm.slots ▸ hrep.receiver hstatic
  var hread := hm.slots ▸ hrep.var hread
  ownField {node name scope offset} hnode href ho := by
    obtain ⟨_, hvar⟩ := htype.exists_of_mem_nodes hnode
    cases hvar with
    | var _ _ href' _ =>
      have hsame := href'.symm.trans href
      simp at hsame
    | ownField hstatic _ _ _ _ =>
      obtain ⟨i, k, _, _, hi, _⟩ := hin.classOf
      rw [hi] at ho
      obtain ⟨a, ha, hfield⟩ := h.endsIn_field hfits.toHeapFits (hm.memory ▸ hrep.heap)
        (hi ▸ hfits.receiver hstatic) ho
      have hslot := hrep.receiver hstatic
      rw [ha] at hslot
      rw [State.ownField, ha, ← hm.slots, show m.slots "this" = .address a from hslot]
      exact hfield
  field {node object name owner offset a} hnode howner ho hx := by
    obtain ⟨_, hfield⟩ := htype.exists_of_mem_nodes hnode
    cases hfield with
    | @field _ _ _ owner' _ _ hobject hclass _ _ _ _ =>
      obtain rfl : owner' = owner := Option.some.inj (hobject.recorded.symm.trans howner)
      have hparts : object.nodes ⊆ e.nodes := by
        intro x hx
        exact Expr.nodes_subset_of_mem hnode (Expr.nodes_subset_field node object name hx)
      have hsafe := hobject.safe hin S.platform (hplain.mono hparts) (hfits.mono hparts)
      have hobj := hfits.isObjectOf_of_endsIn h.defined.table hclass hsafe hx
      obtain ⟨i, k, _, rfl⟩ := h.defined.table.isClass owner' hclass
      obtain ⟨a', ha, hvalue⟩ := h.endsIn_field hfits.toHeapFits (hm.memory ▸ hrep.heap) hobj ho
      obtain rfl : a = a' := Value.ref.inj ha
      exact hvalue

end

/-- Every method body of an accepted program, every plain expression of it, either strategy,
    every base register and supply: the expression is lowered, and its code followed by a load
    of its operand runs as it is evaluated. With a value, the run ends with it in the base
    register and leaves slots, memory and the registers below alone; where the evaluation fails
    a guard, the run stops at a guard, from left to right at the same one. -/
theorem lowered_expression_runs_as_evaluated {options : Options} {p : Program} {c : Context}
    (hp : p.DistinctNodes) (hc : analyzed options p = .ok c) {i : Nat} {k : ClassDecl}
    (hi : p.classes[i]? = some k) {method : MethodDecl} (hm : method ∈ k.methods)
    (hkind : method.kind ≠ .library) {e : Expr} (he : e ∈ Stmt.exprsOfList method.body)
    (hplain : e.IsPlain) (strategy : Strategy) (d : Nat) (s : Supply) :
    ∃ code o s', lowerExpr ⟨c, strategy, classId i⟩ e d s = .ok (code, o) s' ∧
      ∀ (P : Platform) (σ : State) (m : Machine), P.Links s'.strings →
        σ.Fits c (classId i) method.isStatic e → m.Represents c method.isStatic e σ →
        match e.eval c P σ with
        | .ok v => ∃ m', Reaches P (code ++ load o d) (.running (code ++ load o d) m)
            (.running [] m') ∧ m'.registers (.general d) = v.word ∧ m.Keeps d m'
        | .error (.guard g) => ∃ g' m', Reaches P (code ++ load o d)
            (.running (code ++ load o d) m) (.stopped g' m') ∧ (strategy = .baseline → g' = g)
        | .error .stuck => False := by
  have h := accepts_of_analyzed hp hc
  obtain ⟨owner, parent, scope, returnType, hclass, _, hbody⟩ := h.typed i k hi method hm hkind
  obtain ⟨type, htype⟩ := hbody.exists_hasType he
  have hin : ChecksIn ⟨c.scopes, classId i, owner, method.isStatic, returnType⟩ p c.definition :=
    ⟨h.defined, rfl, i, k, parent, hi, rfl, hclass⟩
  have hlowers : LowerEnv.Lowers ⟨c, strategy, classId i⟩ p
      ⟨c.scopes, classId i, owner, method.isStatic, returnType⟩ := ⟨h, hin, rfl⟩
  obtain ⟨⟨code, o⟩, s', hlower, _⟩ := (meets_lowerExpr hlowers htype d s).exists_ok
  refine ⟨code, o, s', hlower, fun P σ m hlinks hfits hrep => ?_⟩
  let S : Site := ⟨P, code ++ load o d, strategy, fun _ => True, m.slots, m.memory⟩
  have hlowered := lowered_of_ok hlower
  have hstands : S.Stands ⟨c, strategy, classId i⟩ σ e :=
    Site.stands_of_fits h hin htype hplain hfits ⟨rfl, rfl⟩ hrep (fun _ => trivial) strategy
  have hnodup : (labels (code ++ load o d)).Nodup := by
    simpa using hlowered.issues.nodup
  have hrun := (hlowered.delivers rfl hplain hstands fun _ _ _ => hlinks).load [] m
    (placed_self hnodup) ⟨rfl, rfl⟩
  have hsafe := htype.safe hin P hplain hfits
  change (∃ m', _ ∧ m.Keeps d m' ∧ EndsIn (e.eval c P σ) _) ∨
    ∃ g m', _ ∧ True ∧ StopsAt strategy (e.eval c P σ) g ∧ S.Holds m' at hrun
  rw [List.append_nil] at hrun
  cases hx : e.eval c P σ with
  | ok v =>
    rw [hx] at hrun
    rcases hrun with ⟨m', hreach, hkeeps, hv⟩ | ⟨_, _, _, _, hstop, _⟩
    · exact ⟨m', hreach, hv, hkeeps⟩
    · exact hstop.elim
  | error fault =>
    rw [hx] at hrun hsafe
    cases fault with
    | stuck => exact hsafe
    | guard g =>
      rcases hrun with ⟨_, _, _, hends⟩ | ⟨g', m', hreach, _, hstop, _⟩
      · exact hends.elim
      · exact ⟨g', m', hreach, hstop⟩

namespace Shapes

/-- `size * size / scale` -/
def area : Expr := .binary (node 3) (.arith .div)
  (.binary (node 4) (.arith .mul) (.var (node 5) (name "size")) (.var (node 6) (name "size")))
  (.var (node 7) (name "scale"))

/-- A square of size 6, asked for its area at scale 4. -/
def sixSquare : State where
  var _ _ := .int 4
  receiver := .ref 0
  heap a := if a = 0 then some (.object (classId 1) fun _ => .int 6) else none

def sixMachine : Machine where
  registers _ := .int 0
  slots name := if name = "this" then .address 0 else .int 4
  memory := ⟨fun _ _ => .int 6, fun _ => .int 0, fun _ _ => .int 0⟩
  sign := .eq

theorem heap_sixSquare {a : Nat} {item : Item} (h : sixSquare.heap a = some item) :
    item = .object (classId 1) fun _ => .int 6 := by
  change (if a = 0 then _ else _) = _ at h
  split at h
  · exact (Option.some.inj h).symm
  · cases h

/-- What the analysis says of the names in `area`: all fields are numbers, `size` is a field and
    `scale` a number in a slot of its own. -/
theorem context_area :
    (∀ scope ∈ context.scopes.scopes, ∀ s ∈ scope.symbols.values,
      s.kind = .field → s.type = TypeId.int) ∧
    context.references.get? 5 = some (.field 1) ∧ context.references.get? 6 = some (.field 1) ∧
    context.references.get? 7 = some (.variable 4) ∧
    ((context.scopes.scope 4).get? "scale").map Symbol.type = some TypeId.int ∧
    slotName "scale" (context.scopes.depth 4) ≠ "this" ∧
    context.types.isClass (classId 1) = true ∧
    context.types.isSubtype (classId 1) (classId 1) = true ∧
    (area.eval context .exact sixSquare).toOption = some (.int 9) := by
  decide +kernel

theorem type_field {scope : ScopeId} {name : String} {s : Symbol}
    (h : context.scopes.lookupMember scope name = some s) (hk : s.kind = .field) :
    s.type = TypeId.int := by
  obtain ⟨j, _, hclass, hget⟩ := ScopeTree.mem_path_of_lookupMember h
  cases hj : context.scopes.scopes[j]? with
  | none =>
    rw [ScopeTree.scope, ScopeTree.scope?, hj] at hget
    cases hget
  | some declaring =>
    rw [ScopeTree.scope, ScopeTree.scope?, hj] at hget
    refine context_area.1 declaring (List.mem_of_getElem? hj) s ?_ hk
    exact List.mem_map.mpr ⟨(name, s), OrderedMap.get?_eq_some_iff.mp hget, rfl⟩

theorem reads_area {scope : ScopeId} {name : String} (h : area.Reads context scope name) :
    scope = 4 ∧ name = "scale" := by
  obtain ⟨node, ident, hmem, rfl, href⟩ := h
  obtain ⟨_, hsize, hsize', hscale, _⟩ := context_area
  simp only [area, Expr.nodes, List.cons_append, List.nil_append, List.mem_cons, reduceCtorEq,
    Expr.var.injEq, List.not_mem_nil, or_false, false_or] at hmem
  rcases hmem with ⟨rfl, rfl⟩ | ⟨rfl, rfl⟩ | ⟨rfl, rfl⟩
  · simp [Shapes.node, hsize] at href
  · simp [Shapes.node, hsize'] at href
  · exact ⟨by simpa using href.symm.trans hscale, rfl⟩

theorem fits_sixSquare : sixSquare.Fits context (classId 1) false area where
  isClass h := by
    obtain ⟨rfl, _⟩ := Item.object.inj (heap_sixSquare h)
    obtain ⟨_, _, _, _, _, _, hclass, _⟩ := context_area
    exact hclass
  field h _ hs hk := by
    obtain ⟨_, rfl⟩ := Item.object.inj (heap_sixSquare h)
    exact type_field hs hk
  array h := by cases heap_sixSquare h
  receiver _ := by
    obtain ⟨_, _, _, _, _, _, _, hsub, _⟩ := context_area
    exact ⟨0, _, _, rfl, rfl, hsub⟩
  var hr hs := by
    obtain ⟨rfl, rfl⟩ := reads_area hr
    obtain ⟨_, _, _, _, htype, _⟩ := context_area
    rw [hs] at htype
    exact Option.some.inj htype

theorem represents_sixSquare : sixMachine.Represents context false area sixSquare where
  heap := by
    constructor
    case field =>
      intro a type field layout name offset h _ _
      obtain ⟨_, rfl⟩ := Item.object.inj (heap_sixSquare h)
      rfl
    case length =>
      intro a type values h
      cases heap_sixSquare h
    case element =>
      intro a type values i v h
      cases heap_sixSquare h
  receiver _ := rfl
  var hr := by
    obtain ⟨rfl, rfl⟩ := reads_area hr
    obtain ⟨_, _, _, _, _, hslot, _⟩ := context_area
    change (if slotName "scale" (context.scopes.depth 4) = "this" then Word.address 0
      else .int 4) = .int 4
    exact if_neg hslot

theorem eval_area : area.eval context .exact sixSquare = .ok (.int 9) := by
  obtain ⟨_, _, _, _, _, _, _, _, heval⟩ := context_area
  exact Outcome.eq_ok_of_toOption heval

end Shapes

theorem lowered_expression_runs_as_evaluated_area :
    ∃ code o s', lowerExpr ⟨Shapes.context, .pressureAware, classId 1⟩ Shapes.area 0 .initial =
        .ok (code, o) s' ∧
      ∃ m', Reaches .exact (code ++ load o 0) (.running (code ++ load o 0) Shapes.sixMachine)
        (.running [] m') ∧ m'.registers (.general 0) = .int 9 := by
  have hi : Shapes.program.classes[1]? = some Shapes.square := rfl
  have hm : Shapes.squareArea ∈ Shapes.square.methods := List.mem_cons_self
  have he : Shapes.area ∈ Stmt.exprsOfList Shapes.squareArea.body := List.mem_cons_self
  obtain ⟨code, o, s', hlower, hrun⟩ := lowered_expression_runs_as_evaluated
    Shapes.distinctNodes Shapes.analyzed_program hi hm (by decide) he (by decide) .pressureAware
    0 .initial
  -- no string is read, so that any labels will do
  have hpool : (match lowerExpr ⟨Shapes.context, .pressureAware, classId 1⟩ Shapes.area 0
      .initial with | .ok _ s' => s'.strings.texts | .error _ _ => []) = [] := by
    decide +kernel
  rw [hlower] at hpool
  have hlinks : Platform.exact.Links s'.strings := by
    intro i text hi
    rw [show s'.strings.texts = [] from hpool] at hi
    simp at hi
  have hends := hrun .exact Shapes.sixSquare Shapes.sixMachine hlinks Shapes.fits_sixSquare
    Shapes.represents_sixSquare
  rw [Shapes.eval_area] at hends
  obtain ⟨m', hreach, hv, _⟩ := hends
  exact ⟨code, o, s', hlower, m', hreach, hv⟩

end IcLir
