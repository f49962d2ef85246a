import IcLir.Proofs.OperationRuns

/-
  Lowered expressions run as they are evaluated. The machine stands for a state as far as an
  expression reads it (`Site.Stands`); then what lowering emits for the expression delivers its
  value, or stops at a guard (`Lowered.delivers`), which is the one that fails first in the order
  that the code has its operands in (`Lowered.delivers_evalIn`). Nothing is asked of the types
  here: a state that an operation is not meant for makes the evaluation stuck, and then any run
  will do.
-/

namespace IcLir

open Code Lowering Pass

/-- The labels of a pool lead to its texts. -/
def Platform.Links (P : Platform) (pool : StringPool) : Prop :=
  ∀ i text, pool.texts[i]? = some text → P.label (StringPool.label i) = .string text

theorem Platform.Links.mono {P : Platform} {pool pool' : StringPool} (h : P.Links pool')
    (hpool : pool.texts <+: pool'.texts) : P.Links pool := by
  intro i text hi
  obtain ⟨more, hmore⟩ := hpool
  have hlt : i < pool.texts.length := (List.getElem?_eq_some_iff.mp hi).1
  apply h i text
  rw [← hmore, List.getElem?_append_left hlt, hi]

/-- A text is in the pool under the label that it is given. -/
theorem StringPool.exists_label_intern (pool : StringPool) (text : String) :
    ∃ i, (pool.intern text).1 = label i ∧ (pool.intern text).2.texts[i]? = some text := by
  unfold intern
  split
  · next i hi =>
    obtain ⟨hlt, htext, _⟩ := List.findIdx?_eq_some_iff_getElem.mp hi
    refine ⟨i, rfl, ?_⟩
    rw [List.getElem?_eq_getElem hlt]
    exact congrArg some (by simpa using htext)
  · exact ⟨pool.size, rfl, by simp [StringPool.size]⟩

/-- The texts in `e`, if any, are linked. -/
def Platform.LinksIn (P : Platform) (e : Expr) (pool : StringPool) : Prop :=
  ∀ node text, Expr.literal node (.string text) ∈ e.nodes → P.Links pool

namespace Platform.LinksIn

variable {P : Platform} {e x : Expr} {pool pool' : StringPool}

theorem mono (h : P.LinksIn e pool) (hx : x.nodes ⊆ e.nodes) : P.LinksIn x pool :=
  fun node text hmem => h node text (hx hmem)

/-- An earlier pool is linked along with a later one. -/
theorem before (h : P.LinksIn e pool') (hpool : pool.texts <+: pool'.texts) : P.LinksIn e pool :=
  fun node text hmem => (h node text hmem).mono hpool

end Platform.LinksIn

/-- The guards that the code of a node calls. -/
def Expr.guards : Expr → List Guard
  | .field .. | .length .. => [.nullRef]
  | .index .. => [.nullRef, .arrayAccess]
  | .binary _ (.arith op) _ _ => if op.divides then [.zero] else []
  | _ => []

/-! ## What the machine has to hold -/

/-- The machine stands for the state, as far as `e` reads it. -/
structure Site.Stands (S : Site) (env : LowerEnv) (σ : State) (e : Expr) : Prop where
  held : σ.HeldBy env.context S.memory
  calls {x : Expr} {g : Guard} : x ∈ e.nodes → g ∈ x.guards → S.calls g
  receiver {node : Node} : Expr.this node ∈ e.nodes → σ.receiver.IsWord (S.slots "this")
  var {scope : ScopeId} {name : String} : e.Reads env.context scope name →
    (σ.var scope name).IsWord (S.slots (slotName name (env.context.scopes.depth scope)))
  ownField {node : Node} {name : Ident} {scope : ScopeId} {offset : Nat} :
    Expr.var node name ∈ e.nodes → env.context.references.get? node.id = some (.field scope) →
    env.HasOffset env.type name.name offset →
    EndsIn (σ.ownField name.name) (S.memory.field (S.slots "this") offset)
  field {node : Node} {object : Expr} {name : Ident} {type : TypeId} {offset a : Nat} :
    Expr.field node object name ∈ e.nodes → env.context.exprTypes.get? object.id = some type →
    env.HasOffset type name.name offset →
    EndsIn (object.eval env.context S.platform σ) (.address a) →
    EndsIn (σ.field a name.name) (S.memory.field (.address a) offset)

namespace Site.Stands

variable {S : Site} {env : LowerEnv} {σ : State} {e x : Expr}

theorem mono (h : S.Stands env σ e) (hx : x.nodes ⊆ e.nodes) : S.Stands env σ x where
  held := h.held
  calls hy hg := h.calls (hx hy) hg
  receiver hy := h.receiver (hx hy)
  var hr := h.var (hr.mono hx)
  ownField hy := h.ownField (hx hy)
  field hy := h.field (hx hy)

/-- The length of an array is in the memory. -/
theorem endsIn_length (h : S.Stands env σ e) (a : Nat) :
    EndsIn (do return .int (← σ.values a).length) (S.memory.length (.address a)) := by
  unfold State.values
  split
  · next type values hitem => exact h.held.length hitem
  · exact True.intro

/-- The guard of an access knows the bounds of the array. -/
theorem isOutside_iff (h : S.Stands env σ e) {a : Nat} {type : TypeId} {values : List Value}
    (hitem : σ.heap a = some (.array type values)) (i : Int) :
    S.IsOutside (.address a) (.int i) ↔ ¬ (0 ≤ i ∧ i < values.length) := by
  rw [Site.IsOutside, h.held.length hitem, ne_eq, S.platform.order_lt_iff,
    S.platform.order_lt_iff]
  omega

/-- The elements of an array are in the memory. -/
theorem indexes (h : S.Stands env σ e) : S.Indexes σ.element where
  outside {a v w} hv hout := by
    rcases σ.element_cases a v with hstuck | ⟨type, values, i, hitem, rfl⟩
    · rw [hstuck]
      exact True.intro
    · obtain rfl : w = .int i := hv
      rw [State.element_int hitem, if_neg ((h.isOutside_iff hitem i).mp hout)]
      exact fun _ => rfl
  inside {a v w} hv hout := by
    rcases σ.element_cases a v with hstuck | ⟨type, values, i, hitem, rfl⟩
    · rw [hstuck]
      exact True.intro
    · obtain rfl : w = .int i := hv
      have hrange : 0 ≤ i ∧ i < values.length :=
        Classical.not_not.mp fun hnot => hout ((h.isOutside_iff hitem i).mpr hnot)
      have hlt : i.toNat < values.length := by omega
      have hnat : (i.toNat : Int) = i := by omega
      have helement := h.held.element hitem (List.getElem?_eq_getElem hlt)
      rw [hnat] at helement
      rw [State.element_int hitem, if_pos hrange, List.getD_eq_getElem?_getD,
        List.getElem?_eq_getElem hlt]
      exact helement

end Site.Stands

/-! ## Expressions -/

namespace Lowering

section

variable {S : Site} {env : LowerEnv} {σ : State}

/-- A literal is an operand; a string is reached by its label. -/
theorem isWord_literalOperand {node : Node} {value : Literal} {s s' : Supply} {o : Operand}
    (h : literalOperand value s = .ok o s') {P : Platform}
    (hlinks : P.LinksIn (.literal node value) s'.strings) (m : Machine) :
    value.value.IsWord (m.value P o) := by
  have hmeets : Meets CompileError.Any (literalOperand value) s fun o s' =>
      P.LinksIn (.literal node value) s'.strings → value.value.IsWord (m.value P o) := by
    cases value with
    | int n => exact fun _ => rfl
    | string text =>
      obtain ⟨i, hlabel, hi⟩ := s.strings.exists_label_intern text
      intro hlinks
      change P.label (s.strings.intern text).1 = .string text
      rw [hlabel]
      exact hlinks node text (Expr.mem_nodes _) i text hi
    | bool b => cases b <;> exact fun _ => rfl
    | null => exact fun _ => rfl
  exact hmeets.of_ok h hlinks

theorem eq_joins_of_isConcat {op : ArithOp} {left : Expr} {s : Supply} {isConcat : Bool}
    (h : env.isConcat (.arith op) left s = .ok isConcat s) :
    isConcat = env.context.joins op left := by
  have hmeets : Meets CompileError.Any (env.isConcat (.arith op) left) s fun isConcat _ =>
      isConcat = env.context.joins op left := by
    unfold LowerEnv.isConcat
    split
    · next hop =>
      obtain rfl := BinaryOp.arith.inj hop
      rw [meets_bind]
      refine meets_promised_any fun type htype => ?_
      change decide (type = TypeId.string) = _
      simp [Context.joins, htype]
    · next hop =>
      change false = (decide (op = .add) && _)
      rw [decide_eq_false (mt (congrArg BinaryOp.arith) hop), Bool.false_and]
  exact hmeets.of_ok h

/-- An operand that needs no code. -/
theorem delivers_operand {x : Outcome Value} {o : Operand} {d : Nat}
    (h : ∀ m, S.Holds m → EndsIn x (m.value S.platform o)) : S.Delivers x ([], o) d :=
  fun _ m _ hm => .nil ⟨.refl d m, h m hm⟩

/-- An operation whose operands are both used, on operands that are ready. -/
theorem delivers_operation {strategy : Strategy} {x y : Outcome Value} {op : ArithOp}
    {l r : Code × Operand} {d : Nat} {order rightFirst : Bool}
    (h : S.DeliversPair order x y rightFirst l r d) (hcall : op.divides = true → S.calls .zero)
    (isConcat : Bool) :
    S.Delivers (Outcome.both order x y fun v w =>
        if isConcat then v.join S.platform w else op.apply S.platform v w)
      (operationCode isConcat op
        (operands strategy rightFirst (keepsRight isConcat op.divides) d l r) d, .r d) d := by
  have hready : S.Readies order x y
      (operands strategy rightFirst (keepsRight isConcat op.divides) d l r) d := h.readies _
  cases isConcat with
  | true => exact Site.delivers_concat hready
  | false =>
    exact Site.delivers_arith hready (Site.le_operands_left ..) hcall
      (exists_divisor strategy rightFirst d l r)

/-- The code evaluates operands in the given order, or the site does not tell orders apart. -/
def Obeys (S : Site) (env : LowerEnv) (order : Expr → Expr → Bool) : Prop :=
  ∀ left right, order left right = env.strategy.rightFirst left right ∨
    S.strategy = .pressureAware

mutual

theorem Lowered.delivers_evalIn (h : Lowered env e d s r s') (hs : Obeys S env order)
    (hplain : e.IsPlain) (hstands : S.Stands env σ e) (hlinks : S.platform.LinksIn e s'.strings) :
    S.Delivers (e.evalIn order env.context S.platform σ) r d := by
  have hself := hplain e e.mem_nodes
  match h with
  | .literal hv => exact delivers_operand fun m _ => isWord_literalOperand hv hlinks m
  | @Lowered.var _ node name _ _ scope href =>
    rw [Expr.evalIn, Expr.eval, href]
    refine delivers_operand fun m hm => ?_
    change Value.IsWord _ (m.slots _)
    rw [hm.slots]
    exact hstands.var ⟨node, name, Expr.mem_nodes _, rfl, href⟩
  | @Lowered.ownField _ node name _ offset _ scope href ho =>
    rw [Expr.evalIn, Expr.eval, href]
    intro post m _ hm
    refine .instr rfl (.nil ⟨(Machine.Keeps.refl d m).set (Nat.le_refl d) _, ?_⟩)
    change EndsIn _ (m.memory.field ((m.set (.general d) (m.slots "this")).registers _) offset)
    rw [m.set_registers_self, hm.memory, hm.slots]
    exact hstands.ownField (Expr.mem_nodes _) href ho
  | @Lowered.field _ node object name _ offset _ _ _ type hobject htype ho =>
    have hsub := Expr.nodes_subset_field node object name
    have hx := hobject.delivers_evalIn hs (hplain.mono hsub) (hstands.mono hsub)
      (hlinks.mono hsub)
    rw [Expr.evalIn]
    refine Site.delivers_field hx (hstands.calls (Expr.mem_nodes _) (by simp [Expr.guards])) ?_
    intro a ha
    refine hstands.field (Expr.mem_nodes _) htype ho ?_
    rw [Expr.evalIn_eq_ok_iff.mp ha]
    exact rfl
  | @Lowered.index _ node array i _ _ _ _ _ _ hpair =>
    have hleft := Expr.nodes_subset_index_left node array i
    have hright := Expr.nodes_subset_index_right node array i
    have hx := hpair.delivers_evalIn hs (hplain.mono hleft) (hplain.mono hright)
      (hstands.mono hleft) (hstands.mono hright) (hlinks.mono hleft) (hlinks.mono hright)
    rw [Expr.evalIn]
    exact hx.index (hstands.calls (Expr.mem_nodes _) (by simp [Expr.guards]))
      (hstands.calls (Expr.mem_nodes _) (by simp [Expr.guards])) hstands.indexes
  | @Lowered.length _ node array _ _ _ _ harray =>
    have hsub := Expr.nodes_subset_length node array
    have hx := harray.delivers_evalIn hs (hplain.mono hsub) (hstands.mono hsub)
      (hlinks.mono hsub)
    rw [Expr.evalIn]
    exact Site.delivers_length hx (hstands.calls (Expr.mem_nodes _) (by simp [Expr.guards]))
      hstands.endsIn_length
  | @Lowered.logic _ node op left right _ _ _ _ _ _ hl hr =>
    have hleft := Expr.nodes_subset_binary_left node left right (.logic op)
    have hright := Expr.nodes_subset_binary_right node left right (.logic op)
    have hx := hl.delivers_evalIn hs (hplain.mono hleft) (hstands.mono hleft)
      ((hlinks.mono hleft).before hr.issues.texts)
    have hy := hr.delivers_evalIn hs (hplain.mono hright) (hstands.mono hright)
      (hlinks.mono hright)
    rw [Expr.evalIn]
    exact Site.delivers_logic op _ hx hy
  | @Lowered.compare _ node op left right _ _ _ _ _ _ hpair =>
    have hleft := Expr.nodes_subset_binary_left node left right (.compare op)
    have hright := Expr.nodes_subset_binary_right node left right (.compare op)
    have hx := hpair.delivers_evalIn hs (hplain.mono hleft) (hplain.mono hright)
      (hstands.mono hleft) (hstands.mono hright) (hlinks.mono hleft) (hlinks.mono hright)
    rw [Expr.evalIn]
    exact Site.delivers_compare (hx.readies true) _
  | @Lowered.arith _ node op left right _ _ _ isConcat _ _ _ hconcat hpair =>
    have hleft := Expr.nodes_subset_binary_left node left right (.arith op)
    have hright := Expr.nodes_subset_binary_right node left right (.arith op)
    have hx := hpair.delivers_evalIn hs (hplain.mono hleft) (hplain.mono hright)
      (hstands.mono hleft) (hstands.mono hright) (hlinks.mono hleft) (hlinks.mono hright)
    have hcall : op.divides = true → S.calls .zero := fun hop =>
      hstands.calls (Expr.mem_nodes _) (by simp [Expr.guards, hop])
    rw [Expr.evalIn, ← eq_joins_of_isConcat hconcat]
    exact delivers_operation hx hcall isConcat
  | @Lowered.unary _ node op operand _ _ _ _ hoperand =>
    have hsub := Expr.nodes_subset_unary node operand op
    have hx := hoperand.delivers_evalIn hs (hplain.mono hsub) (hstands.mono hsub)
      (hlinks.mono hsub)
    rw [Expr.evalIn]
    exact Site.delivers_unary hx op
  | @Lowered.paren _ node inner _ _ _ _ hinner =>
    have hsub := Expr.nodes_subset_paren node inner
    rw [Expr.evalIn]
    exact hinner.delivers_evalIn hs (hplain.mono hsub) (hstands.mono hsub)
      (hlinks.mono hsub)
  | @Lowered.this _ node _ _ =>
    refine delivers_operand fun m hm => ?_
    change Value.IsWord _ (m.slots _)
    rw [hm.slots]
    exact hstands.receiver (Expr.mem_nodes _)
  | .staticCall .. | .ownStatic .. | .ownVirtual .. | .methodCall .. =>
    simp [Expr.isCall] at hself
  | .newObject .. | .newArray .. => simp [Expr.isAllocation] at hself

theorem LoweredPair.delivers_evalIn (h : LoweredPair env left right d s rightFirst l r s')
    (hs : Obeys S env order) (hleft : left.IsPlain) (hright : right.IsPlain)
    (hl : S.Stands env σ left) (hr : S.Stands env σ right)
    (htexts : S.platform.LinksIn left s'.strings) (htexts' : S.platform.LinksIn right s'.strings) :
    S.DeliversPair (order left right) (left.evalIn order env.context S.platform σ)
      (right.evalIn order env.context S.platform σ) rightFirst l r d := by
  have horder := hs left right
  match h with
  | .leftFirst hfirst hlow hlow' =>
    rw [hfirst] at horder
    exact ⟨horder, hlow.delivers_evalIn hs hleft hl (htexts.before hlow'.issues.texts),
      hlow'.delivers_evalIn hs hright hr htexts'⟩
  | .rightFirst hfirst hlow hlow' =>
    rw [hfirst] at horder
    exact ⟨horder, hlow.delivers_evalIn hs hright hr (htexts'.before hlow'.issues.texts),
      hlow'.delivers_evalIn hs hleft hl htexts⟩

end

/-- From left to right, where only the baseline strategy is held to the order. -/
theorem Lowered.delivers {e : Expr} {d : Nat} {s s' : Supply} {r : Code × Operand}
    (h : Lowered env e d s r s') (hs : S.strategy = env.strategy) (hplain : e.IsPlain)
    (hstands : S.Stands env σ e) (hlinks : S.platform.LinksIn e s'.strings) :
    S.Delivers (e.eval env.context S.platform σ) r d := by
  have hobeys : Obeys S env fun _ _ => false := by
    intro left right
    cases hstrategy : env.strategy with
    | baseline => exact .inl rfl
    | pressureAware => exact .inr (hs.trans hstrategy)
  rw [← Expr.evalIn_false]
  exact h.delivers_evalIn hobeys hplain hstands hlinks

end

end Lowering

end IcLir
