import IcLir.Proofs.SourceCalls
import IcLir.Proofs.Interpreter
import Mathlib.Algebra.Group.Nat.Defs

/-
  Register weights. A weight is unbounded iff there is a call anywhere in the expression
  (`weight_eq_unbounded_iff`). A bounded one grows only where two operands have the same weight,
  so that the leaves double with each register (`two_pow_weight_le`). Weights are 32-bit words. It
  takes 2 ^ (2 ^ 32) leaves to make one overflow, and below that they can be taken for numbers
  (`weight_induction`). The table of a program has the weight of every expression in it
  (`weight_estimate`).
-/

namespace IcLir

namespace RegisterWeight

theorem exists_of_combine {a b : RegisterWeight} {w : UInt32} (h : a.combine b = .bounded w) :
    ∃ x y, a = .bounded x ∧ b = .bounded y ∧ w = if x = y then x + 1 else max x y := by
  cases a with
  | unbounded => cases h
  | bounded x =>
    cases b with
    | unbounded => cases h
    | bounded y =>
      refine ⟨x, y, rfl, rfl, ?_⟩
      rw [combine] at h
      split at h
      · next heq => rw [if_pos heq, ← RegisterWeight.bounded.inj h]
      · next hne => rw [if_neg hne, ← RegisterWeight.bounded.inj h]

/-- Weights add up as numbers do unless they overflow. -/
theorem toNat_combine {x y : UInt32} (h : x.toNat = y.toNat → x.toNat + 1 < UInt32.size) :
    (if x = y then x + 1 else max x y).toNat =
      if x.toNat = y.toNat then x.toNat + 1 else max x.toNat y.toNat := by
  by_cases heq : x = y
  · have heq' := congrArg UInt32.toNat heq
    rw [if_pos heq, if_pos heq', UInt32.toNat_add]
    exact Nat.mod_eq_of_lt (h heq')
  · have hne : x.toNat ≠ y.toNat := fun h => heq (UInt32.toNat_inj.mp h)
    rw [if_neg heq, if_neg hne]
    by_cases hle : x ≤ y
    · have hmax : max x y = y := if_pos hle
      rw [hmax, Nat.max_eq_right (UInt32.le_iff_toNat_le.mp hle)]
    · have hmax : max x y = x := if_neg hle
      have hnot : ¬ x.toNat ≤ y.toNat := fun h => hle (UInt32.le_iff_toNat_le.mpr h)
      rw [hmax, Nat.max_eq_left (Nat.le_of_not_le hnot)]

end RegisterWeight

theorem le_log2_of_two_pow_le {k n : Nat} (h : 2 ^ k ≤ n) : k ≤ n.log2 :=
  (Nat.le_log2 (Nat.ne_of_gt (Nat.lt_of_lt_of_le (Nat.two_pow_pos k) h))).mpr h

namespace Expr

/-! ## Operands and leaves -/

/-- The operand of a node with one. -/
def operand? : Expr → Option Expr
  | .field _ object _ => some object
  | .length _ array => some array
  | .newArray _ _ size => some size
  | .unary _ _ operand => some operand
  | .paren _ inner => some inner
  | _ => none

def isLeaf : Expr → Bool
  | .literal .. | .var .. | .this _ | .newObject .. => true
  | _ => false

def leaves (e : Expr) : List Expr := e.nodes.filter isLeaf

/-- An expression is a leaf, a call or a node with one or two operands. -/
theorem operand_induction {motive : Expr → Prop} (leaf : ∀ e, e.isLeaf = true → motive e)
    (call : ∀ e, e.isCall = true → motive e)
    (one : ∀ e operand, e.operand? = some operand → motive operand → motive e)
    (two : ∀ e left right, e.operands? = some (left, right) → motive left → motive right →
      motive e) (e : Expr) : motive e := by
  match e with
  | .literal .. | .var .. | .this _ | .newObject .. => exact leaf _ rfl
  | .staticCall .. | .ownCall .. | .methodCall .. => exact call _ rfl
  | .field _ operand _ | .length _ operand | .newArray _ _ operand | .unary _ _ operand
  | .paren _ operand => exact one _ operand rfl (operand_induction leaf call one two operand)
  | .index _ left right | .binary _ _ left right =>
    exact two _ left right rfl (operand_induction leaf call one two left)
      (operand_induction leaf call one two right)

section

variable {e operand left right : Expr}

theorem weight_of_isLeaf (h : e.isLeaf = true) : e.weight = .zero := by
  cases e with
  | literal | var | this | newObject => rfl
  | _ => cases h

theorem nodes_of_isLeaf (h : e.isLeaf = true) : e.nodes = [e] := by
  cases e with
  | literal | var | this | newObject => rfl
  | _ => cases h

theorem weight_of_isCall (h : e.isCall = true) : e.weight = .unbounded := by
  cases e with
  | staticCall | ownCall | methodCall => rfl
  | _ => cases h

theorem weight_of_operand? (h : e.operand? = some operand) : e.weight = operand.weight := by
  cases e with
  | field | length | newArray | unary | paren =>
    obtain rfl := Option.some.inj h
    rfl
  | _ => cases h

/-- A node with one operand is neither a leaf nor a call. -/
theorem nodes_of_operand? (h : e.operand? = some operand) :
    e.nodes = e :: operand.nodes ∧ e.isLeaf = false ∧ e.isCall = false := by
  cases e with
  | field | length | newArray | unary | paren =>
    obtain rfl := Option.some.inj h
    exact ⟨rfl, rfl, rfl⟩
  | _ => cases h

theorem weight_of_operands? (h : e.operands? = some (left, right)) :
    e.weight = left.weight.combine right.weight := by
  cases e with
  | index | binary =>
    obtain ⟨rfl, rfl⟩ := Prod.mk.inj (Option.some.inj h)
    rfl
  | _ => cases h

theorem nodes_of_operands? (h : e.operands? = some (left, right)) :
    e.nodes = e :: (left.nodes ++ right.nodes) ∧ e.isLeaf = false ∧ e.isCall = false := by
  cases e with
  | index | binary =>
    obtain ⟨rfl, rfl⟩ := Prod.mk.inj (Option.some.inj h)
    exact ⟨rfl, rfl, rfl⟩
  | _ => cases h

theorem nodes_operand?_subset (h : e.operand? = some operand) : operand.nodes ⊆ e.nodes := by
  rw [(nodes_of_operand? h).1]
  exact List.subset_cons_self ..

theorem nodes_operands?_subset (h : e.operands? = some (left, right)) :
    left.nodes ⊆ e.nodes ∧ right.nodes ⊆ e.nodes := by
  rw [(nodes_of_operands? h).1]
  exact List.append_subset.mp (List.subset_cons_self ..)

theorem length_operands?_le (h : e.operands? = some (left, right)) :
    left.nodes.length + right.nodes.length ≤ e.nodes.length := by
  rw [(nodes_of_operands? h).1, List.length_cons, List.length_append]
  exact Nat.le_succ _

theorem leaves_of_operand? (h : e.operand? = some operand) : e.leaves = operand.leaves := by
  obtain ⟨hnodes, hleaf, _⟩ := nodes_of_operand? h
  rw [leaves, hnodes, List.filter_cons_of_neg (Bool.eq_false_iff.mp hleaf), leaves]

theorem leaves_of_operands? (h : e.operands? = some (left, right)) :
    e.leaves = left.leaves ++ right.leaves := by
  obtain ⟨hnodes, hleaf, _⟩ := nodes_of_operands? h
  rw [leaves, hnodes, List.filter_cons_of_neg (Bool.eq_false_iff.mp hleaf), List.filter_append,
    leaves, leaves]

end

/-! ## Unbounded weights -/

/-- A weight is unbounded iff there is a call in the expression. -/
theorem weight_eq_unbounded_iff (e : Expr) :
    e.weight = .unbounded ↔ ∃ x ∈ e.nodes, x.isCall = true := by
  refine operand_induction (motive := fun e =>
    e.weight = .unbounded ↔ ∃ x ∈ e.nodes, x.isCall = true) ?leaf ?call ?one ?two e
  case leaf =>
    intro e hleaf
    have hcall : e.isCall = false := by
      cases e with
      | literal | var | this | newObject => rfl
      | _ => cases hleaf
    simp [weight_of_isLeaf hleaf, nodes_of_isLeaf hleaf, RegisterWeight.zero, hcall]
  case call =>
    intro e hcall
    exact ⟨fun _ => ⟨e, e.mem_nodes, hcall⟩, fun _ => weight_of_isCall hcall⟩
  case one =>
    intro e operand he ih
    obtain ⟨hnodes, _, hcall⟩ := nodes_of_operand? he
    simp [weight_of_operand? he, ih, hnodes, hcall]
  case two =>
    intro e left right he ihl ihr
    obtain ⟨hnodes, _, hcall⟩ := nodes_of_operands? he
    simp [weight_of_operands? he, RegisterWeight.combine_eq_unbounded_iff, ihl, ihr, hnodes,
      hcall, or_and_right, exists_or]

/-- Expressions of bounded weight are leaves or nodes with one or two such operands. -/
theorem bounded_induction {motive : Expr → Prop} (leaf : ∀ e, e.isLeaf = true → motive e)
    (one : ∀ e operand, e.operand? = some operand → motive operand → motive e)
    (two : ∀ e left right, e.operands? = some (left, right) → motive left → motive right →
      motive e) (e : Expr) (hw : e.weight ≠ .unbounded) : motive e := by
  refine operand_induction (motive := fun e => e.weight ≠ .unbounded → motive e)
    (fun e hleaf _ => leaf e hleaf) (fun e hcall hw => absurd (weight_of_isCall hcall) hw)
    ?one ?two e hw
  case one =>
    intro e operand he ih hw
    exact one e operand he (ih (weight_of_operand? he ▸ hw))
  case two =>
    intro e left right he ihl ihr hw
    obtain ⟨hl, hr⟩ := RegisterWeight.combine_ne_unbounded (weight_of_operands? he ▸ hw)
    exact two e left right he (ihl hl) (ihr hr)

/-! ## Bounded weights -/

/-- The leaves double with each register. -/
theorem two_pow_weight_le {e : Expr} {w : UInt32} (hw : e.weight = .bounded w) :
    2 ^ w.toNat ≤ e.leaves.length := by
  refine bounded_induction (motive := fun e => ∀ w, e.weight = .bounded w →
    2 ^ w.toNat ≤ e.leaves.length) ?leaf ?one ?two e (by simp [hw]) w hw
  case leaf =>
    intro e hleaf w hw
    obtain rfl : 0 = w := RegisterWeight.bounded.inj ((weight_of_isLeaf hleaf).symm.trans hw)
    simp [leaves, nodes_of_isLeaf hleaf, hleaf]
  case one =>
    intro e operand he ih w hw
    rw [leaves_of_operand? he]
    exact ih w ((weight_of_operand? he).symm.trans hw)
  case two =>
    intro e left right he ihl ihr w hw
    obtain ⟨x, y, hl, hr, hxy⟩ :=
      RegisterWeight.exists_of_combine ((weight_of_operands? he).symm.trans hw)
    have hx := ihl x hl
    have hy := ihr y hr
    rw [leaves_of_operands? he, List.length_append, hxy]
    split
    · next heq =>
      -- if the sum wraps around, it is smaller still
      have hsum : (x + 1).toNat ≤ x.toNat + 1 := Nat.mod_le ..
      rw [← heq] at hy
      calc 2 ^ (x + 1).toNat ≤ 2 ^ (x.toNat + 1) := Nat.pow_le_pow_right Nat.two_pos hsum
        _ = 2 ^ x.toNat + 2 ^ x.toNat := by rw [Nat.pow_succ, Nat.mul_two]
        _ ≤ left.leaves.length + right.leaves.length := Nat.add_le_add hx hy
    · change 2 ^ (if x ≤ y then y else x).toNat ≤ _
      split
      · exact Nat.le_add_left_of_le hy
      · exact Nat.le_add_right_of_le hx

section

variable {e left right : Expr} {a w : UInt32}

theorem log2_le_log2 {x e : Expr} (h : x.nodes.length ≤ e.nodes.length) :
    x.nodes.length.log2 ≤ e.nodes.length.log2 := by
  have hpos : 0 < x.nodes.length := List.length_pos_of_mem x.mem_nodes
  exact le_log2_of_two_pow_le (Nat.le_trans (Nat.log2_self_le (Nat.ne_of_gt hpos)) h)

/-- Where two weights give a larger one, there are nodes enough for it. -/
theorem two_pow_succ_le (he : e.operands? = some (left, right)) (hl : left.weight = .bounded a)
    (hr : right.weight = .bounded a) : 2 ^ (a.toNat + 1) ≤ e.nodes.length := by
  have hleaves : e.leaves.length ≤ e.nodes.length := List.length_filter_le ..
  rw [leaves_of_operands? he, List.length_append] at hleaves
  rw [Nat.pow_succ, Nat.mul_two]
  exact Nat.le_trans (Nat.add_le_add (two_pow_weight_le hl) (two_pow_weight_le hr)) hleaves

/-- Induction along a weight, which does not overflow if there are fewer than 2 ^ (2 ^ 32)
    nodes. -/
theorem weight_induction {motive : Expr → Nat → Prop}
    (leaf : ∀ e, e.isLeaf = true → motive e 0)
    (one : ∀ e operand n, e.operand? = some operand → motive operand n → motive e n)
    (two : ∀ e left right m n, e.operands? = some (left, right) →
      left.weight.prefersRight right.weight = decide (m < n) → motive left m → motive right n →
      motive e (if m = n then m + 1 else max m n))
    (hw : e.weight = .bounded w) (hsize : e.nodes.length.log2 < UInt32.size) :
    motive e w.toNat := by
  refine bounded_induction (motive := fun e => ∀ w, e.weight = .bounded w →
    e.nodes.length.log2 < UInt32.size → motive e w.toNat) ?leaf ?one ?two e (by simp [hw]) w hw
    hsize
  case leaf =>
    intro e hleaf w hw _
    obtain rfl : 0 = w := RegisterWeight.bounded.inj ((weight_of_isLeaf hleaf).symm.trans hw)
    exact leaf e hleaf
  case one =>
    intro e operand he ih w hw hsize
    have hle : operand.nodes.length ≤ e.nodes.length := by
      rw [(nodes_of_operand? he).1]
      exact Nat.le_succ _
    exact one e operand _ he (ih w ((weight_of_operand? he).symm.trans hw)
      (Nat.lt_of_le_of_lt (log2_le_log2 hle) hsize))
  case two =>
    intro e left right he ihl ihr w hw hsize
    obtain ⟨x, y, hl, hr, hxy⟩ :=
      RegisterWeight.exists_of_combine ((weight_of_operands? he).symm.trans hw)
    have hlength := length_operands?_le he
    have hleft := log2_le_log2 (x := left) (e := e) (by omega)
    have hright := log2_le_log2 (x := right) (e := e) (by omega)
    have hnat := RegisterWeight.toNat_combine (x := x) (y := y) fun heq => by
      obtain rfl := UInt32.toNat_inj.mp heq
      exact Nat.lt_of_le_of_lt (le_log2_of_two_pow_le (two_pow_succ_le he hl hr)) hsize
    rw [hxy, hnat]
    refine two e left right _ _ he ?_ (ihl x hl (Nat.lt_of_le_of_lt hleft hsize))
      (ihr y hr (Nat.lt_of_le_of_lt hright hsize))
    rw [hl, hr]
    exact decide_eq_decide.mpr UInt32.lt_iff_toNat_lt

end

end Expr

/-! ## The table -/

namespace WeightTable

variable {t t₁ t₂ : WeightTable} {e : Expr} {xs ys : List Expr}

/-- From one table to the other the weights of the given expressions are written, and no
    others. -/
def Writes (t t' : WeightTable) (xs : List Expr) : Prop :=
  ∀ id, (∃ x ∈ xs, x.id = id ∧ t'.weights.get? id = some x.weight) ∨
    (∀ x ∈ xs, x.id ≠ id) ∧ t'.weights.get? id = t.weights.get? id

namespace Writes

theorem nil : Writes t t [] := fun _ => .inr ⟨by simp, rfl⟩

theorem append (h : Writes t t₁ xs) (h' : Writes t₁ t₂ ys) : Writes t t₂ (xs ++ ys) := by
  intro id
  rcases h' id with ⟨y, hy, hid, hget⟩ | ⟨hys, hget⟩
  · exact .inl ⟨y, List.mem_append_right _ hy, hid, hget⟩
  rcases h id with ⟨x, hx, hid, hget'⟩ | ⟨hxs, hget'⟩
  · exact .inl ⟨x, List.mem_append_left _ hx, hid, hget.trans hget'⟩
  · exact .inr ⟨List.forall_mem_append.mpr ⟨hxs, hys⟩, hget.trans hget'⟩

/-- A node is written after its parts. -/
theorem record (h : Writes t t₁ xs) (e : Expr) :
    Writes t (WeightTable.record e e.weight t₁).2 (e :: xs) := by
  intro id
  change (∃ x ∈ e :: xs, x.id = id ∧ (t₁.weights.insert e.id e.weight).get? id = _) ∨
    _ ∧ (t₁.weights.insert e.id e.weight).get? id = _
  rw [OrderedMap.get?_insert]
  by_cases hid : id = e.id
  · exact .inl ⟨e, List.mem_cons_self, hid.symm, if_pos hid⟩
  rw [if_neg hid]
  rcases h id with ⟨x, hx, h⟩ | ⟨hxs, hget⟩
  · exact .inl ⟨x, List.mem_cons_of_mem _ hx, h⟩
  · exact .inr ⟨List.forall_mem_cons.mpr ⟨Ne.symm hid, hxs⟩, hget⟩

end Writes

mutual

/-- A visit gives the weight of the expression, and writes those of all its nodes. -/
theorem visit_eq (e : Expr) (t : WeightTable) :
    (visit e t).1 = e.weight ∧ Writes t (visit e t).2 e.nodes := by
  match e with
  | .literal .. | .var .. | .this _ | .newObject .. => exact ⟨rfl, Writes.nil.record _⟩
  | .field _ x _ | .length _ x | .newArray _ _ x | .unary _ _ x | .paren _ x =>
    obtain ⟨hweight, hwrites⟩ := visit_eq x t
    refine ⟨hweight, ?_⟩
    change Writes t (record _ (visit x t).1 (visit x t).2).2 _
    rw [hweight]
    exact hwrites.record _
  | .index _ x y | .binary _ _ x y =>
    obtain ⟨hx, hwrites⟩ := visit_eq x t
    obtain ⟨hy, hwrites'⟩ := visit_eq y (visit x t).2
    constructor
    · change (visit x t).1.combine (visit y (visit x t).2).1 = _
      rw [hx, hy]
      rfl
    · change Writes t (record _ ((visit x t).1.combine (visit y (visit x t).2).1) _).2 _
      rw [hx, hy]
      exact (hwrites.append hwrites').record _
  | .staticCall _ _ _ args | .ownCall _ _ args => exact ⟨rfl, (writes_visitArgs args t).record _⟩
  | .methodCall _ receiver _ args =>
    exact ⟨rfl, ((visit_eq receiver t).2.append (writes_visitArgs args _)).record _⟩

theorem writes_visitArgs (es : List Expr) (t : WeightTable) :
    Writes t (visitArgs es t).2 (Expr.nodesOfList es) := by
  match es with
  | [] => exact .nil
  | e :: es => exact (visit_eq e t).2.append (writes_visitArgs es _)

end

theorem writes_visitValue (value : Option Expr) (t : WeightTable) :
    Writes t (visitValue value t).2 ((value.map Expr.nodes).getD []) := by
  cases value with
  | none => exact .nil
  | some e => exact (visit_eq e t).2

mutual

theorem writes_visitStmt (s : Stmt) (t : WeightTable) : Writes t (visitStmt s t).2 s.exprs := by
  match s with
  | .assign _ target value => exact (visit_eq target t).2.append (visit_eq value _).2
  | .call _ e => exact (visit_eq e t).2
  | .ret _ value | .declare _ _ _ value => exact writes_visitValue value t
  | .ifThen _ condition body | .loop _ condition body =>
    exact (visit_eq condition t).2.append (writes_visitStmt body _)
  | .ifElse _ condition thenBranch elseBranch =>
    exact ((visit_eq condition t).2.append (writes_visitStmt thenBranch _)).append
      (writes_visitStmt elseBranch _)
  | .breakLoop _ | .continueLoop _ => exact .nil
  | .block _ stmts => exact writes_visitStmts stmts t

theorem writes_visitStmts (ss : List Stmt) (t : WeightTable) :
    Writes t (visitStmts ss t).2 (Stmt.exprsOfList ss) := by
  match ss with
  | [] => exact .nil
  | s :: ss => exact (writes_visitStmt s t).append (writes_visitStmts ss _)

end

theorem writes_forM {α : Type} {f : α → Weigh Unit} {g : α → List Expr}
    (h : ∀ a t, Writes t (f a t).2 (g a)) (as : List α) (t : WeightTable) :
    Writes t (as.forM f t).2 (as.flatMap g) := by
  induction as generalizing t with
  | nil => exact .nil
  | cons a as ih => exact (h a t).append (ih _)

/-- The table has the weight of every expression of the program. -/
theorem weight_estimate {p : Program} (hp : p.DistinctNodes) (he : e ∈ p.exprs) :
    (estimate p).weight e = e.weight := by
  have hwrites : Writes ⟨.empty⟩ (estimate p) p.exprs := by
    rw [Program.exprs, Program.methods, List.flatMap_assoc]
    exact writes_forM (fun k : ClassDecl =>
      writes_forM (fun m : MethodDecl => writes_visitStmts m.body) k.methods) _ _
  rcases hwrites e.id with ⟨x, hx, hid, hget⟩ | ⟨hne, _⟩
  · rw [weight, hget, List.inj_on_of_nodup_map hp.exprs hx he hid]
    rfl
  · exact absurd rfl (hne e he)

end WeightTable

/-! ## Programs -/

theorem Program.nodes_sublist_of_mem (p : Program) {e : Expr} (he : e ∈ p.exprs) :
    e.nodes.Sublist p.exprs := by
  obtain ⟨m, hm, he⟩ := List.mem_flatMap.mp he
  have hbody : (Stmt.exprsOfList m.body).Sublist p.exprs := by
    rw [Program.exprs, List.flatMap_def]
    exact List.sublist_flatten_of_mem (List.mem_map_of_mem hm)
  exact (Stmt.nodes_sublist_of_mem_exprsOfList he).trans hbody

/-- The weights in the table of a program. A weight is unbounded iff there is a call in the
    expression. A weight of `w` takes `2 ^ w` leaves, and so no weight overflows where two operands
    of the same weight meet, in a program of fewer than `2 ^ 64` nodes. Only the expressions need
    be counted. -/
theorem weights_grow_logarithmically {p : Program} (hp : p.DistinctNodes) {e : Expr}
    (he : e ∈ p.exprs) :
    ((WeightTable.estimate p).weight e = .unbounded ↔ ∃ x ∈ e.nodes, x.isCall = true) ∧
      (∀ w, (WeightTable.estimate p).weight e = .bounded w →
        2 ^ w.toNat ≤ e.leaves.length ∧ w.toNat ≤ e.leaves.length.log2) ∧
      (p.exprs.length < 2 ^ 64 → ∀ left right a, e.operands? = some (left, right) →
        (WeightTable.estimate p).weight left = .bounded a →
        (WeightTable.estimate p).weight right = .bounded a →
        (a + 1).toNat = a.toNat + 1) := by
  rw [WeightTable.weight_estimate hp he]
  refine ⟨e.weight_eq_unbounded_iff, fun w hw => ?_, fun hsize left right a hoperands hl hr => ?_⟩
  · have hpow := Expr.two_pow_weight_le hw
    exact ⟨hpow, le_log2_of_two_pow_le hpow⟩
  · obtain ⟨hleft, hright⟩ := Expr.nodes_operands?_subset hoperands
    have hnodes := p.nodes_sublist_of_mem he
    rw [WeightTable.weight_estimate hp (hnodes.subset (hleft left.mem_nodes))] at hl
    rw [WeightTable.weight_estimate hp (hnodes.subset (hright right.mem_nodes))] at hr
    have hpow := Expr.two_pow_succ_le hoperands hl hr
    have hlt : 2 ^ (a.toNat + 1) < 2 ^ 64 :=
      Nat.lt_of_le_of_lt (Nat.le_trans hpow hnodes.length_le) hsize
    have hsucc : a.toNat + 1 < 64 := (Nat.pow_lt_pow_iff_right Nat.one_lt_two).mp hlt
    rw [UInt32.toNat_add]
    exact Nat.mod_eq_of_lt (Nat.lt_trans hsucc (by decide))

namespace Balanced

open Shapes (node name type)

/-- `a + b` -/
def pair (id : NodeId) : Expr :=
  .binary (node id) (.arith .add) (.var (node (id + 1)) (name "a"))
    (.var (node (id + 2)) (name "b"))

/-- `(a + b) * (a + b)` -/
def square : Expr :=
  .binary (node 0) (.arith .mul) (.paren (node 1) (pair 2)) (.paren (node 5) (pair 6))

/-- `static int square(int a, int b) { return (a + b) * (a + b); }` -/
def program : Program := ⟨[⟨name "Main", none, [], [⟨0, .static, type .int, name "square",
  [⟨type .int, name "a"⟩, ⟨type .int, name "b"⟩], [.ret (node 0) (some square)]⟩]⟩]⟩

end Balanced

/-- The four leaves of `(a + b) * (a + b)` are just enough for a weight of 2. -/
theorem weights_grow_logarithmically_balanced :
    Balanced.program.DistinctNodes ∧ Balanced.square ∈ Balanced.program.exprs ∧
      (WeightTable.estimate Balanced.program).weight Balanced.square = .bounded 2 ∧
      Balanced.square.leaves.length = 4 ∧ (¬ ∃ x ∈ Balanced.square.nodes, x.isCall = true) ∧
      (2 ^ (2 : UInt32).toNat ≤ Balanced.square.leaves.length ∧
        (2 : UInt32).toNat ≤ Balanced.square.leaves.length.log2) ∧
      ((1 : UInt32) + 1).toNat = (1 : UInt32).toNat + 1 := by
  have hnodes : Balanced.program.DistinctNodes := ⟨by decide, by decide, by decide⟩
  have hmem : Balanced.square ∈ Balanced.program.exprs := List.mem_of_getElem? (i := 0) rfl
  have hweight : (WeightTable.estimate Balanced.program).weight Balanced.square = .bounded 2 := by
    decide
  obtain ⟨hcalls, hleaves, hincrement⟩ := weights_grow_logarithmically hnodes hmem
  refine ⟨hnodes, hmem, hweight, rfl, fun h => ?_, hleaves 2 hweight, ?_⟩
  · rw [hcalls.mpr h] at hweight
    cases hweight
  · exact hincrement (by decide) _ _ 1 rfl (by decide) (by decide)

end IcLir
