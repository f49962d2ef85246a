import IcLir.Proofs.Machine

/-
  Runs through a piece of a routine. `Runs P whole piece post m Q F`: started at `piece`, with
  `post` after it, the run comes through to `post` on a machine that satisfies `Q`, or stops at
  a guard and on a machine that satisfy `F`. There is one rule per kind of line. Jumps go to
  labels of the whole routine, and `Placed` says that they lead where the piece has them.
-/

namespace IcLir

/-- The label that a line defines. -/
def Line.label? : Line → Option String
  | .label name => some name
  | .instr _ => none

namespace Code

def labels (code : Code) : List String := code.filterMap Line.label?

@[simp] theorem labels_nil : labels [] = [] := rfl

@[simp] theorem labels_label (name : String) (code : Code) :
    labels (.label name :: code) = name :: labels code := rfl

@[simp] theorem labels_instr (i : Instr) (code : Code) :
    labels (.instr i :: code) = labels code := rfl

@[simp] theorem labels_append (a b : Code) : labels (a ++ b) = labels a ++ labels b :=
  List.filterMap_append

@[simp] theorem labels_load (src : Operand) (n : Nat) : labels (load src n) = [] := by
  unfold load
  split <;> rfl

theorem after?_append_label {name : String} {a b : Code} (h : name ∉ labels a) :
    after? name (a ++ .label name :: b) = some b := by
  induction a with
  | nil => simp [after?]
  | cons line a ih =>
    cases line with
    | label n =>
      rw [labels_label, List.mem_cons, not_or] at h
      rw [List.cons_append, after?, if_neg (Ne.symm h.1), ih h.2]
    | instr i => exact ih h

/-- The labels of `piece`, which stands in `whole` with `post` after it, are found there. -/
def Placed (whole piece post : Code) : Prop :=
  ∀ a name b, piece = a ++ .label name :: b → after? name whole = some (b ++ post)

theorem placed_self {code : Code} (h : (labels code).Nodup) : Placed code code [] := by
  intro a name b hcode
  subst hcode
  rw [labels_append, labels_label, List.nodup_append] at h
  have hnot : name ∉ labels a := fun hm => h.2.2 name hm name List.mem_cons_self rfl
  rw [after?_append_label hnot, List.append_nil]

namespace Placed

variable {whole a b post : Code} {name : String} {line : Line}

theorem left (h : Placed whole (a ++ b) post) : Placed whole a (b ++ post) := by
  intro u name v ha
  rw [← List.append_assoc]
  exact h u name (v ++ b) (by rw [ha, List.append_assoc, List.cons_append])

theorem right (h : Placed whole (a ++ b) post) : Placed whole b post := by
  intro u name v hb
  exact h (a ++ u) name v (by rw [hb, List.append_assoc])

theorem tail (h : Placed whole (line :: b) post) : Placed whole b post := right (a := [line]) h

theorem after? (h : Placed whole (.label name :: b) post) :
    Code.after? name whole = some (b ++ post) := h [] name b rfl

end Placed

/-! ## Steps -/

section

variable {P : Platform} {whole rest dest : Code} {m m' : Machine}

theorem step_instr {i : Instr} (h : i.run P m = some m') :
    Code.step P whole (.instr i :: rest) m = some (.running rest m') := by
  cases i <;> first
    | exact congrArg (Option.map (Config.running rest)) h
    | exact absurd h (by simp [Instr.run])

theorem step_jump {condition : Condition} {target : String}
    (hc : condition.holds m.sign = true) (ht : after? target whole = some dest) :
    Code.step P whole (.instr (.jump condition target) :: rest) m = some (.running dest m) := by
  change (if condition.holds m.sign then (after? target whole).map (Config.running · m)
    else _) = _
  rw [if_pos hc, ht]
  rfl

theorem step_jump_skip {condition : Condition} {target : String}
    (hc : condition.holds m.sign = false) :
    Code.step P whole (.instr (.jump condition target) :: rest) m = some (.running rest m) := by
  change (if condition.holds m.sign then _ else some (Config.running rest m)) = _
  rw [hc]
  rfl

end

/-! ## Runs -/

def Runs (P : Platform) (whole piece post : Code) (m : Machine) (Q : Machine → Prop)
    (F : Guard → Machine → Prop) : Prop :=
  (∃ m', Reaches P whole (.running (piece ++ post) m) (.running post m') ∧ Q m') ∨
    ∃ g m', Reaches P whole (.running (piece ++ post) m) (.stopped g m') ∧ F g m'

namespace Runs

variable {P : Platform} {whole piece a b rest post : Code} {m m' : Machine}
  {Q Q' : Machine → Prop} {F F' : Guard → Machine → Prop}

theorem nil (h : Q m) : Runs P whole [] post m Q F := .inl ⟨m, .refl, h⟩

theorem mono (h : Runs P whole piece post m Q F) (hQ : ∀ m', Q m' → Q' m')
    (hF : ∀ g m', F g m' → F' g m') : Runs P whole piece post m Q' F' := by
  cases h with
  | inl h =>
    obtain ⟨m', hm, hq⟩ := h
    exact .inl ⟨m', hm, hQ m' hq⟩
  | inr h =>
    obtain ⟨g, m', hm, hf⟩ := h
    exact .inr ⟨g, m', hm, hF g m' hf⟩

/-- A run that gets from one piece to another goes on as it does there. -/
theorem of_reaches
    (h : Reaches P whole (.running (piece ++ post) m) (.running (rest ++ post) m'))
    (hrest : Runs P whole rest post m' Q F) : Runs P whole piece post m Q F := by
  cases hrest with
  | inl hr =>
    obtain ⟨n, hn, hq⟩ := hr
    exact .inl ⟨n, h.trans hn, hq⟩
  | inr hr =>
    obtain ⟨g, n, hn, hf⟩ := hr
    exact .inr ⟨g, n, h.trans hn, hf⟩

theorem append (ha : Runs P whole a (b ++ post) m Q' F)
    (hb : ∀ m', Q' m' → Runs P whole b post m' Q F) : Runs P whole (a ++ b) post m Q F := by
  cases ha with
  | inl h =>
    obtain ⟨m', hm, hq⟩ := h
    rw [← List.append_assoc] at hm
    exact of_reaches hm (hb m' hq)
  | inr h =>
    obtain ⟨g, m', hm, hf⟩ := h
    rw [← List.append_assoc] at hm
    exact .inr ⟨g, m', hm, hf⟩

theorem label {name : String} (h : Runs P whole rest post m Q F) :
    Runs P whole (.label name :: rest) post m Q F :=
  of_reaches (.step rfl .refl) h

theorem instr {i : Instr} (h : i.run P m = some m') (hrest : Runs P whole rest post m' Q F) :
    Runs P whole (.instr i :: rest) post m Q F :=
  of_reaches (.step (step_instr h) .refl) hrest

/-- A jump that is taken, to `rest` in the same piece. -/
theorem jump {condition : Condition} {target : String} (hc : condition.holds m.sign = true)
    (ht : after? target whole = some (rest ++ post)) (hrest : Runs P whole rest post m Q F) :
    Runs P whole (.instr (.jump condition target) :: a) post m Q F :=
  of_reaches (.step (step_jump hc ht) .refl) hrest

theorem jump_skip {condition : Condition} {target : String}
    (hc : condition.holds m.sign = false) (hrest : Runs P whole rest post m Q F) :
    Runs P whole (.instr (.jump condition target) :: rest) post m Q F :=
  of_reaches (.step (step_jump_skip hc) .refl) hrest

end Runs

end Code

/-! ## Guards -/

namespace Guard

open Code

theorem named?_routine (g : Guard) : named? g.routine = some g := by
  cases g <;> rfl

/-- The bindings of a guard call. -/
def arguments (g : Guard) (registers : List Nat) : List (String × Register) :=
  g.formals.zip (registers.map .general)

end Guard

theorem Code.Runs.guard {P : Platform} {whole rest post : Code} {m : Machine}
    {Q : Machine → Prop} {F : Guard → Machine → Prop} {g : Guard} {registers : List Nat}
    (hfail : g.fails P (g.arguments registers) m = true → F g m)
    (hpass : ¬ g.fails P (g.arguments registers) m = true → Runs P whole rest post m Q F) :
    Runs P whole (g.call registers :: rest) post m Q F := by
  have hstep : Code.step P whole (g.call registers :: (rest ++ post)) m =
      some (if g.fails P (g.arguments registers) m then .stopped g m
        else .running (rest ++ post) m) := by
    change (Guard.named? g.routine).map _ = _
    rw [Guard.named?_routine]
    rfl
  cases h : g.fails P (g.arguments registers) m with
  | true =>
    rw [h] at hstep
    exact .inr ⟨g, m, .step hstep .refl, hfail h⟩
  | false =>
    rw [h] at hstep
    exact .of_reaches (.step hstep .refl) (hpass (by rw [h]; exact Bool.false_ne_true))

namespace Guard

variable (P : Platform) (m : Machine)

theorem fails_nullRef_iff (d : Nat) :
    nullRef.fails P (nullRef.arguments [d]) m = true ↔
      m.registers (.general d) = Word.null := by
  rw [← P.order_eq_iff]
  change (if (Condition.when .eq).holds (P.order (m.registers (.general d)) (.int 0)) then _
    else false) = true ↔ _
  simp [Condition.holds, CompareOp.holds, Word.null]

theorem fails_zero_iff (d : Nat) :
    zero.fails P (zero.arguments [d]) m = true ↔ m.registers (.general d) = .int 0 := by
  rw [← P.order_eq_iff]
  change (if (Condition.when .eq).holds (P.order (m.registers (.general d)) (.int 0)) then _
    else false) = true ↔ _
  simp [Condition.holds, CompareOp.holds]

theorem fails_size_iff (d : Nat) :
    size.fails P (size.arguments [d]) m = true ↔
      P.order (m.registers (.general d)) (.int 0) = .lt := by
  change (if (Condition.when .lt).holds (P.order (m.registers (.general d)) (.int 0)) then _
    else false) = true ↔ _
  simp [Condition.holds, CompareOp.holds]

/-- An index is tested against the length first, then against zero. -/
theorem fails_arrayAccess_iff (array index : Nat) :
    arrayAccess.fails P (arrayAccess.arguments [array, index]) m = true ↔
      P.order (m.registers (.general index)) (m.memory.length (m.registers (.general array))) ≠
          .lt ∨
        P.order (m.registers (.general index)) (.int 0) = .lt := by
  change (if (Condition.when .ge).holds (P.order (m.registers (.general index))
      (m.memory.length (m.registers (.general array)))) then _
    else if (Condition.when .lt).holds (P.order (m.registers (.general index)) (.int 0)) then _
    else false) = true ↔ _
  simp only [Condition.holds, CompareOp.holds]
  grind

end Guard

end IcLir
