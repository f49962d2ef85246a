import IcLir.Lowering.Template
import IcLir.Proofs.CodeRuns
import IcLir.Proofs.EvaluationOrder

/-
  Runs of expression code. `Delivers x r d`: wherever the code of `r` stands, its run ends with
  the outcome `x` in its operand, or stops at a guard as `x` does, and registers below `d`,
  slots and memory stay as they are. The rules here put the code of one or two operands
  together; they say nothing of what is done with the operands.
-/

namespace IcLir

open Code Lowering

/-! ## What code leaves alone -/

/-- Slots, memory and the registers below `d` are the same. -/
structure Machine.Keeps (d : Nat) (m m' : Machine) : Prop where
  slots : m'.slots = m.slots
  memory : m'.memory = m.memory
  registers : ∀ n, n < d → m'.registers (.general n) = m.registers (.general n)

namespace Machine.Keeps

variable {d d' : Nat} {m m' m'' : Machine}

theorem refl (d : Nat) (m : Machine) : Keeps d m m := ⟨rfl, rfl, fun _ _ => rfl⟩

theorem trans (h : Keeps d m m') (h' : Keeps d m' m'') : Keeps d m m'' :=
  ⟨h'.slots.trans h.slots, h'.memory.trans h.memory,
    fun n hn => (h'.registers n hn).trans (h.registers n hn)⟩

theorem mono (h : Keeps d' m m') (hd : d ≤ d') : Keeps d m m' :=
  ⟨h.slots, h.memory, fun n hn => h.registers n (by omega)⟩

theorem set {n : Nat} (h : Keeps d m m') (hn : d ≤ n) (w : Word) :
    Keeps d m (m'.set (.general n) w) := by
  refine ⟨h.slots, h.memory, fun k hk => ?_⟩
  have hne : Register.general k ≠ .general n := by
    intro heq
    have : k = n := Register.general.inj heq
    omega
  rw [m'.set_registers_of_ne _ w hne]
  exact h.registers k hk

theorem setSign (h : Keeps d m m') (sign : Ordering) : Keeps d m (m'.setSign sign) :=
  ⟨h.slots, h.memory, h.registers⟩

/-- Literals and slots mean the same on both machines. -/
theorem value_eq {P : Platform} (h : Keeps d m m') {o : Operand}
    (ho : (o.isLiteral || o.isSlot) = true) : m'.value P o = m.value P o := by
  cases o with
  | int | label => rfl
  | slot name => exact congrFun h.slots name
  | reg | field | element => simp [Operand.isLiteral, Operand.isSlot] at ho

end Machine.Keeps

/-! ## Outcomes of a run -/

/-- The run may end with `w`: it is the word of the value, or nothing is asked. -/
def EndsIn (x : Outcome Value) (w : Word) : Prop :=
  match x with
  | .ok v => v.IsWord w
  | .error (.guard _) => False
  | .error .stuck => True

/-- The run may stop at `g`: a guard fails, and in the order of the outcome it is this one. -/
def StopsAt {α : Type} (strategy : Strategy) (x : Outcome α) (g : Guard) : Prop :=
  match x with
  | .ok _ => False
  | .error (.guard g') => strategy = .baseline → g = g'
  | .error .stuck => True

/-- No guard has failed. -/
def Outcome.Passes {α : Type} (x : Outcome α) : Prop := ∀ g, x ≠ .error (.guard g)

section

variable {α β : Type} {strategy : Strategy} {x y : Outcome Value} {w w' : Word} {g : Guard}
  {f : Value → Outcome Value}

theorem Outcome.exists_of_bind_eq_ok {x : Outcome α} {f : α → Outcome β} {b : β}
    (h : (x >>= f) = .ok b) : ∃ a, x = .ok a ∧ f a = .ok b := by
  cases x with
  | ok a => exact ⟨a, rfl, h⟩
  | error e => cases h

theorem EndsIn.bind (hx : EndsIn x w) (hf : ∀ v, v.IsWord w → EndsIn (f v) w') :
    EndsIn (x >>= f) w' := by
  match x with
  | .ok v => exact hf v hx
  | .error .stuck => trivial

theorem EndsIn.passes (h : EndsIn x w) : x.Passes := by
  rintro g rfl
  exact h

theorem EndsIn.isWord {v : Value} (h : EndsIn x w) (hx : x = .ok v) : v.IsWord w := by
  rw [hx] at h
  exact h

/-- A word that was just put into a register. -/
theorem EndsIn.set (hx : EndsIn x w) (P : Platform) (m : Machine) (n : Nat) :
    EndsIn x ((m.set (.general n) w).value P (.r n)) := by
  change EndsIn x ((m.set (.general n) w).registers (.general n))
  rw [m.set_registers_self]
  exact hx

theorem StopsAt.bind {x : Outcome α} {f : α → Outcome β} (hx : StopsAt strategy x g) :
    StopsAt strategy (x >>= f) g := by
  match x with
  | .error (.guard _) => exact hx
  | .error .stuck => trivial

/-- What comes after a value may stop the run. -/
theorem EndsIn.stopsAt_bind (hx : EndsIn x w)
    {f : Value → Outcome β} (hf : ∀ v, v.IsWord w → StopsAt strategy (f v) g) :
    StopsAt strategy (x >>= f) g := by
  match x with
  | .ok v => exact hf v hx
  | .error .stuck => trivial

theorem StopsAt.ne_ok {x : Outcome α} (h : StopsAt strategy x g) (v : α) : x ≠ .ok v := by
  rintro rfl
  exact h

/-- Where operands are reordered, any failure will do. -/
theorem stopsAt_of_ne_ok {x : Outcome α} (hs : strategy = .pressureAware)
    (hx : ∀ v, x ≠ .ok v) : StopsAt strategy x g := by
  match x with
  | .ok v => exact absurd rfl (hx v)
  | .error (.guard _) =>
    intro hb
    rw [hs] at hb
    simp at hb
  | .error .stuck => trivial

end

/-! ## Outcomes of two operands -/

section

open Outcome (both)

variable {α β : Type} {strategy : Strategy} {x : Outcome α} {y : Outcome β} {g : Guard}
  {f : α → β → Outcome Value} {rightFirst : Bool}

/-- Operands that have both got through leave it to the operation how the run ends. -/
theorem Outcome.Passes.both {P : Outcome Value → Prop} (hx : x.Passes) (hy : y.Passes)
    (hstuck : P (.error .stuck)) (hf : ∀ v w, x = .ok v → y = .ok w → P (f v w)) :
    P (both rightFirst x y f) := by
  cases rightFirst <;> match x, y with
    | .ok v, .ok w => exact hf v w rfl rfl
    | .error .stuck, .ok _ | .ok _, .error .stuck | .error .stuck, .error .stuck => exact hstuck
    | .error (.guard g), _ => exact absurd rfl (hx g)
    | _, .error (.guard g) => exact absurd rfl (hy g)

/-- Both operands of an operation with a value have one. -/
theorem Outcome.exists_of_both_eq_ok {r : Value} (h : Outcome.both rightFirst x y f = .ok r) :
    ∃ v w, x = .ok v ∧ y = .ok w := by
  have hvalue := Outcome.toOption_both rightFirst x y f
  rw [h] at hvalue
  obtain ⟨v, hv, hrest⟩ := Option.bind_eq_some_iff.mp hvalue.symm
  obtain ⟨w, hw, _⟩ := Option.bind_eq_some_iff.mp hrest
  exact ⟨v, w, Outcome.eq_ok_of_toOption hv, Outcome.eq_ok_of_toOption hw⟩

theorem EndsIn.both {x y : Outcome Value} {a b r : Word} {f : Value → Value → Outcome Value}
    (hx : EndsIn x a) (hy : EndsIn y b)
    (hf : ∀ v w, v.IsWord a → w.IsWord b → EndsIn (f v w) r) :
    EndsIn (Outcome.both rightFirst x y f) r :=
  hx.passes.both (P := (EndsIn · r)) hy.passes trivial fun v w hv hw =>
    hf v w (hx.isWord hv) (hy.isWord hw)

theorem EndsIn.stopsAt_both {x y : Outcome Value} {a b : Word} {f : Value → Value → Outcome Value}
    (hx : EndsIn x a) (hy : EndsIn y b)
    (hf : ∀ v w, v.IsWord a → w.IsWord b → StopsAt strategy (f v w) g) :
    StopsAt strategy (Outcome.both rightFirst x y f) g :=
  hx.passes.both (P := (StopsAt strategy · g)) hy.passes trivial fun v w hv hw =>
    hf v w (hx.isWord hv) (hy.isWord hw)

/-- The left operand stops the run before the right one is evaluated. -/
theorem StopsAt.both_left (h : StopsAt strategy x g)
    (horder : rightFirst = false ∨ strategy = .pressureAware) :
    StopsAt strategy (both rightFirst x y f) g := by
  rcases horder with rfl | hs
  · exact h.bind
  · refine stopsAt_of_ne_ok hs fun r hr => ?_
    obtain ⟨v, _, hv, _⟩ := Outcome.exists_of_both_eq_ok hr
    exact h.ne_ok v hv

/-- The right operand stops the run before the left one is evaluated. -/
theorem StopsAt.both_right (h : StopsAt strategy y g)
    (horder : rightFirst = true ∨ strategy = .pressureAware) :
    StopsAt strategy (both rightFirst x y f) g := by
  rcases horder with rfl | hs
  · exact h.bind
  · refine stopsAt_of_ne_ok hs fun r hr => ?_
    obtain ⟨_, w, _, hw⟩ := Outcome.exists_of_both_eq_ok hr
    exact h.ne_ok w hw

/-- The left operand stops the run, whether the right one comes after it or got through. -/
theorem StopsAt.both_left_of_passes (h : StopsAt strategy x g) (hy : y.Passes) :
    StopsAt strategy (both rightFirst x y f) g := by
  cases rightFirst with
  | false => exact h.bind
  | true =>
    match y with
    | .ok w => exact h.bind
    | .error .stuck => trivial
    | .error (.guard g') => exact absurd rfl (hy g')

theorem StopsAt.both_right_of_passes (h : StopsAt strategy y g) (hx : x.Passes) :
    StopsAt strategy (both rightFirst x y f) g := by
  cases rightFirst with
  | true => exact h.bind
  | false =>
    match x with
    | .ok v => exact h.bind
    | .error .stuck => trivial
    | .error (.guard g') => exact absurd rfl (hx g')

end

/-! ## Code that delivers an outcome -/

/-- Where expression code runs: in a routine, on slots and a memory that it leaves alone. Only
    some guards are called. -/
structure Site where
  platform : Platform
  routine : Code
  strategy : Strategy
  calls : Guard → Prop
  slots : String → Word
  memory : Memory

namespace Site

open Outcome (both)

variable {S : Site}

variable {d : Nat} {x : Outcome Value} {m : Machine}

/-- The machine has the slots and the memory of the site. -/
structure Holds (S : Site) (m : Machine) : Prop where
  slots : m.slots = S.slots
  memory : m.memory = S.memory

theorem Holds.keep {m' : Machine} (h : S.Holds m) (hk : m.Keeps d m') : S.Holds m' :=
  ⟨hk.slots.trans h.slots, hk.memory.trans h.memory⟩

/-- From `m` the piece gets through with `Q`, or stops as `x` says. -/
def Runs (S : Site) (piece post : Code) (m : Machine) (Q : Machine → Prop) (x : Outcome Value) :
    Prop :=
  Code.Runs S.platform S.routine piece post m Q fun g m' =>
    S.calls g ∧ StopsAt S.strategy x g ∧ S.Holds m'

/-- A run that may stop as `x` does may stop as `y` does. -/
theorem Runs.stops {y : Outcome Value} {piece post : Code} {Q : Machine → Prop}
    (h : S.Runs piece post m Q x) (hstops : ∀ g, StopsAt S.strategy x g → StopsAt S.strategy y g) :
    S.Runs piece post m Q y :=
  h.mono (fun _ hq => hq) fun g _ hg => ⟨hg.1, hstops g hg.2.1, hg.2.2⟩

/-- The code leaves the outcome `x` in register `n`. -/
def Fills (S : Site) (x : Outcome Value) (code : Code) (d n : Nat) : Prop :=
  ∀ post m, Placed S.routine code post → S.Holds m →
    S.Runs code post m (fun m' => m.Keeps d m' ∧ EndsIn x (m'.registers (.general n))) x

def Delivers (S : Site) (x : Outcome Value) (r : Code × Operand) (d : Nat) : Prop :=
  ∀ post m, Placed S.routine r.1 post → S.Holds m →
    S.Runs r.1 post m (fun m' => m.Keeps d m' ∧ EndsIn x (m'.value S.platform r.2)) x

theorem runs_load {post : Code} {Q : Machine → Prop} {F : Guard → Machine → Prop} {src : Operand}
    {n : Nat} (h : ∀ m', m.Keeps n m' → m'.registers (.general n) = m.value S.platform src → Q m') :
    Code.Runs S.platform S.routine (load src n) post m Q F := by
  unfold load
  split
  · next hr =>
    obtain rfl : src = .r n := by simpa [Operand.isRegister] using hr
    exact .nil (h m (.refl n m) rfl)
  · refine .instr rfl (.nil (h _ ((Machine.Keeps.refl n m).set (Nat.le_refl n) _) ?_))
    exact m.set_registers_self ..

/-- An operand is loaded into the base register of its code. -/
theorem Delivers.load {r : Code × Operand} (h : S.Delivers x r d) :
    S.Fills x (r.1 ++ Code.load r.2 d) d d := by
  intro post m hp hm
  refine .append (h _ m hp.left hm) fun m₁ h₁ => ?_
  obtain ⟨hk, hx⟩ := h₁
  exact runs_load fun m₂ hk₂ hv => ⟨hk.trans hk₂, hv ▸ hx⟩

/-- Code that goes on with a value in the base register. -/
theorem Fills.andThen {f : Value → Outcome Value} {code rest : Code} {o : Operand}
    (h : S.Fills x code d d) (hrest : ∀ post m, Placed S.routine rest post → S.Holds m →
      EndsIn x (m.registers (.general d)) →
      S.Runs rest post m (fun m' => m.Keeps d m' ∧ EndsIn (x >>= f) (m'.value S.platform o))
        (x >>= f)) : S.Delivers (x >>= f) (code ++ rest, o) d := by
  intro post m hp hm
  refine .append ((h _ m hp.left hm).stops fun _ hg => hg.bind) fun m₁ h₁ => ?_
  obtain ⟨hk, hx⟩ := h₁
  refine (hrest post m₁ hp.right (hm.keep hk) hx).mono ?_ fun _ _ hg => hg
  intro m₂ h₂
  obtain ⟨hk₂, hx₂⟩ := h₂
  exact ⟨hk.trans hk₂, hx₂⟩

/-! ## Two operands -/

/-- The code leaves `x` in the left register and `y` in the right operand. Where it stops, it
    stops as both do in the given order. -/
def Readies (S : Site) (order : Bool) (x y : Outcome Value) (os : Operands) (d : Nat) : Prop :=
  ∀ post m, Placed S.routine os.code post → S.Holds m → ∀ f,
    S.Runs os.code post m (fun m' => m.Keeps d m' ∧ EndsIn x (m'.registers (.general os.left)) ∧
      EndsIn y (m'.value S.platform os.right)) (both order x y f)

theorem le_operands_left (strategy : Strategy) (rightFirst keep : Bool) (d : Nat)
    (l r : Code × Operand) : d ≤ (operands strategy rightFirst keep d l r).left := by
  cases rightFirst <;> simp [operands]

section

variable {strategy : Strategy} {order : Bool} {x y : Outcome Value} {l r : Code × Operand} {d : Nat}

/-- The right operand is loaded, or kept as a literal or a slot. -/
theorem runs_rightOperand {keep : Bool} {value : Operand} {n : Nat} {post : Code} {m : Machine}
    {Q : Machine → Prop} {F : Guard → Machine → Prop}
    (h : ∀ m', m.Keeps n m' →
      (∀ m'', m'.Keeps (n + 1) m'' → m''.value S.platform (rightOperand strategy keep value n).2 =
        m.value S.platform value) → Q m') :
    Code.Runs S.platform S.routine (rightOperand strategy keep value n).1 post m Q F := by
  unfold rightOperand at h ⊢
  split
  · next hkeep =>
    simp only [hkeep, if_true] at h
    have hv : (value.isLiteral || value.isSlot) = true := by simp_all
    exact .nil (h m (.refl n m) fun m'' hk => hk.value_eq hv)
  · next hkeep =>
    simp only [hkeep] at h
    refine runs_load fun m' hk hr => h m' hk fun m'' hk' => ?_
    exact (hk'.registers n (Nat.lt_succ_self n)).trans hr

theorem readies_leftFirst (horder : order = false ∨ S.strategy = .pressureAware)
    (hl : S.Delivers x l d) (hr : S.Delivers y r (d + 1)) (keep : Bool) :
    S.Readies order x y (operands strategy false keep d l r) d := by
  intro post m hp hm f
  have hcode : (operands strategy false keep d l r).code =
      l.1 ++ Code.load l.2 d ++ (r.1 ++ (rightOperand strategy keep r.2 (d + 1)).1) := by
    simp [operands]
  rw [hcode] at hp ⊢
  refine .append ((hl.load _ m hp.left hm).stops fun _ hg => hg.both_left horder) fun m₁ h₁ => ?_
  obtain ⟨hk, hx⟩ := h₁
  have hright := hr _ m₁ hp.right.left (hm.keep hk)
  refine .append (hright.stops fun _ hg => hg.both_right_of_passes hx.passes) fun m₂ h₂ => ?_
  obtain ⟨hk₂, hy⟩ := h₂
  refine runs_rightOperand fun m₃ hk₃ hv => ?_
  have hk₂₃ : m₁.Keeps (d + 1) m₃ := hk₂.trans hk₃
  refine ⟨hk.trans (hk₂₃.mono (Nat.le_succ d)), ?_, ?_⟩
  · change EndsIn x (m₃.registers (.general d))
    rw [hk₂₃.registers d (Nat.lt_succ_self d)]
    exact hx
  · change EndsIn y (m₃.value S.platform (rightOperand strategy keep r.2 (d + 1)).2)
    rw [hv m₃ (.refl _ m₃)]
    exact hy

theorem readies_rightFirst (horder : order = true ∨ S.strategy = .pressureAware)
    (hr : S.Delivers y r d) (hl : S.Delivers x l (d + 1)) (keep : Bool) :
    S.Readies order x y (operands strategy true keep d l r) d := by
  intro post m hp hm f
  have hcode : (operands strategy true keep d l r).code =
      r.1 ++ ((rightOperand strategy keep r.2 d).1 ++ (l.1 ++ Code.load l.2 (d + 1))) := by
    simp [operands]
  rw [hcode] at hp ⊢
  refine .append ((hr _ m hp.left hm).stops fun _ hg => hg.both_right horder) fun m₁ h₁ => ?_
  obtain ⟨hk, hy⟩ := h₁
  refine .append (runs_rightOperand fun m₂ hk₂ hv => And.intro hk₂ hv) fun m₂ h₂ => ?_
  obtain ⟨hk₂, hv⟩ := h₂
  have hleft := hl.load post m₂ hp.right.right (hm.keep (hk.trans hk₂))
  refine (hleft.stops fun _ hg => hg.both_left_of_passes hy.passes).mono ?_ fun _ _ hg => hg
  intro m₃ h₃
  obtain ⟨hk₃, hx⟩ := h₃
  refine ⟨(hk.trans hk₂).trans (hk₃.mono (Nat.le_succ d)), hx, ?_⟩
  change EndsIn y (m₃.value S.platform (rightOperand strategy keep r.2 d).2)
  rw [hv m₃ hk₃]
  exact hy

/-- The code of both operands delivers; the one that is evaluated first is at register `d`. It
    is the first one in the given order, or the order makes no difference. -/
def DeliversPair (S : Site) (order : Bool) (x y : Outcome Value) (rightFirst : Bool)
    (l r : Code × Operand) (d : Nat) : Prop :=
  (order = rightFirst ∨ S.strategy = .pressureAware) ∧
    if rightFirst then S.Delivers y r d ∧ S.Delivers x l (d + 1)
    else S.Delivers x l d ∧ S.Delivers y r (d + 1)

theorem DeliversPair.readies {rightFirst : Bool} (h : S.DeliversPair order x y rightFirst l r d)
    (keep : Bool) : S.Readies order x y (operands strategy rightFirst keep d l r) d := by
  obtain ⟨horder, h⟩ := h
  cases rightFirst with
  | false => exact readies_leftFirst horder h.1 h.2 keep
  | true => exact readies_rightFirst horder h.1 h.2 keep

end

end Site

end IcLir
