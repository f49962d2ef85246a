import IcLir.Proofs.FirstFailure
import IcLir.Proofs.ProgramCode

/-
  The guard on the size of an array. The code of `new T[n]` multiplies `n` by 4, the size of a
  word, and then asks the guard whether the product is negative. On words of `w` bits the product
  wraps around. Of the three upper bits of `n` it keeps only the lowest, and that one becomes its
  sign (`exists_split`). So the guard lets `n` pass exactly if this bit is 0, and only if the other
  two are 0 as well is `n` what it was taken for.
-/

namespace IcLir

/-! ## Words of a fixed width -/

namespace Platform

/-- Products are those of words of `w` bits. -/
def Wraps (P : Platform) (w : Nat) : Prop :=
  ∀ a b : BitVec w, P.arith .mul a.toInt b.toInt = (a * b).toInt

/-- Numbers of `w` bits. -/
def wrapping (w : Nat) : Platform :=
  { exact with
    arith := fun op a b => (BitVec.ofInt w (exact.arith op a b)).toInt
    neg := fun n => (BitVec.ofInt w (exact.neg n)).toInt }

theorem wraps_wrapping (w : Nat) : (wrapping w).Wraps w := by
  intro a b
  change (BitVec.ofInt w (a.toInt * b.toInt)).toInt = (a * b).toInt
  rw [BitVec.ofInt_mul, BitVec.ofInt_toInt, BitVec.ofInt_toInt]

end Platform

/-- The three upper bits of a word, as a signed number. -/
def upperBits {w : Nat} (n : BitVec w) : Int := n.toInt >>> (w - 3)

theorem bmod_eq_of_eq_add_mul {x y k : Int} {m : Nat} (h : x = y + m * k)
    (hlo : -(m : Int) ≤ 2 * y) (hhi : 2 * y < m) : x.bmod m = y := by
  rw [h, Int.add_mul_bmod_self_left]
  exact Int.bmod_eq_of_le_mul_two (by omega) (by omega)

/-- Four times a number, modulo eight units. -/
theorem bmod_mul_four {unit : Nat} {n q r : Int} (hn : n = q * unit + r) (hlo : 0 ≤ r)
    (hhi : r < unit) : (n * 4).bmod (8 * unit) = 4 * r - q % 2 * (4 * unit) := by
  obtain ⟨k, hk⟩ : ∃ k, q + q % 2 = 2 * k := ⟨(q + q % 2) / 2, by omega⟩
  refine bmod_eq_of_eq_add_mul (k := k) ?_ ?_ ?_
  · push_cast
    grind
  all_goals
    rcases Int.emod_two_eq q with h | h <;>
    · rw [h]
      omega

section

variable {w : Nat} (n : BitVec w)

theorem toInt_four (hw : 8 ≤ w) : (4#w).toInt = 4 := by
  have hle : 2 ^ 8 ≤ 2 ^ w := Nat.pow_le_pow_right (by omega) hw
  rw [BitVec.toInt_ofNat']
  exact bmod_eq_of_eq_add_mul (k := 0) (by omega) (by omega) (by omega)

/-- A word is so many units and a rest, and the sign of its product by 4 is the parity of their
    number. -/
theorem exists_split (hw : 8 ≤ w) : ∃ unit rest : Int, 0 ≤ rest ∧ rest < unit ∧
    n.toInt = upperBits n * unit + rest ∧ -4 ≤ upperBits n ∧ upperBits n ≤ 3 ∧
    (n * 4#w).toInt = 4 * rest - upperBits n % 2 * (4 * unit) := by
  obtain ⟨k, rfl⟩ : ∃ k, w = k + 3 := ⟨w - 3, by omega⟩
  have hupper : upperBits n = n.toInt / ((2 ^ k : Nat) : Int) := by
    unfold upperBits
    rw [Int.shiftRight_eq_div_pow, Nat.add_sub_cancel]
  have hunit : 1 < 2 ^ k := Nat.one_lt_two_pow (by omega)
  have hwidth : 2 ^ (k + 3) = 8 * 2 ^ k := by rw [Nat.pow_add, Nat.mul_comm]
  have hcast : ((2 ^ (k + 3) : Nat) : Int) = 2 ^ (k + 3) := Int.natCast_pow 2 (k + 3)
  have hlo := BitVec.le_two_mul_toInt (x := n)
  have hhi := BitVec.two_mul_toInt_lt (x := n)
  rw [← hcast, hwidth] at hlo hhi
  have hmul : (n * 4#(k + 3)).toInt = (n.toInt * 4).bmod (8 * 2 ^ k) := by
    rw [BitVec.toInt_mul, toInt_four hw, hwidth]
  have hrest := Int.emod_nonneg n.toInt (b := ((2 ^ k : Nat) : Int)) (by omega)
  have hlt := Int.emod_lt_of_pos n.toInt (b := ((2 ^ k : Nat) : Int)) (by omega)
  have hsplit : n.toInt = upperBits n * (2 ^ k : Nat) + n.toInt % (2 ^ k : Nat) := by
    rw [hupper, Int.mul_comm, Int.mul_ediv_add_emod]
  refine ⟨_, _, hrest, hlt, hsplit, ?_, ?_, ?_⟩
  · rw [hupper]
    exact Int.le_ediv_of_mul_le (by omega) (by omega)
  · rw [hupper]
    exact Int.le_of_lt_add_one (Int.ediv_lt_of_lt_mul (by omega) (by omega))
  · rw [hmul]
    exact bmod_mul_four hsplit hrest hlt

theorem mul_four_neg_iff (hw : 8 ≤ w) : (n * 4#w).toInt < 0 ↔ upperBits n % 2 = 1 := by
  obtain ⟨unit, rest, hlo, hhi, _, _, _, hproduct⟩ := exists_split n hw
  rw [hproduct]
  rcases Int.emod_two_eq (upperBits n) with h | h
  · rw [h]
    omega
  · rw [h]
    omega

/-- The product is right for the sizes whose three upper bits are 0. -/
theorem mul_four_eq_iff (hw : 8 ≤ w) :
    0 ≤ n.toInt ∧ (n * 4#w).toInt = 4 * n.toInt ↔ upperBits n = 0 := by
  obtain ⟨unit, rest, hlo, hhi, hn, _, _, hproduct⟩ := exists_split n hw
  rw [hproduct, hn]
  constructor
  · rintro ⟨hnonneg, heq⟩
    have hupper : 0 ≤ upperBits n := by
      refine Int.not_lt.mp fun hneg => ?_
      have hle : upperBits n * unit ≤ -1 * unit :=
        Int.mul_le_mul_of_nonneg_right (by omega) (by omega)
      omega
    have hzero : (upperBits n + upperBits n % 2) * unit = 0 := by grind
    rcases Int.mul_eq_zero.mp hzero with h | h
    · omega
    · omega
  · intro h
    rw [h]
    omega

end

/-! ## The lines that make an array -/

namespace Lowering

open Code

/-- The line that asks for as many bytes as register `d` says. -/
def allocateLine (d : Nat) : Line := libraryCall "__allocateArray" [.r d] d

/-- The lines of `new T[n]`, with `n` in register `d`. -/
def allocationLines (d : Nat) : Code :=
  [.instr (.arith .mul (.int 4) (.general d)), Guard.size.call [d], allocateLine d]

/-- Where the lines lead if the product is `bytes`. -/
def allocationEnd (d : Nat) (post : Code) (m : Machine) (bytes : Int) : Config :=
  if bytes < 0 then .stopped .size (m.set (.general d) (.int bytes))
  else .running (allocateLine d :: post) (m.set (.general d) (.int bytes))

section

variable {P : Platform} {d : Nat} {whole post : Code} {m : Machine} {n bytes : Int}

theorem isFinal_allocationEnd : (allocationEnd d post m bytes).IsFinal P whole := by
  unfold allocationEnd
  split
  · trivial
  · rfl

theorem reaches_allocationEnd (h : m.registers (.general d) = .int n)
    (hproduct : P.arith .mul n 4 = bytes) :
    whole.Reaches P (.running (allocationLines d ++ post) m) (allocationEnd d post m bytes) := by
  have hrun : (Instr.arith .mul (.int 4) (.general d)).run P m =
      some (m.set (.general d) (.int bytes)) := by
    rw [Instr.run, h, P.number_int, Machine.value, P.number_int, hproduct]
  have hfails := Guard.fails_size_iff P (m.set (.general d) (.int bytes)) d
  rw [Machine.set_registers_self, P.order_lt_iff] at hfails
  have hruns : Runs P whole [.instr (.arith .mul (.int 4) (.general d)), Guard.size.call [d]]
      (allocateLine d :: post) m
      (fun m' => .running (allocateLine d :: post) m' = allocationEnd d post m bytes)
      (fun g m' => .stopped g m' = allocationEnd d post m bytes) :=
    .instr hrun (.guard (fun hfail => (if_pos (hfails.mp hfail)).symm)
      fun hpass => .nil (if_neg fun hneg => hpass (hfails.mpr hneg)).symm)
  rcases hruns with ⟨m', hm', heq⟩ | ⟨g, m', hm', heq⟩
  · rw [← heq]
    exact hm'
  · rw [← heq]
    exact hm'

variable {k : Config} {m' : Machine} (h : whole.Reaches P k (allocationEnd d post m bytes))

include h

theorem reaches_allocate_iff : whole.Reaches P k (.running (allocateLine d :: post) m') ↔
    0 ≤ bytes ∧ m' = m.set (.general d) (.int bytes) := by
  constructor
  · intro h'
    have heq := h'.eq_of_isFinal h rfl isFinal_allocationEnd
    unfold allocationEnd at heq
    split at heq
    · cases heq
    · next hnonneg => exact ⟨Int.not_lt.mp hnonneg, (Config.running.inj heq).2⟩
  · rintro ⟨hnonneg, rfl⟩
    unfold allocationEnd at h
    rwa [if_neg (Int.not_lt.mpr hnonneg)] at h

theorem reaches_stopped_iff {g : Guard} : whole.Reaches P k (.stopped g m') ↔
    bytes < 0 ∧ g = .size ∧ m' = m.set (.general d) (.int bytes) := by
  constructor
  · intro h'
    have heq := h'.eq_of_isFinal h trivial isFinal_allocationEnd
    unfold allocationEnd at heq
    split at heq
    · next hneg =>
      obtain ⟨rfl, rfl⟩ := Config.stopped.inj heq
      exact ⟨hneg, rfl, rfl⟩
    · cases heq
  · rintro ⟨hneg, rfl, rfl⟩
    unfold allocationEnd at h
    rwa [if_pos hneg] at h

end

end Lowering

open Code Lowering

/-- The code of `new T[size]` comes to an end in one of two ways once the value `n` of the size is
    in register `d`, by the three upper bits of `n`. It allocates an array of a size that is not
    negative, with four bytes for each element, unless these bits are 100, 110 or 010. -/
theorem size_guard_is_exact_unless_product_wraps {w : Nat} (hw : 8 ≤ w) {P : Platform}
    (hP : P.Wraps w) {env : LowerEnv} {node : Node} {element : TypeExpr} {size : Expr} {d : Nat}
    {s s' : Supply} {code : Code} {o : Operand}
    (h : lowerExpr env (.newArray node element size) d s = .ok (code, o) s') :
    ∃ sizeCode value, lowerExpr env size d s = .ok (sizeCode, value) s' ∧
      code = sizeCode ++ load value d ++ allocationLines d ∧ o = .r d ∧
      ∀ (whole post : Code) (m₀ m : Machine) (n : BitVec w),
        whole.Reaches P (.running (code ++ post) m₀) (.running (allocationLines d ++ post) m) →
        m.registers (.general d) = .int n.toInt →
        (∀ m', whole.Reaches P (.running (code ++ post) m₀)
            (.running (allocateLine d :: post) m') ↔
          upperBits n ∈ [-4, -2, 0, 2] ∧ m' = m.set (.general d) (.int (n * 4#w).toInt)) ∧
        (∀ g m', whole.Reaches P (.running (code ++ post) m₀) (.stopped g m') ↔
          upperBits n ∈ [-3, -1, 1, 3] ∧ g = .size ∧
            m' = m.set (.general d) (.int (n * 4#w).toInt)) ∧
        ((∀ m', whole.Reaches P (.running (code ++ post) m₀)
            (.running (allocateLine d :: post) m') →
          0 ≤ n.toInt ∧ m'.registers (.general d) = .int (4 * n.toInt)) ↔
          upperBits n ∉ [-4, -2, 2]) := by
  rw [lowerExpr] at h
  obtain ⟨⟨sizeCode, value⟩, s₁, hsize, hrest⟩ := Pass.bind_eq_ok.mp h
  obtain ⟨hresult, rfl⟩ := EStateM.Result.ok.inj hrest
  obtain ⟨rfl, rfl⟩ := Prod.mk.inj hresult
  refine ⟨sizeCode, value, hsize, rfl, rfl, ?_⟩
  intro whole post m₀ m n hloaded hn
  have hproduct : P.arith .mul n.toInt 4 = (n * 4#w).toInt := by
    rw [← hP, toInt_four hw]
  have hend := hloaded.trans (reaches_allocationEnd hn hproduct)
  obtain ⟨_, _, _, _, _, hlo, hhi, _⟩ := exists_split n hw
  have hneg := mul_four_neg_iff n hw
  have hpasses : 0 ≤ (n * 4#w).toInt ↔ upperBits n ∈ [-4, -2, 0, 2] := by
    simp only [List.mem_cons, List.not_mem_nil, or_false]
    omega
  have hfails : (n * 4#w).toInt < 0 ↔ upperBits n ∈ [-3, -1, 1, 3] := by
    simp only [List.mem_cons, List.not_mem_nil, or_false]
    omega
  have hallocates : ∀ m', whole.Reaches P _ (.running (allocateLine d :: post) m') ↔
      upperBits n ∈ [-4, -2, 0, 2] ∧ m' = m.set (.general d) (.int (n * 4#w).toInt) :=
    fun m' => (reaches_allocate_iff hend).trans (and_congr_left fun _ => hpasses)
  refine ⟨hallocates, fun g m' => (reaches_stopped_iff hend).trans
    (and_congr_left fun _ => hfails), fun hexact hwraps => ?_, fun hupper m' hm' => ?_⟩
  · -- the allocation is reached with another number of bytes, or for a negative size
    have hpassed : upperBits n ∈ [-4, -2, 0, 2] := by grind
    obtain ⟨hnonneg, hbytes⟩ := hexact _ ((hallocates _).mpr ⟨hpassed, rfl⟩)
    rw [Machine.set_registers_self, Word.int.injEq] at hbytes
    have hzero := (mul_four_eq_iff n hw).mp ⟨hnonneg, hbytes⟩
    rw [hzero] at hwraps
    exact absurd hwraps (by decide)
  · obtain ⟨hpassed, rfl⟩ := (hallocates m').mp hm'
    have hzero : upperBits n = 0 := by grind
    obtain ⟨hnonneg, hbytes⟩ := (mul_four_eq_iff n hw).mpr hzero
    rw [Machine.set_registers_self, hbytes]
    exact ⟨hnonneg, rfl⟩

/-- The largest size of 32 bits that is served: one less than an eighth of all words. -/
theorem size_guard_is_exact_unless_product_wraps_largest :
    ∃ code o s', lowerExpr ⟨.initial {}, .baseline, TypeTable.classId 0⟩
        (.newArray (Shapes.node 0) (Shapes.type .int)
          (.literal (Shapes.node 1) (.int 536870911))) 0 .initial = .ok (code, o) s' ∧
      ∀ m₀ : Machine, ∃ m', code.Reaches (.wrapping 32) (.running (code ++ []) m₀)
          (.running [allocateLine 0] m') ∧ m'.registers (.general 0) = .int 2147483644 := by
  have hlower : lowerExpr ⟨.initial {}, .baseline, TypeTable.classId 0⟩
      (.newArray (Shapes.node 0) (Shapes.type .int)
        (.literal (Shapes.node 1) (.int 536870911))) 0 .initial =
      .ok (.instr (.move (.int 536870911) (.r 0)) :: allocationLines 0, .r 0) .initial := rfl
  obtain ⟨_, _, _, _, _, hends⟩ :=
    size_guard_is_exact_unless_product_wraps (by decide) (Platform.wraps_wrapping 32) hlower
  refine ⟨_, _, _, hlower, fun m₀ => ?_⟩
  obtain ⟨hallocates, _, _⟩ := hends _ [] m₀ (m₀.set (.general 0) (.int 536870911)) 536870911#32
    (.step rfl .refl) rfl
  exact ⟨_, (hallocates _).mpr ⟨by decide, rfl⟩, rfl⟩

namespace Huge

open Shapes

/-- `static void main(string[] args) { int[] a = new int[-1073741824]; }` -/
def main : MethodDecl := mainOf 0 [
  .declare (node 0) ⟨.int, 1, line 1⟩ (name "a")
    (some (.newArray (node 0) (type .int) (.literal (node 1) (.int (-1073741824)))))]

def program : Program := ⟨[⟨name "Main", none, [], [main]⟩]⟩

end Huge

/-- On words of 32 bits the product of this size by 4 is 0: the guard lets it pass, and an array
    of no bytes is made. -/
theorem negative_size_passes_guard :
    ∃ r c a post, compile {} Huge.program = .ok r ∧ analyzed {} Huge.program = .ok c ∧
      c.generate .baseline Huge.program = .ok a ∧ r.lir = a.render ∧
      a.main.body = .instr (.move (.int (-1073741824)) (.r 0)) :: allocationLines 0 ++ post ∧
      ∀ m : Machine, ∃ m', a.main.body.Reaches (.wrapping 32) (.running a.main.body m)
        (.running (allocateLine 0 :: post) m') ∧ m'.registers (.general 0) = .int 0 := by
  have hbody : (assembled? {} Huge.program).any (fun x => decide (x.2.main.body =
      .instr (.move (.int (-1073741824)) (.r 0)) :: allocationLines 0 ++
        [.instr (.move (.r 0) (.slot "a2")), returnNothing])) = true := by
    decide +kernel
  obtain ⟨r, c, a, hr, hc, ha, hlir, hbody⟩ := exists_compile_of_any hbody
  refine ⟨r, c, a, _, hr, hc, ha, hlir, of_decide_eq_true hbody, fun m => ?_⟩
  rw [of_decide_eq_true hbody]
  have hloaded := m.set_registers_self (.general 0) (.int (-1073741824))
  have hproduct : (Platform.wrapping 32).arith .mul (-1073741824) 4 = 0 := by decide
  exact ⟨_, .step rfl (reaches_allocationEnd hloaded hproduct), Machine.set_registers_self ..⟩

end IcLir
