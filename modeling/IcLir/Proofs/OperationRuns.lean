import IcLir.Proofs.FreshLabels
import IcLir.Proofs.OperandRuns

/-
  Runs of the code of each operation. Each rule says that the code of an operation delivers the
  outcome of the operation, if the code of the operands delivers theirs.
-/

namespace IcLir

open Code Lowering

/-! ## Operations on words -/

section

variable {P : Platform} {strategy : Strategy} {v w : Value} {a b : Word}

theorem ArithOp.endsIn_apply {op : ArithOp} (hv : v.IsWord a) (hw : w.IsWord b)
    (hzero : op.divides = true → b ≠ .int 0) :
    EndsIn (op.apply P v w) (.int (P.arith op (P.number a) (P.number b))) := by
  unfold ArithOp.apply
  split
  · next n k =>
    obtain rfl : a = .int n := hv
    obtain rfl : b = .int k := hw
    have hne : ¬ (op.divides = true ∧ k = 0) := fun h => hzero h.1 (congrArg Word.int h.2)
    rw [if_neg hne, P.number_int, P.number_int]
    exact rfl
  · exact True.intro

theorem ArithOp.stopsAt_apply {op : ArithOp} (hop : op.divides = true) (hw : w.IsWord (.int 0)) :
    StopsAt strategy (op.apply P v w) .zero := by
  unfold ArithOp.apply
  split
  · next n k =>
    have hk : k = 0 := (Word.int.inj hw).symm
    rw [if_pos ⟨hop, hk⟩]
    exact fun _ => rfl
  · exact True.intro

/-- The text of a value is that of its word. -/
theorem Value.IsWord.text_cases (hv : v.IsWord a) :
    v.text P = .ok (P.text a) ∨ v.text P = .error .stuck := by
  cases v with
  | string s =>
    obtain rfl : a = .string s := hv
    exact .inl (congrArg Except.ok (P.text_string s).symm)
  | null =>
    obtain rfl : a = Word.null := hv
    exact .inl rfl
  | int | bool | ref | void => exact .inr rfl

theorem Value.endsIn_join (hv : v.IsWord a) (hw : w.IsWord b) :
    EndsIn (v.join P w) (.string (P.text a ++ P.text b)) := by
  unfold Value.join
  rcases hv.text_cases (P := P) with hs | hs
  · rcases hw.text_cases (P := P) with ht | ht
    · rw [hs, ht]
      exact rfl
    · rw [hs, ht]
      exact True.intro
  · rw [hs]
    exact True.intro

/-- The word that a unary operator leaves. -/
def Platform.unary (P : Platform) (op : UnaryOp) (a : Word) : Word :=
  match op with
  | .neg => .int (P.neg (P.number a))
  | .not => .int (P.xor (P.number a) (P.number (.int 1)))

theorem UnaryOp.endsIn_apply (P : Platform) (op : UnaryOp) (hv : v.IsWord a) :
    EndsIn (op.apply P v) (P.unary op a) := by
  unfold UnaryOp.apply
  split
  · next n =>
    obtain rfl : a = .int n := hv
    rw [Platform.unary, P.number_int]
    exact rfl
  · next x =>
    obtain rfl : a = Word.ofBool x := hv
    cases x with
    | false =>
      rw [Platform.unary, Word.ofBool, P.number_int, P.number_int, P.xor_zero_one]
      exact rfl
    | true =>
      rw [Platform.unary, Word.ofBool, P.number_int, P.xor_one_one]
      exact rfl
  · exact True.intro

theorem Word.ofBool_inj {x y : Bool} : Word.ofBool x = Word.ofBool y ↔ x = y := by
  cases x <;> cases y <;> decide

/-- The words of two values that may be compared differ as the values do. -/
theorem Value.IsWord.eq_iff (hv : v.IsWord a) (hw : w.IsWord b)
    (hsort : (v.isBool && w.isBool || v.isReference && w.isReference) = true) :
    v = w ↔ a = b := by
  cases v <;> cases w <;>
    simp_all [Value.IsWord, Value.word, Value.isBool, Value.isReference, Word.null, Word.ofBool_inj]

/-- A comparison of numbers can be read off the sign of their difference. -/
theorem CompareOp.relates_eq_holds (P : Platform) (op : CompareOp) (n k : Int) :
    op.relates n k = op.holds (P.order (.int n) (.int k)) := by
  have heq := P.order_eq_iff (.int n) (.int k)
  have hlt := P.order_lt_iff n k
  rw [Word.int.injEq] at heq
  cases hsign : P.order (.int n) (.int k) with
  | lt =>
    have hnk : n < k := hlt.mp hsign
    cases op <;> simp [relates, holds] <;> omega
  | eq =>
    have hnk : n = k := heq.mp hsign
    cases op <;> simp [relates, holds] <;> omega
  | gt =>
    rw [hsign] at heq hlt
    have hnk : n ≠ k := fun h => by simpa using heq.mpr h
    have hge : ¬ n < k := fun h => by simpa using hlt.mpr h
    cases op <;> simp [relates, holds] <;> omega

theorem CompareOp.endsIn_apply (op : CompareOp) (hv : v.IsWord a) (hw : w.IsWord b) :
    EndsIn (op.apply v w) (Word.ofBool (op.holds (P.order a b))) := by
  unfold CompareOp.apply
  split
  · next n k =>
    obtain rfl : a = .int n := hv
    obtain rfl : b = .int k := hw
    rw [← relates_eq_holds]
    exact rfl
  · split
    · next hsort =>
      have heq := hv.eq_iff hw hsort
      have horder := P.order_eq_iff a b
      cases op with
      | eq => simp [EndsIn, Value.IsWord, Value.word, holds, horder, heq]
      | ne => simp [EndsIn, Value.IsWord, Value.word, holds, horder, heq]
      | lt | le | gt | ge => exact True.intro
    · exact True.intro

end

namespace Site

open Outcome (both)

variable {S : Site} {order : Bool} {x y : Outcome Value} {l r : Code × Operand} {d : Nat}

variable {f : Nat → Outcome Value} {w : Word} {os : Operands}

/-! ## One operand -/

theorem delivers_unary (h : S.Delivers x r d) (op : UnaryOp) :
    S.Delivers (x >>= op.apply S.platform)
      (r.1 ++ Code.load r.2 d ++ [.instr (unaryCode op d)], .r d) d := by
  refine h.load.andThen fun post m _ _ hx => ?_
  have hrun : (unaryCode op d).run S.platform m =
      some (m.set (.general d) (S.platform.unary op (m.registers (.general d)))) := by
    cases op <;> rfl
  have hresult := hx.bind fun v hv => op.endsIn_apply S.platform hv
  exact .instr hrun (.nil ⟨(Machine.Keeps.refl d m).set (Nat.le_refl d) _, hresult.set ..⟩)

/-- A reference is tested for null before it is followed. -/
theorem runs_nullRef {z : Outcome Value} {rest post : Code} {m : Machine} {Q : Machine → Prop}
    {n : Nat} (hcall : S.calls .nullRef) (hm : S.Holds m)
    (hnull : m.registers (.general n) = Word.null → StopsAt S.strategy z .nullRef)
    (hrest : m.registers (.general n) ≠ Word.null → S.Runs rest post m Q z) :
    S.Runs (Guard.nullRef.call [n] :: rest) post m Q z := by
  have hfails := Guard.fails_nullRef_iff S.platform m n
  refine .guard (fun hfail => ⟨hcall, hnull (hfails.mp hfail), hm⟩) fun hpass => ?_
  exact hrest fun hword => hpass (hfails.mpr hword)

/-- Where a word leads, with the test for null. -/
theorem stopsAt_address {strategy : Strategy} (hx : EndsIn x Word.null) :
    StopsAt strategy (x >>= Value.address) .nullRef := by
  refine hx.stopsAt_bind fun v hv => ?_
  cases v with
  | null => exact fun _ => rfl
  | int | bool | void => exact True.intro
  | string | ref => cases hv

theorem passes_address (hx : EndsIn x w) (hw : w ≠ Word.null) : (x >>= Value.address).Passes := by
  match x with
  | .error .stuck => exact fun g h => by cases h
  | .ok v =>
    cases v with
    | ref a => exact fun g h => by cases h
    | null => exact absurd hx hw
    | int | bool | string | void => exact fun g h => by cases h

theorem eq_ref_of_address {a : Nat} (h : (x >>= Value.address) = .ok a) : x = .ok (.ref a) := by
  obtain ⟨v, rfl, hv⟩ := Outcome.exists_of_bind_eq_ok h
  cases v with
  | ref a' => rw [Except.ok.inj hv]
  | null | int | bool | string | void => cases hv

theorem eq_address_of_endsIn {a : Nat} (hx : EndsIn x w) (h : (x >>= Value.address) = .ok a) :
    w = .address a := by
  rw [eq_ref_of_address h] at hx
  exact hx

/-- What is reached through a word that is not null. -/
theorem endsIn_address {w' : Word} (hx : EndsIn x w) (hw : w ≠ Word.null)
    (hf : ∀ a, x = .ok (.ref a) → w = .address a → EndsIn (f a) w') :
    EndsIn (x >>= fun v => v.address >>= f) w' := by
  match x with
  | .error .stuck => exact True.intro
  | .ok v =>
    cases v with
    | ref a => exact hf a rfl hx
    | null => exact absurd hx hw
    | int | bool | string | void => exact True.intro

theorem stopsAt_followed (hx : EndsIn x Word.null) :
    StopsAt S.strategy (x >>= fun v => v.address >>= f) .nullRef := by
  have hbind : (x >>= fun v => v.address >>= f) = (x >>= Value.address) >>= f := by
    cases x <;> rfl
  rw [hbind]
  exact (stopsAt_address hx).bind

theorem delivers_field (h : S.Delivers x r d) (hcall : S.calls .nullRef) {offset : Nat}
    (hf : ∀ a, x = .ok (.ref a) → EndsIn (f a) (S.memory.field (.address a) offset)) :
    S.Delivers (x >>= fun v => v.address >>= f)
      (r.1 ++ Code.load r.2 d ++ [Guard.nullRef.call [d]], .field d offset) d := by
  refine h.load.andThen fun post m _ hm hx => ?_
  refine runs_nullRef hcall hm (fun hnull => stopsAt_followed (hnull ▸ hx)) fun hne =>
    .nil ⟨.refl d m, ?_⟩
  refine endsIn_address hx hne fun a hxa ha => ?_
  change EndsIn (f a) (m.memory.field (m.registers (.general d)) offset)
  rw [hm.memory, ha]
  exact hf a hxa

theorem delivers_length (h : S.Delivers x r d) (hcall : S.calls .nullRef)
    (hf : ∀ a, EndsIn (f a) (S.memory.length (.address a))) :
    S.Delivers (x >>= fun v => v.address >>= f)
      (r.1 ++ Code.load r.2 d ++
        [Guard.nullRef.call [d], .instr (.arrayLength (.general d) (.general d))], .r d) d := by
  refine h.load.andThen fun post m _ hm hx => ?_
  refine runs_nullRef hcall hm (fun hnull => stopsAt_followed (hnull ▸ hx)) fun hne =>
    .instr rfl (.nil ?_)
  refine ⟨(Machine.Keeps.refl d m).set (Nat.le_refl d) _, EndsIn.set ?_ ..⟩
  refine endsIn_address hx hne fun a _ ha => ?_
  rw [hm.memory, ha]
  exact hf a

/-! ## Two operands -/

theorem delivers_arith {op : ArithOp} (h : S.Readies order x y os d) (hd : d ≤ os.left)
    (hcall : op.divides = true → S.calls .zero)
    (hright : op.divides = true → ∃ n, os.right = .r n) :
    S.Delivers (both order x y fun v w => op.apply S.platform v w) (arithCode op os d, .r d) d := by
  intro post m hp hm
  have hcode : arithCode op os d = os.code ++ (divisorGuard op os.right ++
      (.instr (.arith op os.right (.general os.left)) :: Code.load (.r os.left) d)) := by
    simp [arithCode]
  change Placed S.routine (arithCode op os d) post at hp
  change S.Runs (arithCode op os d) post m _ _
  rw [hcode] at hp ⊢
  refine .append (h _ m hp.left hm _) fun m₁ h₁ => ?_
  obtain ⟨hk, hx, hy⟩ := h₁
  -- what is left once the divisor is known not to be zero
  have hrest : (op.divides = true → m₁.value S.platform os.right ≠ .int 0) →
      S.Runs (.instr (.arith op os.right (.general os.left)) :: Code.load (.r os.left) d) post m₁
        (fun m' => m.Keeps d m' ∧ EndsIn (both order x y fun v w => op.apply S.platform v w)
          (m'.registers (.general d))) (both order x y fun v w => op.apply S.platform v w) := by
    intro hzero
    refine .instr rfl (runs_load fun m₂ hk₂ hv => ⟨(hk.set hd _).trans hk₂, ?_⟩)
    rw [hv]
    exact EndsIn.set (hx.both hy fun v w hv hw => ArithOp.endsIn_apply hv hw hzero) ..
  cases hop : op.divides with
  | false =>
    rw [show divisorGuard op os.right = [] by simp [divisorGuard, hop]]
    exact hrest (by simp [hop])
  | true =>
    obtain ⟨n, hn⟩ := hright hop
    rw [hn, divisorGuard_r, if_pos hop]
    rw [hn] at hrest hy
    refine .guard ?_ ?_
    · intro hfails
      change EndsIn y (m₁.registers (.general n)) at hy
      rw [(Guard.fails_zero_iff S.platform m₁ n).mp hfails] at hy
      exact ⟨hcall hop, hx.stopsAt_both hy fun v w _ hw => ArithOp.stopsAt_apply hop hw,
        hm.keep hk⟩
    · intro hpass
      exact hrest fun _ hzero => hpass ((Guard.fails_zero_iff S.platform m₁ n).mpr hzero)

theorem delivers_concat (h : S.Readies order x y os d) :
    S.Delivers (both order x y fun v w => v.join S.platform w) (concatCode os d, .r d) d := by
  intro post m hp hm
  change Placed S.routine (os.code ++ _) post at hp
  refine .append (h _ m hp.left hm _) fun m₁ h₁ => ?_
  obtain ⟨hk, hx, hy⟩ := h₁
  have hresult : EndsIn (both order x y fun v w => v.join S.platform w) _ :=
    hx.both hy fun v w hv hw => Value.endsIn_join hv hw
  exact .instr rfl (.nil ⟨hk.set (Nat.le_refl d) _, hresult.set ..⟩)

/-- A comparison jumps to the place where it leaves 1, or goes on to where it leaves 0. -/
theorem delivers_compare {op : CompareOp} (h : S.Readies order x y os d) (labels : LabelSet) :
    S.Delivers (both order x y op.apply) (compareCode op labels os d, .r d) d := by
  intro post m hp hm
  change Placed S.routine (os.code ++ _) post at hp
  refine .append (h _ m hp.left hm _) fun m₁ h₁ => ?_
  obtain ⟨hk, hx, hy⟩ := h₁
  have htail := hp.right
  let sign := S.platform.order (m₁.registers (.general os.left)) (m₁.value S.platform os.right)
  have hresult : EndsIn (both order x y op.apply) (Word.ofBool (op.holds sign)) :=
    hx.both hy fun v w hv hw => op.endsIn_apply hv hw
  have hk₂ : ∀ w, m.Keeps d ((m₁.setSign sign).set (.general d) w) := fun w =>
    (hk.setSign sign).set (Nat.le_refl d) w
  refine .instr rfl ?_
  cases hc : op.holds sign with
  | true =>
    rw [hc] at hresult
    have htarget := htail.tail.tail.tail.tail.after?
    exact .jump hc htarget (.instr rfl (.label (.nil ⟨hk₂ _, hresult.set ..⟩)))
  | false =>
    rw [hc] at hresult
    have htarget := htail.tail.tail.tail.tail.tail.tail.after?
    exact .jump_skip hc (.instr rfl (.jump rfl htarget (.nil ⟨hk₂ _, hresult.set ..⟩)))

end Site

/-! ## Logic -/

namespace LogicOp

variable {strategy : Strategy} {x y : Outcome Value} {w w' : Word} {g : Guard}

/-- Whether a word settles the operation, as the emitted test decides it. -/
def settles (op : LogicOp) (w : Word) : Bool :=
  match op with
  | .and => w = .int 0
  | .or => w ≠ .int 0

theorem settles_ofBool (op : LogicOp) (b : Bool) :
    op.settles (Word.ofBool b) = decide (b = op.settledBy) := by
  cases op <;> cases b <;> decide

theorem holds_settles (op : LogicOp) (P : Platform) (w : Word) :
    (Condition.when (match op with | .and => .eq | .or => .ne)).holds (P.order w (.int 0)) =
      op.settles w := by
  have horder := P.order_eq_iff w (.int 0)
  cases op <;> simp [Condition.holds, CompareOp.holds, settles, horder]

/-- What is done with a truth value. -/
theorem endsIn_truth {f : Bool → Outcome Value} (hx : EndsIn x w)
    (hf : ∀ b, w = Word.ofBool b → EndsIn (f b) w') :
    EndsIn (x >>= fun v => v.truth >>= f) w' := by
  refine hx.bind fun v hv => ?_
  cases v with
  | bool b => exact hf b hv
  | int | string | null | ref | void => exact True.intro

theorem stopsAt_truth {f : Bool → Outcome Value} (hx : EndsIn x w)
    (hf : ∀ b, w = Word.ofBool b → StopsAt strategy (f b) g) :
    StopsAt strategy (x >>= fun v => v.truth >>= f) g := by
  refine hx.stopsAt_bind fun v hv => ?_
  cases v with
  | bool b => exact hf b hv
  | int | string | null | ref | void => exact True.intro

theorem endsIn_settled (op : LogicOp) (hx : EndsIn x w) (hw : op.settles w = true) :
    EndsIn (op.apply x y) (Word.ofBool op.settledBy) := by
  rw [apply_eq]
  refine endsIn_truth hx fun b hb => ?_
  rw [hb, settles_ofBool, decide_eq_true_eq] at hw
  rw [if_pos hw, hw]
  exact rfl

theorem endsIn_rest (op : LogicOp) (hx : EndsIn x w) (hw : op.settles w = false)
    (hy : EndsIn (rest y) w') : EndsIn (op.apply x y) w' := by
  rw [apply_eq]
  refine endsIn_truth hx fun b hb => ?_
  rw [hb, settles_ofBool, decide_eq_false_iff_not] at hw
  rw [if_neg hw]
  exact hy

theorem stopsAt_rest (op : LogicOp) (hx : EndsIn x w) (hw : op.settles w = false)
    (hy : StopsAt strategy y g) : StopsAt strategy (op.apply x y) g := by
  rw [apply_eq]
  refine stopsAt_truth hx fun b hb => ?_
  rw [hb, settles_ofBool, decide_eq_false_iff_not] at hw
  rw [if_neg hw]
  exact hy.bind

theorem endsIn_of_settles (op : LogicOp) (hy : EndsIn y w) :
    EndsIn (rest y) (Word.ofBool (if op.settles w then op.settledBy else !op.settledBy)) := by
  refine endsIn_truth hy fun b hb => ?_
  rw [hb, settles_ofBool]
  cases op <;> cases b <;> exact rfl

/-- The end of a logical operation: what is left behind by one that was not settled, and by
    one that was. -/
def tail (op : LogicOp) (names : LabelSet) (d : Nat) : Code :=
  [.instr (.move (.int (if op.settledBy then 0 else 1)) (.r d)),
   .instr (.jump .always names.endLabel),
   .label (exitLabel op names),
   .instr (.move (.int (if op.settledBy then 1 else 0)) (.r d)),
   .label names.endLabel]

theorem logicCode_eq (op : LogicOp) (names : LabelSet) (l r : Code × Operand) (d : Nat) :
    logicCode op names l r d =
      (l.1 ++ Code.load l.2 d) ++ (logicTest op d (exitLabel op names) ++
        ((r.1 ++ Code.load r.2 d) ++ (logicTest op d (exitLabel op names) ++
          op.tail names d))) := by
  cases op <;> simp [logicCode, exitLabel, tail, settledBy]

end LogicOp

namespace Site

open Outcome (both)

variable {S : Site} {order : Bool} {x y : Outcome Value} {l r : Code × Operand} {d : Nat}

theorem runs_logicTest {op : LogicOp} {exit : String} {target rest post : Code} {m : Machine}
    {Q : Machine → Prop} {F : Guard → Machine → Prop}
    (htarget : after? exit S.routine = some (target ++ post))
    (hsettled : op.settles (m.registers (.general d)) = true → ∀ sign,
      Code.Runs S.platform S.routine target post (m.setSign sign) Q F)
    (hrest : op.settles (m.registers (.general d)) = false → ∀ sign,
      Code.Runs S.platform S.routine rest post (m.setSign sign) Q F) :
    Code.Runs S.platform S.routine (logicTest op d exit ++ rest) post m Q F := by
  have hholds := op.holds_settles S.platform (m.registers (.general d))
  refine .instr rfl ?_
  cases hc : op.settles (m.registers (.general d)) with
  | true => exact .jump (hholds.trans hc) htarget (hsettled hc _)
  | false => exact .jump_skip (hholds.trans hc) (hrest hc _)

theorem delivers_logic (op : LogicOp) (names : LabelSet) (hl : S.Delivers x l d)
    (hr : S.Delivers y r d) :
    S.Delivers (op.apply x y) (logicCode op names l r d, .r d) d := by
  intro post m hp hm
  change Placed S.routine (logicCode op names l r d) post at hp
  change S.Runs (logicCode op names l r d) post m _ _
  rw [LogicOp.logicCode_eq] at hp ⊢
  have htail := hp.right.right.right.right
  have hexit := htail.tail.tail.after?
  have hend := htail.tail.tail.tail.tail.after?
  have hstops : ∀ g, StopsAt S.strategy x g → StopsAt S.strategy (op.apply x y) g := by
    intro g hg
    rw [LogicOp.apply_eq]
    exact hg.bind
  have hsettled : ∀ m', m.Keeps d m' → EndsIn (op.apply x y) (Word.ofBool op.settledBy) →
      S.Runs [.instr (.move (.int (if op.settledBy then 1 else 0)) (.r d)),
        .label names.endLabel] post m' (fun m' => m.Keeps d m' ∧
          EndsIn (op.apply x y) (m'.value S.platform (.r d))) (op.apply x y) := by
    intro m' hk hx
    have hword : Word.ofBool op.settledBy = .int (if op.settledBy then 1 else 0) := by
      cases op <;> rfl
    rw [hword] at hx
    exact .instr rfl (.label (.nil ⟨hk.set (Nat.le_refl d) _, hx.set ..⟩))
  refine .append ((hl.load _ m hp.left hm).stops hstops) fun m₁ h₁ => ?_
  obtain ⟨hk, hx⟩ := h₁
  refine runs_logicTest hexit (fun hs sign => ?_) fun hs sign => ?_
  · exact hsettled _ (hk.setSign sign) (op.endsIn_settled hx hs)
  have hk₁ := hk.setSign sign
  refine .append ((hr.load _ _ hp.right.right.left (hm.keep hk₁)).stops
    fun g hg => op.stopsAt_rest hx hs hg) fun m₂ h₂ => ?_
  obtain ⟨hk₂, hy⟩ := h₂
  have hresult := op.endsIn_rest hx hs (op.endsIn_of_settles hy)
  refine runs_logicTest hexit (fun hs₂ sign => ?_) fun hs₂ sign => ?_
  · rw [hs₂] at hresult
    exact hsettled _ ((hk₁.trans hk₂).setSign sign) hresult
  · rw [hs₂] at hresult
    have hword : Word.ofBool (!op.settledBy) = .int (if op.settledBy then 0 else 1) := by
      cases op <;> rfl
    have hresult : EndsIn (op.apply x y) (.int (if op.settledBy then 0 else 1)) :=
      hword ▸ hresult
    have hk₃ := ((hk₁.trans hk₂).setSign sign).set (Nat.le_refl d)
      (.int (if op.settledBy then 0 else 1))
    exact .instr rfl (.jump rfl hend (.nil ⟨hk₃, hresult.set ..⟩))

/-! ## Array elements -/

/-- The index lies outside of the array, as its guard decides it. -/
def IsOutside (S : Site) (array index : Word) : Prop :=
  S.platform.order index (S.memory.length array) ≠ .lt ∨ S.platform.order index (.int 0) = .lt

/-- Elements are found in the memory, by the address of their array. -/
structure Indexes (S : Site) (element : Nat → Value → Outcome Value) : Prop where
  outside {a : Nat} {v : Value} {w : Word} : v.IsWord w → S.IsOutside (.address a) w →
    StopsAt S.strategy (element a v) .arrayAccess
  inside {a : Nat} {v : Value} {w : Word} : v.IsWord w → ¬ S.IsOutside (.address a) w →
    EndsIn (element a v) (S.memory.element (.address a) w)

variable {element : Nat → Value → Outcome Value}

theorem runs_arrayAccess {array index : Nat} {post : Code} {m₀ m : Machine}
    (hcall : S.calls .arrayAccess) (helement : S.Indexes element) (hm : S.Holds m)
    (hk : m₀.Keeps d m) (hx : EndsIn x (m.registers (.general array)))
    (hne : m.registers (.general array) ≠ Word.null)
    (hy : EndsIn y (m.registers (.general index))) :
    S.Runs [Guard.arrayAccess.call [array, index]] post m
      (fun m' => m₀.Keeps d m' ∧ EndsIn (both order (x >>= Value.address) y element)
        (m'.value S.platform (.element array index)))
      (both order (x >>= Value.address) y element) := by
  have hfails := Guard.fails_arrayAccess_iff S.platform m array index
  rw [hm.memory] at hfails
  have hpasses := passes_address hx hne
  refine .guard (fun hfail => ⟨hcall, ?_, hm⟩) fun hpass => .nil ⟨hk, ?_⟩
  · refine hpasses.both (P := (StopsAt S.strategy · _)) hy.passes trivial fun a i ha hi => ?_
    have hword := eq_address_of_endsIn hx ha
    exact helement.outside (hy.isWord hi) (hword ▸ hfails.mp hfail)
  · refine hpasses.both (P := (EndsIn · _)) hy.passes trivial fun a i ha hi => ?_
    have hword := eq_address_of_endsIn hx ha
    change EndsIn (element a i)
      (m.memory.element (m.registers (.general array)) (m.registers (.general index)))
    rw [hm.memory, hword]
    exact helement.inside (hy.isWord hi) fun hout => hpass (hfails.mpr (hword ▸ hout))

theorem delivers_index_leftFirst (horder : order = false ∨ S.strategy = .pressureAware)
    (hl : S.Delivers x l d) (hr : S.Delivers y r (d + 1)) (hnull : S.calls .nullRef)
    (haccess : S.calls .arrayAccess) (helement : S.Indexes element) :
    S.Delivers (both order (x >>= Value.address) y element) (indexCode false l r d) d := by
  have hcode : indexCode false l r d = (l.1 ++ Code.load l.2 d ++ (Guard.nullRef.call [d] ::
      (r.1 ++ Code.load r.2 (d + 1) ++ [Guard.arrayAccess.call [d, d + 1]])),
        .element d (d + 1)) := by
    simp [indexCode]
  rw [hcode]
  intro post m hp hm
  refine .append ((hl.load _ m hp.left hm).stops fun _ hg => hg.bind.both_left horder)
    fun m₁ h₁ => ?_
  obtain ⟨hk, hx⟩ := h₁
  refine runs_nullRef hnull (hm.keep hk)
    (fun hword => (stopsAt_address (hword ▸ hx)).both_left horder) fun hne => ?_
  have hright := hr.load _ m₁ hp.right.tail.left (hm.keep hk)
  refine .append (hright.stops fun _ hg => hg.both_right_of_passes (passes_address hx hne))
    fun m₂ h₂ => ?_
  obtain ⟨hk₂, hy⟩ := h₂
  rw [← hk₂.registers d (Nat.lt_succ_self d)] at hx hne
  have hk' := hk.trans (hk₂.mono (Nat.le_succ d))
  exact runs_arrayAccess haccess helement (hm.keep hk') hk' hx hne hy

theorem delivers_index_rightFirst (horder : order = true ∨ S.strategy = .pressureAware)
    (hr : S.Delivers y r d) (hl : S.Delivers x l (d + 1)) (hnull : S.calls .nullRef)
    (haccess : S.calls .arrayAccess) (helement : S.Indexes element) :
    S.Delivers (both order (x >>= Value.address) y element) (indexCode true l r d) d := by
  have hcode : indexCode true l r d = (r.1 ++ Code.load r.2 d ++ (l.1 ++ Code.load l.2 (d + 1) ++
      [Guard.nullRef.call [d + 1], Guard.arrayAccess.call [d + 1, d]]), .element (d + 1) d) := by
    simp [indexCode]
  rw [hcode]
  intro post m hp hm
  refine .append ((hr.load _ m hp.left hm).stops fun _ hg => hg.both_right horder) fun m₁ h₁ => ?_
  obtain ⟨hk, hy⟩ := h₁
  have hleft := hl.load _ m₁ hp.right.left (hm.keep hk)
  refine .append (hleft.stops fun _ hg => hg.bind.both_left_of_passes hy.passes) fun m₂ h₂ => ?_
  obtain ⟨hk₂, hx⟩ := h₂
  have hk' := hk.trans (hk₂.mono (Nat.le_succ d))
  refine runs_nullRef hnull (hm.keep hk')
    (fun hword => (stopsAt_address (hword ▸ hx)).both_left_of_passes hy.passes) fun hne => ?_
  rw [← hk₂.registers d (Nat.lt_succ_self d)] at hy
  exact runs_arrayAccess haccess helement (hm.keep hk') hk' hx hne hy

theorem DeliversPair.index {rightFirst : Bool} (h : S.DeliversPair order x y rightFirst l r d)
    (hnull : S.calls .nullRef) (haccess : S.calls .arrayAccess) (helement : S.Indexes element) :
    S.Delivers (both order (x >>= Value.address) y element) (indexCode rightFirst l r d) d := by
  obtain ⟨horder, h⟩ := h
  cases rightFirst with
  | false => exact delivers_index_leftFirst horder h.1 h.2 hnull haccess helement
  | true => exact delivers_index_rightFirst horder h.1 h.2 hnull haccess helement

end Site

end IcLir
