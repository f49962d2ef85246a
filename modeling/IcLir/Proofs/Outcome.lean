import IcLir.Pass

/-
  Reasoning about passes. `Meets allowed x s post`: run from state `s`, the pass `x` ends with
  a result and a state that satisfy `post`, or stops with an error of the sort `allowed`. With
  `IsRejection` for `allowed` a pass never fails with a defect; with `Never` it always ends; with
  `Any` nothing is said about how it fails. The kind of error is left open, so that other
  computations with a state can be spoken of in the same way.
  One equation per construct reduces a claim about a pass to claims about its parts.
-/

namespace IcLir

/-- An error that blames the program and not the compiler. -/
def CompileError.IsRejection (e : CompileError) : Prop := ∃ r, e = .rejected r

/-- No error at all. -/
def CompileError.Never (_ : CompileError) : Prop := False

def CompileError.Any (_ : CompileError) : Prop := True

namespace Pass

variable {ε σ α β : Type}

variable {post : α → σ → Prop} {x : Pass σ α}

variable {cause : Cause} {token : String} {span : Span} {value : Option α} {defect : Defect}
    {f : α → Pass σ β}

def Meets (allowed : ε → Prop) (x : EStateM ε σ α) (s : σ) (post : α → σ → Prop) : Prop :=
  match x s with
  | .ok a t => post a t
  | .error e _ => allowed e

section

variable {allowed : ε → Prop} {s : σ}

variable {x : EStateM ε σ α} {post : α → σ → Prop} {a : α} {t : σ}

theorem Meets.mono {post' : α → σ → Prop} (h : Meets allowed x s post)
    (himp : ∀ a t, post a t → post' a t) : Meets allowed x s post' := by
  unfold Meets at h ⊢
  cases hx : x s with
  | ok a t => rw [hx] at h; exact himp a t h
  | error e t => rw [hx] at h; exact h

theorem Meets.allow {allowed' : ε → Prop} (h : Meets allowed x s post)
    (himp : ∀ e, allowed e → allowed' e) : Meets allowed' x s post := by
  unfold Meets at h ⊢
  cases hx : x s with
  | ok a t => rw [hx] at h; exact h
  | error e t => rw [hx] at h; exact himp e h

theorem Meets.of_ok (h : Meets allowed x s post) (hx : x s = .ok a t) : post a t := by
  unfold Meets at h
  rw [hx] at h
  exact h

theorem meets_of_eq_ok (hx : x s = .ok a t) (h : post a t) : Meets allowed x s post := by
  unfold Meets
  rw [hx]
  exact h

theorem Meets.of_error (h : Meets allowed x s post) {e : ε} (hx : x s = .error e t) :
    allowed e := by
  unfold Meets at h
  rw [hx] at h
  exact h

@[simp] theorem meets_pure :
    Meets allowed (pure a) s post ↔ post a s := Iff.rfl

@[simp] theorem meets_bind {f : α → EStateM ε σ β} {post : β → σ → Prop} :
    Meets allowed (x >>= f) s post ↔
      Meets allowed x s fun a t => Meets allowed (f a) t post := by
  change (match EStateM.bind x f s with
    | .ok a t => post a t
    | .error e _ => allowed e) ↔ _
  unfold EStateM.bind Meets
  cases x s <;> exact Iff.rfl

theorem Meets.bind {f : α → EStateM ε σ β} {mid : α → σ → Prop} {post : β → σ → Prop}
    (hx : Meets allowed x s mid) (hf : ∀ a t, mid a t → Meets allowed (f a) t post) :
    Meets allowed (x >>= f) s post :=
  meets_bind.mpr (hx.mono hf)

@[simp] theorem meets_get {post : σ → σ → Prop} :
    Meets allowed (get : EStateM ε σ σ) s post ↔ post s s := Iff.rfl

@[simp] theorem meets_modify {f : σ → σ} {post : PUnit → σ → Prop} :
    Meets allowed (modify f : EStateM ε σ PUnit) s post ↔ post () (f s) := Iff.rfl

end

variable {allowed : CompileError → Prop} {s : σ}

/-- A pass that allows no error ends. -/
theorem Meets.exists_ok (h : Meets CompileError.Never x s post) :
    ∃ a t, x s = .ok a t ∧ post a t := by
  cases hx : x s with
  | ok a t => exact ⟨a, t, rfl, h.of_ok hx⟩
  | error e t => exact (h.of_error hx).elim

@[simp] theorem meets_reject :
    Meets CompileError.IsRejection (reject cause token span : Pass σ α) s post :=
  ⟨_, rfl⟩

theorem meets_require {holds : Bool} {post : PUnit → σ → Prop} (h : holds = true → post () s) :
    Meets CompileError.IsRejection (require holds cause token span : Pass σ Unit) s post := by
  cases holds with
  | false => exact ⟨_, rfl⟩
  | true => exact h rfl

theorem meets_promised {a : α} (h : value = some a) (hpost : post a s) :
    Meets allowed (promised value defect : Pass σ α) s post := by
  subst h
  exact hpost

theorem meets_any (h : ∀ a t, x s = .ok a t → post a t) : Meets CompileError.Any x s post := by
  cases hx : x s with
  | ok a t => exact meets_of_eq_ok hx (h a t hx)
  | error e t =>
    unfold Meets
    rw [hx]
    exact trivial

theorem meets_promised_any (h : ∀ a, value = some a → post a s) :
    Meets CompileError.Any (promised value defect : Pass σ α) s post := by
  cases value with
  | none => exact trivial
  | some a => exact h a rfl

/-- A pass that only looks things up. -/
def ReadsOnly (x : Pass σ α) : Prop := ∀ s, Meets CompileError.Any x s fun _ t => t = s

theorem ReadsOnly.meets (h : ReadsOnly x) (hpost : ∀ a, x s = .ok a s → post a s) :
    Meets CompileError.Any x s post := by
  refine meets_any fun a t hx => ?_
  obtain rfl : t = s := (h s).of_ok hx
  exact hpost a hx

theorem ReadsOnly.bind (hx : ReadsOnly x) (hf : ∀ a, ReadsOnly (f a)) : ReadsOnly (x >>= f) := by
  intro s
  rw [meets_bind]
  exact hx.meets fun a _ => hf a s

theorem readsOnly_pure (a : α) : ReadsOnly (pure a : Pass σ α) := fun _ => rfl

theorem readsOnly_promised (value : Option α) (defect : Defect) :
    ReadsOnly (promised value defect : Pass σ α) := fun _ => meets_promised_any fun _ _ => rfl

/-- A loop over a list: `inv` relates the members passed over so far to the state. -/
theorem meets_forM {f : α → Pass σ PUnit} (inv : List α → σ → Prop) (l : List α)
    (hstep : ∀ done a rest, l = done ++ a :: rest → ∀ t, inv done t →
      Meets allowed (f a) t fun _ u => inv (done ++ [a]) u)
    (hstart : inv [] s) : Meets allowed (l.forM f) s fun _ t => inv l t := by
  -- the induction runs over what is left of the list, with what is done kept aside
  have key : ∀ rest done t, l = done ++ rest → inv done t →
      Meets allowed (rest.forM f) t fun _ u => inv l u := by
    intro rest
    induction rest with
    | nil =>
      intro done t hl ht
      rw [List.append_nil] at hl
      exact hl ▸ ht
    | cons a rest ih =>
      intro done t hl ht
      change Meets allowed (f a >>= fun _ => rest.forM f) t _
      refine (hstep done a rest hl t ht).bind ?_
      intro _ u hu
      exact ih (done ++ [a]) u (by simpa using hl) hu
  exact key l [] s rfl hstart

/-- A loop that collects results: `inv` relates the members passed over and the results so far
    to the state. -/
theorem meets_mapM (inv : List α → List β → σ → Prop) (l : List α)
    (hstep : ∀ done a rest, l = done ++ a :: rest → ∀ bs t, inv done bs t →
      Meets allowed (f a) t fun b u => inv (done ++ [a]) (bs ++ [b]) u) (hstart : inv [] [] s) :
    Meets allowed (l.mapM f) s fun bs t => inv l bs t := by
  have key : ∀ rest done bs t, l = done ++ rest → inv done bs t →
      Meets allowed (rest.mapM f) t fun cs u => inv l (bs ++ cs) u := by
    intro rest
    induction rest with
    | nil =>
      intro done bs t hl ht
      rw [List.append_nil] at hl
      rw [List.mapM_nil, meets_pure, List.append_nil]
      exact hl ▸ ht
    | cons a rest ih =>
      intro done bs t hl ht
      rw [List.mapM_cons]
      refine (hstep done a rest hl bs t ht).bind ?_
      intro b u hu
      refine (ih (done ++ [a]) (bs ++ [b]) u (by simpa using hl) hu).bind ?_
      intro cs v hv
      rw [meets_pure]
      simpa using hv
  exact key l [] [] s rfl hstart

end Pass

end IcLir
