import IcLir.Proofs.Outcome

/-
  When a pass succeeds. `Decides cond x s post`: run from state `s`, the pass `x` ends exactly if
  `cond` holds, and then with a result and a state that satisfy `post`; otherwise it stops with a
  rejection, never with a defect. Both directions of a claim about what a pass accepts come out
  of one derivation: each rule below takes the conditions of the parts and gives the condition of
  the whole. In a loop, what is required of a member may speak of the members before it.
  `Computes spec x s post` is the same for a pass whose result is given by an optional value.
-/

namespace IcLir

namespace Pass

variable {σ α β : Type} {s : σ}

variable {cond : Prop} {a : α} {post : β → σ → Prop} {cause : Cause} {token : String} {span : Span}
    {l : List α} {holds : Bool}

def Decides (cond : Prop) (x : Pass σ α) (s : σ) (post : α → σ → Prop) : Prop :=
  match x s with
  | .ok a t => cond ∧ post a t
  | .error e _ => ¬ cond ∧ e.IsRejection

namespace Decides

variable {cond cond' : Prop} {x : Pass σ α} {post post' : α → σ → Prop}

theorem of_ok (h : Decides cond x s post) {a : α} {t : σ} (hx : x s = .ok a t) :
    cond ∧ post a t := by
  unfold Decides at h
  rw [hx] at h
  exact h

theorem of_error (h : Decides cond x s post) {e : CompileError} {t : σ}
    (hx : x s = .error e t) : ¬ cond ∧ e.IsRejection := by
  unfold Decides at h
  rw [hx] at h
  exact h

theorem exists_ok_iff (h : Decides cond x s post) : (∃ a t, x s = .ok a t) ↔ cond := by
  constructor
  · intro hx
    obtain ⟨a, t, hx⟩ := hx
    exact (h.of_ok hx).1
  · intro hc
    cases hx : x s with
    | ok a t => exact ⟨a, t, rfl⟩
    | error e t => exact absurd hc (h.of_error hx).1

theorem meets (h : Decides cond x s post) : Meets CompileError.IsRejection x s post := by
  cases hx : x s with
  | ok a t => exact meets_of_eq_ok hx (h.of_ok hx).2
  | error e t =>
    unfold Meets
    rw [hx]
    exact (h.of_error hx).2

theorem congr (h : Decides cond x s post) (hiff : cond ↔ cond') : Decides cond' x s post := by
  unfold Decides at h ⊢
  cases hx : x s with
  | ok a t => rw [hx] at h; exact ⟨hiff.mp h.1, h.2⟩
  | error e t => rw [hx] at h; exact ⟨fun hc => h.1 (hiff.mpr hc), h.2⟩

theorem mono (h : Decides cond x s post) (himp : ∀ a t, cond → post a t → post' a t) :
    Decides cond x s post' := by
  unfold Decides at h ⊢
  cases hx : x s with
  | ok a t => rw [hx] at h; exact ⟨h.1, himp a t h.1 h.2⟩
  | error e t => rw [hx] at h; exact h

/-- What is known about the state after a success may be used as well. -/
theorem and_meets {allowed : CompileError → Prop} (h : Decides cond x s post)
    (h' : Meets allowed x s post') : Decides cond x s fun a t => post a t ∧ post' a t := by
  unfold Decides at h ⊢
  cases hx : x s with
  | ok a t => rw [hx] at h; exact ⟨h.1, h.2, h'.of_ok hx⟩
  | error e t => rw [hx] at h; exact h

theorem bind {f : α → Pass σ β} {post : β → σ → Prop} {mid : α → σ → Prop}
    (hx : Decides cond x s mid)
    (hf : ∀ a t, cond → mid a t → Decides cond' (f a) t post) :
    Decides (cond ∧ cond') (x >>= f) s post := by
  change match EStateM.bind x f s with
    | .ok b t => (cond ∧ cond') ∧ post b t
    | .error e _ => ¬ (cond ∧ cond') ∧ e.IsRejection
  unfold EStateM.bind
  cases hr : x s with
  | error e t => exact (hx.of_error hr).imp_left fun hno hc => hno hc.1
  | ok a t =>
    obtain ⟨hc, hmid⟩ := hx.of_ok hr
    have hrest := hf a t hc hmid
    dsimp only
    cases hr' : f a t with
    | ok b u => exact ⟨⟨hc, (hrest.of_ok hr').1⟩, (hrest.of_ok hr').2⟩
    | error e u => exact (hrest.of_error hr').imp_left fun hno hc' => hno hc'.2

/-- A first part that always ends. -/
theorem bind_of_true {f : α → Pass σ β} {post : β → σ → Prop} {mid : α → σ → Prop}
    (hx : Decides True x s mid) (hf : ∀ a t, mid a t → Decides cond (f a) t post) :
    Decides cond (x >>= f) s post :=
  (hx.bind fun a t _ hmid => hf a t hmid).congr (by simp)

end Decides

theorem decides_pure {post : α → σ → Prop} (h : post a s) :
    Decides True (pure a) s post := ⟨trivial, h⟩

theorem decides_get {f : σ → Pass σ β} :
    Decides cond (get >>= f) s post ↔ Decides cond (f s) s post := Iff.rfl

theorem decides_modify {g : σ → σ} {f : PUnit → Pass σ β} :
    Decides cond (modify g >>= f) s post ↔ Decides cond (f ()) (g s) post := Iff.rfl

theorem decides_reject {post : α → σ → Prop} :
    Decides False (reject cause token span : Pass σ α) s post := ⟨id, _, rfl⟩

theorem decides_require (holds : Bool) (cause : Cause) (token : String) (span : Span) :
    Decides (holds = true) (require holds cause token span : Pass σ Unit) s fun _ t => t = s := by
  cases holds with
  | false => exact ⟨Bool.false_ne_true, _, rfl⟩
  | true => exact ⟨rfl, rfl⟩

theorem decides_require_bind {f : Unit → Pass σ β} (h : holds = true → Decides cond (f ()) s post) :
    Decides (holds = true ∧ cond) (require holds cause token span >>= f) s post :=
  (decides_require holds cause token span).bind fun _ _ hholds hs => hs ▸ h hholds

/-- A requirement that is said in another way. -/
theorem decides_require_iff {f : Unit → Pass σ β} {cond' : Prop} (hiff : holds = true ↔ cond)
    (h : cond → Decides cond' (f ()) s post) :
    Decides (cond ∧ cond') (require holds cause token span >>= f) s post :=
  (decides_require_bind fun hholds => h (hiff.mp hholds)).congr (and_congr_left fun _ => hiff)

theorem decides_require_pure {post : α → σ → Prop} (hiff : holds = true ↔ cond)
    (hpost : cond → post a s) :
    Decides cond (require holds cause token span >>= fun _ => pure a) s post := by
  cases holds with
  | false => exact ⟨fun hc => Bool.false_ne_true (hiff.mpr hc), _, rfl⟩
  | true => exact ⟨hiff.mp rfl, hpost (hiff.mp rfl)⟩

theorem decides_promised {value : Option α} {defect : Defect} {post : α → σ → Prop}
    (h : value = some a) (hpost : post a s) :
    Decides True (promised value defect : Pass σ α) s post := by
  subst h
  exact ⟨trivial, hpost⟩

theorem decides_promised_bind {value : Option α} {defect : Defect} {f : α → Pass σ β}
    (h : value = some a) (hf : Decides cond (f a) s post) :
    Decides cond (promised value defect >>= f) s post := by
  subst h
  exact hf

/-! ## Loops -/

/-- Every member of `l` meets `cond`, given the members before it. -/
def EachAfter (cond : List α → α → Prop) (l : List α) : Prop :=
  ∀ done a rest, l = done ++ a :: rest → cond done a

theorem eachAfter_cons {cond : List α → α → Prop} :
    EachAfter cond (a :: l) ↔ cond [] a ∧ EachAfter (fun done => cond (a :: done)) l := by
  constructor
  · intro h
    refine ⟨h [] a l rfl, ?_⟩
    intro done b rest hl
    exact h (a :: done) b rest (by rw [hl]; rfl)
  · intro h done b rest hl
    cases done with
    | nil =>
      obtain ⟨rfl, rfl⟩ := List.cons.inj hl
      exact h.1
    | cons a' done =>
      obtain ⟨rfl, rfl⟩ := List.cons.inj hl
      exact h.2 done b rest rfl

theorem eachAfter_concat {cond : List α → α → Prop} (h : EachAfter cond l) (ha : cond l a) :
    EachAfter cond (l ++ [a]) := by
  intro done b rest hl
  rcases List.eq_nil_or_concat rest with rfl | ⟨rest, b', rfl⟩
  · obtain ⟨rfl, hb⟩ := List.append_inj' hl rfl
    obtain rfl : a = b := by simpa using hb
    exact ha
  · have hl : l ++ [a] = (done ++ b :: rest) ++ [b'] := by simpa using hl
    exact h done b rest (List.append_inj' hl rfl).1

theorem eachAfter_iff_forall {cond : α → Prop} :
    EachAfter (fun _ a => cond a) l ↔ ∀ a ∈ l, cond a := by
  constructor
  · intro h a ha
    obtain ⟨done, rest, hl⟩ := List.append_of_mem ha
    exact h done a rest hl
  · intro h done a rest hl
    exact h a (by rw [hl]; simp)

theorem eachAfter_and {cond cond' : List α → α → Prop} :
    EachAfter (fun done a => cond done a ∧ cond' done a) l ↔
      EachAfter cond l ∧ EachAfter cond' l := by
  constructor
  · intro h
    exact ⟨fun done a rest hl => (h done a rest hl).1, fun done a rest hl => (h done a rest hl).2⟩
  · intro h done a rest hl
    exact ⟨h.1 done a rest hl, h.2 done a rest hl⟩

/-- No member repeats the key of one before it. -/
theorem eachAfter_not_mem {key : α → β} :
    EachAfter (fun done a => key a ∉ done.map key) l ↔ (l.map key).Nodup := by
  constructor
  · intro h
    induction l with
    | nil => exact List.nodup_nil
    | cons a l ih =>
      obtain ⟨_, htail⟩ := eachAfter_cons.mp h
      rw [List.map_cons, List.nodup_cons]
      constructor
      · intro hmem
        obtain ⟨b, hb, hkey⟩ := List.mem_map.mp hmem
        obtain ⟨done, rest, hl⟩ := List.append_of_mem hb
        exact htail done b rest hl (by simp [hkey])
      · refine ih fun done b rest hl hmem => htail done b rest hl ?_
        exact List.mem_cons_of_mem _ hmem
  · intro h done a rest hl hmem
    rw [hl, List.map_append, List.nodup_append] at h
    exact h.2.2 (key a) hmem (key a) (by simp) rfl

theorem decides_forM {f : α → Pass σ PUnit} (inv : List α → σ → Prop)
    (cond : List α → α → Prop) (l : List α)
    (hstep : ∀ done a rest, l = done ++ a :: rest → ∀ t, inv done t →
      Decides (cond done a) (f a) t fun _ u => inv (done ++ [a]) u)
    (hstart : inv [] s) :
    Decides (EachAfter cond l) (l.forM f) s fun _ t => inv l t := by
  -- as for `meets_forM`, with what is done kept aside
  have key : ∀ rest done t, l = done ++ rest → inv done t →
      Decides (EachAfter (fun more => cond (done ++ more)) rest) (rest.forM f) t
        fun _ u => inv l u := by
    intro rest
    induction rest with
    | nil =>
      intro done t hl ht
      rw [List.append_nil] at hl
      exact ⟨by simp [EachAfter], hl ▸ ht⟩
    | cons a rest ih =>
      intro done t hl ht
      change Decides _ (f a >>= fun _ => rest.forM f) t _
      refine ((hstep done a rest hl t ht).bind fun _ u _ hu =>
        ih (done ++ [a]) u (by simpa using hl) hu).congr ?_
      rw [eachAfter_cons]
      simp only [List.append_nil, List.append_assoc, List.singleton_append]
  exact key l [] s rfl hstart

/-- A loop that collects results, where what is required of a member stands for itself. -/
theorem decides_mapM {f : α → Pass σ β} (inv : List α → List β → σ → Prop) (cond : α → Prop)
    (l : List α)
    (hstep : ∀ done a rest, l = done ++ a :: rest → ∀ bs t, inv done bs t →
      Decides (cond a) (f a) t fun b u => inv (done ++ [a]) (bs ++ [b]) u)
    (hstart : inv [] [] s) :
    Decides (∀ a ∈ l, cond a) (l.mapM f) s fun bs t => inv l bs t := by
  have key : ∀ rest done bs t, l = done ++ rest → inv done bs t →
      Decides (∀ a ∈ rest, cond a) (rest.mapM f) t fun cs u => inv l (bs ++ cs) u := by
    intro rest
    induction rest with
    | nil =>
      intro done bs t hl ht
      rw [List.append_nil] at hl
      rw [List.mapM_nil]
      have hinv : inv l (bs ++ []) t := by rw [List.append_nil, hl]; exact ht
      exact (decides_pure hinv).congr (by simp)
    | cons a rest ih =>
      intro done bs t hl ht
      rw [List.mapM_cons]
      have hcollect : ∀ b u, inv (done ++ [a]) (bs ++ [b]) u →
          Decides ((∀ a ∈ rest, cond a) ∧ True)
            (rest.mapM f >>= fun cs => pure (b :: cs)) u fun cs v => inv l (bs ++ cs) v := by
        intro b u hu
        refine (ih (done ++ [a]) (bs ++ [b]) u (by simpa using hl) hu).bind fun cs v _ hv => ?_
        exact decides_pure (by simpa using hv)
      refine ((hstep done a rest hl bs t ht).bind fun b u _ hu => hcollect b u hu).congr ?_
      simp
  exact key l [] [] s rfl hstart

/-! ## What a pass computes -/

/-- Run from state `s`, the pass ends exactly if `spec` has a value, and then with a result and a
    state that stand in the relation `post` to that value. -/
def Computes (spec : Option β) (x : Pass σ α) (s : σ) (post : β → α → σ → Prop) : Prop :=
  match x s with
  | .ok a t => ∃ b, spec = some b ∧ post b a t
  | .error e _ => spec = none ∧ e.IsRejection

variable {γ δ : Type}

namespace Computes

variable {spec : Option β} {x : Pass σ α} {mid post : β → α → σ → Prop}

theorem of_ok (h : Computes spec x s post) {a : α} {t : σ} (hx : x s = .ok a t) :
    ∃ b, spec = some b ∧ post b a t := by
  unfold Computes at h
  rw [hx] at h
  exact h

theorem of_error (h : Computes spec x s post) {e : CompileError} {t : σ}
    (hx : x s = .error e t) : spec = none ∧ e.IsRejection := by
  unfold Computes at h
  rw [hx] at h
  exact h

theorem mono (h : Computes spec x s mid) (himp : ∀ b a t, mid b a t → post b a t) :
    Computes spec x s post := by
  unfold Computes
  cases hx : x s with
  | error e t => exact h.of_error hx
  | ok a t =>
    obtain ⟨b, hb, hmid⟩ := h.of_ok hx
    exact ⟨b, hb, himp b a t hmid⟩

theorem and_meets {allowed : CompileError → Prop} {post' : α → σ → Prop}
    (h : Computes spec x s post) (h' : Meets allowed x s post') :
    Computes spec x s fun b a t => post b a t ∧ post' a t := by
  unfold Computes
  cases hx : x s with
  | error e t => exact h.of_error hx
  | ok a t =>
    obtain ⟨b, hb, hpost⟩ := h.of_ok hx
    exact ⟨b, hb, hpost, h'.of_ok hx⟩

theorem bind {k : β → Option δ} {f : α → Pass σ γ} {post : δ → γ → σ → Prop}
    (hx : Computes spec x s mid)
    (hf : ∀ b a t, spec = some b → mid b a t → Computes (k b) (f a) t post) :
    Computes (spec.bind k) (x >>= f) s post := by
  change match EStateM.bind x f s with
    | .ok c t => ∃ d, spec.bind k = some d ∧ post d c t
    | .error e _ => spec.bind k = none ∧ e.IsRejection
  unfold EStateM.bind
  cases hr : x s with
  | error e t => exact (hx.of_error hr).imp_left (congrArg (Option.bind · k))
  | ok a t =>
    obtain ⟨b, hb, hmid⟩ := hx.of_ok hr
    rw [hb]
    exact hf b a t hb hmid

/-- After a part that computes a value comes one that decides a condition on it. -/
theorem bind_decides {cond : β → Prop} {f : α → Pass σ γ} {post : γ → σ → Prop}
    (hx : Computes spec x s mid)
    (hf : ∀ b a t, spec = some b → mid b a t → Decides (cond b) (f a) t post) :
    Decides (∃ b, spec = some b ∧ cond b) (x >>= f) s post := by
  change match EStateM.bind x f s with
    | .ok c t => (∃ b, spec = some b ∧ cond b) ∧ post c t
    | .error e _ => (¬ ∃ b, spec = some b ∧ cond b) ∧ e.IsRejection
  unfold EStateM.bind
  cases hr : x s with
  | error e t =>
    refine (hx.of_error hr).imp_left fun hnone hex => ?_
    obtain ⟨b, hb, _⟩ := hex
    exact Option.some_ne_none b (hb.symm.trans hnone)
  | ok a t =>
    obtain ⟨b, hb, hmid⟩ := hx.of_ok hr
    have hiff : cond b ↔ ∃ b', spec = some b' ∧ cond b' := by simp [hb]
    exact (hf b a t hb hmid).congr hiff

end Computes

/-- After a part that decides a condition comes one that computes a value. -/
theorem Decides.bind_computes [Decidable cond] {x : Pass σ α} {mid : α → σ → Prop} {spec : Option δ}
    {f : α → Pass σ γ} {post : δ → γ → σ → Prop} (hx : Decides cond x s mid)
    (hf : ∀ a t, cond → mid a t → Computes spec (f a) t post) :
    Computes (if cond then spec else none) (x >>= f) s post := by
  change match EStateM.bind x f s with
    | .ok c t => ∃ d, (if cond then spec else none) = some d ∧ post d c t
    | .error e _ => (if cond then spec else none) = none ∧ e.IsRejection
  unfold EStateM.bind
  cases hr : x s with
  | error e t => exact (hx.of_error hr).imp_left fun hno => if_neg hno
  | ok a t =>
    obtain ⟨hc, hmid⟩ := hx.of_ok hr
    rw [if_pos hc]
    exact hf a t hc hmid

theorem Decides.computes [Decidable cond] {x : Pass σ α} {b : β} {post : β → α → σ → Prop}
    (h : Decides cond x s fun a t => post b a t) :
    Computes (if cond then some b else none) x s post := by
  unfold Computes
  cases hx : x s with
  | error e t => exact (h.of_error hx).imp_left fun hno => if_neg hno
  | ok a t =>
    obtain ⟨hc, hpost⟩ := h.of_ok hx
    exact ⟨b, if_pos hc, hpost⟩

theorem computes_pure {b : β} {post : β → α → σ → Prop} (h : post b a s) :
    Computes (some b) (pure a) s post := ⟨b, rfl, h⟩

theorem computes_get {f : σ → Pass σ α} {spec : Option β} {post : β → α → σ → Prop} :
    Computes spec (get >>= f) s post ↔ Computes spec (f s) s post := Iff.rfl

theorem computes_modify {g : σ → σ} {f : PUnit → Pass σ α} {spec : Option β}
    {post : β → α → σ → Prop} :
    Computes spec (modify g >>= f) s post ↔ Computes spec (f ()) (g s) post := Iff.rfl

theorem computes_reject {post : β → α → σ → Prop} :
    Computes none (reject cause token span : Pass σ α) s post := ⟨rfl, _, rfl⟩

end Pass

end IcLir
