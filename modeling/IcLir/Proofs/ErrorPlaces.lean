import IcLir.Proofs.DefinitionChanges
import IcLir.Proofs.DefinitionRules

/-
  Where the errors of the definition stage point. An error has a token and a place; what it can
  point at are the names and the types that are written in the program (`Program.writings`). Each
  part of the stage points into the part of the program that it looks at, with one exception. A
  class is entered with one place for all that can be wrong about it: if its superclass is unknown,
  that is the place of the superclass, and if its name is taken as well, the error is about the
  name (`FaultyTwice`).
-/

namespace IcLir

namespace Definition

/-- The name of `c` cannot be given to a class after the classes `done`. -/
def NameTaken (done : List ClassDecl) (c : ClassDecl) : Prop :=
  c.name.name ∈ done.map (·.name.name) ∨ c.name.name ∈ Primitive.all.map Primitive.text

/-- Two things are wrong with `c` after the classes `done`: its name is taken, and its superclass,
    written as `base`, is not known. -/
structure TwoFaults (done : List ClassDecl) (c : ClassDecl) (base : Ident) : Prop where
  nameTaken : NameTaken done c
  superclass : c.superclass = some base
  unknown : base.name ∉ done.map (·.name.name)

end Definition

/-- The first class that cannot be entered has two faults. -/
def Program.FaultyTwice (p : Program) (c : ClassDecl) (base : Ident) : Prop :=
  ∃ done rest, p.classes = done ++ c :: rest ∧ Pass.EachAfter Definition.Enters done ∧
    Definition.TwoFaults done c base

/-- What is said about a class with two faults: its name, at the place of its superclass. -/
def ClassDecl.misplaced (c : ClassDecl) (base : Ident) : Rejection :=
  ⟨.duplicateClass, c.name.name, base.span⟩

namespace Definition

open Pass TypeTable

/-! ## Entering the classes -/

section

variable {done : List ClassDecl} {c : ClassDecl} {d : Definition}

theorem isSome_class?_iff (h : Entered done d) (name : String) :
    (d.types.class? name).isSome = true ↔ name ∈ done.map (·.name.name) :=
  h.table.isSome_base?_iff (.named name)

theorem isNone_class?_iff (h : Entered done d) (name : String) :
    (d.types.class? name).isNone = true ↔ name ∉ done.map (·.name.name) := by
  rw [← isSome_class?_iff h name]
  simp

theorem addClass_of_nameTaken (h : Entered done d) (htaken : NameTaken done c) :
    d.types.addClass c.name.name (c.superclass.map (·.name)) =
      .error (.duplicateClass c.name.name) := by
  unfold addClass
  rw [if_pos]
  rw [Bool.or_eq_true, isSome_class?_iff h, isSome_named?_iff]
  exact htaken

theorem addClass_of_not_nameTaken (h : Entered done d) (hnew : ¬ NameTaken done c)
    {err : DeclarationError}
    (herr : d.types.addClass c.name.name (c.superclass.map (·.name)) = .error err) :
    ∃ base, c.superclass = some base ∧ base.name ∉ done.map (·.name.name) ∧
      err = .undefinedSuperclass c.name.name base.name := by
  unfold addClass at herr
  rw [if_neg] at herr
  · cases hsuper : c.superclass with
    | none => simp [hsuper] at herr
    | some base =>
      rw [hsuper, Option.map_some] at herr
      cases hbase : d.types.class? base.name with
      | some id => simp [hbase] at herr
      | none =>
        refine ⟨base, rfl, (isNone_class?_iff h base.name).mp (by rw [hbase]; rfl), ?_⟩
        simpa [hbase] using herr.symm
  · rw [Bool.or_eq_true, isSome_class?_iff h, isSome_named?_iff]
    exact hnew

/-- The place is chosen by the superclass alone. -/
theorem registrationSpan_of_unknown (h : Entered done d) {base : Ident}
    (hsuper : c.superclass = some base) (hbase : base.name ∉ done.map (·.name.name)) :
    registrationSpan d.types c = base.span := by
  unfold registrationSpan
  rw [hsuper]
  exact if_pos ((isNone_class?_iff h base.name).mpr hbase)

theorem registrationSpan_of_known (h : Entered done d)
    (hknown : ∀ base, c.superclass = some base → base.name ∈ done.map (·.name.name)) :
    registrationSpan d.types c = c.name.span := by
  unfold registrationSpan
  cases hsuper : c.superclass with
  | none => rfl
  | some base =>
    refine if_neg fun hnone => ?_
    exact (isNone_class?_iff h base.name).mp hnone (hknown base hsuper)

theorem registerClass_of_addClass {err : DeclarationError}
    (herr : d.types.addClass c.name.name (c.superclass.map (·.name)) = .error err) :
    registerClass c d = .error (.rejected (err.rejectAt (registrationSpan d.types c))) d := by
  unfold registerClass
  refine Pass.bind_eq_error.mpr (.inr ⟨d, d, rfl, ?_⟩)
  rw [herr]
  rfl

/-- The one place where token and place do not belong together. -/
theorem registerClass_of_twoFaults (h : Entered done d) {base : Ident}
    (hfaults : TwoFaults done c base) :
    registerClass c d = .error (.rejected (c.misplaced base)) d := by
  rw [registerClass_of_addClass (addClass_of_nameTaken h hfaults.nameTaken),
    registrationSpan_of_unknown h hfaults.superclass hfaults.unknown]
  rfl

/-- With one fault, an error about a class points at its name or at that of its superclass. -/
theorem registerClass_points (h : Entered done d) :
    Meets (fun e => e.PointsInto c.writings ∨ ∃ base, TwoFaults done c base) (registerClass c) d
      fun _ d' => Enters done c ∧ Entered (done ++ [c]) d' := by
  have hdecides := decides_registerClass h c
  cases hadd : d.types.addClass c.name.name (c.superclass.map (·.name)) with
  | ok result =>
    obtain ⟨_, d', hok⟩ := hdecides.exists_ok_iff.mpr ((enters_iff h.table c).mp ⟨result, hadd⟩)
    exact meets_of_eq_ok hok (hdecides.of_ok hok)
  | error err =>
    unfold Meets
    rw [registerClass_of_addClass hadd]
    dsimp only
    by_cases htaken : NameTaken done c
    · obtain rfl : _ = err := Except.error.inj ((addClass_of_nameTaken h htaken).symm.trans hadd)
      by_cases hknown : ∀ base, c.superclass = some base → base.name ∈ done.map (·.name.name)
      · rw [registrationSpan_of_known h hknown]
        exact .inl ⟨_, rfl, .ident c.name, by simp [ClassDecl.writings], rfl, rfl⟩
      · simp only [Classical.not_forall] at hknown
        obtain ⟨base, hsuper, hbase⟩ := hknown
        exact .inr ⟨base, htaken, hsuper, hbase⟩
    · obtain ⟨base, hsuper, hbase, rfl⟩ := addClass_of_not_nameTaken h htaken hadd
      rw [registrationSpan_of_unknown h hsuper hbase]
      exact .inl ⟨_, rfl, .ident base, by simp [ClassDecl.writings, hsuper], rfl, rfl⟩

end

/-! ## The stage -/

/-- What the errors of the definition stage point at. -/
def Placed (p : Program) (e : CompileError) : Prop :=
  (∃ r, e = .rejected r ∧ (r.cause ≠ .missingEntry → r.PointsInto p.writings)) ∨
    ∃ c base, p.FaultyTwice c base

theorem placed_of_pointsInto {p : Program} {c : ClassDecl} (hc : c ∈ p.classes) {e : CompileError}
    (h : e.PointsInto c.writings) : Placed p e := by
  obtain ⟨r, rfl, w, hw, heq⟩ := h
  exact .inl ⟨r, rfl, fun _ => ⟨w, List.mem_flatMap.mpr ⟨c, hc, hw⟩, heq⟩⟩

theorem defineClass_placed {p : Program} {entryMethod : String} {done rest : List ClassDecl}
    {c : ClassDecl} {d : Definition} (h : DefinedUpTo p entryMethod done d)
    (hp : p.classes = done ++ c :: rest) :
    Meets (Placed p) (defineClass entryMethod c) d fun _ d' =>
      DefinedUpTo p entryMethod (done ++ [c]) d' := by
  cases hrun : defineClass entryMethod c d with
  | ok _ d' => exact meets_of_eq_ok hrun ((decides_defineNext h hp).of_ok hrun).2
  | error e d' =>
    unfold Meets
    rw [hrun]
    rcases ((changes_defineClass entryMethod c).of_error hrun).2 with he | hnone
    · exact placed_of_pointsInto (by simp [hp]) he
    · rw [h.filled.table.class? done.length c (by simp [hp])] at hnone
      cases hnone

theorem findEntry_points {p : Program} {entryMethod : String} {d : Definition}
    (h : ∀ e ∈ d.entries, EntryIn entryMethod p.classes e) :
    Meets (fun e => ∃ r, e = .rejected r ∧ (r.cause ≠ .missingEntry → r.PointsInto p.writings))
      (findEntry entryMethod) d fun _ _ => True := by
  unfold findEntry
  rw [meets_bind, meets_get]
  split
  · exact ⟨_, rfl, fun h => absurd rfl h⟩
  · exact trivial
  · next first second rest hentries =>
    obtain ⟨i, c, hi, _, hm, hentry⟩ := h second (by simp [hentries])
    refine ⟨_, rfl, fun _ => ⟨.ident second.method.name, ?_, (of_decide_eq_true hentry).2.1, rfl⟩⟩
    refine List.mem_flatMap.mpr ⟨c, List.mem_of_getElem? hi, List.mem_append_right _ ?_⟩
    exact List.mem_flatMap.mpr ⟨second.method, hm, .tail _ (.head _)⟩

theorem meets_placed_defineProgram (p : Program) (options : Options) (entryMethod : String) :
    Meets (Placed p) (defineProgram entryMethod p) (Context.initial options).definition
      fun _ _ => True := by
  unfold defineProgram
  rw [meets_bind]
  have hregister : Meets (Placed p) (p.classes.forM registerClass)
      (Context.initial options).definition
      fun _ d => Entered p.classes d ∧ EachAfter Enters p.classes := by
    refine meets_forM (fun done d => Entered done d ∧ EachAfter Enters done) p.classes ?_
      ⟨entered_initial options, by simp [EachAfter]⟩
    intro done c rest hp d hd
    refine ((registerClass_points hd.1).allow ?_).mono ?_
    · intro e he
      rcases he with he | ⟨base, hbase⟩
      · exact placed_of_pointsInto (by simp [hp]) he
      · exact .inr ⟨c, base, done, rest, hp, hd.2, hbase⟩
    · intro _ d' hd'
      exact ⟨hd'.2, eachAfter_concat hd.2 hd'.1⟩
  refine hregister.mono fun _ d₁ hd₁ => ?_
  rw [meets_bind]
  have hdefine : Meets (Placed p) (p.classes.forM (defineClass entryMethod)) d₁
      fun _ d => DefinedUpTo p entryMethod p.classes d :=
    meets_forM (fun done d => DefinedUpTo p entryMethod done d) p.classes
      (fun done c rest hp d hd => defineClass_placed hd hp) (hd₁.1.definedUpTo entryMethod)
  refine hdefine.mono fun _ d₂ hd₂ => ?_
  exact (findEntry_points hd₂.entries).allow fun e he => .inl he

/-- A program with two faults in one class is rejected with a misplaced error. -/
theorem defineProgram_of_faultyTwice {p : Program} {c : ClassDecl} {base : Ident}
    (h : p.FaultyTwice c base) (options : Options) (entryMethod : String) :
    ∃ d, defineProgram entryMethod p (Context.initial options).definition =
      .error (.rejected (c.misplaced base)) d := by
  obtain ⟨done, rest, hp, hdone, hfaults⟩ := h
  have hdecides := decides_forM (fun done d => Entered done d) Enters done
    (fun done c _ _ d hd => decides_registerClass hd c) (entered_initial options)
  obtain ⟨_, d, hok⟩ := hdecides.exists_ok_iff.mpr hdone
  have herror := registerClass_of_twoFaults (hdecides.of_ok hok).2 hfaults
  have hrest : (c :: rest).forM registerClass d = .error (.rejected (c.misplaced base)) d :=
    bind_eq_error.mpr (.inl herror)
  refine ⟨d, bind_eq_error.mpr (.inl ?_)⟩
  have hsplit : p.classes.forM registerClass = (do
      done.forM registerClass
      (c :: rest).forM registerClass) := by
    rw [hp]
    exact List.forM_append
  rw [hsplit]
  exact bind_eq_error.mpr (.inr ⟨_, d, hok, hrest⟩)

/-- With a program whose classes can all be entered, nothing is misplaced. -/
theorem not_faultyTwice_of_enters {p : Program} (h : EachAfter Enters p.classes) (c : ClassDecl)
    (base : Ident) : ¬ p.FaultyTwice c base := by
  rintro ⟨done, rest, hp, _, hfaults⟩
  exact hfaults.unknown ((h done c rest hp).superclass base hfaults.superclass)

end Definition

/-! ## Rejected programs -/

theorem Context.define_eq_error {p : Program} {options : Options} {e : CompileError} {c : Context}
    (h : Context.define p (.initial options) = .error e c) :
    ∃ d, Definition.defineProgram options.entryMethod p (Context.initial options).definition =
      .error e d := by
  unfold Context.define at h
  split at h
  · cases h
  · next hd => cases h; exact ⟨_, hd⟩

/-- An error of the definition stage other than the one about a missing entry names something that
    is written in the program and points at it, unless two things are wrong with one class: its
    name is taken and its superclass is unknown. Then it names the class and points at the
    superclass. -/
theorem definition_errors_point_at_their_names_iff {p : Program} {options : Options}
    {e : CompileError} {context : Context}
    (h : Context.define p (.initial options) = .error e context) :
    ∃ r, e = .rejected r ∧
      (∀ c base, p.FaultyTwice c base → r = c.misplaced base) ∧
      (r.cause ≠ .missingEntry → (r.PointsInto p.writings ↔
        ∀ c base, p.FaultyTwice c base → (c.misplaced base).PointsInto p.writings)) := by
  obtain ⟨d, hd⟩ := Context.define_eq_error h
  have htwice : ∀ c base, p.FaultyTwice c base → e = .rejected (c.misplaced base) := by
    intro c base hfaulty
    obtain ⟨d', hd'⟩ :=
      Definition.defineProgram_of_faultyTwice hfaulty options options.entryMethod
    rw [hd] at hd'
    exact (EStateM.Result.error.inj hd').1
  rcases (Definition.meets_placed_defineProgram p options options.entryMethod).of_error hd with
    ⟨r, rfl, hpoints⟩ | ⟨c, base, hfaulty⟩
  · have hmisplaced : ∀ c base, p.FaultyTwice c base → r = c.misplaced base := fun c base hfaulty =>
      CompileError.rejected.inj (htwice c base hfaulty)
    refine ⟨r, rfl, hmisplaced, fun hcause => ⟨fun hr c base hfaulty => ?_, fun _ => ?_⟩⟩
    · rwa [← hmisplaced c base hfaulty]
    · exact hpoints hcause
  · obtain rfl := htwice c base hfaulty
    have hmisplaced : ∀ c' base', p.FaultyTwice c' base' → c.misplaced base = c'.misplaced base' :=
      fun c' base' hfaulty' => CompileError.rejected.inj (htwice c' base' hfaulty')
    refine ⟨c.misplaced base, rfl, hmisplaced, fun _ => ⟨fun hr c' base' hfaulty' => ?_, ?_⟩⟩
    · rwa [← hmisplaced c' base' hfaulty']
    · exact fun hall => hall c base hfaulty

namespace Misplaced

/-- `class Main { static void main(string[] args) { int x; int x; } }` -/
def twoLocals : Program where
  classes := [{
    name := ⟨"Main", ⟨1, 7, 4⟩⟩, superclass := none, fields := []
    methods := [{
      id := 1, kind := .static, returnType := ⟨.void, 0, ⟨2, 10, 4⟩⟩
      name := ⟨"main", ⟨2, 15, 4⟩⟩
      params := [⟨⟨.string, 1, ⟨2, 20, 8⟩⟩, ⟨"args", ⟨2, 29, 4⟩⟩⟩]
      body := [.declare ⟨2, ⟨3, 5, 6⟩⟩ ⟨.int, 0, ⟨3, 5, 3⟩⟩ ⟨"x", ⟨3, 9, 1⟩⟩ none,
        .declare ⟨3, ⟨4, 5, 6⟩⟩ ⟨.int, 0, ⟨4, 5, 3⟩⟩ ⟨"x", ⟨4, 9, 1⟩⟩ none] }] }]

/-- `class A extends B {}` -/
def derived : ClassDecl := ⟨⟨"A", ⟨2, 7, 1⟩⟩, some ⟨"B", ⟨2, 17, 1⟩⟩, [], []⟩

/-- `class A {} class A extends B {}` -/
def twoClasses : Program := ⟨[⟨⟨"A", ⟨1, 7, 1⟩⟩, none, [], []⟩, derived]⟩

/-- How the definition stage ends on a program. -/
def rejection? (p : Program) : Option Rejection :=
  match Context.define p (.initial {}) with
  | .error (.rejected r) _ => some r
  | _ => none

theorem exists_context_of_rejection? {p : Program} {r : Rejection} (h : rejection? p = some r) :
    ∃ context, Context.define p (.initial {}) = .error (.rejected r) context := by
  unfold rejection? at h
  split at h
  · next hdefine => obtain rfl := Option.some.inj h; exact ⟨_, hdefine⟩
  · cases h

theorem not_faultyTwice_twoLocals (c : ClassDecl) (base : Ident) :
    ¬ twoLocals.FaultyTwice c base := by
  refine Definition.not_faultyTwice_of_enters ?_ c base
  exact Pass.eachAfter_cons.mpr ⟨⟨by simp, by decide, by simp⟩, by simp [Pass.EachAfter]⟩

end Misplaced

/-- The second of two locals of one name is pointed at. -/
theorem definition_errors_point_at_their_names_iff_locals :
    ∃ r context, Context.define Misplaced.twoLocals (.initial {}) = .error (.rejected r) context ∧
      r.cause ≠ .missingEntry ∧ r.PointsInto Misplaced.twoLocals.writings := by
  have hrejection : Misplaced.rejection? Misplaced.twoLocals =
      some ⟨.duplicateSymbol, "x", ⟨4, 9, 1⟩⟩ := by decide +kernel
  obtain ⟨context, hdefine⟩ := Misplaced.exists_context_of_rejection? hrejection
  obtain ⟨r, hr, _, hpoints⟩ := definition_errors_point_at_their_names_iff hdefine
  obtain rfl := CompileError.rejected.inj hr
  refine ⟨_, context, hdefine, by decide, (hpoints (by decide)).mpr fun c base hfaulty => ?_⟩
  exact absurd hfaulty (Misplaced.not_faultyTwice_twoLocals c base)

/-- The second class of a name is blamed for its name, at the place of its unknown superclass. -/
theorem repeated_class_is_pointed_at_by_its_superclass :
    Misplaced.rejection? Misplaced.twoClasses = some ⟨.duplicateClass, "A", ⟨2, 17, 1⟩⟩ ∧
      ¬ Rejection.PointsInto Misplaced.twoClasses.writings
        ⟨.duplicateClass, "A", ⟨2, 17, 1⟩⟩ := by
  decide +kernel

end IcLir
