import IcLir.Proofs.LoweringTotal

/-
  Lowering an accepted program always ends, and every body becomes a routine of the result:
  the entry method the main routine, any other method one of the rest (`meets_lowerProgram`).
-/

namespace IcLir

namespace Lowering

open Pass Definition Typing TypeTable

variable {p : Program} {c : Context} {strategy : Strategy}

variable {k : ClassDecl} {m : MethodDecl}

theorem meets_lowerMethod (h : c.Accepts p) (strategy : Strategy) {i : Nat}
    (hi : p.classes[i]? = some k) (hm : m ∈ k.methods) (hkind : m.kind ≠ .library) (s : Supply) :
    Meets CompileError.Never (lowerMethod ⟨c, strategy, classId i⟩ k m) s fun _ _ => True := by
  obtain ⟨owner, parent, scope, returnType, hclass, hmethod, hbody⟩ := h.typed i k hi m hm hkind
  have henv : LowerEnv.Lowers ⟨c, strategy, classId i⟩ p
      ⟨c.scopes, classId i, owner, m.isStatic, returnType⟩ :=
    ⟨h, ⟨h.defined, rfl, i, k, parent, hi, rfl, hclass⟩, rfl⟩
  unfold lowerMethod LowerEnv.methodScope
  rw [meets_bind]
  refine meets_promised hmethod.get? ?_
  rw [meets_bind]
  have hloops : LoopsFit false [] := fun hfalse => absurd hfalse (by decide)
  exact (meets_lowerStmts henv hbody hloops s).mono fun _ _ _ => trivial

/-! ## The routines of a class -/

/-- The methods of a class that have code. -/
def bodies (k : ClassDecl) : List MethodDecl := k.methods.filter (·.kind ≠ .library)

theorem mem_bodies : m ∈ bodies k ↔ m ∈ k.methods ∧ m.kind ≠ .library := by
  simp [bodies]

/-- `r` is the code of method `m` of class number `i`. -/
def IsRoutineOf (c : Context) (strategy : Strategy) (i : Nat) (k : ClassDecl) (m : MethodDecl)
    (r : Routine) : Prop :=
  ∃ s s', lowerMethod ⟨c, strategy, classId i⟩ k m s = .ok r s'

/-- `routines` are those of the methods `ms` of class number `i`, each with whether it is the
    entry method. -/
structure RoutinesOf (c : Context) (strategy : Strategy) (i : Nat) (k : ClassDecl)
    (ms : List MethodDecl) (routines : List (Bool × Routine)) : Prop where
  flags : routines.map Prod.fst = ms.map c.isEntry
  lowered : ∀ m ∈ ms, ∃ r, IsRoutineOf c strategy i k m r ∧ (c.isEntry m, r) ∈ routines

theorem meets_lowerClass (h : c.Accepts p) (strategy : Strategy) {i : Nat}
    (hi : p.classes[i]? = some k) (s : Supply) :
    Meets CompileError.Never (lowerClass c strategy k) s fun routines _ =>
      RoutinesOf c strategy i k (bodies k) routines := by
  unfold lowerClass
  rw [meets_bind]
  refine meets_promised (h.defined.table.class? i k hi) ?_
  refine meets_mapM (fun done routines _ => RoutinesOf c strategy i k done routines) (bodies k) ?_
    ⟨rfl, by simp⟩
  intro done m rest hbodies routines s₁ hdone
  obtain ⟨hm, hkind⟩ := mem_bodies.mp (show m ∈ bodies k by simp [hbodies])
  obtain ⟨r, s₂, hr, -⟩ := (meets_lowerMethod h strategy hi hm hkind s₁).exists_ok
  rw [meets_bind]
  refine meets_of_eq_ok hr ⟨?_, fun m' hm' => ?_⟩
  · rw [List.map_append, List.map_append, hdone.flags]
    rfl
  · rcases List.mem_append.mp hm' with hm' | hm'
    · obtain ⟨r', hr', hmem⟩ := hdone.lowered m' hm'
      exact ⟨r', hr', List.mem_append_left _ hmem⟩
    · rw [List.mem_singleton.mp hm']
      exact ⟨r, ⟨s₁, s₂, hr⟩, by simp⟩

theorem meets_dispatchTable (h : c.Accepts p) (hk : k ∈ p.classes) (s : Supply) :
    Meets CompileError.Never (dispatchTable c k) s fun _ _ => True := by
  obtain ⟨i, hi⟩ := List.mem_iff_getElem?.mp hk
  obtain ⟨scope, parent, hclass⟩ := h.defined.classOf i k hi
  obtain ⟨l, hl, _⟩ := h.exists_layout hi hclass
  unfold dispatchTable
  rw [meets_bind]
  refine meets_promised (h.defined.table.class? i k hi) ?_
  rw [meets_bind]
  exact meets_promised hl trivial

/-! ## The routines of a program -/

/-- The classes that are lowered. -/
def lowered (p : Program) : List ClassDecl := p.classes.filter fun k => !k.isLibrary

/-- A class with a body is lowered. -/
theorem mem_lowered (hk : k ∈ p.classes) (hm : m ∈ k.methods) (hkind : m.kind ≠ .library) :
    k ∈ lowered p := by
  refine List.mem_filter.mpr ⟨hk, ?_⟩
  have hnot : (k.methods.all (·.kind = .library)) = false := by
    rw [List.all_eq_false]
    exact ⟨m, hm, by simpa using hkind⟩
  simp [ClassDecl.isLibrary, hnot]

/-- All routines, each with whether it is the entry method. -/
structure AllRoutines (c : Context) (strategy : Strategy) (p : Program) (ks : List ClassDecl)
    (routines : List (Bool × Routine)) : Prop where
  flags : routines.map Prod.fst = (ks.flatMap bodies).map c.isEntry
  lowered : ∀ i k, k ∈ ks → p.classes[i]? = some k → ∀ m ∈ bodies k,
    ∃ r, IsRoutineOf c strategy i k m r ∧ (c.isEntry m, r) ∈ routines

theorem meets_lowerClasses (h : c.Accepts p) (strategy : Strategy) (s : Supply) :
    Meets CompileError.Never ((lowered p).mapM (lowerClass c strategy)) s fun routines _ =>
      AllRoutines c strategy p (lowered p) routines.flatten := by
  refine meets_mapM (fun done routines _ => AllRoutines c strategy p done routines.flatten)
    (lowered p) ?_ ⟨rfl, by simp⟩
  intro done k rest hlowered routines s₁ hdone
  have hk : k ∈ p.classes := (List.mem_filter.mp (show k ∈ lowered p by simp [hlowered])).1
  obtain ⟨i, hi⟩ := List.mem_iff_getElem?.mp hk
  refine (meets_lowerClass h strategy hi s₁).mono ?_
  intro new s₂ hnew
  rw [List.flatten_append, List.flatten_singleton]
  refine ⟨?_, fun j k' hk' hj m hm => ?_⟩
  · rw [List.map_append, List.flatMap_append, List.map_append, hdone.flags, hnew.flags]
    simp
  · rcases List.mem_append.mp hk' with hk' | hk'
    · obtain ⟨r, hr, hmem⟩ := hdone.lowered j k' hk' hj m hm
      exact ⟨r, hr, List.mem_append_left _ hmem⟩
    · obtain rfl := List.mem_singleton.mp hk'
      obtain rfl : j = i := h.defined.table.index_unique hj hi rfl
      obtain ⟨r, hr, hmem⟩ := hnew.lowered m hm
      exact ⟨r, hr, List.mem_append_right _ hmem⟩

/-! ## The entry method -/

theorem bodies_sublist (p : Program) :
    ((Lowering.lowered p).flatMap bodies).Sublist p.methods :=
  (List.filter_sublist.flatMap bodies).trans (.flatMap_right _ fun _ _ => List.filter_sublist)

/-- One routine at most is that of the entry method. -/
theorem AllRoutines.length_filter_le {routines : List (Bool × Routine)}
    (h : AllRoutines c strategy p (Lowering.lowered p) routines) (hp : p.DistinctNodes) :
    (routines.filter Prod.fst).length ≤ 1 := by
  have hflags : (routines.filter Prod.fst).length =
      ((Lowering.lowered p).flatMap bodies).countP c.isEntry := by
    rw [← List.countP_eq_length_filter]
    have := congrArg (List.countP id) h.flags
    rwa [List.countP_map, List.countP_map] at this
  rw [hflags]
  refine Nat.le_trans (bodies_sublist p).countP_le ?_
  cases he : c.entry with
  | none =>
    have hnone : c.isEntry = fun _ => false := by
      funext m
      rw [Context.isEntry, he]
      rfl
    rw [hnone, List.countP_false]
    exact Nat.zero_le 1
  | some e =>
    have hcount := List.nodup_iff_count.mp hp.methods e.method.id
    rw [List.count, List.countP_map] at hcount
    refine Nat.le_trans (Nat.le_of_eq (List.countP_congr fun m _ => ?_)) hcount
    simp only [Context.isEntry, he, Option.any_some, Function.comp_apply, decide_eq_true_eq,
      beq_iff_eq]
    exact eq_comm

theorem AllRoutines.getLast?_eq {routines : List (Bool × Routine)}
    (h : AllRoutines c strategy p (Lowering.lowered p) routines) (hp : p.DistinctNodes)
    {r : Routine} (hr : (true, r) ∈ routines) :
    ((routines.filter Prod.fst).map Prod.snd).getLast? = some r := by
  have hmem : (true, r) ∈ routines.filter Prod.fst := List.mem_filter.mpr ⟨hr, rfl⟩
  have hlength := h.length_filter_le hp
  match hfilter : routines.filter Prod.fst with
  | [] => rw [hfilter] at hmem; simp at hmem
  | [x] =>
    rw [hfilter, List.mem_singleton] at hmem
    rw [← hmem]
    rfl
  | _ :: _ :: _ => rw [hfilter] at hlength; simp at hlength

/-- Every body has its routine in the program. -/
def Covers (c : Context) (strategy : Strategy) (p : Program) (assembly : Assembly) : Prop :=
  ∀ i k m, p.classes[i]? = some k → m ∈ k.methods → m.kind ≠ .library →
    ∃ r, IsRoutineOf c strategy i k m r ∧
      if c.isEntry m then assembly.main = r else r ∈ assembly.methods

theorem meets_lowerProgram (h : c.Accepts p) (hp : p.DistinctNodes) (strategy : Strategy)
    (s : Supply) :
    Meets CompileError.Never (lowerProgram c strategy p) s fun assembly _ =>
      Covers c strategy p assembly := by
  unfold lowerProgram
  dsimp only
  refine (meets_lowerClasses h strategy s).bind fun routines s₁ hall => ?_
  -- the entry method is a method of a class with a body
  obtain ⟨e, he, k, hk, hm, hstatic⟩ := h.entry
  have hkind : e.method.kind ≠ .library := by rw [hstatic]; decide
  obtain ⟨i, hi⟩ := List.mem_iff_getElem?.mp hk
  obtain ⟨main, _, hmem⟩ := hall.lowered i k (mem_lowered hk hm hkind) hi e.method
    (mem_bodies.mpr ⟨hm, hkind⟩)
  have hentry : c.isEntry e.method = true := by simp [Context.isEntry, he]
  rw [hentry] at hmem
  rw [meets_bind]
  refine meets_promised (hall.getLast?_eq hp hmem) ?_
  refine (meets_mapM (fun _ _ _ => True) (lowered p) ?_ trivial).bind fun tables s₂ _ => ?_
  · intro done k rest hlowered _ s₂ _
    have hk : k ∈ p.classes := (List.mem_filter.mp (show k ∈ lowered p by simp [hlowered])).1
    exact meets_dispatchTable h hk s₂
  · intro i k m hi hm hkind
    have hk := List.mem_of_getElem? hi
    obtain ⟨r, hr, hmem'⟩ := hall.lowered i k (mem_lowered hk hm hkind) hi m
      (mem_bodies.mpr ⟨hm, hkind⟩)
    refine ⟨r, hr, ?_⟩
    split
    · next hentry' =>
      rw [hentry'] at hmem'
      have hlast := hall.getLast?_eq hp hmem
      rw [hall.getLast?_eq hp hmem'] at hlast
      exact (Option.some.inj hlast).symm
    · next hentry' =>
      rw [Bool.not_eq_true] at hentry'
      rw [hentry'] at hmem'
      exact List.mem_map.mpr ⟨_, List.mem_filter.mpr ⟨hmem', rfl⟩, rfl⟩

end Lowering

/-- Generating the code of an accepted program succeeds. -/
theorem Context.Accepts.exists_generate {c : Context} {p : Program} (h : c.Accepts p)
    (hp : p.DistinctNodes) (strategy : Strategy) :
    ∃ assembly, c.generate strategy p = .ok assembly ∧
      Lowering.Covers c strategy p assembly := by
  obtain ⟨assembly, s, hlower, hcovers⟩ :=
    (Lowering.meets_lowerProgram h hp strategy .initial).exists_ok
  refine ⟨assembly, ?_, hcovers⟩
  unfold Context.generate
  rw [hlower]

end IcLir
