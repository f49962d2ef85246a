import IcLir.Proofs.CompileOutcome
import IcLir.Proofs.Lowered
import IcLir.Proofs.ProgramText
import Mathlib.Data.List.Forall2

/-
  The code of a whole program. Its methods are lowered one after the other, in the order of
  declaration, and share one supply of labels and string literals (`LoweredMethods`). Whatever
  is generated is put together from their code and has one dispatch table for each class that
  is lowered (`Assembled`).
-/

namespace IcLir

namespace Lowering

open Pass Definition TypeTable

variable {p : Program} {c : Context} {strategy : Strategy}

/-! ## The methods that have code -/

/-- The methods that are lowered, each with its class, in the order of lowering. -/
def emitted (p : Program) : List (ClassDecl × MethodDecl) :=
  (lowered p).flatMap fun k => (bodies k).map fun m => (k, m)

theorem mem_emitted {e : ClassDecl × MethodDecl} :
    e ∈ emitted p ↔ e.1 ∈ p.classes ∧ e.2 ∈ e.1.methods ∧ e.2.kind ≠ .library := by
  unfold emitted
  rw [List.mem_flatMap]
  constructor
  · intro h
    obtain ⟨k, hk, he⟩ := h
    obtain ⟨m, hm, rfl⟩ := List.mem_map.mp he
    exact ⟨(List.mem_filter.mp hk).1, mem_bodies.mp hm⟩
  · intro h
    obtain ⟨hk, hm, hkind⟩ := h
    exact ⟨e.1, mem_lowered hk hm hkind, List.mem_map.mpr ⟨e.2, mem_bodies.mpr ⟨hm, hkind⟩, rfl⟩⟩

/-- A method is known by its identity, and its class with it. -/
theorem eq_of_id_eq (hp : p.DistinctNodes) {e e' : ClassDecl × MethodDecl}
    (hk : e.1 ∈ p.classes) (hm : e.2 ∈ e.1.methods) (hk' : e'.1 ∈ p.classes)
    (hm' : e'.2 ∈ e'.1.methods) (hid : e.2.id = e'.2.id) : e = e' := by
  let pairs := p.classes.flatMap fun k => k.methods.map fun m => (k, m)
  have hnodup : (pairs.map fun e => e.2.id).Nodup := by
    have hids := hp.methods
    rw [Program.methods, List.map_flatMap] at hids
    rw [List.map_flatMap]
    simpa only [List.map_map, Function.comp_def] using hids
  have hmem : ∀ e : ClassDecl × MethodDecl, e.1 ∈ p.classes → e.2 ∈ e.1.methods → e ∈ pairs :=
    fun e hk hm => List.mem_flatMap.mpr ⟨e.1, hk, List.mem_map.mpr ⟨e.2, hm, rfl⟩⟩
  exact List.inj_on_of_nodup_map hnodup (hmem e hk hm) (hmem e' hk' hm') hid

/-- The methods in the order of their code in the program, the entry method last. -/
def arranged (c : Context) (p : Program) : List (ClassDecl × MethodDecl) :=
  (emitted p).filter (fun e => !c.isEntry e.2) ++ (emitted p).filter fun e => c.isEntry e.2

theorem mem_emitted_of_mem_arranged {e : ClassDecl × MethodDecl} (h : e ∈ arranged c p) :
    e ∈ emitted p := by
  rcases List.mem_append.mp h with h | h <;> exact (List.mem_filter.mp h).1

/-- The label of a method's code. -/
def routineLabel (c : Context) (e : ClassDecl × MethodDecl) : String :=
  if c.isEntry e.2 then Routine.entryLabel else methodLabel e.1.name.name e.2.name.name

/-! ## Their code -/

/-- `r` is the code of a method, and the supply goes from `s` to `s'`. -/
structure LoweredMethod (c : Context) (strategy : Strategy) (e : ClassDecl × MethodDecl)
    (s : Supply) (r : Routine) (s' : Supply) : Prop where
  label : r.label = routineLabel c e
  body : ∃ type scope code, c.types.class? e.1.name.name = some type ∧
    c.scopes.methodScopes.get? e.2.id = some scope ∧
    LoweredStmts ⟨c, strategy, type⟩ [] scope e.2.body s code s' ∧
    r.body = code ++ if needsReturn e.2 then [Code.returnNothing] else []

/-- The code of methods that are lowered one after the other, each with whether it is the entry
    method. -/
inductive LoweredMethods (c : Context) (strategy : Strategy) :
    List (ClassDecl × MethodDecl) → Supply → List (Bool × Routine) → Supply → Prop where
  | nil {s : Supply} : LoweredMethods c strategy [] s [] s
  | cons {e : ClassDecl × MethodDecl} {es : List (ClassDecl × MethodDecl)} {s s₁ s' : Supply}
      {r : Routine} {rs : List (Bool × Routine)} :
    LoweredMethod c strategy e s r s₁ → LoweredMethods c strategy es s₁ rs s' →
    LoweredMethods c strategy (e :: es) s ((c.isEntry e.2, r) :: rs) s'

namespace LoweredMethods

variable {es es' : List (ClassDecl × MethodDecl)} {s s₁ s' : Supply}
  {rs rs' : List (Bool × Routine)}

theorem append (h : LoweredMethods c strategy es s rs s₁)
    (h' : LoweredMethods c strategy es' s₁ rs' s') :
    LoweredMethods c strategy (es ++ es') s (rs ++ rs') s' := by
  induction h with
  | nil => exact h'
  | cons hm _ ih => exact .cons hm (ih h')

theorem map_label (h : LoweredMethods c strategy es s rs s') :
    rs.map (fun r => (r.1, r.2.label)) = es.map fun e => (c.isEntry e.2, routineLabel c e) := by
  induction h with
  | nil => rfl
  | cons hm _ ih => rw [List.map_cons, List.map_cons, ih, hm.label]

theorem exists_of_mem (h : LoweredMethods c strategy es s rs s') {flag : Bool} {r : Routine}
    (hr : (flag, r) ∈ rs) :
    ∃ e ∈ es, flag = c.isEntry e.2 ∧ ∃ s₁ s₂, LoweredMethod c strategy e s₁ r s₂ := by
  induction h with
  | nil => simp at hr
  | cons hm _ ih =>
    rcases List.mem_cons.mp hr with heq | hr
    · obtain ⟨rfl, rfl⟩ := Prod.mk.inj heq
      exact ⟨_, List.mem_cons_self, rfl, _, _, hm⟩
    · obtain ⟨e, he, hlowered⟩ := ih hr
      exact ⟨e, List.mem_cons_of_mem _ he, hlowered⟩

theorem exists_routine (h : LoweredMethods c strategy es s rs s') {e : ClassDecl × MethodDecl}
    (he : e ∈ es) :
    ∃ r, (c.isEntry e.2, r) ∈ rs ∧ ∃ s₁ s₂, LoweredMethod c strategy e s₁ r s₂ := by
  induction h with
  | nil => simp at he
  | cons hm _ ih =>
    rcases List.mem_cons.mp he with rfl | he
    · exact ⟨_, List.mem_cons_self, _, _, hm⟩
    · obtain ⟨r, hr, hlowered⟩ := ih he
      exact ⟨r, List.mem_cons_of_mem _ hr, hlowered⟩

theorem forall₂ (h : LoweredMethods c strategy es s rs s') :
    List.Forall₂ (fun e r => r.1 = c.isEntry e.2 ∧ ∃ s s', LoweredMethod c strategy e s r.2 s')
      es rs := by
  induction h with
  | nil => exact .nil
  | cons hm _ ih => exact .cons ⟨rfl, _, _, hm⟩ ih

end LoweredMethods

/-! ## What lowering returns -/

theorem loweredMethod {k : ClassDecl} {m : MethodDecl} {type : TypeId}
    (htype : c.types.class? k.name.name = some type) (s : Supply) :
    Meets CompileError.Any (lowerMethod ⟨c, strategy, type⟩ k m) s fun r s' =>
      LoweredMethod c strategy (k, m) s r s' := by
  unfold lowerMethod LowerEnv.methodScope
  rw [meets_bind]
  refine meets_promised_any fun scope hscope => ?_
  refine (loweredStmts ⟨c, strategy, type⟩ [] scope m.body s).bind fun code s' hcode => ?_
  exact ⟨rfl, type, scope, code, htype, hscope, hcode, rfl⟩

theorem loweredClass (k : ClassDecl) (s : Supply) :
    Meets CompileError.Any (lowerClass c strategy k) s fun rs s' =>
      LoweredMethods c strategy ((bodies k).map fun m => (k, m)) s rs s' := by
  unfold lowerClass
  rw [meets_bind]
  refine meets_promised_any fun type htype => ?_
  refine meets_mapM (fun done rs s' =>
    LoweredMethods c strategy (done.map fun m => (k, m)) s rs s') (bodies k) ?_ .nil
  intro done m rest _ rs s₁ hdone
  refine (loweredMethod htype s₁).bind fun r s' hr => ?_
  rw [List.map_append]
  exact hdone.append (.cons hr .nil)

theorem loweredClasses (ks : List ClassDecl) (s : Supply) :
    Meets CompileError.Any (ks.mapM (lowerClass c strategy)) s fun rs s' =>
      LoweredMethods c strategy (ks.flatMap fun k => (bodies k).map fun m => (k, m)) s
        rs.flatten s' := by
  refine meets_mapM (fun done rs s' => LoweredMethods c strategy
    (done.flatMap fun k => (bodies k).map fun m => (k, m)) s rs.flatten s') ks ?_ .nil
  intro done k rest _ rs s₁ hdone
  refine (loweredClass k s₁).mono fun rs' s' hrs => ?_
  rw [List.flatMap_append, List.flatten_append, List.flatten_singleton, List.flatMap_singleton]
  exact hdone.append hrs

/-- The tables are those of the classes, under their names. -/
theorem meets_dispatchTables (h : c.Accepts p) (s : Supply) :
    Meets CompileError.Any ((lowered p).mapM (dispatchTable c)) s fun tables s' =>
      s' = s ∧ tables.map (·.label) =
        (lowered p).map fun k => ClassLayout.tableLabel k.name.name := by
  refine meets_mapM (fun done tables s' => s' = s ∧ tables.map DispatchTable.label =
    done.map fun k => ClassLayout.tableLabel k.name.name) (lowered p) ?_ ⟨rfl, rfl⟩
  rintro done k rest hlowered tables _ ⟨rfl, hlabels⟩
  have hk : k ∈ p.classes := (List.mem_filter.mp (show k ∈ lowered p by simp [hlowered])).1
  obtain ⟨i, hi⟩ := List.mem_iff_getElem?.mp hk
  obtain ⟨scope, parent, hclass⟩ := h.defined.classOf i k hi
  obtain ⟨l, hl, hof⟩ := h.exists_layout hi hclass
  unfold dispatchTable
  rw [meets_bind]
  refine meets_promised (h.defined.table.class? i k hi) ?_
  rw [meets_bind]
  refine meets_promised hl ⟨rfl, ?_⟩
  rw [List.map_append, List.map_append, hlabels]
  simp [ClassLayout.dispatchLabel, hof.name]

/-! ## The program -/

/-- A program is made of the code of its methods and of the tables of its classes. -/
structure Assembled (c : Context) (strategy : Strategy) (p : Program) (a : Assembly) : Prop where
  routines : ∃ rs s, LoweredMethods c strategy (emitted p) .initial rs s ∧
    a.strings = s.strings ∧ a.methods = (rs.filter fun r => !r.1).map Prod.snd ∧
    rs.filter Prod.fst = [(true, a.main)]
  tables : a.tables.map (·.label) = (lowered p).map fun k => ClassLayout.tableLabel k.name.name

/-- The last of at most one entry method. -/
theorem filter_fst_eq_singleton {rs : List (Bool × Routine)} {main : Routine}
    (hle : (rs.filter Prod.fst).length ≤ 1)
    (hlast : ((rs.filter Prod.fst).map Prod.snd).getLast? = some main) :
    rs.filter Prod.fst = [(true, main)] := by
  have hflags : ∀ r ∈ rs.filter Prod.fst, r.1 = true := fun r hr => (List.mem_filter.mp hr).2
  generalize rs.filter Prod.fst = entries at hle hlast hflags
  cases entries with
  | nil => simp at hlast
  | cons r rest =>
    obtain rfl : rest = [] := List.eq_nil_of_length_eq_zero (by simpa using hle)
    obtain rfl : r.2 = main := by simpa using hlast
    rw [← hflags r List.mem_cons_self]

/-- In lists that are related member by member, what a member of the right one is related to. -/
theorem exists_left_of_mem {α β : Type} {R : α → β → Prop} {as : List α} {bs : List β} {b : β}
    (h : List.Forall₂ R as bs) (hb : b ∈ bs) : ∃ a ∈ as, R a b := by
  induction h with
  | nil => cases hb
  | cons hr _ ih =>
    rcases List.mem_cons.mp hb with rfl | hb
    · exact ⟨_, List.mem_cons_self, hr⟩
    · obtain ⟨a, ha, hr⟩ := ih hb
      exact ⟨a, List.mem_cons_of_mem _ ha, hr⟩

namespace Assembled

variable {a : Assembly}

theorem exists_perm (h : Assembled c strategy p a) :
    ∃ rs s, LoweredMethods c strategy (emitted p) .initial rs s ∧ a.strings = s.strings ∧
      (rs.map Prod.snd).Perm a.routines := by
  obtain ⟨rs, s, hrs, hstrings, hmethods, hmain⟩ := h.routines
  refine ⟨rs, s, hrs, hstrings, ?_⟩
  have hperm := (List.filter_append_perm Prod.fst rs).map Prod.snd
  rw [List.map_append, hmain, ← hmethods] at hperm
  exact hperm.symm.trans List.perm_append_comm

theorem exists_of_mem_routines (h : Assembled c strategy p a) {r : Routine}
    (hr : r ∈ a.routines) : ∃ e ∈ emitted p, ∃ s s', LoweredMethod c strategy e s r s' := by
  obtain ⟨rs, _, hrs, _, hperm⟩ := h.exists_perm
  obtain ⟨⟨flag, r'⟩, hmem, rfl⟩ := List.mem_map.mp (hperm.mem_iff.mpr hr)
  obtain ⟨e, he, _, hlowered⟩ := hrs.exists_of_mem hmem
  exact ⟨e, he, hlowered⟩

theorem exists_routine (h : Assembled c strategy p a) {e : ClassDecl × MethodDecl}
    (he : e ∈ emitted p) : ∃ r ∈ a.routines, ∃ s s', LoweredMethod c strategy e s r s' := by
  obtain ⟨rs, _, hrs, _, hperm⟩ := h.exists_perm
  obtain ⟨r, hmem, hlowered⟩ := hrs.exists_routine he
  exact ⟨r, hperm.mem_iff.mp (List.mem_map.mpr ⟨_, hmem, rfl⟩), hlowered⟩

/-- Routine by routine, the program is the code of its methods. -/
theorem forall₂_routines (h : Assembled c strategy p a) :
    List.Forall₂ (fun e r => ∃ s s', LoweredMethod c strategy e s r s') (arranged c p)
      a.routines := by
  obtain ⟨rs, _, hrs, _, hmethods, hmain⟩ := h.routines
  have hsplit : a.routines =
      ((rs.filter fun r => !r.1) ++ rs.filter Prod.fst).map Prod.snd := by
    rw [List.map_append, ← hmethods, hmain]
    rfl
  rw [hsplit, arranged, List.forall₂_map_right_iff]
  have hall := hrs.forall₂
  have hnamed := List.rel_filter (p := fun e => !c.isEntry e.2) (q := fun r => !r.1)
    (fun e r h => by simp [h.1]) hall
  have hentry := List.rel_filter (p := fun e => c.isEntry e.2) (q := Prod.fst)
    (fun e r h => by simp [h.1]) hall
  exact (List.rel_append hnamed hentry).imp fun e r h => h.2

theorem mem_labels_routines (h : Assembled c strategy p a) {label : String} :
    label ∈ a.routines.map (·.label) ↔ ∃ e ∈ emitted p, label = routineLabel c e := by
  constructor
  · intro hlabel
    obtain ⟨r, hr, rfl⟩ := List.mem_map.mp hlabel
    obtain ⟨e, he, _, _, hlowered⟩ := h.exists_of_mem_routines hr
    exact ⟨e, he, hlowered.label⟩
  · intro hlabel
    obtain ⟨e, he, rfl⟩ := hlabel
    obtain ⟨r, hr, _, _, hlowered⟩ := h.exists_routine he
    exact List.mem_map.mpr ⟨r, hr, hlowered.label⟩

end Assembled

end Lowering

open Lowering Pass

variable {p : Program} {c : Context} {strategy : Strategy} {a : Assembly} {options : Options}

/-- The supply that is left at the end is the one that the methods leave. -/
theorem Context.Accepts.exists_methods (h : c.Accepts p) (hp : p.DistinctNodes) {s : Supply}
    (ha : lowerProgram c strategy p .initial = .ok a s) :
    ∃ rs, LoweredMethods c strategy (emitted p) .initial rs s ∧ a.strings = s.strings ∧
      a.methods = (rs.filter fun r => !r.1).map Prod.snd ∧
      rs.filter Prod.fst = [(true, a.main)] ∧
      a.tables.map (·.label) = (lowered p).map fun k => ClassLayout.tableLabel k.name.name := by
  obtain ⟨routines, s₁, hroutines, hrest⟩ := bind_eq_ok.mp ha
  obtain ⟨main, s₂, hmain, hrest₂⟩ := bind_eq_ok.mp hrest
  obtain ⟨hlast, rfl⟩ := promised_eq_ok.mp hmain
  obtain ⟨tables, s₃, htables, hrest₃⟩ := bind_eq_ok.mp hrest₂
  obtain ⟨rfl, hlabels⟩ := (meets_dispatchTables h s₁).of_ok htables
  obtain ⟨rfl, rfl⟩ := EStateM.Result.ok.inj hrest₃
  have hall := (meets_lowerClasses h strategy .initial).of_ok hroutines
  refine ⟨routines.flatten, (loweredClasses _ _).of_ok hroutines, rfl, rfl, ?_, hlabels⟩
  exact filter_fst_eq_singleton (hall.length_filter_le hp) hlast

/-- Whatever is generated for an accepted program is put together in this way. -/
theorem Context.Accepts.assembled (h : c.Accepts p) (hp : p.DistinctNodes)
    (ha : c.generate strategy p = .ok a) : Assembled c strategy p a := by
  unfold Context.generate at ha
  split at ha
  · next a' s hlower =>
    obtain rfl := Except.ok.inj ha
    obtain ⟨rs, hrs, hstrings, hmethods, hmain, htables⟩ := h.exists_methods hp hlower
    exact ⟨⟨rs, s, hrs, hstrings, hmethods, hmain⟩, htables⟩
  · simp at ha

/-- The program behind the text of a compilation. -/
theorem exists_generate_of_compile {r : Compilation} (h : compile options p = .ok r) :
    ∃ c a, analyzed options p = .ok c ∧ c.generate options.strategy p = .ok a ∧
      r.lir = a.render := by
  unfold compile at h
  cases hc : analyzed options p with
  | error e => simp [hc, bind, Except.bind] at h
  | ok c =>
    cases ha : c.generate options.strategy p with
    | error e => simp [hc, ha, bind, Except.bind] at h
    | ok a =>
      simp only [hc, ha, bind, Except.bind] at h
      exact ⟨c, a, rfl, ha, by rw [← Except.ok.inj h]⟩

/-- What an accepted program is analysed to, and its code. -/
def assembled? (options : Options) (p : Program) : Option (Context × Assembly) :=
  (analyzed options p).toOption.bind fun c =>
    (c.generate options.strategy p).toOption.map fun a => (c, a)

theorem exists_compile_of_any {q : Context × Assembly → Bool}
    (h : (assembled? options p).any q = true) :
    ∃ r c a, compile options p = .ok r ∧ analyzed options p = .ok c ∧
      c.generate options.strategy p = .ok a ∧ r.lir = a.render ∧ q (c, a) = true := by
  unfold assembled? at h
  cases hc : analyzed options p with
  | error e => simp [hc, Except.toOption] at h
  | ok c =>
    cases ha : c.generate options.strategy p with
    | error e => simp [hc, ha, Except.toOption] at h
    | ok a =>
      simp only [hc, ha, Except.toOption, Option.bind_some, Option.map_some, Option.any_some] at h
      refine ⟨⟨a.render, c.typeTable, c.symbolTables, ⟨c.layouts.size, a.methodCount,
        a.instructionCount, a.stringCount⟩⟩, c, a, ?_, rfl, ha, rfl, h⟩
      unfold compile
      rw [hc]
      simp only [ha, bind, Except.bind]

/-- A program is analysed and assembled in one way. -/
theorem assembled_unique {strategy : Strategy} {c c' : Context} {a a' : Assembly}
    (hc : analyzed options p = .ok c) (ha : c.generate strategy p = .ok a)
    (hc' : analyzed options p = .ok c') (ha' : c'.generate strategy p = .ok a') :
    c = c' ∧ a = a' := by
  obtain rfl := Except.ok.inj (hc.symm.trans hc')
  exact ⟨rfl, Except.ok.inj (ha.symm.trans ha')⟩

end IcLir
