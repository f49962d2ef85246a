import IcLir.Proofs.Accepted
import IcLir.Proofs.TypeNames

/-
  The programs that the analysis accepts, and what it makes of them. A program is accepted
  exactly if it keeps the rules of declaration and the rules of typing; then its entry is the
  method of that shape, and the layout of each class comes from the members of the class and of
  its superclasses, in order (`ClassLayout.ofLineage`). Numbers of types and scopes play no part
  in this (`decides_analyze`).
-/

namespace IcLir

/-- The members of a class, in the order in which they are laid out. -/
def ClassDecl.members (c : ClassDecl) : List (String × SymbolKind) :=
  c.fields.map (fun f => (f.name.name, .field)) ++
    c.methods.map fun m => (m.name.name, .method m.kind)

/-- What a layout takes from a symbol. -/
def Symbol.member (s : Symbol) : String × SymbolKind := (s.name, s.kind)

namespace ClassLayout

def addMember (l : ClassLayout) (x : String × SymbolKind) : ClassLayout :=
  match x.2 with
  | .field => l.addField x.1
  | .method kind => l.addMethod x.1 kind
  | .className | .parameter | .localVar _ => l

/-- The layout of the first of the classes, which the others are superclasses of. The number of
    the class is left open. -/
def ofLineage : List ClassDecl → ClassLayout
  | [] => .root 0 ""
  | c :: above => c.members.foldl addMember ((ofLineage above).derive 0 c.name.name)

/-- Adding members leaves the number of the class alone and does not depend on it. -/
theorem addMember_withType (l : ClassLayout) (type : TypeId) (x : String × SymbolKind) :
    { l with type := type }.addMember x = { l.addMember x with type := type } := by
  obtain ⟨name, kind⟩ := x
  cases kind with
  | method kind =>
    unfold addMember addMethod
    dsimp only
    cases l.methods.get? name with
    | some e => rfl
    | none => cases kind <;> rfl
  | _ => rfl

theorem foldl_addMember_withType (members : List (String × SymbolKind)) (l : ClassLayout)
    (type : TypeId) :
    members.foldl addMember { l with type := type } =
      { members.foldl addMember l with type := type } := by
  induction members generalizing l with
  | nil => rfl
  | cons x members ih => rw [List.foldl_cons, addMember_withType, ih, List.foldl_cons]

end ClassLayout

theorem OrderedMap.map_get?_keys {κ α : Type} [DecidableEq κ] (m : OrderedMap κ α) :
    m.keys.map m.get? = m.values.map some := by
  unfold keys values
  rw [List.map_map, List.map_map]
  exact List.map_congr_left fun e he => get?_eq_some_iff.mpr he

namespace Definition

open Pass TypeTable ClassLayout Typing Lexical

variable {p : Program} {d : Definition} {k : ScopeId}

variable {c : ClassDecl} {i : Nat}

/-! ## Layouts -/

/-- The symbols of a class scope are the members of the class, in order. -/
theorem HoldsMembers.map_values_eq {scope : ScopeId} (hsound : Sound d)
    (h : HoldsMembers d scope c.fields c.methods) :
    (d.scopes.scope scope).symbols.values.map Symbol.member = c.members := by
  have hfound : ∀ name s, (d.scopes.scope scope).get? name = some s → s.member = (name, s.kind) :=
    fun name s hs => congrArg (·, s.kind) (hsound.symbols scope name s hs).name_eq
  have hfield : ∀ f ∈ c.fields,
      ((d.scopes.scope scope).get? f.name.name).map Symbol.member =
        some (f.name.name, .field) := by
    intro f hf
    obtain ⟨s, hs⟩ := h.field f hf
    rw [hs.get?, Option.map_some, hfound _ s hs.get?, hs.kind]
  have hmethod : ∀ m ∈ c.methods,
      ((d.scopes.scope scope).get? m.name.name).map Symbol.member =
        some (m.name.name, .method m.kind) := by
    intro m hm
    obtain ⟨s, hs⟩ := h.method m hm
    rw [hs.get?, Option.map_some, hfound _ s hs.get?, hs.kind]
  -- the symbols are what is found under the names, one after the other
  have hsome : ((d.scopes.scope scope).symbols.values.map Symbol.member).map some =
      c.members.map some := by
    calc ((d.scopes.scope scope).symbols.values.map Symbol.member).map some
        = ((d.scopes.scope scope).symbols.values.map some).map (Option.map Symbol.member) := by
          rw [List.map_map, List.map_map]
          rfl
      _ = (d.names scope).map fun name =>
            ((d.scopes.scope scope).get? name).map Symbol.member := by
          rw [← OrderedMap.map_get?_keys, List.map_map]
          rfl
      _ = c.members.map some := by
          rw [h.names, ClassDecl.members, List.map_append, List.map_append, List.map_map,
            List.map_map, List.map_map, List.map_map]
          congr 1
          · exact List.map_congr_left hfield
          · exact List.map_congr_left hmethod
  exact (List.map_inj_right fun _ _ => Option.some.inj).mp hsome

/-- The first `n` classes have the layouts that the text gives them. -/
def LaidOutAsWritten (p : Program) (n : Nat) (table : LayoutTable) : Prop :=
  ∀ i c, i < n → p.classes[i]? = some c →
    table.get? (classId i) = some { ofLineage (p.lineage c.name.name) with type := classId i }

/-- The layout that a class starts from is that of its superclasses. -/
theorem start_eq_ok (ht : ClassTable p.classes d.types) (hi : p.classes[i]? = some c)
    {table : LayoutTable} (hlaid : LaidOutAsWritten p i table) :
    table.start d.types (classId i) c.name.name = .ok
      { (ofLineage (c.superclasses (p.classes.take i))).derive 0 c.name.name with
        type := classId i } := by
  unfold LayoutTable.start superclass? ClassDecl.superclasses
  rcases ht.superclass i c hi with ⟨hnone, hempty⟩ | ⟨base, j, b, hbase, hj, hb, hname, hcons⟩
  · rw [hempty, hnone, Option.map_none, ClassDecl.superclassesFrom]
    rfl
  · have hle : i ≤ p.classes.length := Nat.le_of_lt (List.getElem?_eq_some_iff.mp hi).1
    rw [hcons, hbase, Option.map_some, ← hname, superclassesFrom_take ht hb hj hle,
      ← ht.lineage_eq hb]
    dsimp only [List.head?_cons]
    rw [hlaid j b hj hb]
    rfl

theorem exists_addClass_asWritten (h : ClassesFilled p.classes p.classes k d)
    (hi : p.classes[i]? = some c) {table : LayoutTable} (hlaid : LaidOutAsWritten p i table) :
    ∃ table', table.addClass d.types d.scopes (classId i, c.name.name) = .ok table' ∧
      LaidOutAsWritten p (i + 1) table' := by
  obtain ⟨scope, parent, _, hc, _⟩ := h.filled i c hi
  refine ⟨_, addClass_eq_ok (start_eq_ok h.table hi hlaid) hc.get?, ?_⟩
  intro j c' hj hj'
  rcases Nat.lt_succ_iff_lt_or_eq.mp hj with hlt | rfl
  · have hne : classId j ≠ classId i := fun heq => Nat.ne_of_lt hlt (classId_inj heq)
    exact (OrderedMap.get?_insert_of_ne _ _ hne).trans (hlaid j c' hlt hj')
  · obtain rfl : c = c' := Option.some.inj (hi.symm.trans hj')
    rw [OrderedMap.get?_insert_self, h.table.lineage_eq hi, ofLineage, ← foldl_addMember_withType,
      ← hc.holds.map_values_eq h.sound, List.foldl_map]
    rfl

/-- The layouts are those that the text gives. -/
theorem exists_build_asWritten (h : ClassesFilled p.classes p.classes k d) :
    ∃ table, LayoutTable.build d.types d.scopes = .ok table ∧
      LaidOutAsWritten p p.classes.length table := by
  refine exists_build_of h.classesDefined (LaidOutAsWritten p) ?_ fun i c table hi hlaid =>
    exists_addClass_asWritten h hi hlaid
  intro i _ hi
  exact absurd hi (Nat.not_lt_zero i)

end Definition

/-! ## The analysis -/

namespace Context

open Pass Definition Typing TypeTable

/-- What a context says of a program in numbers is what its text says. -/
structure Reflects (c : Context) (p : Program) (entryMethod : String) : Prop where
  table : ClassTable p.classes c.types
  entry : ∃ e, c.entry = some e ∧ EntryIn entryMethod p.classes e
  layouts : LaidOutAsWritten p p.classes.length c.layouts

/-- The entry is known by its declaration and by the name of its class. -/
theorem Reflects.exists_entry {c : Context} {p : Program} {entryMethod : String}
    (h : c.Reflects p entryMethod) :
    ∃ e, ∃ k ∈ p.classes, c.entry = some e ∧ c.types.name e.owner = k.name.name ∧
      e.method ∈ k.methods ∧ e.method.isEntry entryMethod = true := by
  obtain ⟨e, he, i, k, hi, howner, hm, hentry⟩ := h.entry
  obtain ⟨_, hkind⟩ := h.table.kind? i k hi
  exact ⟨e, k, List.mem_of_getElem? hi, he, howner ▸ name_eq_text hkind, hm, hentry⟩

theorem decides_layOut {p : Program} {c : Context} {k : ScopeId}
    (hfilled : ClassesFilled p.classes p.classes k c.definition) :
    Decides True layOut c fun _ c' => LaidOutAsWritten p p.classes.length c'.layouts ∧
      c'.types = c.types ∧ c'.entry = c.entry := by
  obtain ⟨table, hbuild, hlaid⟩ := exists_build_asWritten hfilled
  have hbuild : LayoutTable.build c.types c.scopes = .ok table := hbuild
  unfold layOut
  rw [decides_get, hbuild]
  exact ⟨trivial, hlaid, rfl, rfl⟩

/-- A program is accepted exactly if it keeps all rules. -/
theorem decides_analyze {p : Program} (hp : p.DistinctNodes) (options : Options) :
    Decides (p.WellFormed options.entryMethod ∧ p.WellTyped) (analyze p) (.initial options)
      fun _ c => c.Reflects p options.entryMethod := by
  unfold analyze
  refine ((decides_define p options).and_meets (meets_define hp options)).bind
    fun _ c₁ _ h₁ => ?_
  obtain ⟨⟨hfilled, e, he, hentry⟩, hdefined, _⟩ := h₁
  have hrest : Decides (p.WellTyped ∧ True) (check p >>= fun _ => layOut) c₁
      fun _ c => c.Reflects p options.entryMethod := by
    refine (decides_check hp hdefined hfilled).bind fun _ c₂ _ h₂ => ?_
    obtain ⟨_, hfilled₂, _, hentry₂⟩ := h₂
    refine (decides_layOut hfilled₂).mono fun _ c₃ _ h₃ => ?_
    obtain ⟨hlaid, htypes, hentry₃⟩ := h₃
    refine ⟨?_, ⟨e, hentry₃.trans (hentry₂.trans he), hentry⟩, hlaid⟩
    rw [htypes]
    exact hfilled₂.table
  exact hrest.congr (by rw [and_true])

end Context

end IcLir
