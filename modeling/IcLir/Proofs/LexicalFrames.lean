import IcLir.Proofs.DefinitionRules
import IcLir.Proofs.Lexical
import IcLir.Proofs.NameLookup
import IcLir.Typing.Reference

/-
  Frames in the scope tree. The tree has all declarations of a method from the start; a look-up
  that sees the first `n` locals only finds in a scope what the frame of that scope holds after
  `n` declarations (`Pictures`). A stack of frames is pictured by the scopes on the way outward
  (`Stack`), statements move both along together (`Stack.stmt`), and so a look-up in the tree
  finds what the frames bind (`Stack.exists_lookup`).
-/

namespace IcLir

def Resolution.scope : Resolution → ScopeId
  | .variable scope => scope
  | .field scope => scope

namespace Lexical

open Definition

variable {n : Nat} {types : TypeTable} {t : ScopeTree} {s : Symbol} {frames : List Frame}
    {scope : ScopeId} {name : String} {d : Definition} {js : List ScopeId}

/-- The scope of a frame. -/
def Origin.scope? (t : ScopeTree) : Origin → Option ScopeId
  | .method id => t.methodScopes.get? id
  | .block id => t.blockScopes.get? id

/-- What a binding is in terms of scopes and types. -/
def Binding.meaning? (types : TypeTable) (t : ScopeTree) : Binding → Option (Resolution × TypeId)
  | .var origin type => (origin.scope? t).bind fun scope =>
    (types.denoted? type).map fun id => (.variable scope, id)
  | .field owner type => ((types.class? owner).bind t.classScopes.get?).bind fun scope =>
    (types.denoted? type).map fun id => (.field scope, id)

theorem Binding.meaning?_extend {types' : TypeTable} {b : Binding} {x : Resolution × TypeId}
    (ht : types.Extends types') (h : b.meaning? types t = some x) :
    b.meaning? types' t = some x := by
  cases b with
  | var origin type =>
    obtain ⟨scope, hscope, h⟩ := Option.bind_eq_some_iff.mp h
    obtain ⟨id, hid, rfl⟩ := Option.map_eq_some_iff.mp h
    rw [meaning?, hscope, Option.bind_some, ht.denoted?_of_some hid]
    rfl
  | field owner type =>
    obtain ⟨scope, hscope, h⟩ := Option.bind_eq_some_iff.mp h
    obtain ⟨id, hid, rfl⟩ := Option.map_eq_some_iff.mp h
    rw [meaning?, ht.class?_eq, hscope, Option.bind_some, ht.denoted?_of_some hid]
    rfl

/-! ## One frame and one scope -/

/-- With the first `n` locals in view, scope `j` shows the variables of the frame. -/
structure Pictures (t : ScopeTree) (types : TypeTable) (n : Nat) (j : ScopeId) (f : Frame) :
    Prop where
  origin : f.origin.scope? t = some j
  shown : ∀ name type, f.vars.lookup name = some type → ∃ s, (t.scope j).get? name = some s ∧
    s.isVisible n = true ∧ types.denoted? type = some s.type
  hidden : ∀ name s, f.vars.lookup name = none → (t.scope j).get? name = some s →
    s.isVisible n = false

theorem isVisible_localVar {ordinal : Nat} (hk : s.kind = .localVar ordinal) (n : Nat) :
    s.isVisible n = decide (ordinal < n) := by
  unfold Symbol.isVisible
  rw [hk]

theorem isVisible_of_not_local (hk : ∀ ordinal, s.kind ≠ .localVar ordinal) (n : Nat) :
    s.isVisible n = true := by
  unfold Symbol.isVisible
  split
  · next ordinal h => exact absurd h (hk ordinal)
  · rfl

/-- One more local in view is the only symbol that comes into view. -/
theorem isVisible_succ (hk : s.kind ≠ .localVar n) : s.isVisible (n + 1) = s.isVisible n := by
  by_cases hlocal : ∃ ordinal, s.kind = .localVar ordinal
  · obtain ⟨ordinal, hordinal⟩ := hlocal
    have hne : ordinal ≠ n := fun heq => hk (heq ▸ hordinal)
    rw [isVisible_localVar hordinal, isVisible_localVar hordinal, decide_eq_decide]
    omega
  · have hlocal : ∀ ordinal, s.kind ≠ .localVar ordinal := fun ordinal h => hlocal ⟨ordinal, h⟩
    rw [isVisible_of_not_local hlocal, isVisible_of_not_local hlocal]

section

variable {t : ScopeTree} {types : TypeTable} {n : Nat} {j : ScopeId} {f : Frame}

/-- One local more changes nothing in a scope that does not hold it. -/
theorem Pictures.succ (h : Pictures t types n j f)
    (hother : ∀ name s, (t.scope j).get? name = some s → s.kind ≠ .localVar n) :
    Pictures t types (n + 1) j f := by
  refine ⟨h.origin, ?_, ?_⟩
  · intro name type hlookup
    obtain ⟨s, hs, hvisible, htype⟩ := h.shown name type hlookup
    exact ⟨s, hs, (isVisible_succ (hother name s hs)).trans hvisible, htype⟩
  · intro name s hlookup hs
    exact (isVisible_succ (hother name s hs)).trans (h.hidden name s hlookup hs)

/-- In the scope that holds it, the local is what its frame gets. -/
theorem Pictures.declare (h : Pictures t types n j f) {name : String} {type : TypeExpr} {s : Symbol}
    (hs : (t.scope j).get? name = some s) (hk : s.kind = .localVar n)
    (htype : types.denoted? type = some s.type)
    (honly : ∀ other s', (t.scope j).get? other = some s' → s'.kind = .localVar n → other = name) :
    Pictures t types (n + 1) j ⟨f.origin, (name, type) :: f.vars⟩ := by
  have hsame : ∀ other s', other ≠ name → (t.scope j).get? other = some s' →
      s'.isVisible (n + 1) = s'.isVisible n :=
    fun other s' hname hs' => isVisible_succ fun hk' => hname (honly other s' hs' hk')
  refine ⟨h.origin, ?_, ?_⟩
  · intro other type' hlookup
    rw [List.lookup_cons] at hlookup
    by_cases hname : other = name
    · rw [show (other == name) = true by simpa using hname] at hlookup
      obtain rfl := Option.some.inj hlookup
      refine ⟨s, hname ▸ hs, ?_, htype⟩
      rw [isVisible_localVar hk]
      simp
    · rw [show (other == name) = false by simpa using hname] at hlookup
      obtain ⟨s', hs', hvisible, htype'⟩ := h.shown other type' hlookup
      exact ⟨s', hs', (hsame other s' hname hs').trans hvisible, htype'⟩
  · intro other s' hlookup hs'
    rw [List.lookup_cons] at hlookup
    by_cases hname : other = name
    · rw [show (other == name) = true by simpa using hname] at hlookup
      simp at hlookup
    · rw [show (other == name) = false by simpa using hname] at hlookup
      exact (hsame other s' hname hs').trans (h.hidden other s' hlookup hs')

end

/-- The frame of a scope that was just opened is empty. -/
theorem pictures_block {inner : ScopeId} {node : NodeId} (h : t.OpensAt scope node n inner) :
    Pictures t types n inner ⟨.block node, []⟩ := by
  refine ⟨h.get?, fun name type hlookup => ?_, fun name s _ hs => ?_⟩
  · simp at hlookup
  · obtain ⟨ordinal, hk, hle⟩ := h.holds name s hs
    rw [isVisible_localVar hk, decide_eq_false (Nat.not_lt.mpr hle)]

theorem lookup_params {params : List VarDecl} :
    (∀ type, (params.map fun q => (q.name.name, q.type)).lookup name = some type →
      ∃ q ∈ params, q.name.name = name ∧ q.type = type) ∧
    ((params.map fun q => (q.name.name, q.type)).lookup name = none →
      ∀ q ∈ params, q.name.name ≠ name) := by
  induction params with
  | nil => simp
  | cons q params ih =>
    rw [List.map_cons, List.lookup_cons]
    by_cases hname : name = q.name.name
    · rw [show (name == q.name.name) = true by simpa using hname]
      refine ⟨fun type htype => ⟨q, by simp, hname.symm, Option.some.inj htype⟩, by simp⟩
    · rw [show (name == q.name.name) = false by simpa using hname]
      refine ⟨fun type htype => ?_, fun hnone q' hq' => ?_⟩
      · obtain ⟨q', hq', hrest⟩ := ih.1 type htype
        exact ⟨q', List.mem_cons_of_mem _ hq', hrest⟩
      · rcases List.mem_cons.mp hq' with rfl | hq'
        · exact fun heq => hname heq.symm
        · exact ih.2 hnone q' hq'

/-- Before the first declaration a method shows its parameters. -/
theorem pictures_method {m : MethodDecl} (h : HasVars d m scope)
    (hget : d.scopes.methodScopes.get? m.id = some scope) :
    Pictures d.scopes d.types 0 scope
      ⟨.method m.id, m.params.map fun q => (q.name.name, q.type)⟩ := by
  refine ⟨hget, fun name type hlookup => ?_, fun name s hlookup hs => ?_⟩
  · obtain ⟨q, hq, rfl, rfl⟩ := lookup_params.1 type hlookup
    obtain ⟨s, hparam⟩ := h.param q hq
    refine ⟨s, hparam.get?, isVisible_of_not_local (fun ordinal hk => ?_) 0, hparam.type⟩
    rw [hparam.kind] at hk
    simp at hk
  · rcases h.symbol name s hs with ⟨q, hq, hname⟩ | ⟨ordinal, hk⟩
    · exact absurd hname (lookup_params.2 hlookup q hq)
    · rw [isVisible_localVar hk]
      simp

/-! ## The stack and the way outward -/

def PicturesAll (t : ScopeTree) (types : TypeTable) (n : Nat) : List ScopeId → List Frame → Prop
  | [], [] => True
  | j :: js, f :: frames => Pictures t types n j f ∧ PicturesAll t types n js frames
  | _, _ => False

theorem PicturesAll.cases {j : ScopeId} (h : PicturesAll t types n (j :: js) frames) :
    ∃ f rest, frames = f :: rest ∧ Pictures t types n j f ∧ PicturesAll t types n js rest := by
  cases frames with
  | nil => exact h.elim
  | cons f rest => exact ⟨f, rest, rfl, h.1, h.2⟩

theorem PicturesAll.succ (h : PicturesAll t types n js frames)
    (hother : ∀ j ∈ js, ∀ name s, (t.scope j).get? name = some s → s.kind ≠ .localVar n) :
    PicturesAll t types (n + 1) js frames := by
  induction js generalizing frames with
  | nil =>
    cases frames with
    | nil => trivial
    | cons f frames => exact h.elim
  | cons j js ih =>
    obtain ⟨f, rest, rfl, hf, hrest⟩ := h.cases
    exact ⟨hf.succ (hother j (by simp)), ih hrest fun k hk => hother k (List.mem_cons_of_mem _ hk)⟩

/-- Either both the scopes and the frames have a variable `name`, the same one, or neither. -/
theorem PicturesAll.findSome? (h : PicturesAll t types n js frames) (hfit : t.SymbolsFit)
    (hvars : ∀ j ∈ js, ∀ name s, (t.scope j).get? name = some s → s.kind.isVariable = true)
    (name : String) :
    (∃ s b, js.findSome? (fun j => ((t.scope j).get? name).filter (·.isVisible n)) = some s ∧
        s.kind.isVariable = true ∧ frames.findSome? (·.find? name) = some b ∧
        b.meaning? types t = some (.variable s.scope, s.type)) ∨
      js.findSome? (fun j => ((t.scope j).get? name).filter (·.isVisible n)) = none ∧
        frames.findSome? (·.find? name) = none := by
  induction js generalizing frames with
  | nil =>
    cases frames with
    | nil => exact .inr ⟨rfl, rfl⟩
    | cons f frames => exact h.elim
  | cons j js ih =>
    obtain ⟨f, rest, rfl, hf, hrest⟩ := h.cases
    rw [List.findSome?_cons, List.findSome?_cons]
    cases hlookup : f.vars.lookup name with
    | some type =>
      obtain ⟨s, hs, hvisible, htype⟩ := hf.shown name type hlookup
      have hfind : f.find? name = some (.var f.origin type) := by
        rw [Frame.find?, hlookup]
        rfl
      have hfilter : ((t.scope j).get? name).filter (·.isVisible n) = some s := by
        rw [hs]
        exact Option.filter_some_pos hvisible
      refine .inl ⟨s, .var f.origin type, by rw [hfilter], hvars j (by simp) name s hs,
        by rw [hfind], ?_⟩
      rw [Binding.meaning?, hf.origin, Option.bind_some, htype, (hfit j name s hs).scope_eq]
      rfl
    | none =>
      have hfind : f.find? name = none := by
        rw [Frame.find?, hlookup]
        rfl
      have hfilter : ((t.scope j).get? name).filter (·.isVisible n) = none := by
        rw [Option.filter_eq_none_iff]
        intro s hs
        simp [hf.hidden name s hlookup hs]
      rw [hfilter, hfind]
      exact ih hrest fun k hk => hvars k (List.mem_cons_of_mem _ hk)

/-- A member that is a field is the first field of that name in the classes. -/
theorem exists_field_of_lookupMember (hsound : Sound d) {classes : List ClassDecl} {owner : ScopeId}
    (h : Above d classes owner) (hs : d.scopes.lookupMember owner name = some s)
    (hk : s.kind = .field) :
    ∃ b, classes.findSome? (field? name) = some b ∧
      b.meaning? d.types d.scopes = some (.field s.scope, s.type) := by
  rcases h.lookupMember_cases hsound name with
    ⟨hnone, _⟩ | ⟨before, c, after, type, scope, parent, s', heq, hno, _, hc, hget, hlook⟩
  · rw [hs] at hnone
    simp at hnone
  · obtain rfl : s' = s := Option.some.inj (hlook.symm.trans hs)
    -- before that class there is no such field
    have hbefore : before.findSome? (field? name) = none := by
      rw [List.findSome?_eq_none_iff]
      intro b hb
      have hfind : b.fields.find? (·.name.name = name) = none := by
        rw [List.find?_eq_none]
        intro f hf hname
        exact (hno b hb).1 (List.mem_map.mpr ⟨f, hf, by simpa using hname⟩)
      rw [field?, hfind]
      rfl
    rcases hc.holds.cases hget with ⟨f, hf, hname, hfield⟩ | ⟨m, _, _, hmethod⟩
    · cases hfind : c.fields.find? (·.name.name = name) with
      | none => exact absurd hname (by simpa using List.find?_eq_none.mp hfind f hf)
      | some g =>
        have hgname : g.name.name = name := by simpa using List.find?_some hfind
        obtain ⟨s'', hg⟩ := hc.holds.field g (List.mem_of_find?_eq_some hfind)
        obtain rfl : s'' = s' := by
          have hgget := hg.get?
          rw [hgname] at hgget
          exact Option.some.inj (hgget.symm.trans hget)
        have hfirst : field? name c = some (.field c.name.name g.type) := by
          rw [field?, hfind]
          rfl
        refine ⟨.field c.name.name g.type, ?_, ?_⟩
        · rw [heq, List.findSome?_append, hbefore, List.findSome?_cons, hfirst]
          rfl
        · rw [Binding.meaning?, hc.named, Option.bind_some, hc.get?, Option.bind_some, hg.type,
            (hsound.symbols scope name s'' hget).scope_eq]
          rfl
    · rw [hmethod.kind] at hk
      simp at hk

/-- The frames at a place in a method, and the scopes that picture them. The scopes of the method
    are those from `lo` on, and the place stands after the first `n` locals. -/
structure Stack (d : Definition) (env : MethodEnv) (lo : ScopeId) (n : Nat) (scope : ScopeId)
    (outer : List ScopeId) (frames : List Frame) : Prop where
  inside : d.scopes.Inside env.classScope env.isStatic scope (scope :: outer)
  lo_le : ∀ j ∈ scope :: outer, lo ≤ j
  pictures : PicturesAll d.scopes d.types n (scope :: outer) frames

/-- The class around a method, seen from its scope. -/
structure Surrounds (d : Definition) (env : MethodEnv) (classes : List ClassDecl) : Prop where
  scopes : env.scopes = d.scopes
  sound : Sound d
  isGlobal : (d.scopes.scope ScopeTree.global).kind = .global
  upToGlobal : d.scopes.UpToGlobal env.classScope
  above : Above d classes env.classScope

/-- The classes whose fields are in view. -/
def inView (env : MethodEnv) (classes : List ClassDecl) : List ClassDecl :=
  if env.isStatic then [] else classes

theorem Stack.exists_lookup {env : MethodEnv} {classes : List ClassDecl} {lo : Nat}
    {outer : List ScopeId} (h : Stack d env lo n scope outer frames) (hs : Surrounds d env classes)
    {x : Resolution × TypeId} (hx : Typing.resolveName? env scope name n = some x) :
    ∃ b, lookup (inView env classes) frames name = some b ∧
      b.meaning? d.types d.scopes = some x := by
  have hfit := hs.sound.symbols
  unfold Typing.resolveName? at hx
  rw [hs.scopes, ScopeTree.lookupVisible, h.inside.outward_eq, List.findSome?_append] at hx
  rcases h.pictures.findSome? hfit h.inside.isVariable name with
    ⟨s, b, hfound, hvar, hb, hmeaning⟩ | ⟨hnone, hnone'⟩
  · rw [hfound, Option.some_or] at hx
    dsimp only at hx
    rw [if_pos hvar] at hx
    refine ⟨b, ?_, Option.some.inj hx ▸ hmeaning⟩
    rw [lookup, hb]
    rfl
  · rw [hnone, Option.none_or] at hx
    -- what is found outside of the method is a member or the name of a class
    have hclassName : ∀ s : Symbol, s.kind = .className →
        (if s.kind.isVariable then some (Resolution.variable s.scope, s.type)
          else if s.kind = .field then some (.field s.scope, s.type) else none) = none := by
      intro s hk
      rw [hk]
      rfl
    cases hstatic : env.isStatic with
    | true =>
      rw [hstatic, if_pos rfl, List.findSome?_singleton] at hx
      split at hx
      · simp at hx
      · next s hs' =>
        rw [hclassName s (hfit.kind_of_global hs.isGlobal hs')] at hx
        simp at hx
    | false =>
      rw [hstatic, if_neg (by decide), hs.upToGlobal.outward_path hs.isGlobal,
        hs.upToGlobal.findSome?_path hfit hs.isGlobal] at hx
      split at hx
      · simp at hx
      · next s hs' =>
        rcases Option.or_eq_some_iff.mp hs' with hmember | ⟨_, hs'⟩
        · obtain ⟨j, _, hclass, hget⟩ := ScopeTree.mem_path_of_lookupMember hmember
          have hnot : ¬ s.kind.isVariable = true := by
            have hmem := (Option.filter_eq_some_iff.mp
              ((hfit.member?_eq hclass name).trans hget)).2
            intro hvar
            cases hk : s.kind <;> simp_all [SymbolKind.isVariable, SymbolKind.isMember]
          rw [if_neg hnot] at hx
          split at hx
          · next hk =>
            obtain ⟨b, hb, hmeaning⟩ := exists_field_of_lookupMember hs.sound hs.above hmember hk
            refine ⟨b, ?_, Option.some.inj hx ▸ hmeaning⟩
            rw [lookup, hnone', Option.none_or, inView, hstatic]
            exact hb
          · simp at hx
        · rw [hclassName s (hfit.kind_of_global hs.isGlobal hs')] at hx
          simp at hx

/-! ## Walking over a body -/

section Walk

variable {d : Definition} {env : MethodEnv} {lo n n' : Nat} {scope inner : ScopeId}
  {outer : List ScopeId} {frames : List Frame}

/-- The scopes around a scope are older. -/
theorem Stack.lt_of_mem (h : Stack d env lo n scope outer frames) (hsound : Sound d)
    {j : ScopeId} (hj : j ∈ outer) : j < scope := by
  have hpath := h.inside.path_eq
  rw [ScopeTree.path, List.cons_append] at hpath
  refine hsound.ordered scope j ?_
  rw [(List.cons.inj hpath).2]
  exact List.mem_append_left _ hj

/-- A block has a frame of its own. -/
theorem Stack.block (h : Stack d env lo n scope outer frames) (hsound : Sound d) {node : NodeId}
    (hopens : d.scopes.OpensAt scope node n inner) :
    Stack d env lo n inner (scope :: outer) (⟨.block node, []⟩ :: frames) where
  inside := h.inside.block hopens.toBlockOf hsound.symbols
  lo_le j hj := by
    rcases List.mem_cons.mp hj with rfl | hj
    · have hlt : scope < j := by
        refine hsound.ordered j scope ?_
        rw [hopens.enclosing]
        exact List.mem_cons_self
      exact Nat.le_trans (h.lo_le scope (by simp)) (Nat.le_of_lt hlt)
    · exact h.lo_le j hj
  pictures := ⟨pictures_block hopens, h.pictures⟩

/-- After a block the frames around it are as before, and the locals in it are passed over. -/
theorem Stack.leave (h : Stack d env lo n scope outer frames) {f : Frame}
    (hinner : Stack d env lo n' inner (scope :: outer) (f :: frames)) :
    Stack d env lo n' scope outer frames :=
  ⟨h.inside, h.lo_le, hinner.pictures.2⟩

/-- A declaration brings its local into view in the innermost frame. -/
theorem Stack.declare (h : Stack d env lo n scope outer frames) (hsound : Sound d) {node : Node}
    {type : TypeExpr} {name : Ident} {init : Option Expr} {s : Symbol}
    (hlocal : d.scopes.LocalAt d.types lo scope name.name type n s) :
    Stack d env lo (n + 1) scope outer (enter frames (.declare node type name init)) := by
  obtain ⟨f, rest, rfl, hf, hrest⟩ := h.pictures.cases
  have hpath : ∀ j ∈ scope :: outer, j ∈ d.scopes.path scope := by
    intro j hj
    rw [h.inside.path_eq]
    exact List.mem_append_left _ hj
  have hunique : ∀ j ∈ scope :: outer, ∀ other s', (d.scopes.scope j).get? other = some s' →
      s'.kind = .localVar n → j = scope ∧ other = name.name := by
    intro j hj other s' hs' hk
    have heq := hlocal.unique j (hpath j hj) (h.lo_le j hj) other s' hs' hk
    have hfit' := hsound.symbols j other s' hs'
    have hfit := hsound.symbols scope name.name s hlocal.get?
    rw [← hfit'.scope_eq, ← hfit'.name_eq, heq]
    exact ⟨hfit.scope_eq, hfit.name_eq⟩
  refine ⟨h.inside, h.lo_le, hf.declare hlocal.get? hlocal.kind hlocal.type ?_, hrest.succ ?_⟩
  · intro other s' hs' hk
    exact (hunique scope (by simp) other s' hs' hk).2
  · intro j hj other s' hs' hk
    have heq := (hunique j (List.mem_cons_of_mem _ hj) other s' hs' hk).1
    exact Nat.ne_of_lt (h.lt_of_mem hsound hj) heq

theorem enter_cons (f : Frame) (frames : List Frame) (s : Stmt) :
    ∃ f', enter (f :: frames) s = f' :: frames := by
  cases s <;> exact ⟨_, rfl⟩

theorem foldl_enter_cons (f : Frame) (frames : List Frame) (ss : List Stmt) :
    ∃ f', ss.foldl enter (f :: frames) = f' :: frames := by
  induction ss generalizing f with
  | nil => exact ⟨f, rfl⟩
  | cons s ss ih =>
    obtain ⟨f', hf'⟩ := enter_cons f frames s
    rw [List.foldl_cons, hf']
    exact ih f'

theorem enter_of_not_declaration {s : Stmt} (h : ¬ s.isDeclaration = true) (frames : List Frame) :
    enter frames s = frames := by
  cases s with
  | declare => exact absurd rfl h
  | _ => cases frames <;> rfl

/-- At the start of a branch. -/
theorem Stack.branch (h : Stack d env lo n scope outer frames) (hsound : Sound d) {body : Stmt}
    (henters : d.scopes.EntersAt scope body n inner) :
    ∃ outer', Stack d env lo n inner outer' (enterBranch frames body) := by
  unfold ScopeTree.EntersAt at henters
  unfold enterBranch
  by_cases hd : body.isDeclaration = true
  · rw [if_pos hd] at henters ⊢
    exact ⟨_, h.block hsound henters⟩
  · rw [if_neg hd] at henters ⊢
    exact ⟨outer, henters ▸ h⟩

/-- After a branch. -/
theorem Stack.afterBranch (h : Stack d env lo n scope outer frames) (hsound : Sound d)
    {body : Stmt} (henters : d.scopes.EntersAt scope body n inner)
    (ih : ∀ outer frames, Stack d env lo n inner outer frames →
      Stack d env lo n' inner outer (enter frames body)) :
    Stack d env lo n' scope outer frames := by
  unfold ScopeTree.EntersAt at henters
  by_cases hd : body.isDeclaration = true
  · rw [if_pos hd] at henters
    have hinner := ih _ _ (h.block hsound henters)
    obtain ⟨f', hf'⟩ := enter_cons ⟨.block body.id, []⟩ frames body
    rw [hf'] at hinner
    exact h.leave hinner
  · rw [if_neg hd] at henters
    subst henters
    have hinner := ih outer frames h
    rw [enter_of_not_declaration hd] at hinner
    exact hinner

mutual

theorem Stack.stmt (hsound : Sound d) :
    ∀ (s : Stmt) {scope : ScopeId} {n n' : Nat} {outer : List ScopeId} {frames : List Frame},
      d.scopes.Numbered d.types lo scope s n n' → Stack d env lo n scope outer frames →
      Stack d env lo n' scope outer (enter frames s)
  | .declare node type name init, _, _, _, _, _, hn, h => by
    obtain ⟨rfl, s, hlocal⟩ := hn
    exact h.declare hsound hlocal
  | .block node stmts, _, _, _, outer, frames, hn, h => by
    obtain ⟨inner, hopens, hstmts⟩ := hn
    have hinner := Stack.stmts hsound stmts hstmts (h.block hsound hopens)
    obtain ⟨f', hf'⟩ := foldl_enter_cons ⟨.block node.id, []⟩ frames stmts
    rw [hf'] at hinner
    rw [enter_of_not_declaration (by simp [Stmt.isDeclaration])]
    exact h.leave hinner
  | .ifThen node condition body, _, _, _, _, _, hn, h => by
    obtain ⟨inner, henters, hbody⟩ := hn
    rw [enter_of_not_declaration (by simp [Stmt.isDeclaration])]
    exact h.afterBranch hsound henters fun _ _ => Stack.stmt hsound body hbody
  | .ifElse node condition thenBranch elseBranch, _, _, _, _, _, hn, h => by
    obtain ⟨mid, ⟨inner, henters, hthen⟩, inner', henters', helse⟩ := hn
    rw [enter_of_not_declaration (by simp [Stmt.isDeclaration])]
    have hmid := h.afterBranch hsound henters fun _ _ => Stack.stmt hsound thenBranch hthen
    exact hmid.afterBranch hsound henters' fun _ _ => Stack.stmt hsound elseBranch helse
  | .loop node condition body, _, _, _, _, _, hn, h => by
    obtain ⟨inner, henters, hbody⟩ := hn
    rw [enter_of_not_declaration (by simp [Stmt.isDeclaration])]
    exact h.afterBranch hsound henters fun _ _ => Stack.stmt hsound body hbody
  | .assign .., _, _, _, _, _, hn, h | .call .., _, _, _, _, _, hn, h
  | .ret .., _, _, _, _, _, hn, h | .breakLoop _, _, _, _, _, _, hn, h
  | .continueLoop _, _, _, _, _, _, hn, h => by
    rw [enter_of_not_declaration (by simp [Stmt.isDeclaration])]
    exact hn ▸ h

theorem Stack.stmts (hsound : Sound d) :
    ∀ (ss : List Stmt) {scope : ScopeId} {n n' : Nat} {outer : List ScopeId} {frames : List Frame},
      d.scopes.NumberedList d.types lo scope ss n n' → Stack d env lo n scope outer frames →
      Stack d env lo n' scope outer (ss.foldl enter frames)
  | [], _, _, _, _, _, hn, h => hn ▸ h
  | s :: ss, _, _, _, _, _, hn, h => by
    obtain ⟨mid, hs, hss⟩ := hn
    exact Stack.stmts hsound ss hss (Stack.stmt hsound s hs h)

end

end Walk

end Lexical

end IcLir
