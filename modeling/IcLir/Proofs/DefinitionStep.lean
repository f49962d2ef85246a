import IcLir.Definition
import IcLir.Proofs.Outcome
import IcLir.Proofs.ScopeSymbols

/-
  What the small steps of the definition stage do to its state, and what all of them keep:
  `Sound` holds in every state, and `Grows k` says that the state only grew and that the scopes
  before number `k` were left alone. Within one class no class scope is opened (`Step`).
-/

namespace IcLir

namespace Definition

open Pass

/-- What holds throughout the stage. -/
structure Sound (d : Definition) : Prop where
  ordered : d.scopes.Ordered
  symbols : d.scopes.SymbolsFit

/-- Growth that leaves the scopes before `k` as they are. -/
structure Grows (k : ScopeId) (d d' : Definition) : Prop where
  types : d.types.Extends d'.types
  scopes : d.scopes.Extends d'.scopes
  below : ScopeTree.SameBelow k d.scopes d'.scopes
  declarations : d'.declarations = d.declarations

theorem Grows.trans {k : ScopeId} {d d' d'' : Definition} (h : Grows k d d')
    (h' : Grows k d' d'') : Grows k d d'' :=
  ⟨h.types.trans h'.types, h.scopes.trans h'.scopes, h.below.trans h'.below,
    h'.declarations.trans h.declarations⟩

theorem Grows.mono {k k' : ScopeId} {d d' : Definition} (h : Grows k d d') (hk : k' ≤ k) :
    Grows k' d d' :=
  { h with below := h.below.mono hk }

/-- Growth within one class. -/
structure Step (k : ScopeId) (d d' : Definition) : Prop extends Grows k d d' where
  classScopes : d'.scopes.classScopes = d.scopes.classScopes

namespace Step

variable {k k' : ScopeId} {d d' d'' : Definition}

theorem refl (k : ScopeId) (d : Definition) : Step k d d :=
  ⟨⟨.refl _, .refl _, .refl _ _, rfl⟩, rfl⟩

theorem trans (h : Step k d d') (h' : Step k d' d'') : Step k d d'' :=
  ⟨h.toGrows.trans h'.toGrows, h'.classScopes.trans h.classScopes⟩

theorem mono (h : Step k d d') (hk : k' ≤ k) : Step k' d d' :=
  ⟨h.toGrows.mono hk, h.classScopes⟩

end Step

/-! ## Single steps -/

variable {d : Definition}

theorem meets_resolveType {e : TypeExpr} {post : TypeId → Definition → Prop}
    (h : ∀ id types, d.types.resolve e = .ok (id, types) → post id { d with types := types }) :
    Meets CompileError.IsRejection (resolveType e) d post := by
  unfold resolveType
  rw [meets_bind, meets_get]
  cases hr : d.types.resolve e with
  | ok r => exact h r.1 r.2 hr
  | error err => exact ⟨_, rfl⟩

theorem meets_insertSymbol {scope : ScopeId} {name : Ident} {kind : SymbolKind} {type : TypeId}
    {post : Unit → Definition → Prop}
    (h : ∀ scopes, d.scopes.insert scope name.name kind type name.span = .ok scopes →
      post () { d with scopes := scopes }) :
    Meets CompileError.IsRejection (insertSymbol scope name kind type) d post := by
  unfold insertSymbol
  rw [meets_bind, meets_get]
  cases hi : d.scopes.insert scope name.name kind type name.span with
  | ok scopes => exact h scopes hi
  | error err => exact ⟨_, rfl⟩

theorem meets_openScope {add : ScopeTree → ScopeId × ScopeTree}
    {post : ScopeId → Definition → Prop}
    (h : post (add d.scopes).1 { d with scopes := (add d.scopes).2 }) :
    Meets CompileError.IsRejection (openScope add) d post := h

/-! ## What a single step keeps -/

theorem Sound.withTypes (h : Sound d) (types : TypeTable) : Sound { d with types := types } :=
  ⟨h.ordered, h.symbols⟩

theorem step_withTypes {types : TypeTable} (he : d.types.Extends types) (k : ScopeId) :
    Step k d { d with types := types } :=
  ⟨⟨he, .refl _, .refl _ _, rfl⟩, rfl⟩

section Insert

variable {scope : ScopeId} {name : String} {kind : SymbolKind} {type : TypeId} {span : Span}
  {scopes : ScopeTree}

theorem Sound.insert (h : Sound d) (hi : d.scopes.insert scope name kind type span = .ok scopes)
    (hscope : scope < d.scopes.size) (hkind : (d.scopes.scope scope).kind.Admits kind) :
    Sound { d with scopes := scopes } :=
  ⟨ScopeTree.ordered_insert hi hscope h.ordered, h.symbols.insert hi hscope hkind⟩

theorem step_insert (hi : d.scopes.insert scope name kind type span = .ok scopes)
    (hscope : scope < d.scopes.size) {k : ScopeId} (hk : k ≤ scope) :
    Step k d { d with scopes := scopes } :=
  ⟨⟨.refl _, ScopeTree.extends_insert hi hscope, (ScopeTree.sameBelow_insert hi).mono hk, rfl⟩,
    ScopeTree.classScopes_insert hi⟩

end Insert

end Definition

end IcLir
