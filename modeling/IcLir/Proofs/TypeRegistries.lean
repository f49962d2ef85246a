import IcLir.Proofs.TypeInterning
import IcLir.TypeRegistry

/-
  The indexes of a type registry. Under each key an index has what a search of the table finds
  (`Agrees`), and entering a type in the table and in its index keeps this up. So a request does
  to the registry what it does to the table alone, with the same number or the same error
  (`Refines`): whatever can fail in it comes before anything is entered. What is known of
  interning in tables then holds of registries, whose types are found through the indexes.
-/

namespace IcLir

namespace TypeRegistry

/-! ## Indexes -/

section

variable {κ : Type} [DecidableEq κ] {m : OrderedMap κ TypeId} {kinds : List TypeKind}
  {is : κ → TypeKind → Bool} {k : TypeKind}

/-- The index has under each key the first type of the table that `is` of that key. -/
def Agrees (m : OrderedMap κ TypeId) (kinds : List TypeKind) (is : κ → TypeKind → Bool) : Prop :=
  ∀ key, m.get? key = kinds.findIdx? (is key)

/-- A type of another sort is no matter of the index. -/
theorem Agrees.append (h : Agrees m kinds is) (hk : ∀ key, is key k = false) :
    Agrees m (kinds ++ [k]) is := by
  intro key
  rw [h key, List.findIdx?_append, List.findIdx?_singleton, hk]
  simp

theorem Agrees.insert (h : Agrees m kinds is) {key : κ} (hnew : m.get? key = none)
    (hk : ∀ key', is key' k = decide (key' = key)) :
    Agrees (m.insert key kinds.length) (kinds ++ [k]) is := by
  intro key'
  rw [OrderedMap.get?_insert, List.findIdx?_append, List.findIdx?_singleton, hk, ← h key']
  by_cases heq : key' = key
  · simp [heq, hnew]
  · simp [heq]

end

structure Indexed (r : TypeRegistry) : Prop where
  classes : Agrees r.classIndex r.kinds TypeKind.isClassNamed
  arrays : Agrees r.arrayIndex r.kinds fun element k => k == .array element
  signatures : Agrees r.signatureIndex r.kinds fun s k => k == .method s

theorem indexed_initial : initial.Indexed := ⟨fun _ => rfl, fun _ => rfl, fun _ => rfl⟩

/-! ## What a request does -/

/-- `r'` is a registry over the table `t`; it is `r` itself unless a type was entered. -/
structure Reaches (r : TypeRegistry) (t : TypeTable) (r' : TypeRegistry) : Prop where
  table : r'.toTypeTable = t
  indexed : r'.Indexed
  grown : r' = r ∨ r.size < r'.size

/-- What a request to `r` comes to, by what it comes to for the table alone. -/
inductive Matches (r : TypeRegistry) : Except DeclarationError (TypeId × TypeTable) →
    EStateM.Result DeclarationError TypeRegistry TypeId → Prop where
  | ok {p : TypeId × TypeTable} {r' : TypeRegistry} :
    r.Reaches p.2 r' → r.Matches (.ok p) (.ok p.1 r')
  | error {e : DeclarationError} : r.Matches (.error e) (.error e r)

/-- The request does to a registry what `spec` does to its table, and nothing if that fails. -/
def Refines (x : Request TypeId)
    (spec : TypeTable → Except DeclarationError (TypeId × TypeTable)) : Prop :=
  ∀ r : TypeRegistry, r.Indexed → r.Matches (spec r.toTypeTable) (x r)

theorem Reaches.trans {r r' r'' : TypeRegistry} {t t' : TypeTable} (h : r.Reaches t r')
    (h' : r'.Reaches t' r'') : r.Reaches t' r'' where
  table := h'.table
  indexed := h'.indexed
  grown := by
    rcases h.grown with rfl | hlt
    · exact h'.grown
    · rcases h'.grown with rfl | hlt'
      · exact .inr hlt
      · exact .inr (Nat.lt_trans hlt hlt')

section

variable {x : Request TypeId} {f : TypeId → Request TypeId}
  {spec spec' : TypeTable → Except DeclarationError (TypeId × TypeTable)}
  {g : TypeId → TypeTable → TypeId × TypeTable}

theorem Refines.of_eq (h : Refines x spec) (heq : ∀ t, spec' t = spec t) : Refines x spec' := by
  intro r hr
  rw [heq]
  exact h r hr

/-- What may fail comes first, so that there is nothing to take back. -/
theorem Refines.bind (hx : Refines x spec) (hf : ∀ id, Refines (f id) fun t => .ok (g id t)) :
    Refines (x >>= f) fun t => (spec t).map fun p => g p.1 p.2 := by
  intro r hr
  have hfirst := hx r hr
  change r.Matches ((spec r.toTypeTable).map fun p => g p.1 p.2) (EStateM.bind x f r)
  unfold EStateM.bind
  generalize spec r.toTypeTable = y, x r = z at hfirst
  cases hfirst with
  | @ok p r' hreach =>
    have hsecond := hf p.1 r' hreach.indexed
    rw [hreach.table] at hsecond
    change r.Matches (.ok (g p.1 p.2)) (f p.1 r')
    generalize f p.1 r' = z at hsecond
    cases hsecond with
    | ok hreach' => exact .ok (hreach.trans hreach')
  | error => exact .error

theorem refines_pure (id : TypeId) : Refines (pure id) fun t => .ok (id, t) :=
  fun _ hr => .ok ⟨rfl, hr, .inl rfl⟩

theorem refines_found (find? : TypeRegistry → Option TypeId) (spec? : TypeTable → Option TypeId)
    (h : ∀ r, r.Indexed → find? r = spec? r.toTypeTable) (e : DeclarationError) :
    Refines (do found (find? (← get)) e) fun t =>
      match spec? t with
      | some id => .ok (id, t)
      | none => .error e := by
  intro r hr
  change r.Matches (match spec? r.toTypeTable with
    | some id => .ok (id, r.toTypeTable)
    | none => .error e) (found (find? r) e r)
  rw [h r hr]
  cases spec? r.toTypeTable with
  | some id => exact .ok ⟨rfl, hr, .inl rfl⟩
  | none => exact .error

/-- A structural type is entered in the table and in its index, or found in both. -/
theorem refines_intern {k : TypeKind} {find? : TypeRegistry → Option TypeId}
    {record : TypeId → TypeRegistry → TypeRegistry}
    (hfind : ∀ r, r.Indexed → find? r = r.kinds.idxOf? k)
    (hrecord : ∀ r, r.Indexed → find? r = none → (record r.size (r.append k)).Indexed ∧
      (record r.size (r.append k)).toTypeTable = (r.append k).toTypeTable) :
    Refines (intern k find? record) fun t => .ok (t.intern k) := by
  intro r hr
  have hintern : intern k find? record r = match find? r with
      | some id => .ok id r
      | none => .ok r.size (record r.size (r.append k)) := by
    change (match find? r with | some id => pure id | none => _ : Request TypeId) r = _
    cases find? r <;> rfl
  change r.Matches (.ok (r.toTypeTable.intern k)) _
  rw [hintern, hfind r hr, TypeTable.intern]
  cases hfound : r.kinds.idxOf? k with
  | some id => exact .ok ⟨rfl, hr, .inl rfl⟩
  | none =>
    obtain ⟨hindexed, htable⟩ := hrecord r hr ((hfind r hr).trans hfound)
    refine .ok ⟨htable, hindexed, .inr ?_⟩
    rw [htable]
    simp [append, TypeTable.size]

end

theorem refines_arrayOf (element : TypeId) :
    Refines (arrayOf element) fun t => .ok (t.arrayOf element) := by
  refine refines_intern (fun r hr => hr.arrays element) fun r hr hnew => ⟨⟨?_, ?_, ?_⟩, rfl⟩
  · exact hr.classes.append fun _ => rfl
  · exact hr.arrays.insert hnew fun _ => by
      rw [Bool.eq_iff_iff, beq_iff_eq, decide_eq_true_iff, TypeKind.array.injEq, eq_comm]
  · exact hr.signatures.append fun _ => rfl

theorem refines_signature (result : TypeId) (params : List TypeId) :
    Refines (signature result params) fun t => .ok (t.signature result params) := by
  refine refines_intern (fun r hr => hr.signatures _) fun r hr hnew => ⟨⟨?_, ?_, ?_⟩, rfl⟩
  · exact hr.classes.append fun _ => rfl
  · exact hr.arrays.append fun _ => rfl
  · exact hr.signatures.insert hnew fun _ => by
      rw [Bool.eq_iff_iff, beq_iff_eq, decide_eq_true_iff, TypeKind.method.injEq, eq_comm]

theorem refines_nest (base : TypeId) (dims : Nat) :
    Refines (nest base dims) fun t => .ok (t.nest base dims) := by
  induction dims generalizing base with
  | zero => exact refines_pure base
  | succ dims ih => exact (refines_arrayOf base).bind ih

theorem base?_eq {r : TypeRegistry} (hr : r.Indexed) (b : BaseType) :
    r.base? b = r.toTypeTable.base? b := by
  cases b with
  | named name => exact hr.classes name
  | int | boolean | string | void => rfl

theorem refines_resolve (e : TypeExpr) : Refines (resolve e) (·.resolve e) := by
  have hbase := refines_found (·.base? e.base) (·.base? e.base) (fun _ hr => base?_eq hr e.base)
    (.undefinedType e.text)
  refine (hbase.bind fun base => refines_nest base e.dims).of_eq fun t => ?_
  unfold TypeTable.resolve
  cases t.base? e.base <;> rfl

/-! ## Spelled-out names -/

/-- The brackets that come last make the outermost array. -/
theorem nest_succ (t : TypeTable) (base : TypeId) (dims : Nat) :
    t.nest base (dims + 1) = (t.nest base dims).2.arrayOf (t.nest base dims).1 := by
  induction dims generalizing t base with
  | zero => rfl
  | succ dims ih => exact ih (t.arrayOf base).2 (t.arrayOf base).1

theorem named?_brackets (element : List Char) :
    Primitive.named? (String.ofList (']' :: '[' :: element).reverse) = none := by
  refine List.find?_eq_none.mpr fun q _ htext => ?_
  have hchars : q.text.toList.reverse = ']' :: '[' :: element := by
    rw [of_decide_eq_true htext, String.toList_ofList, List.reverse_reverse]
  cases q <;> cases hchars

theorem refines_spelled (reversed : List Char) :
    Refines (spelled reversed) (·.typeNamed (String.ofList reversed.reverse)) := by
  fun_induction TypeTable.splitBrackets reversed with
  | case1 element dims base hsplit ih =>
    unfold spelled
    rw [named?_brackets]
    refine (ih.bind refines_arrayOf).of_eq fun t => ?_
    simp only [TypeTable.typeNamed, String.toList_ofList, List.reverse_reverse,
      TypeTable.splitBrackets, hsplit]
    cases ((Primitive.named? (String.ofList base.reverse)).map Primitive.id).or
      (t.class? (String.ofList base.reverse)) with
    | some id => exact congrArg Except.ok (nest_succ t id dims)
    | none => rfl
  | case2 base hbrackets =>
    have hsplit : TypeTable.splitBrackets base = (0, base) := by
      rw [TypeTable.splitBrackets]
      exact hbrackets
    unfold spelled TypeTable.typeNamed
    simp only [String.toList_ofList, List.reverse_reverse, hsplit]
    cases Primitive.named? (String.ofList base.reverse) with
    | some q => exact refines_pure q.id
    | none =>
      refine (refines_found (·.class? _) (·.class? _) (fun _ hr => hr.classes _) _).of_eq
        fun t => ?_
      cases t.class? (String.ofList base.reverse) <;> rfl

theorem refines_typeNamed (name : String) : Refines (typeNamed name) (·.typeNamed name) := by
  have h := refines_spelled name.toList.reverse
  rwa [List.reverse_reverse, String.ofList_toList] at h

/-! ## Classes -/

/-- The registry with one more class, in the table and in the index. -/
def withClass (r : TypeRegistry) (name : String) (ancestors : List TypeId) : TypeRegistry :=
  { r.append (.classType name ancestors) with classIndex := r.classIndex.insert name r.size }

theorem reaches_withClass {r : TypeRegistry} (hr : r.Indexed) {name : String}
    (hnew : r.class? name = none) (ancestors : List TypeId) :
    r.Reaches (r.toTypeTable.push (.classType name ancestors)).2 (r.withClass name ancestors) := by
  refine ⟨rfl, ⟨?_, ?_, ?_⟩, .inr ?_⟩
  · exact hr.classes.insert hnew fun name' => by simp [TypeKind.isClassNamed, eq_comm]
  · exact hr.arrays.append fun _ => rfl
  · exact hr.signatures.append fun _ => rfl
  · simp [withClass, append, TypeTable.size]

theorem refines_addClass (name : String) (superclass : Option String) :
    Refines (addClass name superclass) (·.addClass name superclass) := by
  intro r hr
  have hclass : ∀ n, r.class? n = r.toTypeTable.class? n := hr.classes
  change r.Matches (r.toTypeTable.addClass name superclass) ((if _ then _ else _ : Request _) r)
  simp only [TypeTable.addClass.eq_def, ← hclass]
  split
  · exact .error
  · next hfresh =>
    have hnew : r.class? name = none := by simp_all
    cases superclass with
    | none => exact .ok (reaches_withClass hr hnew [])
    | some base =>
      dsimp only
      change r.Matches _ (EStateM.bind (found (r.class? base) _) _ r)
      cases r.class? base with
      | none => exact .error
      | some id => exact .ok (reaches_withClass hr hnew (id :: r.ancestors id))

/-! ## Any number of requests -/

def ask : TypeRequest → Request TypeId
  | .spelled name => typeNamed name
  | .written e => resolve e
  | .array element => arrayOf element
  | .method result params => signature result params
  | .newClass name superclass => addClass name superclass

theorem refines_ask (q : TypeRequest) : Refines (ask q) (·.answer q) := by
  cases q with
  | spelled name => exact refines_typeNamed name
  | written e => exact refines_resolve e
  | array element => exact refines_arrayOf element
  | method result params => exact refines_signature result params
  | newClass name superclass => exact refines_addClass name superclass

/-- The registry as a request leaves it, whether it succeeds or fails. -/
def after (r : TypeRegistry) (q : TypeRequest) : TypeRegistry :=
  match ask q r with
  | .ok _ r' | .error _ r' => r'

/-- Any number of requests leads from one registry to the other. -/
inductive Leads (r : TypeRegistry) : TypeRegistry → Prop where
  | refl : r.Leads r
  | step {r' : TypeRegistry} {q : TypeRequest} : r.Leads r' → r'.Admits q → r.Leads (r'.after q)

section

variable {r r' : TypeRegistry} {q : TypeRequest}

theorem Indexed.matches_ask (hr : r.Indexed) (q : TypeRequest) : r.Matches (r.answer q) (ask q r) :=
  refines_ask q r hr

theorem after_of_indexed (hr : r.Indexed) (q : TypeRequest) :
    (r.after q).Indexed ∧ (r.after q).toTypeTable = r.toTypeTable.after q := by
  have hmatches := hr.matches_ask q
  unfold after TypeTable.after
  generalize r.answer q = y, ask q r = z at hmatches
  cases hmatches with
  | ok hreach => exact ⟨hreach.indexed, hreach.table⟩
  | error => exact ⟨hr, rfl⟩

/-- The tables of registries that requests lead to are the tables that the requests lead to. -/
theorem Leads.toTypeTable (h : r.Leads r') (hr : r.Indexed) :
    r'.Indexed ∧ r.toTypeTable.Leads r'.toTypeTable := by
  induction h with
  | refl => exact ⟨hr, .refl⟩
  | step _ hq ih =>
    obtain ⟨hindexed, htable⟩ := after_of_indexed ih.1 _
    rw [htable]
    exact ⟨hindexed, ih.2.step hq⟩

theorem Indexed.ask_eq_ok (hr : r.Indexed) {id : TypeId} (h : ask q r = .ok id r') :
    r.answer q = .ok (id, r'.toTypeTable) ∧ r'.Indexed := by
  have hmatches := hr.matches_ask q
  rw [h] at hmatches
  generalize r.answer q = y at hmatches
  cases hmatches with
  | ok hreach => exact ⟨by rw [hreach.table], hreach.indexed⟩

theorem Indexed.ask_eq_error (hr : r.Indexed) {e : DeclarationError} (h : ask q r = .error e r') :
    r.answer q = .error e ∧ r' = r := by
  have hmatches := hr.matches_ask q
  rw [h] at hmatches
  generalize r.answer q = y at hmatches
  cases hmatches with
  | error => exact ⟨rfl, rfl⟩

/-- A type that the table has is found, and the registry stays what it is. -/
theorem Indexed.ask_again (hr : r.Indexed) {id : TypeId}
    (h : r.answer q = .ok (id, r.toTypeTable)) : ask q r = .ok id r := by
  have hmatches := hr.matches_ask q
  rw [h] at hmatches
  generalize ask q r = z at hmatches
  cases hmatches with
  | ok hreach =>
    rcases hreach.grown with rfl | hlt
    · rfl
    · rw [hreach.table] at hlt
      exact absurd hlt (Nat.lt_irrefl _)

end

/-- Whatever a type registry has been asked for, each type has one number and is made from types
    with smaller numbers, and the indexes have every type. One more request changes no type that
    is there, and nothing at all if it fails; it comes to what it comes to for the table alone. A
    type that it gives, other than a new class, is found again at any later time without a change
    to the registry. -/
theorem types_are_interned {r : TypeRegistry} (h : initial.Leads r) :
    r.Indexed ∧
    (∀ id id' k k', r.kind? id = some k → r.kind? id' = some k' → k.SameType k' → id = id') ∧
    (∀ id k, r.kind? id = some k → ∀ part ∈ k.parts, part < id) ∧
    ∀ q, r.Admits q →
      (∀ id, id < r.size → (r.after q).kind? id = r.kind? id) ∧
      (∀ e r', ask q r = .error e r' → r' = r ∧ r.answer q = .error e) ∧
      ∀ id r', ask q r = .ok id r' →
        r.answer q = .ok (id, r'.toTypeTable) ∧ id < r'.size ∧
        (q.declaresClass = false → ∀ later, r'.Leads later → ask q later = .ok id later) := by
  obtain ⟨hindexed, hleads⟩ := h.toTypeTable indexed_initial
  obtain ⟨hinterned, hinitial⟩ := hleads.interned TypeTable.interned_initial (List.prefix_refl _)
  refine ⟨hindexed, fun id id' k k' hk hk' hsame => hinterned.eq_of_sameType hk hk' hsame,
    hinterned.parts, fun q hq => ⟨fun id hid => ?_, fun e r' he => ?_, fun id r' ha => ?_⟩⟩
  · rw [(after_of_indexed hindexed q).2]
    exact TypeTable.kind?_of_isPrefix (TypeTable.interned_after hinterned hinitial hq).2 hid
  · exact (hindexed.ask_eq_error he).symm
  · obtain ⟨hanswer, hindexed'⟩ := hindexed.ask_eq_ok ha
    have henters := TypeTable.enters_of_answer hinterned hinitial hq hanswer
    refine ⟨hanswer, henters.lt_size, fun hclass later hlater => ?_⟩
    obtain ⟨hindexed'', hleads'⟩ := hlater.toTypeTable hindexed'
    have hgrown := (hleads'.interned henters.interned (hinitial.trans henters.isPrefix)).2
    exact hindexed''.ask_again
      (TypeTable.answer_again hanswer hclass (henters.isPrefix.trans hgrown) hgrown)

/-- `class A`, `class B extends A`, the method type `B[][] -> void` and requests that fail. -/
def sample : TypeRegistry :=
  ((((initial.after (.newClass "A" none)).after (.newClass "B" (some "A"))).after
    (.written ⟨.named "B", 2, Span.ofLine 1⟩)).after (.method TypeId.void [8])).after
    (.newClass "A" none)

theorem leads_sample : initial.Leads sample := by
  refine .step (.step (.step (.step (.step .refl ?_) ?_) ?_) ?_) ?_ <;> decide +kernel

theorem types_are_interned_sample :
    initial.Leads sample ∧ sample.kinds.drop 5 = [.classType "A" [], .classType "B" [5], .array 6,
      .array 7, .method ⟨TypeId.void, [8]⟩] ∧
    ask (.spelled "B[]") sample = .ok 7 sample ∧
    ∀ later, sample.Leads later → ask (.spelled "B[]") later = .ok 7 later := by
  have hanswer : sample.toTypeTable.typeNamed "B[]" = .ok (7, sample.toTypeTable) :=
    TypeTable.typeNamed_eq_ok.mpr ⟨6, by decide +kernel, by decide +kernel⟩
  have hkinds : sample.kinds.drop 5 = [.classType "A" [], .classType "B" [5], .array 6,
    .array 7, .method ⟨TypeId.void, [8]⟩] := by decide +kernel
  obtain ⟨hindexed, _, _, hrequests⟩ := types_are_interned leads_sample
  have hfound : ask (.spelled "B[]") sample = .ok 7 sample := hindexed.ask_again hanswer
  have hagain := (hrequests (.spelled "B[]") (by decide)).2.2 7 sample hfound
  exact ⟨leads_sample, hkinds, hfound, hagain.2.2 rfl⟩

end TypeRegistry

end IcLir
