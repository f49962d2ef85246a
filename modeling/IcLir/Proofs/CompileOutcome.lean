import IcLir.Proofs.CheckEffects
import IcLir.Proofs.LoweredProgram

/-
  The outcome of a whole compilation. A program whose nodes are distinct is either accepted or
  rejected for a rule that it breaks; no promise between the stages is ever broken. Once both
  analysis stages have accepted it nothing can go wrong any more, so `compile` fails exactly
  when `analyze` does, and with the same error.
-/

namespace IcLir

open Pass

theorem CompileError.IsRejection.exists_diagnostic {e : CompileError} (h : e.IsRejection) :
    ∃ category detail token span, e.diagnostic = .rejection category detail token span := by
  obtain ⟨r, rfl⟩ := h
  exact ⟨_, _, _, _, rfl⟩

section

variable {p : Program} {options : Options}

variable {c c' : Context} {e : CompileError}

theorem accepts_of_analyzed (hp : p.DistinctNodes) (h : analyzed options p = .ok c) :
    c.Accepts p := by
  unfold analyzed at h
  split at h
  · next c' hc =>
    obtain rfl := Except.ok.inj h
    exact (Context.meets_analyze hp options).of_ok hc
  · simp at h

theorem define_eq_ok_iff :
    Context.define p c = .ok () c' ↔ ∃ entry d,
      Definition.defineProgram c.options.entryMethod p c.definition = .ok entry d ∧
        c' = { c.withDefinition d with entry := some entry } := by
  unfold Context.define
  cases Definition.defineProgram c.options.entryMethod p c.definition with
  | error e d => simp
  | ok entry d =>
    constructor
    · intro h
      exact ⟨entry, d, rfl, (EStateM.Result.ok.inj h).2.symm⟩
    · rintro ⟨_, _, heq, rfl⟩
      obtain ⟨rfl, rfl⟩ := EStateM.Result.ok.inj heq
      rfl

theorem check_eq_ok_iff :
    Context.check p c = .ok () c' ↔
      ∃ t, Typing.checkProgram p c.typing = .ok () t ∧ c' = c.withTyping t := by
  unfold Context.check
  cases ht : Typing.checkProgram p c.typing with
  | error e t => simp
  | ok u t => simp [Typing.toContext_of_ok ht, eq_comm]

theorem layOut_eq_ok_iff :
    Context.layOut c = .ok () c' ↔
      ∃ layouts, LayoutTable.build c.types c.scopes = .ok layouts ∧
        c' = { c with layouts := layouts } := by
  constructor
  · intro h
    obtain ⟨_, _, hget, h⟩ := bind_eq_ok.mp h
    obtain ⟨rfl, rfl⟩ := EStateM.Result.ok.inj hget
    cases hbuild : LayoutTable.build c.types c.scopes with
    | error d => rw [hbuild] at h; cases h
    | ok layouts => rw [hbuild] at h; exact ⟨layouts, rfl, (EStateM.Result.ok.inj h).2.symm⟩
  · rintro ⟨layouts, hbuild, rfl⟩
    refine bind_eq_ok.mpr ⟨c, c, rfl, ?_⟩
    rw [hbuild]
    rfl

/-- The contexts on the way to an accepted program. -/
theorem exists_stages_of_analyzed (h : analyzed options p = .ok c) :
    ∃ c₁ c₂, Context.define p (.initial options) = .ok () c₁ ∧ Context.check p c₁ = .ok () c₂ ∧
      Context.layOut c₂ = .ok () c := by
  unfold analyzed at h
  split at h
  · next c' hc =>
    obtain rfl := Except.ok.inj h
    obtain ⟨_, c₁, hdefine, hrest⟩ := bind_eq_ok.mp hc
    obtain ⟨_, c₂, hcheck, hlayOut⟩ := bind_eq_ok.mp hrest
    exact ⟨c₁, c₂, hdefine, hcheck, hlayOut⟩
  · simp at h

theorem isRejection_of_analyzed (hp : p.DistinctNodes) (h : analyzed options p = .error e) :
    e.IsRejection := by
  unfold analyzed at h
  split at h
  · simp at h
  · next e' c he =>
    obtain rfl := Except.error.inj h
    exact (Context.meets_analyze hp options).of_error he

/-- An accepted program has an entry method to report. -/
theorem Context.Accepts.exists_entryText (h : c.Accepts p) : ∃ text, c.entryText? = some text := by
  obtain ⟨e, he, _⟩ := h.entry
  exact ⟨_, by rw [Context.entryText?, he]; rfl⟩

theorem analyze_eq_error_iff (hp : p.DistinctNodes) :
    analyze options p = .error e ↔ analyzed options p = .error e := by
  unfold analyze
  cases h : analyzed options p with
  | error e' => simp [bind, Except.bind]
  | ok c =>
    obtain ⟨text, htext⟩ := (accepts_of_analyzed hp h).exists_entryText
    simp [bind, Except.bind, htext]

theorem compile_eq_error_iff (hp : p.DistinctNodes) :
    compile options p = .error e ↔ analyzed options p = .error e := by
  unfold compile
  cases h : analyzed options p with
  | error e' => simp [bind, Except.bind]
  | ok c =>
    obtain ⟨assembly, hgenerate, _⟩ :=
      (accepts_of_analyzed hp h).exists_generate hp options.strategy
    simp [bind, Except.bind, hgenerate]

/-- Whatever the two analysis stages accept can be laid out and lowered. -/
theorem exists_build_and_generate (hp : p.DistinctNodes) {c₁ c₂ : Context}
    (hdefine : Context.define p (.initial options) = .ok () c₁)
    (hcheck : Context.check p c₁ = .ok () c₂) :
    ∃ layouts, LayoutTable.build c₂.types c₂.scopes = .ok layouts ∧
      ∀ strategy, ∃ assembly,
        { c₂ with layouts := layouts }.generate strategy p = .ok assembly := by
  obtain ⟨_, e, he, hentry⟩ := (Context.meets_define hp options).of_ok hdefine
  obtain ⟨_, hdefined₂, _, htyped, hsame⟩ :=
    (Context.decides_check_of_define hp hdefine).of_ok hcheck
  obtain ⟨layouts, hbuild, hlaid⟩ := Definition.exists_build hdefined₂.classesDefined
  refine ⟨layouts, hbuild, fun strategy => ?_⟩
  have haccepts : Context.Accepts { c₂ with layouts := layouts } p :=
    ⟨hdefined₂, Context.bodiesTyped_withLayouts htyped layouts, hlaid, e, hsame.trans he, hentry⟩
  obtain ⟨assembly, hgenerate, _⟩ := haccepts.exists_generate hp strategy
  exact ⟨assembly, hgenerate⟩

/-- What an analysis shows of the context that it leaves. -/
theorem exists_context_of_analyze {a : Analysis} (h : analyze options p = .ok a) :
    ∃ c, analyzed options p = .ok c ∧ c.entryText? = some a.entry ∧
      a.typeTable = c.types.render := by
  unfold analyze at h
  cases hc : analyzed options p with
  | error e => rw [hc] at h; simp [bind, Except.bind] at h
  | ok c =>
    rw [hc] at h
    cases htext : c.entryText? with
    | none => simp [bind, Except.bind, htext] at h
    | some text =>
      simp only [bind, Except.bind, htext, Except.ok.injEq] at h
      subst h
      exact ⟨c, rfl, htext, rfl⟩

end

/-- What the analysis of an accepted program leaves. -/
def contextOf (options : Options) (p : Program) : Context :=
  (analyzed options p).toOption.getD default

theorem analyzed_eq_contextOf {options : Options} {p : Program}
    (h : (analyzed options p).toOption.isSome = true) :
    analyzed options p = .ok (contextOf options p) := by
  unfold contextOf
  cases hc : analyzed options p with
  | ok c => rfl
  | error e => rw [hc] at h; cases h

/-- No compilation ends with a defect; past the analysis none fails. -/
theorem analyze_decides_compile {p : Program} (hp : p.DistinctNodes) (options : Options) :
    (∀ e, analyze options p = .error e ∨ compile options p = .error e →
      ∃ category detail token span, e.diagnostic = .rejection category detail token span) ∧
    (∀ c₁ c₂, Context.define p (.initial options) = .ok () c₁ → Context.check p c₁ = .ok () c₂ →
      ∃ layouts, LayoutTable.build c₂.types c₂.scopes = .ok layouts ∧
        ∀ strategy, ∃ assembly,
          { c₂ with layouts := layouts }.generate strategy p = .ok assembly) ∧
    ((∃ r, compile options p = .ok r) ↔ ∃ a, analyze options p = .ok a) ∧
    ∀ e, compile options p = .error e ↔ analyze options p = .error e := by
  have hsame : ∀ e, compile options p = .error e ↔ analyze options p = .error e := fun e =>
    (compile_eq_error_iff hp).trans (analyze_eq_error_iff hp).symm
  refine ⟨fun e he => ?_, fun c₁ c₂ => exists_build_and_generate hp, ?_, hsame⟩
  · have hanalyzed : analyzed options p = .error e := by
      rcases he with he | he
      · exact (analyze_eq_error_iff hp).mp he
      · exact (compile_eq_error_iff hp).mp he
    exact (isRejection_of_analyzed hp hanalyzed).exists_diagnostic
  · cases hc : compile options p with
    | error e => rw [(hsame e).mp hc]; simp
    | ok r =>
      cases ha : analyze options p with
      | error e => rw [(hsame e).mpr ha] at hc; simp at hc
      | ok a => simp

/-! ## A program -/

namespace Shapes

def line : Nat → Span := Span.ofLine

def name (x : String) : Ident := ⟨x, line 1⟩

def type (base : BaseType) : TypeExpr := ⟨base, 0, line 1⟩

def node (id : NodeId) : Node := ⟨id, line 1⟩

/-- `static void main(string[] args) { .. }` -/
def mainOf (id : NodeId) (body : List Stmt) : MethodDecl where
  id := id
  kind := .static
  returnType := type .void
  name := name "main"
  params := [⟨⟨.string, 1, line 1⟩, name "args"⟩]
  body := body

/-- `class Shape { int size; int area(int scale) { return size * scale; } }` -/
def shape : ClassDecl where
  name := name "Shape"
  superclass := none
  fields := [⟨type .int, name "size"⟩]
  methods := [
    { id := 0, kind := .virtual, returnType := type .int, name := name "area"
      params := [⟨type .int, name "scale"⟩]
      body := [.ret (node 0) (some (.binary (node 0) (.arith .mul)
        (.var (node 1) (name "size")) (.var (node 2) (name "scale"))))] }]

/-- `int area(int scale) { return size * size / scale; }` -/
def squareArea : MethodDecl where
  id := 1
  kind := .virtual
  returnType := type .int
  name := name "area"
  params := [⟨type .int, name "scale"⟩]
  body := [.ret (node 1) (some (.binary (node 3) (.arith .div)
    (.binary (node 4) (.arith .mul) (.var (node 5) (name "size")) (.var (node 6) (name "size")))
    (.var (node 7) (name "scale"))))]

/-- `static int halvings(int n) { int k = 0; while (true) { if (n < 2) break; n = n / 2;
    k = k + 1; } return k; }` -/
def halvings : MethodDecl where
  id := 2
  kind := .static
  returnType := type .int
  name := name "halvings"
  params := [⟨type .int, name "n"⟩]
  body := [
    .declare (node 2) (type .int) (name "k") (some (.literal (node 8) (.int 0))),
    .loop (node 3) (.literal (node 9) (.bool true)) (.block (node 4) [
      .ifThen (node 5) (.binary (node 10) (.compare .lt) (.var (node 11) (name "n"))
        (.literal (node 12) (.int 2))) (.breakLoop (node 6)),
      .assign (node 7) (.var (node 13) (name "n")) (.binary (node 14) (.arith .div)
        (.var (node 15) (name "n")) (.literal (node 16) (.int 2))),
      .assign (node 8) (.var (node 17) (name "k")) (.binary (node 18) (.arith .add)
        (.var (node 19) (name "k")) (.literal (node 20) (.int 1)))]),
    .ret (node 9) (some (.var (node 21) (name "k")))]

/-- `static void main(string[] args) { Shape s = new Square(); s.size = halvings(9);
    s.area(2); }` -/
def main : MethodDecl := mainOf 3 [
  .declare (node 10) (type (.named "Shape")) (name "s")
    (some (.newObject (node 22) (name "Square"))),
  .assign (node 11) (.field (node 23) (.var (node 24) (name "s")) (name "size"))
    (.ownCall (node 25) (name "halvings") [.literal (node 26) (.int 9)]),
  .call (node 12) (.methodCall (node 27) (.var (node 28) (name "s")) (name "area")
    [.literal (node 29) (.int 2)])]

def square : ClassDecl where
  name := name "Square"
  superclass := some (name "Shape")
  fields := []
  methods := [squareArea, halvings, main]

/-- A class, a subclass that overrides a method, a loop and a virtual call. -/
def program : Program := ⟨[shape, square]⟩

theorem distinctNodes : program.DistinctNodes := ⟨by decide, by decide, by decide⟩

/-- What the analysis of the program leaves. -/
@[irreducible] def context : Context := contextOf {} program

theorem analyzed_program : analyzed {} program = .ok context := by
  unfold context
  exact analyzed_eq_contextOf (by decide +kernel)

end Shapes

theorem analyze_decides_compile_shapes :
    Shapes.program.DistinctNodes ∧
      ((∃ r, compile {} Shapes.program = .ok r) ↔ ∃ a, analyze {} Shapes.program = .ok a) ∧
      ∀ e, compile {} Shapes.program = .error e ↔ analyze {} Shapes.program = .error e :=
  ⟨Shapes.distinctNodes, (analyze_decides_compile Shapes.distinctNodes {}).2.2⟩

end IcLir
