import IcLir.Proofs.FreshLabels
import IcLir.Proofs.ProgramCode

/-
  Whether the labels of a program are distinct. All labels stand in one flat space. Those that
  lowering makes up itself never meet: they differ in what stands before their second underscore
  (`stem`). The label of a method is made of the names of its class and of the method with an
  underscore between, and names may have underscores too, so that two methods can share a label,
  and a method can have a label that is made up.
-/

namespace IcLir

open Pass Definition TypeTable Lowering

/-! ## The labels of methods -/

namespace Lowering

variable {className method className' method' : String}

theorem toList_methodLabel (className method : String) :
    (methodLabel className method).toList =
      '_' :: (className.toList ++ '_' :: method.toList) := by
  have hlabel : methodLabel className method = "_" ++ className ++ "_" ++ method := rfl
  simp [hlabel]

/-- The label of `method` in `className` is that of a method of `className'`, whose name starts
    with the first class and goes on with a part of the method. -/
def SplitsLater (className method className' method' : String) : Prop :=
  ∃ t, className' = className ++ "_" ++ t ∧ method = t ++ "_" ++ method'

theorem methodLabel_of_splitsLater (h : SplitsLater className method className' method') :
    methodLabel className method = methodLabel className' method' := by
  obtain ⟨t, rfl, rfl⟩ := h
  simp [← String.toList_inj, toList_methodLabel]

theorem splitsLater_of_append {t : List Char} (hclass : className'.toList = className.toList ++ t)
    (hmethod : '_' :: method.toList = t ++ '_' :: method'.toList) :
    className = className' ∧ method = method' ∨
      SplitsLater className method className' method' := by
  cases t with
  | nil =>
    refine .inl ⟨?_, ?_⟩
    · exact String.toList_inj.mp (by simpa using hclass.symm)
    · exact String.toList_inj.mp (by simpa using hmethod)
  | cons x t =>
    obtain ⟨rfl, hmethod⟩ := List.cons.inj hmethod
    refine .inr ⟨String.ofList t, ?_, ?_⟩
    · exact String.toList_inj.mp (by simpa using hclass)
    · exact String.toList_inj.mp (by simpa using hmethod)

/-- Two methods share a label only if one name is cut in two places. -/
theorem methodLabel_eq_iff :
    methodLabel className method = methodLabel className' method' ↔
      className = className' ∧ method = method' ∨
        SplitsLater className method className' method' ∨
        SplitsLater className' method' className method := by
  constructor
  · intro h
    have hlist := congrArg String.toList h
    rw [toList_methodLabel, toList_methodLabel] at hlist
    rcases List.append_eq_append_iff.mp (List.cons.inj hlist).2 with ⟨t, hc, hm⟩ | ⟨t, hc, hm⟩
    · rcases splitsLater_of_append hc hm with h | h
      · exact .inl h
      · exact .inr (.inl h)
    · rcases splitsLater_of_append hc hm with h | h
      · exact .inl ⟨h.1.symm, h.2.symm⟩
      · exact .inr (.inr h)
  · intro h
    rcases h with ⟨rfl, rfl⟩ | h | h
    · rfl
    · exact methodLabel_of_splitsLater h
    · exact (methodLabel_of_splitsLater h).symm

end Lowering

/-! ## Stems -/

/-- What stands before the second underscore of a label, if its first letter is one. -/
def stem (label : String) : List Char :=
  label.toList.take 1 ++ (label.toList.drop 1).takeWhile (· ≠ '_')

theorem takeWhile_underscore {u : List Char} (h : '_' ∉ u) (v : List Char) :
    (u ++ '_' :: v).takeWhile (· ≠ '_') = u := by
  have hall : ∀ x ∈ u, decide (x ≠ '_') = true := fun x hx => decide_eq_true fun heq => h (heq ▸ hx)
  rw [List.takeWhile_append_of_pos hall]
  simp

theorem stem_append {a : String} (h : '_' ∈ a.toList.drop 1) (t : String) :
    stem (a ++ t) = stem a := by
  unfold stem
  rw [String.toList_append]
  cases ha : a.toList with
  | nil => simp [ha] at h
  | cons x l =>
    rw [ha] at h
    obtain ⟨u, v, hl, hu⟩ := List.eq_append_cons_of_mem h
    rw [List.drop_succ_cons, List.drop_zero] at hl
    subst hl
    simp only [List.cons_append, List.append_assoc, List.take_succ_cons, List.take_zero,
      List.drop_succ_cons, List.drop_zero, takeWhile_underscore hu]

theorem stem_methodLabel {className : String} (h : '_' ∉ className.toList) (method : String) :
    stem (methodLabel className method) = '_' :: className.toList := by
  unfold stem
  rw [toList_methodLabel]
  simp only [List.take_succ_cons, List.take_zero, List.drop_succ_cons, List.drop_zero,
    takeWhile_underscore h, List.cons_append, List.nil_append]

/-! ## The labels that are made up -/

/-- What the labels of the tables, of the guards, of the control flow, of the entry method and of
    the end have between their first two underscores. -/
def reservedNames : List String := ["DV", "", "true", "false", "end", "while", "ic", "error"]

def stemsOf (names : List String) : List (List Char) := names.map fun name => '_' :: name.toList

/-- The labels are distinct and have one of the given stems. -/
structure Stemmed (names : List String) (labels : List String) : Prop where
  nodup : labels.Nodup
  stem : ∀ label ∈ labels, IcLir.stem label ∈ stemsOf names

/-- Labels with different stems are different. -/
theorem Stemmed.append {names names' labels labels' : List String} (h : Stemmed names labels)
    (h' : Stemmed names' labels') (hdisjoint : ∀ s ∈ stemsOf names, s ∉ stemsOf names') :
    Stemmed (names ++ names') (labels ++ labels') where
  nodup := by
    rw [List.nodup_append]
    refine ⟨h.nodup, h'.nodup, fun x hx y hy heq => ?_⟩
    exact hdisjoint _ (h.stem x hx) (heq ▸ h'.stem y hy)
  stem label hlabel := by
    rw [stemsOf, List.map_append, List.mem_append]
    rcases List.mem_append.mp hlabel with hlabel | hlabel
    · exact .inl (h.stem label hlabel)
    · exact .inr (h'.stem label hlabel)

theorem stem_tableLabel (name : String) : stem (ClassLayout.tableLabel name) ∈ stemsOf ["DV"] := by
  have hlabel : ClassLayout.tableLabel name = "_DV_" ++ name := rfl
  rw [hlabel, stem_append (by decide)]
  decide

theorem stemmed_guardLabels : Stemmed [""] (Guard.all.flatMap fun g => g.code.labels) :=
  ⟨by decide, by decide⟩

theorem stem_of_mem_names {l : LabelSet} {label : String} (h : label ∈ l.names) :
    stem label ∈ stemsOf ["true", "false", "end", "while"] := by
  obtain ⟨a, ha, rfl⟩ := List.mem_map.mp h
  have hall : ∀ a ∈ LabelSet.stems, '_' ∈ a.toList.drop 1 ∧
      stem a ∈ stemsOf ["true", "false", "end", "while"] := by decide
  rw [stem_append (hall a ha).1]
  exact (hall a ha).2

theorem stemmed_ends : Stemmed ["ic", "error"] [Routine.entryLabel, Guard.exitLabel] :=
  ⟨by decide, by decide⟩

/-! ## Strings -/

theorem toList_label (i : Nat) :
    (StringPool.label i).toList = 's' :: 't' :: 'r' :: Nat.toDigits 10 i := by
  have hlabel : StringPool.label i = "str" ++ toString i := rfl
  simp [hlabel]

theorem underscore_not_mem_label (i : Nat) : '_' ∉ (StringPool.label i).toList := by
  rw [toList_label]
  intro h
  simp only [List.mem_cons] at h
  rcases h with h | h | h | h
  · simp at h
  · simp at h
  · simp at h
  · exact absurd (Nat.isDigit_of_mem_toDigits (by decide) (by decide) h) (by decide)

/-- The labels of the strings of a program. -/
def stringLabels (n : Nat) : List String :=
  Guard.all.map Guard.messageLabel ++ (List.range n).map StringPool.label

theorem nodup_stringLabels (n : Nat) : (stringLabels n).Nodup := by
  unfold stringLabels
  rw [List.nodup_append]
  refine ⟨by decide, ?_, ?_⟩
  · refine List.Pairwise.map _ (fun i j hne heq => hne ?_) List.nodup_range
    exact Nat.repr_inj.mp ((String.append_right_inj _).mp heq)
  · intro x hx y hy heq
    subst heq
    have hguards : ∀ x ∈ Guard.all.map Guard.messageLabel, '_' ∈ x.toList := by decide
    obtain ⟨i, _, rfl⟩ := List.mem_map.mp hy
    exact underscore_not_mem_label i (hguards _ hx)

theorem head_of_mem_stringLabels {n : Nat} {label : String} (h : label ∈ stringLabels n) :
    label.toList.head? = some 's' := by
  rcases List.mem_append.mp h with h | h
  · have hguards : ∀ x ∈ Guard.all.map Guard.messageLabel, x.toList.head? = some 's' := by decide
    exact hguards label h
  · obtain ⟨i, _, rfl⟩ := List.mem_map.mp h
    rw [toList_label]
    rfl

/-- No label with a stem is that of a string. -/
theorem ne_of_mem_stringLabels {n : Nat} {label label' : String} (h : label ∈ stringLabels n)
    {names : List String} (h' : stem label' ∈ stemsOf names) : label ≠ label' := by
  rintro rfl
  obtain ⟨name, _, hstem⟩ := List.mem_map.mp h'
  have hhead := head_of_mem_stringLabels h
  unfold stem at hstem
  cases hl : label.toList with
  | nil => simp [hl] at hhead
  | cons x l => simp_all

/-! ## The labels of a program -/

/-- The labels of tables, guards, control flow, entry method and end. -/
def Assembly.madeUp (a : Assembly) : List String :=
  a.tables.map (·.label) ++ (Guard.all.flatMap (fun g => g.code.labels) ++
    (a.routines.flatMap (fun r => r.body.labels) ++ [a.main.label, Guard.exitLabel]))

/-- All labels but those of the methods that are called by class and name. -/
def Assembly.reserved (a : Assembly) : List String := stringLabels a.strings.size ++ a.madeUp

/-- The label of a routine stands before those of its body. -/
theorem Routine.count_labels (rs : List Routine) (label : String) :
    (rs.flatMap fun r => r.code.labels).count label =
      (rs.map (·.label)).count label + (rs.flatMap fun r => r.body.labels).count label := by
  induction rs with
  | nil => rfl
  | cons r rs ih =>
    have hr : r.code.labels = r.label :: r.body.labels := rfl
    rw [List.flatMap_cons, List.flatMap_cons, List.map_cons, List.count_append,
      List.count_append, ih, hr, List.count_cons, List.count_cons]
    omega

theorem Assembly.labels_perm (a : Assembly) :
    a.labels.Perm (a.methods.map (·.label) ++ a.reserved) := by
  refine List.perm_iff_count.mpr fun label => ?_
  simp only [labels_eq, code_eq, reserved, madeUp, stringLabels, Code.labels_append,
    Code.labels_flatMap, List.count_append, Routine.count_labels, routines, List.map_append,
    List.map_cons, List.map_nil, List.count_cons, List.count_nil, Code.labels_label,
    Code.labels_nil]
  omega

variable {p : Program} {c : Context} {strategy : Strategy} {a : Assembly}

theorem Lowering.LoweredMethod.issues {e : ClassDecl × MethodDecl} {s s' : Supply} {r : Routine}
    (h : LoweredMethod c strategy e s r s') : s.Issues s' r.body.labels := by
  obtain ⟨_, _, code, _, _, hcode, hbody⟩ := h.body
  have hreturn : Code.labels (if needsReturn e.2 then [Code.returnNothing] else []) = [] := by
    split <;> rfl
  rw [hbody, Code.labels_append, hreturn, List.append_nil]
  exact hcode.issues

theorem Lowering.LoweredMethods.issues {es : List (ClassDecl × MethodDecl)} {s s' : Supply}
    {rs : List (Bool × Routine)} (h : LoweredMethods c strategy es s rs s') :
    s.Issues s' (rs.flatMap fun r => r.2.body.labels) := by
  induction h with
  | nil => exact .refl _
  | cons hm _ ih => exact hm.issues.append ih

/-- The control labels of a program are distinct. -/
theorem Lowering.Assembled.exists_issues (h : Assembled c strategy p a) :
    ∃ s : Supply, Supply.initial.Issues s (a.routines.flatMap fun r => r.body.labels) := by
  obtain ⟨rs, s, hrs, _, hperm⟩ := h.exists_perm
  refine ⟨s, hrs.issues.perm ?_⟩
  have hflat := hperm.flatMap_right fun r => r.body.labels
  rwa [List.flatMap_map] at hflat

/-- The methods that are called by class and name. -/
def Lowering.named (c : Context) (p : Program) : List (ClassDecl × MethodDecl) :=
  (emitted p).filter fun e => !c.isEntry e.2

theorem Lowering.Assembled.map_label_methods (h : Assembled c strategy p a) :
    a.methods.map (·.label) =
      (named c p).map fun e => methodLabel e.1.name.name e.2.name.name := by
  obtain ⟨rs, s, hrs, _, hmethods, _⟩ := h.routines
  have hlabels := congrArg (fun l => (l.filter fun x => !x.1).map Prod.snd) hrs.map_label
  simp only [List.filter_map, List.map_map, Function.comp_def] at hlabels
  rw [hmethods, List.map_map]
  refine hlabels.trans (List.map_congr_left fun e he => ?_)
  have hentry := (List.mem_filter.mp he).2
  rw [routineLabel, if_neg (by simpa using hentry)]

theorem Lowering.Assembled.label_main (h : Assembled c strategy p a) :
    a.main.label = Routine.entryLabel := by
  obtain ⟨rs, s, hrs, _, _, hmain⟩ := h.routines
  have hmem : (true, a.main) ∈ rs.filter Prod.fst := by
    rw [hmain]
    exact List.mem_singleton_self _
  obtain ⟨e, _, hentry, _, _, hlowered⟩ := hrs.exists_of_mem (List.mem_filter.mp hmem).1
  rw [hlowered.label, routineLabel, if_pos hentry.symm]

/-! ## When they are distinct -/

theorem Lowering.Assembled.nodup_tables (ha : Assembled c strategy p a) (h : c.Accepts p) :
    (a.tables.map (·.label)).Nodup := by
  have hnames : (p.classes.map fun k => ClassLayout.tableLabel k.name.name).Nodup := by
    refine List.pairwise_map.mpr (List.pairwise_iff_getElem.mpr fun i j hi hj hlt heq => ?_)
    have hname := (String.append_right_inj _).mp heq
    exact Nat.ne_of_lt hlt (h.defined.table.index_unique (List.getElem?_eq_getElem hi)
      (List.getElem?_eq_getElem hj) hname)
  rw [ha.tables]
  exact hnames.sublist (List.filter_sublist.map _)

theorem Lowering.Assembled.stemmed_madeUp (ha : Assembled c strategy p a) (h : c.Accepts p) :
    Stemmed reservedNames a.madeUp := by
  obtain ⟨s, hissues⟩ := ha.exists_issues
  have htables : Stemmed ["DV"] (a.tables.map (·.label)) := by
    refine ⟨ha.nodup_tables h, ?_⟩
    rw [ha.tables]
    intro label hlabel
    obtain ⟨k, _, rfl⟩ := List.mem_map.mp hlabel
    exact stem_tableLabel _
  have hcontrol : Stemmed ["true", "false", "end", "while"]
      (a.routines.flatMap fun r => r.body.labels) := by
    refine ⟨hissues.nodup, fun label hlabel => ?_⟩
    obtain ⟨l, hl, _, _⟩ := hissues.number label hlabel
    exact stem_of_mem_names hl
  unfold Assembly.madeUp
  rw [ha.label_main]
  exact htables.append (stemmed_guardLabels.append (hcontrol.append stemmed_ends (by decide))
    (by decide)) (by decide)

/-- The labels that are made up are distinct, whatever the names in the program. -/
theorem Lowering.Assembled.nodup_reserved (ha : Assembled c strategy p a) (h : c.Accepts p) :
    a.reserved.Nodup := by
  have hmadeUp := ha.stemmed_madeUp h
  unfold Assembly.reserved
  rw [List.nodup_append]
  exact ⟨nodup_stringLabels _, hmadeUp.nodup, fun x hx y hy =>
    ne_of_mem_stringLabels hx (hmadeUp.stem y hy)⟩

theorem nodup_emitted (hp : p.DistinctNodes) : (emitted p).Nodup := by
  have hids : ((emitted p).map fun e => e.2.id).Nodup := by
    have heq : (emitted p).map (fun e => e.2.id) =
        ((lowered p).flatMap bodies).map MethodDecl.id := by
      simp [emitted, List.map_flatMap, Function.comp_def]
    rw [heq]
    exact hp.methods.sublist ((bodies_sublist p).map MethodDecl.id)
  exact List.Pairwise.of_map _ (fun e e' hne heq => hne (by rw [heq])) hids

/-- A method is known by its name and that of its class. -/
theorem Context.Accepts.eq_of_names_eq (h : c.Accepts p) {e e' : ClassDecl × MethodDecl}
    (he : e ∈ emitted p) (he' : e' ∈ emitted p) (hclass : e.1.name.name = e'.1.name.name)
    (hmethod : e.2.name.name = e'.2.name.name) : e = e' := by
  obtain ⟨hk, hm, _⟩ := mem_emitted.mp he
  obtain ⟨hk', hm', _⟩ := mem_emitted.mp he'
  obtain ⟨i, hi⟩ := List.mem_iff_getElem?.mp hk
  obtain ⟨j, hj⟩ := List.mem_iff_getElem?.mp hk'
  obtain rfl := h.defined.table.index_unique hi hj hclass
  have howner : e.1 = e'.1 := Option.some.inj (hi.symm.trans hj)
  obtain ⟨_, _, hof⟩ := h.defined.classOf i e.1 hi
  have hfound := hof.members.method?_eq hm
  have hfound' := hof.members.method?_eq (howner ▸ hm')
  rw [hmethod, hfound'] at hfound
  exact Prod.ext howner (Option.some.inj hfound).symm

/-- No two methods share a label exactly if no label can be cut in two places. -/
theorem nodup_map_methodLabel_iff (hp : p.DistinctNodes) (h : c.Accepts p) :
    ((named c p).map fun e => methodLabel e.1.name.name e.2.name.name).Nodup ↔
      ∀ e ∈ named c p, ∀ e' ∈ named c p,
        ¬ SplitsLater e.1.name.name e.2.name.name e'.1.name.name e'.2.name.name := by
  have hmem : ∀ e ∈ named c p, e ∈ emitted p := fun e he => (List.mem_filter.mp he).1
  constructor
  · intro hnodup e he e' he' hsplits
    obtain rfl := List.inj_on_of_nodup_map hnodup he he' (methodLabel_of_splitsLater hsplits)
    -- a class name does not start with itself and an underscore
    obtain ⟨t, hclass, _⟩ := hsplits
    have hlength := congrArg String.length hclass
    rw [String.length_append, String.length_append] at hlength
    have hone : "_".length = 1 := rfl
    omega
  · intro hsplits
    have hnodup : (named c p).Nodup := (nodup_emitted hp).sublist List.filter_sublist
    refine List.pairwise_map.mpr (hnodup.imp_of_mem fun he he' hne hlabel => hne ?_)
    rcases methodLabel_eq_iff.mp hlabel with ⟨hclass, hmethod⟩ | hlater | hlater
    · exact h.eq_of_names_eq (hmem _ he) (hmem _ he') hclass hmethod
    · exact absurd hlater (hsplits _ he _ he')
    · exact absurd hlater (hsplits _ he' _ he)

theorem Lowering.Assembled.nodup_labels_iff (ha : Assembled c strategy p a)
    (hp : p.DistinctNodes) (h : c.Accepts p) :
    a.labels.Nodup ↔
      (∀ e ∈ named c p, ∀ e' ∈ named c p,
        ¬ SplitsLater e.1.name.name e.2.name.name e'.1.name.name e'.2.name.name) ∧
      ∀ e ∈ named c p, methodLabel e.1.name.name e.2.name.name ∉ a.reserved := by
  rw [a.labels_perm.nodup_iff, List.nodup_append, ha.map_label_methods,
    nodup_map_methodLabel_iff hp h]
  constructor
  · intro hnodup
    obtain ⟨hsplits, _, hapart⟩ := hnodup
    refine ⟨hsplits, fun e he hreserved => ?_⟩
    exact hapart _ (List.mem_map.mpr ⟨e, he, rfl⟩) _ hreserved rfl
  · intro hapart
    obtain ⟨hsplits, hreserved⟩ := hapart
    refine ⟨hsplits, ha.nodup_reserved h, fun x hx y hy heq => ?_⟩
    obtain ⟨e, he, rfl⟩ := List.mem_map.mp hx
    exact hreserved e he (heq ▸ hy)

/-- A class name without underscores that is not reserved keeps a label apart from those that are
    made up. -/
theorem Lowering.Assembled.methodLabel_not_mem (ha : Assembled c strategy p a) (h : c.Accepts p)
    {className : String} (hclass : '_' ∉ className.toList) (hname : className ∉ reservedNames)
    (method : String) : methodLabel className method ∉ a.reserved := by
  intro hmem
  have hstem := stem_methodLabel hclass method
  rcases List.mem_append.mp hmem with hmem | hmem
  · have hown : stem (methodLabel className method) ∈ stemsOf [className] := by
      rw [hstem]
      exact List.mem_singleton_self _
    exact ne_of_mem_stringLabels hmem hown rfl
  · have hreserved := (ha.stemmed_madeUp h).stem _ hmem
    rw [hstem] at hreserved
    obtain ⟨name, hmem', heq⟩ := List.mem_map.mp hreserved
    exact hname (String.toList_inj.mp (List.cons.inj heq).2 ▸ hmem')

theorem not_splitsLater {className className' : String} (h : '_' ∉ className'.toList)
    (method method' : String) : ¬ SplitsLater className method className' method' := by
  intro hsplits
  obtain ⟨t, rfl, _⟩ := hsplits
  simp at h

/-- No label is defined twice in the text of a program exactly if no two of its methods have names
    that run together to one label and none has a label that is made up. Class names without
    underscores, and not reserved, are enough. -/
theorem labels_are_distinct_iff {p : Program} (hp : p.DistinctNodes) {options : Options}
    {r : Compilation} (h : compile options p = .ok r) :
    ∃ c a, analyzed options p = .ok c ∧ c.generate options.strategy p = .ok a ∧
      r.lir = String.join (a.parts.map Part.text) ∧
      (∀ part ∈ a.parts, ∀ label, part.label? = some label →
        ∃ rest, part.text = label ++ ":" ++ rest) ∧
      (a.labels.Nodup ↔
        (∀ e ∈ named c p, ∀ e' ∈ named c p,
          ¬ SplitsLater e.1.name.name e.2.name.name e'.1.name.name e'.2.name.name) ∧
        ∀ e ∈ named c p, methodLabel e.1.name.name e.2.name.name ∉ a.reserved) ∧
      ((∀ e ∈ named c p, '_' ∉ e.1.name.name.toList ∧ e.1.name.name ∉ reservedNames) →
        a.labels.Nodup) := by
  obtain ⟨c, a, hc, hgenerate, hlir⟩ := exists_generate_of_compile h
  have haccepts := accepts_of_analyzed hp hc
  have ha := haccepts.assembled hp hgenerate
  have hiff := ha.nodup_labels_iff hp haccepts
  refine ⟨c, a, hc, hgenerate, hlir.trans a.render_eq, fun _ _ _ => Part.exists_text_eq, hiff,
    fun hnames => hiff.mpr ⟨fun e _ e' he' => not_splitsLater (hnames e' he').1 _ _,
      fun e he => ha.methodLabel_not_mem haccepts (hnames e he).1 (hnames e he).2 _⟩⟩

/-- The class names of `Shapes` have no underscores. -/
theorem labels_are_distinct_iff_shapes :
    ∃ r c a, compile {} Shapes.program = .ok r ∧ analyzed {} Shapes.program = .ok c ∧
      c.generate .baseline Shapes.program = .ok a ∧ "_Shape_area" ∈ a.labels ∧
      a.labels.Nodup := by
  have harea : (assembled? {} Shapes.program).any (fun x =>
      decide ("_Shape_area" ∈ x.2.labels)) = true := by
    decide +kernel
  obtain ⟨r, c, a, hr, hc, ha, _, harea⟩ := exists_compile_of_any harea
  obtain ⟨c', a', hc', ha', _, _, _, hnodup⟩ := labels_are_distinct_iff Shapes.distinctNodes hr
  obtain ⟨rfl, rfl⟩ := assembled_unique hc ha hc' ha'
  have hnames : ∀ k ∈ Shapes.program.classes,
      '_' ∉ k.name.name.toList ∧ k.name.name ∉ reservedNames := by decide
  refine ⟨r, c, a, hr, hc, ha, of_decide_eq_true harea, hnodup fun e he => ?_⟩
  exact hnames e.1 (mem_emitted.mp (List.mem_filter.mp he).1).1

namespace Merging

open Shapes

/-- A static method that returns a number. -/
def constant (id : Nat) (x : String) (value : Int) : MethodDecl where
  id := id
  kind := .static
  returnType := type .int
  name := name x
  params := []
  body := [.ret (node id) (some (.literal (node id) (.int value)))]

/-- `static void main(string[] args) { }` -/
def main : MethodDecl := mainOf 2 []

/-- A program with the methods `A.b_c` and `A_b.c`. -/
def program : Program :=
  ⟨[⟨name "A", none, [], [constant 0 "b_c" 1]⟩, ⟨name "A_b", none, [], [constant 1 "c" 2]⟩,
    ⟨name "Main", none, [], [main]⟩]⟩

end Merging

/-- Both methods have the label `_A_b_c`. -/
theorem merged_names_share_a_label :
    ∃ r c a, compile {} Merging.program = .ok r ∧ analyzed {} Merging.program = .ok c ∧
      c.generate .baseline Merging.program = .ok a ∧
      r.lir = String.join (a.parts.map Part.text) ∧ a.labels.count "_A_b_c" = 2 ∧
      ¬ a.labels.Nodup := by
  have hlabels : (assembled? {} Merging.program).any (fun x =>
      decide (x.2.labels.count "_A_b_c" = 2)) = true := by
    decide +kernel
  obtain ⟨r, c, a, hr, hc, ha, hlir, hlabels⟩ := exists_compile_of_any hlabels
  have htwo : a.labels.count "_A_b_c" = 2 := of_decide_eq_true hlabels
  refine ⟨r, c, a, hr, hc, ha, hlir.trans a.render_eq, htwo, fun hnodup => ?_⟩
  have hle := List.nodup_iff_count.mp hnodup "_A_b_c"
  omega

end IcLir
