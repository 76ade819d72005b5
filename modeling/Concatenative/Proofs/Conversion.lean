import Concatenative.Proofs.Optimizing

/-! Which programs have a point-free form. Conversion goes through the definitions in order, and in
each through the words of the body, at any depth of quotation and from left to right. It fails at
the first word that stands for a parameter out of reach; by then the definitions before are
converted, and nothing else has changed. -/

namespace Concatenative

namespace Definition

/-- A word of the body stands for a parameter, the first of its name, that is too far along to be
copied out of the list of arguments. The list itself is always at hand. -/
def OutOfReach (d : Definition) (name : String) (index : Nat) : Prop :=
  name ≠ argsName ∧ d.parameters.idxOf? name = some index ∧ 10 ≤ index

/-- The failure that a word of the body leads to. -/
def outOfReach? (d : Definition) (name : String) : Option UnsupportedArity :=
  if name = argsName then none
  else match d.parameters.idxOf? name with
    | none => none
    | some index => if index < 10 then none else some ⟨d.name, name, index⟩

variable {d d' : Definition} {e : UnsupportedArity}

theorem outOfReach?_eq_some_iff {name : String} : d.outOfReach? name = some e ↔
    e.definition = d.name ∧ e.parameter = name ∧ d.OutOfReach name e.index := by
  obtain ⟨definition, parameter, index⟩ := e
  unfold outOfReach? OutOfReach
  by_cases hargs : name = argsName
  · simp [hargs]
  · cases hindex : d.parameters.idxOf? name with
    | none => simp [hargs]
    | some i =>
      simp only [hargs, if_false, Option.ite_none_left_eq_some, Option.some.injEq,
        UnsupportedArity.mk.injEq, Nat.not_lt, ne_eq, not_false_eq_true, true_and]
      constructor
      · rintro ⟨hi, rfl, rfl, rfl⟩
        exact ⟨rfl, rfl, rfl, hi⟩
      · rintro ⟨rfl, rfl, rfl, hi⟩
        exact ⟨hi, rfl, rfl, rfl⟩

theorem outOfReach?_eq_none_iff {name : String} :
    d.outOfReach? name = none ↔ ∀ index, ¬d.OutOfReach name index := by
  rw [Option.eq_none_iff_forall_ne_some]
  constructor
  · exact fun h index hout => h ⟨d.name, name, index⟩ (outOfReach?_eq_some_iff.mpr ⟨rfl, rfl, hout⟩)
  · exact fun h e he => h e.index (outOfReach?_eq_some_iff.mp he).2.2

end Definition

section OnArguments

variable (d : Definition)

mutual

theorem Term.onArguments_eq_error_iff : ∀ (t : Term) {e : UnsupportedArity},
    Term.onArguments d.name d.parameters t = .error e ↔
      t.words.findSome? d.outOfReach? = some e
  | .literal l, e => by simp [Term.onArguments, Term.words]
  | .word name, e => by
    simp only [Term.words, List.findSome?_singleton]
    unfold Term.onArguments Definition.outOfReach?
    by_cases hargs : name = argsName
    · simp [hargs]
    · cases hindex : d.parameters.idxOf? name with
      | none => simp [hargs]
      | some i => by_cases hi : i < 10 <;> simp [hargs, hi]
  | .quotation body, e => by
    rw [Term.words, ← Code.onArguments_eq_error_iff body, Term.onArguments]
    cases Code.onArguments d.name d.parameters body <;> simp

/-- A sequence of terms cannot be converted exactly if one of its words is out of reach, and the
first of them is the one that is named. -/
theorem Code.onArguments_eq_error_iff : ∀ (c : Code) {e : UnsupportedArity},
    Code.onArguments d.name d.parameters c = .error e ↔
      c.words.findSome? d.outOfReach? = some e
  | [], e => by simp [Code.onArguments, Code.words]
  | t :: ts, e => by
    rw [Code.words, List.findSome?_append, Code.onArguments]
    cases hhead : Term.onArguments d.name d.parameters t with
    | error e' => simp [(Term.onArguments_eq_error_iff t).mp hhead]
    | ok code =>
      have hnone : t.words.findSome? d.outOfReach? = none := by
        rw [Option.eq_none_iff_forall_ne_some]
        intro e' he'
        rw [(Term.onArguments_eq_error_iff t).mpr he'] at hhead
        cases hhead
      rw [hnone, Option.none_or, ← Code.onArguments_eq_error_iff ts]
      cases Code.onArguments d.name d.parameters ts <;> simp

end

end OnArguments

namespace Definition

variable {d : Definition} {e : UnsupportedArity}

theorem pointFree_eq_error_iff :
    d.pointFree = .error e ↔ d.body.words.findSome? d.outOfReach? = some e := by
  unfold pointFree
  split
  · next hfree =>
    have hnone : ∀ name, d.outOfReach? name = none := by
      intro name
      rw [outOfReach?_eq_none_iff]
      rintro index ⟨-, hindex, -⟩
      simp [List.isEmpty_iff.mp hfree] at hindex
    rw [List.findSome?_eq_none_iff.mpr fun name _ => hnone name]
    simp
  · rw [← Code.onArguments_eq_error_iff]
    cases Code.onArguments d.name d.parameters d.body <;> simp

/-- No word of the body is out of reach. -/
def WithinReach (d : Definition) : Prop :=
  ∀ name ∈ d.body.words, ∀ index, ¬d.OutOfReach name index

/-- The failure names the definition, and the first word of its body that is out of reach. -/
structure FirstOutOfReach (d : Definition) (e : UnsupportedArity) : Prop where
  definition : e.definition = d.name
  outOfReach : d.OutOfReach e.parameter e.index
  first : ∃ left right, d.body.words = left ++ e.parameter :: right ∧
    ∀ name ∈ left, ∀ index, ¬d.OutOfReach name index

theorem firstOutOfReach_of_pointFree (h : d.pointFree = .error e) : d.FirstOutOfReach e := by
  obtain ⟨left, name, right, hwords, hname, hleft⟩ :=
    List.findSome?_eq_some_iff.mp (pointFree_eq_error_iff.mp h)
  obtain ⟨hdefinition, rfl, hout⟩ := outOfReach?_eq_some_iff.mp hname
  exact ⟨hdefinition, hout, left, right, hwords,
    fun name hname => outOfReach?_eq_none_iff.mp (hleft name hname)⟩

theorem withinReach_of_pointFree {d' : Definition} (h : d.pointFree = .ok d') : d.WithinReach := by
  intro name hname
  rw [← outOfReach?_eq_none_iff]
  by_contra hsome
  obtain ⟨e, he⟩ := Option.isSome_iff_exists.mp
    (List.findSome?_isSome_iff.mpr ⟨name, hname, Option.isSome_iff_ne_none.mpr hsome⟩)
  rw [pointFree_eq_error_iff.mpr he] at h
  cases h

end Definition

namespace Program

/-- Conversion goes through to the end, or it stops at a definition that has no point-free form. -/
theorem convert_cases (settings : Settings) (p : Program) :
    (∃ p', p.Converted p' ∧ (p.convert settings).value = (p', none)) ∨
    ∃ (before : Program) (d : Definition) (after before' : Program) (e : UnsupportedArity),
      p = before ++ d :: after ∧ before.Converted before' ∧
      d.pointFree = .error e ∧ (p.convert settings).value = (before' ++ d :: after, some e) := by
  induction p with
  | nil => exact .inl ⟨[], .nil, rfl⟩
  | cons d p ih =>
    cases hd : d.pointFree with
    | error e =>
      refine .inr ⟨[], d, p, [], e, rfl, .nil, hd, ?_⟩
      simp only [convert, bind, Logged.bind, Definition.convert, hd]
      rfl
    | ok d' =>
      rcases ih with ⟨p', hp', hvalue⟩ | ⟨before, f, after, before', e, rfl, hbefore, hf, hvalue⟩
      · exact .inl ⟨d' :: p', .cons hd hp', Converted.convert (.cons hd hp') settings⟩
      · refine .inr ⟨d :: before, f, after, d' :: before', e, rfl, .cons hd hbefore, hf, ?_⟩
        simp only [convert, bind, Logged.bind, Definition.convert, hd, hvalue]
        rfl

theorem Converted.isPointFree {p p' : Program} (h : p.Converted p') : p'.isPointFree = true := by
  induction h with
  | nil => rfl
  | cons hd _ ih => exact Bool.and_eq_true_iff.mpr ⟨Definition.isPointFree_of_pointFree hd, ih⟩

theorem Converted.withinReach {p p' : Program} (h : p.Converted p') : ∀ d ∈ p, d.WithinReach := by
  induction h with
  | nil => simp
  | cons hd _ ih => exact List.forall_mem_cons.mpr ⟨Definition.withinReach_of_pointFree hd, ih⟩

theorem Converted.unchanged {p p' : Program} (h : p.Converted p') :
    List.Forall₂ (fun d d' => d.parameters = [] → d' = d) p p' := by
  refine List.Forall₂.imp (fun d d' hd hparameters => ?_) h
  have hfree : d.isPointFree = true := List.isEmpty_iff.mpr hparameters
  rw [Definition.pointFree_of_isPointFree hfree] at hd
  exact (Except.ok.inj hd).symm

/-- Conversion of a program in point-free form changes nothing and reports nothing. -/
theorem convert_of_isPointFree {p : Program} (h : p.isPointFree = true) (settings : Settings) :
    p.convert settings = ⟨(p, none), []⟩ := by
  induction p with
  | nil => rfl
  | cons d p ih =>
    obtain ⟨hd, hp⟩ := Bool.and_eq_true_iff.mp h
    have hconvert : d.convert settings = ⟨.ok d, []⟩ := by
      simp [Definition.convert, Definition.pointFree_of_isPointFree hd, hd]
    simp only [convert, bind, Logged.bind, hconvert, ih hp]
    rfl

/-- Conversion fails exactly if some definition has a word that is out of reach. The failure is that
of the first such definition; those before it are converted by then, and it and those after it are
unchanged. Otherwise all are converted: none has parameters any more, those that had none are
unchanged, and there is nothing left to convert. -/
theorem convert_outcome (settings : Settings) (p : Program) :
    ((p.convert settings).value.2.isSome ↔
      ∃ d ∈ p, ∃ name ∈ d.body.words, ∃ index, d.OutOfReach name index) ∧
    (∀ e, (p.convert settings).value.2 = some e →
      ∃ (before : Program) (d : Definition) (after before' : Program), p = before ++ d :: after ∧
        (∀ d' ∈ before, d'.WithinReach) ∧ d.FirstOutOfReach e ∧
        (p.convert settings).value.1 = before' ++ d :: after ∧
        before.Converted before' ∧ before'.isPointFree = true) ∧
    ((p.convert settings).value.2 = none →
      p.Converted (p.convert settings).value.1 ∧
      (p.convert settings).value.1.isPointFree = true ∧
      List.Forall₂ (fun d d' => d.parameters = [] → d' = d) p (p.convert settings).value.1 ∧
      ∀ settings', (p.convert settings).value.1.convert settings' =
        ⟨((p.convert settings).value.1, none), []⟩) := by
  rcases convert_cases settings p with
    ⟨p', hp', hvalue⟩ | ⟨before, d, after, before', e, hp, hbefore, hd, hvalue⟩
  · rw [hvalue]
    refine ⟨iff_of_false (by simp) ?_, by simp, fun _ => ?_⟩
    · rintro ⟨d, hd, name, hname, index, hout⟩
      exact hp'.withinReach d hd name hname index hout
    · exact ⟨hp', hp'.isPointFree, hp'.unchanged, convert_of_isPointFree hp'.isPointFree⟩
  · have hfirst := Definition.firstOutOfReach_of_pointFree hd
    rw [hvalue]
    refine ⟨iff_of_true rfl ?_, ?_, by simp⟩
    · obtain ⟨left, right, hwords, -⟩ := hfirst.first
      exact ⟨d, by simp [hp], e.parameter, by simp [hwords], e.index, hfirst.outOfReach⟩
    · rintro _ ⟨⟩
      exact ⟨before, d, after, before', hp, hbefore.withinReach, hfirst, rfl, hbefore,
        hbefore.isPointFree⟩

/-- Two of the words of `wide` are out of reach, the first of them in a quotation. A parameter named
`args` is hidden by the list, and the second `p0` by the first. -/
def overreaching : Program :=
  [⟨"twice", [], [Primitive.dup.term]⟩, ⟨"second", ["x", "y"], [.word "y"]⟩,
    ⟨"wide", ["p0", "p1", "p2", "p3", "p4", "p5", "p6", "p7", "p8", "p9", "p0", "args", "p12", "p13"],
      [.word "p0", .word "args", .quotation [.word "p9", .quotation [.word "p13"]], .word "p12"]⟩,
    ⟨"first", ["x", "y"], [.word "x"]⟩]

theorem convert_outcome_overreaching :
    (overreaching.convert {}).value.2 = some ⟨"wide", "p13", 13⟩ ∧
    ∃ (before : Program) (d : Definition) (after before' : Program),
      overreaching = before ++ d :: after ∧ d.FirstOutOfReach ⟨"wide", "p13", 13⟩ ∧
      (overreaching.convert {}).value.1 = before' ++ d :: after ∧ before'.isPointFree = true := by
  have hfails : (overreaching.convert {}).value.2 = some ⟨"wide", "p13", 13⟩ := by decide
  obtain ⟨-, hstopped, -⟩ := convert_outcome {} overreaching
  obtain ⟨before, d, after, before', hp, -, hfirst, hvalue, -, hfree⟩ := hstopped _ hfails
  exact ⟨hfails, before, d, after, before', hp, hfirst, hvalue, hfree⟩

end Program

end Concatenative
