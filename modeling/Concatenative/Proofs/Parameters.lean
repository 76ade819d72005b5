import Concatenative.Program.PointFree
import Concatenative.Proofs.Laws
import Mathlib.Data.List.FinRange

/-! Point-free form implements named parameters. A body with arguments put in place of the names of
its parameters is a block, and the converted body, run on those arguments, rewrites to that block:
the arguments are gathered into a list, and from there on the list travels to the right of what each
term does. -/

namespace Concatenative

/-- Arguments with the names of their parameters. A name that is repeated means the first of them.
-/
abbrev Arguments := List (String × Value)

mutual

/-- What a term of a definition's body does under arguments: the name of a parameter pushes its
argument, `args` pushes the list of them all, and a quotation pushes one that is later run under the
same arguments. -/
def Term.under (arguments : Arguments) : Term → Instruction
  | .literal l => .run (.literal l)
  | .word name =>
    if name = argsName then .push (.list (arguments.map Prod.snd))
    else match arguments.lookup name with
      | some v => .push v
      | none => .run (.word name)
  | .quotation body => .push (.quotation (Code.under arguments body))

def Code.under (arguments : Arguments) : Code → Block
  | [] => []
  | t :: ts => Term.under arguments t :: Code.under arguments ts

end

/-- The built-in words that point-free form relies on. -/
def Primitive.forArguments : List Primitive :=
  [.argList, .swons, .embedArgs, .dip, .dup, .pop] ++ (List.finRange 10).map .arg

theorem lookup_zip {parameters : List String} {values : List Value}
    (h : values.length = parameters.length) (name : String) :
    (parameters.zip values).lookup name = (parameters.idxOf? name).bind (values[·]?) := by
  induction parameters generalizing values with
  | nil => rfl
  | cons parameter parameters ih =>
    obtain ⟨v, values, rfl⟩ := List.exists_cons_of_length_eq_add_one h
    rw [List.zip_cons_cons, List.lookup_cons, List.idxOf?_cons, ih (by simpa using h)]
    by_cases hname : name = parameter
    · simp [hname]
    · rw [beq_false_of_ne hname, beq_false_of_ne (Ne.symm hname)]
      simp [Option.bind_map]

theorem Definition.pointFree_eq_ok {d d' : Definition} (h : d.pointFree = .ok d')
    (hparameters : d.parameters ≠ []) :
    ∃ code, Code.onArguments d.name d.parameters d.body = .ok code ∧
      d'.body = gatherArguments d.parameters ++ code := by
  rw [pointFree, if_neg (by simpa [isPointFree] using hparameters)] at h
  split at h
  · cases h
  · next code hcode =>
    cases h
    exact ⟨code, hcode, rfl⟩

namespace Machine

variable {m : Machine} {definition : String} {parameters : List String} {values : List Value}

/-- A built-in word evaluates where its arguments have been pushed. -/
theorem rewritten_builtin {p : Primitive} (h : m.body? p.name = none) (vs : List Value)
    {out : Stack} (hexec : p.exec .pure (m.invoke .pure 0) vs.reverse = ⟨.ok (), out, [], []⟩) :
    Block.Rewritten m.Law (vs.map .push ++ [.run p.term]) (out.reverse.map .push) := by
  have hrun : (m.runBlock .pure 0 (vs.map .push ++ [.run p.term]) []).untraced =
      ⟨.ok (), out, [], []⟩ := by
    rw [runBlock_pushes_append, List.append_nil, runBlock_builtin h, runBlock_nil, bind_pure_unit,
      hexec]
    rfl
  have hstack : (m.runBlock .pure 0 (vs.map .push ++ [.run p.term]) []).stack = out :=
    congrArg Outcome.stack hrun
  rw [← hstack]
  exact .of_rule (.evaluate (congrArg Outcome.result hrun))

/-- What runs below a list may run before the list is pushed. -/
theorem rewritten_dipped (h : m.body? Primitive.dip.name = none) (v : Value) (t : Term) :
    Block.Rewritten m.Law (.push v :: Block.ofCode t.dipped) [.run t, .push v] := by
  refine .trans ?_ (.of_rule (.undip v [.run t] h))
  exact .pushed rfl rfl (Value.rewritten_refl v)
    (.pushed rfl rfl (Value.rewritten_refl _) (Block.rewritten_refl _))

theorem swons_rewritten (h : m.body? Primitive.swons.name = none) (vs items : List Value) :
    Block.Rewritten m.Law
      (vs.reverse.map .push ++ .push (.list items) ::
        List.replicate vs.length (.run Primitive.swons.term))
      [.push (.list (vs.reverse ++ items))] := by
  induction vs generalizing items with
  | nil => exact Block.rewritten_refl _
  | cons v vs ih =>
    have hswons := rewritten_builtin (p := .swons) h [v, .list items] rfl
    have hrest := ih (v :: items)
    rw [List.reverse_cons, List.map_append, List.append_assoc, List.append_assoc]
    refine .trans (.append (Block.rewritten_refl _) ?_) hrest
    exact hswons.append (Block.rewritten_refl _)

/-- As many values as there are parameters are gathered into a list. -/
theorem gather_rewritten (hlist : m.body? Primitive.argList.name = none)
    (hswons : m.body? Primitive.swons.name = none) (h : values.length = parameters.length) :
    Block.Rewritten m.Law (values.map .push ++ Block.ofCode (gatherArguments parameters))
      [.push (.list values)] := by
  have hlist := rewritten_builtin (p := .argList) hlist [] rfl
  have hgather := swons_rewritten hswons values.reverse []
  rw [List.reverse_reverse, List.append_nil, List.length_reverse, h] at hgather
  have hcode : Block.ofCode (gatherArguments parameters) =
      [.run Primitive.argList.term] ++
        List.replicate parameters.length (.run Primitive.swons.term) := by
    simp [Block.ofCode, gatherArguments, List.map_const']
  rw [hcode]
  exact .trans (.append (Block.rewritten_refl _) (hlist.append (Block.rewritten_refl _))) hgather

theorem arg_rewritten {i : Fin 10} (h : m.body? (Primitive.arg i).name = none) {v : Value}
    (hv : values[i.val]? = some v) :
    Block.Rewritten m.Law [.push (.list values), .run (Primitive.arg i).term]
      [.push v, .push (.list values)] := by
  have hexec : (Primitive.arg i).exec .pure (m.invoke .pure 0) [.list values] =
      ⟨.ok (), [.list values, v], [], []⟩ := by
    show (match values[i.val]? with
      | some v => do
        Run.push v
        Run.push (.list values)
      | none => Run.fail (.indexOutOfRange _ i.val values.length) : Run Unit) [] = _
    rw [hv]
    rfl
  exact rewritten_builtin h [.list values] hexec

theorem onArguments_word_rewritten (hm : ∀ p ∈ Primitive.forArguments, m.body? p.name = none)
    (hvalues : values.length = parameters.length) {name : String} {c : Code}
    (h : (Term.word name).onArguments definition parameters = .ok c) :
    Block.Rewritten m.Law (.push (.list values) :: Block.ofCode c)
      [(Term.word name).under (parameters.zip values), .push (.list values)] := by
  simp only [Term.onArguments] at h
  simp only [Term.under]
  by_cases hargs : name = argsName
  · rw [if_pos hargs] at h
    cases h
    rw [if_pos hargs, List.map_snd_zip (by omega)]
    exact rewritten_builtin (p := .dup) (hm _ (by decide)) [.list values] rfl
  rw [if_neg hargs] at h
  rw [if_neg hargs, lookup_zip hvalues]
  cases hindex : parameters.idxOf? name with
  | none =>
    rw [hindex] at h
    cases h
    exact rewritten_dipped (hm _ (by decide)) _ _
  | some i =>
    rw [hindex] at h
    simp only at h
    by_cases hi : i < 10
    · rw [dif_pos hi] at h
      cases h
      obtain ⟨hlt, -⟩ := List.idxOf?_eq_some_iff.mp hindex
      have hv : values[i]? = some values[i] := List.getElem?_eq_getElem (by omega)
      rw [Option.bind_some, hv]
      exact arg_rewritten (i := ⟨i, hi⟩) (hm _ (by simp [Primitive.forArguments])) hv
    · rw [dif_neg hi] at h
      cases h

mutual

theorem onArguments_term_rewritten (hm : ∀ p ∈ Primitive.forArguments, m.body? p.name = none)
    (hvalues : values.length = parameters.length) : ∀ {t : Term} {c : Code},
    t.onArguments definition parameters = .ok c →
    Block.Rewritten m.Law (.push (.list values) :: Block.ofCode c)
      [t.under (parameters.zip values), .push (.list values)]
  | .literal l, c, h => by
    cases h
    exact rewritten_dipped (hm _ (by decide)) _ _
  | .word _, _, h => onArguments_word_rewritten hm hvalues h
  | .quotation body, c, h => by
    simp only [Term.onArguments] at h
    split at h
    · cases h
    · next code hcode =>
      cases h
      have hembed : Block.Rewritten m.Law
          [.push (.list values), .push (.quotation (Block.ofCode code)),
            .run Primitive.embedArgs.term]
          [.push (.quotation (.push (.list values) :: Block.ofCode code)),
            .push (.list values)] :=
        rewritten_builtin (p := .embedArgs) (hm _ (by decide))
          [.list values, .quotation (Block.ofCode code)] rfl
      have hbody := onArguments_code_rewritten hm hvalues hcode
      refine .trans ?_ (.trans hembed ?_)
      · exact .pushed rfl rfl (Value.rewritten_refl _)
          (.pushed rfl rfl (Value.rewritten_refl _) (Block.rewritten_refl _))
      · exact .pushed rfl rfl (.quotation hbody) (Block.rewritten_refl _)

/-- The converted body, run on the list of the arguments, does what the body does under them. -/
theorem onArguments_code_rewritten (hm : ∀ p ∈ Primitive.forArguments, m.body? p.name = none)
    (hvalues : values.length = parameters.length) : ∀ {b c : Code},
    Code.onArguments definition parameters b = .ok c →
    Block.Rewritten m.Law (.push (.list values) :: Block.ofCode c)
      (Code.under (parameters.zip values) b)
  | [], c, h => by
    cases h
    exact rewritten_builtin (p := .pop) (hm _ (by decide)) [.list values] rfl
  | t :: ts, c, h => by
    simp only [Code.onArguments] at h
    split at h
    · cases h
    · next code hcode =>
      split at h
      · cases h
      · next rest hrest =>
        cases h
        have hterm := onArguments_term_rewritten hm hvalues hcode
        have hbody := onArguments_code_rewritten hm hvalues hrest
        rw [Block.ofCode_append, ← List.cons_append]
        refine .trans (hterm.append (Block.rewritten_refl _)) ?_
        exact .append (Block.rewritten_refl [t.under (parameters.zip values)]) hbody

end

/-- Runs the body of a definition under arguments. -/
def runUnder (m : Machine) (mode : Mode) (arguments : Arguments) (body : Code) : Run Unit :=
  m.runBlock mode m.limit (body.under arguments)

/-- A definition in point-free form finds its arguments on the stack, the first of them deepest, and
does what its body does under them: whatever code follows, a run that is not cut off ends in the
same way, with the same output and with the same stack up to the bodies of quotations. -/
theorem run_pointFree {d d' : Definition} (hd : d.pointFree = .ok d')
    (hparameters : d.parameters ≠ [])
    (hm : ∀ p ∈ Primitive.forArguments, m.body? p.name = none)
    (hvalues : values.length = d.parameters.length) (s : Stack) (rest : Code)
    (h : ¬ (m.run .effectful (d'.body ++ rest) (values.reverse ++ s)).Exceeded) :
    (m.run .effectful (d'.body ++ rest) (values.reverse ++ s)).Alike
      ((do
        m.runUnder .effectful (d.parameters.zip values) d.body
        m.run .effectful rest : Run Unit) s) := by
  obtain ⟨code, hcode, hbody⟩ := Definition.pointFree_eq_ok hd hparameters
  rw [run_eq_runBlock] at h ⊢
  rw [run_eq_runBlock, runUnder, ← runBlock_append]
  rw [← runBlock_pushes_append] at h ⊢
  refine alike_of_rewritten rfl (wordsCorrespond_refl m) ?_ .effectful m.limit s h
  have hgather := gather_rewritten (hm _ (by decide)) (hm _ (by decide)) hvalues
  have hconverted := onArguments_code_rewritten hm hvalues hcode
  rw [hbody, Block.ofCode_append, Block.ofCode_append, List.append_assoc, ← List.append_assoc]
  refine .trans (hgather.append (Block.rewritten_refl _)) ?_
  exact hconverted.append (Block.rewritten_refl _)

/-- The second parameter hides a built-in word, and the third has the name of the first. -/
def shadowing : Definition where
  name := "shadow"
  parameters := ["x", "dup", "x"]
  body := [.word "x", .quotation [.word "dup", .word "x", .word "show", .word argsName]]

def showing : Machine where
  words := [("show", [Primitive.print.term])]

def unshadowed : Definition where
  name := "shadow"
  body := [Primitive.argList.term, Primitive.swons.term, Primitive.swons.term, Primitive.swons.term,
    (Primitive.arg 0).term,
    .quotation [(Primitive.arg 1).term, (Primitive.arg 0).term,
      .quotation [.word "show"], Primitive.dip.term, Primitive.dup.term, Primitive.pop.term],
    Primitive.embedArgs.term, Primitive.pop.term]

theorem run_pointFree_shadowing :
    shadowing.pointFree = .ok unshadowed ∧
      (∀ p ∈ Primitive.forArguments, showing.body? p.name = none) ∧
      ¬ (showing.run .effectful (unshadowed.body ++ [Primitive.apply.term])
        [.literal (.int 3), .quotation [], .literal (.int 1), .list []]).Exceeded ∧
      (showing.run .effectful (unshadowed.body ++ [Primitive.apply.term])
        [.literal (.int 3), .quotation [], .literal (.int 1), .list []]).lines = ["1"] ∧
      (showing.run .effectful (unshadowed.body ++ [Primitive.apply.term])
        [.literal (.int 3), .quotation [], .literal (.int 1), .list []]).Alike
        ((do
          showing.runUnder .effectful
            [("x", .literal (.int 1)), ("dup", .quotation []), ("x", .literal (.int 3))]
            shadowing.body
          showing.run .effectful [Primitive.apply.term] : Run Unit) [.list []]) := by
  have hd : shadowing.pointFree = .ok unshadowed := rfl
  have hm : ∀ p ∈ Primitive.forArguments, showing.body? p.name = none := by decide
  have hvalues : ([.literal (.int 1), .quotation [], .literal (.int 3)] : List Value).length =
      shadowing.parameters.length := rfl
  have h : ¬ (showing.run .effectful (unshadowed.body ++ [Primitive.apply.term])
      [.literal (.int 3), .quotation [], .literal (.int 1), .list []]).Exceeded :=
    Outcome.not_exceeded_of_ok rfl
  have halike := run_pointFree hd (by decide) hm hvalues [.list []] [Primitive.apply.term] h
  exact ⟨hd, hm, h, rfl, halike⟩

end Machine

end Concatenative
