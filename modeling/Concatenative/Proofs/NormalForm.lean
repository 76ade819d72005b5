import Concatenative.Proofs.KnownWords
import Concatenative.Proofs.Refolding

/-! Folded code in normal form. Where no quotations are composed at run time, a quotation value is
one that was written in folded code, with nothing but lists captured in front of it, and a value
with a list in it has no term. So folding leaves the body of every quotation that it writes as it
is, and with them the folded code. -/

namespace Concatenative

mutual

/-- The bodies of the quotations in a term, at any depth. -/
def Term.quoted : Term → List Code
  | .word _ => []
  | .literal _ => []
  | .quotation body => body :: Code.quoted body

/-- The bodies of the quotations in code, at any depth. -/
def Code.quoted : Code → List Code
  | [] => []
  | t :: ts => Term.quoted t ++ Code.quoted ts

end

theorem Code.mem_quoted {c body : Code} : body ∈ c.quoted ↔ ∃ t ∈ c, body ∈ t.quoted := by
  induction c with
  | nil => simp [Code.quoted]
  | cons t c ih => simp [Code.quoted, ih]

/-- A term that composes no quotations and whose quotations folding leaves as they are. -/
structure Term.Normal (m : Machine) (t : Term) : Prop where
  uncomposed : Primitive.compose.name ∉ t.words
  folded : ∀ body ∈ t.quoted, (m.fold body).value = body

variable {m : Machine}

theorem Code.normal_iff {c : Code} : (∀ t ∈ c, t.Normal m) ↔
    Primitive.compose.name ∉ c.words ∧ ∀ body ∈ c.quoted, (m.fold body).value = body := by
  constructor
  · intro h
    refine ⟨fun hmem => ?_, fun body hbody => ?_⟩
    · obtain ⟨t, ht, hname⟩ := Code.mem_words.mp hmem
      exact (h t ht).uncomposed hname
    · obtain ⟨t, ht, hbody⟩ := Code.mem_quoted.mp hbody
      exact (h t ht).folded body hbody
  · rintro ⟨hwords, hquoted⟩ t ht
    exact ⟨fun hname => hwords (Code.mem_words.mpr ⟨t, ht, hname⟩),
      fun body hbody => hquoted body (Code.mem_quoted.mpr ⟨t, ht, hbody⟩)⟩

theorem Term.normal_quotation_iff {body : Code} : Term.Normal m (.quotation body) ↔
    (m.fold body).value = body ∧ ∀ t ∈ body, t.Normal m := by
  rw [Code.normal_iff]
  constructor
  · rintro ⟨hwords, hquoted⟩
    exact ⟨hquoted body List.mem_cons_self, hwords,
      fun b hb => hquoted b (List.mem_cons_of_mem body hb)⟩
  · rintro ⟨hbody, hwords, hquoted⟩
    exact ⟨hwords, List.forall_mem_cons.mpr ⟨hbody, hquoted⟩⟩

theorem Term.Normal.foldTerm_eq {t : Term} (h : t.Normal m) : (m.foldTerm t).value = t := by
  cases t with
  | word name => rfl
  | literal l => rfl
  | quotation body => rw [Machine.foldTerm_quotation, (Term.normal_quotation_iff.mp h).1]

/-- A second pass changes nothing in code with normal terms. -/
theorem Machine.fold_fold_of_normal {c : Code} (h : ∀ t ∈ (m.fold c).value, t.Normal m) :
    (m.fold (m.fold c).value).value = (m.fold c).value :=
  m.foldFrom_foldFrom c .start fun t ht => (h t ht).foldTerm_eq

mutual

/-- A value of which every part is normal, and the code of every quotation in it folded. -/
inductive Value.Normal (m : Machine) : Value → Prop
  | literal (l : Literal) : Value.Normal m (.literal l)
  | list {items : List Value} : (∀ v ∈ items, Value.Normal m v) → Value.Normal m (.list items)
  | quotation {b : Block} : (∀ i ∈ b, Instruction.Normal m i) →
    (∀ c, b.toCode? = some c → (m.fold c).value = c) → Value.Normal m (.quotation b)

inductive Instruction.Normal (m : Machine) : Instruction → Prop
  | push {v : Value} : Value.Normal m v → Instruction.Normal m (.push v)
  | run {t : Term} : t.Normal m → Instruction.Normal m (.run t)

end

theorem Block.normal_ofCode {c : Code} (h : ∀ t ∈ c, t.Normal m) :
    ∀ i ∈ Block.ofCode c, i.Normal m := by
  intro i hi
  obtain ⟨t, ht, rfl⟩ := List.mem_map.mp hi
  exact .run (h t ht)

theorem Instruction.Normal.pushed {i : Instruction} (h : i.Normal m) {v : Value}
    (hv : i.pushed? = some v) : v.Normal m := by
  cases h with
  | push hvalue =>
    cases hv
    exact hvalue
  | @run t ht =>
    cases t with
    | word name => cases hv
    | literal l =>
      cases hv
      exact .literal l
    | quotation body =>
      cases hv
      obtain ⟨hbody, hterms⟩ := Term.normal_quotation_iff.mp ht
      refine .quotation (Block.normal_ofCode hterms) fun c hc => ?_
      rw [Block.toCode?_ofCode] at hc
      cases hc
      exact hbody

mutual

theorem Value.Normal.term : ∀ {v : Value} {t : Term}, v.Normal m → v.toTerm? = some t → t.Normal m
  | .literal l, _, _, h => by
    cases h
    exact ⟨List.not_mem_nil, fun _ h => absurd h List.not_mem_nil⟩
  | .list _, _, _, h => by cases h
  | .quotation b, _, .quotation hb hcode, h => by
    simp only [Value.toTerm?, Option.map_eq_some_iff] at h
    obtain ⟨c, hc, rfl⟩ := h
    exact Term.normal_quotation_iff.mpr ⟨hcode c hc, Block.normal_toCode? hb hc⟩

theorem Instruction.Normal.term : ∀ {i : Instruction} {t : Term}, i.Normal m →
    i.toTerm? = some t → t.Normal m
  | .push _, _, .push hv, h => hv.term h
  | .run _, _, .run ht, h => by
    cases h
    exact ht

theorem Block.normal_toCode? : ∀ {b : Block} {c : Code}, (∀ i ∈ b, i.Normal m) →
    b.toCode? = some c → ∀ t ∈ c, t.Normal m
  | [], _, _, h => by
    cases h
    simp
  | i :: b, _, hb, h => by
    obtain ⟨t, c, ht, hc, rfl⟩ := Block.toCode?_cons_eq_some.mp h
    obtain ⟨hi, hb⟩ := List.forall_mem_cons.mp hb
    exact List.forall_mem_cons.mpr ⟨hi.term ht, Block.normal_toCode? hb hc⟩

end

/-- The values that are normal. Composing two quotations would make one that is not. -/
def Invariant.normal (m : Machine) : Invariant where
  value := Value.Normal m
  block b := ∀ i ∈ b, i.Normal m
  unknown _ := True
  composing := False
  literal := .literal
  list_iff := by
    intro items
    constructor
    · rintro (_ | h)
      exact h
    · exact .list
  quotation := by
    rintro b (_ | _ | h)
    exact h
  capture := by
    rintro items b hitems (_ | _ | ⟨hb, -⟩)
    refine .quotation (List.forall_mem_cons.mpr ⟨.push hitems, hb⟩) fun c hc => ?_
    obtain ⟨t, -, ht, -⟩ := Block.toCode?_cons_eq_some.mp hc
    cases ht
  andThen h := h.elim

namespace Machine

theorem normal_upheld
    (hwords : ∀ name body, m.body? name = some body → ∀ t ∈ body, Term.Normal m t) :
    (Invariant.normal m).Upheld m where
  pushed hb hi hv := (hb _ hi).pushed hv
  defined _ _ hbody := Block.normal_ofCode (hwords _ _ hbody)
  unknown _ _ _ _ := trivial
  composing := by
    intro b hb hi _
    obtain ⟨⟩ | ⟨hterm⟩ := hb _ hi
    exact hterm.uncomposed (List.mem_singleton_self _)

theorem normal_carriesOver
    (hwords : ∀ name body, m.body? name = some body → ∀ t ∈ body, Term.Normal m t) :
    (Invariant.normal m).CarriesOver m (fun t => Primitive.compose.name ∉ t.words)
      (Term.Normal m) where
  upheld := normal_upheld hwords
  block ht := List.forall_mem_singleton.mpr (.run ht)
  written hv ht := hv.term ht
  word hname := ⟨hname, fun _ h => absurd h List.not_mem_nil⟩
  literal _ := ⟨List.not_mem_nil, fun _ h => absurd h List.not_mem_nil⟩
  body hbody t ht hname := hbody (Code.mem_words.mpr ⟨t, ht, hname⟩)
  folded hbody := Term.normal_quotation_iff.mpr ⟨fold_fold_of_normal hbody, hbody⟩

/-- If neither the code nor the dictionary composes quotations, and the quotations of the dictionary
are folded, then the folded code is a fixed point of folding, and so is the body of every quotation
in it, at any depth. -/
theorem fold_normal (m : Machine)
    (hwords : ∀ name body, m.body? name = some body → Primitive.compose.name ∉ body.words ∧
      ∀ b ∈ body.quoted, (m.fold b).value = b)
    (c : Code) (hc : Primitive.compose.name ∉ c.words) :
    (m.fold (m.fold c).value).value = (m.fold c).value ∧
      ∀ b ∈ (m.fold c).value.quoted, (m.fold b).value = b := by
  have hbodies : ∀ name body, m.body? name = some body → ∀ t ∈ body, Term.Normal m t :=
    fun name body hbody => Code.normal_iff.mpr (hwords name body hbody)
  have hnormal : ∀ t ∈ (m.fold c).value, Term.Normal m t :=
    (normal_carriesOver hbodies).foldFrom c Segment.kept_start
      fun t ht hname => hc (Code.mem_words.mpr ⟨t, ht, hname⟩)
  exact ⟨fold_fold_of_normal hnormal, (Code.normal_iff.mp hnormal).2⟩

/-- A machine that knows one word, which runs a quotation to square a number. -/
def squaring : Machine where
  words := [("square", [.quotation [Primitive.dup.term, Primitive.mul.term], Primitive.apply.term])]

/-- Puts a number into a list of arguments and gives that to a quotation with another one in it. -/
def squares : Code :=
  [.literal (.int 4), .word "square", Primitive.argList.term, Primitive.swons.term,
    .quotation [.literal (.int 1), .literal (.int 2), Primitive.add.term,
      .quotation [.literal (.int 3), .word "square", Primitive.print.term]],
    Primitive.embedArgs.term]

theorem fold_normal_squares :
    (∀ name body, squaring.body? name = some body → Primitive.compose.name ∉ body.words ∧
      ∀ b ∈ body.quoted, (squaring.fold b).value = b) ∧
    Primitive.compose.name ∉ squares.words ∧
    (squaring.fold squares).value =
      [.literal (.int 16), Primitive.argList.term, Primitive.swons.term,
        .quotation [.literal (.int 3), .quotation [.literal (.int 9), Primitive.print.term]],
        Primitive.embedArgs.term] ∧
    (squaring.fold (squaring.fold squares).value).value = (squaring.fold squares).value ∧
    ∀ b ∈ (squaring.fold squares).value.quoted, (squaring.fold b).value = b := by
  have hwords : ∀ name body, squaring.body? name = some body →
      Primitive.compose.name ∉ body.words ∧ ∀ b ∈ body.quoted, (squaring.fold b).value = b := by
    intro name body hbody
    obtain ⟨before, after, hsplit, -⟩ := List.lookup_eq_some_iff.mp hbody
    have hmem : (name, body) ∈ squaring.words := by simp [hsplit]
    cases List.mem_singleton.mp hmem
    decide
  have hc : Primitive.compose.name ∉ squares.words := by decide
  exact ⟨hwords, hc, by decide, fold_normal squaring hwords squares hc⟩

end Machine

end Concatenative
