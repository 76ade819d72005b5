import Concatenative.Proofs.FoldInvariant
import Concatenative.Proofs.Optimizing
import Concatenative.Proofs.Parameters

/-! A checked program never comes to an unknown word. The words of all values on the stack are known
while its code runs, and neither conversion to point-free form nor folding brings in others. -/

namespace Concatenative

mutual

/-- The words of a value: those of its quotations, at any depth. -/
def Value.words : Value → List String
  | .literal _ => []
  | .list items => Value.allWords items
  | .quotation block => Block.words block

def Value.allWords : List Value → List String
  | [] => []
  | v :: vs => Value.words v ++ Value.allWords vs

def Instruction.words : Instruction → List String
  | .push v => Value.words v
  | .run t => t.words

def Block.words : Block → List String
  | [] => []
  | i :: is => Instruction.words i ++ Block.words is

end

theorem Value.mem_allWords {items : List Value} {name : String} :
    name ∈ Value.allWords items ↔ ∃ v ∈ items, name ∈ v.words := by
  induction items with
  | nil => simp [Value.allWords]
  | cons v items ih => simp [Value.allWords, ih]

theorem Block.mem_words {b : Block} {name : String} :
    name ∈ b.words ↔ ∃ i ∈ b, name ∈ i.words := by
  induction b with
  | nil => simp [Block.words]
  | cons i b ih => simp [Block.words, ih]

theorem Block.words_append (a b : Block) : Block.words (a ++ b) = a.words ++ b.words := by
  induction a with
  | nil => rfl
  | cons i a ih => simp [Block.words, ih]

theorem Block.words_ofCode (c : Code) : (Block.ofCode c).words = c.words := by
  induction c with
  | nil => rfl
  | cons t c ih =>
    show Block.words (.run t :: Block.ofCode c) = _
    rw [Block.words, Instruction.words, ih, Code.words]

theorem Code.mem_words {c : Code} {name : String} :
    name ∈ c.words ↔ ∃ t ∈ c, name ∈ t.words := by
  induction c with
  | nil => simp [Code.words]
  | cons t c ih => simp [Code.words, ih]

theorem Code.words_append (c c' : Code) : Code.words (c ++ c') = c.words ++ c'.words := by
  induction c with
  | nil => rfl
  | cons t c ih => simp [Code.words, ih]

theorem Instruction.words_pushed {i : Instruction} {v : Value} (h : i.pushed? = some v) :
    v.words = i.words := by
  match i with
  | .push _ | .run (.literal _) =>
    cases h
    rfl
  | .run (.quotation body) =>
    cases h
    rw [Value.words, Block.words_ofCode, Instruction.words, Term.words]
  | .run (.word _) => cases h

mutual

/-- The term of a value has the words of the value. -/
theorem Value.words_toTerm? : ∀ {v : Value} {t : Term}, v.toTerm? = some t → t.words = v.words
  | .literal _, _, h => by
    cases h
    rfl
  | .list _, _, h => by cases h
  | .quotation b, _, h => by
    simp only [Value.toTerm?, Option.map_eq_some_iff] at h
    obtain ⟨c, hc, rfl⟩ := h
    rw [Term.words, Value.words, Block.words_toCode? hc]

theorem Block.words_toCode? : ∀ {b : Block} {c : Code}, b.toCode? = some c → c.words = b.words
  | [], _, h => by
    cases h
    rfl
  | .push v :: b, _, h => by
    obtain ⟨t, c, ht, hc, rfl⟩ := Block.toCode?_cons_eq_some.mp h
    rw [Code.words, Block.words, Instruction.words, Value.words_toTerm? ht, Block.words_toCode? hc]
  | .run t :: b, _, h => by
    obtain ⟨t', c, ht, hc, rfl⟩ := Block.toCode?_cons_eq_some.mp h
    cases ht
    rw [Code.words, Block.words, Instruction.words, Block.words_toCode? hc]

end

/-- The values whose words are all known. -/
def Invariant.knownWords (known : String → Prop) : Invariant where
  value v := ∀ name ∈ v.words, known name
  block b := ∀ name ∈ b.words, known name
  unknown _ := False
  composing := True
  literal _ := fun _ h => absurd h List.not_mem_nil
  list_iff := by
    intro items
    simp only [Value.words, Value.mem_allWords]
    constructor
    · intro h v hv name hname
      exact h name ⟨v, hv, hname⟩
    · rintro h name ⟨v, hv, hname⟩
      exact h v hv name hname
  quotation h := h
  capture := by
    intro items b hitems hb
    exact List.forall_mem_append.mpr ⟨hitems, hb⟩
  andThen := by
    intro a b _ ha hb
    show ∀ name ∈ Block.words (a ++ b), known name
    rw [Block.words_append]
    exact List.forall_mem_append.mpr ⟨ha, hb⟩

namespace Machine

/-- Every known word is built in or defined, and the bodies of defined words call known words only.
-/
structure Covers (m : Machine) (known : String → Prop) : Prop where
  found : ∀ name, known name → (m.body? name).isSome ∨ (Primitive.ofName? name).isSome
  bodies : ∀ name body, m.body? name = some body → ∀ word ∈ body.words, known word

variable {m : Machine} {known : String → Prop}

theorem Covers.upheld (h : m.Covers known) : (Invariant.knownWords known).Upheld m where
  pushed := by
    intro b i v hb hi hv name hname
    rw [Instruction.words_pushed hv] at hname
    exact hb name (Block.mem_words.mpr ⟨i, hi, hname⟩)
  defined := by
    intro b name body _ _ hbody word hword
    rw [Block.words_ofCode] at hword
    exact h.bodies name body hbody word hword
  unknown := by
    intro b name hb hi hbody hname
    have hknown := hb name (Block.mem_words.mpr ⟨_, hi, List.mem_singleton_self name⟩)
    rcases h.found name hknown with hsome | hsome
    · rw [hbody] at hsome
      cases hsome
    · rw [hname] at hsome
      cases hsome
  composing _ _ _ := trivial

theorem Covers.keeps (h : m.Covers known) (mode : Mode) (calls : Nat) {c : Code}
    (hc : ∀ name ∈ c.words, known name) :
    (m.runBlock mode calls (Block.ofCode c)).Keeps (.knownWords known) fun _ => True := by
  refine runBlock_keeps h.upheld mode calls ?_
  show ∀ name ∈ (Block.ofCode c).words, known name
  rwa [Block.words_ofCode]

/-- Code that calls known words only does not come to an unknown one. -/
theorem Covers.ne_unknownWord (h : m.Covers known) (mode : Mode) {c : Code}
    (hc : ∀ name ∈ c.words, known name) (name : String) :
    (m.run mode c []).result ≠ .error (.unknownWord name) := by
  rw [run_eq_runBlock]
  have hkeeps := h.keeps mode m.limit hc [] fun _ h => absurd h List.not_mem_nil
  exact hkeeps.unknown name

theorem Covers.carriesOver (h : m.Covers known) :
    (Invariant.knownWords known).CarriesOver m (fun t => ∀ name ∈ t.words, known name)
      fun t => ∀ name ∈ t.words, known name where
  upheld := h.upheld
  block := by
    intro t ht
    show ∀ name ∈ t.words ++ [], known name
    rwa [List.append_nil]
  written := by
    intro v t hv ht
    rwa [Value.words_toTerm? ht]
  word ht := ht
  literal _ := fun _ h => absurd h List.not_mem_nil
  body hbody t ht name hname := hbody name (Code.mem_words.mpr ⟨t, ht, hname⟩)
  folded := by
    intro body hbody name hname
    obtain ⟨t, ht, hname⟩ := Code.mem_words.mp hname
    exact hbody t ht name hname

end Machine

/-- The values and the code of a segment have known words only. -/
abbrev Segment.Known (known : String → Prop) (s : Segment) : Prop :=
  s.Kept (.knownWords known) fun t => ∀ name ∈ t.words, known name

theorem Segment.known_start (known : String → Prop) : Segment.Known known {} :=
  Segment.kept_start

namespace Machine

theorem Covers.foldFrom {m : Machine} {known : String → Prop} (h : m.Covers known) (ts : Code)
    {s : Segment} (hs : s.Known known) (hts : ∀ name ∈ ts.words, known name) :
    ∀ name ∈ (m.foldFrom s ts).value.words, known name := by
  intro name hname
  obtain ⟨t, ht, hname⟩ := Code.mem_words.mp hname
  refine h.carriesOver.foldFrom ts hs (fun t ht name hname => ?_) t ht name hname
  exact hts name (Code.mem_words.mpr ⟨t, ht, hname⟩)

end Machine

theorem Definition.name_pointFree {d d' : Definition} (h : d.pointFree = .ok d') :
    d'.name = d.name := by
  unfold Definition.pointFree at h
  split at h
  · cases h
    rfl
  · split at h
    · cases h
    · cases h
      rfl

section Conversion

variable {definition : String} {parameters : List String}

theorem Primitive.isSome_ofName? {p : Primitive} {name : String} (h : name ∈ p.term.words) :
    (Primitive.ofName? name).isSome := by
  obtain rfl := List.mem_singleton.mp h
  rw [Primitive.ofName?_name]
  rfl

theorem Term.words_dipped {t : Term} {name : String} (h : name ∈ t.dipped.words) :
    (Primitive.ofName? name).isSome ∨ name ∈ t.words := by
  simp only [Term.dipped, Code.words, Term.words, List.append_nil] at h
  rcases List.mem_append.mp h with h | h
  · exact .inr h
  · exact .inl (Primitive.isSome_ofName? h)

mutual

theorem Term.words_onArguments : ∀ {t : Term} {code : Code},
    Term.onArguments definition parameters t = .ok code → ∀ name ∈ code.words,
      (Primitive.ofName? name).isSome ∨
        name ∈ t.words ∧ name ∉ parameters ∧ name ≠ argsName
  | .literal l, _, h, name, hname => by
    cases h
    rcases Term.words_dipped hname with hname | hname
    · exact .inl hname
    · cases hname
  | .word w, code, h, name, hname => by
    simp only [Term.onArguments] at h
    split at h
    · cases h
      exact .inl (Primitive.isSome_ofName? hname)
    · next hargs =>
      split at h
      · next hindex =>
        cases h
        rcases Term.words_dipped hname with hname | hname
        · exact .inl hname
        · obtain rfl := List.mem_singleton.mp hname
          exact .inr ⟨hname, List.idxOf?_eq_none_iff.mp hindex, hargs⟩
      · split at h
        · cases h
          exact .inl (Primitive.isSome_ofName? hname)
        · cases h
  | .quotation body, code, h, name, hname => by
    simp only [Term.onArguments] at h
    split at h
    · cases h
    · next code hcode =>
      cases h
      simp only [Code.words, Term.words, List.append_nil] at hname
      rcases List.mem_append.mp hname with hname | hname
      · exact Code.words_onArguments hcode name hname
      · exact .inl (Primitive.isSome_ofName? hname)

/-- The words of converted code are built in, or words of the original that it does not give a
meaning to itself. -/
theorem Code.words_onArguments : ∀ {c code : Code},
    Code.onArguments definition parameters c = .ok code → ∀ name ∈ code.words,
      (Primitive.ofName? name).isSome ∨
        name ∈ c.words ∧ name ∉ parameters ∧ name ≠ argsName
  | [], _, h, name, hname => by
    cases h
    exact .inl (Primitive.isSome_ofName? hname)
  | t :: ts, code, h, name, hname => by
    simp only [Code.onArguments] at h
    split at h
    · cases h
    · next head hhead =>
      split at h
      · cases h
      · next rest hrest =>
        cases h
        rw [Code.words_append] at hname
        rcases List.mem_append.mp hname with hname | hname
        · rcases Term.words_onArguments hhead name hname with hname | ⟨hname, hfree⟩
          · exact .inl hname
          · exact .inr ⟨List.mem_append_left _ hname, hfree⟩
        · rcases Code.words_onArguments hrest name hname with hname | ⟨hname, hfree⟩
          · exact .inl hname
          · exact .inr ⟨List.mem_append_right _ hname, hfree⟩

end

theorem words_gatherArguments {name : String} (h : name ∈ (gatherArguments parameters).words) :
    (Primitive.ofName? name).isSome := by
  replace h := List.mem_append.mp h
  rcases h with h | h
  · exact Primitive.isSome_ofName? h
  · induction parameters with
    | nil => cases h
    | cons _ parameters ih =>
      rcases List.mem_append.mp h with h | h
      · exact Primitive.isSome_ofName? h
      · exact ih h

theorem Definition.words_pointFree {d d' : Definition} (h : d.pointFree = .ok d') :
    ∀ name ∈ d'.body.words,
      (Primitive.ofName? name).isSome ∨ name ∈ d.body.words ∧ d.binds name = false := by
  intro name hname
  by_cases hparameters : d.parameters = []
  · have hfree : d.isPointFree = true := by rw [Definition.isPointFree, hparameters]; rfl
    rw [Definition.pointFree_of_isPointFree hfree] at h
    cases h
    exact .inr ⟨hname, by simp [Definition.binds, hparameters]⟩
  · obtain ⟨code, hcode, hbody⟩ := Definition.pointFree_eq_ok h hparameters
    rw [hbody, Code.words_append] at hname
    rcases List.mem_append.mp hname with hname | hname
    · exact .inl (words_gatherArguments hname)
    · rcases Code.words_onArguments hcode name hname with hname | ⟨hname, hparameter, hargs⟩
      · exact .inl hname
      · exact .inr ⟨hname, by simp [Definition.binds, hparameter, hargs]⟩

end Conversion

namespace Program

/-- Whether a program gives a word a meaning in code outside its definitions. -/
def provides (p : Program) (name : String) : Bool :=
  (builtinSignature? name).isSome || (p.find? name).isSome

theorem provides_of_ofName? (p : Program) {name : String}
    (h : (Primitive.ofName? name).isSome) : p.provides name = true := by
  simp [provides, Primitive.isSome_builtinSignature?, h]

theorem knows_of_checkWords {p : Program} (h : p.checkWords = .ok ()) {d : Definition} (hd : d ∈ p)
    {name : String} (hname : name ∈ d.body.words) : p.knows d name = true := by
  unfold checkWords at h
  split at h
  · cases h
  · next hundefined =>
    have hnone := List.findSome?_eq_none_iff.mp hundefined d hd
    rw [Option.map_eq_none_iff] at hnone
    simpa using List.find?_eq_none.mp hnone name hname

variable {p p' : Program}

theorem Converted.exists_of_mem (h : p.Converted p') {d' : Definition} (hd' : d' ∈ p') :
    ∃ d ∈ p, d.pointFree = .ok d' := by
  induction h with
  | nil => cases hd'
  | cons hd _ ih =>
    rcases List.mem_cons.mp hd' with rfl | hd'
    · exact ⟨_, List.mem_cons_self, hd⟩
    · obtain ⟨d, hmem, hd⟩ := ih hd'
      exact ⟨d, List.mem_cons_of_mem _ hmem, hd⟩

theorem Converted.names (h : p.Converted p') : p'.map (·.name) = p.map (·.name) := by
  induction h with
  | nil => rfl
  | cons hd _ ih => rw [List.map_cons, List.map_cons, ih, Definition.name_pointFree hd]

theorem isSome_lookup_dictionary {name : String} (h : name ∈ p.map (·.name)) :
    (p.dictionary.lookup name).isSome := by
  obtain ⟨d, hd, rfl⟩ := List.mem_map.mp h
  have hmem : (d.name, d.body) ∈ p.dictionary :=
    List.mem_reverse.mpr (List.mem_map.mpr ⟨d, hd, rfl⟩)
  exact List.lookup_isSome_iff.mpr ⟨_, hmem, beq_self_eq_true _⟩

theorem exists_of_lookup_dictionary {name : String} {body : Code}
    (h : p.dictionary.lookup name = some body) : ∃ d ∈ p, d.body = body := by
  obtain ⟨before, after, hwords, _⟩ := List.lookup_eq_some_iff.mp h
  have hmem : (name, body) ∈ p.dictionary := by
    rw [hwords]
    exact List.mem_append_right before List.mem_cons_self
  obtain ⟨d, hd, heq⟩ := List.mem_map.mp (List.mem_reverse.mp hmem)
  cases heq
  exact ⟨d, hd, rfl⟩

theorem isSome_find? {name : String} : (p.find? name).isSome ↔ name ∈ p.map (·.name) := by
  simp [find?]

/-- Optimising a program that converts replaces the bodies of its point-free form by folded ones, or
leaves them as they are. -/
theorem Converted.exists_optimize (h : p.Converted p') (settings : Settings) (m : Machine) :
    ∃ f : Code → Code, (f = id ∨ f = fun c => (m.fold c).value) ∧
      (p.optimize settings m).value = (p'.mapBodies f, none) := by
  cases hfold : settings.partialEvaluation with
  | true => exact ⟨_, .inr rfl, h.optimize hfold m⟩
  | false =>
    refine ⟨id, .inl rfl, ?_⟩
    simp only [Program.optimize, bind, Logged.bind, h.convert, hfold]
    simp [Program.mapBodies, pure]

end Program

namespace Machine

variable {p p' : Program}

/-- The machine of a checked program knows every word that the program provides. -/
theorem covers_of_checkWords (hcheck : p.checkWords = .ok ()) (hp : p.Converted p')
    (limit : Nat) : (Machine.mk p'.dictionary limit).Covers fun name => p.provides name = true where
  found := by
    intro name hname
    rcases Bool.or_eq_true_iff.mp hname with hbuiltin | hdefined
    · right
      rwa [Primitive.isSome_builtinSignature?] at hbuiltin
    · left
      rw [Program.isSome_find?, ← hp.names] at hdefined
      exact Program.isSome_lookup_dictionary hdefined
  bodies := by
    intro name body hbody word hword
    obtain ⟨d', hd', rfl⟩ := Program.exists_of_lookup_dictionary hbody
    obtain ⟨d, hd, hfree⟩ := hp.exists_of_mem hd'
    rcases Definition.words_pointFree hfree word hword with hbuiltin | ⟨hmem, hbinds⟩
    · exact p.provides_of_ofName? hbuiltin
    · have hknows := Program.knows_of_checkWords hcheck hd hmem
      rw [Program.knows, hbinds, Bool.or_false] at hknows
      exact hknows

theorem Covers.mapBodies {words : Dictionary} {limit : Nat} {known : String → Prop}
    (h : (Machine.mk words limit).Covers known) {f : Code → Code}
    (hf : ∀ c : Code, (∀ name ∈ c.words, known name) → ∀ name ∈ (f c).words, known name) :
    (Machine.mk (words.mapBodies f) limit).Covers known where
  found := by
    intro name hname
    simp only [body?, Dictionary.lookup_mapBodies, Option.isSome_map]
    exact h.found name hname
  bodies := by
    intro name body hbody
    simp only [body?, Dictionary.lookup_mapBodies, Option.map_eq_some_iff] at hbody
    obtain ⟨c, hc, rfl⟩ := hbody
    exact hf c (h.bodies name c hc)

/-- A program that passes the check of its words and converts never comes to an unknown word, before
and after it is optimised, when code is run that calls nothing but built-in words and words of the
program. -/
theorem run_ne_unknownWord {p : Program} (hcheck : p.checkWords = .ok ()) {m : Machine}
    (hm : ofProgram p = .ok m) (settings : Settings) (depth : Nat) :
    ∃ p' m', (p.optimize settings { m with limit := depth }).value = (p', none) ∧
      ofProgram p' = .ok m' ∧
      ∀ (limit : Nat) (c : Code), (∀ name ∈ c.words, p.provides name = true) → ∀ name,
        ({ m with limit := limit }.run .effectful c []).result ≠ .error (.unknownWord name) ∧
        ({ m' with limit := limit }.run .effectful c []).result ≠ .error (.unknownWord name) := by
  obtain ⟨p₁, hp, rfl⟩ := defineAll_eq_ok.mp hm
  obtain ⟨f, hf, hoptimize⟩ :=
    hp.exists_optimize settings { words := p₁.dictionary, limit := depth }
  simp only [List.append_nil]
  refine ⟨_, _, hoptimize, defineAll_eq_ok.mpr ⟨_, hp.mapBodies f, rfl⟩, ?_⟩
  intro limit c hc name
  have hcovers := covers_of_checkWords hcheck hp
  have hkept : ∀ c : Code, (∀ name ∈ c.words, p.provides name = true) →
      ∀ name ∈ (f c).words, p.provides name = true := by
    intro c hc
    rcases hf with rfl | rfl
    · exact hc
    · exact (hcovers depth).foldFrom c (Segment.known_start _) hc
  rw [Program.dictionary_mapBodies, List.append_nil]
  exact ⟨(hcovers limit).ne_unknownWord .effectful hc name,
    ((hcovers limit).mapBodies hkept).ne_unknownWord .effectful hc name⟩

/-- Runs a quotation twice, and so multiplies by four. -/
def doublings : Program :=
  [{ name := "twice"
     parameters := ["f"]
     body := [.word "f", .word "f", Primitive.compose.term] },
   { name := "fourfold"
     body := [.quotation [Primitive.dup.term, Primitive.add.term], .word "twice"] }]

def doublingTwice : Machine :=
  match ofProgram doublings with
  | .ok m => m
  | .error _ => {}

theorem run_ne_unknownWord_doublings :
    doublings.checkWords = .ok () ∧ ofProgram doublings = .ok doublingTwice ∧
      (∀ name ∈ Code.words [.literal (.int 3), .word "fourfold", Primitive.apply.term],
        doublings.provides name = true) ∧
      ((doublings.optimize { partialEvaluation := true } doublingTwice).value.1.find?
        "fourfold").map (·.body) =
          some [.quotation [Primitive.dup.term, Primitive.add.term, Primitive.dup.term,
            Primitive.add.term]] ∧
      ∃ p' m', (doublings.optimize { partialEvaluation := true } doublingTwice).value =
          (p', none) ∧
        ofProgram p' = .ok m' ∧
        ∀ name,
          (doublingTwice.run .effectful
            [.literal (.int 3), .word "fourfold", Primitive.apply.term] []).result ≠
              .error (.unknownWord name) ∧
          ({ m' with limit := 256 }.run .effectful
            [.literal (.int 3), .word "fourfold", Primitive.apply.term] []).result ≠
              .error (.unknownWord name) := by
  have hcheck : doublings.checkWords = .ok () := rfl
  have hm : ofProgram doublings = .ok doublingTwice := rfl
  have hwords : ∀ name ∈ Code.words [.literal (.int 3), .word "fourfold", Primitive.apply.term],
      doublings.provides name = true := by decide
  obtain ⟨p', m', hoptimize, hm', hrun⟩ :=
    run_ne_unknownWord hcheck hm { partialEvaluation := true } 256
  exact ⟨hcheck, hm, hwords, by decide, p', m', hoptimize, hm', hrun 256 _ hwords⟩

end Machine

end Concatenative
