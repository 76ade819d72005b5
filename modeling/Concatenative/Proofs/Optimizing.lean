import Concatenative.Machine.Interpreter
import Concatenative.Program.Optimize
import Concatenative.Proofs.Folding

/-! An optimised program does what the program did. Its words are those of the program, each with a
folded body, and so the two machines define corresponding words. -/

namespace Concatenative

instance : LawfulMonad Logged := LawfulMonad.mk' Logged
  (fun x => by simp [Functor.map, Logged.bind])
  (fun a f => by simp [bind, pure, Logged.bind])
  (fun x f g => by simp [bind, Logged.bind, List.append_assoc])

theorem Logged.value_mapM {α β : Type} (f : α → Logged β) (xs : List α) :
    (xs.mapM f).value = xs.map fun x => (f x).value := by
  induction xs with
  | nil => rfl
  | cons x xs ih =>
    rw [List.mapM_cons, List.map_cons, ← ih]
    rfl

namespace Definition

theorem pointFree_of_isPointFree {d : Definition} (h : d.isPointFree = true) :
    d.pointFree = .ok d := by
  rw [pointFree, if_pos h]

theorem isPointFree_of_pointFree {d d' : Definition} (h : d.pointFree = .ok d') :
    d'.isPointFree = true := by
  unfold pointFree at h
  split at h
  · next hfree =>
    cases h
    exact hfree
  · split at h
    · cases h
    · cases h
      rfl

end Definition

/-- The dictionary with every body replaced by another. -/
def Dictionary.mapBodies (f : Code → Code) (words : Dictionary) : Dictionary :=
  words.map fun x => (x.1, f x.2)

theorem Dictionary.lookup_mapBodies (f : Code → Code) (words : Dictionary) (name : String) :
    (words.mapBodies f).lookup name = (words.lookup name).map f := by
  induction words with
  | nil => rfl
  | cons x words ih =>
    obtain ⟨key, c⟩ := x
    simp only [mapBodies, List.map_cons, List.lookup_cons]
    cases name == key with
    | true => rfl
    | false => exact ih

namespace Program

/-- The definitions of the second program are those of the first in point-free form. -/
def Converted (p p' : Program) : Prop := List.Forall₂ (fun d d' => d.pointFree = .ok d') p p'

/-- The words that a program in point-free form defines; a later definition counts before an earlier
one. -/
def dictionary (p : Program) : Dictionary := (p.map fun d => (d.name, d.body)).reverse

def mapBodies (f : Code → Code) (p : Program) : Program :=
  p.map fun d => { d with body := f d.body }

theorem dictionary_mapBodies (f : Code → Code) (p : Program) :
    (p.mapBodies f).dictionary = p.dictionary.mapBodies f := by
  simp [dictionary, mapBodies, Dictionary.mapBodies, Function.comp_def]

theorem Converted.mapBodies {p p' : Program} (h : p.Converted p') (f : Code → Code) :
    (p'.mapBodies f).Converted (p'.mapBodies f) := by
  induction h with
  | nil => exact .nil
  | cons hd _ ih =>
    have hfree := Definition.isPointFree_of_pointFree hd
    exact .cons (Definition.pointFree_of_isPointFree hfree) ih

theorem Converted.convert {p p' : Program} (h : p.Converted p') (settings : Settings) :
    (p.convert settings).value = (p', none) := by
  induction h with
  | nil => rfl
  | cons hd _ ih =>
    simp only [Program.convert, bind, Logged.bind, Definition.convert, hd, ih]
    rfl

theorem Converted.optimize {p p' : Program} (h : p.Converted p') {settings : Settings}
    (hfold : settings.partialEvaluation = true) (m : Machine) :
    (p.optimize settings m).value = (p'.mapBodies fun c => (m.fold c).value, none) := by
  simp only [Program.optimize, bind, Logged.bind, h.convert, hfold, if_true, Logged.value_mapM]
  rfl

end Program

namespace Machine

/-- A program defines the words of its point-free form. -/
theorem defineAll_eq_ok {p : Program} {m m' : Machine} :
    m.defineAll p = .ok m' ↔
      ∃ p', p.Converted p' ∧ m' = { m with words := p'.dictionary ++ m.words } := by
  induction p generalizing m with
  | nil =>
    simp only [defineAll]
    constructor
    · rintro ⟨⟩
      exact ⟨[], .nil, rfl⟩
    · rintro ⟨_, ⟨⟩, rfl⟩
      rfl
  | cons d p ih =>
    unfold defineAll define
    cases hd : d.pointFree with
    | error e =>
      constructor
      · rintro ⟨⟩
      · rintro ⟨_, ⟨⟩ | ⟨h, _⟩, _⟩
        rw [hd] at h
        cases h
    | ok d' =>
      refine ih.trans ?_
      constructor
      · rintro ⟨p', hp', rfl⟩
        exact ⟨d' :: p', .cons hd hp', by simp [Program.dictionary]⟩
      · rintro ⟨_, ⟨⟩ | ⟨h, hp'⟩, rfl⟩
        rw [hd] at h
        cases h
        exact ⟨_, hp', by simp [Program.dictionary]⟩

/-- The bodies of all words can be folded at once, by a machine with the same words and any limit.
-/
theorem run_folded_words (words : Dictionary) (depth limit : Nat) (c : Code)
    (h : ¬ ((Machine.mk words limit).run .effectful c []).Exceeded) :
    ((Machine.mk words limit).run .effectful c []).Alike
      ((Machine.mk (words.mapBodies fun c => ((Machine.mk words depth).fold c).value) limit).run
        .effectful c []) := by
  rw [run_eq_runBlock] at h ⊢
  rw [run_eq_runBlock]
  have hsame : (Machine.mk words limit).words = (Machine.mk words depth).words := rfl
  refine alike_of_rewritten hsame ?_ (Block.rewritten_refl _) _ _ _ h
  intro name
  simp only [body?, Dictionary.lookup_mapBodies]
  cases words.lookup name with
  | none => exact .none
  | some body => exact .some (fold_rewritten _ body)

/-- A program that converts can be optimised, with words run ahead of time to any depth, and the
result does what the program did: code that is not cut off ends in the same way, with the same
output and with the same stack up to the bodies of quotations. -/
theorem run_optimize {p : Program} {m : Machine} (hm : ofProgram p = .ok m) {settings : Settings}
    (hfold : settings.partialEvaluation = true) (depth limit : Nat) :
    ∃ p' m', (p.optimize settings { m with limit := depth }).value = (p', none) ∧
      ofProgram p' = .ok m' ∧
      ∀ c : Code, ¬ ({ m with limit := limit }.run .effectful c []).Exceeded →
        ({ m with limit := limit }.run .effectful c []).Alike
          ({ m' with limit := limit }.run .effectful c []) := by
  obtain ⟨p₁, hp, rfl⟩ := defineAll_eq_ok.mp hm
  refine ⟨_, _, hp.optimize hfold _, defineAll_eq_ok.mpr ⟨_, hp.mapBodies _, rfl⟩, ?_⟩
  rw [Program.dictionary_mapBodies, List.append_nil, List.append_nil]
  exact run_folded_words p₁.dictionary depth limit

/-- Prints the numbers from three down to one, by recursion on a parameter. -/
def countdown : Program :=
  [{ name := "count"
     parameters := ["n"]
     body := [.word "n", .literal (.int 0), Primitive.eq.term, .quotation [],
       .quotation [.word "n", Primitive.print.term, .word "n", .literal (.int 1),
         Primitive.sub.term, .word "count"],
       Primitive.choose.term] },
   { name := "start"
     body := [.literal (.int 1), .literal (.int 2), Primitive.add.term, .word "count"] }]

def counting (limit : Nat) : Machine :=
  match ofProgram countdown with
  | .ok m => { m with limit := limit }
  | .error _ => {}

theorem run_optimize_countdown :
    ofProgram countdown = .ok (counting 256) ∧
      ¬ ((counting 64).run .effectful [.word "start"] []).Exceeded ∧
      ((counting 64).run .effectful [.word "start"] []).lines = ["3", "2", "1"] ∧
      ∃ p' m', (countdown.optimize { partialEvaluation := true } (counting 4)).value = (p', none) ∧
        ofProgram p' = .ok m' ∧
        ((counting 64).run .effectful [.word "start"] []).Alike
          ({ m' with limit := 64 }.run .effectful [.word "start"] []) := by
  have hm : ofProgram countdown = .ok (counting 256) := rfl
  have hfold : ({ partialEvaluation := true } : Settings).partialEvaluation = true := rfl
  have h : ¬ ((counting 64).run .effectful [.word "start"] []).Exceeded :=
    Outcome.not_exceeded_of_ok rfl
  obtain ⟨p', m', hoptimize, hm', halike⟩ := run_optimize hm hfold 4 64
  exact ⟨hm, h, rfl, p', m', hoptimize, hm', halike _ h⟩

end Machine

end Concatenative
