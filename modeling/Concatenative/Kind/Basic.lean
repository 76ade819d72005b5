/-! Kinds: what the slots of a stack hold. A stack effect takes one stack shape to another, and a
shape lists kinds from the top of the stack down. Type variables stand for one unknown value and
stack variables for an unknown rest of a stack. -/

namespace Concatenative

/-- What a variable stands for: one value, or the rest of a stack. -/
inductive VarSort where
  | type
  | stack
  deriving DecidableEq

/-- Two variables of one name and of different sorts are different. -/
structure Variable where
  sort : VarSort
  name : String
  deriving DecidableEq

/-- Stack variables are marked by two dots. -/
def Variable.text (v : Variable) : String :=
  match v.sort with
  | .type => v.name
  | .stack => ".." ++ v.name

/-- The kind of one slot of a stack. -/
inductive Kind where
  /-- The function that the signature belongs to. -/
  | self
  | named (name : String)
  | var (v : Variable)
  /-- A stack effect; the shapes are listed top first. -/
  | function (consumption production : List Kind) (effects : Bool)
  /-- A sequence of kinds, top first. It has a meaning only inside a function. -/
  | vector (items : List Kind)

/-- The kinds of a stack, top first. In an open shape the last one is a stack variable. -/
abbrev Shape := List Kind

mutual

/-- Structural equality. -/
def Kind.same : Kind → Kind → Bool
  | .self, .self => true
  | .named a, .named b => a = b
  | .var a, .var b => a = b
  | .function c p e, .function c' p' e' => Shape.same c c' && Shape.same p p' && e = e'
  | .vector a, .vector b => Shape.same a b
  | _, _ => false

/-- Structural equality of shapes. -/
def Shape.same : Shape → Shape → Bool
  | [], [] => true
  | a :: as, b :: bs => Kind.same a b && Shape.same as bs
  | _, _ => false

end

mutual

theorem Kind.eq_of_same : ∀ {a b : Kind}, a.same b = true → a = b
  | .self, b, h => by cases b <;> simp_all [Kind.same]
  | .named _, b, h => by cases b <;> simp_all [Kind.same]
  | .var _, b, h => by cases b <;> simp_all [Kind.same]
  | .function c p _, b, h => by
    cases b with
    | function c' p' e' =>
      simp only [Kind.same, Bool.and_eq_true, decide_eq_true_eq] at h
      rw [Shape.eq_of_same h.1.1, Shape.eq_of_same h.1.2, h.2]
    | _ => simp [Kind.same] at h
  | .vector items, b, h => by
    cases b with
    | vector items' =>
      simp only [Kind.same] at h
      rw [Shape.eq_of_same h]
    | _ => simp [Kind.same] at h

theorem Shape.eq_of_same : ∀ {as bs : Shape}, Shape.same as bs = true → as = bs
  | [], bs, h => by cases bs <;> simp_all [Shape.same]
  | a :: as, bs, h => by
    cases bs with
    | nil => simp [Shape.same] at h
    | cons b bs =>
      simp only [Shape.same, Bool.and_eq_true] at h
      rw [Kind.eq_of_same h.1, Shape.eq_of_same h.2]

end

mutual

theorem Kind.same_self : ∀ k : Kind, k.same k = true
  | .self => rfl
  | .named _ => by simp [Kind.same]
  | .var _ => by simp [Kind.same]
  | .function c p _ => by simp [Kind.same, Shape.same_self c, Shape.same_self p]
  | .vector items => by simp [Kind.same, Shape.same_self items]

theorem Shape.same_self : ∀ ks : Shape, Shape.same ks ks = true
  | [] => rfl
  | k :: ks => by simp [Shape.same, Kind.same_self k, Shape.same_self ks]

end

instance : DecidableEq Kind := fun a b =>
  decidable_of_iff (a.same b = true) ⟨Kind.eq_of_same, fun h => h ▸ a.same_self⟩

mutual

/-- The variables of a kind, an entry for every occurrence: consumption before production, each top
first. -/
def Kind.variables : Kind → List Variable
  | .self => []
  | .named _ => []
  | .var v => [v]
  | .function c p _ => Shape.variables c ++ Shape.variables p
  | .vector items => Shape.variables items

/-- The variables of a shape, an entry for every occurrence, top first. -/
def Shape.variables : Shape → List Variable
  | [] => []
  | k :: ks => Kind.variables k ++ Shape.variables ks

end

/-- The names of the variables of either sort, each once, in the order of their first
occurrences. -/
def Kind.variableNames (k : Kind) : List String :=
  (k.variables.map (·.name)).eraseDups

mutual

/-- Gives every variable a new name; sorts are kept. -/
def Kind.rename (f : Variable → String) : Kind → Kind
  | .self => .self
  | .named n => .named n
  | .var v => .var { v with name := f v }
  | .function c p e => .function (Shape.rename f c) (Shape.rename f p) e
  | .vector items => .vector (Shape.rename f items)

/-- Gives every variable of a shape a new name. -/
def Shape.rename (f : Variable → String) : Shape → Shape
  | [] => []
  | k :: ks => Kind.rename f k :: Shape.rename f ks

end

mutual

/-- The number of kinds that a kind is built from, itself included. -/
def Kind.size : Kind → Nat
  | .self => 1
  | .named _ => 1
  | .var _ => 1
  | .function c p _ => Shape.size c + Shape.size p + 1
  | .vector items => Shape.size items + 1

/-- The number of kinds that the entries of a shape are built from. -/
def Shape.size : Shape → Nat
  | [] => 0
  | k :: ks => Kind.size k + Shape.size ks

end

/-- The variable that a kind is, if it is one. -/
def Kind.toVar? : Kind → Option Variable
  | .var v => some v
  | _ => none

/-- The stack variable that a kind is, if it is one. -/
def Kind.stackVar? : Kind → Option String
  | .var ⟨.stack, name⟩ => some name
  | _ => none

end Concatenative
