import Concatenative.Number.Text
import Concatenative.Text.Quoted

/-! Terms: a program is a sequence of words to call, literals to push and quotations, which push
code to be run later. -/

namespace Concatenative

/-- A value that can be written in a program. Integers are signed 64-bit words. -/
inductive Literal where
  | int (n : Int64)
  | float (x : Binary64)
  | bool (b : Bool)
  | string (s : String)
  deriving DecidableEq

inductive Term where
  | word (name : String)
  | literal (l : Literal)
  | quotation (body : List Term)

/-- A sequence of terms, run from left to right. -/
abbrev Code := List Term

mutual

/-- Structural equality. -/
def Term.same : Term → Term → Bool
  | .word a, .word b => a = b
  | .literal a, .literal b => a = b
  | .quotation a, .quotation b => Code.same a b
  | _, _ => false

/-- Structural equality of code. -/
def Code.same : Code → Code → Bool
  | [], [] => true
  | t :: ts, u :: us => Term.same t u && Code.same ts us
  | _, _ => false

end

mutual

theorem Term.eq_of_same : ∀ {t u : Term}, t.same u = true → t = u
  | .word _, u, h => by cases u <;> simp_all [Term.same]
  | .literal _, u, h => by cases u <;> simp_all [Term.same]
  | .quotation body, u, h => by
    cases u with
    | quotation body' =>
      simp only [Term.same] at h
      rw [Code.eq_of_same h]
    | _ => simp [Term.same] at h

theorem Code.eq_of_same : ∀ {ts us : Code}, Code.same ts us = true → ts = us
  | [], us, h => by cases us <;> simp_all [Code.same]
  | t :: ts, us, h => by
    cases us with
    | nil => simp [Code.same] at h
    | cons u us =>
      simp only [Code.same, Bool.and_eq_true] at h
      rw [Term.eq_of_same h.1, Code.eq_of_same h.2]

end

mutual

theorem Term.same_self : ∀ t : Term, t.same t = true
  | .word _ => by simp [Term.same]
  | .literal _ => by simp [Term.same]
  | .quotation body => by simp [Term.same, Code.same_self body]

theorem Code.same_self : ∀ ts : Code, Code.same ts ts = true
  | [] => rfl
  | t :: ts => by simp [Code.same, Term.same_self t, Code.same_self ts]

end

instance : DecidableEq Term := fun t u =>
  decidable_of_iff (t.same u = true) ⟨Term.eq_of_same, fun h => h ▸ t.same_self⟩

mutual

/-- The words of a term, at any depth of quotation, from left to right. -/
def Term.words : Term → List String
  | .word name => [name]
  | .literal _ => []
  | .quotation body => Code.words body

/-- The words of code, at any depth of quotation, from left to right. -/
def Code.words : Code → List String
  | [] => []
  | t :: ts => Term.words t ++ Code.words ts

end

def boolText (b : Bool) : String := if b then "true" else "false"

def intText (n : Int64) : String := toString n.toInt

/-- A literal as it is written in a program. -/
def Literal.text : Literal → String
  | .int n => intText n
  | .float x => x.text
  | .bool b => boolText b
  | .string s => Text.quoted s

mutual

def Term.text : Term → String
  | .word name => name
  | .literal l => l.text
  | .quotation body => "[" ++ " ".intercalate (Code.texts body) ++ "]"

/-- The texts of the terms of code. -/
def Code.texts : Code → List String
  | [] => []
  | t :: ts => Term.text t :: Code.texts ts

end

def Code.text (c : Code) : String := " ".intercalate c.texts

end Concatenative
