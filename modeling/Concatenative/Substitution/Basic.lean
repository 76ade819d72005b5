import Concatenative.Kind.Text

/-! Substitutions bind variable names to kinds. A name is bound for both sorts of variables at once,
and bindings may lead back to the names they belong to. -/

namespace Concatenative

/-- Bindings of variable names, each name at most once if built by `insert`. -/
structure Substitution where
  bindings : List (String × Kind) := []

namespace Substitution

/-- The binding of a name. -/
def find? (u : Substitution) (name : String) : Option Kind := u.bindings.lookup name

/-- Binds a name, in place of any earlier binding of it. -/
def insert (u : Substitution) (name : String) (k : Kind) : Substitution :=
  ⟨(name, k) :: u.bindings.filter fun b => b.1 ≠ name⟩

theorem lookup_filter_ne {name other : String} (h : other ≠ name)
    (bindings : List (String × Kind)) :
    (bindings.filter fun b => b.1 ≠ name).lookup other = bindings.lookup other := by
  induction bindings with
  | nil => rfl
  | cons b rest ih =>
    obtain ⟨bound, kind⟩ := b
    by_cases hb : bound = name
    · subst hb
      have hne : (other == bound) = false := by simpa using h
      rw [List.filter_cons_of_neg (by simp), List.lookup_cons, hne, ih]
    · rw [List.filter_cons_of_pos (by simpa using hb), List.lookup_cons, List.lookup_cons, ih]

theorem find?_insert (u : Substitution) (name other : String) (k : Kind) :
    (u.insert name k).find? other = if other = name then some k else u.find? other := by
  by_cases h : other = name
  · simp [find?, insert, h]
  · have : (other == name) = false := by simpa using h
    simp only [find?, insert, List.lookup_cons, this, h, if_false]
    exact lookup_filter_ne h u.bindings

/-- The substitution of a list of bindings; of several for one name, the last counts. -/
def ofList (bindings : List (String × Kind)) : Substitution :=
  bindings.foldl (fun u b => u.insert b.1 b.2) {}

/-- The names that occur in a substitution: bound names, and those of the variables in bindings. -/
def names (u : Substitution) : List String :=
  u.bindings.flatMap fun b => b.1 :: b.2.variables.map (·.name)

/-- The number of kinds that the bindings are built from. -/
def size (u : Substitution) : Nat := Shape.size (u.bindings.map (·.2))

end Substitution

end Concatenative
