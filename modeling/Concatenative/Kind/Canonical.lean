import Concatenative.Kind.Basic

/-! Canonical forms. Variables are numbered in the order of their first occurrences, separately for
the two sorts, so kinds that differ only in the names of their variables have one canonical form.
The numbers may be read off the list of all variables, or given out along one traversal, which keeps
a table of names for each sort. -/

namespace Concatenative

/-- The letter of canonical names. -/
def VarSort.letter : VarSort → String
  | .type => "t"
  | .stack => "s"

/-- The names of the variables of one sort, each once, in the order of their first occurrences. -/
def Kind.namesOf (k : Kind) (sort : VarSort) : List String :=
  ((k.variables.filter (·.sort = sort)).map (·.name)).eraseDups

/-- The kind with every variable named by its sort's letter and its number among the variables of
that sort. -/
def Kind.canonical (k : Kind) : Kind :=
  let types := k.namesOf .type
  let rests := k.namesOf .stack
  k.rename fun v =>
    let peers := match v.sort with
      | .type => types
      | .stack => rests
    v.sort.letter ++ toString (peers.idxOf v.name)

/-- Equality up to the names of variables. -/
def Kind.equivalent (a b : Kind) : Bool := a.canonical = b.canonical

/-- Names that have been met, in the order of their first occurrences, with their new names. -/
abbrev NameTable := List (String × String)

/-- The new name of a name. A name that is not in the table yet is entered with the number of
entries before it. -/
def NameTable.enter (letter : String) (name : String) (table : NameTable) : String × NameTable :=
  match table.lookup name with
  | some renamed => (renamed, table)
  | none =>
    let renamed := letter ++ toString table.length
    (renamed, table ++ [(name, renamed)])

/-- The tables of a traversal, one for each sort of variables. -/
structure Renamer where
  types : NameTable := []
  rests : NameTable := []

namespace Renamer

/-- Renames a variable by the table of its sort. -/
def renameVariable (v : Variable) : StateM Renamer Variable := fun r =>
  match v.sort with
  | .type =>
    let (name, types) := r.types.enter VarSort.type.letter v.name
    ({ v with name }, { r with types })
  | .stack =>
    let (name, rests) := r.rests.enter VarSort.stack.letter v.name
    ({ v with name }, { r with rests })

mutual

/-- Renames the variables of a kind as they are met: consumption before production, each top
first. -/
def renameKind : Kind → StateM Renamer Kind
  | .self => return .self
  | .named name => return .named name
  | .var v => return .var (← renameVariable v)
  | .function consumption production effects => do
    let consumption ← renameShape consumption
    let production ← renameShape production
    return .function consumption production effects
  | .vector items => return .vector (← renameShape items)

/-- Renames the variables of a shape as they are met, top first. -/
def renameShape : Shape → StateM Renamer Shape
  | [] => return []
  | k :: ks => do
    let k ← renameKind k
    let ks ← renameShape ks
    return k :: ks

end

end Renamer

/-- The kind renamed along one traversal, which starts with empty tables. -/
def Kind.renumbered (k : Kind) : Kind := ((Renamer.renameKind k).run {}).1

end Concatenative
