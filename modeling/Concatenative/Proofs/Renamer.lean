import Concatenative.Proofs.Renaming

/-! Numbering along one traversal. What the tables say at any time is fixed by the variables that
have been met: each name has its position among the names of its sort, and a name that has been
entered keeps its position. So it does not matter that the traversal renames a variable before it
has met the others, and it ends with the canonical form. -/

namespace Concatenative

namespace Renamer

/-- The names of the variables of one sort that have been met, in the order of their first
occurrences. -/
def namesMet (met : List Variable) (sort : VarSort) : List String :=
  ((met.filter (·.sort = sort)).map (·.name)).eraseDups

/-- The new name of a variable that has been met. -/
def newName (met : List Variable) (v : Variable) : String :=
  v.sort.letter ++ toString ((namesMet met v.sort).idxOf v.name)

/-- The table of one sort when some variables have been met. -/
def tableOf (met : List Variable) (sort : VarSort) : NameTable :=
  (namesMet met sort).mapIdx fun number name => (name, sort.letter ++ toString number)

/-- The tables when some variables have been met. -/
def after (met : List Variable) : Renamer := ⟨tableOf met .type, tableOf met .stack⟩

variable {met : List Variable} {sort : VarSort}

theorem namesMet_append (met more : List Variable) (sort : VarSort) :
    ∃ names, namesMet (met ++ more) sort = namesMet met sort ++ names := by
  unfold namesMet
  rw [List.filter_append, List.map_append, List.eraseDups_append]
  exact ⟨_, rfl⟩

theorem namesMet_append_singleton (met : List Variable) (sort : VarSort) (name : String) :
    namesMet (met ++ [⟨sort, name⟩]) sort =
      if name ∈ namesMet met sort then namesMet met sort else namesMet met sort ++ [name] := by
  simp only [namesMet, List.filter_append, List.map_append, List.eraseDups_append,
    List.mem_eraseDups]
  split
  · next hmem => simp [List.removeAll, hmem]
  · next hnew => simp [List.removeAll, hnew, List.eraseDups_cons]

theorem tableOf_append_of_ne {v : Variable} (h : v.sort ≠ sort) :
    tableOf (met ++ [v]) sort = tableOf met sort := by
  simp [tableOf, namesMet, h]

/-- A variable that has been met keeps its new name. -/
theorem newName_append {v : Variable} (h : v ∈ met) (more : List Variable) :
    newName (met ++ more) v = newName met v := by
  have hmem : v.name ∈ namesMet met v.sort :=
    List.mem_eraseDups.mpr (List.mem_map_of_mem (List.mem_filter.mpr ⟨h, decide_eq_true rfl⟩))
  obtain ⟨names, hnames⟩ := namesMet_append met more v.sort
  rw [newName, newName, hnames, List.idxOf_append_of_mem hmem]

theorem lookup_mapIdx (names : List String) (f : Nat → String) (name : String) :
    (names.mapIdx fun number name => (name, f number)).lookup name =
      if name ∈ names then some (f (names.idxOf name)) else none := by
  induction names generalizing f with
  | nil => rfl
  | cons first names ih =>
    rw [List.mapIdx_cons, List.lookup_cons, ih]
    by_cases h : name = first
    · simp [h]
    · simp [h, beq_false_of_ne h, List.idxOf_cons_ne names (Ne.symm h)]

/-- Entering a name takes the table to the one in which a variable of that name has been met. -/
theorem enter_tableOf (met : List Variable) (sort : VarSort) (name : String) :
    (tableOf met sort).enter sort.letter name =
      (newName (met ++ [⟨sort, name⟩]) ⟨sort, name⟩, tableOf (met ++ [⟨sort, name⟩]) sort) := by
  have hlookup := lookup_mapIdx (namesMet met sort) (sort.letter ++ toString ·) name
  have hnames := namesMet_append_singleton met sort name
  by_cases h : name ∈ namesMet met sort
  · rw [if_pos h] at hlookup hnames
    simp only [NameTable.enter, newName, tableOf, hnames, hlookup]
  · rw [if_neg h] at hlookup hnames
    have hlast : (namesMet met sort ++ [name]).idxOf name = (namesMet met sort).length := by
      rw [List.idxOf_append_of_notMem h, List.idxOf_cons_self, Nat.add_zero]
    simp only [NameTable.enter, newName, tableOf, hnames, hlookup, hlast, List.length_mapIdx,
      List.mapIdx_concat]

theorem renameVariable_after (met : List Variable) (v : Variable) :
    renameVariable v (after met) =
      ({ v with name := newName (met ++ [v]) v }, after (met ++ [v])) := by
  obtain ⟨sort, name⟩ := v
  have henter := enter_tableOf met sort name
  cases sort with
  | type =>
    have hrests : tableOf (met ++ [⟨.type, name⟩]) .stack = tableOf met .stack :=
      tableOf_append_of_ne VarSort.noConfusion
    simp only [renameVariable, after, henter, hrests]
  | stack =>
    have htypes : tableOf (met ++ [⟨.stack, name⟩]) .type = tableOf met .type :=
      tableOf_append_of_ne VarSort.noConfusion
    simp only [renameVariable, after, henter, htypes]

/-- A part of the traversal that meets some variables and gives what the new names say, also the
names that the variables have after more have been met. -/
def Visits (visited : List Variable) {α : Type} (value : (Variable → String) → α)
    (x : StateM Renamer α) : Prop :=
  ∀ met more, x (after met) = (value (newName (met ++ visited ++ more)), after (met ++ visited))

variable {α β : Type} {visited visited' : List Variable} {value : (Variable → String) → α}
  {x : StateM Renamer α}

theorem visits_pure (a : α) : Visits [] (fun _ => a) (pure a) := by
  intro met more
  rw [List.append_nil]
  rfl

theorem Visits.bind {f : α → StateM Renamer β} {value' : α → (Variable → String) → β}
    (hx : Visits visited value x) (hf : ∀ a, Visits visited' (value' a) (f a)) :
    Visits (visited ++ visited') (fun naming => value' (value naming) naming) (x >>= f) := by
  intro met more
  have hfirst := hx met (visited' ++ more)
  have hsecond := fun a => hf a (met ++ visited) more
  rw [← List.append_assoc] at hfirst
  show f (x (after met)).1 (x (after met)).2 = _
  rw [hfirst, hsecond, List.append_assoc met]

theorem Visits.map (hx : Visits visited value x) (f : α → β) :
    Visits visited (fun naming => f (value naming)) (x >>= fun a => pure (f a)) := by
  have hbind := hx.bind fun a => visits_pure (f a)
  rwa [List.append_nil] at hbind

theorem visits_renameVariable (v : Variable) :
    Visits [v] (fun naming => { v with name := naming v }) (renameVariable v) := by
  intro met more
  have hmet : v ∈ met ++ [v] := List.mem_append_right met List.mem_cons_self
  rw [renameVariable_after, ← newName_append hmet more]

theorem visits_renameShape {ks : Shape}
    (h : ∀ k ∈ ks, Visits k.variables (k.rename ·) (renameKind k)) :
    Visits ks.variables (ks.rename ·) (renameShape ks) := by
  induction ks with
  | nil => exact visits_pure []
  | cons k ks ih =>
    obtain ⟨hk, hks⟩ := List.forall_mem_cons.mp h
    exact hk.bind fun k' => (ih hks).map (k' :: ·)

theorem visits_renameKind (k : Kind) : Visits k.variables (k.rename ·) (renameKind k) := by
  induction k using Kind.induction with
  | self => exact visits_pure Kind.self
  | named name => exact visits_pure (Kind.named name)
  | var v => exact (visits_renameVariable v).map Kind.var
  | function consumption production effects hc hp =>
    exact (visits_renameShape hc).bind fun consumption' =>
      (visits_renameShape hp).map fun production' => Kind.function consumption' production' effects
  | vector items hitems => exact (visits_renameShape hitems).map Kind.vector

end Renamer

/-- One traversal gives the canonical form. -/
theorem Kind.renumbered_eq_canonical (k : Kind) : k.renumbered = k.canonical := by
  have hvisits := Renamer.visits_renameKind k [] []
  rw [List.nil_append, List.append_nil] at hvisits
  rw [canonical_eq]
  exact congrArg Prod.fst hvisits

end Concatenative
