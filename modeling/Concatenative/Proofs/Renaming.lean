import Concatenative.Kind.Canonical
import Mathlib.Data.List.Basic

/-! Renaming the variables of kinds. A renaming acts on the list of variables entry by entry; if it
keeps the variables of each sort apart, it does not change the canonical form. -/

namespace Concatenative

theorem Shape.variables_eq_flatMap (ks : Shape) : ks.variables = ks.flatMap Kind.variables := by
  induction ks with
  | nil => rfl
  | cons k ks ih => rw [Shape.variables, ih, List.flatMap_cons]

theorem Shape.rename_eq_map (f : Variable → String) (ks : Shape) :
    ks.rename f = ks.map (·.rename f) := by
  induction ks with
  | nil => rfl
  | cons k ks ih => rw [Shape.rename, ih, List.map_cons]

/-- What holds of a kind whenever it holds of the kinds that it is built from, holds of all. -/
theorem Kind.induction {motive : Kind → Prop} (self : motive .self)
    (named : ∀ name, motive (.named name)) (var : ∀ v, motive (.var v))
    (function : ∀ consumption production effects, (∀ k ∈ consumption, motive k) →
      (∀ k ∈ production, motive k) → motive (.function consumption production effects))
    (vector : ∀ items, (∀ k ∈ items, motive k) → motive (.vector items)) (k : Kind) : motive k :=
  @Kind.rec motive (fun ks => ∀ k ∈ ks, motive k) self named var function vector
    (fun _ h => absurd h List.not_mem_nil) (fun _ _ hk hks => List.forall_mem_cons.mpr ⟨hk, hks⟩) k

namespace Kind

theorem variables_function (consumption production : Shape) (effects : Bool) :
    (Kind.function consumption production effects).variables =
      (consumption ++ production).flatMap Kind.variables := by
  rw [Kind.variables, Shape.variables_eq_flatMap, Shape.variables_eq_flatMap,
    List.flatMap_append]

theorem variables_vector (items : Shape) :
    (Kind.vector items).variables = items.flatMap Kind.variables := by
  rw [Kind.variables, Shape.variables_eq_flatMap]

theorem rename_function (f : Variable → String) (consumption production : Shape)
    (effects : Bool) :
    (Kind.function consumption production effects).rename f =
      .function (consumption.map (·.rename f)) (production.map (·.rename f)) effects := by
  rw [Kind.rename, Shape.rename_eq_map, Shape.rename_eq_map]

theorem rename_vector (f : Variable → String) (items : Shape) :
    (Kind.vector items).rename f = .vector (items.map (·.rename f)) := by
  rw [Kind.rename, Shape.rename_eq_map]

/-- Renaming depends on the names given to the variables of the kind, and on no others. -/
theorem rename_congr {k : Kind} {f g : Variable → String} (h : ∀ v ∈ k.variables, f v = g v) :
    k.rename f = k.rename g := by
  induction k using Kind.induction with
  | self => rfl
  | named name => rfl
  | var v => rw [Kind.rename, Kind.rename, h v (by simp [Kind.variables])]
  | function consumption production effects hc hp =>
    simp only [variables_function, List.mem_flatMap, List.mem_append] at h
    rw [rename_function, rename_function,
      List.map_congr_left fun k hk => hc k hk fun v hv => h v ⟨k, .inl hk, hv⟩,
      List.map_congr_left fun k hk => hp k hk fun v hv => h v ⟨k, .inr hk, hv⟩]
  | vector items hitems =>
    simp only [variables_vector, List.mem_flatMap] at h
    rw [rename_vector, rename_vector,
      List.map_congr_left fun k hk => hitems k hk fun v hv => h v ⟨k, hk, hv⟩]

theorem rename_name (k : Kind) : k.rename (·.name) = k := by
  induction k using Kind.induction with
  | self => rfl
  | named name => rfl
  | var v => rfl
  | function consumption production effects hc hp =>
    rw [rename_function, List.map_congr_left hc, List.map_congr_left hp, List.map_id',
      List.map_id']
  | vector items hitems => rw [rename_vector, List.map_congr_left hitems, List.map_id']

theorem rename_rename (f g : Variable → String) (k : Kind) :
    (k.rename f).rename g = k.rename fun v => g { v with name := f v } := by
  induction k using Kind.induction with
  | self => rfl
  | named name => rfl
  | var v => rfl
  | function consumption production effects hc hp =>
    rw [rename_function, rename_function, rename_function, List.map_map, List.map_map]
    exact congrArg₂ (Kind.function · · effects) (List.map_congr_left hc) (List.map_congr_left hp)
  | vector items hitems =>
    rw [rename_vector, rename_vector, rename_vector, List.map_map]
    exact congrArg Kind.vector (List.map_congr_left hitems)

theorem variables_rename (f : Variable → String) (k : Kind) :
    (k.rename f).variables = k.variables.map fun v => { v with name := f v } := by
  induction k using Kind.induction with
  | self => rfl
  | named name => rfl
  | var v => rfl
  | function consumption production effects hc hp =>
    simp only [rename_function, variables_function, List.map_flatMap, ← List.map_append,
      List.flatMap_map]
    exact List.flatMap_congr fun k hk => (List.mem_append.mp hk).elim (hc k) (hp k)
  | vector items hitems =>
    simp only [rename_vector, variables_vector, List.map_flatMap, List.flatMap_map]
    exact List.flatMap_congr hitems

end Kind

theorem Shape.variables_rename (f : Variable → String) (ks : Shape) :
    Shape.variables (ks.map (·.rename f)) = ks.variables.map fun v => { v with name := f v } := by
  simpa only [Kind.rename_vector, Kind.variables] using Kind.variables_rename f (.vector ks)

section NoDuplicates

variable {α β : Type} [BEq α] [LawfulBEq α] [BEq β] [LawfulBEq β] {f : α → β}

theorem idxOf_map_of_inj {l : List α} {a : α} (h : ∀ b ∈ l, f b = f a → b = a) :
    (l.map f).idxOf (f a) = l.idxOf a := by
  induction l with
  | nil => rfl
  | cons b l ih =>
    have hhead : (f b == f a) = (b == a) := by
      rw [Bool.eq_iff_iff, beq_iff_eq, beq_iff_eq]
      exact ⟨h b List.mem_cons_self, congrArg f⟩
    rw [List.map_cons, List.idxOf_cons, List.idxOf_cons, hhead,
      ih fun c hc => h c (List.mem_cons_of_mem b hc)]

/-- A map that keeps the entries of a list apart may be taken before or after duplicates are
dropped. -/
theorem eraseDups_map_of_inj : ∀ l : List α, (∀ a ∈ l, ∀ b ∈ l, f a = f b → a = b) →
    (l.map f).eraseDups = l.eraseDups.map f
  | [], _ => by simp
  | a :: l, h => by
    have hothers : (l.map f).filter (fun c => !c == f a) =
        (l.filter fun b => !b == a).map f := by
      rw [List.filter_map]
      refine congrArg (List.map f) (List.filter_congr fun b hb => congrArg (!·) ?_)
      rw [Bool.eq_iff_iff, beq_iff_eq, beq_iff_eq]
      exact ⟨h b (by simp [hb]) a (by simp), congrArg f⟩
    rw [List.map_cons, List.eraseDups_cons, List.eraseDups_cons, List.map_cons, hothers,
      eraseDups_map_of_inj (l.filter fun b => !b == a) fun b hb c hc =>
        h b (by simp [(List.mem_filter.mp hb).1]) c (by simp [(List.mem_filter.mp hc).1])]
termination_by l => l.length
decreasing_by exact Nat.lt_succ_of_le (List.length_filter_le _ l)

end NoDuplicates

namespace Kind

theorem mem_namesOf {k : Kind} {sort : VarSort} {name : String} :
    name ∈ k.namesOf sort ↔ ⟨sort, name⟩ ∈ k.variables := by
  rw [namesOf, List.mem_eraseDups, List.mem_map]
  constructor
  · rintro ⟨⟨sort', name'⟩, hv, rfl⟩
    obtain ⟨hmem, hsort⟩ := List.mem_filter.mp hv
    have hsort : sort' = sort := by simpa using hsort
    exact hsort ▸ hmem
  · intro h
    exact ⟨⟨sort, name⟩, List.mem_filter.mpr ⟨h, by simp⟩, rfl⟩

theorem canonical_eq (k : Kind) :
    k.canonical = k.rename fun v => v.sort.letter ++ toString ((k.namesOf v.sort).idxOf v.name) :=
  rename_congr fun v _ => by cases v.sort <;> rfl

/-- Variables of one sort keep different names. -/
def KeepsApart (f : Variable → String) (k : Kind) : Prop :=
  ∀ v ∈ k.variables, ∀ w ∈ k.variables, v.sort = w.sort → f v = f w → v = w

theorem KeepsApart.namesOf_rename {f : Variable → String} {k : Kind} (h : KeepsApart f k)
    (sort : VarSort) :
    (k.rename f).namesOf sort = (k.namesOf sort).map fun name => f ⟨sort, name⟩ := by
  have hnames : ((k.rename f).variables.filter (·.sort = sort)).map (·.name) =
      ((k.variables.filter (·.sort = sort)).map (·.name)).map fun name => f ⟨sort, name⟩ := by
    rw [variables_rename, List.filter_map, List.map_map, List.map_map]
    refine List.map_congr_left fun v hv => ?_
    have hsort : v.sort = sort := by simpa using (List.mem_filter.mp hv).2
    subst hsort
    rfl
  rw [namesOf, namesOf, hnames]
  refine eraseDups_map_of_inj _ fun a ha b hb hab => ?_
  have ha := mem_namesOf.mp (List.mem_eraseDups.mpr ha)
  have hb := mem_namesOf.mp (List.mem_eraseDups.mpr hb)
  exact congrArg Variable.name (h _ ha _ hb rfl hab)

theorem KeepsApart.canonical_rename {f : Variable → String} {k : Kind} (h : KeepsApart f k) :
    (k.rename f).canonical = k.canonical := by
  rw [canonical_eq, canonical_eq, rename_rename]
  refine rename_congr fun v hv => ?_
  have hidx : ((k.namesOf v.sort).map fun name => f ⟨v.sort, name⟩).idxOf (f v) =
      (k.namesOf v.sort).idxOf v.name :=
    idxOf_map_of_inj (a := v.name) fun name hname heq =>
      congrArg Variable.name (h _ (mem_namesOf.mp hname) v hv rfl heq)
  rw [h.namesOf_rename, hidx]

theorem KeepsApart.equivalent_rename {f : Variable → String} {k : Kind} (h : KeepsApart f k) :
    k.equivalent (k.rename f) = true := by
  rw [equivalent, h.canonical_rename]
  exact decide_eq_true rfl

end Kind

end Concatenative
