import Concatenative.Proofs.Renaming
import Concatenative.Substitution.Resolve
import Mathlib.Data.List.Perm.Subperm
import Mathlib.Logic.Relation

/-! How resolution descends from a kind: from a variable to its binding, and from a function or a
vector to its entries, never past a kind that is already on the path. No kind is on a path twice,
and there are only the parts of the root and of the bindings to choose from, so the depth that
resolution is given is never used up. -/

namespace Concatenative

mutual

/-- The kinds that a kind is built from, itself included. -/
def Kind.parts : Kind → List Kind
  | .self => [.self]
  | .named name => [.named name]
  | .var v => [.var v]
  | .function c p e => .function c p e :: (Shape.parts c ++ Shape.parts p)
  | .vector items => .vector items :: Shape.parts items

def Shape.parts : Shape → List Kind
  | [] => []
  | k :: ks => Kind.parts k ++ Shape.parts ks

end

mutual

theorem Kind.length_parts : ∀ k : Kind, k.parts.length = k.size
  | .self | .named _ | .var _ => rfl
  | .function c p _ => by
    simp [Kind.parts, Kind.size, Shape.length_parts c, Shape.length_parts p]
  | .vector items => by simp [Kind.parts, Kind.size, Shape.length_parts items]

theorem Shape.length_parts : ∀ ks : Shape, ks.parts.length = ks.size
  | [] => rfl
  | k :: ks => by simp [Shape.parts, Shape.size, Kind.length_parts k, Shape.length_parts ks]

end

theorem Shape.mem_parts {k : Kind} : ∀ {ks : Shape}, k ∈ ks.parts ↔ ∃ k' ∈ ks, k ∈ k'.parts
  | [] => by simp [Shape.parts]
  | k' :: ks => by simp [Shape.parts, Shape.mem_parts]

theorem Kind.mem_parts_self (k : Kind) : k ∈ k.parts := by
  cases k <;> simp [Kind.parts]

theorem Shape.mem_parts_of_mem {k : Kind} {ks : Shape} (h : k ∈ ks) : k ∈ ks.parts :=
  Shape.mem_parts.mpr ⟨k, h, k.mem_parts_self⟩

/-- The entries of a function or a vector. -/
def Kind.entries : Kind → List Kind
  | .function c p _ => c ++ p
  | .vector items => items
  | _ => []

theorem Shape.size_le_of_mem {k : Kind} {ks : Shape} (h : k ∈ ks) : k.size ≤ ks.size := by
  induction ks with
  | nil => cases h
  | cons k' ks ih =>
    rw [Shape.size]
    rcases List.mem_cons.mp h with rfl | hmem
    · omega
    · have := ih hmem
      omega

theorem Kind.size_lt_of_mem_entries {k k' : Kind} (h : k' ∈ k.entries) : k'.size < k.size := by
  cases k with
  | function c p e =>
    rw [Kind.size]
    rcases List.mem_append.mp h with hc | hp
    · have := Shape.size_le_of_mem hc
      omega
    · have := Shape.size_le_of_mem hp
      omega
  | vector items =>
    have : k'.size ≤ Shape.size items := Shape.size_le_of_mem h
    rw [Kind.size]
    omega
  | _ => simp [Kind.entries] at h

theorem Kind.variables_subset_of_mem_entries {k k' : Kind} (h : k' ∈ k.entries) :
    k'.variables ⊆ k.variables := by
  intro v hv
  cases k with
  | function c p e =>
    rw [Kind.variables_function]
    exact List.mem_flatMap.mpr ⟨k', h, hv⟩
  | vector items =>
    rw [Kind.variables_vector]
    exact List.mem_flatMap.mpr ⟨k', h, hv⟩
  | _ => simp [Kind.entries] at h

theorem Kind.mem_parts_of_mem_entries {j k k' : Kind} (hj : j ∈ k.parts) (h : k' ∈ j.entries) :
    k' ∈ k.parts := by
  induction k using Kind.induction with
  | self | named _ | var _ =>
    obtain rfl : j = _ := by simpa [Kind.parts] using hj
    simp [Kind.entries] at h
  | function c p e hc hp =>
    rw [Kind.parts, List.mem_cons, List.mem_append, Shape.mem_parts, Shape.mem_parts] at hj ⊢
    rcases hj with rfl | ⟨i, hi, hj⟩ | ⟨i, hi, hj⟩
    · rcases List.mem_append.mp h with hk' | hk'
      · exact .inr (.inl ⟨k', hk', k'.mem_parts_self⟩)
      · exact .inr (.inr ⟨k', hk', k'.mem_parts_self⟩)
    · exact .inr (.inl ⟨i, hi, hc i hi hj⟩)
    · exact .inr (.inr ⟨i, hi, hp i hi hj⟩)
  | vector items hitems =>
    rw [Kind.parts, List.mem_cons, Shape.mem_parts] at hj ⊢
    rcases hj with rfl | ⟨i, hi, hj⟩
    · exact .inr ⟨k', h, k'.mem_parts_self⟩
    · exact .inr ⟨i, hi, hitems i hi hj⟩

theorem mem_of_lookup {α β : Type} [BEq α] [LawfulBEq α] {l : List (α × β)} {a : α} {b : β}
    (h : l.lookup a = some b) : (a, b) ∈ l := by
  obtain ⟨before, after, hl, _⟩ := List.lookup_eq_some_iff.mp h
  rw [hl]
  exact List.mem_append_right before List.mem_cons_self

namespace Substitution

variable {u : Substitution}

theorem mem_bindings_of_find? {name : String} {b : Kind} (h : u.find? name = some b) :
    (name, b) ∈ u.bindings :=
  mem_of_lookup h

theorem mem_names_of_find? {name : String} {b : Kind} (h : u.find? name = some b) :
    name ∈ u.names ∧ ∀ v ∈ b.variables, v.name ∈ u.names := by
  have hmem := mem_bindings_of_find? h
  refine ⟨List.mem_flatMap.mpr ⟨_, hmem, by simp⟩, fun v hv => ?_⟩
  exact List.mem_flatMap.mpr ⟨_, hmem, List.mem_cons_of_mem _ (List.mem_map_of_mem hv)⟩

theorem names_subset_reserved (u : Substitution) (k : Kind) : u.names ⊆ u.reserved k :=
  List.subset_append_left _ _

theorem name_mem_reserved (u : Substitution) {k : Kind} :
    ∀ v ∈ k.variables, v.name ∈ u.reserved k :=
  fun _ hv => List.mem_append_right _ (List.mem_map_of_mem hv)

/-- What resolution goes on to: the binding of a variable, the entries of any other kind. -/
def successors (u : Substitution) : Kind → List Kind
  | .var v => (u.find? v.name).toList
  | k => k.entries

theorem mem_successors {k k' : Kind} : k' ∈ u.successors k ↔
    k' ∈ k.entries ∨ ∃ v, k = .var v ∧ u.find? v.name = some k' := by
  cases k <;> simp [successors, Kind.entries, Option.mem_toList]

/-- The parts of a kind and of all bindings. -/
def parts (u : Substitution) (root : Kind) : List Kind :=
  root.parts ++ Shape.parts (u.bindings.map (·.2))

theorem length_parts (u : Substitution) (root : Kind) :
    (u.parts root).length + 1 = u.depthBound root := by
  rw [parts, List.length_append, Kind.length_parts, Shape.length_parts, depthBound, size]
  omega

/-- There is room for one more kind on every path of parts without repetition. -/
theorem length_lt_depthBound {root : Kind} {path : List Kind} (hnodup : path.Nodup)
    (hparts : path ⊆ u.parts root) : path.length < u.depthBound root := by
  have hle := hnodup.length_le_of_subset hparts
  have hbound := u.length_parts root
  omega

theorem mem_parts_of_find? {name : String} {b : Kind} (h : u.find? name = some b) (root : Kind) :
    b ∈ u.parts root := by
  have hmem := List.mem_map_of_mem (f := Prod.snd) (mem_bindings_of_find? h)
  exact List.mem_append_right _ (Shape.mem_parts_of_mem hmem)

theorem mem_parts_of_mem_successors {root k k' : Kind} (hk : k ∈ u.parts root)
    (h : k' ∈ u.successors k) : k' ∈ u.parts root := by
  rcases mem_successors.mp h with hentry | ⟨v, rfl, hbinding⟩
  · rw [parts, List.mem_append] at hk ⊢
    rcases hk with hk | hk
    · exact .inl (Kind.mem_parts_of_mem_entries hk hentry)
    · obtain ⟨b, hb, hk⟩ := Shape.mem_parts.mp hk
      exact .inr (Shape.mem_parts.mpr ⟨b, hb, Kind.mem_parts_of_mem_entries hk hentry⟩)
  · exact mem_parts_of_find? hbinding root

/-- Resolution of `root` comes to `k` with the kinds of `path` in progress, the latest first. -/
inductive Descent (u : Substitution) (root : Kind) : List Kind → Kind → Prop
  | root : Descent u root [] root
  | step {path : List Kind} {k k' : Kind} : Descent u root path k → k ∉ path →
    k' ∈ u.successors k → Descent u root (k :: path) k'

namespace Descent

variable {root k : Kind} {path : List Kind}

theorem nodup (h : u.Descent root path k) : path.Nodup := by
  induction h with
  | root => exact List.nodup_nil
  | step _ hnew _ ih => exact List.nodup_cons.mpr ⟨hnew, ih⟩

theorem mem_parts (h : u.Descent root path k) : k ∈ u.parts root ∧ path ⊆ u.parts root := by
  induction h with
  | root => exact ⟨List.mem_append_left _ root.mem_parts_self, List.nil_subset _⟩
  | step _ _ hk' ih =>
    exact ⟨mem_parts_of_mem_successors ih.1 hk', List.cons_subset.mpr ih⟩

theorem length_lt (h : u.Descent root path k) : path.length < u.depthBound root :=
  length_lt_depthBound h.nodup h.mem_parts.2

/-- A recursion of at least this depth is not at its end. -/
theorem depth_ne_zero (h : u.Descent root path k) {depth : Nat}
    (hdepth : u.depthBound root ≤ depth + path.length) : depth ≠ 0 := by
  have hlt := h.length_lt
  omega

/-- Every kind of the path leads to the kind it has come to. -/
theorem leads (h : u.Descent root path k) :
    ∀ j ∈ path, Relation.TransGen (fun k k' => k' ∈ u.successors k) j k := by
  induction h with
  | root => simp
  | step _ _ hk' ih =>
    intro j hj
    rcases List.mem_cons.mp hj with rfl | hj
    · exact .single hk'
    · exact .tail (ih j hj) hk'

end Descent

/-- Resolution of `root` comes to `k`, with `depth` more kinds allowed on the path. -/
structure Visit (u : Substitution) (root : Kind) (depth : Nat) (path : List Kind) (k : Kind) :
    Prop where
  descent : u.Descent root path k
  depth_eq : depth + path.length = u.depthBound root

namespace Visit

variable {root k k' : Kind} {depth : Nat} {path : List Kind}

theorem start (u : Substitution) (root : Kind) : u.Visit root (u.depthBound root) [] root :=
  ⟨.root, rfl⟩

theorem depth_ne_zero (h : u.Visit root depth path k) : depth ≠ 0 :=
  h.descent.depth_ne_zero (Nat.le_of_eq h.depth_eq.symm)

theorem step (h : u.Visit root (depth + 1) path k) (hpath : k ∉ path)
    (hk' : k' ∈ u.successors k) : u.Visit root depth (k :: path) k' := by
  have heq := h.depth_eq
  exact ⟨h.descent.step hpath hk', by rw [List.length_cons]; omega⟩

end Visit

end Substitution

end Concatenative
