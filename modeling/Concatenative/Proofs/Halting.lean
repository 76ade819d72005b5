import Concatenative.Proofs.WithoutRecursion

/-! Resolution on an agenda stops, whatever the bindings. Neither the agenda nor the kinds on it
need to get smaller; but no kind is on the path twice, and only the parts of the root and of the
bindings can be, so there is a last level at which every kind is already on the path. What an item
can cost is counted by the room that the path has left where the item will be reached, and every
step lowers the cost of all that is left to do. -/

namespace Concatenative

theorem Shape.length_le_size (ks : Shape) : ks.length ≤ ks.size := by
  induction ks with
  | nil => exact Nat.zero_le _
  | cons k ks ih =>
    have hpos : 0 < k.size := by cases k <;> simp [Kind.size]
    rw [List.length_cons, Shape.size]
    omega

theorem Kind.length_entries_le (k : Kind) : k.entries.length ≤ k.size := by
  cases k with
  | function c p e =>
    have hc := Shape.length_le_size c
    have hp := Shape.length_le_size p
    rw [Kind.entries, List.length_append, Kind.size]
    omega
  | vector items =>
    have hitems := Shape.length_le_size items
    rw [Kind.entries, Kind.size]
    omega
  | _ => exact Nat.zero_le _

theorem Kind.size_le_of_mem_parts {j k : Kind} (h : j ∈ k.parts) : j.size ≤ k.size := by
  induction k using Kind.induction with
  | self | named _ | var _ =>
    obtain rfl : j = _ := by simpa [Kind.parts] using h
    exact Nat.le_refl _
  | function c p e hc hp =>
    rw [Kind.parts, List.mem_cons, List.mem_append, Shape.mem_parts, Shape.mem_parts] at h
    rcases h with rfl | ⟨i, hi, hj⟩ | ⟨i, hi, hj⟩
    · exact Nat.le_refl _
    · have hsize := Shape.size_le_of_mem hi
      have hle := hc i hi hj
      rw [Kind.size]
      omega
    · have hsize := Shape.size_le_of_mem hi
      have hle := hp i hi hj
      rw [Kind.size]
      omega
  | vector items hitems =>
    rw [Kind.parts, List.mem_cons, Shape.mem_parts] at h
    rcases h with rfl | ⟨i, hi, hj⟩
    · exact Nat.le_refl _
    · have hsize := Shape.size_le_of_mem hi
      have hle := hitems i hi hj
      rw [Kind.size]
      omega

namespace Substitution

variable {u : Substitution} {root k : Kind}

theorem length_entries_le_of_mem_parts (h : k ∈ u.parts root) :
    k.entries.length ≤ u.depthBound root := by
  have hentries := k.length_entries_le
  rw [← length_parts, parts, List.length_append, Kind.length_parts, Shape.length_parts]
  rcases List.mem_append.mp h with hk | hk
  · have hsize := Kind.size_le_of_mem_parts hk
    omega
  · obtain ⟨b, hb, hk⟩ := Shape.mem_parts.mp hk
    have hsize := Kind.size_le_of_mem_parts hk
    have hle := Shape.size_le_of_mem hb
    omega

end Substitution

namespace Agenda

open Substitution

variable {u : Substitution} {reserved : List String} {root : Kind} {limit : Nat}

/-- What it may cost to enter a kind when there is room for so many more kinds on the path: it can
have up to `limit` entries, which are entered with less room. -/
def cost (limit : Nat) : Nat → Nat
  | 0 => 1
  | room + 1 => (limit + 1) * cost limit room + 3

theorem cost_pos (limit room : Nat) : 0 < cost limit room := by
  cases room <;> simp [cost]

/-- What a list of items may cost when `used` kinds are on the path at its first item. -/
def load (limit : Nat) : Nat → List Item → Nat
  | _, [] => 0
  | used, .enter _ _ :: items => cost limit (limit - used) + load limit used items
  | used, .leave count :: items => 1 + load limit (used - count) items
  | used, .function _ _ _ :: items => 1 + load limit used items
  | used, .vector _ :: items => 1 + load limit used items

theorem load_entries (used : Nat) (entries : List Kind) (items : List Item) :
    load limit used (entries.map (.enter · true) ++ items) =
      entries.length * cost limit (limit - used) + load limit used items := by
  induction entries with
  | nil => simp
  | cons k entries ih =>
    rw [List.map_cons, List.cons_append, load, ih, List.length_cons, Nat.add_mul, Nat.one_mul]
    omega

/-- What may still be to do in a state. The end of a chain is entered with the chain on the path,
which is taken off before the items are reached. -/
def weight (limit : Nat) (s : Agenda) : Nat :=
  match s.chain with
  | none => load limit s.path.length s.items
  | some c =>
    cost limit (limit - s.path.length) + 2 + load limit (s.path.length - c.pushed) s.items

/-- What holds throughout: only parts of the root and of the bindings are on the path, none of them
twice, and on the agenda, and a chain that is followed is on the path. -/
structure Inside (u : Substitution) (root : Kind) (s : Agenda) : Prop where
  nodup : s.path.Nodup
  path : s.path ⊆ u.parts root
  items : ∀ k nested, .enter k nested ∈ s.items → k ∈ u.parts root
  chain : ∀ c, s.chain = some c → c.pushed ≤ s.path.length

namespace Inside

variable {s t : Agenda}

theorem start (u : Substitution) (k : Kind) (names : NameSupply) :
    Inside u k (Agenda.start k names) := by
  refine ⟨List.nodup_nil, List.nil_subset _, fun k' nested h => ?_, fun c hc => by cases hc⟩
  obtain ⟨rfl, -⟩ := Item.enter.inj (List.mem_singleton.mp h)
  exact List.mem_append_left _ k'.mem_parts_self

theorem length_lt (h : Inside u root s) : s.path.length < u.depthBound root :=
  length_lt_depthBound h.nodup h.path

theorem push (h : Inside u root s) {k : Kind} (hk : k ∈ u.parts root) (hnew : k ∉ s.path)
    (hpath : t.path = k :: s.path)
    (hitems : ∀ k' nested, .enter k' nested ∈ t.items → k' ∈ u.parts root)
    (hchain : ∀ c, t.chain = some c → c.pushed ≤ s.path.length + 1) : Inside u root t := by
  refine ⟨?_, ?_, hitems, ?_⟩
  · rw [hpath]
    exact List.nodup_cons.mpr ⟨hnew, h.nodup⟩
  · rw [hpath]
    exact List.cons_subset.mpr ⟨hk, h.path⟩
  · rw [hpath]
    exact hchain

/-- A kind with a bounded number of entries costs more than its entries with one more kind on the
path. -/
theorem cost_push (h : Inside u root s) {count : Nat} (hcount : count ≤ u.depthBound root) :
    let less := cost (u.depthBound root) (u.depthBound root - (s.path.length + 1))
    count * less + less + 2 < cost (u.depthBound root) (u.depthBound root - s.path.length) := by
  have hroom := h.length_lt
  have hsucc : u.depthBound root - s.path.length =
      u.depthBound root - (s.path.length + 1) + 1 := by omega
  have hle := Nat.mul_le_mul_right
    (cost (u.depthBound root) (u.depthBound root - (s.path.length + 1))) hcount
  rw [hsucc, cost, Nat.add_mul, Nat.one_mul]
  omega

theorem drop (h : Inside u root s) (count : Nat) (hpath : t.path = s.path.drop count)
    (hitems : t.items = s.items) (hchain : t.chain = none) : Inside u root t := by
  refine ⟨?_, ?_, ?_, ?_⟩
  · rw [hpath]
    exact h.nodup.sublist (List.drop_sublist count _)
  · rw [hpath]
    exact fun _ hk => h.path (List.mem_of_mem_drop hk)
  · rw [hitems]
    exact h.items
  · rw [hchain]
    exact fun c hc => by cases hc

end Inside

/-- The invariant holds, and less than `n` is left to do. -/
structure Within (u : Substitution) (root : Kind) (n : Nat) (s : Agenda) : Prop where
  inside : Inside u root s
  lt : weight (u.depthBound root) s < n

section Steps

variable {s t : Agenda} {n : Nat}

theorem Within.of_chain_none (h : Inside u root s) (hchain : s.chain = none)
    (hlt : load (u.depthBound root) s.path.length s.items < n) : Within u root n s :=
  ⟨h, by rw [weight, hchain]; exact hlt⟩

theorem Within.of_chain_some (h : Inside u root s) {c : Chain} (hchain : s.chain = some c)
    (hlt : cost (u.depthBound root) (u.depthBound root - s.path.length) + 2 +
      load (u.depthBound root) (s.path.length - c.pushed) s.items < n) : Within u root n s :=
  ⟨h, by rw [weight, hchain]; exact hlt⟩

theorem descend_within (hs : Inside u root s) (hchain : s.chain = none) {k : Kind}
    (hk : k ∈ u.parts root) (hnew : k ∉ s.path) {assemble : Item}
    (hassemble : ∀ k' nested, assemble ≠ .enter k' nested)
    (hload : ∀ limit used items, load limit used (assemble :: items) =
      1 + load limit used items) :
    Within u root (cost (u.depthBound root) (u.depthBound root - s.path.length) +
      load (u.depthBound root) s.path.length s.items) (s.descend k k.entries assemble) := by
  have hcost := hs.cost_push (length_entries_le_of_mem_parts hk)
  refine .of_chain_none (hs.push hk hnew rfl ?_ ?_) hchain ?_
  · intro k' nested hk'
    rcases List.mem_append.mp hk' with hentry | hrest
    · obtain ⟨k'', hmem, heq⟩ := List.mem_map.mp hentry
      obtain ⟨rfl, -⟩ := Item.enter.inj heq
      exact mem_parts_of_mem_successors hk (mem_successors.mpr (.inl hmem))
    · rcases List.mem_cons.mp hrest with heq | hrest
      · exact absurd heq.symm (hassemble k' nested)
      · rcases List.mem_cons.mp hrest with heq | hitem
        · cases heq
        · exact hs.items k' nested hitem
  · intro c hc
    cases hchain.symm.trans hc
  · simp only [descend, load_entries, hload, load, List.length_cons, Nat.add_sub_cancel]
    omega

theorem addResult_within (hs : Inside u root s) (hchain : s.chain = none) (r : Kind)
    (hlt : load (u.depthBound root) s.path.length s.items < n) : Within u root n (s.addResult r) :=
  .of_chain_none ⟨hs.nodup, hs.path, hs.items, hs.chain⟩ hchain hlt

theorem enter_within (hs : Inside u root s) (hchain : s.chain = none) {k : Kind} {nested : Bool}
    (hk : k ∈ u.parts root) (h : s.enter k nested = .ok t) :
    Within u root (cost (u.depthBound root) (u.depthBound root - s.path.length) +
      load (u.depthBound root) s.path.length s.items) t := by
  have hpos := cost_pos (u.depthBound root) (u.depthBound root - s.path.length)
  unfold enter at h
  by_cases hmem : k ∈ s.path
  · rw [if_pos hmem] at h
    cases h
    exact addResult_within hs hchain k (by omega)
  · rw [if_neg hmem] at h
    cases k with
    | self =>
      cases h
      exact addResult_within hs hchain .self (by omega)
    | named name =>
      cases h
      exact addResult_within hs hchain (.named name) (by omega)
    | var v =>
      cases h
      have hcost := hs.cost_push (Nat.zero_le _)
      refine .of_chain_some (hs.push hk hmem rfl hs.items ?_) rfl ?_
      · intro c hc
        cases hc
        exact Nat.le_add_left 1 _
      · simp only [List.length_cons, Nat.add_sub_cancel]
        omega
    | function c p e =>
      cases h
      exact descend_within hs hchain hk hmem (by simp) fun _ _ _ => rfl
    | vector items =>
      cases nested with
      | false => cases h
      | true =>
        cases h
        exact descend_within hs hchain hk hmem (by simp) fun _ _ _ => rfl

/-- Taking results off changes nothing but the results. -/
theorem exists_of_takeResults_bind {count : Nat} {f : List Kind × Agenda → Except Stop Agenda}
    (h : (s.takeResults count >>= f) = .ok t) :
    ∃ ks results, f (ks, { s with results }) = .ok t := by
  unfold takeResults at h
  split at h
  · exact ⟨_, _, h⟩
  · cases h

theorem perform_within (hs : Inside u root s) (hchain : s.chain = none) {item : Item}
    (hitem : ∀ k nested, item = .enter k nested → k ∈ u.parts root) (h : s.perform item = .ok t) :
    Within u root (load (u.depthBound root) s.path.length (item :: s.items)) t := by
  cases item with
  | enter k nested => exact enter_within hs hchain (hitem k nested rfl) h
  | leave count =>
    rw [perform, leave] at h
    split at h
    · cases h
      refine .of_chain_none (hs.drop count rfl rfl hchain) hchain ?_
      simp only [load, List.length_drop]
      omega
    · cases h
  | function m n e =>
    obtain ⟨produced, results, h⟩ := exists_of_takeResults_bind h
    obtain ⟨consumed, results', h⟩ := exists_of_takeResults_bind h
    cases h
    exact addResult_within (s := { s with results := results' })
      ⟨hs.nodup, hs.path, hs.items, hs.chain⟩ hchain _ (by simp only [load]; omega)
  | vector n =>
    obtain ⟨items, results, h⟩ := exists_of_takeResults_bind h
    cases h
    exact addResult_within (s := { s with results }) ⟨hs.nodup, hs.path, hs.items, hs.chain⟩ hchain
      _ (by simp only [load]; omega)

theorem followChain_within (hs : Inside u root s) {c : Chain} (hc : s.chain = some c)
    (h : s.followChain u reserved c = .ok t) :
    Within u root (weight (u.depthBound root) s) t := by
  rw [weight, hc]
  rcases followChain_cases reserved u (hs.chain c hc) with ⟨k, p, hstep⟩ |
    ⟨v, p, hfind, hnew, hstep⟩ | ⟨k, p, hfind, hstep⟩
  · obtain rfl := Except.ok.inj (h.symm.trans hstep)
    refine .of_chain_none (hs.drop c.pushed rfl rfl rfl) rfl ?_
    simp only [addResult, List.length_drop]
    omega
  · obtain rfl := Except.ok.inj (h.symm.trans hstep)
    have hcost := hs.cost_push (Nat.zero_le _)
    refine .of_chain_some (hs.push (mem_parts_of_find? hfind root) hnew rfl hs.items ?_) rfl ?_
    · intro c' hc'
      cases hc'
      exact Nat.succ_le_succ (hs.chain c hc)
    · simp only [List.length_cons, Nat.add_sub_add_right]
      omega
  · obtain rfl := Except.ok.inj (h.symm.trans hstep)
    refine .of_chain_none ⟨hs.nodup, hs.path, ?_, fun c' hc' => by cases hc'⟩ rfl ?_
    · intro k' nested hk'
      rcases List.mem_cons.mp hk' with heq | hk'
      · obtain ⟨rfl, -⟩ := Item.enter.inj heq
        exact mem_parts_of_find? hfind root
      · rcases List.mem_cons.mp hk' with heq | hitem
        · cases heq
        · exact hs.items k' nested hitem
    · simp only [load]
      omega

/-- Every step keeps the invariant and lowers what is left to do. -/
theorem step_within (hs : Inside u root s) (h : s.step u reserved = .ok t) :
    Within u root (weight (u.depthBound root) s) t := by
  unfold step at h
  split at h
  · next c hchain => exact followChain_within hs hchain h
  · next hchain =>
    split at h
    · cases h
    · next item items hitems =>
      have hmem := hs.items
      rw [hitems] at hmem
      rw [weight, hchain, hitems]
      exact perform_within (s := { s with items })
        ⟨hs.nodup, hs.path, fun k nested hk => hmem k nested (List.mem_cons_of_mem _ hk), hs.chain⟩
        hchain (fun k nested heq => hmem k nested (heq ▸ List.mem_cons_self)) h

/-- More steps than there is left to do are not made. -/
theorem after_of_weight_lt : ∀ {n : Nat} {s : Agenda}, Inside u root s →
    weight (u.depthBound root) s < n → ∃ stop t, after u reserved n s = .error (stop, t)
  | 0, _, _, hlt => absurd hlt (Nat.not_lt_zero _)
  | n + 1, s, hs, hlt => by
    cases hstep : s.step u reserved with
    | error stop => exact ⟨stop, s, after_of_stop hstep n⟩
    | ok t =>
      obtain ⟨ht, hless⟩ := step_within hs hstep
      obtain ⟨stop, t', hafter⟩ := after_of_weight_lt (n := n) ht (by omega)
      exact ⟨stop, t', (after_of_step hstep n).trans hafter⟩

theorem inside_after : ∀ {n : Nat} {s t : Agenda}, Inside u root s →
    after u reserved n s = .ok t → Inside u root t
  | 0, _, _, hs, h => by
    cases h
    exact hs
  | n + 1, s, t, hs, h => by
    cases hstep : s.step u reserved with
    | error stop =>
      rw [after_of_stop hstep] at h
      cases h
    | ok s' =>
      rw [after_of_step hstep] at h
      exact inside_after (step_within hs hstep).inside h

/-- The inner loop is left once there is no room on the path for another variable. -/
theorem chain_left (reserved : List String) : ∀ {room : Nat} {s : Agenda}, Inside u root s →
    u.depthBound root ≤ room + s.path.length → s.chain.isSome →
      ∃ m ≤ room, ∃ t, after u reserved m s = .ok t ∧ t.chain = none
  | 0, s, hs, hroom, _ => by
    have hlt := hs.length_lt
    omega
  | room + 1, s, hs, hroom, hchain => by
    obtain ⟨c, hc⟩ := Option.isSome_iff_exists.mp hchain
    have hstep : s.step u reserved = s.followChain u reserved c := by simp only [step, hc]
    rcases followChain_cases reserved u (hs.chain c hc) with ⟨k, p, hturn⟩ |
      ⟨v, p, -, -, hturn⟩ | ⟨k, p, -, hturn⟩
    · exact ⟨1, Nat.le_add_left 1 room, _, after_of_step (hstep.trans hturn) 0, rfl⟩
    · have hs' := (step_within hs (hstep.trans hturn)).inside
      have hroom' : u.depthBound root ≤ room + (s.path.length + 1) := by omega
      obtain ⟨m, hm, t, hafter, hleft⟩ := chain_left reserved hs' hroom' rfl
      exact ⟨m + 1, Nat.succ_le_succ hm, t, (after_of_step (hstep.trans hturn) m).trans hafter,
        hleft⟩
    · exact ⟨1, Nat.le_add_left 1 room, _, after_of_step (hstep.trans hturn) 0, rfl⟩

end Steps

/-- A number of steps that is enough to resolve a kind. -/
def stepBound (u : Substitution) (k : Kind) : Nat :=
  cost (u.depthBound k) (u.depthBound k) + 1

/-- The outer loop stops within a number of steps that is known from the kind and the bindings, with
what the recursion gives; and whenever the inner loop is at work it is left, after no more turns
than a path can be long. -/
theorem after_start_stops (u : Substitution) (k : Kind) (names : NameSupply) :
    (∃ s, after u (u.reserved k) (stepBound u k) (start k names) =
      .error (.ofResult (u.resolve k names).1, s)) ∧
    ∀ n s, after u (u.reserved k) n (start k names) = .ok s → s.chain.isSome →
      ∃ m ≤ u.depthBound k, ∃ t, after u (u.reserved k) m s = .ok t ∧ t.chain = none := by
  have hstart := Inside.start u k names
  constructor
  · obtain ⟨stop, s, hstop⟩ := after_of_weight_lt hstart (Nat.lt_succ_self _)
    obtain ⟨n, s', hresult, -⟩ :=
      exists_after_start (u := u) k names (Nat.le_refl (u.depthBound k))
    obtain ⟨rfl, rfl⟩ := Prod.mk.inj (stop_unique hstop hresult)
    exact ⟨s, hstop⟩
  · intro n s hs hchain
    exact chain_left _ (inside_after hstart hs) (Nat.le_add_right _ _) hchain

end Agenda

end Concatenative
