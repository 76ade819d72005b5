import Concatenative.Proofs.Following
import Mathlib.Data.Int.ModEq

/-! Integer arithmetic. The words for sums, differences and products leave the 64-bit integer that
differs from the exact result by a multiple of `2 ^ 64`. A quotient is rounded toward zero and wraps
around in the same way, and a remainder is exact, so that the quotient times the divisor plus the
remainder is the dividend again, also where the quotient had to wrap around. -/

namespace Concatenative

/-- The 64-bit integer that an integer wraps around to: no other number in the range of 64-bit
integers is congruent to it modulo `2 ^ 64`. -/
def WrapsTo (x : Int) (n : Int64) : Prop :=
  ∀ y : Int, y = n.toInt ↔ -2 ^ 63 ≤ y ∧ y < 2 ^ 63 ∧ y ≡ x [ZMOD 2 ^ 64]

theorem wrapsTo_of_toInt_eq {x : Int} {n : Int64} (h : n.toInt = x.bmod (2 ^ 64)) :
    WrapsTo x n := by
  have hmod : n.toInt ≡ x [ZMOD 2 ^ 64] := by
    rw [h]
    exact Int.bmod_emod
  intro y
  constructor
  · rintro rfl
    exact ⟨n.le_toInt, n.toInt_lt, hmod⟩
  · rintro ⟨hlow, hhigh, hy⟩
    calc y = y.bmod (2 ^ 64) := (Int.bmod_eq_of_le (by omega) (by omega)).symm
      _ = (y % (2 ^ 64 : Nat)).bmod (2 ^ 64) := (Int.emod_bmod _ _).symm
      _ = (x % (2 ^ 64 : Nat)).bmod (2 ^ 64) := congrArg (Int.bmod · _) hy
      _ = x.bmod (2 ^ 64) := Int.emod_bmod _ _
      _ = n.toInt := h.symm

theorem WrapsTo.modEq {x : Int} {n : Int64} (h : WrapsTo x n) : n.toInt ≡ x [ZMOD 2 ^ 64] :=
  ((h n.toInt).mp rfl).2.2

theorem WrapsTo.eq_of_modEq {x : Int} {n n' : Int64} (h : WrapsTo x n)
    (hmod : n'.toInt ≡ x [ZMOD 2 ^ 64]) : n' = n :=
  Int64.toInt_inj.mp ((h n'.toInt).mpr ⟨n'.le_toInt, n'.toInt_lt, hmod⟩)

theorem wrapsTo_add (a b : Int64) : WrapsTo (a.toInt + b.toInt) (a + b) :=
  wrapsTo_of_toInt_eq (Int64.toInt_add a b)

theorem wrapsTo_sub (a b : Int64) : WrapsTo (a.toInt - b.toInt) (a - b) :=
  wrapsTo_of_toInt_eq (Int64.toInt_sub a b)

theorem wrapsTo_mul (a b : Int64) : WrapsTo (a.toInt * b.toInt) (a * b) :=
  wrapsTo_of_toInt_eq (Int64.toInt_mul a b)

theorem wrapsTo_div (a b : Int64) : WrapsTo (a.toInt.tdiv b.toInt) (a / b) :=
  wrapsTo_of_toInt_eq (Int64.toInt_div a b)

theorem wrapsTo_self (a : Int64) : WrapsTo a.toInt a := by
  have hlow := a.le_toInt
  have hhigh := a.toInt_lt
  exact wrapsTo_of_toInt_eq (Int.bmod_eq_of_le (by omega) (by omega)).symm

/-- The quotient may have wrapped around, but product and sum only matter modulo `2 ^ 64`. -/
theorem div_mul_add_mod (a b : Int64) : a / b * b + a % b = a := by
  refine (wrapsTo_self a).eq_of_modEq ?_
  calc (a / b * b + a % b).toInt
      ≡ (a / b * b).toInt + (a % b).toInt [ZMOD 2 ^ 64] := (wrapsTo_add _ _).modEq
    _ ≡ (a / b).toInt * b.toInt + (a % b).toInt [ZMOD 2 ^ 64] :=
      (wrapsTo_mul _ _).modEq.add_right _
    _ ≡ a.toInt.tdiv b.toInt * b.toInt + (a % b).toInt [ZMOD 2 ^ 64] :=
      ((wrapsTo_div a b).modEq.mul_right _).add_right _
    _ = a.toInt := by rw [Int64.toInt_mod, Int.tdiv_mul_add_tmod]

theorem natAbs_mod_lt (a : Int64) {b : Int64} (hb : b ≠ 0) :
    (a % b).toInt.natAbs < b.toInt.natAbs := by
  have hne : b.toInt ≠ 0 := fun h => hb (Int64.toInt_inj.mp h)
  rw [Int64.toInt_mod, Int.natAbs_tmod]
  exact Nat.mod_lt _ (Int.natAbs_pos.mpr hne)

theorem mod_eq_zero_or_sign_eq (a b : Int64) : a % b = 0 ∨ (a % b).toInt.sign = a.toInt.sign := by
  rw [← Int64.toInt_inj, Int64.toInt_mod]
  have hsign := Int.sign_tmod a.toInt b.toInt
  split at hsign
  · exact .inl (Int.sign_eq_zero_iff_zero.mp hsign)
  · exact .inr hsign

/-- What a word computes on integers without bound. -/
def Primitive.onIntegers? : Primitive → Option (Int → Int → Int)
  | .add => some (· + ·)
  | .sub => some (· - ·)
  | .mul => some (· * ·)
  | _ => none

/-- The words for integer arithmetic. -/
def Primitive.arithmetic : List Primitive := [.add, .sub, .mul, .div, .mod]

namespace Machine

/-- Code runs to its end on a stack without output and leaves another stack. -/
def Leaves (m : Machine) (mode : Mode) (c : Code) (s t : Stack) : Prop :=
  (m.run mode c s).untraced = { result := .ok (), stack := t }

/-- Two integers and a word after them leave an integer, whatever lies below. -/
def Computes (m : Machine) (p : Primitive) (a b n : Int64) : Prop :=
  ∀ mode s, m.Leaves mode [.literal (.int a), .literal (.int b), p.term] s (.literal (.int n) :: s)

variable {m : Machine} {mode : Mode} {p : Primitive} {s t u : Stack} {c c' : Code}
  {a b q r n : Int64}

theorem Leaves.append (h : m.Leaves mode c s t) (h' : m.Leaves mode c' t u) :
    m.Leaves mode (c ++ c') s u := by
  have hresult : (m.run mode c s).result = .ok () := congrArg Outcome.result h
  have hstack : (m.run mode c s).stack = t := congrArg Outcome.stack h
  have hlines : (m.run mode c s).lines = [] := congrArg Outcome.lines h
  unfold Leaves at h' ⊢
  rw [run_append, Run.bind_of_ok hresult, hstack, hlines, ← h']
  rfl

theorem run_on_integers (h : m.body? p.name = none) (mode : Mode) (a b : Int64) (s : Stack) :
    (m.run mode [.literal (.int a), .literal (.int b), p.term] s).untraced =
      (p.exec mode (m.invoke mode m.limit)
        (.literal (.int b) :: .literal (.int a) :: s)).untraced := by
  show (m.run mode [p.term] (.literal (.int b) :: .literal (.int a) :: s)).untraced = _
  rw [run_singleton, evalTerm, Primitive.term, step_builtin h]
  rfl

theorem computes_of_exec (h : m.body? p.name = none)
    (hexec : ∀ mode invoke s, p.exec mode invoke (.literal (.int b) :: .literal (.int a) :: s) =
      { result := .ok (), stack := .literal (.int n) :: s }) : m.Computes p a b n := by
  intro mode s
  rw [Leaves, run_on_integers h, hexec]
  rfl

theorem onInts_integers (op : String) (f : Int64 → Int64 → Run Literal) (a b : Int64) (s : Stack) :
    Run.onInts op f (.literal (.int b) :: .literal (.int a) :: s) =
      (f a b >>= fun l => Run.push (.literal l)) s :=
  rfl

/-- A word that divides computes its result if the divisor is not zero. -/
theorem onInts_guarded (hb : b ≠ 0) (op : String) (f : Int64 → Int64 → Int64) (s : Stack) :
    Run.onInts op (fun a b => if b = 0 then .fail (.divisionByZero op) else return .int (f a b))
        (.literal (.int b) :: .literal (.int a) :: s) =
      { result := .ok (), stack := .literal (.int (f a b)) :: s } := by
  rw [onInts_integers, if_neg hb]
  rfl

theorem leaves_mul_add (hmul : m.Computes .mul q b n) (hadd : m.Computes .add n r a) (mode : Mode)
    (s : Stack) :
    m.Leaves mode [.literal (.int q), .literal (.int b), Primitive.mul.term, .literal (.int r),
      Primitive.add.term] s (.literal (.int a) :: s) := by
  have hsum : m.Leaves mode [.literal (.int r), Primitive.add.term] (.literal (.int n) :: s)
      (.literal (.int a) :: s) := hadd mode s
  exact (hmul mode s).append hsum

/-- Sums, differences and products are exact modulo `2 ^ 64`. Division by zero fails, for quotients
and for remainders. Else the quotient is rounded toward zero and wraps around, the remainder is
smaller than the divisor and is zero or has the sign of the dividend, and the quotient times the
divisor plus the remainder is the dividend. -/
theorem run_arithmetic (m : Machine) (a b : Int64)
    (hbuiltin : ∀ p ∈ Primitive.arithmetic, m.body? p.name = none) :
    (∀ p f, p.onIntegers? = some f →
      ∃ n, m.Computes p a b n ∧ WrapsTo (f a.toInt b.toInt) n) ∧
    (b = 0 → ∀ p, p = Primitive.div ∨ p = Primitive.mod → ∀ mode s,
      (m.run mode [.literal (.int a), .literal (.int b), p.term] s).result =
        .error (.divisionByZero p.name)) ∧
    (b ≠ 0 → ∃ q r, m.Computes .div a b q ∧ m.Computes .mod a b r ∧
      WrapsTo (a.toInt.tdiv b.toInt) q ∧ r.toInt.natAbs < b.toInt.natAbs ∧
      (r = 0 ∨ r.toInt.sign = a.toInt.sign) ∧
      ∀ mode s, m.Leaves mode [.literal (.int q), .literal (.int b), Primitive.mul.term,
        .literal (.int r), Primitive.add.term] s (.literal (.int a) :: s)) := by
  have hadd : ∀ a b, m.Computes .add a b (a + b) := fun a b =>
    computes_of_exec (hbuiltin _ (by decide)) fun _ _ _ => rfl
  have hsub : m.Computes .sub a b (a - b) :=
    computes_of_exec (hbuiltin _ (by decide)) fun _ _ _ => rfl
  have hmul : ∀ a b, m.Computes .mul a b (a * b) := fun a b =>
    computes_of_exec (hbuiltin _ (by decide)) fun _ _ _ => rfl
  refine ⟨fun p f hf => ?_, ?_, fun hb => ?_⟩
  · cases p with
    | add =>
      cases hf
      exact ⟨a + b, hadd a b, wrapsTo_add a b⟩
    | sub =>
      cases hf
      exact ⟨a - b, hsub, wrapsTo_sub a b⟩
    | mul =>
      cases hf
      exact ⟨a * b, hmul a b, wrapsTo_mul a b⟩
    | _ => cases hf
  · rintro rfl p hp mode s
    have hname : m.body? p.name = none := hbuiltin p (by rcases hp with rfl | rfl <;> decide)
    refine (congrArg Outcome.result (run_on_integers hname mode a 0 s)).trans ?_
    rcases hp with rfl | rfl <;> rfl
  · have hdiv : m.Computes .div a b (a / b) :=
      computes_of_exec (hbuiltin _ (by decide)) fun _ _ s => onInts_guarded hb _ (· / ·) s
    have hmod : m.Computes .mod a b (a % b) :=
      computes_of_exec (hbuiltin _ (by decide)) fun _ _ s => onInts_guarded hb _ (· % ·) s
    have hrestored : m.Computes .add (a / b * b) (a % b) a := by
      have hsum := hadd (a / b * b) (a % b)
      rwa [div_mul_add_mod] at hsum
    exact ⟨a / b, a % b, hdiv, hmod, wrapsTo_div a b, natAbs_mod_lt a hb,
      mod_eq_zero_or_sign_eq a b, leaves_mul_add (hmul _ _) hrestored⟩

/-- The one quotient that wraps around, in a machine that defines words of its own. -/
theorem run_arithmetic_least :
    let m : Machine := { words := [("halve", [.literal (.int 2), Primitive.div.term])] }
    let least := Int64.minValue
    (∀ p ∈ Primitive.arithmetic, m.body? p.name = none) ∧
      m.Computes .div least (-1) least ∧ m.Computes .mod least (-1) 0 ∧
      m.Leaves .pure [.literal (.int least), .literal (.int (-1)), Primitive.mul.term,
        .literal (.int 0), Primitive.add.term] [] [.literal (.int least)] ∧
      (m.run .pure [.literal (.int least), .literal (.int 0), Primitive.mod.term] []).result =
        .error (.divisionByZero "mod") := by
  intro m least
  have hbuiltin : ∀ p ∈ Primitive.arithmetic, m.body? p.name = none := by decide
  obtain ⟨q, r, hdiv, hmod, hq, hr, -, hleaves⟩ :=
    (run_arithmetic m least (-1) hbuiltin).2.2 (by decide)
  obtain rfl : least = q := hq.eq_of_modEq (by decide)
  obtain rfl : r = 0 := by
    have hone : (-1 : Int64).toInt.natAbs = 1 := by decide
    exact Int64.toInt_inj.mp (Int.natAbs_eq_zero.mp (by omega))
  exact ⟨hbuiltin, hdiv, hmod, hleaves .pure [],
    (run_arithmetic m least 0 hbuiltin).2.1 rfl .mod (.inr rfl) .pure []⟩

end Machine

end Concatenative
