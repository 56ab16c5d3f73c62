/-
`Mul<i64>` of `amount.rs`, and what it does to the representation invariant.

The loop multiplies each stored quantity by `rhs` in `i64`, which wraps modulo
`2^64` in a release build, and checks the range of the wrapped product. So
`mul` returns exactly when every wrapped product is in range (`mul_ok_iff`) and
then stores the wrapped products (`index_mul`); when no product wraps these are
the exact products (`mul_exact`). When a product does wrap back into range the
check passes and the amount returned is not the product (`mul_wraps_into_range`).

Unlike `add` and `sub`, the loop has no zero-removal step: a product of 0 stays
stored (`mul_zero_stores_zero`), and the result is valid exactly when no product
is 0 (`valid_mul_iff`). On a valid amount `* -1` never wraps and is `zero() - a`
(`mul_neg_one_eq_zero_sub`).
-/
import Masp.Amount.Arith

namespace Masp

variable {K : Type} [LinearOrder K]

namespace Amount

/-! ## The loop over `iter_mut()` -/

omit [LinearOrder K] in
theorem mulEntries_eq {rhs : I64} {l l' : List (K × I64)} (h : mulEntries rhs l = .ok l') :
    l' = l.map fun e => (e.1, e.2 * rhs) := by
  induction l generalizing l' with
  | nil => cases h; rfl
  | cons e rest ih =>
    obtain ⟨t, amount⟩ := e
    simp only [mulEntries] at h
    split at h
    · cases hr : mulEntries rhs rest with
      | error e => rw [hr] at h; cases h
      | ok r => rw [hr] at h; cases h; simp [ih hr]
    · cases h

omit [LinearOrder K] in
theorem mulEntries_ok_iff {rhs : I64} {l : List (K × I64)} :
    (∃ l', mulEntries rhs l = .ok l') ↔ ∀ e ∈ l, InRange (e.2 * rhs).toInt := by
  induction l with
  | nil => simpa using ⟨[], rfl⟩
  | cons e rest ih =>
    obtain ⟨t, amount⟩ := e
    rw [List.forall_mem_cons, ← ih]
    simp only [mulEntries]
    split
    · next h =>
      cases hr : mulEntries rhs rest with
      | error e => exact ⟨fun ⟨_, h'⟩ => (by cases h'), fun ⟨_, _, h'⟩ => (by cases h')⟩
      | ok r => exact ⟨fun _ => ⟨h, r, rfl⟩, fun _ => ⟨_, rfl⟩⟩
    · next h => exact ⟨fun ⟨_, h'⟩ => (by cases h'), fun ⟨h', _⟩ => absurd h' h⟩

theorem mul_entries {a r : Amount K} {rhs : I64} (h : a.mul rhs = .ok r) :
    mulEntries rhs a.map.entries = .ok r.map.entries := by
  unfold mul at h
  split at h
  · cases h; assumption
  · cases h

theorem mul_ok_of_mulEntries {a : Amount K} {rhs : I64} {l : List (K × I64)}
    (h : mulEntries rhs a.map.entries = .ok l) : ∃ r, a.mul rhs = .ok r := by
  unfold mul
  split
  · exact ⟨_, rfl⟩
  · next h' => rw [h] at h'; cases h'

/-! ## What `mul` computes -/

section
variable {a r : Amount K} {rhs : I64}

/-- `mul` stores the wrapped product of every stored quantity. -/
theorem get_mul (h : a.mul rhs = .ok r) (t : K) : r.map.get t = (a.map.get t).map (· * rhs) := by
  rw [BTreeMap.get, mulEntries_eq (mul_entries h)]
  exact getEntry_map_snd (· * rhs) _ _

theorem index_mul (h : a.mul rhs = .ok r) (t : K) : r.index t = a.index t * rhs := by
  rw [index_eq, index_eq, get_mul h]
  cases a.map.get t <;> simp

/-- `mul` returns exactly when every wrapped product is in range. -/
theorem mul_ok_iff : (∃ r, a.mul rhs = .ok r) ↔ ∀ t, InRange (a.index t * rhs).toInt := by
  have hQ : (∀ e ∈ a.map.entries, InRange (e.2 * rhs).toInt) ↔ ∀ t, InRange (a.index t * rhs).toInt :=
    forall_mem_entries_iff (fun _ v => InRange (v * rhs).toInt) fun _ => by simpa using InRange.zero
  rw [← hQ, ← mulEntries_ok_iff]
  exact ⟨fun ⟨_, h⟩ => ⟨_, mul_entries h⟩, fun ⟨_, hl⟩ => mul_ok_of_mulEntries hl⟩

theorem toInt_mul_of_lt {x y : I64} (h1 : -2 ^ 63 ≤ x.toInt * y.toInt)
    (h2 : x.toInt * y.toInt < 2 ^ 63) : (x * y).toInt = x.toInt * y.toInt := by
  rw [BitVec.toInt_mul, bmod_small h1 h2]

/-- Where no product wraps, `mul` is the exact product, checked against the range. -/
theorem mul_exact (h : ∀ t, -2 ^ 63 ≤ (a.index t).toInt * rhs.toInt ∧
      (a.index t).toInt * rhs.toInt < 2 ^ 63) :
    ((∃ r, a.mul rhs = .ok r) ↔ ∀ t, InRange ((a.index t).toInt * rhs.toInt)) ∧
      ∀ r, a.mul rhs = .ok r → ∀ t, (r.index t).toInt = (a.index t).toInt * rhs.toInt := by
  have hx : ∀ t, (a.index t * rhs).toInt = (a.index t).toInt * rhs.toInt := fun t =>
    toInt_mul_of_lt (h t).1 (h t).2
  refine ⟨by simp only [mul_ok_iff, hx], fun r hr t => ?_⟩
  rw [index_mul hr, hx]

/-- The result of `mul` is valid exactly when no stored quantity's product is 0. -/
theorem valid_mul_iff (h : a.mul rhs = .ok r) :
    r.Valid ↔ ∀ t ∈ a.assetTypes, a.index t * rhs ≠ 0 := by
  have hin := mulEntries_ok_iff.mp ⟨_, mul_entries h⟩
  simp only [Valid, mulEntries_eq (mul_entries h), List.forall_mem_map, assetTypes, BTreeMap.keys]
  refine ⟨fun hv ⟨t, v⟩ he => ?_, fun hz ⟨t, v⟩ he => ⟨?_, hin _ he⟩⟩
  · rw [index_of_mem he]; exact (hv _ he).1
  · have := hz _ he; rwa [index_of_mem he] at this

theorem toInt_mul_neg_one {x : I64} (hx : InRange x.toInt) : (x * -1).toInt = -x.toInt := by
  have h1 : (-1 : I64).toInt = -1 := by decide
  simp only [InRange, maxMoney_eq] at hx
  rw [toInt_mul_of_lt] <;> rw [h1] <;> omega

/-- `Amount` has no `Neg`: a valid amount is negated by `* -1` or by `zero() - a`. Both
return, and they return the same amount, the pointwise negation. -/
theorem mul_neg_one_eq_zero_sub (ha : a.Valid) :
    ∃ r, a.mul (-1) = .ok r ∧ zero.sub a = .ok r ∧ ∀ t, (r.index t).toInt = -(a.index t).toInt := by
  have hneg : ∀ t, (a.index t * -1).toInt = -(a.index t).toInt := fun t =>
    toInt_mul_neg_one (ha.index t)
  have hin : ∀ t, InRange (-(a.index t).toInt) := fun t => by
    have := ha.index t
    simp only [InRange] at *
    omega
  obtain ⟨s, hs⟩ := (sub_ok_iff .zero ha).mpr fun t => by simpa using hin t
  obtain ⟨m, hm⟩ := mul_ok_iff.mpr fun t => hneg t ▸ hin t
  have hmv : m.Valid := (valid_mul_iff hm).mpr fun t ht h0 => by
    have h := hneg t
    rw [I64.eq_zero_iff.mp h0] at h
    exact (Option.isSome_iff_ne_none.mp (mem_assetTypes.mp ht))
      ((ha.get_eq_none).mpr (I64.eq_zero_iff.mpr (by omega)))
  have hms : m = s := hmv.ext (Valid.zero.combine hs) fun t => BitVec.toInt_inj.mp (by
    rw [index_mul hm, hneg, sub_index .zero ha hs]
    simp)
  subst hms
  exact ⟨m, hm, hs, fun t => by rw [index_mul hm, hneg]⟩

theorem mul_neg_one_eq_zero_sub_two_assets :
    (⟨(BTreeMap.empty.insert 0 5).insert 2 (-3)⟩ : Amount ℕ).Valid ∧
      ∃ r, (⟨(BTreeMap.empty.insert 0 5).insert 2 (-3)⟩ : Amount ℕ).mul (-1) = .ok r ∧
        zero.sub ⟨(BTreeMap.empty.insert 0 5).insert 2 (-3)⟩ = .ok r ∧
        ∀ t, (r.index t).toInt =
          -((⟨(BTreeMap.empty.insert 0 5).insert 2 (-3)⟩ : Amount ℕ).index t).toInt :=
  ⟨by decide, mul_neg_one_eq_zero_sub (by decide)⟩

end

/-! ## Wrapping and zero products -/

/-- `3 * 6148914691236517205` is `2^64 - 1`, out of range; in `i64` it wraps to `-1`,
which passes the range check. -/
theorem mul_wraps_into_range (t : K) :
    ∃ a r, Amount.from t 3 = .ok a ∧ a.mul 6148914691236517205 = .ok r ∧
      (a.index t).toInt * (6148914691236517205 : I64).toInt = 18446744073709551615 ∧
      (r.index t).toInt = -1 := by
  refine ⟨⟨BTreeMap.empty.insert t 3⟩, ⟨BTreeMap.empty.insert t (3 * 6148914691236517205)⟩,
    rfl, rfl, ?_, ?_⟩ <;> simp only [index_eq, BTreeMap.get_insert, ↓reduceIte, Option.getD_some] <;>
    decide

/-- `from(t, 1) * 0` stores a zero component: it is not valid, and differs from `zero`
though its quantities agree with `zero`'s. -/
theorem mul_zero_stores_zero (t : K) :
    ∃ a r, Amount.from t 1 = .ok a ∧ a.mul 0 = .ok r ∧ r.components = [(t, 0)] ∧
      r.assetTypes = [t] ∧ ¬ r.Valid ∧ r ≠ zero ∧ ∀ t', r.index t' = (zero : Amount K).index t' := by
  refine ⟨⟨BTreeMap.empty.insert t 1⟩, ⟨BTreeMap.empty.insert t 0⟩, rfl, rfl, rfl, rfl,
    fun h => (h (t, 0) (List.mem_singleton_self _)).1 rfl, fun h => ?_, fun t' => ?_⟩
  · have := congrArg (fun a : Amount K => a.components) h
    simp [components, BTreeMap.insert, insertEntry, zero, BTreeMap.empty] at this
  · rw [index_eq, BTreeMap.get_insert]; split <;> rfl

end Amount

end Masp
