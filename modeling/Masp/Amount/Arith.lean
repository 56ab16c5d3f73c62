/-
The arithmetic of amounts, pointwise.

The representation invariant `Valid`: every stored quantity is nonzero and
within `[-MAX_MONEY, MAX_MONEY]`. On valid amounts the `i64` sums and
differences the loops compute never wrap (`toInt_add_of_inRange`), so `add` and
`sub` are the pointwise sum and difference of the functions `t ↦ a[t]`
(`IsPointwise`), panicking exactly when some asset leaves the range.

`combine` runs one step per component of `rhs`, and each step touches only its
own asset type (`combineStep_get`); the loop lemmas `foldlM_combineStep_ok_iff`
and `foldlM_combineStep_get` follow by induction over the components, and
`combine_ok_iff` and `combine_isPointwise` prove `add` and `sub` at once. Every
step keeps `Valid` (`Valid.of_combineStep`), whatever `rhs` holds.

`from`, `from_nonnegative`, `project`, `reject` and `Sum` are here too, each with
what it returns on valid amounts. `Sum` returns exactly when every running total stays
in range, whatever the order of its items (`sum_returns_iff_running_totals`), and
`reject(t) + project(t)` gives back the amount split (`reject_add_project`).
-/
import Mathlib.Algebra.BigOperators.Group.List
import Masp.Amount.Basic

namespace Masp

variable {K : Type} [LinearOrder K]

/-- `-MAX_MONEY ≤ x ≤ MAX_MONEY`. -/
def InRange (x : Int) : Prop := -maxMoney ≤ x ∧ x ≤ maxMoney

instance : DecidablePred InRange := fun _ => inferInstanceAs (Decidable (_ ∧ _))

theorem maxMoney_eq : maxMoney = 2100000000000000 := rfl

theorem InRange.zero : InRange 0 := by simp [InRange, maxMoney_eq]

/-! ## `i64` arithmetic inside the range -/

theorem bmod_small {z : Int} (h1 : -2 ^ 63 ≤ z) (h2 : z < 2 ^ 63) : z.bmod (2 ^ 64) = z := by
  rw [Int.bmod_def]
  split <;> omega

theorem toInt_add_of_inRange {x y : I64} (hx : InRange x.toInt) (hy : InRange y.toInt) :
    (x + y).toInt = x.toInt + y.toInt := by
  simp only [InRange, maxMoney_eq] at hx hy
  rw [BitVec.toInt_add, bmod_small] <;> omega

theorem toInt_sub_of_inRange {x y : I64} (hx : InRange x.toInt) (hy : InRange y.toInt) :
    (x - y).toInt = x.toInt - y.toInt := by
  simp only [InRange, maxMoney_eq] at hx hy
  rw [BitVec.toInt_sub, bmod_small] <;> omega

theorem I64.eq_zero_iff {x : I64} : x = 0 ↔ x.toInt = 0 := by
  rw [← BitVec.toInt_inj]; rfl

namespace Amount

/-! ## The representation invariant -/

/-- Every stored quantity is nonzero and within `[-MAX_MONEY, MAX_MONEY]`. -/
def Valid (a : Amount K) : Prop := ∀ e ∈ a.map.entries, e.2 ≠ 0 ∧ InRange e.2.toInt

instance (a : Amount K) : Decidable a.Valid :=
  inferInstanceAs (Decidable (∀ e ∈ a.map.entries, e.2 ≠ 0 ∧ InRange e.2.toInt))

/-- `r` is the pointwise `op` of `a` and `b`: valid, its quantities are `op` of theirs,
and it stores exactly the asset types where that is nonzero. -/
def IsPointwise (op : Int → Int → Int) (a b r : Amount K) : Prop :=
  r.Valid ∧ ∀ t, (r.index t).toInt = op (a.index t).toInt (b.index t).toInt ∧
    (t ∈ r.assetTypes ↔ op (a.index t).toInt (b.index t).toInt ≠ 0)

theorem Valid.zero : (zero : Amount K).Valid := nofun

theorem Valid.index {a : Amount K} (ha : a.Valid) (t : K) : InRange (a.index t).toInt := by
  rw [index_eq]
  cases h : a.map.get t with
  | none => exact InRange.zero
  | some v => exact (ha _ (BTreeMap.get_eq_some.mp h)).2

theorem Valid.get_eq_none {a : Amount K} (ha : a.Valid) {t : K} :
    a.map.get t = none ↔ a.index t = 0 := by
  rw [index_eq]
  cases h : a.map.get t with
  | none => simp
  | some v => simpa using (ha _ (BTreeMap.get_eq_some.mp h)).1

theorem mem_assetTypes {a : Amount K} {t : K} : t ∈ a.assetTypes ↔ (a.map.get t).isSome :=
  BTreeMap.mem_keys

/-- A valid amount is determined by its quantities. -/
theorem Valid.ext {a b : Amount K} (ha : a.Valid) (hb : b.Valid) (h : ∀ t, a.index t = b.index t) :
    a = b := by
  obtain ⟨m⟩ := a
  obtain ⟨m'⟩ := b
  congr 1
  refine BTreeMap.ext_get fun t => ?_
  cases h1 : m.get t with
  | none => exact ((hb.get_eq_none).mpr ((h t).symm.trans ((ha.get_eq_none).mp h1))).symm
  | some v =>
    cases h2 : m'.get t with
    | none => exact absurd ((h t).trans ((hb.get_eq_none).mp h2)) (by
        simpa [index_eq, h1] using (ha _ (BTreeMap.get_eq_some.mp h1)).1)
    | some w => simpa [index_eq, h1, h2] using h t

/-- What the loop stores for a quantity `x`: nothing for 0. -/
def stored (x : I64) : Option I64 := if x = 0 then none else some x

@[simp] theorem getD_stored (x : I64) : (stored x).getD 0 = x := by
  unfold stored; split <;> simp_all

theorem stored_eq_some {x y : I64} : stored x = some y ↔ x ≠ 0 ∧ x = y := by
  unfold stored; split <;> simp_all

theorem isSome_stored (x : I64) : (stored x).isSome ↔ x ≠ 0 := by
  unfold stored; split <;> simp_all

theorem valid_iff {a : Amount K} :
    a.Valid ↔ ∀ t x, a.map.get t = some x → x ≠ 0 ∧ InRange x.toInt := by
  simp only [Valid, BTreeMap.get_eq_some]
  exact ⟨fun h t x hx => h _ hx, fun h e he => h e.1 e.2 he⟩

/-- A valid amount stores each quantity as `stored` says. -/
theorem Valid.get_eq_stored {a : Amount K} (ha : a.Valid) (t : K) :
    a.map.get t = stored (a.index t) := by
  rw [index_eq]
  cases h : a.map.get t with
  | none => rfl
  | some v => exact (stored_eq_some.mpr ⟨(valid_iff.mp ha t v h).1, rfl⟩).symm

theorem index_of_mem {a : Amount K} {t : K} {v : I64} (h : (t, v) ∈ a.map.entries) :
    a.index t = v := by
  rw [index_eq, BTreeMap.get_eq_some.mpr h]; rfl

/-- What holds of every stored entry holds of every quantity, when it holds of 0. -/
theorem forall_mem_entries_iff {a : Amount K} (Q : K → I64 → Prop) (h0 : ∀ t, Q t 0) :
    (∀ e ∈ a.map.entries, Q e.1 e.2) ↔ ∀ t, Q t (a.index t) := by
  refine ⟨fun h t => ?_, fun h ⟨t, v⟩ he => index_of_mem he ▸ h t⟩
  cases hg : a.map.get t with
  | none => rw [index_eq, hg]; exact h0 t
  | some v =>
    have he := BTreeMap.get_eq_some.mp hg
    rw [index_of_mem he]; exact h _ he

/-! ## Constructors -/

section Constructors
variable {lo : Int} {t : K} {x : I64} {a : Amount K}

theorem ofRange_ok (h1 : lo ≤ x.toInt) (h2 : x.toInt ≤ maxMoney) : ∃ a, ofRange lo t x = .ok a := by
  unfold ofRange
  split
  · exact ⟨_, rfl⟩
  · rw [if_pos ⟨h1, h2⟩]; exact ⟨_, rfl⟩

/-- What `from` and `from_nonnegative` can return. -/
theorem ofRange_eq_ok (h : ofRange lo t x = .ok a) :
    (x = 0 ∧ a = zero) ∨
      (x ≠ 0 ∧ lo ≤ x.toInt ∧ x.toInt ≤ maxMoney ∧ a = ⟨BTreeMap.empty.insert t x⟩) := by
  unfold ofRange at h
  split at h
  · next h0 => cases h; exact .inl ⟨h0, rfl⟩
  · split at h
    · next h0 hr => cases h; exact .inr ⟨h0, hr.1, hr.2, rfl⟩
    · cases h

/-- `from` and `from_nonnegative` build the amount `t ↦ x`. -/
theorem index_ofRange (h : ofRange lo t x = .ok a) (t' : K) :
    a.index t' = if t = t' then x else 0 := by
  obtain ⟨rfl, rfl⟩ | ⟨-, -, -, rfl⟩ := ofRange_eq_ok h
  · simp
  · rw [index_eq, BTreeMap.get_insert]; split <;> rfl

theorem Valid.of_ofRange (hlo : -maxMoney ≤ lo) (h : ofRange lo t x = .ok a) : a.Valid := by
  obtain ⟨-, rfl⟩ | ⟨h0, h1, h2, rfl⟩ := ofRange_eq_ok h
  · exact .zero
  · refine valid_iff.mpr fun t' y hy => ?_
    rw [BTreeMap.get_insert, BTreeMap.get_empty] at hy
    split at hy <;> cases hy
    exact ⟨h0, by unfold InRange; omega⟩

theorem Valid.of_from (h : Amount.from t x = .ok a) : a.Valid := Valid.of_ofRange le_rfl h

theorem Valid.of_fromNonnegative (h : fromNonnegative t x = .ok a) : a.Valid :=
  Valid.of_ofRange (by simp [maxMoney_eq]) h

end Constructors

/-! ## One step of `add` and `sub` -/

section Step
variable {op : I64 → I64 → I64} {msg : String} {acc acc' : Amount K} {k : K} {v : I64}

theorem combineStep_ok_iff :
    (∃ acc', combineStep op msg acc (k, v) = .ok acc') ↔ InRange (op (acc.index k) v).toInt := by
  simp only [combineStep]
  split
  · next h => simpa [I64.eq_zero_iff.mp h] using InRange.zero
  · split
    · next h => simpa [InRange] using h
    · next h => simp [InRange, h]

/-- A step stores at its own asset type what `stored` says, and nowhere else. -/
theorem combineStep_get (h : combineStep op msg acc (k, v) = .ok acc') (t : K) :
    acc'.map.get t = if k = t then stored (op (acc.index k) v) else acc.map.get t := by
  simp only [combineStep] at h
  split at h
  · next h0 => cases h; simp [stored, h0]
  · split at h
    · next h0 _ => cases h; simp only [stored, if_neg h0, BTreeMap.get_insert]
    · cases h

theorem combineStep_inRange (h : combineStep op msg acc (k, v) = .ok acc') :
    InRange (op (acc.index k) v).toInt :=
  combineStep_ok_iff.mp ⟨_, h⟩

theorem combineStep_index_of_ne (h : combineStep op msg acc (k, v) = .ok acc') {t : K}
    (ht : k ≠ t) : acc'.index t = acc.index t := by
  rw [index_eq, combineStep_get h, if_neg ht, index_eq]

end Step

/-! ## The loop of `add` and `sub` -/

section Loop
variable {op : I64 → I64 → I64} {msg : String}

/-- The loop returns exactly when each step's quantity, computed from the starting
amount, is in range: a step reads only its own asset type, which no earlier step
touched. -/
theorem foldlM_combineStep_ok_iff {es : List (K × I64)} (hes : (es.map Prod.fst).Nodup)
    (acc : Amount K) :
    (∃ r, es.foldlM (combineStep op msg) acc = .ok r) ↔
      ∀ e ∈ es, InRange (op (acc.index e.1) e.2).toInt := by
  induction es generalizing acc with
  | nil => simpa using ⟨acc, rfl⟩
  | cons e rest ih =>
    obtain ⟨k, v⟩ := e
    simp only [List.map_cons, List.nodup_cons] at hes
    have hne : ∀ e ∈ rest, k ≠ e.1 := fun e he h => hes.1 (h ▸ List.mem_map_of_mem _ he)
    simp only [List.foldlM_cons, Except.bind_eq_ok, List.forall_mem_cons]
    constructor
    · rintro ⟨r, acc', h1, h2⟩
      refine ⟨combineStep_inRange h1, fun e he => ?_⟩
      rw [← combineStep_index_of_ne h1 (hne e he)]
      exact (ih hes.2 acc').mp ⟨r, h2⟩ e he
    · rintro ⟨hk, hrest⟩
      obtain ⟨acc', h1⟩ : ∃ acc', combineStep op msg acc (k, v) = .ok acc' :=
        combineStep_ok_iff.mpr hk
      obtain ⟨r, h2⟩ := (ih hes.2 acc').mpr fun e he => by
        rw [combineStep_index_of_ne h1 (hne e he)]; exact hrest e he
      exact ⟨r, acc', h1, h2⟩

/-- After the loop, an asset type of `es` holds what its one step stored, and any other
what it held before. -/
theorem foldlM_combineStep_get {es : List (K × I64)} (hes : (es.map Prod.fst).Nodup)
    {acc r : Amount K} (h : es.foldlM (combineStep op msg) acc = .ok r) (t : K) :
    r.map.get t = match getEntry es t with
      | none => acc.map.get t
      | some v => stored (op (acc.index t) v) := by
  induction es generalizing acc with
  | nil => cases h; rfl
  | cons e rest ih =>
    obtain ⟨k, v⟩ := e
    simp only [List.map_cons, List.nodup_cons] at hes
    obtain ⟨acc', h1, h2⟩ := Except.bind_eq_ok.mp h
    rw [ih hes.2 h2, getEntry]
    by_cases hk : k = t
    · subst hk
      rw [getEntry_eq_none hes.1, combineStep_get h1, if_pos rfl, if_pos rfl]
    · rw [if_neg hk, combineStep_get h1, if_neg hk, combineStep_index_of_ne h1 hk]

/-- A step keeps the invariant: it removes a zero and stores only what it checked. -/
theorem Valid.of_combineStep {acc acc' : Amount K} {c : K × I64} (ha : acc.Valid)
    (h : combineStep op msg acc c = .ok acc') : acc'.Valid := by
  rw [valid_iff] at ha ⊢
  intro t x hx
  rw [combineStep_get h] at hx
  split at hx
  · obtain ⟨h0, rfl⟩ := stored_eq_some.mp hx
    exact ⟨h0, combineStep_inRange h⟩
  · exact ha t x hx

theorem Valid.foldlM_combineStep {es : List (K × I64)} {acc r : Amount K} (ha : acc.Valid)
    (h : es.foldlM (combineStep op msg) acc = .ok r) : r.Valid := by
  induction es generalizing acc with
  | nil => cases h; exact ha
  | cons e rest ih =>
    obtain ⟨acc', h1, h2⟩ := Except.bind_eq_ok.mp h
    exact ih (ha.of_combineStep h1) h2

/-- `add` and `sub` keep the invariant of `self`, whatever `rhs` holds. -/
theorem Valid.combine {a b r : Amount K} (ha : a.Valid) (h : combine op msg a b = .ok r) :
    r.Valid :=
  ha.foldlM_combineStep h

/-- The loop of `add` and `sub` panics only with its own message. -/
theorem foldlM_combineStep_eq_error {es : List (K × I64)} {acc : Amount K} {p : Panic}
    (h : es.foldlM (combineStep op msg) acc = .error p) : p = ⟨msg⟩ := by
  induction es generalizing acc with
  | nil => cases h
  | cons e rest ih =>
    rcases Except.bind_eq_error.mp h with h | ⟨acc', -, h⟩
    · simp only [combineStep] at h
      split_ifs at h
      cases h
      rfl
    · exact ih h

end Loop

/-! ## `add` and `sub` are pointwise -/

section Combine
variable {op : I64 → I64 → I64} {opInt : Int → Int → Int} {msg : String}
  (hop : ∀ x y : I64, InRange x.toInt → InRange y.toInt → (op x y).toInt = opInt x.toInt y.toInt)
  (hop0 : ∀ x : I64, op x 0 = x)
  {a b r : Amount K}
include hop0

/-- On a valid `self`, the loop stores at every asset type `self[t] op rhs[t]`. -/
theorem combine_get (ha : a.Valid) (h : combine op msg a b = .ok r) (t : K) :
    r.map.get t = stored (op (a.index t) (b.index t)) := by
  rw [foldlM_combineStep_get b.map.nodup_keys h]
  cases hg : getEntry b.map.entries t with
  | none =>
    have hb : b.index t = 0 := by rw [index_eq]; simp only [BTreeMap.get, hg, Option.getD_none]
    rw [hb, hop0, ha.get_eq_stored]
  | some v =>
    have hb : b.index t = v := by rw [index_eq]; simp only [BTreeMap.get, hg, Option.getD_some]
    rw [hb]

include hop

theorem combine_ok_iff (ha : a.Valid) (hb : b.Valid) :
    (∃ r, combine op msg a b = .ok r) ↔ ∀ t, InRange (opInt (a.index t).toInt (b.index t).toInt) := by
  have key : ∀ t, opInt (a.index t).toInt (b.index t).toInt = (op (a.index t) (b.index t)).toInt :=
    fun t => (hop _ _ (ha.index t) (hb.index t)).symm
  simp only [key, combine, components, foldlM_combineStep_ok_iff b.map.nodup_keys]
  exact forall_mem_entries_iff (fun t v => InRange (op (a.index t) v).toInt) fun t =>
    show InRange (op (a.index t) 0).toInt by rw [hop0]; exact ha.index t

theorem combine_isPointwise (ha : a.Valid) (hb : b.Valid) (h : combine op msg a b = .ok r) :
    IsPointwise opInt a b r := by
  refine ⟨ha.combine h, fun t => ?_⟩
  have hget := combine_get hop0 ha h t
  rw [index_eq, hget, getD_stored, hop _ _ (ha.index t) (hb.index t), mem_assetTypes, hget,
    isSome_stored, Ne, I64.eq_zero_iff, hop _ _ (ha.index t) (hb.index t)]
  exact ⟨rfl, Iff.rfl⟩

end Combine

/-! ## `add`, `sub` and `Sum` -/

section AddSub
variable {a b r : Amount K}

theorem add_ok_iff (ha : a.Valid) (hb : b.Valid) :
    (∃ r, a.add b = .ok r) ↔ ∀ t, InRange ((a.index t).toInt + (b.index t).toInt) :=
  combine_ok_iff (fun _ _ => toInt_add_of_inRange) BitVec.add_zero ha hb

theorem add_isPointwise (ha : a.Valid) (hb : b.Valid) (h : a.add b = .ok r) :
    IsPointwise (· + ·) a b r :=
  combine_isPointwise (fun _ _ => toInt_add_of_inRange) BitVec.add_zero ha hb h

theorem sub_ok_iff (ha : a.Valid) (hb : b.Valid) :
    (∃ r, a.sub b = .ok r) ↔ ∀ t, InRange ((a.index t).toInt - (b.index t).toInt) :=
  combine_ok_iff (fun _ _ => toInt_sub_of_inRange) BitVec.sub_zero ha hb

theorem sub_isPointwise (ha : a.Valid) (hb : b.Valid) (h : a.sub b = .ok r) :
    IsPointwise (· - ·) a b r :=
  combine_isPointwise (fun _ _ => toInt_sub_of_inRange) BitVec.sub_zero ha hb h

theorem add_index (ha : a.Valid) (hb : b.Valid) (h : a.add b = .ok r) (t : K) :
    (r.index t).toInt = (a.index t).toInt + (b.index t).toInt :=
  ((add_isPointwise ha hb h).2 t).1

theorem sub_index (ha : a.Valid) (hb : b.Valid) (h : a.sub b = .ok r) (t : K) :
    (r.index t).toInt = (a.index t).toInt - (b.index t).toInt :=
  ((sub_isPointwise ha hb h).2 t).1

theorem add_comm_of_ok (ha : a.Valid) (hb : b.Valid) (h : a.add b = .ok r) : b.add a = .ok r := by
  have hr := add_index ha hb h
  have hv := (ha.combine h : r.Valid)
  obtain ⟨r', h'⟩ := (add_ok_iff hb ha).mpr fun t => by
    rw [Int.add_comm, ← hr]; exact hv.index t
  rw [h', (ha.combine h).ext ((hb.combine h')) fun t => BitVec.toInt_inj.mp (by
    rw [hr, add_index hb ha h', Int.add_comm])]

theorem add_sub_cancel_of_ok (ha : a.Valid) (hb : b.Valid) (h : a.add b = .ok r) :
    r.sub b = .ok a := by
  have hv : r.Valid := ha.combine h
  have hsub : ∀ t, (r.index t).toInt - (b.index t).toInt = (a.index t).toInt := fun t => by
    rw [add_index ha hb h]; omega
  obtain ⟨r', h'⟩ := (sub_ok_iff hv hb).mpr fun t => by rw [hsub]; exact ha.index t
  rw [h', (hv.combine h').ext ha fun t => BitVec.toInt_inj.mp (by rw [sub_index hv hb h', hsub])]

/-- `fold` of `add` from a valid start returns the pointwise total when every partial
total is in range. -/
theorem foldlM_add {l : List (Amount K)} (hl : ∀ a ∈ l, a.Valid) {acc : Amount K}
    (hacc : acc.Valid)
    (hr : ∀ n t, InRange ((acc.index t).toInt + ((l.take n).map fun a => (a.index t).toInt).sum)) :
    ∃ r, l.foldlM add acc = .ok r ∧ r.Valid ∧
      ∀ t, (r.index t).toInt = (acc.index t).toInt + (l.map fun a => (a.index t).toInt).sum := by
  induction l generalizing acc with
  | nil => exact ⟨acc, rfl, hacc, by simp⟩
  | cons a rest ih =>
    have ha := hl a (List.mem_cons_self _ _)
    obtain ⟨acc', h1⟩ := (add_ok_iff hacc ha).mpr fun t => by simpa using hr 1 t
    obtain ⟨r, h2, hv, hsum⟩ := ih (fun b hb => hl b (List.mem_cons_of_mem _ hb))
      (hacc.combine h1) fun n t => by
        simpa [add_index hacc ha h1, Int.add_assoc] using hr (n + 1) t
    refine ⟨r, by rw [List.foldlM_cons, h1]; exact h2, hv, fun t => ?_⟩
    rw [hsum, add_index hacc ha h1, List.map_cons, List.sum_cons, Int.add_assoc]

theorem Valid.foldlM_add {l : List (Amount K)} {acc : Amount K} (ha : acc.Valid)
    (h : l.foldlM add acc = .ok r) : r.Valid := by
  induction l generalizing acc with
  | nil => cases h; exact ha
  | cons b rest ih =>
    obtain ⟨acc', h1, h2⟩ := Except.bind_eq_ok.mp h
    exact ih (ha.combine h1) h2

theorem Valid.sum {l : List (Amount K)} (h : sum l = .ok r) : r.Valid :=
  Valid.zero.foldlM_add h

/-- `+`, `-`, `+=`, `-=` and `Sum` on valid amounts: each returns exactly when the
pointwise result is in range, and then returns it. -/
theorem add_sub_pointwise (ha : a.Valid) (hb : b.Valid) :
    ((∃ r, a.add b = .ok r) ↔ ∀ t, InRange ((a.index t).toInt + (b.index t).toInt)) ∧
    (∀ r, a.add b = .ok r → IsPointwise (· + ·) a b r) ∧
    ((∃ r, a.sub b = .ok r) ↔ ∀ t, InRange ((a.index t).toInt - (b.index t).toInt)) ∧
    (∀ r, a.sub b = .ok r → IsPointwise (· - ·) a b r) ∧
    a.addAssign b = a.add b ∧ a.subAssign b = a.sub b ∧
    (∀ r, a.add b = .ok r → b.add a = .ok r ∧ r.sub b = .ok a) ∧
    ∀ l : List (Amount K), (∀ c ∈ l, c.Valid) →
      (∀ n t, InRange (((l.take n).map fun c => (c.index t).toInt).sum)) →
      ∃ r, sum l = .ok r ∧ r.Valid ∧
        ∀ t, (r.index t).toInt = (l.map fun c => (c.index t).toInt).sum := by
  refine ⟨add_ok_iff ha hb, fun _ => add_isPointwise ha hb, sub_ok_iff ha hb,
    fun _ => sub_isPointwise ha hb, rfl, rfl,
    fun _ h => ⟨add_comm_of_ok ha hb h, add_sub_cancel_of_ok ha hb h⟩, fun l hl hr => ?_⟩
  obtain ⟨r, h, hv, hsum⟩ := foldlM_add hl .zero (by simpa using hr)
  exact ⟨r, h, hv, by simpa using hsum⟩

/-- `{0: 5, 2: -3} + {0: -5, 1: 4}`: the loop removes asset 0, whose sum is 0, and
inserts asset 1. -/
theorem add_sub_pointwise_two_assets :
    (⟨(BTreeMap.empty.insert 0 5).insert 2 (-3)⟩ : Amount ℕ).Valid ∧
      (⟨(BTreeMap.empty.insert 0 (-5)).insert 1 4⟩ : Amount ℕ).Valid ∧
      (⟨(BTreeMap.empty.insert 0 5).insert 2 (-3)⟩ : Amount ℕ).add
          ⟨(BTreeMap.empty.insert 0 (-5)).insert 1 4⟩ =
        .ok ⟨(BTreeMap.empty.insert 1 4).insert 2 (-3)⟩ ∧
      IsPointwise (· + ·) (⟨(BTreeMap.empty.insert 0 5).insert 2 (-3)⟩ : Amount ℕ)
        ⟨(BTreeMap.empty.insert 0 (-5)).insert 1 4⟩ ⟨(BTreeMap.empty.insert 1 4).insert 2 (-3)⟩ :=
  ⟨by decide, by decide, rfl, (add_sub_pointwise (by decide) (by decide)).2.1 _ rfl⟩

/-! ## Running totals of `Sum` -/

/-- A `fold` of `add` that returns had every running total in range. -/
theorem foldlM_add_inRange {l : List (Amount K)} (hl : ∀ a ∈ l, a.Valid) {acc r : Amount K}
    (hacc : acc.Valid) (h : l.foldlM add acc = .ok r) (n : Nat) (t : K) :
    InRange ((acc.index t).toInt + ((l.take n).map fun a => (a.index t).toInt).sum) := by
  induction l generalizing acc n with
  | nil => simpa using hacc.index t
  | cons a rest ih =>
    obtain ⟨acc', h1, h2⟩ := Except.bind_eq_ok.mp h
    cases n with
    | zero => simpa using hacc.index t
    | succ n =>
      have hn := ih (fun b hb => hl b (List.mem_cons_of_mem _ hb)) (hacc.combine h1) h2 n
      rw [add_index hacc (hl a (List.mem_cons_self _ _)) h1] at hn
      simpa [Int.add_assoc] using hn

theorem index_sum {l : List (Amount K)} (hl : ∀ a ∈ l, a.Valid) {r : Amount K}
    (h : sum l = .ok r) (t : K) : (r.index t).toInt = (l.map fun a => (a.index t).toInt).sum := by
  obtain ⟨r', h', -, hsum⟩ := foldlM_add hl .zero (foldlM_add_inRange hl .zero h)
  obtain ⟨⟩ : r = r' := Except.ok.inj (h.symm.trans h')
  simpa using hsum t

/-- **`Sum` over valid amounts.** `iter.sum()` returns exactly when every running total
is in range at every asset type, and panics otherwise; so whether it panics depends on
the order of the items, but what it returns does not: two orders of the same items that
both return give the same amount. -/
theorem sum_returns_iff_running_totals {l : List (Amount K)} (hl : ∀ a ∈ l, a.Valid) :
    ((∃ r, sum l = .ok r) ↔ ∀ n t, InRange (((l.take n).map fun a => (a.index t).toInt).sum)) ∧
    ∀ l' r r', l.Perm l' → sum l = .ok r → sum l' = .ok r' → r = r' := by
  refine ⟨⟨fun ⟨r, h⟩ n t => by simpa using foldlM_add_inRange hl .zero h n t, fun hr => ?_⟩,
    fun l' r r' hp h h' => Valid.ext (.sum h) (.sum h') fun t => BitVec.toInt_inj.mp ?_⟩
  · obtain ⟨r, h, -⟩ := foldlM_add hl .zero (by simpa using hr)
    exact ⟨r, h⟩
  · rw [index_sum hl h, index_sum (fun a ha => hl a (hp.mem_iff.mpr ha)) h']
    exact (hp.map _).sum_eq

/-- Three items over two assets, the second cancelling the first at asset 0. -/
theorem sum_returns_iff_running_totals_three :
    (∀ a ∈ [(⟨BTreeMap.empty.insert 0 5⟩ : Amount ℕ), ⟨(BTreeMap.empty.insert 0 (-5)).insert 1 2⟩,
        ⟨BTreeMap.empty.insert 1 3⟩], a.Valid) ∧
      ((∃ r, sum [(⟨BTreeMap.empty.insert 0 5⟩ : Amount ℕ),
          ⟨(BTreeMap.empty.insert 0 (-5)).insert 1 2⟩, ⟨BTreeMap.empty.insert 1 3⟩] = .ok r) ↔
        ∀ n t, InRange ((([(⟨BTreeMap.empty.insert 0 5⟩ : Amount ℕ),
          ⟨(BTreeMap.empty.insert 0 (-5)).insert 1 2⟩, ⟨BTreeMap.empty.insert 1 3⟩].take n).map
            fun a => (a.index t).toInt).sum)) :=
  ⟨by decide, (sum_returns_iff_running_totals (by decide)).1⟩

/-! ## `project` and `reject` -/

theorem unwrapUnit_eq_ok {α : Type} {x : Except Unit α} {y : α} :
    unwrapUnit x = .ok y ↔ x = .ok y := by
  cases x <;> simp [unwrapUnit]

/-- On a valid amount `project` returns the amount of asset `t` alone. -/
theorem project_ok (ha : a.Valid) (t : K) :
    ∃ p, a.project t = .ok p ∧ p.Valid ∧ ∀ t', p.index t' = if t = t' then a.index t else 0 := by
  obtain ⟨p, hp⟩ : ∃ p, Amount.from t (a.index t) = .ok p := ofRange_ok (ha.index t).1 (ha.index t).2
  exact ⟨p, unwrapUnit_eq_ok.mpr hp, Valid.of_from hp, index_ofRange hp⟩

/-- On a valid amount `reject` returns the amount without asset `t`. -/
theorem reject_ok (ha : a.Valid) (t : K) :
    ∃ r, a.reject t = .ok r ∧ r.Valid ∧ ∀ t', r.index t' = if t = t' then 0 else a.index t' := by
  obtain ⟨p, hp, hpv, hpi⟩ := project_ok ha t
  have hdiff : ∀ t', (a.index t').toInt - (p.index t').toInt =
      (if t = t' then 0 else a.index t').toInt := fun t' => by
    rw [hpi]; split <;> simp_all
  obtain ⟨r, hr⟩ := (sub_ok_iff ha hpv).mpr fun t' => by
    rw [hdiff]; split
    · exact InRange.zero
    · exact ha.index t'
  refine ⟨r, by simp only [reject, hp, bind, Except.bind, hr], ha.combine hr, fun t' => ?_⟩
  exact BitVec.toInt_inj.mp (by rw [sub_index ha hpv hr, hdiff])

/-- `reject(t)` and `project(t)` split a valid amount: adding them back, in either order,
returns the amount itself. -/
theorem reject_add_project (ha : a.Valid) (t : K) :
    ∃ p r, a.project t = .ok p ∧ a.reject t = .ok r ∧ r.add p = .ok a ∧ p.add r = .ok a := by
  obtain ⟨p, hp, hpv, hpi⟩ := project_ok ha t
  obtain ⟨r, hr, hrv, hri⟩ := reject_ok ha t
  have hsum : ∀ t', (r.index t').toInt + (p.index t').toInt = (a.index t').toInt := fun t' => by
    rw [hri, hpi]; split <;> simp_all
  obtain ⟨s, hs⟩ := (add_ok_iff hrv hpv).mpr fun t' => hsum t' ▸ ha.index t'
  have hsa : s = a := (hrv.combine hs).ext ha fun t' =>
    BitVec.toInt_inj.mp (by rw [add_index hrv hpv hs, hsum])
  subst hsa
  exact ⟨p, r, hp, hr, hs, add_comm_of_ok hrv hpv hs⟩

theorem reject_add_project_two_assets :
    (⟨(BTreeMap.empty.insert 0 5).insert 2 (-3)⟩ : Amount ℕ).Valid ∧
      ∃ p r, (⟨(BTreeMap.empty.insert 0 5).insert 2 (-3)⟩ : Amount ℕ).project 2 = .ok p ∧
        (⟨(BTreeMap.empty.insert 0 5).insert 2 (-3)⟩ : Amount ℕ).reject 2 = .ok r ∧
        r.add p = .ok ⟨(BTreeMap.empty.insert 0 5).insert 2 (-3)⟩ ∧
        p.add r = .ok ⟨(BTreeMap.empty.insert 0 5).insert 2 (-3)⟩ :=
  ⟨by decide, reject_add_project (by decide) 2⟩

end AddSub

end Amount

end Masp
