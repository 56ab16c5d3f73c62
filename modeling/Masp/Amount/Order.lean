/-
`PartialOrd for Amount` of `amount.rs`: `partial_cmp` and the `<=` and `>=` the
trait derives from it.

The loop mutates a clone of `other`: for each stored `(atype, amount)` of `self`
it replaces `diff[atype]` by `diff[atype] - amount`, removing a 0. Self's keys are
distinct, so each is visited once and the map it leaves holds `other[t] - self[t]`
at every `t` (`index_partialCmpDiff`); the three `all` tests then read that
difference everywhere, stored or not, since each test holds of 0.

The subtraction is `i64` and unchecked. When both amounts keep their quantities
in `[-MAX_MONEY, MAX_MONEY]` (`Bounded`; a valid amount does) it cannot wrap, so
the tests are the componentwise comparisons and `partial_cmp` is the
componentwise order.

The loop is that of `Sub` without the range check, so where `other - self` returns
`r`, `self.partial_cmp(other)` is `zero().partial_cmp(r)` (`partialCmp_eq_of_sub`).
Adding or subtracting one amount on both sides keeps the comparison
(`partialCmp_add_sub_right`), and on valid amounts `Some(Equal)` is the derived
equality (`partialCmp_eq_iff_eq`).
-/
import Mathlib.Data.BitVec
import Masp.Amount.Arith

namespace Masp

variable {K : Type} [LinearOrder K]

namespace Amount

/-- Every stored quantity is in `[-MAX_MONEY, MAX_MONEY]`. Unlike `Valid`, a stored 0 is
allowed, as `mul` can leave one. -/
def Bounded (a : Amount K) : Prop := ∀ e ∈ a.components, InRange e.2.toInt

instance (a : Amount K) : Decidable a.Bounded :=
  inferInstanceAs (Decidable (∀ e ∈ a.components, InRange e.2.toInt))

theorem Bounded.index {a : Amount K} (h : a.Bounded) (t : K) : InRange (a.index t).toInt :=
  (forall_mem_entries_iff (fun _ v => InRange v.toInt) fun _ => InRange.zero).mp h t

theorem Valid.bounded {a : Amount K} (h : a.Valid) : a.Bounded := fun e he => (h e he).2

/-! ## The difference map -/

/-- One turn of the loop subtracts at its own key and leaves every other key. -/
theorem getD_partialCmpStep (diff : BTreeMap K I64) (c : K × I64) (t : K) :
    ((partialCmpStep diff c).get t).getD 0 =
      if c.1 = t then (diff.get t).getD 0 - c.2 else (diff.get t).getD 0 := by
  unfold partialCmpStep
  split <;> simp only [BTreeMap.get_remove, BTreeMap.get_insert] <;> split <;> simp_all

/-- The loop over entries with distinct keys subtracts each entry at its key. -/
theorem getD_foldl_partialCmpStep {l : List (K × I64)} (hl : (l.map Prod.fst).Nodup)
    (diff : BTreeMap K I64) (t : K) :
    ((l.foldl partialCmpStep diff).get t).getD 0 = (diff.get t).getD 0 - (getEntry l t).getD 0 := by
  induction l generalizing diff with
  | nil => exact (BitVec.sub_zero _).symm
  | cons c rest ih =>
    obtain ⟨k, v⟩ := c
    simp only [List.map_cons, List.nodup_cons] at hl
    rw [List.foldl_cons, ih hl.2, getD_partialCmpStep, getEntry]
    by_cases h : k = t
    · subst h; simp [getEntry_eq_none hl.1]
    · simp [h]

/-- The map `partial_cmp` builds holds `other[t] - self[t]` at every `t`. -/
theorem index_partialCmpDiff (a b : Amount K) (t : K) :
    ((a.components.foldl partialCmpStep b.map).get t).getD 0 = b.index t - a.index t :=
  getD_foldl_partialCmpStep a.map.nodup_keys b.map t

/-- A test of `partial_cmp` that holds of 0 holds of every stored difference exactly when
it holds of the difference at every asset type. -/
theorem all_partialCmpDiff_iff (a b : Amount K) (p : I64 → Prop) [DecidablePred p] (h0 : p 0) :
    ((a.components.foldl partialCmpStep b.map).entries.all fun e => decide (p e.2)) = true ↔
      ∀ t, p (b.index t - a.index t) := by
  simp only [List.all_eq_true, decide_eq_true_eq, ← index_partialCmpDiff]
  exact forall_mem_entries_iff (fun _ v => p v) fun _ => h0

/-! ## The difference map is `Sub` without its check -/

/-- A turn of `Sub`'s loop that returns did what the turn of `partial_cmp`'s loop does. -/
theorem combineStep_sub_map {msg : String} {acc acc' : Amount K} {c : K × I64}
    (h : combineStep (· - ·) msg acc c = .ok acc') : acc'.map = partialCmpStep acc.map c := by
  simp only [combineStep] at h
  simp only [partialCmpStep]
  split at h
  · next h0 => cases h; exact (if_pos h0).symm
  · next h0 => split at h <;> cases h; exact (if_neg h0).symm

theorem foldlM_sub_map {msg : String} {es : List (K × I64)} {acc r : Amount K}
    (h : es.foldlM (combineStep (· - ·) msg) acc = .ok r) :
    r.map = es.foldl partialCmpStep acc.map := by
  induction es generalizing acc with
  | nil => cases h; rfl
  | cons c rest ih =>
    obtain ⟨acc', h1, h2⟩ := Except.bind_eq_ok.mp h
    rw [List.foldl_cons, ← combineStep_sub_map h1]
    exact ih h2

/-- `partial_cmp` runs `Sub`'s loop for `other - self` without the range check. Where
`other - self` returns, the map it leaves is that difference, so `self.partial_cmp(other)`
is the difference compared with zero, for any two amounts. -/
theorem partialCmp_eq_of_sub {a b r : Amount K} (h : b.sub a = .ok r) :
    (a.components.foldl partialCmpStep b.map = r.map) ∧ a.partialCmp b = zero.partialCmp r := by
  have hmap := (foldlM_sub_map h).symm
  exact ⟨hmap, by simp only [partialCmp, hmap]; rfl⟩

/-- `{0: 7, 2: -3} - {0: 5, 1: 2}`: both loops replace asset 0 and insert asset 1. -/
theorem partialCmp_eq_of_sub_two_assets :
    (⟨(BTreeMap.empty.insert 0 7).insert 2 (-3)⟩ : Amount ℕ).sub ⟨(BTreeMap.empty.insert 0 5).insert 1 2⟩ =
        .ok ⟨((BTreeMap.empty.insert 0 2).insert 1 (-2)).insert 2 (-3)⟩ ∧
      ((⟨(BTreeMap.empty.insert 0 5).insert 1 2⟩ : Amount ℕ).components.foldl partialCmpStep
          (⟨(BTreeMap.empty.insert 0 7).insert 2 (-3)⟩ : Amount ℕ).map =
        (⟨((BTreeMap.empty.insert 0 2).insert 1 (-2)).insert 2 (-3)⟩ : Amount ℕ).map ∧
      (⟨(BTreeMap.empty.insert 0 5).insert 1 2⟩ : Amount ℕ).partialCmp
          ⟨(BTreeMap.empty.insert 0 7).insert 2 (-3)⟩ =
        zero.partialCmp ⟨((BTreeMap.empty.insert 0 2).insert 1 (-2)).insert 2 (-3)⟩) :=
  ⟨rfl, partialCmp_eq_of_sub rfl⟩

/-! ## The three tests -/

section
variable {a b : Amount K}

theorem all_diff_eq_zero_iff :
    ((a.components.foldl partialCmpStep b.map).entries.all fun e => e.2 = 0) = true ↔
      ∀ t, a.index t = b.index t := by
  rw [all_partialCmpDiff_iff a b (· = 0) rfl]
  exact forall_congr' fun t => sub_eq_zero.trans eq_comm

variable (ha : a.Bounded) (hb : b.Bounded)
include ha hb

theorem toInt_diff (t : K) : (b.index t - a.index t).toInt = (b.index t).toInt - (a.index t).toInt :=
  toInt_sub_of_inRange (hb.index t) (ha.index t)

theorem all_diff_nonneg_iff :
    ((a.components.foldl partialCmpStep b.map).entries.all fun e => 0 ≤ e.2.toInt) = true ↔
      ∀ t, (a.index t).toInt ≤ (b.index t).toInt := by
  rw [all_partialCmpDiff_iff a b (fun x => 0 ≤ x.toInt) (by simp)]
  exact forall_congr' fun t => by rw [toInt_diff ha hb]; omega

theorem all_diff_nonpos_iff :
    ((a.components.foldl partialCmpStep b.map).entries.all fun e => e.2.toInt ≤ 0) = true ↔
      ∀ t, (b.index t).toInt ≤ (a.index t).toInt := by
  rw [all_partialCmpDiff_iff a b (fun x => x.toInt ≤ 0) (by simp)]
  exact forall_congr' fun t => by rw [toInt_diff ha hb]; omega

/-- On bounded amounts `partial_cmp`'s tests are: all quantities equal, all of `self`'s
at most `other`'s, all at least. -/
theorem partialCmp_tests :
    (a.partialCmp b = some .eq ↔ ∀ t, a.index t = b.index t) ∧
    (a.partialCmp b = some .lt ↔
      (¬∀ t, a.index t = b.index t) ∧ ∀ t, (a.index t).toInt ≤ (b.index t).toInt) ∧
    (a.partialCmp b = some .gt ↔ (¬∀ t, a.index t = b.index t) ∧
      (¬∀ t, (a.index t).toInt ≤ (b.index t).toInt) ∧ ∀ t, (b.index t).toInt ≤ (a.index t).toInt) ∧
    (a.partialCmp b = none ↔ (¬∀ t, a.index t = b.index t) ∧
      (¬∀ t, (a.index t).toInt ≤ (b.index t).toInt) ∧ ¬∀ t, (b.index t).toInt ≤ (a.index t).toInt) := by
  simp only [partialCmp]
  split_ifs <;>
    simp only [all_diff_eq_zero_iff, all_diff_nonneg_iff ha hb, all_diff_nonpos_iff ha hb] at * <;>
    simp [*]

end

/-! ## Componentwise order -/

omit [LinearOrder K] in
/-- Where `f ≤ g` everywhere, `f` and `g` differ exactly where `f < g` somewhere. -/
theorem not_forall_eq_iff_of_le {f g : K → I64} (h : ∀ t, (f t).toInt ≤ (g t).toInt) :
    (¬∀ t, f t = g t) ↔ ∃ t, (f t).toInt < (g t).toInt := by
  simp only [not_forall, ← BitVec.toInt_inj]
  exact exists_congr fun t => by have := h t; omega

/-- `<=` is `partial_cmp` giving `Some(Less | Equal)`. -/
theorem le_eq_true (a b : Amount K) :
    a.le b = true ↔ a.partialCmp b = some .lt ∨ a.partialCmp b = some .eq := by
  unfold le; split <;> simp_all

/-- `>=` is `partial_cmp` giving `Some(Greater | Equal)`. -/
theorem ge_eq_true (a b : Amount K) :
    a.ge b = true ↔ a.partialCmp b = some .gt ∨ a.partialCmp b = some .eq := by
  unfold ge; split <;> simp_all

section
variable {a b : Amount K} (ha : a.Bounded) (hb : b.Bounded)
include ha hb

theorem partialCmp_eq_lt_iff : a.partialCmp b = some .lt ↔
    (∀ t, (a.index t).toInt ≤ (b.index t).toInt) ∧ ∃ t, (a.index t).toInt < (b.index t).toInt := by
  rw [(partialCmp_tests ha hb).2.1]
  exact ⟨fun ⟨hne, hle⟩ => ⟨hle, (not_forall_eq_iff_of_le hle).mp hne⟩,
    fun ⟨hle, hlt⟩ => ⟨(not_forall_eq_iff_of_le hle).mpr hlt, hle⟩⟩

theorem partialCmp_eq_gt_iff : a.partialCmp b = some .gt ↔
    (∀ t, (b.index t).toInt ≤ (a.index t).toInt) ∧ ∃ t, (b.index t).toInt < (a.index t).toInt := by
  rw [(partialCmp_tests ha hb).2.2.1]
  exact ⟨fun ⟨hne, _, hge⟩ => ⟨hge, (not_forall_eq_iff_of_le hge).mp fun h => hne fun t => (h t).symm⟩,
    fun ⟨hge, t, hlt⟩ => ⟨fun he => hlt.ne' (congrArg BitVec.toInt (he t)), fun hle => (hle t).not_lt hlt, hge⟩⟩

theorem partialCmp_eq_none_iff : a.partialCmp b = none ↔
    (¬∀ t, (a.index t).toInt ≤ (b.index t).toInt) ∧ ¬∀ t, (b.index t).toInt ≤ (a.index t).toInt := by
  rw [(partialCmp_tests ha hb).2.2.2]
  exact ⟨fun h => h.2, fun h => ⟨fun he => h.1 fun t => (congrArg BitVec.toInt (he t)).le, h⟩⟩

theorem partialCmp_eq_eq_comm : a.partialCmp b = some .eq ↔ b.partialCmp a = some .eq := by
  rw [(partialCmp_tests ha hb).1, (partialCmp_tests hb ha).1]
  exact forall_congr' fun _ => eq_comm

theorem partialCmp_eq_gt_iff_lt : a.partialCmp b = some .gt ↔ b.partialCmp a = some .lt :=
  (partialCmp_eq_gt_iff ha hb).trans (partialCmp_eq_lt_iff hb ha).symm

theorem le_eq_true_iff : a.le b = true ↔ ∀ t, (a.index t).toInt ≤ (b.index t).toInt := by
  rw [le_eq_true, partialCmp_eq_lt_iff ha hb, (partialCmp_tests ha hb).1]
  refine ⟨fun h => h.elim And.left fun he t => (congrArg BitVec.toInt (he t)).le, fun h => ?_⟩
  by_cases he : ∀ t, a.index t = b.index t
  · exact .inr he
  · exact .inl ⟨h, (not_forall_eq_iff_of_le h).mp he⟩

theorem ge_eq_true_iff : a.ge b = true ↔ ∀ t, (b.index t).toInt ≤ (a.index t).toInt := by
  rw [ge_eq_true, partialCmp_eq_gt_iff_lt ha hb, partialCmp_eq_eq_comm ha hb, ← le_eq_true,
    le_eq_true_iff hb ha]

end

/-- On amounts whose quantities are in `[-MAX_MONEY, MAX_MONEY]`, `partial_cmp` is the
componentwise order of `t ↦ self[t]` and `t ↦ other[t]`, and the derived `<=` and `>=`
are reflexive and transitive. -/
theorem partialCmp_componentwise {a b : Amount K} (ha : a.Bounded) (hb : b.Bounded) :
    (a.partialCmp b = some .eq ↔ ∀ t, a.index t = b.index t) ∧
    (a.partialCmp b = some .lt ↔
      (∀ t, (a.index t).toInt ≤ (b.index t).toInt) ∧ ∃ t, (a.index t).toInt < (b.index t).toInt) ∧
    (a.partialCmp b = some .gt ↔
      (∀ t, (b.index t).toInt ≤ (a.index t).toInt) ∧ ∃ t, (b.index t).toInt < (a.index t).toInt) ∧
    (a.partialCmp b = none ↔
      (¬∀ t, (a.index t).toInt ≤ (b.index t).toInt) ∧ ¬∀ t, (b.index t).toInt ≤ (a.index t).toInt) ∧
    (a.partialCmp b = some .lt ↔ b.partialCmp a = some .gt) ∧
    a.le a = true ∧ a.ge a = true ∧
    ∀ c : Amount K, c.Bounded →
      (a.le b = true → b.le c = true → a.le c = true) ∧
      (a.ge b = true → b.ge c = true → a.ge c = true) :=
  ⟨(partialCmp_tests ha hb).1, partialCmp_eq_lt_iff ha hb, partialCmp_eq_gt_iff ha hb,
    partialCmp_eq_none_iff ha hb, (partialCmp_eq_gt_iff_lt hb ha).symm,
    (le_eq_true_iff ha ha).mpr fun _ => le_rfl, (ge_eq_true_iff ha ha).mpr fun _ => le_rfl,
    fun _ hc => ⟨fun h1 h2 => (le_eq_true_iff ha hc).mpr fun t =>
        ((le_eq_true_iff ha hb).mp h1 t).trans ((le_eq_true_iff hb hc).mp h2 t),
      fun h1 h2 => (ge_eq_true_iff ha hc).mpr fun t =>
        ((ge_eq_true_iff hb hc).mp h2 t).trans ((ge_eq_true_iff ha hb).mp h1 t)⟩⟩

/-- `{0: 5, 1: 2}` against `{0: 7, 2: -3}`: each is above the other at one asset. -/
theorem partialCmp_componentwise_incomparable :
    (⟨(BTreeMap.empty.insert 0 5).insert 1 2⟩ : Amount ℕ).Bounded ∧
      (⟨(BTreeMap.empty.insert 0 7).insert 2 (-3)⟩ : Amount ℕ).Bounded ∧
      (⟨(BTreeMap.empty.insert 0 5).insert 1 2⟩ : Amount ℕ).partialCmp
        ⟨(BTreeMap.empty.insert 0 7).insert 2 (-3)⟩ = none ∧
      ((⟨(BTreeMap.empty.insert 0 5).insert 1 2⟩ : Amount ℕ).partialCmp
          ⟨(BTreeMap.empty.insert 0 7).insert 2 (-3)⟩ = none ↔
        (¬∀ t, ((⟨(BTreeMap.empty.insert 0 5).insert 1 2⟩ : Amount ℕ).index t).toInt ≤
            ((⟨(BTreeMap.empty.insert 0 7).insert 2 (-3)⟩ : Amount ℕ).index t).toInt) ∧
          ¬∀ t, ((⟨(BTreeMap.empty.insert 0 7).insert 2 (-3)⟩ : Amount ℕ).index t).toInt ≤
            ((⟨(BTreeMap.empty.insert 0 5).insert 1 2⟩ : Amount ℕ).index t).toInt) :=
  ⟨by decide, by decide, rfl, (partialCmp_componentwise (by decide) (by decide)).2.2.2.1⟩

/-! ## The order and the rest of the type -/

section
variable {a b a' b' : Amount K}

/-- On bounded amounts `partial_cmp` depends on the three componentwise comparisons only. -/
theorem partialCmp_congr (ha : a.Bounded) (hb : b.Bounded) (ha' : a'.Bounded) (hb' : b'.Bounded)
    (hE : (∀ t, a.index t = b.index t) ↔ ∀ t, a'.index t = b'.index t)
    (hL : (∀ t, (a.index t).toInt ≤ (b.index t).toInt) ↔ ∀ t, (a'.index t).toInt ≤ (b'.index t).toInt)
    (hG : (∀ t, (b.index t).toInt ≤ (a.index t).toInt) ↔ ∀ t, (b'.index t).toInt ≤ (a'.index t).toInt) :
    a.partialCmp b = a'.partialCmp b' := by
  obtain ⟨e, l, g, n⟩ := partialCmp_tests ha hb
  obtain ⟨e', l', g', n'⟩ := partialCmp_tests ha' hb'
  simp only [hE, hL, hG] at e l g n
  rcases h : a.partialCmp b with _ | ⟨_ | _ | _⟩
  · exact (n'.mpr (n.mp h)).symm
  · exact (l'.mpr (l.mp h)).symm
  · exact (e'.mpr (e.mp h)).symm
  · exact (g'.mpr (g.mp h)).symm

/-- Shifting both sides by the same quantities keeps `partial_cmp`. -/
theorem partialCmp_shift (ha : a.Bounded) (hb : b.Bounded) (ha' : a'.Bounded) (hb' : b'.Bounded)
    (d : K → Int) (hda : ∀ t, (a'.index t).toInt = (a.index t).toInt + d t)
    (hdb : ∀ t, (b'.index t).toInt = (b.index t).toInt + d t) :
    a'.partialCmp b' = a.partialCmp b := by
  refine (partialCmp_congr ha hb ha' hb' ?_ ?_ ?_).symm <;> refine forall_congr' fun t => ?_
  · rw [← BitVec.toInt_inj, ← BitVec.toInt_inj, hda, hdb]; omega
  · rw [hda, hdb]; omega
  · rw [hda, hdb]; omega

end

/-- `partial_cmp` is invariant under adding or subtracting the same amount on both sides,
whenever both sums (or differences) return; so `a <= b` exactly when `a + c <= b + c`. -/
theorem partialCmp_add_sub_right {a b c : Amount K} (ha : a.Valid) (hb : b.Valid) (hc : c.Valid) :
    (∀ r s, a.add c = .ok r → b.add c = .ok s → r.partialCmp s = a.partialCmp b) ∧
    (∀ r s, a.sub c = .ok r → b.sub c = .ok s → r.partialCmp s = a.partialCmp b) :=
  ⟨fun _ _ hr hs => partialCmp_shift ha.bounded hb.bounded (ha.combine hr).bounded
      (hb.combine hs).bounded (fun t => (c.index t).toInt) (add_index ha hc hr) (add_index hb hc hs),
    fun _ _ hr hs => partialCmp_shift ha.bounded hb.bounded (ha.combine hr).bounded
      (hb.combine hs).bounded (fun t => -(c.index t).toInt)
      (fun t => (sub_index ha hc hr t).trans Int.sub_eq_add_neg)
      (fun t => (sub_index hb hc hs t).trans Int.sub_eq_add_neg)⟩

/-- Adding `{0: -5, 1: 1}` to `{0: 5}` and to `{0: 7, 1: 2}`: the first sum drops asset 0. -/
theorem partialCmp_add_sub_right_two_assets :
    (⟨BTreeMap.empty.insert 0 5⟩ : Amount ℕ).Valid ∧
      (⟨(BTreeMap.empty.insert 0 7).insert 1 2⟩ : Amount ℕ).Valid ∧
      (⟨(BTreeMap.empty.insert 0 (-5)).insert 1 1⟩ : Amount ℕ).Valid ∧
      (⟨BTreeMap.empty.insert 1 1⟩ : Amount ℕ).partialCmp ⟨(BTreeMap.empty.insert 0 2).insert 1 3⟩ =
        (⟨BTreeMap.empty.insert 0 5⟩ : Amount ℕ).partialCmp ⟨(BTreeMap.empty.insert 0 7).insert 1 2⟩ :=
  ⟨by decide, by decide, by decide,
    (partialCmp_add_sub_right (by decide) (by decide)
      (by decide : (⟨(BTreeMap.empty.insert 0 (-5)).insert 1 1⟩ : Amount ℕ).Valid)).1 _ _ rfl rfl⟩

/-- On valid amounts `partial_cmp` is consistent with `==`, the derived `PartialEq` that
compares the maps, as `PartialOrd` requires; so the derived `<=` is antisymmetric and
with `partialCmp_componentwise` a partial order. -/
theorem partialCmp_eq_iff_eq {a b : Amount K} (ha : a.Valid) (hb : b.Valid) :
    (a.partialCmp b = some .eq ↔ a = b) ∧ (a.le b = true → b.le a = true → a = b) := by
  refine ⟨(partialCmp_tests ha.bounded hb.bounded).1.trans ⟨Valid.ext ha hb, fun h _ => h ▸ rfl⟩,
    fun hab hba => Valid.ext ha hb fun t => BitVec.toInt_inj.mp ?_⟩
  have := (le_eq_true_iff ha.bounded hb.bounded).mp hab t
  have := (le_eq_true_iff hb.bounded ha.bounded).mp hba t
  omega

theorem partialCmp_eq_iff_eq_two_assets :
    (⟨(BTreeMap.empty.insert 0 5).insert 2 (-3)⟩ : Amount ℕ).Valid ∧
      (⟨(BTreeMap.empty.insert 0 5).insert 1 2⟩ : Amount ℕ).Valid ∧
      ((⟨(BTreeMap.empty.insert 0 5).insert 2 (-3)⟩ : Amount ℕ).partialCmp
          ⟨(BTreeMap.empty.insert 0 5).insert 1 2⟩ = some .eq ↔
        (⟨(BTreeMap.empty.insert 0 5).insert 2 (-3)⟩ : Amount ℕ) =
          ⟨(BTreeMap.empty.insert 0 5).insert 1 2⟩) :=
  ⟨by decide, by decide, (partialCmp_eq_iff_eq (by decide) (by decide)).1⟩

end Amount

end Masp
