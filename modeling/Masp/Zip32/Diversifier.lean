/-
Diversifiers: the 11-byte diversifier index and its `increment`, the
diversifier a key gives at an index, the search `find_diversifier`, and the
payment addresses built on them.

The index is a little-endian 88-bit counter. `increment` adds one byte by
byte with carry; `incrementBytes_spec` says in one equation what it does, the
carried-out bit included: it adds one to the number, and when the number was
`2^88 - 1` the carry runs off the end, the bytes wrap to zero and the result is
`Err(())` (`increment_succ_or_wraps`).

`find_diversifier` tries the index, and on a miss increments it and tries
again, until a hit or the carry runs off the end. Each turn raises the index,
so `2^88 - N(j)` falls and the loop ends (`findDiversifierLoop` is total).
`findDiversifierLoop_spec` says what it returns: the first index at or after `j`
that gives a diversifier, or `None` when there is none. `sapling_find_address` does
not search past a diversifier that `to_payment_address` refuses, so the `unwrap` of
`sapling_default_address` panics when no index has a diversifier or the first one is
refused (`saplingDefaultAddress_panics_iff`).

FF1, the curve check `g_d` and `to_payment_address` are the fields of
`Diversification`; nothing is assumed of them here. `Zip32.FF1` builds the FF1
fields from FF1 and the byte conversions of `fpe`.
-/
import Masp.Zip32.Keys

namespace Masp.Zip32

/-! ## The diversifier index -/

/-- `DiversifierIndex([u8; 11])`. -/
structure DiversifierIndex where
  bytes : Bytes 11
  deriving DecidableEq

def DiversifierIndex.new : DiversifierIndex := ⟨Mathlib.Vector.replicate 11 0⟩

/-- The loop of `increment` from byte `k` on: the byte is incremented, wrapping, and the
loop returns `Ok` at the first byte that does not wrap to 0. The new bytes, and `true`
for `Ok(())`. -/
def incrementBytes : List UInt8 → List UInt8 × Bool
  | [] => ([], false)
  | b :: bs =>
    if b + 1 ≠ 0 then ((b + 1) :: bs, true)
    else ((b + 1) :: (incrementBytes bs).1, (incrementBytes bs).2)

@[simp] theorem length_incrementBytes (l : List UInt8) : (incrementBytes l).1.length = l.length := by
  induction l with
  | nil => rfl
  | cons b bs ih => unfold incrementBytes; split <;> simp [ih]

/-- `increment(&mut self)`: the result, and the index it leaves behind. -/
def DiversifierIndex.increment (j : DiversifierIndex) : Except Unit Unit × DiversifierIndex :=
  ((if (incrementBytes j.bytes.toList).2 then .ok () else .error ()),
    ⟨⟨(incrementBytes j.bytes.toList).1, by simp⟩⟩)

/-- `N(j)`, the number the 11 bytes spell little-endian. -/
def DiversifierIndex.toNat (j : DiversifierIndex) : Nat := leValue j.bytes.toList

theorem UInt8.toNat_add_one_of_ne {b : UInt8} (h : b + 1 ≠ 0) : (b + 1).toNat = b.toNat + 1 := by
  have hb : b.toNat < 256 := b.toNat_lt_size
  have : (b + 1).toNat = (b.toNat + 1) % 256 := rfl
  have hne : (b + 1).toNat ≠ 0 := fun h0 => h (UInt8.toNat.inj h0)
  omega

theorem UInt8.toNat_of_add_one_eq_zero {b : UInt8} (h : b + 1 = 0) : b.toNat = 255 := by
  have hb : b.toNat < 256 := b.toNat_lt_size
  have : (b + 1).toNat = (b.toNat + 1) % 256 := rfl
  rw [h, UInt8.toNat_zero] at this
  omega

/-- The carry loop adds one to the little-endian number; when the carry runs off the
end, the `2 ^ (8 * length)` it carries out is lost. -/
theorem incrementBytes_spec (l : List UInt8) :
    leValue (incrementBytes l).1 + (if (incrementBytes l).2 then 0 else 256 ^ l.length) =
      leValue l + 1 := by
  induction l with
  | nil => rfl
  | cons b bs ih =>
    unfold incrementBytes
    split
    · next h => simp [UInt8.toNat_add_one_of_ne h]; omega
    · next h =>
      have hb := UInt8.toNat_of_add_one_eq_zero (not_not.mp h)
      simp only [leValue_cons, not_not.mp h, List.length_cons, Nat.pow_succ]
      split <;> simp_all <;> omega

theorem DiversifierIndex.toNat_lt (j : DiversifierIndex) : j.toNat < 2 ^ 88 := by
  have := leValue_lt j.bytes.toList
  rwa [j.bytes.toList_length] at this

theorem DiversifierIndex.toNat_inj {j k : DiversifierIndex} (h : j.toNat = k.toNat) : j = k := by
  obtain ⟨⟨l, hl⟩⟩ := j
  obtain ⟨⟨l', hl'⟩⟩ := k
  obtain rfl := leValue_inj (hl.trans hl'.symm) h
  rfl

theorem DiversifierIndex.increment_ok {j j' : DiversifierIndex} {r : Except Unit Unit}
    (h : j.increment = (r, j')) (hr : r = .ok ()) : j'.toNat = j.toNat + 1 := by
  have hs := incrementBytes_spec j.bytes.toList
  simp only [increment, Prod.mk.injEq] at h
  obtain ⟨h1, rfl⟩ := h
  subst hr
  split at h1
  · next hc => simpa [toNat, hc] using hs
  · cases h1

theorem DiversifierIndex.increment_error {j j' : DiversifierIndex} {r : Except Unit Unit}
    (h : j.increment = (r, j')) (hr : r = .error ()) : j.toNat = 2 ^ 88 - 1 := by
  have hs := incrementBytes_spec j.bytes.toList
  have hlt := leValue_lt (incrementBytes j.bytes.toList).1
  have hj := j.toNat_lt
  simp only [increment, Prod.mk.injEq] at h
  obtain ⟨h1, -⟩ := h
  subst hr
  split at h1
  · cases h1
  · next hc =>
    rw [if_neg hc] at hs
    simp only [length_incrementBytes, Mathlib.Vector.toList_length] at hs hlt
    simp only [toNat] at hj ⊢
    omega

/-- Below the maximum, `increment` returns `Ok` and adds one. -/
theorem DiversifierIndex.increment_of_lt {j : DiversifierIndex} (h : j.toNat < 2 ^ 88 - 1) :
    j.increment.1 = .ok () ∧ j.increment.2.toNat = j.toNat + 1 := by
  have hok : j.increment.1 = .ok () := by
    cases hr : j.increment.1 with
    | error u => exact absurd (increment_error rfl hr) (by omega)
    | ok u => rfl
  exact ⟨hok, increment_ok rfl hok⟩

/-- At the maximum the carry runs off the end: `increment` returns `Err(())` and leaves
every byte wrapped to 0. -/
theorem DiversifierIndex.increment_of_max {j : DiversifierIndex} (h : j.toNat = 2 ^ 88 - 1) :
    j.increment = (.error (), DiversifierIndex.new) := by
  have hs := incrementBytes_spec j.bytes.toList
  have hlt := leValue_lt (incrementBytes j.bytes.toList).1
  simp only [length_incrementBytes, Mathlib.Vector.toList_length] at hs hlt
  simp only [toNat] at h
  have hc : (incrementBytes j.bytes.toList).2 = false := by
    cases hc : (incrementBytes j.bytes.toList).2
    · rfl
    · rw [hc, if_pos rfl] at hs; omega
  rw [hc, if_neg Bool.false_ne_true] at hs
  simp only [increment, hc, Bool.false_eq_true, if_false, Prod.mk.injEq, true_and]
  exact toNat_inj (show leValue (incrementBytes j.bytes.toList).1 = 0 by omega)

/-- `increment` adds one below the maximum, carrying byte by byte; at the maximum it
returns `Err(())` and leaves the index wrapped to `DiversifierIndex::new()`. -/
theorem DiversifierIndex.increment_succ_or_wraps (j : DiversifierIndex) :
    (j.toNat < 2 ^ 88 - 1 → j.increment.1 = .ok () ∧ j.increment.2.toNat = j.toNat + 1) ∧
    (j.toNat = 2 ^ 88 - 1 → j.increment = (.error (), DiversifierIndex.new)) :=
  ⟨increment_of_lt, increment_of_max⟩

theorem DiversifierIndex.increment_succ_or_wraps_max :
    (⟨Mathlib.Vector.replicate 11 255⟩ : DiversifierIndex).toNat = 2 ^ 88 - 1 ∧
      (⟨Mathlib.Vector.replicate 11 255⟩ : DiversifierIndex).increment =
        (.error (), DiversifierIndex.new) :=
  ⟨rfl, (increment_succ_or_wraps ⟨Mathlib.Vector.replicate 11 255⟩).2 rfl⟩

/-- `increment` adds one below the maximum; at the maximum, all bytes `0xFF`, it returns
`Err(())` and leaves the bytes wrapped to zero. -/
theorem increment_wraps_at_max :
    (∀ j : DiversifierIndex, j.toNat < 2 ^ 88 - 1 →
      j.increment.1 = .ok () ∧ j.increment.2.toNat = j.toNat + 1) ∧
    (⟨Mathlib.Vector.replicate 11 255⟩ : DiversifierIndex).toNat = 2 ^ 88 - 1 ∧
    (⟨Mathlib.Vector.replicate 11 255⟩ : DiversifierIndex).increment =
      (.error (), DiversifierIndex.new) ∧
    DiversifierIndex.new.toNat = 0 :=
  ⟨fun _ => DiversifierIndex.increment_of_lt, rfl, rfl, rfl⟩

/-! ## Diversifiers and the search -/

/-- `Diversifier([u8; 11])`. -/
structure Diversifier where
  bytes : Bytes 11
  deriving DecidableEq

/-- The collaborators of the diversifier code. -/
structure Diversification (Pt Addr : Type) where
  /-- `FF1::<Aes256>::new(key, 2)` then `encrypt(&[], &from_bytes_le(j))`, read back
  with `to_bytes_le`. -/
  ff1Encrypt : Bytes 32 → Bytes 11 → Bytes 11
  /-- The same with `decrypt`. -/
  ff1Decrypt : Bytes 32 → Bytes 11 → Bytes 11
  /-- `Diversifier::g_d`: the diversified base, when the diversifier is valid. -/
  gD : Diversifier → Option Pt
  /-- `ViewingKey::to_payment_address`. -/
  toPaymentAddress : ViewingKey Pt → Diversifier → Option Addr

variable {Pt Addr : Type} (D : Diversification Pt Addr)

namespace DiversifierKey

/-- `try_diversifier_internal(ff, j)`, `ff` the keyed encryption. -/
def tryDiversifierInternal (ff : Bytes 11 → Bytes 11) (j : DiversifierIndex) :
    Option Diversifier :=
  let diversifier : Diversifier := ⟨ff j.bytes⟩
  (D.gD diversifier).map fun _ => diversifier

def diversifier (dk : DiversifierKey) (j : DiversifierIndex) : Option Diversifier :=
  tryDiversifierInternal D (D.ff1Encrypt dk.bytes) j

def diversifierIndex (dk : DiversifierKey) (d : Diversifier) : DiversifierIndex :=
  ⟨D.ff1Decrypt dk.bytes d.bytes⟩

/-- The `loop` of `find_diversifier`, with the keyed encryption `ff` built once. -/
def findDiversifierLoop (ff : Bytes 11 → Bytes 11) (j : DiversifierIndex) :
    Option (DiversifierIndex × Diversifier) :=
  match tryDiversifierInternal D ff j with
  | some dJ => some (j, dJ)
  | none =>
    match _hinc : j.increment with
    | (.error (), _) => none
    | (.ok (), j') => findDiversifierLoop ff j'
termination_by 2 ^ 88 - j.toNat
decreasing_by
  have := DiversifierIndex.increment_ok _hinc rfl
  have := j'.toNat_lt
  omega

def findDiversifier (dk : DiversifierKey) (j : DiversifierIndex) :
    Option (DiversifierIndex × Diversifier) :=
  findDiversifierLoop D (D.ff1Encrypt dk.bytes) j

end DiversifierKey

/-! ## What the search returns -/

section Search
variable (p : DiversifierIndex → Option Diversifier)

/-- `j'` is the first index at or after `j` at which `p` gives a diversifier, and `d`
is that diversifier. -/
def IsFirst (j j' : DiversifierIndex) (d : Diversifier) : Prop :=
  j.toNat ≤ j'.toNat ∧ p j' = some d ∧
    ∀ k : DiversifierIndex, j.toNat ≤ k.toNat → k.toNat < j'.toNat → p k = none

/-- No index at or after `j` gives a diversifier. -/
def NoneFrom (j : DiversifierIndex) : Prop :=
  ∀ k : DiversifierIndex, j.toNat ≤ k.toNat → p k = none

variable {p} {j j' x : DiversifierIndex} {d d' : Diversifier}

theorem DiversifierIndex.eq_or_succ_le {k : DiversifierIndex} (h : j.toNat ≤ k.toNat) :
    k = j ∨ j.toNat + 1 ≤ k.toNat := by
  rcases Nat.eq_or_lt_of_le h with h | h
  · exact .inl (DiversifierIndex.toNat_inj h.symm)
  · exact .inr h

theorem isFirst_self (h : p j = some d) : IsFirst p j j d :=
  ⟨Nat.le_refl _, h, fun _ h1 h2 => absurd h1 (Nat.not_le.mpr h2)⟩

theorem IsFirst.eq_self (h : p j = some d) (hf : IsFirst p j j' d') : j' = j ∧ d' = d := by
  obtain ⟨h1, h2, h3⟩ := hf
  rcases DiversifierIndex.eq_or_succ_le h1 with rfl | h1
  · exact ⟨rfl, Option.some.inj (h2.symm.trans h)⟩
  · exact absurd (h3 j (Nat.le_refl _) (by omega)) (by rw [h]; exact Option.some_ne_none d)

/-- Past an index without a diversifier, the first one from `j` is the first one from
the next index. -/
theorem isFirst_next (hj : p j = none) (hj' : j'.toNat = j.toNat + 1) :
    IsFirst p j x d ↔ IsFirst p j' x d := by
  constructor
  · rintro ⟨h1, h2, h3⟩
    rcases DiversifierIndex.eq_or_succ_le h1 with rfl | h1
    · simp [hj] at h2
    · exact ⟨by omega, h2, fun k hk hk' => h3 k (by omega) hk'⟩
  · rintro ⟨h1, h2, h3⟩
    refine ⟨by omega, h2, fun k hk hk' => ?_⟩
    rcases DiversifierIndex.eq_or_succ_le hk with rfl | hk
    · exact hj
    · exact h3 k (by omega) hk'

theorem noneFrom_next (hj : p j = none) (hj' : j'.toNat = j.toNat + 1) :
    NoneFrom p j ↔ NoneFrom p j' := by
  refine ⟨fun h k hk => h k (by omega), fun h k hk => ?_⟩
  rcases DiversifierIndex.eq_or_succ_le hk with rfl | hk
  · exact hj
  · exact h k (by omega)

theorem noneFrom_max (hj : p j = none) (hmax : j.toNat = 2 ^ 88 - 1) : NoneFrom p j := by
  intro k hk
  rcases DiversifierIndex.eq_or_succ_le hk with rfl | hk
  · exact hj
  · exact absurd k.toNat_lt (by omega)

theorem NoneFrom.not_isFirst (h : NoneFrom p j) : ¬IsFirst p j j' d :=
  fun ⟨h1, h2, _⟩ => by simp [h j' h1] at h2

end Search

namespace DiversifierKey

/-- **The search.** `find_diversifier`'s loop, from `j`, returns the first index at or
after `j` with a diversifier, and that diversifier; it returns `None` exactly when no
index at or after `j` has one. -/
theorem findDiversifierLoop_spec (ff : Bytes 11 → Bytes 11) (j : DiversifierIndex) :
    (∀ j' d, findDiversifierLoop D ff j = some (j', d) ↔
      IsFirst (tryDiversifierInternal D ff) j j' d) ∧
    (findDiversifierLoop D ff j = none ↔ NoneFrom (tryDiversifierInternal D ff) j) := by
  induction j using (measure fun j : DiversifierIndex => 2 ^ 88 - j.toNat).wf.induction with
  | _ j ih =>
    rw [findDiversifierLoop]
    cases hp : tryDiversifierInternal D ff j with
    | some dJ =>
      refine ⟨fun j' d => ⟨?_, fun hf => ?_⟩, ⟨nofun, fun h => absurd (isFirst_self hp) h.not_isFirst⟩⟩
      · rintro ⟨⟩; exact isFirst_self hp
      · obtain ⟨rfl, rfl⟩ := hf.eq_self hp; rfl
    | none =>
      match hinc : j.increment with
      | (.error (), j') =>
        have hnone := noneFrom_max hp (DiversifierIndex.increment_error hinc rfl)
        exact ⟨fun _ _ => ⟨nofun, fun hf => absurd hf hnone.not_isFirst⟩, ⟨fun _ => hnone, fun _ => rfl⟩⟩
      | (.ok (), j') =>
        have hnext := DiversifierIndex.increment_ok hinc rfl
        obtain ⟨ih1, ih2⟩ := ih j' (by
          show 2 ^ 88 - j'.toNat < 2 ^ 88 - j.toNat
          have := j'.toNat_lt; omega)
        exact ⟨fun j'' d => (ih1 j'' d).trans (isFirst_next hp hnext).symm,
          ih2.trans (noneFrom_next hp hnext).symm⟩

theorem findDiversifier_spec (dk : DiversifierKey) (j : DiversifierIndex) :
    (∀ j' d, dk.findDiversifier D j = some (j', d) ↔ IsFirst (dk.diversifier D) j j' d) ∧
    (dk.findDiversifier D j = none ↔ NoneFrom (dk.diversifier D) j) :=
  findDiversifierLoop_spec D _ j

end DiversifierKey

/-! ## Addresses -/

/-- `sapling_address`. -/
def saplingAddress (fvk : FullViewingKey Pt) (dk : DiversifierKey) (j : DiversifierIndex) :
    Option Addr :=
  (dk.diversifier D j).bind fun dJ => D.toPaymentAddress fvk.vk dJ

/-- `sapling_find_address`. -/
def saplingFindAddress (fvk : FullViewingKey Pt) (dk : DiversifierKey) (j : DiversifierIndex) :
    Option (DiversifierIndex × Addr) :=
  (dk.findDiversifier D j).bind fun (j, dJ) => (D.toPaymentAddress fvk.vk dJ).map fun addr => (j, addr)

/-- `sapling_default_address`, which panics at its `unwrap` when the search from index 0
returns `None`. -/
def saplingDefaultAddress (fvk : FullViewingKey Pt) (dk : DiversifierKey) :
    Except Panic (DiversifierIndex × Addr) :=
  match saplingFindAddress D fvk dk DiversifierIndex.new with
  | some r => .ok r
  | none => .error ⟨"called `Option::unwrap()` on a `None` value"⟩

namespace ExtendedFullViewingKey

def address (xfvk : ExtendedFullViewingKey Pt) (j : DiversifierIndex) : Option Addr :=
  saplingAddress D xfvk.fvk xfvk.dk j

def findAddress (xfvk : ExtendedFullViewingKey Pt) (j : DiversifierIndex) :
    Option (DiversifierIndex × Addr) :=
  saplingFindAddress D xfvk.fvk xfvk.dk j

def defaultAddress (xfvk : ExtendedFullViewingKey Pt) : Except Panic (DiversifierIndex × Addr) :=
  saplingDefaultAddress D xfvk.fvk xfvk.dk

end ExtendedFullViewingKey

def ExtendedSpendingKey.defaultAddress {Fr : Type} [Add Fr] [Add Pt] (S : Sapling Fr Pt)
    (xsk : ExtendedSpendingKey Fr) : Except Panic (DiversifierIndex × Addr) :=
  (ExtendedFullViewingKey.from S xsk).defaultAddress D

/-- The address search returns the first index at or after `j` with a diversifier,
together with the address at that index. -/
theorem saplingFindAddress_spec (fvk : FullViewingKey Pt) (dk : DiversifierKey)
    (j j' : DiversifierIndex) (a : Addr) :
    saplingFindAddress D fvk dk j = some (j', a) ↔
      (∃ d, IsFirst (dk.diversifier D) j j' d) ∧ saplingAddress D fvk dk j' = some a := by
  have hspec := (DiversifierKey.findDiversifier_spec D dk j).1
  constructor
  · intro h
    obtain ⟨⟨j'', d⟩, hf, h⟩ := Option.bind_eq_some.mp h
    obtain ⟨a', ha, ⟨⟩⟩ := Option.map_eq_some'.mp h
    obtain ⟨-, hd, -⟩ := (hspec j' d).mp hf
    exact ⟨⟨d, (hspec j' d).mp hf⟩, by simp [saplingAddress, hd, ha]⟩
  · rintro ⟨⟨d, hfirst⟩, ha⟩
    have hd := hfirst.2.1
    simp only [saplingAddress, hd, Option.some_bind] at ha
    simp [saplingFindAddress, (hspec j' d).mpr hfirst, ha]

/-- The address search returns `None` when no index at or after `j` has a diversifier, or
when `to_payment_address` refuses the first diversifier found; it does not search on. -/
theorem saplingFindAddress_eq_none (fvk : FullViewingKey Pt) (dk : DiversifierKey)
    (j : DiversifierIndex) :
    saplingFindAddress D fvk dk j = none ↔ NoneFrom (dk.diversifier D) j ∨
      ∃ j' d, IsFirst (dk.diversifier D) j j' d ∧ D.toPaymentAddress fvk.vk d = none := by
  obtain ⟨hsome, hnone⟩ := DiversifierKey.findDiversifier_spec D dk j
  simp only [saplingFindAddress]
  cases h : dk.findDiversifier D j with
  | none => simp [hnone.mp h]
  | some r =>
    obtain ⟨j', d⟩ := r
    have hf := (hsome j' d).mp h
    simp only [Option.some_bind, Option.map_eq_none']
    refine ⟨fun hp => .inr ⟨j', d, hf, hp⟩, ?_⟩
    rintro (hn | ⟨j'', d', hf', hp⟩)
    · exact absurd hf hn.not_isFirst
    · have h' := (hsome j'' d').mpr hf'
      rw [h] at h'
      cases h'
      exact hp

theorem ExtendedFullViewingKey.address_findAddress {xfvk : ExtendedFullViewingKey Pt}
    {j j' : DiversifierIndex} {a : Addr} (h : xfvk.findAddress D j = some (j', a)) :
    xfvk.address D j' = some a :=
  ((saplingFindAddress_spec D _ _ j j' a).mp h).2

theorem ExtendedFullViewingKey.address_defaultAddress {xfvk : ExtendedFullViewingKey Pt}
    {j' : DiversifierIndex} {a : Addr} (h : xfvk.defaultAddress D = .ok (j', a)) :
    xfvk.address D j' = some a := by
  simp only [defaultAddress, saplingDefaultAddress] at h
  split at h
  · next r hr => cases h; exact address_findAddress D hr
  · cases h

/-- **Diversifier search.** From every start index `j`, `find_diversifier` returns the
first index at or after `j` that has a diversifier, or `None` when no index does; the
address search returns that index with the address `sapling_address` gives there, and
`find_address` and `default_address` agree with `address` at the index they return. -/
theorem find_diversifier_first (fvk : FullViewingKey Pt) (dk : DiversifierKey)
    (xfvk : ExtendedFullViewingKey Pt) (j : DiversifierIndex) :
    ((∀ j' d, dk.findDiversifier D j = some (j', d) ↔ IsFirst (dk.diversifier D) j j' d) ∧
      (dk.findDiversifier D j = none ↔ NoneFrom (dk.diversifier D) j)) ∧
    (∀ j' a, saplingFindAddress D fvk dk j = some (j', a) ↔
      (∃ d, IsFirst (dk.diversifier D) j j' d) ∧ saplingAddress D fvk dk j' = some a) ∧
    (∀ j' a, xfvk.findAddress D j = some (j', a) → xfvk.address D j' = some a) ∧
    (∀ j' a, xfvk.defaultAddress D = .ok (j', a) → xfvk.address D j' = some a) :=
  ⟨DiversifierKey.findDiversifier_spec D dk j, saplingFindAddress_spec D fvk dk j,
    fun _ _ => ExtendedFullViewingKey.address_findAddress D,
    fun _ _ => ExtendedFullViewingKey.address_defaultAddress D⟩

/-- **`default_address`.** `sapling_default_address`, and so `default_address` of both
extended keys, returns the first index from 0 that has a diversifier, with the address
there; its `unwrap` panics exactly when no index has a diversifier or `to_payment_address`
refuses the first one. -/
theorem saplingDefaultAddress_panics_iff (fvk : FullViewingKey Pt) (dk : DiversifierKey) :
    (saplingDefaultAddress D fvk dk = .error ⟨"called `Option::unwrap()` on a `None` value"⟩ ↔
      NoneFrom (dk.diversifier D) DiversifierIndex.new ∨
        ∃ j d, IsFirst (dk.diversifier D) DiversifierIndex.new j d ∧
          D.toPaymentAddress fvk.vk d = none) ∧
    ∀ j a, saplingDefaultAddress D fvk dk = .ok (j, a) ↔
      (∃ d, IsFirst (dk.diversifier D) DiversifierIndex.new j d) ∧
        saplingAddress D fvk dk j = some a := by
  refine ⟨?_, fun j a => ?_⟩
  · rw [← saplingFindAddress_eq_none, saplingDefaultAddress]
    cases saplingFindAddress D fvk dk DiversifierIndex.new <;> simp
  · rw [← saplingFindAddress_spec, saplingDefaultAddress]
    cases saplingFindAddress D fvk dk DiversifierIndex.new <;> simp

end Masp.Zip32
