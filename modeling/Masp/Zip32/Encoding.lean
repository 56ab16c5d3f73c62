/-
The 169-byte encodings of extended keys, `write` and `read`:
`depth:1 | parent_fvk_tag:4 | child_index:4 (LE) | chain_code:32 | key:96 | dk:32`,
with the 96-byte key the external `ExpandedSpendingKey` or `FullViewingKey`
encoding.

The child index is written as `ChildIndex::value` and read back through
`ChildIndex::from_index`. Every 4-byte value read is written back unchanged
(`value_fromIndex`), so `read` consumes exactly the bytes `write` emits for the
key it returns (`read_consumes_write`), given that the external 96-byte encodings are
canonical. The other way round holds only for indices whose payload is below
`2^31` (`fromIndex_value`): `NonHardened(2^31)` is written as `2^31` and read
back as `Hardened(0)`, and `Hardened(2^31)` is written, wrapping, as `0`.
For both extended keys the round trip holds exactly when the payload is below
`2^31` (`read_write_iff_payload_lt`).
-/
import Masp.Zip32.Tree

namespace Masp.Zip32

/-! ## Child indices -/

/-- The `u32` a child index carries. -/
def ChildIndex.payload : ChildIndex → UInt32
  | .hardened i => i
  | .nonHardened i => i

theorem ChildIndex.value_fromIndex (n : UInt32) : (ChildIndex.fromIndex n).value = n := by
  unfold fromIndex
  split
  · exact UInt32.eq_of_toBitVec_eq (BitVec.sub_add_cancel _ _)
  · rfl

theorem UInt32.toNat_add (a b : UInt32) : (a + b).toNat = (a.toNat + b.toNat) % 2 ^ 32 :=
  BitVec.toNat_add _ _

theorem ChildIndex.toNat_one_shiftLeft_31 : ((1 : UInt32) <<< 31).toNat = 2 ^ 31 := rfl

/-- `from_index` inverts `value` on the indices whose payload is below `2^31`. -/
theorem ChildIndex.fromIndex_value {c : ChildIndex} (h : c.payload.toNat < 2 ^ 31) :
    ChildIndex.fromIndex c.value = c := by
  cases c with
  | nonHardened i =>
    have : ¬ i ≥ (1 : UInt32) <<< 31 := by
      show ¬ ((1 : UInt32) <<< 31).toNat ≤ i.toNat
      rw [toNat_one_shiftLeft_31]; exact Nat.not_le.mpr h
    simp [fromIndex, value, this]
  | hardened i =>
    have hge : i + (1 : UInt32) <<< 31 ≥ (1 : UInt32) <<< 31 := by
      show ((1 : UInt32) <<< 31).toNat ≤ (i + (1 : UInt32) <<< 31).toNat
      simp only [payload] at h
      rw [UInt32.toNat_add, toNat_one_shiftLeft_31]
      omega
    simp only [fromIndex, value, hge, if_true]
    exact congrArg _ (UInt32.eq_of_toBitVec_eq (BitVec.add_sub_cancel _ _))

/-- `from_index` inverts `value` exactly on the child indices whose payload is below `2^31`. -/
theorem ChildIndex.fromIndex_value_iff (c : ChildIndex) :
    ChildIndex.fromIndex c.value = c ↔ c.payload.toNat < 2 ^ 31 := by
  refine ⟨fun h => Nat.lt_of_not_le fun hge => ?_, fromIndex_value⟩
  cases c with
  | nonHardened i =>
    have hi : i ≥ (1 : UInt32) <<< 31 := by
      show ((1 : UInt32) <<< 31).toNat ≤ i.toNat
      rw [toNat_one_shiftLeft_31]; exact hge
    simp [fromIndex, value, hi] at h
  | hardened i =>
    have hi : ¬ i + (1 : UInt32) <<< 31 ≥ (1 : UInt32) <<< 31 := by
      show ¬ ((1 : UInt32) <<< 31).toNat ≤ (i + (1 : UInt32) <<< 31).toNat
      have : i.toNat < 2 ^ 32 := i.toNat_lt_size
      simp only [payload] at hge
      rw [UInt32.toNat_add, toNat_one_shiftLeft_31]
      omega
    simp [fromIndex, value, hi] at h

/-! ## External encodings -/

section
variable {α : Type} {n : Nat}

/-- `read` reads back, and leaves the rest of the input after, what `toBytes` wrote. -/
def RoundTrips (read : Read α) (toBytes : α → Bytes n) : Prop :=
  ∀ a rest, read.run ((toBytes a).toList ++ rest) = .ok (a, rest)

/-- `read` accepts only what `toBytes` writes for the value it returns. -/
def Canonical (read : Read α) (toBytes : α → Bytes n) : Prop :=
  ∀ s a rest, read.run s = .ok (a, rest) → s = (toBytes a).toList ++ rest

end

/-! ## The shared layout -/

section Layout
variable {κ α : Type}

/-- What `read` parses for both extended keys, the 96-byte key by `readKey`, and
`mk` building the key from the six fields. -/
def readExtendedKey (readKey : Read κ)
    (mk : UInt8 → FvkTag → ChildIndex → ChainCode → κ → DiversifierKey → α) : Read α := do
  let depth ← readU8
  let tag ← readExact 4
  let i ← readU32LE
  let c ← readExact 32
  let key ← readKey
  let dk ← readExact 32
  pure (mk depth ⟨tag⟩ (ChildIndex.fromIndex i) ⟨c⟩ key ⟨dk⟩)

/-- The bytes `write` emits for both extended keys. -/
def writeExtendedKey (toBytes : κ → Bytes 96) (depth : UInt8) (tag : FvkTag) (i : ChildIndex)
    (c : ChainCode) (key : κ) (dk : DiversifierKey) : List UInt8 :=
  [depth] ++ tag.bytes.toList ++ writeU32LE i.value ++ c.bytes.toList ++ (toBytes key).toList ++
    dk.bytes.toList

variable {readKey : Read κ} {toBytes : κ → Bytes 96}
  {mk : UInt8 → FvkTag → ChildIndex → ChainCode → κ → DiversifierKey → α}

theorem length_writeExtendedKey (depth tag i c key dk) :
    (writeExtendedKey toBytes depth tag i c key dk).length = 169 := by
  simp [writeExtendedKey, writeU32LE]

theorem writeExtendedKey_append (depth tag i c key dk) (rest : List UInt8) :
    writeExtendedKey toBytes depth tag i c key dk ++ rest =
      depth :: (tag.bytes.toList ++ (writeU32LE i.value ++ (c.bytes.toList ++
        ((toBytes key).toList ++ (dk.bytes.toList ++ rest))))) := by
  simp [writeExtendedKey]

theorem readExtendedKey_write (hK : RoundTrips readKey toBytes) (depth tag i c key dk)
    (rest : List UInt8) :
    (readExtendedKey readKey mk).run (writeExtendedKey toBytes depth tag i c key dk ++ rest) =
      .ok (mk depth tag (ChildIndex.fromIndex i.value) c key dk, rest) := by
  rw [writeExtendedKey_append, readExtendedKey, run_bind (readU8_cons _ _),
    run_bind (readExact_append _ (Mathlib.Vector.toList_length _) _),
    run_bind (readU32LE_append _ _), run_bind (readExact_append _ (Mathlib.Vector.toList_length _) _),
    run_bind (hK _ _), run_bind (readExact_append _ (Mathlib.Vector.toList_length _) _)]
  rfl

/-- A successful `read` returns a key built from six fields and consumed exactly the
bytes `write` emits for them. -/
theorem readExtendedKey_ok (hK : Canonical readKey toBytes) {s rest : List UInt8} {a : α}
    (h : (readExtendedKey readKey mk).run s = .ok (a, rest)) :
    ∃ depth tag i c key dk, a = mk depth tag i c key dk ∧
      s = writeExtendedKey toBytes depth tag i c key dk ++ rest := by
  obtain ⟨depth, s1, h1, h⟩ := run_bind_ok h
  obtain ⟨tag, s2, h2, h⟩ := run_bind_ok h
  obtain ⟨i, s3, h3, h⟩ := run_bind_ok h
  obtain ⟨c, s4, h4, h⟩ := run_bind_ok h
  obtain ⟨key, s5, h5, h⟩ := run_bind_ok h
  obtain ⟨dk, s6, h6, h⟩ := run_bind_ok h
  obtain ⟨⟩ := h
  refine ⟨depth, ⟨tag⟩, ChildIndex.fromIndex i, ⟨c⟩, key, ⟨dk⟩, rfl, ?_⟩
  rw [writeExtendedKey_append, ChildIndex.value_fromIndex, readU8_ok h1, readExact_ok h2,
    readU32LE_ok h3, readExact_ok h4, hK _ _ _ h5, readExact_ok h6]

end Layout

variable {Fr Pt : Type} [Add Fr] [Add Pt] (S : Sapling Fr Pt)

/-! ## Extended spending keys -/

namespace ExtendedSpendingKey

def read : Read (ExtendedSpendingKey Fr) := readExtendedKey S.expskRead ExtendedSpendingKey.mk

/-- The bytes `write` emits. -/
def write (xsk : ExtendedSpendingKey Fr) : List UInt8 :=
  writeExtendedKey S.expskToBytes xsk.depth xsk.parentFvkTag xsk.childIndex xsk.chainCode
    xsk.expsk xsk.dk

/-- `read` after `write` returns the key with its child index passed through
`value` and `from_index`, and leaves the rest of the input. -/
theorem read_write (hE : RoundTrips S.expskRead S.expskToBytes) (xsk : ExtendedSpendingKey Fr)
    (rest : List UInt8) :
    (read S).run (write S xsk ++ rest) =
      .ok ({ xsk with childIndex := ChildIndex.fromIndex xsk.childIndex.value }, rest) :=
  readExtendedKey_write hE _ _ _ _ _ _ rest

theorem read_ok {s rest : List UInt8} {xsk : ExtendedSpendingKey Fr}
    (hE : Canonical S.expskRead S.expskToBytes) (h : (read S).run s = .ok (xsk, rest)) :
    s = write S xsk ++ rest := by
  obtain ⟨depth, tag, i, c, key, dk, rfl, hs⟩ := readExtendedKey_ok hE h
  exact hs

end ExtendedSpendingKey

/-! ## Extended full viewing keys -/

namespace ExtendedFullViewingKey

def read : Read (ExtendedFullViewingKey Pt) := readExtendedKey S.fvkRead ExtendedFullViewingKey.mk

/-- The bytes `write` emits. -/
def write (xfvk : ExtendedFullViewingKey Pt) : List UInt8 :=
  writeExtendedKey S.fvkToBytes xfvk.depth xfvk.parentFvkTag xfvk.childIndex xfvk.chainCode
    xfvk.fvk xfvk.dk

theorem read_write (hF : RoundTrips S.fvkRead S.fvkToBytes) (xfvk : ExtendedFullViewingKey Pt)
    (rest : List UInt8) :
    (read S).run (write S xfvk ++ rest) =
      .ok ({ xfvk with childIndex := ChildIndex.fromIndex xfvk.childIndex.value }, rest) :=
  readExtendedKey_write hF _ _ _ _ _ _ rest

theorem read_ok {s rest : List UInt8} {xfvk : ExtendedFullViewingKey Pt}
    (hF : Canonical S.fvkRead S.fvkToBytes) (h : (read S).run s = .ok (xfvk, rest)) :
    s = write S xfvk ++ rest := by
  obtain ⟨depth, tag, i, c, key, dk, rfl, hs⟩ := readExtendedKey_ok hF h
  exact hs

end ExtendedFullViewingKey

/-! ## A concrete instance

`toySapling` takes 256-bit numbers under addition modulo `2^256` for both `Fr` and
`Pt`, the generators as the identity, constant hashes, and a 96-byte key encoding
of the two numbers (little-endian) and the `ovk`. Its encodings are canonical and
round-trip, so the hypotheses of the theorems below hold of it. -/

/-- 256-bit numbers, with addition modulo `2^256`. -/
abbrev U256 := Fin (256 ^ 32)

def U256.toBytes (x : U256) : Bytes 32 := ⟨leBytes 32 x.val, length_leBytes _ _⟩

def U256.read : Read U256 := do
  let b ← readExact 32
  pure ⟨leValue b.toList, by simpa using leValue_lt b.toList⟩

theorem U256.read_toBytes (x : U256) (rest : List UInt8) :
    U256.read.run ((U256.toBytes x).toList ++ rest) = .ok (x, rest) := by
  rw [U256.read, run_bind (readExact_append _ (Mathlib.Vector.toList_length _) rest)]
  exact congrArg (fun v => Except.ok (v, rest))
    (Fin.ext (by simp [U256.toBytes, leValue_leBytes, Nat.mod_eq_of_lt x.isLt]))

theorem U256.read_ok {s rest : List UInt8} {x : U256} (h : U256.read.run s = .ok (x, rest)) :
    s = (U256.toBytes x).toList ++ rest := by
  obtain ⟨b, s', h1, h2⟩ := run_bind_ok h
  obtain ⟨⟩ := h2
  have hb := leBytes_leValue b.toList
  rw [b.toList_length] at hb
  rw [readExact_ok h1]
  exact congrArg (· ++ rest) hb.symm

/-- The toy 96-byte encoding of a key with two numbers and an `ovk`. -/
def toyKeyToBytes (a b : U256) (ovk : OutgoingViewingKey) : Bytes 96 :=
  (U256.toBytes a).append ((U256.toBytes b).append ovk.bytes)

def toyKeyRead {α : Type} (mk : U256 → U256 → OutgoingViewingKey → α) : Read α := do
  let a ← U256.read
  let b ← U256.read
  let ovk ← readExact 32
  pure (mk a b ⟨ovk⟩)

section Toy
variable {α : Type} {mk : U256 → U256 → OutgoingViewingKey → α}

theorem toyKeyRead_toBytes (a b : U256) (ovk : OutgoingViewingKey) (rest : List UInt8) :
    (toyKeyRead mk).run ((toyKeyToBytes a b ovk).toList ++ rest) = .ok (mk a b ovk, rest) := by
  simp only [toyKeyToBytes, Mathlib.Vector.toList_append, List.append_assoc]
  rw [toyKeyRead, run_bind (U256.read_toBytes _ _), run_bind (U256.read_toBytes _ _),
    run_bind (readExact_append _ (Mathlib.Vector.toList_length _) _)]
  rfl

theorem toyKeyRead_ok {s rest : List UInt8} {x : α} (h : (toyKeyRead mk).run s = .ok (x, rest)) :
    ∃ a b ovk, x = mk a b ovk ∧ s = (toyKeyToBytes a b ovk).toList ++ rest := by
  obtain ⟨a, s1, h1, h⟩ := run_bind_ok h
  obtain ⟨b, s2, h2, h⟩ := run_bind_ok h
  obtain ⟨ovk, s3, h3, h⟩ := run_bind_ok h
  obtain ⟨⟩ := h
  refine ⟨a, b, ⟨ovk⟩, rfl, ?_⟩
  simp only [toyKeyToBytes, Mathlib.Vector.toList_append, List.append_assoc]
  rw [U256.read_ok h1, U256.read_ok h2, readExact_ok h3]

end Toy

def toySapling : Sapling U256 U256 where
  blake2b32 _ _ := Mathlib.Vector.replicate 32 0
  blake2b64 _ _ := Mathlib.Vector.replicate 64 0
  prfExpandVec _ _ := Mathlib.Vector.replicate 64 0
  frFromBytesWide _ := 0
  spendingKeyGenerator := AddHom.id _
  proofGenerationKeyGenerator := AddHom.id _
  expskFromSpendingKey _ := ⟨0, 0, ⟨Mathlib.Vector.replicate 32 0⟩⟩
  expskToBytes e := toyKeyToBytes e.ask e.nsk e.ovk
  fvkToBytes f := toyKeyToBytes f.vk.ak f.vk.nk f.ovk
  expskRead := toyKeyRead ExpandedSpendingKey.mk
  fvkRead := toyKeyRead fun ak nk ovk => ⟨⟨ak, nk⟩, ovk⟩

theorem toySapling_expsk_roundTrips : RoundTrips toySapling.expskRead toySapling.expskToBytes :=
  fun e => toyKeyRead_toBytes e.ask e.nsk e.ovk

theorem toySapling_expsk_canonical : Canonical toySapling.expskRead toySapling.expskToBytes := by
  intro s e rest h
  obtain ⟨a, b, ovk, rfl, hs⟩ := toyKeyRead_ok h
  exact hs

theorem toySapling_fvk_canonical : Canonical toySapling.fvkRead toySapling.fvkToBytes := by
  intro s f rest h
  obtain ⟨a, b, ovk, rfl, hs⟩ := toyKeyRead_ok h
  exact hs

/-! ## Round trips -/

/-- A key whose child index has a payload below `2^31` reads back as itself. -/
theorem ExtendedSpendingKey.read_write_of_payload_lt (hE : RoundTrips S.expskRead S.expskToBytes)
    (xsk : ExtendedSpendingKey Fr) (h : xsk.childIndex.payload.toNat < 2 ^ 31) (rest : List UInt8) :
    (ExtendedSpendingKey.read S).run (ExtendedSpendingKey.write S xsk ++ rest) = .ok (xsk, rest) := by
  rw [ExtendedSpendingKey.read_write S hE, ChildIndex.fromIndex_value h]

/-- **Reading consumes what writing emits.** A successful `read` of either extended
key consumes exactly 169 bytes, the ones `write` emits for the key it returns. -/
theorem read_consumes_write (hE : Canonical S.expskRead S.expskToBytes)
    (hF : Canonical S.fvkRead S.fvkToBytes) (s rest : List UInt8) :
    (∀ xsk, (ExtendedSpendingKey.read S).run s = .ok (xsk, rest) →
      (ExtendedSpendingKey.write S xsk).length = 169 ∧ s = ExtendedSpendingKey.write S xsk ++ rest) ∧
    (∀ xfvk, (ExtendedFullViewingKey.read S).run s = .ok (xfvk, rest) →
      (ExtendedFullViewingKey.write S xfvk).length = 169 ∧
        s = ExtendedFullViewingKey.write S xfvk ++ rest) :=
  ⟨fun _ h => ⟨length_writeExtendedKey .., ExtendedSpendingKey.read_ok S hE h⟩,
    fun _ h => ⟨length_writeExtendedKey .., ExtendedFullViewingKey.read_ok S hF h⟩⟩

/-- The child of a master key at `NonHardened(2^31 - 1)`, and one byte after it. -/
theorem read_consumes_write_master :
    Canonical toySapling.expskRead toySapling.expskToBytes ∧
      Canonical toySapling.fvkRead toySapling.fvkToBytes ∧
      (ExtendedSpendingKey.read toySapling).run (ExtendedSpendingKey.write toySapling
          ((ExtendedSpendingKey.master toySapling []).deriveChild toySapling
            (.nonHardened 2147483647)) ++ [7]) =
        .ok ((ExtendedSpendingKey.master toySapling []).deriveChild toySapling
          (.nonHardened 2147483647), [7]) ∧
      (ExtendedSpendingKey.write toySapling ((ExtendedSpendingKey.master toySapling []).deriveChild
          toySapling (.nonHardened 2147483647))).length = 169 :=
  have hread := ExtendedSpendingKey.read_write_of_payload_lt toySapling toySapling_expsk_roundTrips
    ((ExtendedSpendingKey.master toySapling []).deriveChild toySapling (.nonHardened 2147483647))
    (by decide) [7]
  ⟨toySapling_expsk_canonical, toySapling_fvk_canonical, hread,
    ((read_consumes_write toySapling toySapling_expsk_canonical toySapling_fvk_canonical _ [7]).1 _
      hread).1⟩

theorem toySapling_fvk_roundTrips : RoundTrips toySapling.fvkRead toySapling.fvkToBytes :=
  fun f => toyKeyRead_toBytes f.vk.ak f.vk.nk f.ovk

/-- **The exact round trip.** Where the 96-byte key encodings read back, `read` returns
the very key `write` emitted, and leaves the rest, exactly when its child index has a
payload below `2^31`; every other key comes back with the index `from_index(value)`. -/
theorem read_write_iff_payload_lt (hE : RoundTrips S.expskRead S.expskToBytes)
    (hF : RoundTrips S.fvkRead S.fvkToBytes) (rest : List UInt8) :
    (∀ xsk : ExtendedSpendingKey Fr,
      (ExtendedSpendingKey.read S).run (ExtendedSpendingKey.write S xsk ++ rest) = .ok (xsk, rest) ↔
        xsk.childIndex.payload.toNat < 2 ^ 31) ∧
    (∀ xfvk : ExtendedFullViewingKey Pt,
      (ExtendedFullViewingKey.read S).run (ExtendedFullViewingKey.write S xfvk ++ rest) =
        .ok (xfvk, rest) ↔ xfvk.childIndex.payload.toNat < 2 ^ 31) := by
  refine ⟨fun xsk => ?_, fun xfvk => ?_⟩
  · rw [ExtendedSpendingKey.read_write S hE, ← ChildIndex.fromIndex_value_iff]
    cases xsk
    simp
  · rw [ExtendedFullViewingKey.read_write S hF, ← ChildIndex.fromIndex_value_iff]
    cases xfvk
    simp

theorem read_write_iff_payload_lt_toy :
    RoundTrips toySapling.expskRead toySapling.expskToBytes ∧
      RoundTrips toySapling.fvkRead toySapling.fvkToBytes ∧
      ∀ xsk : ExtendedSpendingKey U256,
        (ExtendedSpendingKey.read toySapling).run (ExtendedSpendingKey.write toySapling xsk ++ []) =
          .ok (xsk, []) ↔ xsk.childIndex.payload.toNat < 2 ^ 31 :=
  ⟨toySapling_expsk_roundTrips, toySapling_fvk_roundTrips,
    (read_write_iff_payload_lt toySapling toySapling_expsk_roundTrips toySapling_fvk_roundTrips []).1⟩

/-- A child derived at `NonHardened(2^31)` is written with index `2^31`, and read back
at `Hardened(0)`. -/
theorem read_write_nonHardened_2pow31 (hE : RoundTrips S.expskRead S.expskToBytes)
    (seed rest : List UInt8) :
    (ExtendedSpendingKey.read S).run (ExtendedSpendingKey.write S
        ((ExtendedSpendingKey.master S seed).deriveChild S (.nonHardened 2147483648)) ++ rest) =
      .ok ({ (ExtendedSpendingKey.master S seed).deriveChild S (.nonHardened 2147483648) with
              childIndex := .hardened 0 }, rest) := by
  have h : ChildIndex.fromIndex (ChildIndex.nonHardened 2147483648).value = .hardened 0 := by decide
  have hc : ((ExtendedSpendingKey.master S seed).deriveChild S (.nonHardened 2147483648)).childIndex =
    .nonHardened 2147483648 := rfl
  rw [ExtendedSpendingKey.read_write S hE, hc, h]

theorem read_write_nonHardened_2pow31_toy :
    RoundTrips toySapling.expskRead toySapling.expskToBytes ∧
      (ExtendedSpendingKey.read toySapling).run (ExtendedSpendingKey.write toySapling
          ((ExtendedSpendingKey.master toySapling []).deriveChild toySapling
            (.nonHardened 2147483648)) ++ []) =
        .ok ({ (ExtendedSpendingKey.master toySapling []).deriveChild toySapling
                (.nonHardened 2147483648) with childIndex := .hardened 0 }, []) :=
  ⟨toySapling_expsk_roundTrips,
    read_write_nonHardened_2pow31 toySapling toySapling_expsk_roundTrips [] []⟩

end Masp.Zip32
