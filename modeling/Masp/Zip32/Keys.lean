/-
The ZIP 32 key tree of `zip32.rs`: extended spending keys and extended full
viewing keys, master generation, hardened and non-hardened child derivation,
and internal-key derivation, each as the code computes it.

What `zip32.rs` calls and does not define (BLAKE2b, `prf_expand_vec`, the Jubjub
scalar field and curve, and the key encodings of `keys.rs`) is a field of
`Sapling`. The scalar field and the curve are types `Fr` and `Pt` with an
addition each; the code multiplies only the two fixed generators by scalars,
so each generator is the map `s ↦ G * s`, an additive map `AddHom Fr Pt`. That
additivity is the one group law the code relies on.

Fixed-width integers are the code's: `depth` is a `UInt8` and `depth + 1` wraps
as a release build's `u8` does; `i + (1 << 31)` is `UInt32` arithmetic.
-/
import Mathlib.Algebra.Group.Hom.Defs
import Masp.Bytes

namespace Masp

/-- `&b[..k]`. -/
def Bytes.take (b : Bytes n) (k : Nat) (h : k ≤ n) : Bytes k :=
  ⟨b.toList.take k, by simp [Nat.min_eq_left h]⟩

/-- `&b[k..]`. -/
def Bytes.drop (b : Bytes n) (k : Nat) : Bytes (n - k) := ⟨b.toList.drop k, by simp⟩

/-- A byte string literal `b"..."`. -/
def ascii (s : String) : List UInt8 := s.toList.map fun c => c.toNat.toUInt8

def zip32SaplingMasterPersonalization : Bytes 16 := ⟨ascii "MASP_IP32Sapling", rfl⟩
def zip32SaplingFvfpPersonalization : Bytes 16 := ⟨ascii "MASP_SaplingFVFP", rfl⟩
def zip32SaplingIntPersonalization : Bytes 16 := ⟨ascii "MASP__SaplingInt", rfl⟩

namespace Zip32

/-! ## Sapling keys (`keys.rs`) -/

/-- `OutgoingViewingKey([u8; 32])`. -/
structure OutgoingViewingKey where
  bytes : Bytes 32
  deriving DecidableEq

/-- `ExpandedSpendingKey { ask, nsk, ovk }`. -/
structure ExpandedSpendingKey (Fr : Type) where
  ask : Fr
  nsk : Fr
  ovk : OutgoingViewingKey

/-- `ViewingKey { ak, nk }`. -/
structure ViewingKey (Pt : Type) where
  ak : Pt
  nk : Pt

/-- `FullViewingKey { vk, ovk }`. -/
structure FullViewingKey (Pt : Type) where
  vk : ViewingKey Pt
  ovk : OutgoingViewingKey

/-- The collaborators `zip32.rs` calls and does not define. -/
structure Sapling (Fr Pt : Type) [Add Fr] [Add Pt] where
  /-- BLAKE2b with a 16-byte personalization and a 32-byte digest, over the
  concatenation of what was passed to `update`. -/
  blake2b32 : Bytes 16 → List UInt8 → Bytes 32
  /-- BLAKE2b with a 16-byte personalization and a 64-byte digest. -/
  blake2b64 : Bytes 16 → List UInt8 → Bytes 64
  /-- `prf_expand_vec(sk, ts)`. -/
  prfExpandVec : List UInt8 → List (List UInt8) → Bytes 64
  /-- `jubjub::Fr::from_bytes_wide`. -/
  frFromBytesWide : Bytes 64 → Fr
  /-- `s ↦ SPENDING_KEY_GENERATOR * s`. -/
  spendingKeyGenerator : AddHom Fr Pt
  /-- `s ↦ PROOF_GENERATION_KEY_GENERATOR * s`. -/
  proofGenerationKeyGenerator : AddHom Fr Pt
  /-- `ExpandedSpendingKey::from_spending_key`. -/
  expskFromSpendingKey : List UInt8 → ExpandedSpendingKey Fr
  /-- `ExpandedSpendingKey::to_bytes`. -/
  expskToBytes : ExpandedSpendingKey Fr → Bytes 96
  /-- `FullViewingKey::to_bytes`. -/
  fvkToBytes : FullViewingKey Pt → Bytes 96
  /-- `ExpandedSpendingKey::read`. -/
  expskRead : Read (ExpandedSpendingKey Fr)
  /-- `FullViewingKey::read`. -/
  fvkRead : Read (FullViewingKey Pt)

variable {Fr Pt : Type} [Add Fr] [Add Pt] (S : Sapling Fr Pt)

/-- Modelled from the spec: `prf_expand(sk, t)` of `keys.rs`, the expansion
primitive over the single tag string `t`. -/
def Sapling.prfExpand (sk t : List UInt8) : Bytes 64 := S.prfExpandVec sk [t]

/-- Modelled from the spec: `FullViewingKey::from_expanded_spending_key` of
`keys.rs`, `ak = G₁·ask`, `nk = G₂·nsk`, `ovk` kept. -/
def FullViewingKey.fromExpandedSpendingKey (expsk : ExpandedSpendingKey Fr) : FullViewingKey Pt :=
  { vk := { ak := S.spendingKeyGenerator expsk.ask, nk := S.proofGenerationKeyGenerator expsk.nsk }
    ovk := expsk.ovk }

/-- `derive_child_ovk`. -/
def deriveChildOvk (parent : OutgoingViewingKey) (iL : List UInt8) : OutgoingViewingKey :=
  ⟨(S.prfExpandVec iL [[0x15], parent.bytes.toList]).take 32 (by decide)⟩

/-! ## ZIP 32 structures -/

/-- `FvkTag([u8; 4])`. -/
structure FvkTag where
  bytes : Bytes 4
  deriving DecidableEq

/-- `FvkFingerprint([u8; 32])`. -/
structure FvkFingerprint where
  bytes : Bytes 32

def FvkFingerprint.from (fvk : FullViewingKey Pt) : FvkFingerprint :=
  ⟨S.blake2b32 zip32SaplingFvfpPersonalization (S.fvkToBytes fvk).toList⟩

def FvkFingerprint.tag (fp : FvkFingerprint) : FvkTag := ⟨fp.bytes.take 4 (by decide)⟩

/-- The all-zero sentinel tag of a master key. -/
def FvkTag.master : FvkTag := ⟨Mathlib.Vector.replicate 4 0⟩

/-- `ChildIndex`: `Hardened(n)` stands for `n + (1 << 31)`, `n'` in path notation. -/
inductive ChildIndex where
  | nonHardened (i : UInt32)
  | hardened (i : UInt32)
  deriving DecidableEq, Repr

def ChildIndex.fromIndex (i : UInt32) : ChildIndex :=
  if i ≥ (1 : UInt32) <<< 31 then .hardened (i - (1 : UInt32) <<< 31) else .nonHardened i

def ChildIndex.master : ChildIndex := ChildIndex.fromIndex 0

def ChildIndex.value : ChildIndex → UInt32
  | .hardened i => i + (1 : UInt32) <<< 31
  | .nonHardened i => i

/-- `ChainCode([u8; 32])`. -/
structure ChainCode where
  bytes : Bytes 32
  deriving DecidableEq

/-- `DiversifierKey([u8; 32])`. -/
structure DiversifierKey where
  bytes : Bytes 32
  deriving DecidableEq

def DiversifierKey.master (skM : List UInt8) : DiversifierKey :=
  ⟨(S.prfExpand skM [0x10]).take 32 (by decide)⟩

def DiversifierKey.deriveChild (dk : DiversifierKey) (iL : List UInt8) : DiversifierKey :=
  ⟨(S.prfExpandVec iL [[0x16], dk.bytes.toList]).take 32 (by decide)⟩

/-- A Sapling extended spending key. -/
structure ExtendedSpendingKey (Fr : Type) where
  depth : UInt8
  parentFvkTag : FvkTag
  childIndex : ChildIndex
  chainCode : ChainCode
  expsk : ExpandedSpendingKey Fr
  dk : DiversifierKey

/-- A Sapling extended full viewing key. -/
structure ExtendedFullViewingKey (Pt : Type) where
  depth : UInt8
  parentFvkTag : FvkTag
  childIndex : ChildIndex
  chainCode : ChainCode
  fvk : FullViewingKey Pt
  dk : DiversifierKey

/-! ## Extended spending keys -/

namespace ExtendedSpendingKey

def master (seed : List UInt8) : ExtendedSpendingKey Fr :=
  let i := S.blake2b64 zip32SaplingMasterPersonalization seed
  let skM := (i.take 32 (by decide)).toList
  { depth := 0
    parentFvkTag := FvkTag.master
    childIndex := ChildIndex.master
    chainCode := ⟨i.drop 32⟩
    expsk := S.expskFromSpendingKey skM
    dk := DiversifierKey.master S skM }

def deriveChild (xsk : ExtendedSpendingKey Fr) (i : ChildIndex) : ExtendedSpendingKey Fr :=
  let fvk : FullViewingKey Pt := FullViewingKey.fromExpandedSpendingKey S xsk.expsk
  let tmp := match i with
    | .hardened i =>
      S.prfExpandVec xsk.chainCode.bytes.toList
        [[0x11], (S.expskToBytes xsk.expsk).toList, xsk.dk.bytes.toList,
          writeU32LE (i + (1 : UInt32) <<< 31)]
    | .nonHardened i =>
      S.prfExpandVec xsk.chainCode.bytes.toList
        [[0x12], (S.fvkToBytes fvk).toList, xsk.dk.bytes.toList, writeU32LE i]
  let iL := (tmp.take 32 (by decide)).toList
  { depth := xsk.depth + 1
    parentFvkTag := (FvkFingerprint.from S fvk).tag
    childIndex := i
    chainCode := ⟨tmp.drop 32⟩
    expsk :=
      { ask := S.frFromBytesWide (S.prfExpand iL [0x13]) + xsk.expsk.ask
        nsk := S.frFromBytesWide (S.prfExpand iL [0x14]) + xsk.expsk.nsk
        ovk := deriveChildOvk S xsk.expsk.ovk iL }
    dk := xsk.dk.deriveChild S iL }

/-- The child key along `path` from `master`, one `derive_child` per index. -/
def fromPath (master : ExtendedSpendingKey Fr) (path : List ChildIndex) :
    ExtendedSpendingKey Fr :=
  path.foldl (fun xsk i => deriveChild S xsk i) master

def deriveInternal (xsk : ExtendedSpendingKey Fr) : ExtendedSpendingKey Fr :=
  let fvk : FullViewingKey Pt := FullViewingKey.fromExpandedSpendingKey S xsk.expsk
  let i := S.blake2b32 zip32SaplingIntPersonalization
    ((S.fvkToBytes fvk).toList ++ xsk.dk.bytes.toList)
  let iNsk := S.frFromBytesWide (S.prfExpand i.toList [0x17])
  let r := S.prfExpand i.toList [0x18]
  { depth := xsk.depth
    parentFvkTag := xsk.parentFvkTag
    childIndex := xsk.childIndex
    chainCode := xsk.chainCode
    expsk := { ask := xsk.expsk.ask, nsk := iNsk + xsk.expsk.nsk, ovk := ⟨r.drop 32⟩ }
    dk := ⟨r.take 32 (by decide)⟩ }

end ExtendedSpendingKey

/-- `sapling_derive_internal_fvk`: the internal full viewing key and diversifier key
of `(fvk, dk)`. -/
def saplingDeriveInternalFvk (fvk : FullViewingKey Pt) (dk : DiversifierKey) :
    FullViewingKey Pt × DiversifierKey :=
  let i := S.blake2b32 zip32SaplingIntPersonalization ((S.fvkToBytes fvk).toList ++ dk.bytes.toList)
  let iNsk := S.frFromBytesWide (S.prfExpand i.toList [0x17])
  let r := S.prfExpand i.toList [0x18]
  let nkInternal := S.proofGenerationKeyGenerator iNsk + fvk.vk.nk
  ({ vk := { ak := fvk.vk.ak, nk := nkInternal }, ovk := ⟨r.drop 32⟩ }, ⟨r.take 32 (by decide)⟩)

/-! ## Extended full viewing keys -/

/-- `From<&ExtendedSpendingKey> for ExtendedFullViewingKey`. -/
def ExtendedFullViewingKey.from (xsk : ExtendedSpendingKey Fr) : ExtendedFullViewingKey Pt :=
  { depth := xsk.depth
    parentFvkTag := xsk.parentFvkTag
    childIndex := xsk.childIndex
    chainCode := xsk.chainCode
    fvk := FullViewingKey.fromExpandedSpendingKey S xsk.expsk
    dk := xsk.dk }

namespace ExtendedFullViewingKey

/-- Non-hardened derivation only: a hardened index is refused with `Err(())`. -/
def deriveChild (xfvk : ExtendedFullViewingKey Pt) (i : ChildIndex) :
    Except Unit (ExtendedFullViewingKey Pt) :=
  match i with
  | .hardened _ => .error ()
  | .nonHardened i' =>
    let tmp := S.prfExpandVec xfvk.chainCode.bytes.toList
      [[0x12], (S.fvkToBytes xfvk.fvk).toList, xfvk.dk.bytes.toList, writeU32LE i']
    let iL := (tmp.take 32 (by decide)).toList
    let iAsk := S.frFromBytesWide (S.prfExpand iL [0x13])
    let iNsk := S.frFromBytesWide (S.prfExpand iL [0x14])
    .ok { depth := xfvk.depth + 1
          parentFvkTag := (FvkFingerprint.from S xfvk.fvk).tag
          childIndex := i
          chainCode := ⟨tmp.drop 32⟩
          fvk :=
            { vk := { ak := S.spendingKeyGenerator iAsk + xfvk.fvk.vk.ak
                      nk := S.proofGenerationKeyGenerator iNsk + xfvk.fvk.vk.nk }
              ovk := deriveChildOvk S xfvk.fvk.ovk iL }
          dk := xfvk.dk.deriveChild S iL }

def deriveInternal (xfvk : ExtendedFullViewingKey Pt) : ExtendedFullViewingKey Pt :=
  let (fvkInternal, dkInternal) := saplingDeriveInternalFvk S xfvk.fvk xfvk.dk
  { depth := xfvk.depth
    parentFvkTag := xfvk.parentFvkTag
    childIndex := xfvk.childIndex
    chainCode := xfvk.chainCode
    fvk := fvkInternal
    dk := dkInternal }

end ExtendedFullViewingKey

end Zip32

end Masp
