/-
FF1 on the diversifier's 88-bit strings, and `diversifier_index` as the inverse
of `diversifier`.

Both `try_diversifier_internal` and `diversifier_index` go through the `fpe`
crate's `BinaryNumeralString`: `from_bytes_le` spreads each byte into eight
bits, least significant first, and `to_bytes_le` packs each run of eight bits
back. On whole bytes the two are inverse (`toBytesLe_fromBytesLe`,
`fromBytesLe_toBytesLe`), so on the 11-byte domain the byte-level encryption
and decryption of `Diversification.ofFF1` are inverse whenever FF1's are
(`FF1.Inverse`). `diversifier_index` then undoes `diversifier` on every index
that gives a diversifier, and `diversifier` undoes `diversifier_index` on every
diversifier that `g_d` accepts. So the index `find_diversifier` returns is recovered
from its diversifier, and no two indices give one key the same diversifier
(`findDiversifier_diversifierIndex`).
-/
import Mathlib.Data.Vector.Zip
import Masp.Zip32.Diversifier

namespace Masp.Zip32

/-! ## Binary numeral strings -/

/-- The inner loop of `BinaryNumeralString::from_bytes_le`, `k` turns of: push
`tmp & 1`, then `tmp >>= 1`. -/
def bitsOf : Nat → Nat → List Bool
  | 0, _ => []
  | k + 1, n => (n % 2 = 1) :: bitsOf k (n / 2)

/-- The number a list of bits spells, least significant first: what `to_bytes_le`
accumulates with `acc += n << shift`. -/
def bitsValue : List Bool → Nat
  | [] => 0
  | b :: bs => b.toNat + 2 * bitsValue bs

/-- `BinaryNumeralString::from_bytes_le`. -/
def fromBytesLe : List UInt8 → List Bool
  | [] => []
  | b :: bs => bitsOf 8 b.toNat ++ fromBytesLe bs

/-- `n` turns of the loop of `to_bytes_le`, one byte from each run of eight bits. -/
def toBytesLeLoop : Nat → List Bool → List UInt8
  | 0, _ => []
  | n + 1, s => UInt8.ofNat (bitsValue (s.take 8)) :: toBytesLeLoop n (s.drop 8)

/-- `BinaryNumeralString::to_bytes_le`: a byte is pushed when `shift` reaches 8, so
the bits after the last whole byte are dropped. -/
def toBytesLe (s : List Bool) : List UInt8 := toBytesLeLoop (s.length / 8) s

theorem bitsOf_eq_digitsLE (k n : Nat) : bitsOf k n = (digitsLE 2 k n).map fun d => decide (d = 1) := by
  induction k generalizing n with
  | zero => rfl
  | succ k ih => rw [bitsOf, ih]; rfl

theorem bitsValue_eq_ofDigits (l : List Bool) : bitsValue l = Nat.ofDigits 2 (l.map Bool.toNat) := by
  induction l with
  | nil => rfl
  | cons b bs ih => rw [bitsValue, ih]; rfl

@[simp] theorem length_bitsOf (k n : Nat) : (bitsOf k n).length = k := by
  simp [bitsOf_eq_digitsLE]

theorem bitsValue_bitsOf (k n : Nat) : bitsValue (bitsOf k n) = n % 2 ^ k := by
  rw [bitsValue_eq_ofDigits, bitsOf_eq_digitsLE, List.map_map, ← ofDigits_digitsLE]
  refine congrArg _ ((List.map_congr_left fun d hd => ?_).trans (List.map_id _))
  have : d < 2 := lt_of_mem_digitsLE (by decide) hd
  interval_cases d <;> rfl

theorem Bool.toNat_lt_of_mem {l : List Bool} {d : Nat} (h : d ∈ l.map Bool.toNat) : d < 2 := by
  obtain ⟨b, -, rfl⟩ := List.mem_map.mp h
  exact Bool.toNat_lt b

theorem bitsValue_lt (l : List Bool) : bitsValue l < 2 ^ l.length := by
  rw [bitsValue_eq_ofDigits, ← List.length_map l Bool.toNat]
  exact Nat.ofDigits_lt_base_pow_length (by decide) fun _ => Bool.toNat_lt_of_mem

theorem bitsOf_bitsValue (l : List Bool) : bitsOf l.length (bitsValue l) = l := by
  rw [bitsValue_eq_ofDigits, bitsOf_eq_digitsLE, ← List.length_map l Bool.toNat,
    digitsLE_ofDigits fun _ => Bool.toNat_lt_of_mem, List.map_map]
  exact (List.map_congr_left fun b _ => by cases b <;> rfl).trans (List.map_id _)

@[simp] theorem length_fromBytesLe (l : List UInt8) : (fromBytesLe l).length = 8 * l.length := by
  induction l with
  | nil => rfl
  | cons b bs ih => simp [fromBytesLe, ih]; omega

@[simp] theorem length_toBytesLeLoop (n : Nat) (s : List Bool) : (toBytesLeLoop n s).length = n := by
  induction n generalizing s <;> simp [toBytesLeLoop, *]

theorem toBytesLeLoop_fromBytesLe (l : List UInt8) : toBytesLeLoop l.length (fromBytesLe l) = l := by
  induction l with
  | nil => rfl
  | cons b bs ih =>
    have hb : bitsValue (bitsOf 8 b.toNat) = b.toNat := by
      rw [bitsValue_bitsOf]; exact Nat.mod_eq_of_lt (show b.toNat < 2 ^ 8 from b.toNat_lt_size)
    rw [List.length_cons, fromBytesLe, toBytesLeLoop, List.take_left' (length_bitsOf 8 _),
      List.drop_left' (length_bitsOf 8 _), hb, UInt8.ofNat_toNat, ih]

/-- `to_bytes_le` undoes `from_bytes_le`. -/
theorem toBytesLe_fromBytesLe (l : List UInt8) : toBytesLe (fromBytesLe l) = l := by
  rw [toBytesLe, length_fromBytesLe, Nat.mul_div_cancel_left _ (by decide), toBytesLeLoop_fromBytesLe]

theorem fromBytesLe_toBytesLeLoop (n : Nat) (s : List Bool) (h : s.length = 8 * n) :
    fromBytesLe (toBytesLeLoop n s) = s := by
  induction n generalizing s with
  | zero => rw [List.length_eq_zero.mp h]; rfl
  | succ n ih =>
    have htake : (s.take 8).length = 8 := by simp; omega
    have hbyte : bitsOf 8 (UInt8.ofNat (bitsValue (s.take 8))).toNat = s.take 8 := by
      have hlt := bitsValue_lt (s.take 8)
      rw [htake] at hlt
      rw [UInt8.toNat_ofNat, Nat.mod_eq_of_lt (show _ < 256 from hlt)]
      simpa only [htake] using bitsOf_bitsValue (s.take 8)
    rw [toBytesLeLoop, fromBytesLe, hbyte, ih _ (by simp; omega), List.take_append_drop]

/-- On a whole number of bytes, `from_bytes_le` undoes `to_bytes_le`. -/
theorem fromBytesLe_toBytesLe {s : List Bool} (h : s.length % 8 = 0) :
    fromBytesLe (toBytesLe s) = s :=
  fromBytesLe_toBytesLeLoop _ s (by omega)

/-! ## FF1 between the byte conversions -/

/-- The 88-bit string `from_bytes_le` makes of an 11-byte array. -/
def numeralOfBytes (b : Bytes 11) : Mathlib.Vector Bool 88 :=
  ⟨fromBytesLe b.toList, by simp⟩

/-- `copy_from_slice(&s.to_bytes_le())` into an 11-byte array; on 88 bits
`to_bytes_le` gives 11 bytes, so the copy does not panic. -/
def bytesOfNumeral (s : Mathlib.Vector Bool 88) : Bytes 11 :=
  ⟨toBytesLe s.toList, by simp [toBytesLe]⟩

@[simp] theorem bytesOfNumeral_numeralOfBytes (b : Bytes 11) :
    bytesOfNumeral (numeralOfBytes b) = b :=
  Subtype.ext (toBytesLe_fromBytesLe b.toList)

@[simp] theorem numeralOfBytes_bytesOfNumeral (s : Mathlib.Vector Bool 88) :
    numeralOfBytes (bytesOfNumeral s) = s :=
  Subtype.ext (fromBytesLe_toBytesLe (by simp))

/-- `FF1::<Aes256>::new(key, 2)` on the 88-bit strings of the diversifier code. FF1 is
format-preserving: a string of 88 bits goes to a string of 88 bits, so the
`unwrap()`s after `encrypt` and `decrypt` do not panic. -/
structure FF1 where
  encrypt : Bytes 32 → Mathlib.Vector Bool 88 → Mathlib.Vector Bool 88
  decrypt : Bytes 32 → Mathlib.Vector Bool 88 → Mathlib.Vector Bool 88

/-- FF1's contract: under each key, encryption and decryption undo each other. -/
def FF1.Inverse (F : FF1) : Prop :=
  ∀ key x, F.decrypt key (F.encrypt key x) = x ∧ F.encrypt key (F.decrypt key x) = x

/-- The collaborators of the diversifier code with FF1 between `from_bytes_le` and
`to_bytes_le`, as `try_diversifier_internal` and `diversifier_index` call it. -/
def Diversification.ofFF1 {Pt Addr : Type} (F : FF1) (gD : Diversifier → Option Pt)
    (toPaymentAddress : ViewingKey Pt → Diversifier → Option Addr) : Diversification Pt Addr where
  ff1Encrypt key j := bytesOfNumeral (F.encrypt key (numeralOfBytes j))
  ff1Decrypt key d := bytesOfNumeral (F.decrypt key (numeralOfBytes d))
  gD := gD
  toPaymentAddress := toPaymentAddress

section
variable {Pt Addr : Type} {F : FF1} {gD : Diversifier → Option Pt}
  {toPaymentAddress : ViewingKey Pt → Diversifier → Option Addr}

/-- The byte-level maps of `ofFF1` are inverse when FF1's are. -/
theorem FF1.Inverse.ofFF1 (hF : F.Inverse) (key : Bytes 32) (x : Bytes 11) :
    (Diversification.ofFF1 F gD toPaymentAddress).ff1Decrypt key
        ((Diversification.ofFF1 F gD toPaymentAddress).ff1Encrypt key x) = x ∧
      (Diversification.ofFF1 F gD toPaymentAddress).ff1Encrypt key
        ((Diversification.ofFF1 F gD toPaymentAddress).ff1Decrypt key x) = x := by
  simp [Diversification.ofFF1, (hF _ _).1, (hF _ _).2]

end

/-! ## `diversifier_index` inverts `diversifier` -/

namespace DiversifierKey
variable {Pt Addr : Type} {D : Diversification Pt Addr} (dk : DiversifierKey)

theorem diversifierIndex_of_diversifier
    (hD : ∀ x, D.ff1Decrypt dk.bytes (D.ff1Encrypt dk.bytes x) = x) {j : DiversifierIndex}
    {d : Diversifier} (h : dk.diversifier D j = some d) : dk.diversifierIndex D d = j := by
  simp only [diversifier, tryDiversifierInternal, Option.map_eq_some'] at h
  obtain ⟨_, _, rfl⟩ := h
  exact congrArg DiversifierIndex.mk (hD j.bytes)

theorem diversifier_of_diversifierIndex
    (hD : ∀ x, D.ff1Encrypt dk.bytes (D.ff1Decrypt dk.bytes x) = x) {d : Diversifier}
    (h : (D.gD d).isSome) : dk.diversifier D (dk.diversifierIndex D d) = some d := by
  obtain ⟨p, hp⟩ := Option.isSome_iff_exists.mp h
  simp [diversifier, diversifierIndex, tryDiversifierInternal, hD, hp]

end DiversifierKey

/-- Under FF1's contract, `diversifier_index` undoes `diversifier` on every index that
gives a diversifier, and `diversifier` undoes `diversifier_index` on every diversifier
that `g_d` accepts, for every key. -/
theorem diversifierIndex_inverts_diversifier {Pt Addr : Type} {F : FF1} (hF : F.Inverse)
    (gD : Diversifier → Option Pt) (toPaymentAddress : ViewingKey Pt → Diversifier → Option Addr)
    (dk : DiversifierKey) :
    (∀ j d, dk.diversifier (.ofFF1 F gD toPaymentAddress) j = some d →
      dk.diversifierIndex (.ofFF1 F gD toPaymentAddress) d = j) ∧
    ∀ d, (gD d).isSome →
      dk.diversifier (.ofFF1 F gD toPaymentAddress)
        (dk.diversifierIndex (.ofFF1 F gD toPaymentAddress) d) = some d :=
  ⟨fun _ _ => dk.diversifierIndex_of_diversifier (fun x => (hF.ofFF1 dk.bytes x).1),
    fun _ => dk.diversifier_of_diversifierIndex (fun x => (hF.ofFF1 dk.bytes x).2)⟩

/-- A keyed permutation that meets FF1's contract: each of the 88 bits is flipped by the
bit at its position in the first 11 bytes of the key. -/
def xorFF1 : FF1 where
  encrypt key x := Mathlib.Vector.zipWith xor x (numeralOfBytes (key.take 11 (by decide)))
  decrypt key x := Mathlib.Vector.zipWith xor x (numeralOfBytes (key.take 11 (by decide)))

theorem xorFF1_inverse : xorFF1.Inverse := fun key x =>
  have h : ∀ y, xorFF1.decrypt key (xorFF1.encrypt key y) = y := fun y =>
    Mathlib.Vector.ext fun i => by simp [xorFF1, Mathlib.Vector.zipWith_get]
  ⟨h x, h x⟩

/-- Under a key of sevens, with a `g_d` that refuses every diversifier whose first byte
is 0. -/
theorem diversifierIndex_inverts_diversifier_xor :
    xorFF1.Inverse ∧
      DiversifierKey.diversifier
          (.ofFF1 xorFF1 (fun d => if d.bytes.head = 0 then none else some ()) fun _ _ => some ())
          ⟨Mathlib.Vector.replicate 32 7⟩
          (DiversifierKey.diversifierIndex
            (.ofFF1 xorFF1 (fun d => if d.bytes.head = 0 then none else some ()) fun _ _ => some ())
            ⟨Mathlib.Vector.replicate 32 7⟩ ⟨Mathlib.Vector.replicate 11 3⟩) =
        some ⟨Mathlib.Vector.replicate 11 3⟩ :=
  ⟨xorFF1_inverse, (diversifierIndex_inverts_diversifier xorFF1_inverse
    (fun d => if d.bytes.head = 0 then none else some ()) (fun _ _ => some ())
    ⟨Mathlib.Vector.replicate 32 7⟩).2 _ rfl⟩

/-- **The search and `diversifier_index`.** Under FF1's contract, the index
`find_diversifier` returns is the one `diversifier_index` recovers from the diversifier it
returns, and no two indices give one key the same diversifier. -/
theorem findDiversifier_diversifierIndex {Pt Addr : Type} {F : FF1} (hF : F.Inverse)
    (gD : Diversifier → Option Pt) (toPaymentAddress : ViewingKey Pt → Diversifier → Option Addr)
    (dk : DiversifierKey) :
    (∀ j j' d, dk.findDiversifier (.ofFF1 F gD toPaymentAddress) j = some (j', d) →
      dk.diversifierIndex (.ofFF1 F gD toPaymentAddress) d = j') ∧
    ∀ j k d, dk.diversifier (.ofFF1 F gD toPaymentAddress) j = some d →
      dk.diversifier (.ofFF1 F gD toPaymentAddress) k = some d → j = k := by
  have hD : ∀ x, (Diversification.ofFF1 F gD toPaymentAddress).ff1Decrypt dk.bytes
      ((Diversification.ofFF1 F gD toPaymentAddress).ff1Encrypt dk.bytes x) = x :=
    fun x => (hF.ofFF1 dk.bytes x).1
  refine ⟨fun j j' d h => dk.diversifierIndex_of_diversifier hD
    (((DiversifierKey.findDiversifier_spec _ dk j).1 j' d).mp h).2.1, fun j k d hj hk => ?_⟩
  rw [← dk.diversifierIndex_of_diversifier hD hj, dk.diversifierIndex_of_diversifier hD hk]

theorem findDiversifier_diversifierIndex_xor :
    xorFF1.Inverse ∧
      ∀ j j' d, DiversifierKey.findDiversifier
          (.ofFF1 xorFF1 (fun d => if d.bytes.head = 0 then none else some ()) fun _ _ => some ())
          ⟨Mathlib.Vector.replicate 32 7⟩ j = some (j', d) →
        DiversifierKey.diversifierIndex
          (.ofFF1 xorFF1 (fun d => if d.bytes.head = 0 then none else some ()) fun _ _ => some ())
          ⟨Mathlib.Vector.replicate 32 7⟩ d = j' :=
  ⟨xorFF1_inverse, (findDiversifier_diversifierIndex xorFF1_inverse
    (fun d => if d.bytes.head = 0 then none else some ()) (fun _ _ => some ())
    ⟨Mathlib.Vector.replicate 32 7⟩).1⟩

end Masp.Zip32
