/-
`FromStr for ExtendedSpendingKey`: the string is the hex of a seed, and the key is
`ExtendedSpendingKey::master(seed)`.

`hex::decode` belongs to the `hex` crate, not to the source, and is modelled from
it on the bytes of the string: it refuses an odd length first, then decodes the
characters two at a time, high digit then low, and stops at the first byte that
is not a hex digit of either case, naming it and its position. So `from_str`
accepts exactly the even-length strings of hex digits, and on the hex of a seed,
written in lower or upper case, returns the master key of that seed
(`fromStr_hexEncode`). Every refusal is `InvalidData` around the `hex` error.
-/
import Masp.Zip32.Keys

namespace Masp.Zip32

/-! ## `hex::decode` -/

/-- `hex::FromHexError`, the variants `hex::decode` returns. -/
inductive FromHexError where
  | invalidHexCharacter (c : Char) (index : Nat)
  | oddLength
  deriving DecidableEq, Repr

/-- The bytes `val` of the `hex` crate accepts: `b'A'..=b'F'`, `b'a'..=b'f'`, `b'0'..=b'9'`. -/
def IsHexDigit (c : UInt8) : Prop := (65 ≤ c ∧ c ≤ 70) ∨ (97 ≤ c ∧ c ≤ 102) ∨ (48 ≤ c ∧ c ≤ 57)

instance : DecidablePred IsHexDigit := fun _ => inferInstanceAs (Decidable (_ ∨ _))

/-- `val(c, idx)` of the `hex` crate: the value of one digit, or the error naming it. -/
def hexVal (c : UInt8) (idx : Nat) : Except FromHexError UInt8 :=
  if 65 ≤ c ∧ c ≤ 70 then .ok (c - 65 + 10)
  else if 97 ≤ c ∧ c ≤ 102 then .ok (c - 97 + 10)
  else if 48 ≤ c ∧ c ≤ 57 then .ok (c - 48)
  else .error (.invalidHexCharacter (Char.ofNat c.toNat) idx)

/-- The pairs of `FromHex for Vec<u8>` from position `idx`, `chunks(2)` collected into a
`Result`: `val(pair[0], 2 * i)? << 4 | val(pair[1], 2 * i + 1)?`, stopping at the first
error. A single byte left over does not occur: the length was checked even before. -/
def decodePairs : Nat → List UInt8 → Except FromHexError (List UInt8)
  | _, [] => .ok []
  | _, [_] => .ok []
  | idx, hi :: lo :: rest => do
    let h ← hexVal hi idx
    let l ← hexVal lo (idx + 1)
    let r ← decodePairs (idx + 2) rest
    pure ((h <<< 4 ||| l) :: r)

/-- `hex::decode`. -/
def hexDecode (s : List UInt8) : Except FromHexError (List UInt8) :=
  if s.length % 2 ≠ 0 then .error .oddLength else decodePairs 0 s

/-- `io::Error::new(kind, x)` around the `hex` error `x`. -/
structure FromStrError where
  kind : ErrorKind
  error : FromHexError
  deriving DecidableEq, Repr

variable {Fr Pt : Type} [Add Fr] [Add Pt] (S : Sapling Fr Pt)

/-- `FromStr for ExtendedSpendingKey`, on the bytes of the string. -/
def ExtendedSpendingKey.fromStr (s : List UInt8) : Except FromStrError (ExtendedSpendingKey Fr) := do
  let vec ← (hexDecode s).mapError fun x => ⟨.invalidData, x⟩
  pure (ExtendedSpendingKey.master S vec)

/-! ## `hex::encode` -/

/-- The digit `hex::encode` writes for `n < 16` (`HEX_CHARS_LOWER`), or `hex::encode_upper`
(`HEX_CHARS_UPPER`) when `upper`. -/
def hexDigit (upper : Bool) (n : Nat) : UInt8 :=
  if n < 10 then UInt8.ofNat (48 + n) else UInt8.ofNat ((if upper then 65 else 97) + n - 10)

/-- `hex::encode` and `hex::encode_upper`: each byte as `byte >> 4`, then `byte & 0x0F`. -/
def hexEncode (upper : Bool) : List UInt8 → List UInt8
  | [] => []
  | b :: bs => hexDigit upper (b.toNat / 16) :: hexDigit upper (b.toNat % 16) :: hexEncode upper bs

/-! ## One digit -/

theorem hexVal_eq_error {c : UInt8} {idx : Nat} {e : FromHexError} :
    hexVal c idx = .error e ↔ ¬IsHexDigit c ∧ e = .invalidHexCharacter (Char.ofNat c.toNat) idx := by
  unfold hexVal IsHexDigit
  split_ifs <;> simp_all [eq_comm]

theorem hexVal_ok_iff {c : UInt8} {idx : Nat} : (∃ v, hexVal c idx = .ok v) ↔ IsHexDigit c := by
  unfold hexVal IsHexDigit
  split_ifs <;> simp_all

theorem hexVal_hexDigit (upper : Bool) {n : Nat} (hn : n < 16) (idx : Nat) :
    hexVal (hexDigit upper n) idx = .ok (UInt8.ofNat n) := by
  match n, hn with
  | 0, _ | 1, _ | 2, _ | 3, _ | 4, _ | 5, _ | 6, _ | 7, _ | 8, _ | 9, _ | 10, _ | 11, _ | 12, _
  | 13, _ | 14, _ | 15, _ => cases upper <;> rfl
  | _ + 16, h => exact absurd h (by omega)

theorem nibbles_toNat : ∀ x : Fin 16, ∀ y : Fin 16,
    ((UInt8.ofNat x.val <<< 4 ||| UInt8.ofNat y.val) : UInt8).toNat = x.val * 16 + y.val := by
  decide

/-- The high and low digit of a byte put it back together. -/
theorem nibbles_byte (b : UInt8) :
    (UInt8.ofNat (b.toNat / 16) <<< 4 ||| UInt8.ofNat (b.toNat % 16)) = b := by
  have hb : b.toNat < 256 := b.toNat_lt_size
  exact UInt8.toNat.inj
    ((nibbles_toNat ⟨b.toNat / 16, by omega⟩ ⟨b.toNat % 16, by omega⟩).trans (Nat.div_add_mod' _ _))

/-! ## The pairs -/

@[simp] theorem length_hexEncode (upper : Bool) (l : List UInt8) :
    (hexEncode upper l).length = 2 * l.length := by
  induction l with
  | nil => rfl
  | cons b bs ih => simp [hexEncode, ih]; omega

theorem decodePairs_hexEncode (upper : Bool) (seed : List UInt8) (idx : Nat) :
    decodePairs idx (hexEncode upper seed) = .ok seed := by
  induction seed generalizing idx with
  | nil => rfl
  | cons b bs ih =>
    have hb : b.toNat < 256 := b.toNat_lt_size
    rw [hexEncode, decodePairs, hexVal_hexDigit upper (by omega), Except.ok_bind,
      hexVal_hexDigit upper (by omega), Except.ok_bind, ih, Except.ok_bind, nibbles_byte]
    rfl

/-- On an even number of bytes, the pairs decode exactly when every byte is a digit. -/
theorem decodePairs_ok_iff (idx : Nat) (s : List UInt8) (h : s.length % 2 = 0) :
    (∃ v, decodePairs idx s = .ok v) ↔ ∀ c ∈ s, IsHexDigit c := by
  induction idx, s using decodePairs.induct with
  | case1 => simp [decodePairs]
  | case2 => simp at h
  | case3 idx hi lo rest ih =>
    have ih := ih (by simp at h; omega)
    simp only [decodePairs, List.forall_mem_cons, Except.bind_eq_ok]
    constructor
    · rintro ⟨_, vh, hh, vl, hl, r, hr, -⟩
      exact ⟨hexVal_ok_iff.mp ⟨vh, hh⟩, hexVal_ok_iff.mp ⟨vl, hl⟩, ih.mp ⟨r, hr⟩⟩
    · rintro ⟨dh, dl, drest⟩
      obtain ⟨vh, hh⟩ := hexVal_ok_iff.mpr dh
      obtain ⟨vl, hl⟩ := hexVal_ok_iff.mpr dl
      obtain ⟨r, hr⟩ := ih.mpr drest
      exact ⟨_, vh, hh, vl, hl, r, hr, rfl⟩

/-- The pairs stop at the first byte that is not a digit, and name it with its position. -/
theorem decodePairs_eq_error {idx : Nat} {s : List UInt8} {e : FromHexError}
    (h : decodePairs idx s = .error e) :
    ∃ pre c post, s = pre ++ c :: post ∧ (∀ d ∈ pre, IsHexDigit d) ∧ ¬IsHexDigit c ∧
      e = .invalidHexCharacter (Char.ofNat c.toNat) (idx + pre.length) := by
  induction idx, s using decodePairs.induct with
  | case1 => cases h
  | case2 => cases h
  | case3 idx hi lo rest ih =>
    simp only [decodePairs, Except.bind_eq_error] at h
    rcases h with hh | ⟨vh, hh, hl | ⟨vl, hl, hr | ⟨r, -, h⟩⟩⟩
    · obtain ⟨hd, rfl⟩ := hexVal_eq_error.mp hh
      exact ⟨[], hi, lo :: rest, rfl, nofun, hd, rfl⟩
    · obtain ⟨hd, rfl⟩ := hexVal_eq_error.mp hl
      exact ⟨[hi], lo, rest, rfl, by simpa using hexVal_ok_iff.mp ⟨vh, hh⟩, hd, rfl⟩
    · obtain ⟨pre, c, post, rfl, hpre, hc, rfl⟩ := ih hr
      refine ⟨hi :: lo :: pre, c, post, rfl, ?_, hc, ?_⟩
      · simpa [hexVal_ok_iff.mp ⟨vh, hh⟩, hexVal_ok_iff.mp ⟨vl, hl⟩] using hpre
      · simp only [List.length_cons]; congr 1; omega
    · cases h

/-! ## `hex::decode` and `from_str` -/

theorem hexDecode_hexEncode (upper : Bool) (seed : List UInt8) :
    hexDecode (hexEncode upper seed) = .ok seed := by
  rw [hexDecode, if_neg (by simp), decodePairs_hexEncode]

theorem hexDecode_ok_iff (s : List UInt8) :
    (∃ v, hexDecode s = .ok v) ↔ s.length % 2 = 0 ∧ ∀ c ∈ s, IsHexDigit c := by
  unfold hexDecode
  split
  · next h => exact ⟨fun ⟨_, h'⟩ => (nomatch h'), fun ⟨h', _⟩ => absurd h' h⟩
  · next h =>
    have h : s.length % 2 = 0 := not_not.mp h
    rw [decodePairs_ok_iff 0 s h]
    exact ⟨fun hd => ⟨h, hd⟩, And.right⟩

theorem hexDecode_eq_error {s : List UInt8} {x : FromHexError} (h : hexDecode s = .error x) :
    x = .oddLength ∧ s.length % 2 = 1 ∨
      ∃ pre c post, s = pre ++ c :: post ∧ (∀ d ∈ pre, IsHexDigit d) ∧ ¬IsHexDigit c ∧
        x = .invalidHexCharacter (Char.ofNat c.toNat) pre.length := by
  unfold hexDecode at h
  split at h
  · cases h; exact .inl ⟨rfl, by omega⟩
  · obtain ⟨pre, c, post, hs, hpre, hc, hx⟩ := decodePairs_eq_error h
    exact .inr ⟨pre, c, post, hs, hpre, hc, by rw [hx, Nat.zero_add]⟩

theorem fromStr_eq_ok {s : List UInt8} {xsk : ExtendedSpendingKey Fr} :
    ExtendedSpendingKey.fromStr S s = .ok xsk ↔ ∃ v, hexDecode s = .ok v ∧ xsk = .master S v := by
  unfold ExtendedSpendingKey.fromStr
  cases hexDecode s <;> simp [Except.mapError, eq_comm]

theorem fromStr_eq_error {s : List UInt8} {e : FromStrError} :
    (ExtendedSpendingKey.fromStr S s : Except _ (ExtendedSpendingKey Fr)) = .error e ↔ ∃ x, hexDecode s = .error x ∧ e = ⟨.invalidData, x⟩ := by
  unfold ExtendedSpendingKey.fromStr
  cases hexDecode s <;> simp [Except.mapError, eq_comm]

/-! ## `from_str` -/

/-- **`from_str`.** On the hex of a seed, in lower or upper case, `from_str` returns the
master key of the seed. It accepts exactly the strings of even length whose every byte
is a hex digit; an odd length is refused with `OddLength`, and any other refusal names
the first byte that is not a digit, at its position. Every refusal is `InvalidData`. -/
theorem fromStr_hexEncode (seed s : List UInt8) :
    ExtendedSpendingKey.fromStr S (hexEncode false seed) = .ok (ExtendedSpendingKey.master S seed) ∧
    ExtendedSpendingKey.fromStr S (hexEncode true seed) = .ok (ExtendedSpendingKey.master S seed) ∧
    ((∃ xsk, ExtendedSpendingKey.fromStr S s = .ok xsk) ↔
      s.length % 2 = 0 ∧ ∀ c ∈ s, IsHexDigit c) ∧
    (s.length % 2 = 1 → ExtendedSpendingKey.fromStr S s = .error ⟨.invalidData, .oddLength⟩) ∧
    ∀ e, ExtendedSpendingKey.fromStr S s = .error e → e.kind = .invalidData ∧
      (e.error = .oddLength ∧ s.length % 2 = 1 ∨
        ∃ pre c post, s = pre ++ c :: post ∧ (∀ d ∈ pre, IsHexDigit d) ∧ ¬IsHexDigit c ∧
          e.error = .invalidHexCharacter (Char.ofNat c.toNat) pre.length) := by
  refine ⟨(fromStr_eq_ok S).mpr ⟨seed, hexDecode_hexEncode false seed, rfl⟩,
    (fromStr_eq_ok S).mpr ⟨seed, hexDecode_hexEncode true seed, rfl⟩, ?_, fun hodd => ?_,
    fun e he => ?_⟩
  · rw [← hexDecode_ok_iff]
    exact ⟨fun ⟨_, h⟩ => let ⟨v, hv, _⟩ := (fromStr_eq_ok S).mp h; ⟨v, hv⟩,
      fun ⟨v, hv⟩ => ⟨_, (fromStr_eq_ok S).mpr ⟨v, hv, rfl⟩⟩⟩
  · exact (fromStr_eq_error S).mpr ⟨.oddLength, by rw [hexDecode, if_pos (by omega)], rfl⟩
  · obtain ⟨x, hx, rfl⟩ := (fromStr_eq_error S).mp he
    exact ⟨rfl, hexDecode_eq_error hx⟩

end Masp.Zip32
