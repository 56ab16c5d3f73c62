/-
Byte strings and the byte-level reading and writing both source files do:
fixed arrays `[u8; n]`, the little-endian integers of `LittleEndian::write_u32`,
`i64::to_le_bytes` and the 11-byte diversifier index, and the `std::io::Read`
that a `read` function consumes, modelled as the list of bytes not yet read.

A read either returns a value and leaves the rest of the input, or fails with
an `io::Error`; `?` propagates the error, which `StateT` over `Except` does.
A `panic!` is not an `io::Error`: code that can panic returns `Except Panic`.
-/
import Mathlib.Algebra.Group.Nat.Basic
import Mathlib.Algebra.Ring.Int.Defs
import Mathlib.Data.Nat.Digits
import Mathlib.Data.Vector.Defs

namespace Masp

/-- A fixed-size byte array `[u8; n]`. -/
abbrev Bytes (n : Nat) := Mathlib.Vector UInt8 n

/-! ## Little-endian digits

`LittleEndian::write_u32`, `i64::to_le_bytes`, the diversifier index and the bit strings
of FF1 all spell a number by its lowest digits, least significant first, in base 256 or
2. What such digits satisfy is proved once here, over `Nat.ofDigits`. -/

/-- The `w` lowest base-`b` digits of `n`, least significant first. -/
def digitsLE (b : Nat) : Nat → Nat → List Nat
  | 0, _ => []
  | w + 1, n => n % b :: digitsLE b w (n / b)

@[simp] theorem length_digitsLE (b w n : Nat) : (digitsLE b w n).length = w := by
  induction w generalizing n <;> simp [digitsLE, *]

theorem lt_of_mem_digitsLE {b w n d : Nat} (hb : 0 < b) (h : d ∈ digitsLE b w n) : d < b := by
  induction w generalizing n with
  | zero => simp [digitsLE] at h
  | succ w ih =>
    rcases List.mem_cons.mp h with rfl | h
    · exact Nat.mod_lt _ hb
    · exact ih h

theorem ofDigits_digitsLE (b w n : Nat) : Nat.ofDigits b (digitsLE b w n) = n % b ^ w := by
  induction w generalizing n with
  | zero => simp [digitsLE, Nat.mod_one]
  | succ w ih => rw [digitsLE, Nat.ofDigits_cons, ih, Nat.pow_succ, Nat.mul_comm _ b, Nat.mod_mul]

theorem digitsLE_ofDigits {b : Nat} {l : List Nat} (hl : ∀ d ∈ l, d < b) :
    digitsLE b l.length (Nat.ofDigits b l) = l := by
  induction l with
  | nil => rfl
  | cons d l ih =>
    have hd := hl d (List.mem_cons_self _ _)
    rw [List.length_cons, digitsLE, Nat.ofDigits_cons, Nat.add_mul_mod_self_left, Nat.mod_eq_of_lt hd,
      Nat.add_mul_div_left _ _ (by omega), Nat.div_eq_of_lt hd, Nat.zero_add,
      ih fun d' h => hl d' (List.mem_cons_of_mem _ h)]

/-! ## Little-endian integers -/

/-- The `w` little-endian bytes of `n`; what lies above `8 * w` bits is dropped. -/
def leBytes : Nat → Nat → List UInt8
  | 0, _ => []
  | w + 1, n => UInt8.ofNat (n % 256) :: leBytes w (n / 256)

/-- The number a list of bytes spells, least significant byte first. -/
def leValue : List UInt8 → Nat
  | [] => 0
  | b :: bs => b.toNat + 256 * leValue bs

@[simp] theorem leValue_nil : leValue [] = 0 := rfl

@[simp] theorem leValue_cons (b : UInt8) (bs : List UInt8) :
    leValue (b :: bs) = b.toNat + 256 * leValue bs := rfl

theorem leBytes_eq_digitsLE (w n : Nat) : leBytes w n = (digitsLE 256 w n).map UInt8.ofNat := by
  induction w generalizing n with
  | zero => rfl
  | succ w ih => rw [leBytes, ih]; rfl

theorem leValue_eq_ofDigits (l : List UInt8) : leValue l = Nat.ofDigits 256 (l.map UInt8.toNat) := by
  induction l with
  | nil => rfl
  | cons b bs ih => rw [leValue_cons, ih]; rfl

@[simp] theorem length_leBytes (w n : Nat) : (leBytes w n).length = w := by
  simp [leBytes_eq_digitsLE]

theorem UInt8.toNat_ofNat (n : Nat) : (UInt8.ofNat n).toNat = n % 256 := rfl

theorem UInt8.ofNat_toNat (b : UInt8) : UInt8.ofNat b.toNat = b := by
  cases b; simp [UInt8.ofNat, UInt8.toNat]

theorem UInt8.toNat_lt_of_mem {l : List UInt8} {d : Nat} (h : d ∈ l.map UInt8.toNat) : d < 256 := by
  obtain ⟨b, -, rfl⟩ := List.mem_map.mp h
  exact b.toNat_lt_size

theorem leValue_leBytes (w n : Nat) : leValue (leBytes w n) = n % 256 ^ w := by
  rw [leValue_eq_ofDigits, leBytes_eq_digitsLE, List.map_map, ← ofDigits_digitsLE]
  exact congrArg _ ((List.map_congr_left fun d hd =>
    Nat.mod_eq_of_lt (lt_of_mem_digitsLE (by decide) hd)).trans (List.map_id _))

theorem leValue_lt (l : List UInt8) : leValue l < 256 ^ l.length := by
  rw [leValue_eq_ofDigits, ← List.length_map l UInt8.toNat]
  exact Nat.ofDigits_lt_base_pow_length (by decide) fun _ => UInt8.toNat_lt_of_mem

theorem leBytes_leValue (l : List UInt8) : leBytes l.length (leValue l) = l := by
  rw [leValue_eq_ofDigits, leBytes_eq_digitsLE, ← List.length_map l UInt8.toNat,
    digitsLE_ofDigits fun _ => UInt8.toNat_lt_of_mem, List.map_map]
  exact (List.map_congr_left fun b _ => UInt8.ofNat_toNat b).trans (List.map_id _)

/-- Two byte strings of one length are equal when they spell the same number. -/
theorem leValue_inj {l l' : List UInt8} (hl : l.length = l'.length)
    (h : leValue l = leValue l') : l = l' := by
  rw [← leBytes_leValue l, ← leBytes_leValue l', hl, h]

/-! ## Errors -/

/-- The `std::io::ErrorKind`s the modelled readers return. -/
inductive ErrorKind where
  | unexpectedEof
  | invalidData
  deriving DecidableEq, Repr

/-- An `std::io::Error`: its kind and its message. -/
structure IoError where
  kind : ErrorKind
  msg : String
  deriving DecidableEq, Repr

/-- A `panic!`, with its message. -/
structure Panic where
  msg : String
  deriving DecidableEq, Repr

@[simp] theorem Except.ok_bind {ε α β : Type} (a : α) (f : α → Except ε β) :
    (Except.ok a : Except ε α) >>= f = f a := rfl

@[simp] theorem Except.error_bind {ε α β : Type} (e : ε) (f : α → Except ε β) :
    (Except.error e : Except ε α) >>= f = .error e := rfl

/-- What a successful `x >>= f` did in `Except`: `x` returned, and `f` returned on its
value. -/
theorem Except.bind_eq_ok {ε α β : Type} {x : Except ε α} {f : α → Except ε β} {b : β} :
    x >>= f = .ok b ↔ ∃ a, x = .ok a ∧ f a = .ok b := by
  cases x <;> simp [bind, Except.bind]

/-- What a failed `x >>= f` did in `Except`: `x` failed, or `f` failed on what it returned. -/
theorem Except.bind_eq_error {ε α β : Type} {x : Except ε α} {f : α → Except ε β} {e : ε} :
    x >>= f = .error e ↔ x = .error e ∨ ∃ a, x = .ok a ∧ f a = .error e := by
  cases x <;> simp [bind, Except.bind]

/-! ## Reading -/

/-- A `std::io::Read` over the bytes not yet read. -/
abbrev Read := StateT (List UInt8) (Except IoError)

/-- `read_exact` into `[u8; n]`: the next `n` bytes, or `UnexpectedEof` when fewer
are left. -/
def readExact (n : Nat) : Read (Bytes n) := fun s =>
  if h : n ≤ s.length then .ok (⟨s.take n, by simp [Nat.min_eq_left h]⟩, s.drop n)
  else .error ⟨.unexpectedEof, "failed to fill whole buffer"⟩

/-- `ReadBytesExt::read_u8`. -/
def readU8 : Read UInt8 := do
  let b ← readExact 1
  pure b.head

/-- `ReadBytesExt::read_u32::<LittleEndian>`. -/
def readU32LE : Read UInt32 := do
  let b ← readExact 4
  pure (UInt32.ofNat (leValue b.toList))

/-- `WriteBytesExt::write_u32::<LittleEndian>`: the bytes it writes. -/
def writeU32LE (x : UInt32) : List UInt8 := leBytes 4 x.toNat

section
variable {α β : Type} {x : Read α} {f : α → Read β} {s s' s'' : List UInt8}

@[simp] theorem run_pure (a : α) (s : List UInt8) : (pure a : Read α).run s = .ok (a, s) := rfl

theorem run_bind {a : α} (h : x.run s = .ok (a, s')) : (x >>= f).run s = (f a).run s' := by
  change (do let (a, s) ← x s; f a s) = _
  simp only [StateT.run] at h
  rw [h]
  rfl

/-- What a successful `x >>= f` did: `x` returned, and `f` ran on what it left. -/
theorem run_bind_ok {b : β} (h : (x >>= f).run s = .ok (b, s'')) :
    ∃ a s', x.run s = .ok (a, s') ∧ (f a).run s' = .ok (b, s'') := by
  change (do let (a, s) ← x s; f a s) = _ at h
  cases hx : x s with
  | error e => rw [hx] at h; cases h
  | ok p => rw [hx] at h; exact ⟨p.1, p.2, hx, h⟩

end

theorem readExact_append (l : List UInt8) (h : l.length = n) (rest : List UInt8) :
    (readExact n).run (l ++ rest) = .ok (⟨l, h⟩, rest) := by
  subst h
  simp [readExact, StateT.run]

/-- `read_exact` succeeds only on a prefix of the input, which it returns. -/
theorem readExact_ok {v : Bytes n} {s rest : List UInt8}
    (h : (readExact n).run s = .ok (v, rest)) : s = v.toList ++ rest := by
  simp only [readExact, StateT.run] at h
  split at h
  · cases h; exact (List.take_append_drop n s).symm
  · cases h

theorem readU8_cons (b : UInt8) (rest : List UInt8) : readU8.run (b :: rest) = .ok (b, rest) :=
  run_bind (readExact_append [b] rfl rest)

theorem readU8_ok {b : UInt8} {s rest : List UInt8} (h : readU8.run s = .ok (b, rest)) :
    s = b :: rest := by
  obtain ⟨⟨l, hl⟩, s', h1, h2⟩ := run_bind_ok h
  obtain ⟨⟩ := h2
  match l, hl with
  | [c], _ => exact readExact_ok h1

theorem leValue_writeU32LE (x : UInt32) : leValue (writeU32LE x) = x.toNat := by
  rw [writeU32LE, leValue_leBytes, Nat.mod_eq_of_lt (show x.toNat < 256 ^ 4 from x.toNat_lt_size)]

theorem readU32LE_append (x : UInt32) (rest : List UInt8) :
    readU32LE.run (writeU32LE x ++ rest) = .ok (x, rest) := by
  rw [readU32LE, run_bind (readExact_append (writeU32LE x) (length_leBytes 4 _) rest)]
  simp only [Mathlib.Vector.toList_mk, leValue_writeU32LE, run_pure]
  rw [UInt32.toNat.inj (UInt32.toNat_ofNat_of_lt x.toNat_lt_size)]

theorem readU32LE_ok {x : UInt32} {s rest : List UInt8} (h : readU32LE.run s = .ok (x, rest)) :
    s = writeU32LE x ++ rest := by
  obtain ⟨v, s', h1, h2⟩ := run_bind_ok h
  obtain ⟨⟩ := h2
  have hv : leValue v.toList < UInt32.size := by
    simpa [v.toList_length] using leValue_lt v.toList
  have hl := leBytes_leValue v.toList
  rw [v.toList_length] at hl
  rw [readExact_ok h1, writeU32LE, UInt32.toNat_ofNat_of_lt hv, hl]

end Masp
