/-
`Amount::read` and `Amount::write` of `amount.rs`.

`write` emits the components in key order, each as a 32-byte asset identifier
and the 8 little-endian bytes of the `i64`, behind the length prefix of
`Vector::write`. `read` decodes such a list and then folds `+=` over the
`Amount::from` singletons (`readLoop`). An entry out of range is an
`InvalidData` error, but a sum out of range is the panic of `Add`
(`read_repeated_maxMoney_panics`). On what `write` emits for a valid amount the
fold adds each component to an amount holding only smaller asset types, so it
appends it, and `read` rebuilds the map (`read_write_of_valid`). On any amount whose
quantities are in range the fold skips each 0, so the round trip drops the zero
quantities and gives back exactly the valid amounts (`read_write_drops_zeros`).
`read_returns_iff` says which inputs `read` accepts: those whose running totals per
asset type stay in range; `read_errors` says how it refuses the others.

`Vector` (`serialize.rs`) and `AssetType`'s identifier encoding are not in the
source; they are the fields of `AssetCodec`, with the laws these proofs need
stated as hypotheses.

Last, `Reachable` collects the amounts a program builds from the constructors and
`read` with `+`, `-`, `Sum`, `project`, `reject` and those `*` that leave no
zero product; every one of them is valid (`Reachable.valid`).
-/
import Mathlib.Order.Fin.Basic
import Masp.Amount.Mul

namespace Masp

variable {K : Type} [LinearOrder K]

/-- What `Amount::read` and `Amount::write` call and `amount.rs` does not define:
`AssetType::from_identifier`, `AssetType::get_identifier`, and the length prefix
of `Vector`. -/
structure AssetCodec (K : Type) where
  fromIdentifier : Bytes 32 → Option K
  getIdentifier : K → Bytes 32
  readLength : Read Nat
  writeLength : Nat → List UInt8

namespace AssetCodec

/-- `from_identifier` recognises what `get_identifier` returns. -/
def IdentifierRoundTrips (C : AssetCodec K) : Prop :=
  ∀ t, C.fromIdentifier (C.getIdentifier t) = some t

/-- The length prefix reads back the length written. -/
def LengthRoundTrips (C : AssetCodec K) : Prop :=
  ∀ n rest, C.readLength.run (C.writeLength n ++ rest) = .ok (n, rest)

end AssetCodec

/-! ## `Vector` -/

section Vector
variable {α : Type}

/-- `count` elements, each read by `func`. -/
def readN (func : Read α) : Nat → Read (List α)
  | 0 => pure []
  | n + 1 => do
    let a ← func
    let as ← readN func n
    pure (a :: as)

/-- Modelled from the spec: `Vector::read` of `serialize.rs`, the length prefix and
then that many elements. -/
def vectorRead (readLength : Read Nat) (func : Read α) : Read (List α) := do
  let count ← readLength
  readN func count

/-- Modelled from the spec: `Vector::write` of `serialize.rs`. -/
def vectorWrite (writeLength : Nat → List UInt8) (func : α → List UInt8) (vec : List α) :
    List UInt8 :=
  writeLength vec.length ++ (vec.map func).flatten

theorem readN_append {func : Read α} {write : α → List UInt8}
    (h : ∀ a rest, func.run (write a ++ rest) = .ok (a, rest)) (l : List α) (rest : List UInt8) :
    (readN func l.length).run ((l.map write).flatten ++ rest) = .ok (l, rest) := by
  induction l with
  | nil => rfl
  | cons a l ih =>
    simp only [List.length_cons, readN, List.map_cons, List.flatten_cons, List.append_assoc]
    rw [run_bind (h a _), run_bind ih, run_pure]

theorem vectorRead_write {readLength : Read Nat} {writeLength : Nat → List UInt8}
    (hlen : ∀ n rest, readLength.run (writeLength n ++ rest) = .ok (n, rest)) {func : Read α}
    {write : α → List UInt8} (h : ∀ a rest, func.run (write a ++ rest) = .ok (a, rest))
    (l : List α) (rest : List UInt8) :
    (vectorRead readLength func).run (vectorWrite writeLength write l ++ rest) = .ok (l, rest) := by
  rw [vectorRead, vectorWrite, List.append_assoc, run_bind (hlen _ _), readN_append h]

end Vector

/-! ## `Amount::read` and `Amount::write` -/

/-- `i64::from_le_bytes`. -/
def i64FromLeBytes (value : Bytes 8) : I64 := BitVec.ofNat 64 (leValue value.toList)

/-- `i64::to_le_bytes`. -/
def i64ToLeBytes (x : I64) : List UInt8 := leBytes 8 x.toNat

/-- The closure `Amount::read` passes to `Vector::read`. -/
def readEntry (C : AssetCodec K) : Read (K × I64) := do
  let atype ← readExact 32
  let value ← readExact 8
  match C.fromIdentifier atype with
  | some atype => pure (atype, i64FromLeBytes value)
  | none => throw ⟨.invalidData, "invalid asset type"⟩

/-- The closure `Amount::write` passes to `Vector::write`. -/
def writeEntry (C : AssetCodec K) (elt : K × I64) : List UInt8 :=
  (C.getIdentifier elt.1).toList ++ i64ToLeBytes elt.2

namespace Amount

/-- The loop of `Amount::read`: `ret += Amount::from(atype, amt)` for each decoded
entry. A `from` error is an `InvalidData` error; `+=` may panic. -/
def readLoop (ret : Amount K) : List (K × I64) → Except Panic (Except IoError (Amount K))
  | [] => pure (.ok ret)
  | (atype, amt) :: rest =>
    match Amount.from atype amt with
    | .error () => pure (.error ⟨.invalidData, "amount out of range"⟩)
    | .ok a => do
      let ret ← ret.addAssign a
      readLoop ret rest

/-- `Amount::read`: a panic, an `io::Error`, or the amount and the bytes not read. -/
def read (C : AssetCodec K) (s : List UInt8) :
    Except Panic (Except IoError (Amount K × List UInt8)) :=
  match (vectorRead C.readLength (readEntry C)).run s with
  | .error e => pure (.error e)
  | .ok (vec, rest) => (readLoop zero vec).map fun r => r.map (·, rest)

/-- `Amount::write`: the components in key order, behind the length prefix. -/
def write (C : AssetCodec K) (a : Amount K) : List UInt8 :=
  vectorWrite C.writeLength (writeEntry C) a.components

end Amount

/-! ## Decoding what was encoded -/

theorem i64FromLeBytes_toLeBytes (x : I64) :
    i64FromLeBytes ⟨i64ToLeBytes x, length_leBytes _ _⟩ = x := by
  apply BitVec.eq_of_toNat_eq
  rw [i64FromLeBytes, Mathlib.Vector.toList_mk, i64ToLeBytes, BitVec.toNat_ofNat, leValue_leBytes,
    Nat.mod_mod_of_dvd _ (by decide), Nat.mod_eq_of_lt x.isLt]

omit [LinearOrder K] in
theorem readEntry_writeEntry {C : AssetCodec K} (hid : C.IdentifierRoundTrips) (elt : K × I64)
    (rest : List UInt8) : (readEntry C).run (writeEntry C elt ++ rest) = .ok (elt, rest) := by
  rw [readEntry, writeEntry, List.append_assoc,
    run_bind (readExact_append _ (Mathlib.Vector.toList_length _) _),
    run_bind (readExact_append (i64ToLeBytes elt.2) (length_leBytes _ _) _)]
  have hb : (⟨(C.getIdentifier elt.1).toList, Mathlib.Vector.toList_length _⟩ : Bytes 32) =
    C.getIdentifier elt.1 := rfl
  simp only [hb, hid elt.1, i64FromLeBytes_toLeBytes, run_pure]

/-! ## A concrete codec

Asset types are the numbers their 32 little-endian identifier bytes spell, and the
length prefix is unary. Both laws of `AssetCodec` hold of it. -/

/-- A length prefix in unary: `n` ones, then a zero. -/
def readUnary : List UInt8 → Except IoError (Nat × List UInt8)
  | [] => .error ⟨.unexpectedEof, "failed to fill whole buffer"⟩
  | b :: s => if b = 0 then .ok (0, s) else (readUnary s).map fun (n, r) => (n + 1, r)

/-- Asset types are the numbers the 32 identifier bytes spell. -/
def toyCodec : AssetCodec (Fin (256 ^ 32)) where
  fromIdentifier b := some ⟨leValue b.toList, by simpa using leValue_lt b.toList⟩
  getIdentifier t := ⟨leBytes 32 t.val, length_leBytes _ _⟩
  readLength := readUnary
  writeLength n := List.replicate n 1 ++ [0]

theorem toyCodec_identifierRoundTrips : toyCodec.IdentifierRoundTrips := fun t => by
  simp only [toyCodec, Mathlib.Vector.toList_mk, leValue_leBytes, Nat.mod_eq_of_lt t.isLt]

theorem toyCodec_lengthRoundTrips : toyCodec.LengthRoundTrips := fun n rest => by
  induction n with
  | zero => rfl
  | succ n ih =>
    change (readUnary (List.replicate n 1 ++ [0] ++ rest)).map _ = _
    rw [show readUnary (List.replicate n 1 ++ [0] ++ rest) = .ok (n, rest) from ih]
    rfl

namespace Amount

/-! ## The loop of `read` -/

section ReadLoop
variable {acc r : Amount K} {es : List (K × I64)}

theorem readLoop_cons_ok {atype : K} {amt : I64} {a : Amount K}
    (h : Amount.from atype amt = .ok a) :
    readLoop acc ((atype, amt) :: es) = acc.addAssign a >>= fun ret => readLoop ret es := by
  rw [readLoop, h]

theorem addAssign_insert_empty (t : K) (x : I64) :
    acc.addAssign ⟨BTreeMap.empty.insert t x⟩ =
      combineStep (· + ·) "addition should remain in range" acc (t, x) >>= pure :=
  rfl

/-- `+=` of a singleton whose asset type `acc` does not hold inserts it. -/
theorem addAssign_insert_of_get_eq_none {t : K} {v : I64} (hget : acc.map.get t = none)
    (hv0 : v ≠ 0) (hv : -maxMoney ≤ v.toInt ∧ v.toInt ≤ maxMoney) :
    acc.addAssign ⟨BTreeMap.empty.insert t v⟩ = .ok ⟨acc.map.insert t v⟩ := by
  have hi : acc.index t + v = v := by rw [index_eq, hget]; simp
  rw [addAssign_insert_empty, combineStep, hi, if_neg hv0, if_pos hv, Except.ok_bind]
  rfl

/-- `+=` of a singleton panics when the sum leaves the range. -/
theorem addAssign_insert_error {t : K} {v : I64} (hout : ¬InRange (acc.index t + v).toInt) :
    acc.addAssign ⟨BTreeMap.empty.insert t v⟩ = .error ⟨"addition should remain in range"⟩ := by
  rw [addAssign_insert_empty, combineStep]
  split
  · next h0 =>
    have h0 : acc.index t + v = 0 := h0
    exact absurd (by rw [h0]; exact InRange.zero) hout
  · split
    · next h => exact absurd h hout
    · rfl

/-- One turn of the loop of `read`: the entry passed `from`, and `+=` returned. -/
theorem readLoop_cons_eq_ok {atype : K} {amt : I64} (h : readLoop acc ((atype, amt) :: es) = .ok (.ok r)) :
    ∃ a acc', Amount.from atype amt = .ok a ∧ acc.addAssign a = .ok acc' ∧
      readLoop acc' es = .ok (.ok r) := by
  cases hf : Amount.from atype amt with
  | error u => rw [readLoop, hf] at h; cases h
  | ok a =>
    rw [readLoop_cons_ok hf] at h
    obtain ⟨acc', h1, h2⟩ := Except.bind_eq_ok.mp h
    exact ⟨a, acc', rfl, h1, h2⟩

/-- What `read` accumulates keeps the invariant. -/
theorem Valid.readLoop (ha : acc.Valid) (h : readLoop acc es = .ok (.ok r)) : r.Valid := by
  induction es generalizing acc with
  | nil => cases h; exact ha
  | cons e rest ih =>
    obtain ⟨_, acc', _, h1, h2⟩ := readLoop_cons_eq_ok h
    exact ih (ha.combine h1) h2

/-- What `read` accumulates at `t` is the sum of the quantities decoded for `t`. -/
theorem index_readLoop (ha : acc.Valid) (h : readLoop acc es = .ok (.ok r)) (t : K) :
    (r.index t).toInt = (acc.index t).toInt + ((es.filter (·.1 = t)).map (·.2.toInt)).sum := by
  induction es generalizing acc with
  | nil => cases h; simp
  | cons e rest ih =>
    obtain ⟨atype, amt⟩ := e
    obtain ⟨a, acc', hf, h1, h2⟩ := readLoop_cons_eq_ok h
    rw [ih (ha.combine h1) h2, add_index ha (Valid.of_from hf) h1, index_ofRange hf, List.filter_cons]
    by_cases ht : atype = t <;> simp [ht, Int.add_assoc]

/-- `from(atype, amt)` returns exactly when `amt` is in range. -/
theorem from_ok_iff {atype : K} {amt : I64} : (∃ a, Amount.from atype amt = .ok a) ↔ InRange amt.toInt :=
  ⟨fun ⟨_, hf⟩ => by
    rcases ofRange_eq_ok hf with ⟨rfl, -⟩ | ⟨-, h1, h2, -⟩
    · exact InRange.zero
    · exact ⟨h1, h2⟩, fun h => ofRange_ok h.1 h.2⟩

/-- After one `+=` of `from(atype, amt)`, the running totals of the rest continue those
of the whole list. -/
theorem readLoop_totals_step {atype : K} {amt : I64} {a acc' : Amount K} (ha : acc.Valid)
    (hf : Amount.from atype amt = .ok a) (h1 : acc.add a = .ok acc') (n : Nat) (t : K) :
    (acc'.index t).toInt + (((es.take n).filter (·.1 = t)).map (·.2.toInt)).sum =
      (acc.index t).toInt +
        (((((atype, amt) :: es).take (n + 1)).filter (·.1 = t)).map (·.2.toInt)).sum := by
  rw [add_index ha (Valid.of_from hf) h1, index_ofRange hf, List.take_succ_cons, List.filter_cons]
  by_cases ht : atype = t <;> simp [ht, Int.add_assoc]

/-- The loop of `read` returns an amount exactly when every quantity is in range and every
running total per asset type stays in range. -/
theorem readLoop_ok_iff (ha : acc.Valid) :
    (∃ r, readLoop acc es = .ok (.ok r)) ↔ (∀ e ∈ es, InRange e.2.toInt) ∧
      ∀ n t, InRange ((acc.index t).toInt + (((es.take n).filter (·.1 = t)).map (·.2.toInt)).sum) := by
  induction es generalizing acc with
  | nil => exact ⟨fun _ => ⟨nofun, fun n t => by simpa using ha.index t⟩, fun _ => ⟨acc, rfl⟩⟩
  | cons e rest ih =>
    obtain ⟨atype, amt⟩ := e
    rw [List.forall_mem_cons]
    constructor
    · rintro ⟨r, h⟩
      obtain ⟨a, acc', hf, h1, h2⟩ := readLoop_cons_eq_ok h
      obtain ⟨hrest, htot⟩ := (ih (ha.combine h1)).mp ⟨r, h2⟩
      refine ⟨⟨from_ok_iff.mp ⟨a, hf⟩, hrest⟩, fun n t => ?_⟩
      cases n with
      | zero => simpa using ha.index t
      | succ n => rw [← readLoop_totals_step ha hf h1]; exact htot n t
    · rintro ⟨⟨hamt, hrest⟩, htot⟩
      obtain ⟨a, hf⟩ : ∃ a, Amount.from atype amt = .ok a := from_ok_iff.mpr hamt
      obtain ⟨acc', h1⟩ := (add_ok_iff ha (Valid.of_from hf)).mpr fun t => by
        rw [index_ofRange hf]
        by_cases ht : atype = t <;> simpa [ht] using htot 1 t
      obtain ⟨r, h2⟩ := (ih (ha.combine h1)).mpr
        ⟨hrest, fun n t => by rw [readLoop_totals_step ha hf h1]; exact htot (n + 1) t⟩
      exact ⟨r, by rw [readLoop_cons_ok hf, addAssign_eq, h1, Except.ok_bind]; exact h2⟩

/-- The loop of `read` panics only with the panic of `Add`, and returns an `io::Error` only
when it reached a quantity out of range. -/
theorem readLoop_errors (acc : Amount K) (es : List (K × I64)) :
    (∀ p, readLoop acc es = .error p → p = ⟨"addition should remain in range"⟩) ∧
    ∀ e, readLoop acc es = .ok (.error e) →
      e = ⟨.invalidData, "amount out of range"⟩ ∧ ∃ x ∈ es, ¬InRange x.2.toInt := by
  induction es generalizing acc with
  | nil => exact ⟨fun _ h => (nomatch h), fun _ h => (nomatch h)⟩
  | cons x rest ih =>
    obtain ⟨atype, amt⟩ := x
    cases hf : Amount.from atype amt with
    | error u =>
      have hout : ¬InRange amt.toInt := fun hin => by
        obtain ⟨a, ha⟩ : ∃ a : Amount K, Amount.from atype amt = .ok a := from_ok_iff.mpr hin
        rw [hf] at ha
        cases ha
      simp only [readLoop, hf]
      exact ⟨fun _ h => (nomatch h), fun e h => ⟨by cases h; rfl, _, List.mem_cons_self _ _, hout⟩⟩
    | ok a =>
      rw [readLoop_cons_ok hf]
      refine ⟨fun p h => ?_, fun e h => ?_⟩
      · rcases Except.bind_eq_error.mp h with h | ⟨acc', -, h⟩
        · exact foldlM_combineStep_eq_error h
        · exact (ih acc').1 p h
      · obtain ⟨acc', -, h⟩ := Except.bind_eq_ok.mp h
        obtain ⟨he, x, hx, hxr⟩ := (ih acc').2 e h
        exact ⟨he, x, List.mem_cons_of_mem _ hx, hxr⟩

/-- On entries in key order whose quantities are in range, each `+=` of a nonzero
quantity appends its entry, and `+=` of `from(t, 0)`, the zero amount, changes nothing. -/
theorem readLoop_append_filter (hs : ((acc.map.entries ++ es).map Prod.fst).Pairwise (· < ·))
    (hes : ∀ e ∈ es, InRange e.2.toInt) :
    ∃ r, readLoop acc es = .ok (.ok r) ∧ r.map.entries = acc.map.entries ++ es.filter (·.2 ≠ 0) := by
  induction es generalizing acc with
  | nil => exact ⟨acc, rfl, by simp⟩
  | cons e rest ih =>
    obtain ⟨t, v⟩ := e
    have hv : -maxMoney ≤ v.toInt ∧ v.toInt ≤ maxMoney := hes (t, v) (List.mem_cons_self _ _)
    have hrest : ∀ e ∈ rest, InRange e.2.toInt := fun e he => hes e (List.mem_cons_of_mem _ he)
    have hs' : (acc.map.keys ++ t :: rest.map Prod.fst).Pairwise (· < ·) := by simpa using hs
    by_cases hv0 : v = 0
    · subst hv0
      have hsr : ((acc.map.entries ++ rest).map Prod.fst).Pairwise (· < ·) := by
        simpa using hs'.sublist ((List.sublist_cons_self t _).append_left _)
      have hfrom : Amount.from t (0 : I64) = .ok (zero : Amount K) := rfl
      have hzero : acc.addAssign zero = .ok acc := rfl
      obtain ⟨r, hr, hre⟩ := ih hsr hrest
      exact ⟨r, by rw [readLoop_cons_ok hfrom, hzero, Except.ok_bind]; exact hr, by simpa using hre⟩
    · have hlt : ∀ k ∈ acc.map.keys, k < t := fun k hk =>
        (List.pairwise_append.mp hs').2.2 k hk t (List.mem_cons_self _ _)
      have hfrom : Amount.from t v = .ok ⟨BTreeMap.empty.insert t v⟩ := by
        simp only [Amount.from, ofRange, if_neg hv0, if_pos hv]
      have hstep := addAssign_insert_of_get_eq_none
        (getEntry_eq_none fun hm => lt_irrefl t (hlt t hm)) hv0 hv
      have hentries : (acc.map.insert t v).entries = acc.map.entries ++ [(t, v)] :=
        BTreeMap.entries_insert_of_lt hlt v
      have hs'' : (((⟨acc.map.insert t v⟩ : Amount K).map.entries ++ rest).map Prod.fst).Pairwise
          (· < ·) := by simpa [hentries] using hs
      obtain ⟨r, hr, hre⟩ := ih hs'' hrest
      refine ⟨r, by rw [readLoop_cons_ok hfrom, hstep]; exact hr, ?_⟩
      rw [hre, hentries, List.filter_cons_of_pos (by simpa using hv0), List.append_assoc,
        List.singleton_append]

/-- On the components of a valid amount, in key order, each `+=` appends its component. -/
theorem readLoop_append (hs : ((acc.map.entries ++ es).map Prod.fst).Pairwise (· < ·))
    (hes : ∀ e ∈ es, e.2 ≠ 0 ∧ InRange e.2.toInt) :
    ∃ r, readLoop acc es = .ok (.ok r) ∧ r.map.entries = acc.map.entries ++ es := by
  obtain ⟨r, hr, hre⟩ := readLoop_append_filter hs fun e he => (hes e he).2
  exact ⟨r, hr, by rw [hre, List.filter_eq_self.mpr fun e he => by simpa using (hes e he).1]⟩

end ReadLoop

/-! ## `read` -/

section Read
variable {C : AssetCodec K} {s rest : List UInt8} {a : Amount K}

/-- What a successful `read` did: `Vector::read` decoded a list, and the loop added it up
without error. -/
theorem read_ok (h : read C s = .ok (.ok (a, rest))) :
    ∃ vec, (vectorRead C.readLength (readEntry C)).run s = .ok (vec, rest) ∧
      readLoop zero vec = .ok (.ok a) := by
  unfold read at h
  split at h
  · cases h
  · next vec rest' hv =>
    cases hl : readLoop zero vec with
    | error p => rw [hl] at h; cases h
    | ok x =>
      rw [hl] at h
      cases x with
      | error e => cases h
      | ok a' => cases h; exact ⟨vec, hv, hl⟩

theorem read_vectorWrite (hid : C.IdentifierRoundTrips) (hlen : C.LengthRoundTrips)
    (vec : List (K × I64)) (rest : List UInt8) :
    read C (vectorWrite C.writeLength (writeEntry C) vec ++ rest) =
      (readLoop zero vec).map fun r => r.map (·, rest) := by
  rw [read, vectorRead_write hlen (readEntry_writeEntry hid)]

theorem Valid.read (h : read C s = .ok (.ok (a, rest))) : a.Valid :=
  let ⟨_, _, hl⟩ := read_ok h
  Valid.zero.readLoop hl

/-- `read` returns at each asset type the sum of the quantities decoded for it. -/
theorem index_read (h : read C s = .ok (.ok (a, rest))) :
    ∃ vec, (vectorRead C.readLength (readEntry C)).run s = .ok (vec, rest) ∧
      ∀ t, (a.index t).toInt = ((vec.filter (·.1 = t)).map (·.2.toInt)).sum := by
  obtain ⟨vec, hv, hl⟩ := read_ok h
  exact ⟨vec, hv, fun t => by simpa using index_readLoop Valid.zero hl t⟩

/-- **What `read` accepts.** `Amount::read` returns an amount exactly when `Vector::read`
decodes a list whose quantities are all in `[-MAX_MONEY, MAX_MONEY]` and whose running
totals per asset type stay in range; the amount it returns is valid and holds at each
asset type the total of the quantities decoded for it. -/
theorem read_returns_iff (C : AssetCodec K) (s : List UInt8) :
    ((∃ a rest, read C s = .ok (.ok (a, rest))) ↔
      ∃ vec rest, (vectorRead C.readLength (readEntry C)).run s = .ok (vec, rest) ∧
        (∀ e ∈ vec, InRange e.2.toInt) ∧
        ∀ n t, InRange ((((vec.take n).filter (·.1 = t)).map (·.2.toInt)).sum)) ∧
    ∀ a rest, read C s = .ok (.ok (a, rest)) → a.Valid ∧
      ∃ vec, (vectorRead C.readLength (readEntry C)).run s = .ok (vec, rest) ∧
        ∀ t, (a.index t).toInt = ((vec.filter (·.1 = t)).map (·.2.toInt)).sum := by
  refine ⟨⟨fun ⟨a, rest, h⟩ => ?_, fun ⟨vec, rest, hv, hin, htot⟩ => ?_⟩,
    fun _ _ h => ⟨Valid.read h, index_read h⟩⟩
  · obtain ⟨vec, hv, hl⟩ := read_ok h
    obtain ⟨hin, htot⟩ := (readLoop_ok_iff Valid.zero).mp ⟨a, hl⟩
    exact ⟨vec, rest, hv, hin, by simpa using htot⟩
  · obtain ⟨r, hl⟩ := (readLoop_ok_iff Valid.zero).mpr ⟨hin, by simpa using htot⟩
    exact ⟨r, rest, by simp only [read, hv, hl]; rfl⟩

/-- **What `read` refuses.** `Amount::read` panics only with the panic of `Add`; every
`io::Error` it returns is `Vector::read`'s, or `InvalidData` "amount out of range" after
`Vector::read` decoded a list holding a quantity out of range. -/
theorem read_errors (C : AssetCodec K) (s : List UInt8) :
    (∀ p, read C s = .error p → p = ⟨"addition should remain in range"⟩) ∧
    ∀ e, read C s = .ok (.error e) → (vectorRead C.readLength (readEntry C)).run s = .error e ∨
      e = ⟨.invalidData, "amount out of range"⟩ ∧ ∃ vec rest,
        (vectorRead C.readLength (readEntry C)).run s = .ok (vec, rest) ∧
          ∃ x ∈ vec, ¬InRange x.2.toInt := by
  unfold read
  split
  · next e' hv => exact ⟨fun _ h => (nomatch h), fun e h => .inl (by cases h; exact hv)⟩
  · next vec rest hv =>
    obtain ⟨hp, he⟩ := readLoop_errors zero vec
    cases hl : readLoop zero vec with
    | error p' => exact ⟨fun p h => by cases h; exact hp p' hl, fun _ h => (nomatch h)⟩
    | ok x =>
      refine ⟨fun _ h => (nomatch h), fun e h => .inr ?_⟩
      cases x with
      | error e' =>
        cases h
        obtain ⟨he', x, hx, hxr⟩ := he _ hl
        exact ⟨he', vec, rest, hv, x, hx, hxr⟩
      | ok a => cases h

/-- `read` decodes what `write` emits for a valid amount, and leaves the rest. -/
theorem read_write_of_valid (hid : C.IdentifierRoundTrips) (hlen : C.LengthRoundTrips)
    (ha : a.Valid) (rest : List UInt8) :
    read C (write C a ++ rest) = .ok (.ok (a, rest)) := by
  have hs : (((zero : Amount K).map.entries ++ a.map.entries).map Prod.fst).Pairwise (· < ·) :=
    a.map.sorted
  obtain ⟨r, hr, hre⟩ := readLoop_append hs fun e he => ha e he
  obtain rfl : r = a := by
    obtain ⟨⟨l, hl⟩⟩ := r
    obtain ⟨⟨l', hl'⟩⟩ := a
    obtain rfl : l = l' := hre
    rfl
  rw [write, read_vectorWrite hid hlen, components, hr]
  rfl

/-- Two assets, and one byte after them. -/
theorem read_write_of_valid_toy :
    toyCodec.IdentifierRoundTrips ∧ toyCodec.LengthRoundTrips ∧
      (⟨(BTreeMap.empty.insert 0 5).insert 2 (-3)⟩ : Amount (Fin (256 ^ 32))).Valid ∧
      read toyCodec (write toyCodec ⟨(BTreeMap.empty.insert 0 5).insert 2 (-3)⟩ ++ [7]) =
        .ok (.ok (⟨(BTreeMap.empty.insert 0 5).insert 2 (-3)⟩, [7])) :=
  ⟨toyCodec_identifierRoundTrips, toyCodec_lengthRoundTrips, by decide,
    read_write_of_valid toyCodec_identifierRoundTrips toyCodec_lengthRoundTrips (by decide) [7]⟩

theorem ext_components {a b : Amount K} (h : a.components = b.components) : a = b := by
  obtain ⟨⟨l, hl⟩⟩ := a
  obtain ⟨⟨l', hl'⟩⟩ := b
  obtain rfl : l = l' := h
  rfl

/-- **`write` then `read`.** For every amount whose quantities are in range, as every
operation leaves them, `read` of what `write` emits returns the amount without its zero
quantities, and leaves the rest. So the round trip gives back exactly the valid amounts: one
holding a 0, as `* 0` makes, comes back different. -/
theorem read_write_drops_zeros (hid : C.IdentifierRoundTrips) (hlen : C.LengthRoundTrips)
    (ha : ∀ e ∈ a.components, InRange e.2.toInt) (rest : List UInt8) :
    ∃ r, read C (write C a ++ rest) = .ok (.ok (r, rest)) ∧
      r.components = a.components.filter (·.2 ≠ 0) ∧ (r = a ↔ a.Valid) := by
  have hs : (((zero : Amount K).map.entries ++ a.map.entries).map Prod.fst).Pairwise (· < ·) :=
    a.map.sorted
  obtain ⟨r, hr, hre⟩ := readLoop_append_filter hs ha
  refine ⟨r, by rw [write, read_vectorWrite hid hlen, components, hr]; rfl, hre,
    fun h => h ▸ Valid.zero.readLoop hr, fun hv => ext_components ?_⟩
  rw [components, hre]
  exact List.filter_eq_self.mpr fun e he => by simpa using (hv e he).1

theorem read_write_drops_zeros_toy :
    toyCodec.IdentifierRoundTrips ∧ toyCodec.LengthRoundTrips ∧
      (∀ e ∈ (⟨BTreeMap.empty.insert 0 0⟩ : Amount (Fin (256 ^ 32))).components,
        InRange e.2.toInt) ∧
      ∃ r, read toyCodec (write toyCodec ⟨BTreeMap.empty.insert 0 0⟩ ++ []) = .ok (.ok (r, [])) ∧
        r.components =
          (⟨BTreeMap.empty.insert 0 0⟩ : Amount (Fin (256 ^ 32))).components.filter (·.2 ≠ 0) ∧
        (r = ⟨BTreeMap.empty.insert 0 0⟩ ↔
          (⟨BTreeMap.empty.insert 0 0⟩ : Amount (Fin (256 ^ 32))).Valid) :=
  ⟨toyCodec_identifierRoundTrips, toyCodec_lengthRoundTrips, by decide,
    read_write_drops_zeros toyCodec_identifierRoundTrips toyCodec_lengthRoundTrips (by decide) []⟩

/-- Two entries of `MAX_MONEY` for one asset type: each is in range, their sum is not,
and `+=` panics. -/
theorem read_repeated_maxMoney_panics (hid : C.IdentifierRoundTrips) (hlen : C.LengthRoundTrips)
    (t : K) (rest : List UInt8) :
    read C (vectorWrite C.writeLength (writeEntry C)
        [(t, 2100000000000000), (t, 2100000000000000)] ++ rest) =
      .error ⟨"addition should remain in range"⟩ := by
  have hfrom : Amount.from t 2100000000000000 = .ok ⟨BTreeMap.empty.insert t 2100000000000000⟩ :=
    rfl
  have h1 : (zero : Amount K).addAssign ⟨BTreeMap.empty.insert t 2100000000000000⟩ =
      .ok ⟨BTreeMap.empty.insert t 2100000000000000⟩ :=
    addAssign_insert_of_get_eq_none rfl (by decide) (by decide)
  have hi : (⟨BTreeMap.empty.insert t 2100000000000000⟩ : Amount K).index t = 2100000000000000 := by
    simp [index_eq]
  have h2 := addAssign_insert_error (by rw [hi]; decide :
    ¬InRange (((⟨BTreeMap.empty.insert t 2100000000000000⟩ : Amount K).index t) +
      2100000000000000).toInt)
  rw [read_vectorWrite hid hlen, readLoop_cons_ok hfrom, h1, Except.ok_bind, readLoop_cons_ok hfrom,
    h2]
  rfl

theorem read_repeated_maxMoney_panics_toy :
    toyCodec.IdentifierRoundTrips ∧ toyCodec.LengthRoundTrips ∧
      read toyCodec (vectorWrite toyCodec.writeLength (writeEntry toyCodec)
        [(0, 2100000000000000), (0, 2100000000000000)] ++ []) =
        .error ⟨"addition should remain in range"⟩ :=
  ⟨toyCodec_identifierRoundTrips, toyCodec_lengthRoundTrips,
    read_repeated_maxMoney_panics toyCodec_identifierRoundTrips toyCodec_lengthRoundTrips 0 []⟩

end Read

/-! ## The invariant over every program -/

/-- The amounts a program builds with the operations of `amount.rs`: `zero`, `from`,
`from_nonnegative` and `read`, then `+`, `-` (and so `+=`, `-=`), `Sum`, `project`,
`reject`, and those `*` that leave no stored quantity with a product of 0. -/
inductive Reachable (C : AssetCodec K) : Amount K → Prop
  | zero : Reachable C zero
  | ofFrom {t x a} : Amount.from t x = .ok a → Reachable C a
  | ofFromNonnegative {t x a} : fromNonnegative t x = .ok a → Reachable C a
  | ofRead {s a rest} : read C s = .ok (.ok (a, rest)) → Reachable C a
  | add {a b r} : Reachable C a → Reachable C b → a.add b = .ok r → Reachable C r
  | sub {a b r} : Reachable C a → Reachable C b → a.sub b = .ok r → Reachable C r
  | sum {l r} : (∀ a ∈ l, Reachable C a) → sum l = .ok r → Reachable C r
  | project {a t r} : Reachable C a → a.project t = .ok r → Reachable C r
  | reject {a t r} : Reachable C a → a.reject t = .ok r → Reachable C r
  | mul {a rhs r} : Reachable C a → a.mul rhs = .ok r → (∀ t ∈ a.assetTypes, a.index t * rhs ≠ 0) →
      Reachable C r

/-- Every reachable amount stores only nonzero quantities in range. -/
theorem Reachable.valid {C : AssetCodec K} {a : Amount K} (h : Reachable C a) : a.Valid := by
  induction h with
  | zero => exact .zero
  | ofFrom h => exact .of_from h
  | ofFromNonnegative h => exact .of_fromNonnegative h
  | ofRead h => exact .read h
  | add _ _ h iha => exact iha.combine h
  | sub _ _ h iha => exact iha.combine h
  | sum _ h => exact .sum h
  | project _ h => exact .of_from (unwrapUnit_eq_ok.mp h)
  | reject _ h iha =>
    obtain ⟨p, -, h⟩ := Except.bind_eq_ok.mp h
    exact iha.combine h
  | mul _ h hz => exact (valid_mul_iff h).mpr hz

/-- `(from(0, 5) + from(1, -3)) * 2`. -/
theorem reachable_add_mul_valid :
    Reachable toyCodec (⟨(BTreeMap.empty.insert 0 10).insert 1 (-6)⟩ : Amount (Fin (256 ^ 32))) ∧
      (⟨(BTreeMap.empty.insert 0 10).insert 1 (-6)⟩ : Amount (Fin (256 ^ 32))).Valid :=
  have h5 : Reachable toyCodec (⟨BTreeMap.empty.insert 0 5⟩ : Amount (Fin (256 ^ 32))) :=
    .ofFrom (show Amount.from _ (5 : I64) = _ from rfl)
  have h3 : Reachable toyCodec (⟨BTreeMap.empty.insert 1 (-3)⟩ : Amount (Fin (256 ^ 32))) :=
    .ofFrom (show Amount.from _ (-3 : I64) = _ from rfl)
  have hsum : Reachable toyCodec
      (⟨(BTreeMap.empty.insert 0 5).insert 1 (-3)⟩ : Amount (Fin (256 ^ 32))) := .add h5 h3 rfl
  have hmul : Amount.mul (⟨(BTreeMap.empty.insert 0 5).insert 1 (-3)⟩ : Amount (Fin (256 ^ 32))) 2 =
      .ok ⟨(BTreeMap.empty.insert 0 10).insert 1 (-6)⟩ := rfl
  have h : Reachable toyCodec (⟨(BTreeMap.empty.insert 0 10).insert 1 (-6)⟩ : Amount (Fin (256 ^ 32))) :=
    .mul hsum hmul ((valid_mul_iff hmul).mp (by decide))
  ⟨h, Reachable.valid h⟩

end Amount

end Masp
