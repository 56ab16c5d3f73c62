/-
`Amount<Unit>` of `amount.rs`: a `BTreeMap` from asset types to `i64`
quantities, with its constructors, `Index`, `project` and `reject`, the
arithmetic `+`, `-`, `+=`, `-=`, `* i64` and `Sum`, and `partial_cmp` with the
`<=` and `>=` derived from it.

An `i64` is a `BitVec 64`: its value is `toInt`, and `+`, `-`, `*` wrap modulo
`2^64` as they do in a release build. A `panic!` is an `Except Panic` error with
its message; `Result::unwrap` on an `Err` panics with the standard message.

`add` and `sub` are one loop over `rhs.components()`, `combine`, with the
operation and the panic message as parameters; `from_nonnegative` and `from`
are one check, `ofRange`, with the lower end as parameter.
-/
import Masp.Amount.BTreeMap
import Masp.Bytes

namespace Masp

/-- `i64`. -/
abbrev I64 := BitVec 64

def coin : Int := 100000000

/-- `MAX_MONEY`, an `i64` constant; its value fits, so comparing with it is comparing
`toInt`. -/
def maxMoney : Int := 21000000 * coin

/-- `Amount<Unit>(BTreeMap<Unit, i64>)`. -/
structure Amount (K : Type) [LinearOrder K] where
  map : BTreeMap K I64

variable {K : Type} [LinearOrder K]

namespace Amount

def zero : Amount K := ⟨BTreeMap.empty⟩

/-- The check of `from_nonnegative` and `from`, accepting `lo ≤ amount ≤ MAX_MONEY`;
zero gives the zero amount. -/
def ofRange (lo : Int) (atype : K) (amount : I64) : Except Unit (Amount K) :=
  if amount = 0 then .ok zero
  else if lo ≤ amount.toInt ∧ amount.toInt ≤ maxMoney then .ok ⟨BTreeMap.empty.insert atype amount⟩
  else .error ()

def fromNonnegative (atype : K) (amount : I64) : Except Unit (Amount K) := ofRange 0 atype amount

/-- `asset_types()`: the stored asset types, in order. -/
def assetTypes (a : Amount K) : List K := a.map.keys

/-- `components()`: the stored entries, in order. -/
def components (a : Amount K) : List (K × I64) := a.map.entries

/-- `Index<&Unit>`: the stored quantity, or 0. -/
def index (a : Amount K) (t : K) : I64 := (a.map.get t).getD 0

/-- One turn of the loop of `add` and `sub` over `rhs.components()`:
`ent = self[atype] op amount`; an `ent` of 0 is removed, one in range stored, and any
other panics with `msg`. -/
def combineStep (op : I64 → I64 → I64) (msg : String) (self : Amount K) (c : K × I64) :
    Except Panic (Amount K) :=
  let ent := op (self.index c.1) c.2
  if ent = 0 then .ok ⟨self.map.remove c.1⟩
  else if -maxMoney ≤ ent.toInt ∧ ent.toInt ≤ maxMoney then .ok ⟨self.map.insert c.1 ent⟩
  else .error ⟨msg⟩

def combine (op : I64 → I64 → I64) (msg : String) (self rhs : Amount K) : Except Panic (Amount K) :=
  rhs.components.foldlM (combineStep op msg) self

/-- `Add<Amount>`. -/
def add (self rhs : Amount K) : Except Panic (Amount K) :=
  combine (· + ·) "addition should remain in range" self rhs

/-- `Sub<Amount>`. -/
def sub (self rhs : Amount K) : Except Panic (Amount K) :=
  combine (· - ·) "subtraction should remain in range" self rhs

/-- `AddAssign`: `*self = self.clone() + rhs`. -/
def addAssign (self rhs : Amount K) : Except Panic (Amount K) := add self rhs

/-- `SubAssign`: `*self = self.clone() - rhs`. -/
def subAssign (self rhs : Amount K) : Except Panic (Amount K) := sub self rhs

/-- `Sum`: `iter.fold(Self::zero(), Add::add)`. -/
def sum (l : List (Amount K)) : Except Panic (Amount K) := l.foldlM add zero

/-- The loop of `mul` over `iter_mut()`: each quantity becomes `amount * rhs`, wrapping,
and an out-of-range product panics. -/
def mulEntries (rhs : I64) : List (K × I64) → Except Panic (List (K × I64))
  | [] => .ok []
  | (t, amount) :: rest =>
    let ent := amount * rhs
    if -maxMoney ≤ ent.toInt ∧ ent.toInt ≤ maxMoney then (mulEntries rhs rest).map ((t, ent) :: ·)
    else .error ⟨"multiplication should remain in range"⟩

omit [LinearOrder K] in
theorem keys_mulEntries {rhs : I64} {l l' : List (K × I64)} (h : mulEntries rhs l = .ok l') :
    l'.map Prod.fst = l.map Prod.fst := by
  induction l generalizing l' with
  | nil => cases h; rfl
  | cons e rest ih =>
    obtain ⟨t, amount⟩ := e
    simp only [mulEntries] at h
    split at h
    · cases hr : mulEntries rhs rest with
      | error e => rw [hr] at h; cases h
      | ok r => rw [hr] at h; cases h; simp [ih hr]
    · cases h

/-- `Mul<i64>`. -/
def mul (self : Amount K) (rhs : I64) : Except Panic (Amount K) :=
  match h : mulEntries rhs self.map.entries with
  | .ok l => .ok ⟨⟨l, keys_mulEntries h ▸ self.map.sorted⟩⟩
  | .error e => .error e

/-- One turn of the loop of `partial_cmp` over `self.components()`, on the difference
map: `ent = diff[atype] - amount`, wrapping and unchecked; 0 is removed. -/
def partialCmpStep (diff : BTreeMap K I64) (c : K × I64) : BTreeMap K I64 :=
  let ent := (diff.get c.1).getD 0 - c.2
  if ent = 0 then diff.remove c.1 else diff.insert c.1 ent

/-- `partial_cmp`: the difference `other - self`, built on a clone of `other`, compared
with 0 value by value. -/
def partialCmp (self other : Amount K) : Option Ordering :=
  let diff := self.components.foldl partialCmpStep other.map
  if diff.entries.all fun e => e.2 = 0 then some .eq
  else if diff.entries.all fun e => 0 ≤ e.2.toInt then some .lt
  else if diff.entries.all fun e => e.2.toInt ≤ 0 then some .gt
  else none

/-- `PartialOrd::le`, the trait's default: `partial_cmp` gives `Some(Less | Equal)`. -/
def le (self other : Amount K) : Bool :=
  match self.partialCmp other with
  | some .lt | some .eq => true
  | _ => false

/-- `PartialOrd::ge`, the trait's default: `partial_cmp` gives `Some(Greater | Equal)`. -/
def ge (self other : Amount K) : Bool :=
  match self.partialCmp other with
  | some .gt | some .eq => true
  | _ => false

end Amount

/-- `Amount::from`. -/
def Amount.from (atype : K) (amount : I64) : Except Unit (Amount K) :=
  Amount.ofRange (-maxMoney) atype amount

/-- `Result::unwrap` on `Result<_, ()>`. -/
def unwrapUnit {α : Type} : Except Unit α → Except Panic α
  | .ok a => .ok a
  | .error () => .error ⟨"called `Result::unwrap()` on an `Err` value: ()"⟩

namespace Amount

/-- `project`: the amount of asset `index` alone. -/
def project (a : Amount K) (index : K) : Except Panic (Amount K) :=
  unwrapUnit (Amount.from index ((a.map.get index).getD 0))

/-- `reject`: the amount without asset `index`. -/
def reject (a : Amount K) (index : K) : Except Panic (Amount K) := do
  let p ← a.project index
  sub a p

/-! ## Small lemmas -/

@[simp] theorem index_zero (t : K) : (zero : Amount K).index t = 0 := rfl

theorem index_eq (a : Amount K) (t : K) : a.index t = (a.map.get t).getD 0 := rfl

@[simp] theorem addAssign_eq (a b : Amount K) : a.addAssign b = a.add b := rfl

@[simp] theorem subAssign_eq (a b : Amount K) : a.subAssign b = a.sub b := rfl

end Amount

end Masp
