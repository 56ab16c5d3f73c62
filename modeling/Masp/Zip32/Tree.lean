/-
Runs of the key tree: a sequence of `derive_child(i)` and `derive_internal`
steps applied to a spending key, or to a full viewing key through its own
derivations, which fail on a hardened index.

`run_from` is the cross-path agreement of ZIP 32: projecting a spending key
to its full viewing key and then running the viewing-key derivations gives
the projection of the spending-key run, and fails exactly when the run has a
hardened child step. One step at a time it is `from_deriveChild` and
`from_deriveInternal`; each rests on `G * (a + b) = G * a + G * b` for the two
generators and on nothing else about the curve.

The depth of a run counts its child steps modulo 256: `depth + 1` is `u8`
arithmetic, so a path of 256 indices comes back to depth 0. For any viewing key,
derived or read, a run returns exactly when it has no hardened child step
(`ExtendedFullViewingKey.run_ok_iff`).
-/
import Masp.Zip32.Keys

namespace Masp.Zip32

variable {Fr Pt : Type} [Add Fr] [Add Pt] (S : Sapling Fr Pt)

/-- One derivation step. -/
inductive Op where
  | deriveChild (i : ChildIndex)
  | deriveInternal
  deriving DecidableEq, Repr

/-- A `derive_child` step at a hardened index, the step a viewing key refuses. -/
def Op.isHardenedChild : Op → Bool
  | .deriveChild (.hardened _) => true
  | _ => false

/-- A `derive_child` step, at any index. -/
def Op.isChild : Op → Bool
  | .deriveChild _ => true
  | .deriveInternal => false

namespace ExtendedSpendingKey

def step (xsk : ExtendedSpendingKey Fr) : Op → ExtendedSpendingKey Fr
  | .deriveChild i => deriveChild S xsk i
  | .deriveInternal => deriveInternal S xsk

def run (xsk : ExtendedSpendingKey Fr) (ops : List Op) : ExtendedSpendingKey Fr :=
  ops.foldl (step S) xsk

@[simp] theorem run_nil (xsk : ExtendedSpendingKey Fr) : run S xsk [] = xsk := rfl

@[simp] theorem run_cons (xsk : ExtendedSpendingKey Fr) (op : Op) (ops : List Op) :
    run S xsk (op :: ops) = run S (step S xsk op) ops := rfl

theorem fromPath_eq_run (master : ExtendedSpendingKey Fr) (path : List ChildIndex) :
    fromPath S master path = run S master (path.map Op.deriveChild) := by
  induction path generalizing master with
  | nil => rfl
  | cons i path ih => exact ih _

end ExtendedSpendingKey

namespace ExtendedFullViewingKey

def step (xfvk : ExtendedFullViewingKey Pt) : Op → Except Unit (ExtendedFullViewingKey Pt)
  | .deriveChild i => deriveChild S xfvk i
  | .deriveInternal => .ok (deriveInternal S xfvk)

/-- A run of `ops`, stopping at the first `Err`. -/
def run (xfvk : ExtendedFullViewingKey Pt) (ops : List Op) :
    Except Unit (ExtendedFullViewingKey Pt) :=
  ops.foldlM (step S) xfvk

@[simp] theorem run_nil (xfvk : ExtendedFullViewingKey Pt) : run S xfvk [] = .ok xfvk := rfl

theorem run_cons (xfvk : ExtendedFullViewingKey Pt) (op : Op) (ops : List Op) :
    run S xfvk (op :: ops) = (step S xfvk op).bind fun y => run S y ops := rfl

end ExtendedFullViewingKey

/-! ## Cross-path agreement -/

section Agreement

theorem from_deriveChild_hardened (xsk : ExtendedSpendingKey Fr) (i : UInt32) :
    (ExtendedFullViewingKey.from S xsk).deriveChild S (.hardened i) = .error () := rfl

theorem from_deriveChild_nonHardened (xsk : ExtendedSpendingKey Fr) (i : UInt32) :
    (ExtendedFullViewingKey.from S xsk).deriveChild S (.nonHardened i) =
      .ok (ExtendedFullViewingKey.from S (xsk.deriveChild S (.nonHardened i))) := by
  simp only [ExtendedFullViewingKey.deriveChild, ExtendedSpendingKey.deriveChild,
    ExtendedFullViewingKey.from,
    FullViewingKey.fromExpandedSpendingKey, map_add]

theorem from_deriveInternal (xsk : ExtendedSpendingKey Fr) :
    (ExtendedFullViewingKey.from S xsk).deriveInternal S =
      ExtendedFullViewingKey.from S (xsk.deriveInternal S) := by
  simp only [ExtendedFullViewingKey.deriveInternal, ExtendedSpendingKey.deriveInternal,
    saplingDeriveInternalFvk, ExtendedFullViewingKey.from, FullViewingKey.fromExpandedSpendingKey,
    map_add]

/-- One step of the viewing-key run simulates the spending-key step. -/
theorem from_step (xsk : ExtendedSpendingKey Fr) (op : Op) :
    ExtendedFullViewingKey.step S (ExtendedFullViewingKey.from S xsk) op =
      if op.isHardenedChild then .error ()
      else .ok (ExtendedFullViewingKey.from S (xsk.step S op)) := by
  match op with
  | .deriveChild (.hardened i) => rfl
  | .deriveChild (.nonHardened i) => exact from_deriveChild_nonHardened S xsk i
  | .deriveInternal => exact congrArg Except.ok (from_deriveInternal S xsk)

/-- **Cross-path agreement.** Running `ops` on the full viewing key of `xsk`
returns `Ok` exactly when `ops` has no hardened child step, and then returns the
full viewing key of the spending-key run. -/
theorem run_from (xsk : ExtendedSpendingKey Fr) (ops : List Op) :
    (ExtendedFullViewingKey.from S xsk).run S ops =
      if ops.any Op.isHardenedChild then .error ()
      else .ok (ExtendedFullViewingKey.from S (xsk.run S ops)) := by
  induction ops generalizing xsk with
  | nil => rfl
  | cons op ops ih =>
    rw [ExtendedFullViewingKey.run_cons, from_step, ExtendedSpendingKey.run_cons, List.any_cons]
    cases op.isHardenedChild
    · exact ih _
    · rfl

end Agreement

/-! ## Depth -/

theorem UInt8.toNat_add_one (d : UInt8) : (d + 1).toNat = (d.toNat + 1) % 256 := rfl

theorem ChildIndex.master_eq : ChildIndex.master = .nonHardened 0 := rfl

@[simp] theorem ExtendedSpendingKey.depth_master (seed : List UInt8) :
    (ExtendedSpendingKey.master S seed).depth = 0 := rfl

theorem ExtendedSpendingKey.depth_step (xsk : ExtendedSpendingKey Fr) (op : Op) :
    (xsk.step S op).depth.toNat = (xsk.depth.toNat + if op.isChild then 1 else 0) % 256 := by
  cases op with
  | deriveChild i => exact UInt8.toNat_add_one _
  | deriveInternal => exact (Nat.mod_eq_of_lt xsk.depth.toNat_lt_size).symm

/-- A spending-key run adds its number of child steps to the depth, modulo 256. -/
theorem ExtendedSpendingKey.depth_run (xsk : ExtendedSpendingKey Fr) (ops : List Op) :
    (xsk.run S ops).depth.toNat = (xsk.depth.toNat + ops.countP Op.isChild) % 256 := by
  induction ops generalizing xsk with
  | nil => exact (Nat.mod_eq_of_lt xsk.depth.toNat_lt_size).symm
  | cons op ops ih =>
    rw [ExtendedSpendingKey.run_cons, ih, ExtendedSpendingKey.depth_step, List.countP_cons]
    split <;> omega

/-- A viewing-key run that returns adds its number of child steps to the depth,
modulo 256. -/
theorem ExtendedFullViewingKey.depth_run {xfvk y : ExtendedFullViewingKey Pt} {ops : List Op}
    (h : xfvk.run S ops = .ok y) :
    y.depth.toNat = (xfvk.depth.toNat + ops.countP Op.isChild) % 256 := by
  induction ops generalizing xfvk with
  | nil => cases h; exact (Nat.mod_eq_of_lt (UInt8.toNat_lt_size _)).symm
  | cons op ops ih =>
    rw [ExtendedFullViewingKey.run_cons] at h
    rw [List.countP_cons]
    match op, h with
    | .deriveChild (.nonHardened i), h =>
      rw [ih h]
      simp only [ExtendedFullViewingKey.deriveChild, Op.isChild, if_true, UInt8.toNat_add_one]
      omega
    | .deriveInternal, h =>
      rw [ih h]
      simp [ExtendedFullViewingKey.deriveInternal, Op.isChild]

/-- **Viewing-key runs.** For every full viewing key, also one read from bytes rather than
derived from a spending key, a run returns exactly when it has no hardened child step, and
the key it returns is deeper by its number of child steps, modulo 256. -/
theorem ExtendedFullViewingKey.run_ok_iff (xfvk : ExtendedFullViewingKey Pt) (ops : List Op) :
    ((∃ y, xfvk.run S ops = .ok y) ↔ ops.any Op.isHardenedChild = false) ∧
    ∀ y, xfvk.run S ops = .ok y →
      y.depth.toNat = (xfvk.depth.toNat + ops.countP Op.isChild) % 256 := by
  refine ⟨?_, fun _ h => depth_run S h⟩
  induction ops generalizing xfvk with
  | nil => simp
  | cons op ops ih =>
    rw [run_cons, List.any_cons]
    match op with
    | .deriveChild (.hardened i) => simp [step, deriveChild, Except.bind, Op.isHardenedChild]
    | .deriveChild (.nonHardened i) => exact ih _
    | .deriveInternal => exact ih _

theorem ExtendedSpendingKey.depth_fromPath (master : ExtendedSpendingKey Fr)
    (path : List ChildIndex) :
    (fromPath S master path).depth.toNat = (master.depth.toNat + path.length) % 256 := by
  rw [fromPath_eq_run, depth_run, List.countP_eq_length.mpr (by simp [Op.isChild]),
    List.length_map]

/-- Deriving 256 levels below a master key comes back to depth 0. -/
theorem fromPath_master_depth_256 (seed : List UInt8) :
    (ExtendedSpendingKey.fromPath S (ExtendedSpendingKey.master S seed)
      (List.replicate 256 (.nonHardened 0))).depth = 0 :=
  UInt8.toNat.inj (by
    rw [ExtendedSpendingKey.depth_fromPath, List.length_replicate, ExtendedSpendingKey.depth_master]
    rfl)

end Masp.Zip32
