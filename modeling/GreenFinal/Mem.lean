import GreenFinal.Lib.CString
import Mathlib.Algebra.Order.BigOperators.Group.Finset
import Mathlib.Data.Int.ModEq
import Mathlib.Data.Fintype.Basic
import Mathlib.Logic.Function.Basic

/-!
# The memory image

What `mem.hpp` declares: the array `memToCollects` of records that can be
collected from, and the map `memTotalEnergyMap` of users' totals. Both are
filled once, by `load_in_mem`, and then changed by `handle_request` alone.

The array has `REQ_TOTAL_CNT + 1` slots, each a pointer that may be null;
here a slot is `none` or a record, and an index that passed the bounds of
the array is a `RecordId`. The source does not check its indices, so
`recordIndex?` is where an index outside the array shows.

`std::unordered_map::operator[]` inserts a zero for a key it does not
find, and an entry holding zero is still an entry: the write-back goes over
all of them. `TotalEnergyMap` therefore keeps the set of keys beside the
values, with the values zero off the keys, so that two maps are equal
exactly when they have the same entries.

The record's `std::mutex` is not here. It is the state of the threads that
compete for the record and stands with them, in `GreenFinal.MicroStep`.
-/

open CLib

namespace GreenFinal

/-- `REQ_TOTAL_CNT`. -/
def reqTotalCnt : ℕ := 100 * 10000

/-- The indices of `memToCollects`, an array of `REQ_TOTAL_CNT + 1` slots. -/
abbrev RecordId := Fin (reqTotalCnt + 1)

/-- There is a slot, so a numeral names one. -/
instance (priority := 2000) neZero_slots : NeZero (reqTotalCnt + 1) := ⟨Nat.succ_ne_zero reqTotalCnt⟩

theorem one_le_one : 1 ≤ ((1 : RecordId) : ℕ) := le_rfl

/-- An `int` as an index of `memToCollects`; `none` where it is outside the
array. -/
def recordIndex? (i : ℤ) : Option RecordId :=
  if h : 0 ≤ i ∧ i < reqTotalCnt + 1 then some ⟨i.toNat, by omega⟩ else none

theorem recordIndex?_eq_some {i : ℤ} {id : RecordId} :
    recordIndex? i = some id ↔ i = (id : ℕ) := by
  unfold recordIndex?
  constructor
  · intro h
    split at h
    · rename_i hi
      have hid : i.toNat = id := congrArg Fin.val (Option.some.inj h)
      omega
    · cases h
  · rintro rfl
    have hid : (id : ℕ) < reqTotalCnt + 1 := id.isLt
    rw [dif_pos ⟨by omega, by omega⟩]
    exact congrArg some (Fin.ext (Int.toNat_natCast _))

theorem recordIndex?_natCast (id : RecordId) : recordIndex? (id : ℕ) = some id :=
  recordIndex?_eq_some.mpr rfl

theorem recordIndex?_zero : recordIndex? 0 = some 0 := recordIndex?_natCast 0

theorem recordIndex?_eq_none {i : ℤ} :
    recordIndex? i = none ↔ i < 0 ∨ (reqTotalCnt : ℤ) < i := by
  unfold recordIndex?
  split <;> simp <;> omega

/-- `status_`: what has been taken from a record. -/
inductive Status where
  /-- `EMPTY` -/
  | empty
  /-- `COLLECTED_BY_OTHER` -/
  | collectedByOther
  /-- `ALL_COLLECTED` -/
  | allCollected
  deriving DecidableEq, Repr

/-- The numbers `mem.hpp` gives the statuses. -/
def Status.toNat : Status → ℕ
  | .empty => 0
  | .collectedByOther => 1
  | .allCollected => 2

/-- `class MemToCollect`, without its mutex. -/
structure MemToCollect where
  /-- The owner, `user_id_`. -/
  userId : CString
  /-- `status_` -/
  status : Status := .empty
  /-- `to_collect_energy_` -/
  toCollectEnergy : UInt32
  /-- `modified_`: whether the write-back is to write the record. -/
  modified : Bool := false
  deriving DecidableEq

/-- **`memTotalEnergyMap`**: the users' totals. -/
@[ext]
structure TotalEnergyMap where
  /-- The users that have an entry. -/
  keys : Finset CString
  /-- The value of an entry; zero for a user without one. -/
  val : CString → UInt32
  /-- A user without an entry has no value. -/
  val_of_notMem : ∀ u ∉ keys, val u = 0

namespace TotalEnergyMap

/-- The map before anything is loaded. -/
def empty : TotalEnergyMap := ⟨∅, fun _ => 0, fun _ _ => rfl⟩

/-- `memTotalEnergyMap[u] = n`. -/
def assign (t : TotalEnergyMap) (u : CString) (n : UInt32) : TotalEnergyMap where
  keys := insert u t.keys
  val := Function.update t.val u n
  val_of_notMem := fun v hv => by
    rw [Finset.mem_insert, not_or] at hv
    rw [Function.update_of_ne hv.1]
    exact t.val_of_notMem v hv.2

/-- `memTotalEnergyMap[u] += n`: the entry is created at zero where there is
none, and the addition wraps. -/
def add (t : TotalEnergyMap) (u : CString) (n : UInt32) : TotalEnergyMap :=
  t.assign u (t.val u + n)

@[simp] theorem keys_assign (t : TotalEnergyMap) (u : CString) (n : UInt32) :
    (t.assign u n).keys = insert u t.keys := rfl

@[simp] theorem val_assign (t : TotalEnergyMap) (u : CString) (n : UInt32) :
    (t.assign u n).val = Function.update t.val u n := rfl

theorem val_add_self (t : TotalEnergyMap) (u : CString) (n : UInt32) :
    (t.add u n).val u = t.val u + n := Function.update_self ..

theorem val_add_of_ne (t : TotalEnergyMap) {u v : CString} (n : UInt32)
    (h : v ≠ u) : (t.add u n).val v = t.val v := Function.update_of_ne h ..

/-- The sum of all totals. -/
def energy (t : TotalEnergyMap) : ℕ := ∑ u ∈ t.keys, (t.val u).toNat

/-- The sum of the totals may be taken over any users that include the
keys. -/
theorem energy_eq_sum (t : TotalEnergyMap) {s : Finset CString} (h : t.keys ⊆ s) :
    t.energy = ∑ u ∈ s, (t.val u).toNat :=
  Finset.sum_subset h (fun u _ hu => by rw [t.val_of_notMem u hu]; rfl)

theorem val_le_energy (t : TotalEnergyMap) (u : CString) :
    (t.val u).toNat ≤ t.energy := by
  by_cases hu : u ∈ t.keys
  · exact Finset.single_le_sum (f := fun v => (t.val v).toNat)
      (fun _ _ => Nat.zero_le _) hu
  · rw [t.val_of_notMem u hu]
    exact Nat.zero_le _

/-- Assigning an entry changes the sum of the totals by the change of the
entry. -/
theorem energy_assign (t : TotalEnergyMap) (u : CString) (n : UInt32) :
    (t.assign u n).energy + (t.val u).toNat = t.energy + n.toNat := by
  have hu : u ∈ insert u t.keys := Finset.mem_insert_self u t.keys
  have hrest : ∑ v ∈ (insert u t.keys).erase u, (Function.update t.val u n v).toNat
      = ∑ v ∈ (insert u t.keys).erase u, (t.val v).toNat :=
    Finset.sum_congr rfl (fun v hv => by
      rw [Function.update_of_ne (Finset.ne_of_mem_erase hv)])
  rw [t.energy_eq_sum (Finset.subset_insert u t.keys), energy, keys_assign, val_assign,
    ← Finset.add_sum_erase _ _ hu, hrest, Function.update_self,
    ← Finset.add_sum_erase _ (fun v => (t.val v).toNat) hu]
  ac_rfl

/-- A credit that does not wrap adds to the sum of the totals. -/
theorem energy_add_of_lt {t : TotalEnergyMap} {u : CString} {n : UInt32}
    (h : (t.val u).toNat + n.toNat < 2 ^ 32) : (t.add u n).energy = t.energy + n.toNat := by
  have hassign := t.energy_assign u (t.val u + n)
  rw [UInt32.toNat_add, Nat.mod_eq_of_lt h] at hassign
  show (t.assign u (t.val u + n)).energy = _
  omega

/-- A credit adds to the sum of the totals, modulo `2^32`. -/
theorem energy_add_modEq (t : TotalEnergyMap) (u : CString) (n : UInt32) :
    (t.add u n).energy ≡ t.energy + n.toNat [MOD 2 ^ 32] := by
  have hassign := t.energy_assign u (t.val u + n)
  have hsum : (t.val u + n).toNat ≡ (t.val u).toNat + n.toNat [MOD 2 ^ 32] := by
    rw [UInt32.toNat_add]
    exact Nat.mod_modEq _ _
  have h : (t.add u n).energy + (t.val u).toNat
      ≡ t.energy + n.toNat + (t.val u).toNat [MOD 2 ^ 32] := by
    show (t.assign u (t.val u + n)).energy + (t.val u).toNat ≡ _ [MOD 2 ^ 32]
    rw [hassign, Nat.add_assoc, Nat.add_comm n.toNat]
    exact hsum.add_left _
  exact Nat.ModEq.add_right_cancel' _ h

end TotalEnergyMap

/-- **The memory image**: the two globals of `mem.hpp`. -/
@[ext]
structure Mem where
  /-- `memToCollects` -/
  memToCollects : RecordId → Option MemToCollect
  /-- `memTotalEnergyMap` -/
  memTotalEnergyMap : TotalEnergyMap

namespace Mem

/-- Write a record back into its slot. -/
def setRecord (m : Mem) (id : RecordId) (r : MemToCollect) : Mem :=
  { m with memToCollects := Function.update m.memToCollects id (some r) }

/-- `memTotalEnergyMap[u] += n`. -/
def credit (m : Mem) (u : CString) (n : UInt32) : Mem :=
  { m with memTotalEnergyMap := m.memTotalEnergyMap.add u n }

@[simp] theorem memToCollects_setRecord_self (m : Mem) (id : RecordId)
    (r : MemToCollect) : (m.setRecord id r).memToCollects id = some r :=
  Function.update_self ..

theorem memToCollects_setRecord_of_ne (m : Mem) {id id' : RecordId}
    (r : MemToCollect) (h : id' ≠ id) :
    (m.setRecord id r).memToCollects id' = m.memToCollects id' :=
  Function.update_of_ne h ..

/-- The energy of a slot: that of its record, nothing for a null slot. -/
def slotEnergy (m : Mem) (id : RecordId) : ℕ :=
  (m.memToCollects id).elim 0 (fun r => r.toCollectEnergy.toNat)

/-- The sum of all records' energies. -/
def recordEnergy (m : Mem) : ℕ := ∑ id, m.slotEnergy id

/-- All the energy in memory, collected or not. -/
def energy (m : Mem) : ℕ := m.memTotalEnergyMap.energy + m.recordEnergy

theorem slotEnergy_of_some {m : Mem} {id : RecordId} {r : MemToCollect}
    (h : m.memToCollects id = some r) : m.slotEnergy id = r.toCollectEnergy.toNat := by
  rw [slotEnergy, h]
  rfl

theorem slotEnergy_le_recordEnergy (m : Mem) (id : RecordId) :
    m.slotEnergy id ≤ m.recordEnergy :=
  Finset.single_le_sum (f := m.slotEnergy) (fun _ _ => Nat.zero_le _) (Finset.mem_univ id)

end Mem

end GreenFinal
