import GreenFinal.Call
import Mathlib.Algebra.BigOperators.Ring.Finset

/-!
# The two tables and their loading

`readme.md` declares the tables `to_collect_energy` and `total_energy`: an
auto-incremented primary key each, and else nullable columns, with the user
names of `total_energy` unique among those that are not null. The names are
byte strings and need not be C strings; in memory they are, because one is
compared with `strcmp` and the other passes through `c_str()`.

`loadInMem` reads the tables into the memory image. It looks at the id, the
name and the energy of a row and not at its status: every record starts as
`EMPTY`, whatever the column says. A null energy reads as zero and a null
name as the empty one. A row with an id beyond `REQ_TOTAL_CNT` writes
outside `memToCollects`.
-/

open CLib

namespace GreenFinal

theorem eq_ok_of_toOption {ε α : Type*} {x : Except ε α} {a : α}
    (h : x.toOption = some a) : x = .ok a := by
  cases x with
  | error e => cases h
  | ok b => exact congrArg Except.ok (Option.some.inj h)

/-- A row of `to_collect_energy`. -/
structure ToCollectRow where
  /-- `id`, the auto-incremented primary key. -/
  id : ℤ
  /-- `user_id varchar(64) null` -/
  userId : Option (List UInt8)
  /-- `to_collect_energy int null` -/
  toCollectEnergy : Option Int32
  /-- `status varchar(32) null` -/
  status : Option (List UInt8)
  deriving DecidableEq

/-- The table `to_collect_energy`. -/
structure ToCollectTable where
  /-- The rows, in the order in which a query returns them. -/
  rows : List ToCollectRow
  /-- The primary key is unique. -/
  nodup_id : (rows.map ToCollectRow.id).Nodup
  /-- It counts from one. -/
  id_pos : ∀ row ∈ rows, 1 ≤ row.id

/-- A row of `total_energy`. -/
structure TotalRow where
  /-- `id`, the auto-incremented primary key. -/
  id : ℤ
  /-- `user_id varchar(64) null` -/
  userId : Option (List UInt8)
  /-- `total_energy int null` -/
  totalEnergy : Option Int32
  deriving DecidableEq

/-- The table `total_energy`. -/
structure TotalTable where
  /-- The rows, in the order in which a query returns them. -/
  rows : List TotalRow
  /-- The primary key is unique. -/
  nodup_id : (rows.map TotalRow.id).Nodup
  /-- `unique (user_id)`, which lets nulls repeat. -/
  nodup_userId : (rows.filterMap TotalRow.userId).Nodup

/-- The database: both tables. -/
structure Database where
  /-- `to_collect_energy` -/
  toCollect : ToCollectTable
  /-- `total_energy` -/
  total : TotalTable

/-- `getInt`: zero for a null. -/
def getInt (v : Option Int32) : Int32 := v.getD 0

/-- `getString`, read as a C string: the empty one for a null. -/
def getString (v : Option (List UInt8)) : CString := CString.ofBytes (v.getD [])

/-- The record a row is loaded into. -/
def ToCollectRow.load (row : ToCollectRow) : MemToCollect where
  userId := getString row.userId
  toCollectEnergy := (getInt row.toCollectEnergy).toUInt32

/-- The body of the first loop of `load_in_mem`. -/
def loadToCollect (m : Mem) (row : ToCollectRow) : Except Fault Mem :=
  match recordIndex? row.id with
  | none => .error .badIndex
  | some id => .ok (m.setRecord id row.load)

/-- The second loop of `load_in_mem`. -/
def loadTotal (rows : List TotalRow) (t : TotalEnergyMap) : TotalEnergyMap :=
  rows.foldl (fun t row => t.assign (getString row.userId) (getInt row.totalEnergy).toUInt32) t

/-- **`load_in_mem`**, in a fresh process. -/
def loadInMem (db : Database) : Except Fault Mem :=
  match db.toCollect.rows.foldlM loadToCollect ⟨fun _ => none, .empty⟩ with
  | .error e => .error e
  | .ok m => .ok { m with memTotalEnergyMap := loadTotal db.total.rows m.memTotalEnergyMap }

/-! ## Numbers between the columns and memory -/

/-- A value that is not negative survives being stored in a `uint32_t`. -/
theorem toNat_toUInt32 {x : Int32} (h : 0 ≤ x.toInt) : (x.toUInt32.toNat : ℤ) = x.toInt := by
  show (x.toBitVec.toNat : ℤ) = x.toBitVec.toInt
  have h' : 0 ≤ x.toBitVec.toInt := h
  rw [BitVec.toInt_eq_toNat_cond] at h' ⊢
  split at h' <;> rename_i hc
  · rw [if_pos hc]
  · have := x.toBitVec.isLt
    omega

/-- A value below `2^31` survives the cast to `int`. -/
theorem toInt_toInt32 {x : UInt32} (h : x.toNat < 2 ^ 31) : x.toInt32.toInt = x.toNat := by
  show x.toBitVec.toInt = (x.toBitVec.toNat : ℤ)
  have h' : x.toBitVec.toNat < 2 ^ 31 := h
  rw [BitVec.toInt_eq_toNat_cond, if_pos (by omega)]

/-! ## What is loaded -/

/-- The row with a given key. -/
def ToCollectTable.row? (t : ToCollectTable) (id : RecordId) : Option ToCollectRow :=
  t.rows.find? (fun row => row.id = ((id : ℕ) : ℤ))

/-- The row of `total_energy` that decides what is loaded for a name: the last
one that is read as that name. -/
def TotalTable.row? (t : TotalTable) (u : CString) : Option TotalRow :=
  t.rows.reverse.find? (fun row => getString row.userId = u)

/-- Where the keys are distinct, the key of one row is not found among the others. -/
theorem find?_eq_none_of_notMem {rows : List ToCollectRow} {row : ToCollectRow} {id : RecordId}
    (hid : row.id = ((id : ℕ) : ℤ)) (h : row.id ∉ rows.map ToCollectRow.id) :
    rows.find? (fun row => row.id = ((id : ℕ) : ℤ)) = none := by
  refine List.find?_eq_none.mpr (fun row' hrow' heq => h ?_)
  rw [hid, ← of_decide_eq_true heq]
  exact List.mem_map_of_mem hrow'

/-- A row is found by its key. -/
theorem ToCollectTable.row?_eq_some {t : ToCollectTable} {row : ToCollectRow} {id : RecordId} :
    t.row? id = some row ↔ row ∈ t.rows ∧ row.id = ((id : ℕ) : ℤ) := by
  unfold row?
  constructor
  · intro h
    exact ⟨List.mem_of_find?_eq_some h, by simpa using List.find?_some h⟩
  · rintro ⟨hrow, hid⟩
    have hsome : (t.rows.find? fun row => row.id = ((id : ℕ) : ℤ)).isSome = true :=
      List.find?_isSome.mpr ⟨row, hrow, by simpa using hid⟩
    obtain ⟨row', hrow'⟩ := Option.isSome_iff_exists.mp hsome
    have hid' : row'.id = ((id : ℕ) : ℤ) := by simpa using List.find?_some hrow'
    rw [hrow', List.inj_on_of_nodup_map t.nodup_id (List.mem_of_find?_eq_some hrow') hrow
      (hid'.trans hid.symm)]

theorem foldlM_loadToCollect {rows : List ToCollectRow} {m m' : Mem}
    (h : rows.foldlM loadToCollect m = .ok m')
    (hnd : (rows.map ToCollectRow.id).Nodup) :
    (∀ row ∈ rows, row.id ≤ reqTotalCnt)
      ∧ m'.memTotalEnergyMap = m.memTotalEnergyMap
      ∧ ∀ id : RecordId, m'.memToCollects id
        = (rows.find? (fun row => row.id = ((id : ℕ) : ℤ))).elim (m.memToCollects id)
            (fun row => some row.load) := by
  induction rows generalizing m with
  | nil =>
    rw [List.foldlM_nil] at h
    cases h
    exact ⟨fun _ hr => absurd hr List.not_mem_nil, rfl, fun _ => rfl⟩
  | cons row rows ih =>
    rw [List.foldlM_cons, loadToCollect] at h
    cases hid : recordIndex? row.id with
    | none =>
      rw [hid] at h
      cases h
    | some rid =>
      rw [hid] at h
      rw [List.map_cons, List.nodup_cons] at hnd
      obtain ⟨hle, htot, hslot⟩ := ih h hnd.2
      have hrid : row.id = ((rid : ℕ) : ℤ) := recordIndex?_eq_some.mp hid
      refine ⟨?_, htot, fun id => ?_⟩
      · intro row' hrow'
        rcases List.mem_cons.mp hrow' with rfl | hrow'
        · rw [hrid]
          exact_mod_cast Nat.lt_succ_iff.mp rid.isLt
        · exact hle row' hrow'
      · rw [hslot]
        by_cases hid' : row.id = ((id : ℕ) : ℤ)
        · obtain rfl : rid = id := Fin.ext (Int.ofNat.inj (hrid.symm.trans hid'))
          -- the ids are distinct: no later row overwrites this record
          rw [find?_eq_none_of_notMem hrid hnd.1, List.find?_cons_of_pos (by simpa using hid')]
          exact Mem.memToCollects_setRecord_self ..
        · rw [List.find?_cons_of_neg (by simpa using hid')]
          have hne : id ≠ rid := fun h => hid' (by rw [hrid, h])
          rw [Mem.memToCollects_setRecord_of_ne _ _ hne]

theorem exists_foldlM_loadToCollect {rows : List ToCollectRow}
    (h : ∀ row ∈ rows, 0 ≤ row.id ∧ row.id ≤ reqTotalCnt) (m : Mem) :
    ∃ m', rows.foldlM loadToCollect m = .ok m' := by
  induction rows generalizing m with
  | nil => exact ⟨m, rfl⟩
  | cons row rows ih =>
    obtain ⟨h₀, hle⟩ := h row List.mem_cons_self
    cases hid : recordIndex? row.id with
    | none =>
      rcases recordIndex?_eq_none.mp hid with h | h
      · exact absurd h₀ (not_le_of_gt h)
      · exact absurd hle (not_le_of_gt h)
    | some rid =>
      rw [List.foldlM_cons, loadToCollect, hid]
      exact ih (fun row' hrow' => h row' (List.mem_cons_of_mem _ hrow')) _

/-- **What `load_in_mem` leaves in memory.** -/
structure Loaded (db : Database) (m : Mem) : Prop where
  /-- The keys are indices of `memToCollects`. -/
  id_le : ∀ row ∈ db.toCollect.rows, row.id ≤ reqTotalCnt
  /-- A slot holds the record of its row, if there is one. -/
  slot : ∀ id, m.memToCollects id = (db.toCollect.row? id).map ToCollectRow.load
  /-- The users are those of the rows. -/
  keys : m.memTotalEnergyMap.keys
    = (db.total.rows.map fun row => getString row.userId).toFinset
  /-- A user's total is that of the last row read as the user's. -/
  val : ∀ u, m.memTotalEnergyMap.val u
    = (db.total.row? u).elim 0 (fun row => (getInt row.totalEnergy).toUInt32)

theorem keys_loadTotal (rows : List TotalRow) (t : TotalEnergyMap) :
    (loadTotal rows t).keys
      = t.keys ∪ (rows.map fun row => getString row.userId).toFinset := by
  induction rows generalizing t with
  | nil => exact (Finset.union_empty _).symm
  | cons row rows ih =>
    show (loadTotal rows (t.assign _ _)).keys = _
    rw [ih, TotalEnergyMap.keys_assign, List.map_cons, List.toFinset_cons,
      Finset.insert_union, Finset.union_insert]

theorem val_loadTotal (rows : List TotalRow) (t : TotalEnergyMap) (u : CString) :
    (loadTotal rows t).val u
      = (rows.reverse.find? (fun row => getString row.userId = u)).elim (t.val u)
          (fun row => (getInt row.totalEnergy).toUInt32) := by
  induction rows using List.reverseRecOn with
  | nil => rfl
  | append_singleton rows row ih =>
    have hlast : loadTotal (rows ++ [row]) t
        = (loadTotal rows t).assign (getString row.userId)
            (getInt row.totalEnergy).toUInt32 := List.foldl_concat ..
    rw [hlast, TotalEnergyMap.val_assign, List.reverse_concat]
    by_cases hu : getString row.userId = u
    · rw [List.find?_cons_of_pos (by simpa using hu), ← hu, Function.update_self]
      rfl
    · rw [List.find?_cons_of_neg (by simpa using hu),
        Function.update_of_ne (Ne.symm hu), ih]

theorem loaded_of_loadInMem {db : Database} {m : Mem} (h : loadInMem db = .ok m) :
    Loaded db m := by
  unfold loadInMem at h
  cases hload : db.toCollect.rows.foldlM loadToCollect
      (⟨fun _ => none, .empty⟩ : Mem) with
  | error e =>
    rw [hload] at h
    cases h
  | ok m₁ =>
    rw [hload] at h
    obtain ⟨hle, htot, hslot⟩ := foldlM_loadToCollect hload db.toCollect.nodup_id
    obtain rfl := Except.ok.inj h
    refine ⟨hle, fun id => ?_, ?_, fun u => ?_⟩
    · show m₁.memToCollects id = _
      rw [hslot, ToCollectTable.row?]
      cases db.toCollect.rows.find? _ <;> rfl
    · show (loadTotal db.total.rows m₁.memTotalEnergyMap).keys = _
      rw [keys_loadTotal, htot]
      exact Finset.empty_union _
    · show (loadTotal db.total.rows m₁.memTotalEnergyMap).val u = _
      rw [val_loadTotal, htot]
      rfl

/-- Loading succeeds whenever the keys are in range. -/
theorem exists_loadInMem {db : Database}
    (h : ∀ row ∈ db.toCollect.rows, row.id ≤ reqTotalCnt) :
    ∃ m, loadInMem db = .ok m := by
  obtain ⟨m, hm⟩ := exists_foldlM_loadToCollect
    (fun row hrow => ⟨(db.toCollect.id_pos row hrow).trans' Int.one_nonneg, h row hrow⟩)
    (⟨fun _ => none, .empty⟩ : Mem)
  refine ⟨{ m with memTotalEnergyMap := loadTotal db.total.rows m.memTotalEnergyMap }, ?_⟩
  unfold loadInMem
  rw [hm]

/-- Every id from 1 to `REQ_TOTAL_CNT` has its row. -/
def Database.AllIds (db : Database) : Prop :=
  ∀ id : RecordId, 1 ≤ (id : ℕ) → ∃ row ∈ db.toCollect.rows, row.id = ((id : ℕ) : ℤ)

/-- There is a row to write a user's total to. -/
def Database.HasRow (db : Database) (u : CString) : Prop :=
  ∃ row ∈ db.total.rows, row.userId = some u.bytes

instance (db : Database) : DecidablePred db.HasRow := fun u =>
  inferInstanceAs (Decidable (∃ row ∈ db.total.rows, row.userId = some u.bytes))

namespace Loaded

variable {db : Database} {m : Mem} {id : RecordId} {r : MemToCollect}

theorem isSome_slot (h : Loaded db m) (hall : db.AllIds) (hid : 1 ≤ (id : ℕ)) :
    (m.memToCollects id).isSome = true := by
  obtain ⟨row, hrow, heq⟩ := hall id hid
  rw [h.slot, Option.isSome_map, ToCollectTable.row?, List.find?_isSome]
  exact ⟨row, hrow, by simpa using heq⟩

/-- There is no row for slot 0. -/
theorem one_le (h : Loaded db m) (hr : m.memToCollects id = some r) : 1 ≤ (id : ℕ) := by
  rw [h.slot] at hr
  obtain ⟨row, hrow, -⟩ := Option.map_eq_some_iff.mp hr
  have hpos := db.toCollect.id_pos row (List.mem_of_find?_eq_some hrow)
  have hid : row.id = ((id : ℕ) : ℤ) := by simpa using List.find?_some hrow
  omega

/-- **Every record starts fresh**, whatever its row says of its status. -/
theorem fresh (h : Loaded db m) (hr : m.memToCollects id = some r) :
    r.status = .empty ∧ r.modified = false := by
  rw [h.slot] at hr
  obtain ⟨row, -, rfl⟩ := Option.map_eq_some_iff.mp hr
  exact ⟨rfl, rfl⟩

/-- A record in memory comes from a row. -/
theorem exists_row (h : Loaded db m) (hr : m.memToCollects id = some r) :
    ∃ row ∈ db.toCollect.rows, row.id = ((id : ℕ) : ℤ) ∧ r = row.load := by
  rw [h.slot] at hr
  obtain ⟨row, hrow, rfl⟩ := Option.map_eq_some_iff.mp hr
  exact ⟨row, List.mem_of_find?_eq_some hrow,
    by simpa using List.find?_some hrow, rfl⟩

end Loaded

/-- There is never a record in slot 0. -/
theorem memToCollects_zero {db : Database} {m : Mem} (hload : loadInMem db = .ok m)
    (qs : List Request) : (collectAll m qs).memToCollects 0 = none := by
  have hzero : m.memToCollects 0 = none := by
    cases hr : m.memToCollects 0 with
    | none => rfl
    | some r => exact absurd ((loaded_of_loadInMem hload).one_le hr) (Nat.not_succ_le_zero 0)
  rw [memToCollects_collectAll, hzero]
  rfl


/-! ## The energy of the tables -/

/-- The energy in a row of `to_collect_energy`. -/
def ToCollectRow.energy (row : ToCollectRow) : ℤ := (getInt row.toCollectEnergy).toInt

/-- The energy in a row of `total_energy`. -/
def TotalRow.energy (row : TotalRow) : ℤ := (getInt row.totalEnergy).toInt

/-- The sum of `to_collect_energy` over its table. -/
def ToCollectTable.energy (t : ToCollectTable) : ℤ := (t.rows.map ToCollectRow.energy).sum

/-- The sum of `total_energy` over its table. -/
def TotalTable.energy (t : TotalTable) : ℤ := (t.rows.map TotalRow.energy).sum

/-- All the energy in the database. -/
def Database.energy (db : Database) : ℤ := db.toCollect.energy + db.total.energy

/-- **The values fit**: none is negative, and their sum is an `int`. -/
structure Database.Fits (db : Database) : Prop where
  toCollect_nonneg : ∀ row ∈ db.toCollect.rows, 0 ≤ row.energy
  total_nonneg : ∀ row ∈ db.total.rows, 0 ≤ row.energy
  energy_le : db.energy ≤ 2 ^ 31 - 1

/-- A sum over the rows is a sum over the indices, each row standing at its
key. -/
theorem sum_rows {M : Type*} [AddCommMonoid M] (f : ToCollectRow → M)
    {rows : List ToCollectRow} (hnd : (rows.map ToCollectRow.id).Nodup)
    (h : ∀ row ∈ rows, 0 ≤ row.id ∧ row.id ≤ reqTotalCnt) :
    ∑ id : RecordId, (rows.find? (fun row => row.id = ((id : ℕ) : ℤ))).elim 0 f
      = (rows.map f).sum := by
  induction rows with
  | nil => exact Finset.sum_const_zero
  | cons row rows ih =>
    rw [List.map_cons, List.nodup_cons] at hnd
    obtain ⟨h₀, hle⟩ := h row List.mem_cons_self
    obtain ⟨rid, hrid⟩ : ∃ rid : RecordId, row.id = ((rid : ℕ) : ℤ) := by
      refine ⟨⟨row.id.toNat, ?_⟩, (Int.toNat_of_nonneg h₀).symm⟩
      omega
    have hnone := find?_eq_none_of_notMem hrid hnd.1
    have hsplit : ∀ id : RecordId,
        ((row :: rows).find? (fun row => row.id = ((id : ℕ) : ℤ))).elim 0 f
          = (if id = rid then f row else 0)
            + (rows.find? (fun row => row.id = ((id : ℕ) : ℤ))).elim 0 f := by
      intro id
      by_cases hid : id = rid
      · subst hid
        rw [List.find?_cons_of_pos (by simpa using hrid), hnone, if_pos rfl]
        exact (add_zero _).symm
      · have hne : ¬ row.id = ((id : ℕ) : ℤ) := fun heq =>
          hid (Fin.ext (Int.ofNat.inj (heq.symm.trans hrid)))
        rw [List.find?_cons_of_neg (by simpa using hne), if_neg hid, zero_add]
    rw [Finset.sum_congr rfl (fun id _ => hsplit id), Finset.sum_add_distrib,
      Finset.sum_ite_eq' Finset.univ rid, if_pos (Finset.mem_univ rid),
      ih hnd.2 (fun row' hrow' => h row' (List.mem_cons_of_mem _ hrow')),
      List.map_cons, List.sum_cons]

theorem energy_loadTotal_le (rows : List TotalRow) (t : TotalEnergyMap)
    (h : ∀ row ∈ rows, 0 ≤ row.energy) :
    ((loadTotal rows t).energy : ℤ) ≤ t.energy + (rows.map TotalRow.energy).sum := by
  induction rows generalizing t with
  | nil => exact le_of_eq (add_zero _).symm
  | cons row rows ih =>
    have hrow : ((getInt row.totalEnergy).toUInt32.toNat : ℤ) = row.energy :=
      toNat_toUInt32 (h row List.mem_cons_self)
    have hassign := t.energy_assign (getString row.userId) (getInt row.totalEnergy).toUInt32
    have := ih (t.assign (getString row.userId) (getInt row.totalEnergy).toUInt32)
      (fun row' hrow' => h row' (List.mem_cons_of_mem _ hrow'))
    rw [List.map_cons, List.sum_cons]
    show ((loadTotal rows (t.assign _ _)).energy : ℤ) ≤ _
    omega

namespace Loaded

variable {db : Database} {m : Mem}

/-- A record's energy is its row's. -/
theorem energy_load {row : ToCollectRow} (h : 0 ≤ row.energy) :
    (row.load.toCollectEnergy.toNat : ℤ) = row.energy := toNat_toUInt32 h

/-- The energy of the records is that of their table. -/
theorem recordEnergy_eq (h : Loaded db m)
    (hnn : ∀ row ∈ db.toCollect.rows, 0 ≤ row.energy) :
    (m.recordEnergy : ℤ) = db.toCollect.energy := by
  have hslot : ∀ id, (m.slotEnergy id : ℤ)
      = (db.toCollect.row? id).elim 0 ToCollectRow.energy := by
    intro id
    rw [Mem.slotEnergy, h.slot]
    cases hrow : db.toCollect.row? id with
    | none => rfl
    | some row => exact energy_load (hnn row (List.mem_of_find?_eq_some hrow))
  rw [Mem.recordEnergy, Nat.cast_sum, Finset.sum_congr rfl (fun id _ => hslot id)]
  exact sum_rows ToCollectRow.energy db.toCollect.nodup_id
    (fun row hrow => ⟨(db.toCollect.id_pos row hrow).trans' Int.one_nonneg,
      h.id_le row hrow⟩)

end Loaded

/-- **Loading makes no energy.** It can lose some, where two rows are read as the
same name. -/
theorem energy_loadInMem_le {db : Database} {m : Mem} (h : loadInMem db = .ok m)
    (hfit : db.Fits) : (m.energy : ℤ) ≤ db.energy := by
  have hrec := (loaded_of_loadInMem h).recordEnergy_eq hfit.toCollect_nonneg
  have htot : (m.memTotalEnergyMap.energy : ℤ) ≤ db.total.energy := by
    unfold loadInMem at h
    cases hload : db.toCollect.rows.foldlM loadToCollect
        (⟨fun _ => none, .empty⟩ : Mem) with
    | error e =>
      rw [hload] at h
      cases h
    | ok m₁ =>
      rw [hload] at h
      obtain ⟨-, hm₁, -⟩ := foldlM_loadToCollect hload db.toCollect.nodup_id
      obtain rfl := Except.ok.inj h
      have hle := energy_loadTotal_le db.total.rows m₁.memTotalEnergyMap hfit.total_nonneg
      rw [hm₁] at hle
      show ((loadTotal db.total.rows m₁.memTotalEnergyMap).energy : ℤ) ≤ _
      rw [hm₁]
      refine hle.trans (le_of_eq ?_)
      exact zero_add _
  unfold Mem.energy Database.energy
  push_cast
  omega

/-- What is in memory fits an `int` altogether. -/
theorem Database.Fits.energy_lt {db : Database} {m : Mem} (hfit : db.Fits)
    (h : loadInMem db = .ok m) : m.energy < 2 ^ 31 := by
  have h₁ := energy_loadInMem_le h hfit
  have h₂ := hfit.energy_le
  omega

/-- A database with ten units in record 1 and five with its owner. -/
def tenUnitsDb : Database where
  toCollect := ⟨[⟨1, some (ascii "ann"), some 10, none⟩], by decide, by decide⟩
  total := ⟨[⟨1, some (ascii "ann"), some 5⟩], by decide, by decide⟩

theorem tenUnitsDb_fits : tenUnitsDb.Fits := ⟨by decide, by decide, by decide⟩

/-- A database with all ids, in which every record is the same. -/
def uniformDb (owner : CString) (e : Int32) (total : TotalTable) : Database where
  toCollect :=
    { rows := (List.range' 1 reqTotalCnt).map fun i : ℕ =>
      ⟨i, some owner.bytes, some e, none⟩
      nodup_id := by
        rw [List.map_map]
        exact (List.nodup_range' 1).map Int.ofNat_injective
      id_pos := by
        intro row hrow
        obtain ⟨i, hi, rfl⟩ := List.mem_map.mp hrow
        have := (List.mem_range'_1.mp hi).1
        show (1 : ℤ) ≤ (i : ℤ)
        omega }
  total := total

section Uniform

variable {owner : CString} {e : Int32} {total : TotalTable}

theorem mem_rows_uniformDb {row : ToCollectRow} :
    row ∈ (uniformDb owner e total).toCollect.rows
      ↔ ∃ i : ℕ, 1 ≤ i ∧ i ≤ reqTotalCnt ∧ row = ⟨i, some owner.bytes, some e, none⟩ := by
  unfold uniformDb
  rw [List.mem_map]
  constructor
  · rintro ⟨i, hi, rfl⟩
    obtain ⟨h₁, h₂⟩ := List.mem_range'_1.mp hi
    exact ⟨i, h₁, by omega, rfl⟩
  · rintro ⟨i, h₁, h₂, rfl⟩
    exact ⟨i, List.mem_range'_1.mpr ⟨h₁, by omega⟩, rfl⟩

theorem allIds_uniformDb : (uniformDb owner e total).AllIds := fun id hid =>
  ⟨_, mem_rows_uniformDb.mpr ⟨id, hid, Nat.lt_succ_iff.mp id.isLt, rfl⟩, rfl⟩

theorem exists_loadInMem_uniformDb :
    ∃ m, loadInMem (uniformDb owner e total) = .ok m :=
  exists_loadInMem (fun row hrow => by
    obtain ⟨i, -, hi, rfl⟩ := mem_rows_uniformDb.mp hrow
    exact Int.ofNat_le.mpr hi)

theorem slot_uniformDb {m : Mem} (h : loadInMem (uniformDb owner e total) = .ok m)
    {id : RecordId} (hid : 1 ≤ (id : ℕ)) :
    m.memToCollects id = some { userId := owner, toCollectEnergy := e.toUInt32 } := by
  have hl := loaded_of_loadInMem h
  obtain ⟨r, hr⟩ := Option.isSome_iff_exists.mp (hl.isSome_slot allIds_uniformDb hid)
  obtain ⟨row, hrow, -, rfl⟩ := hl.exists_row hr
  obtain ⟨i, -, -, rfl⟩ := mem_rows_uniformDb.mp hrow
  rw [hr]
  show some (⟨getString (some owner.bytes), _, _, _⟩ : MemToCollect) = _
  rw [getString, Option.getD_some, CString.ofBytes_bytes]
  rfl

theorem fits_uniformDb (he : 0 ≤ e.toInt) (ht : ∀ row ∈ total.rows, 0 ≤ row.energy)
    (hsum : reqTotalCnt * e.toInt + total.energy ≤ 2 ^ 31 - 1) :
    (uniformDb owner e total).Fits := by
  refine ⟨fun row hrow => ?_, ht, ?_⟩
  · obtain ⟨i, -, -, rfl⟩ := mem_rows_uniformDb.mp hrow
    exact he
  · have hsame : (uniformDb owner e total).toCollect.rows.map ToCollectRow.energy
        = List.replicate reqTotalCnt e.toInt := by
      unfold uniformDb
      rw [List.map_map, List.eq_replicate_iff, List.length_map, List.length_range']
      refine ⟨rfl, fun x hx => ?_⟩
      obtain ⟨i, -, rfl⟩ := List.mem_map.mp hx
      rfl
    show ((uniformDb owner e total).toCollect.rows.map ToCollectRow.energy).sum
      + total.energy ≤ _
    rw [hsame, List.sum_replicate, nsmul_eq_mul]
    exact hsum

end Uniform

/-- A database in which every record holds three units of one user. -/
def threeUnitsDb : Database := uniformDb ann 3 ⟨[], by decide, by decide⟩

end GreenFinal
