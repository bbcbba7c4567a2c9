import GreenFinal.Ledger

/-!
# The write-back

Two background threads write the memory image back, one a table each, while
holding a lock on the table that keeps other sessions out and does nothing
about the threads of this process. `executeUpdateToCollect` goes through the
indices from 1 to `REQ_TOTAL_CNT`, reads every record through its pointer
without looking whether it is null, and issues an UPDATE for those whose
`modified_` is set. `executeUpdateTotal` issues one for every entry of
`memTotalEnergyMap`, in the order in which the hash map yields them. An UPDATE
changes the rows its WHERE clause selects and inserts none.

Here nothing else runs during a write-back; the write-back against running
requests is in `GreenFinal.FlushRace`. The last section says which records the
write-back should have written and when it does.
-/

open CLib

namespace GreenFinal

/-! ## The statements -/

/-- An UPDATE of `to_collect_energy`, with what is bound to its parameters. -/
structure ToCollectUpdate where
  /-- `set to_collect_energy = ?` -/
  toCollectEnergy : Int32
  /-- `set status = ?` -/
  status : List UInt8
  /-- `where id = ?` -/
  id : ℤ
  deriving DecidableEq

/-- An UPDATE of `total_energy`, with what is bound to its parameters. -/
structure TotalUpdate where
  /-- `set total_energy = ?` -/
  totalEnergy : Int32
  /-- `where user_id = ?` -/
  userId : CString
  deriving DecidableEq

/-- What an UPDATE of `to_collect_energy` makes of a row. -/
def ToCollectUpdate.apply (q : ToCollectUpdate) (row : ToCollectRow) : ToCollectRow :=
  if row.id = q.id then
    { row with toCollectEnergy := some q.toCollectEnergy, status := some q.status }
  else row

/-- What an UPDATE of `total_energy` makes of a row. -/
def TotalUpdate.apply (q : TotalUpdate) (row : TotalRow) : TotalRow :=
  if row.userId = some q.userId.bytes then { row with totalEnergy := some q.totalEnergy }
  else row

@[simp] theorem ToCollectUpdate.id_apply (q : ToCollectUpdate) (row : ToCollectRow) :
    (q.apply row).id = row.id := by
  unfold apply
  split <;> rfl

@[simp] theorem TotalUpdate.id_apply (q : TotalUpdate) (row : TotalRow) :
    (q.apply row).id = row.id := by
  unfold apply
  split <;> rfl

@[simp] theorem TotalUpdate.userId_apply (q : TotalUpdate) (row : TotalRow) :
    (q.apply row).userId = row.userId := by
  unfold apply
  split <;> rfl

/-- `toCollectEnergy_update`. -/
def toCollectEnergyUpdate (t : ToCollectTable) (q : ToCollectUpdate) : ToCollectTable where
  rows := t.rows.map q.apply
  nodup_id := by
    rw [List.map_map, show ToCollectRow.id ∘ q.apply = ToCollectRow.id from funext q.id_apply]
    exact t.nodup_id
  id_pos := by
    intro row hrow
    obtain ⟨row', hrow', rfl⟩ := List.mem_map.mp hrow
    rw [q.id_apply]
    exact t.id_pos row' hrow'

/-- `totalEnergy_update`. -/
def totalEnergyUpdate (t : TotalTable) (q : TotalUpdate) : TotalTable where
  rows := t.rows.map q.apply
  nodup_id := by
    rw [List.map_map, show TotalRow.id ∘ q.apply = TotalRow.id from funext q.id_apply]
    exact t.nodup_id
  nodup_userId := by
    rw [List.filterMap_map,
      show TotalRow.userId ∘ q.apply = TotalRow.userId from funext q.userId_apply]
    exact t.nodup_userId

/-! ## The two threads -/

/-- The status text of a record: one for `ALL_COLLECTED`, the other for
everything else. -/
def MemToCollect.newStatus (r : MemToCollect) : List UInt8 :=
  if r.status = .allCollected then ascii "all_collected" else ascii "collected_by_other"

/-- The UPDATE a record is written back with. -/
def MemToCollect.update (r : MemToCollect) (id : RecordId) : ToCollectUpdate :=
  ⟨r.toCollectEnergy.toInt32, r.newStatus, (id : ℕ)⟩

/-- The body of the loop of `executeUpdateToCollect`. -/
def flushRecord (m : Mem) (id : RecordId) : Except Fault (List ToCollectUpdate) :=
  match m.memToCollects id with
  | none => .error .nullRecord
  | some r => .ok (if r.modified then [r.update id] else [])

/-- The UPDATEs for the records of a list, in order. -/
def flushRecords (m : Mem) : List RecordId → Except Fault (List ToCollectUpdate)
  | [] => .ok []
  | id :: ids =>
    match flushRecord m id with
    | .error e => .error e
    | .ok us =>
      match flushRecords m ids with
      | .error e => .error e
      | .ok us' => .ok (us ++ us')

/-- The indices from 1 to `REQ_TOTAL_CNT`. -/
def scanIds : List RecordId := (List.finRange reqTotalCnt).map Fin.succ

/-- **`executeUpdateToCollect`**: the table afterwards, or the null pointer it ran
into. -/
def executeUpdateToCollect (m : Mem) (t : ToCollectTable) : Except Fault ToCollectTable :=
  (flushRecords m scanIds).map fun us => us.foldl toCollectEnergyUpdate t

/-- The UPDATE a total is written back with. -/
def TotalEnergyMap.update (t : TotalEnergyMap) (u : CString) : TotalUpdate :=
  ⟨(t.val u).toInt32, u⟩

/-- **`executeUpdateTotal`**, the hash map yielding its keys in the given order. -/
def executeUpdateTotal (t : TotalEnergyMap) (order : List CString) (tab : TotalTable) :
    TotalTable :=
  (order.map t.update).foldl totalEnergyUpdate tab

/-- **The complete write-back**, with nothing else running. -/
def writeBack (m : Mem) (order : List CString) (db : Database) : Except Fault Database :=
  (executeUpdateToCollect m db.toCollect).map fun t =>
    ⟨t, executeUpdateTotal m.memTotalEnergyMap order db.total⟩

/-! ## What they leave in the rows -/

theorem mem_scanIds {id : RecordId} : id ∈ scanIds ↔ 1 ≤ (id : ℕ) := by
  unfold scanIds
  rw [List.mem_map]
  constructor
  · rintro ⟨i, -, rfl⟩
    exact Nat.succ_le_succ (Nat.zero_le _)
  · intro h
    have hne : id ≠ 0 := fun h0 => by
      rw [h0] at h
      exact absurd h (by decide)
    exact ⟨id.pred hne, List.mem_finRange _, Fin.succ_pred id hne⟩

theorem nodup_scanIds : scanIds.Nodup :=
  (List.nodup_finRange _).map (Fin.succ_injective _)

/-- The statements of a scan in which no pointer is null. -/
def updatesOf (m : Mem) (id : RecordId) : List ToCollectUpdate :=
  (m.memToCollects id).elim [] fun r => if r.modified then [r.update id] else []

theorem flushRecords_eq {m : Mem} {ids : List RecordId}
    (h : ∀ id ∈ ids, (m.memToCollects id).isSome = true) :
    flushRecords m ids = .ok (ids.flatMap (updatesOf m)) := by
  induction ids with
  | nil => rfl
  | cons id ids ih =>
    obtain ⟨r, hr⟩ := Option.isSome_iff_exists.mp (h id List.mem_cons_self)
    have hone : flushRecord m id = .ok (updatesOf m id) := by
      rw [flushRecord, updatesOf, hr]
      rfl
    rw [flushRecords, hone, ih (fun id' h' => h id' (List.mem_cons_of_mem _ h')),
      List.flatMap_cons]

theorem id_of_mem_updatesOf {m : Mem} {id : RecordId} {q : ToCollectUpdate}
    (h : q ∈ updatesOf m id) : q.id = ((id : ℕ) : ℤ) := by
  unfold updatesOf at h
  cases hr : m.memToCollects id with
  | none =>
    rw [hr] at h
    exact absurd h List.not_mem_nil
  | some r =>
    rw [hr] at h
    change q ∈ (if r.modified then [r.update id] else []) at h
    split at h
    · rw [List.mem_singleton.mp h]
      rfl
    · exact absurd h List.not_mem_nil

/-- **What a row looks like after the write-back** of its record. -/
def writeBackRow (m : Mem) (row : ToCollectRow) : ToCollectRow :=
  ((recordIndex? row.id).bind m.memToCollects).elim row fun r =>
    if r.modified then
      { row with toCollectEnergy := some r.toCollectEnergy.toInt32, status := some r.newStatus }
    else row

@[simp] theorem id_writeBackRow (m : Mem) (row : ToCollectRow) :
    (writeBackRow m row).id = row.id := by
  unfold writeBackRow
  cases (recordIndex? row.id).bind m.memToCollects with
  | none => rfl
  | some r =>
    show (if r.modified then _ else _ : ToCollectRow).id = _
    split <;> rfl

/-- The row of a record after the write-back. -/
theorem writeBackRow_of_some {m : Mem} {row : ToCollectRow} {id : RecordId}
    {r : MemToCollect} (hrow : row.id = ((id : ℕ) : ℤ)) (hr : m.memToCollects id = some r) :
    writeBackRow m row = if r.modified then
      { row with toCollectEnergy := some r.toCollectEnergy.toInt32, status := some r.newStatus }
      else row := by
  have hidx : recordIndex? row.id = some id := recordIndex?_eq_some.mpr hrow
  rw [writeBackRow, hidx, Option.bind_some, hr, Option.elim_some]

theorem foldl_apply_of_ne {us : List ToCollectUpdate} {row : ToCollectRow}
    (h : ∀ q ∈ us, q.id ≠ row.id) : us.foldl (fun row q => q.apply row) row = row := by
  induction us with
  | nil => rfl
  | cons q us ih =>
    have hq : q.apply row = row := if_neg (Ne.symm (h q List.mem_cons_self))
    rw [List.foldl_cons, hq]
    exact ih (fun q' h' => h q' (List.mem_cons_of_mem _ h'))

/-- The statements of a scan touch a row at most once, at its record. -/
theorem foldl_apply_updatesOf (m : Mem) {ids : List RecordId} (hnd : ids.Nodup)
    {id : RecordId} {row : ToCollectRow} (hid : id ∈ ids) (hrow : row.id = ((id : ℕ) : ℤ)) :
    (ids.flatMap (updatesOf m)).foldl (fun row q => q.apply row) row = writeBackRow m row := by
  induction ids with
  | nil => exact absurd hid List.not_mem_nil
  | cons id' ids ih =>
    rw [List.nodup_cons] at hnd
    rw [List.flatMap_cons, List.foldl_append]
    by_cases h : id' = id
    · subst h
      -- the record of this row comes first, and none of the later statements is its
      have hfirst : (updatesOf m id').foldl (fun row q => q.apply row) row
          = writeBackRow m row := by
        have hidx : recordIndex? row.id = some id' := by
          rw [hrow]
          exact recordIndex?_natCast id'
        unfold writeBackRow updatesOf
        rw [hidx, Option.bind_some]
        cases m.memToCollects id' with
        | none => rfl
        | some r =>
          show (if r.modified then [r.update id'] else []).foldl _ row = if r.modified then _ else _
          split
          · exact if_pos hrow
          · rfl
      rw [hfirst]
      refine foldl_apply_of_ne (fun q hq heq => ?_)
      obtain ⟨id'', hmem, hq'⟩ := List.mem_flatMap.mp hq
      rw [id_writeBackRow, hrow, id_of_mem_updatesOf hq'] at heq
      rw [Fin.ext (Int.ofNat.inj heq)] at hmem
      exact hnd.1 hmem
    · have hskip : (updatesOf m id').foldl (fun row q => q.apply row) row = row := by
        refine foldl_apply_of_ne (fun q hq heq => h ?_)
        rw [hrow, id_of_mem_updatesOf hq] at heq
        exact Fin.ext (Int.ofNat.inj heq)
      rw [hskip]
      exact ih hnd.2 ((List.mem_cons.mp hid).resolve_left (fun he => h he.symm))

theorem rows_foldl_toCollectEnergyUpdate (us : List ToCollectUpdate) (t : ToCollectTable) :
    (us.foldl toCollectEnergyUpdate t).rows
      = t.rows.map (fun row => us.foldl (fun row q => q.apply row) row) := by
  induction us generalizing t with
  | nil => exact (List.map_id' _).symm
  | cons q us ih =>
    rw [List.foldl_cons, ih]
    show (t.rows.map q.apply).map _ = _
    rw [List.map_map]
    rfl

theorem rows_foldl_totalEnergyUpdate (us : List TotalUpdate) (t : TotalTable) :
    (us.foldl totalEnergyUpdate t).rows
      = t.rows.map (fun row => us.foldl (fun row q => q.apply row) row) := by
  induction us generalizing t with
  | nil => exact (List.map_id' _).symm
  | cons q us ih =>
    rw [List.foldl_cons, ih]
    show (t.rows.map q.apply).map _ = _
    rw [List.map_map]
    rfl

/-- **A scan without null pointers writes every record back into its row.** -/
theorem executeUpdateToCollect_eq {m : Mem} (t : ToCollectTable)
    (h : ∀ id : RecordId, 1 ≤ (id : ℕ) → (m.memToCollects id).isSome = true) :
    ∃ t', executeUpdateToCollect m t = .ok t' ∧ t'.rows = t.rows.map (writeBackRow m) := by
  refine ⟨(scanIds.flatMap (updatesOf m)).foldl toCollectEnergyUpdate t, ?_, ?_⟩
  · rw [executeUpdateToCollect, flushRecords_eq (fun id hid => h id (mem_scanIds.mp hid))]
    rfl
  · rw [rows_foldl_toCollectEnergyUpdate]
    refine List.map_congr_left (fun row hrow => ?_)
    cases hid : recordIndex? row.id with
    | some id =>
      have hrowid := recordIndex?_eq_some.mp hid
      have hpos := t.id_pos row hrow
      exact foldl_apply_updatesOf m nodup_scanIds (mem_scanIds.mpr (by omega)) hrowid
    | none =>
      have hskip : writeBackRow m row = row := by
        rw [writeBackRow, hid]
        rfl
      rw [hskip]
      refine foldl_apply_of_ne (fun q hq heq => ?_)
      obtain ⟨id, -, hq'⟩ := List.mem_flatMap.mp hq
      rw [← heq, id_of_mem_updatesOf hq', recordIndex?_natCast] at hid
      cases hid

/-- The name of a row, where it is a C string. -/
def TotalRow.name? (row : TotalRow) : Option CString :=
  row.userId.bind fun bs => if h : (0 : UInt8) ∉ bs then some ⟨bs, h⟩ else none

theorem TotalRow.name?_eq_some {row : TotalRow} {u : CString} :
    row.name? = some u ↔ row.userId = some u.bytes := by
  unfold name?
  constructor
  · intro h
    obtain ⟨bs, hbs, h⟩ := Option.bind_eq_some_iff.mp h
    split at h
    · rw [hbs, ← Option.some.inj h]
    · cases h
  · intro h
    rw [h, Option.bind_some, dif_pos u.nulFree]

/-- **What a row looks like after the write-back** of its user's total. -/
def writeBackTotal (t : TotalEnergyMap) (row : TotalRow) : TotalRow :=
  row.name?.elim row fun u =>
    if u ∈ t.keys then { row with totalEnergy := some (t.val u).toInt32 } else row

/-- The hash map yields every key once, in some order. -/
def TotalEnergyMap.Enumerates (t : TotalEnergyMap) (order : List CString) : Prop :=
  order.Nodup ∧ order.toFinset = t.keys

instance (t : TotalEnergyMap) (order : List CString) : Decidable (t.Enumerates order) :=
  inferInstanceAs (Decidable (_ ∧ _))

theorem TotalEnergyMap.Enumerates.mem_iff {t : TotalEnergyMap} {order : List CString}
    (h : t.Enumerates order) {u : CString} : u ∈ order ↔ u ∈ t.keys := by
  rw [← h.2, List.mem_toFinset]

theorem TotalEnergyMap.exists_enumerates (t : TotalEnergyMap) : ∃ order, t.Enumerates order :=
  ⟨t.keys.toList, t.keys.nodup_toList, t.keys.toList_toFinset⟩

theorem foldl_apply_update (t : TotalEnergyMap) (order : List CString) {row : TotalRow}
    {u : CString} (hrow : row.userId = some u.bytes) :
    (order.map t.update).foldl (fun row q => q.apply row) row
      = if u ∈ order then { row with totalEnergy := some (t.val u).toInt32 } else row := by
  induction order generalizing row with
  | nil => rfl
  | cons v order ih =>
    rw [List.map_cons, List.foldl_cons]
    by_cases hv : v = u
    · subst hv
      have hset : (t.update v).apply row
          = { row with totalEnergy := some (t.val v).toInt32 } := if_pos hrow
      have hrow' : ({ row with totalEnergy := some (t.val v).toInt32 } : TotalRow).userId
          = some v.bytes := hrow
      rw [hset, ih hrow', if_pos List.mem_cons_self]
      split <;> rfl
    · have hskip : (t.update v).apply row = row := by
        refine if_neg (fun h => hv ?_)
        exact CString.ext_bytes (Option.some.inj (h.symm.trans hrow))
      rw [hskip, ih hrow]
      simp only [List.mem_cons, Ne.symm hv, false_or]

/-- **The write-back of the totals writes every total into the row of its
user**, where there is one, whatever the order of the keys. -/
theorem rows_executeUpdateTotal {t : TotalEnergyMap} {order : List CString}
    (h : t.Enumerates order) (tab : TotalTable) :
    (executeUpdateTotal t order tab).rows = tab.rows.map (writeBackTotal t) := by
  rw [executeUpdateTotal, rows_foldl_totalEnergyUpdate]
  refine List.map_congr_left (fun row _ => ?_)
  unfold writeBackTotal
  cases hname : row.name? with
  | some u =>
    rw [foldl_apply_update t order (TotalRow.name?_eq_some.mp hname)]
    simp only [h.mem_iff, Option.elim_some]
  | none =>
    have hskip : ∀ us : List CString,
        (us.map t.update).foldl (fun row q => q.apply row) row = row := by
      intro us
      induction us with
      | nil => rfl
      | cons v us ih =>
        have hv : (t.update v).apply row = row := by
          refine if_neg (fun h => ?_)
          rw [(TotalRow.name?_eq_some (u := v)).mpr h] at hname
          cases hname
        rw [List.map_cons, List.foldl_cons, hv, ih]
    exact hskip order

/-- The row of an id after the write-back. -/
theorem row?_writeBack {t t' : ToCollectTable} {m : Mem}
    (h : t'.rows = t.rows.map (writeBackRow m)) (id : RecordId) :
    t'.row? id = (t.row? id).map (writeBackRow m) := by
  have hid : (fun row : ToCollectRow => decide (row.id = ((id : ℕ) : ℤ))) ∘ writeBackRow m
      = fun row => decide (row.id = ((id : ℕ) : ℤ)) := by
    funext row
    simp
  rw [ToCollectTable.row?, ToCollectTable.row?, h, List.find?_map, hid]

theorem writeBack_eq {m : Mem} {order : List CString} (db : Database)
    (h : ∀ id : RecordId, 1 ≤ (id : ℕ) → (m.memToCollects id).isSome = true)
    (horder : m.memTotalEnergyMap.Enumerates order) :
    ∃ db', writeBack m order db = .ok db'
      ∧ db'.toCollect.rows = db.toCollect.rows.map (writeBackRow m)
      ∧ db'.total.rows = db.total.rows.map (writeBackTotal m.memTotalEnergyMap) := by
  obtain ⟨t', ht', hrows⟩ := executeUpdateToCollect_eq db.toCollect h
  refine ⟨⟨t', executeUpdateTotal m.memTotalEnergyMap order db.total⟩, ?_, hrows,
    rows_executeUpdateTotal horder db.total⟩
  rw [writeBack, ht']
  rfl

/-! ## What should be written -/

/-- The status text of a record from which something has been taken. -/
def collectedText : Status → Option (List UInt8)
  | .empty => none
  | .collectedByOther => some (ascii "collected_by_other")
  | .allCollected => some (ascii "all_collected")

/-- The row that a record ought to leave: its energy and the text of its status,
if something has been taken. -/
def collectedRow (m : Mem) (row : ToCollectRow) : ToCollectRow :=
  ((recordIndex? row.id).bind m.memToCollects).elim row fun r =>
    (collectedText r.status).elim row fun text =>
      { row with toCollectEnergy := some r.toCollectEnergy.toInt32, status := some text }

/-- The UPDATE that a record ought to be written back with, if any. -/
def collectedUpdate (m : Mem) (id : RecordId) : List ToCollectUpdate :=
  (m.memToCollects id).elim [] fun r =>
    (collectedText r.status).toList.map fun text => ⟨r.toCollectEnergy.toInt32, text, (id : ℕ)⟩

/-- **The write-back writes what was collected**: it updates exactly the records
from which something has been taken, each with its energy and the text of its
status, and leaves the rows of the others alone; and the marks say so. -/
structure FlushesCollected (m : Mem) (t : ToCollectTable) : Prop where
  /-- The UPDATEs issued. -/
  updates : flushRecords m scanIds = .ok (scanIds.flatMap (collectedUpdate m))
  /-- The rows they leave. -/
  rows : ∃ t', executeUpdateToCollect m t = .ok t' ∧ t'.rows = t.rows.map (collectedRow m)
  /-- The marks. -/
  modified : ∀ id r, m.memToCollects id = some r →
    (r.modified = true ↔ r.status ≠ .empty)

/-- The status decides the text. -/
theorem collectedText_of_ne {r : MemToCollect} (h : r.status ≠ .empty) :
    collectedText r.status = some r.newStatus := by
  unfold MemToCollect.newStatus
  cases hs : r.status with
  | empty => exact absurd hs h
  | collectedByOther => rfl
  | allCollected => rfl

/-- **It all hangs on the marks.** -/
theorem flushesCollected_of_modified {m : Mem} (t : ToCollectTable)
    (hsome : ∀ id : RecordId, 1 ≤ (id : ℕ) → (m.memToCollects id).isSome = true)
    (h : ∀ id r, m.memToCollects id = some r → (r.modified = true ↔ r.status ≠ .empty)) :
    FlushesCollected m t := by
  have hupdates : updatesOf m = collectedUpdate m := by
    funext id
    unfold updatesOf collectedUpdate
    cases hr : m.memToCollects id with
    | none => rfl
    | some r =>
      show (if r.modified then [r.update id] else []) = (collectedText r.status).toList.map _
      by_cases hs : r.status = .empty
      · have hm : ¬ r.modified = true := fun hm => (h id r hr).mp hm hs
        rw [if_neg hm, hs]
        rfl
      · rw [if_pos ((h id r hr).mpr hs), collectedText_of_ne hs]
        rfl
  have hrows : writeBackRow m = collectedRow m := by
    funext row
    unfold writeBackRow collectedRow
    cases hr : (recordIndex? row.id).bind m.memToCollects with
    | none => rfl
    | some r =>
      obtain ⟨id, -, hr'⟩ := Option.bind_eq_some_iff.mp hr
      rw [Option.elim_some, Option.elim_some]
      by_cases hs : r.status = .empty
      · have hm : ¬ r.modified = true := fun hm => (h id r hr').mp hm hs
        rw [if_neg hm, hs]
        rfl
      · rw [if_pos ((h id r hr').mpr hs), collectedText_of_ne hs]
        rfl
  refine ⟨?_, ?_, h⟩
  · rw [flushRecords_eq (fun id hid => hsome id (mem_scanIds.mp hid)), hupdates]
  · rw [← hrows]
    exact executeUpdateToCollect_eq t hsome

/-- A record somebody asked for in vain: it is marked and nothing has been taken
from it, unless its owner asked too. -/
theorem MemToCollect.modified_iff_nexts {r : MemToCollect} (hs : r.status = .empty)
    (hm : r.modified = false) (us : List CString) :
    ((r.nexts us).modified = true ↔ (r.nexts us).status ≠ .empty)
      ↔ (r.toCollectEnergy ≤ 3 → us ≠ [] → r.userId ∈ us) := by
  have hmod : (r.nexts us).modified = true ↔ us ≠ [] := by
    rw [modified_nexts (by rw [hs]; decide), hm]
    simp
  have hstatus := (nexts_settle hs us).1
  rw [hmod, hstatus]
  by_cases he : r.toCollectEnergy ≤ 3
  · have he' : r.toCollectEnergy.toNat ≤ 3 := UInt32.le_iff_toNat_le.mp he
    rw [settle_status_of_le he']
    by_cases ho : r.userId ∈ us
    · have hne : us ≠ [] := List.ne_nil_of_mem ho
      simp [ho, hne]
    · simp [ho, he]
  · have he' : 3 < r.toCollectEnergy.toNat :=
      UInt32.lt_iff_toNat_lt.mp (UInt32.not_le.mp he)
    by_cases hne : us = []
    · subst hne
      simp [settle]
    · rw [settle_status_of_lt he' hne]
      by_cases ho : r.userId ∈ us
      · simp [ho, hne]
      · simp [ho, hne, he]

/-- Where a record has an energy as given, **nobody asks for it, or its owner asks
too**. -/
def OwnersAskToo (p : UInt32 → Prop) (m : Mem) (qs : List Request) : Prop :=
  ∀ id r, m.memToCollects id = some r → p r.toCollectEnergy →
    (∃ q ∈ qs, q.id = id) → ∃ q ∈ qs, q.id = id ∧ q.userId = r.userId

/-- In the race for a record the owner asks. -/
theorem ownersAskToo_raceCalls {e : Int32} {total : TotalTable} {m : Mem}
    (hm : loadInMem (uniformDb ann e total) = .ok m) (p : UInt32 → Prop) :
    OwnersAskToo p m ([raceCalls 1, raceCalls 0].map Call.request) := by
  rintro id r hr - ⟨q, hq, rfl⟩
  have hone := (loaded_of_loadInMem hm).one_le hr
  rw [slot_uniformDb hm hone] at hr
  obtain rfl := Option.some.inj hr
  have hq' : q = (raceCalls 1).request ∨ q = (raceCalls 0).request := by simpa using hq
  have hid : q.id = 1 := by
    rcases hq' with rfl | rfl <;> rfl
  exact ⟨(raceCalls 0).request, by simp, hid.symm, rfl⟩

theorem askers_ne_nil {id : RecordId} {qs : List Request} :
    askers id qs ≠ [] ↔ ∃ q ∈ qs, q.id = id := by
  rw [Ne, List.eq_nil_iff_forall_not_mem, not_forall]
  constructor
  · rintro ⟨u, hu⟩
    obtain ⟨q, hq, hid, -⟩ := mem_askers.mp (not_not.mp hu)
    exact ⟨q, hq, hid⟩
  · rintro ⟨q, hq, hid⟩
    exact ⟨q.userId, not_not.mpr (mem_askers.mpr ⟨q, hq, hid, rfl⟩)⟩

/-- The marks after a sequence of calls. -/
theorem modified_iff_collectAll {db : Database} {m : Mem} (hl : Loaded db m)
    (qs : List Request) :
    (∀ id r, (collectAll m qs).memToCollects id = some r →
        (r.modified = true ↔ r.status ≠ .empty))
      ↔ OwnersAskToo (· ≤ 3) m qs := by
  constructor
  · intro h id r hr he hask
    obtain ⟨hs, hm⟩ := hl.fresh hr
    have hnext : (collectAll m qs).memToCollects id = some (r.nexts (askers id qs)) := by
      rw [memToCollects_collectAll, hr]
      rfl
    exact mem_askers.mp ((MemToCollect.modified_iff_nexts hs hm _).mp (h id _ hnext) he
      (askers_ne_nil.mpr hask))
  · intro h id r' hr'
    rw [memToCollects_collectAll] at hr'
    obtain ⟨r, hr, rfl⟩ := Option.map_eq_some_iff.mp hr'
    obtain ⟨hs, hm⟩ := hl.fresh hr
    exact (MemToCollect.modified_iff_nexts hs hm _).mpr (fun he hne =>
      mem_askers.mpr (h id r hr he (askers_ne_nil.mp hne)))

theorem isSome_collectAll {m : Mem} {id : RecordId} (h : (m.memToCollects id).isSome = true)
    (qs : List Request) : ((collectAll m qs).memToCollects id).isSome = true := by
  rw [memToCollects_collectAll, Option.isSome_map]
  exact h

/-- **When the write-back writes what was collected.** After any sequence of calls
on a loaded state with all ids, the write-back updates exactly the records from
which something has been taken if and only if, for each record with three units
or less that somebody asks for, its owner asks too: a call of another user marks
such a record and takes nothing from it. -/
theorem flushesCollected_iff {db : Database} {m : Mem} (hload : loadInMem db = .ok m)
    (hall : db.AllIds) (cs : List Call) :
    ∃ m', handleRequests cs m = .ok m'
      ∧ (FlushesCollected m' db.toCollect
        ↔ OwnersAskToo (· ≤ 3) m (cs.map Call.request)) := by
  have hl := loaded_of_loadInMem hload
  refine ⟨_, handleRequests_eq cs m, ?_⟩
  rw [← modified_iff_collectAll hl]
  exact ⟨fun h => h.modified, flushesCollected_of_modified _
    (fun id hid => isSome_collectAll (hl.isSome_slot hall hid) _)⟩

/-- If the owner asks too, the write-back is right. -/
theorem flushesCollected_owner :
    ∃ m m', loadInMem threeUnitsDb = .ok m
      ∧ handleRequests [raceCalls 1, raceCalls 0] m = .ok m'
      ∧ FlushesCollected m' threeUnitsDb.toCollect := by
  obtain ⟨m, hm⟩ : ∃ m, loadInMem threeUnitsDb = .ok m := exists_loadInMem_uniformDb
  obtain ⟨m', hm', hiff⟩ := flushesCollected_iff hm allIds_uniformDb
    [raceCalls 1, raceCalls 0]
  exact ⟨m, m', hm, hm', hiff.mpr (ownersAskToo_raceCalls hm _)⟩

/-- **A request that takes nothing is written back as if it had.** Another user
asks for a record with three units; the record stays `EMPTY`, and its row gets
the status `collected_by_other`. -/
theorem threeUnits_not_flushesCollected :
    ∃ m m' r t', loadInMem threeUnitsDb = .ok m ∧ threeUnitsDb.AllIds
      ∧ handleRequests [raceCalls 1] m = .ok m'
      ∧ m'.memToCollects 1 = some r ∧ r.status = .empty
      ∧ executeUpdateToCollect m' threeUnitsDb.toCollect = .ok t'
      ∧ (∃ row ∈ t'.rows, row.id = 1 ∧ row.status = some (ascii "collected_by_other"))
      ∧ ¬ FlushesCollected m' threeUnitsDb.toCollect := by
  obtain ⟨m, hm⟩ : ∃ m, loadInMem threeUnitsDb = .ok m := exists_loadInMem_uniformDb
  have hm' := handleRequests_eq [raceCalls 1] m
  obtain ⟨m', heq⟩ : ∃ m', m' = collectAll m ([raceCalls 1].map Call.request) := ⟨_, rfl⟩
  rw [← heq] at hm'
  obtain ⟨r, hr, hs, hmod⟩ : ∃ r, m'.memToCollects 1 = some r
      ∧ (r.status = .empty ∧ r.newStatus = ascii "collected_by_other") ∧ r.modified = true := by
    rw [heq, memToCollects_collectAll, slot_uniformDb hm (by decide)]
    exact ⟨_, rfl, by decide, by decide⟩
  obtain ⟨t', ht', hrows⟩ := executeUpdateToCollect_eq (m := m') threeUnitsDb.toCollect
    (fun id hid => by
      rw [heq]
      exact isSome_collectAll
        ((loaded_of_loadInMem hm).isSome_slot allIds_uniformDb hid) _)
  have hrow : writeBackRow m' ⟨1, some ann.bytes, some 3, none⟩
      = ⟨1, some ann.bytes, some r.toCollectEnergy.toInt32,
        some (ascii "collected_by_other")⟩ := by
    rw [writeBackRow_of_some rfl hr, if_pos hmod, hs.2]
  refine ⟨m, m', r, t', hm, allIds_uniformDb, hm', hr, hs.1, ht', ?_, fun h => ?_⟩
  · refine ⟨⟨1, some ann.bytes, some r.toCollectEnergy.toInt32,
      some (ascii "collected_by_other")⟩, ?_, rfl, rfl⟩
    rw [hrows, ← hrow]
    exact List.mem_map_of_mem (mem_rows_uniformDb.mpr ⟨1, by decide, by decide, rfl⟩)
  · exact (h.modified 1 r hr).mp hmod hs.1

/-! ## Tables with gaps -/

/-- Whether a record is there and marked. -/
def Mem.isModified (m : Mem) (id : RecordId) : Bool :=
  (m.memToCollects id).any MemToCollect.modified

/-- **The scan reaches its end**, and on its way it has issued an UPDATE for every
marked record and for no other. -/
def ScanCompletes (m : Mem) : Prop :=
  ∃ us, flushRecords m scanIds = .ok us
    ∧ us.map ToCollectUpdate.id = (scanIds.filter m.isModified).map fun id => ((id : ℕ) : ℤ)

/-- The first null pointer ends a scan. -/
theorem flushRecords_of_null {m : Mem} {ids : List RecordId} {id : RecordId} (hid : id ∈ ids)
    (h : m.memToCollects id = none) : flushRecords m ids = .error .nullRecord := by
  induction ids with
  | nil => exact absurd hid List.not_mem_nil
  | cons id' ids ih =>
    rw [flushRecords, flushRecord]
    cases hr : m.memToCollects id' with
    | none => rfl
    | some r =>
      have hrest : id ∈ ids := (List.mem_cons.mp hid).resolve_left fun heq => by
        rw [← heq, h] at hr
        cases hr
      rw [ih hrest]

theorem ids_updatesOf (m : Mem) (ids : List RecordId) :
    (ids.flatMap (updatesOf m)).map ToCollectUpdate.id
      = (ids.filter m.isModified).map fun id => ((id : ℕ) : ℤ) := by
  induction ids with
  | nil => rfl
  | cons id ids ih =>
    rw [List.flatMap_cons, List.map_append, ih, List.filter_cons, updatesOf, Mem.isModified]
    cases m.memToCollects id with
    | none => rfl
    | some r =>
      rw [Option.elim_some, Option.any_some]
      cases r.modified <;> rfl

/-- The scan ends well exactly if no pointer is null. -/
theorem scanCompletes_iff {m : Mem} :
    ScanCompletes m ↔ ∀ id : RecordId, 1 ≤ (id : ℕ) → (m.memToCollects id).isSome = true := by
  constructor
  · rintro ⟨us, hus, -⟩ id hid
    by_contra hnull
    have hnone : m.memToCollects id = none := Option.not_isSome_iff_eq_none.mp hnull
    rw [flushRecords_of_null (mem_scanIds.mpr hid) hnone] at hus
    cases hus
  · intro h
    exact ⟨_, flushRecords_eq (fun id hid => h id (mem_scanIds.mp hid)), ids_updatesOf m scanIds⟩

/-- The loader fills the slots of the rows and no others. -/
theorem Loaded.allIds_iff {db : Database} {m : Mem} (hl : Loaded db m) :
    db.AllIds ↔ ∀ id : RecordId, 1 ≤ (id : ℕ) → (m.memToCollects id).isSome = true := by
  refine ⟨fun h id hid => hl.isSome_slot h hid, fun h id hid => ?_⟩
  obtain ⟨r, hr⟩ := Option.isSome_iff_exists.mp (h id hid)
  obtain ⟨row, hrow, heq, -⟩ := hl.exists_row hr
  exact ⟨row, hrow, heq⟩

/-- **The write-back tolerates no gap.** The loader takes any table whose keys are
indices of the array, and the calls take any request for them, present or not; the
scan that follows reaches its end exactly if there is a row for every index. -/
theorem scanCompletes_iff_allIds {db : Database}
    (hdb : ∀ row ∈ db.toCollect.rows, row.id ≤ reqTotalCnt) :
    ∃ m, loadInMem db = .ok m ∧ ∀ cs : List Call, ∃ m', handleRequests cs m = .ok m'
      ∧ (ScanCompletes m' ↔ db.AllIds) := by
  obtain ⟨m, hm⟩ := exists_loadInMem hdb
  refine ⟨m, hm, fun cs => ⟨_, handleRequests_eq cs m, ?_⟩⟩
  rw [scanCompletes_iff, (loaded_of_loadInMem hm).allIds_iff]
  refine forall_congr' fun id => forall_congr' fun _ => ?_
  rw [memToCollects_collectAll, Option.isSome_map]

/-- On a table with all ids it does, whatever is asked for. -/
theorem scanCompletes_threeUnits :
    ∃ m m', loadInMem threeUnitsDb = .ok m ∧ handleRequests [raceCalls 1] m = .ok m'
      ∧ ScanCompletes m' := by
  have hkeys : ∀ row ∈ threeUnitsDb.toCollect.rows, row.id ≤ reqTotalCnt := by
    intro row hrow
    obtain ⟨i, -, hi, rfl⟩ := mem_rows_uniformDb.mp hrow
    exact Int.ofNat_le.mpr hi
  obtain ⟨m, hm, h⟩ := scanCompletes_iff_allIds hkeys
  obtain ⟨m', hm', hiff⟩ := h [raceCalls 1]
  exact ⟨m, m', hm, hm', hiff.mpr allIds_uniformDb⟩

/-- **One row is too few.** The owner collects the only record of the table, and the
scan runs into the null pointer behind it. -/
theorem tenUnits_not_scanCompletes :
    ∃ m m', loadInMem tenUnitsDb = .ok m ∧ handleRequests [raceCalls 0] m = .ok m'
      ∧ m'.isModified 1 = true ∧ flushRecords m' scanIds = .error .nullRecord
      ∧ ¬ ScanCompletes m' := by
  obtain ⟨m, hm⟩ : ∃ m, loadInMem tenUnitsDb = .ok m := exists_loadInMem (by decide)
  have hl := loaded_of_loadInMem hm
  have hone : m.memToCollects 1 = some { userId := ann, toCollectEnergy := 10 } := by
    rw [hl.slot]
    rfl
  have htwo : (collectAll m ([raceCalls 0].map Call.request)).memToCollects 2 = none := by
    rw [memToCollects_collectAll, hl.slot]
    rfl
  refine ⟨m, _, hm, handleRequests_eq _ m, ?_,
    flushRecords_of_null (mem_scanIds.mpr (by decide)) htwo, fun h => ?_⟩
  · rw [Mem.isModified, memToCollects_collectAll, hone]
    decide
  · have hsome := scanCompletes_iff.mp h 2 (by decide)
    rw [htwo] at hsome
    cases hsome

end GreenFinal
