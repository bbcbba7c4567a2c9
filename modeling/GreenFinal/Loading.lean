import GreenFinal.Restart

/-!
# What loads and write-backs keep

`load_in_mem` reads its two tables in the order in which the server returns the rows, and
no query asks for one. The records do not depend on it, since their keys are distinct; the
totals do where two rows are read as the same name, which distinct names can be once the
bytes after a nul are gone (`load_order_iff`).

A write-back writes what is in memory and not what has changed since the last one. So an
earlier one is made up for by a later one, whatever happened in between
(`writeBack_absorbed`). And what a restart makes of the totals can be told from the rows: a
total comes back unless it has no row, or another row decides what is loaded for its user
and the total has changed (`restart_totals_iff`).
-/

open CLib

namespace GreenFinal

/-! ## The order of the rows -/

/-- **The same rows in another order.** -/
structure Database.Reorders (db db' : Database) : Prop where
  toCollect : db'.toCollect.rows.Perm db.toCollect.rows
  total : db'.total.rows.Perm db.total.rows

/-- No two rows that are read as one name have different totals. -/
def TotalTable.Unambiguous (t : TotalTable) : Prop :=
  ∀ row ∈ t.rows, ∀ row' ∈ t.rows, getString row.userId = getString row'.userId →
    getInt row.totalEnergy = getInt row'.totalEnergy

instance (t : TotalTable) : Decidable t.Unambiguous :=
  inferInstanceAs (Decidable (∀ row ∈ t.rows, ∀ row' ∈ t.rows, _ → _))

/-- A row is found by its key, wherever it stands. -/
theorem ToCollectTable.row?_perm {t t' : ToCollectTable} (h : t'.rows.Perm t.rows)
    (id : RecordId) : t'.row? id = t.row? id := by
  refine Option.ext fun row => ?_
  rw [ToCollectTable.row?_eq_some, ToCollectTable.row?_eq_some, h.mem_iff]

namespace TotalTable

variable {t t' : TotalTable} {u : CString} {row : TotalRow}

/-- What is loaded for a name is the total of a row that is read as it. -/
theorem mem_of_row? (h : t.row? u = some row) : row ∈ t.rows ∧ getString row.userId = u := by
  refine ⟨List.mem_reverse.mp (List.mem_of_find?_eq_some h), ?_⟩
  simpa using List.find?_some h

theorem row?_eq_none : t.row? u = none ↔ ∀ row ∈ t.rows, getString row.userId ≠ u := by
  rw [row?, List.find?_eq_none]
  simp

/-- The last row decides. -/
theorem row?_of_last {pre : List TotalRow} (h : t.rows = pre ++ [row]) :
    t.row? (getString row.userId) = some row := by
  rw [row?, h, List.reverse_concat]
  exact List.find?_cons_of_pos (by simp)

/-- A table with its rows in another order. -/
def reorder (t : TotalTable) (rows : List TotalRow) (h : rows.Perm t.rows) : TotalTable where
  rows := rows
  nodup_id := (h.map TotalRow.id).nodup_iff.mpr t.nodup_id
  nodup_userId := (h.filterMap TotalRow.userId).nodup_iff.mpr t.nodup_userId

end TotalTable

/-- **When the order of the rows does not matter.** If the tables can be loaded, they load
as the same memory image in every order of their rows if and only if no two rows of
`total_energy` that are read as the same name have different totals. -/
theorem load_order_iff {db : Database} {m : Mem} (hload : loadInMem db = .ok m) :
    (∀ db', db.Reorders db' → loadInMem db' = .ok m) ↔ db.total.Unambiguous := by
  have hl := loaded_of_loadInMem hload
  constructor
  · intro h row hrow row' hrow' hname
    -- each of the two rows can be the last
    have hlast : ∀ r ∈ db.total.rows,
        m.memTotalEnergyMap.val (getString r.userId) = (getInt r.totalEnergy).toUInt32 := by
      intro r hr
      have hperm : (db.total.rows.erase r ++ [r]).Perm db.total.rows :=
        (List.perm_append_singleton r _).trans (List.perm_cons_erase hr).symm
      have hl' := loaded_of_loadInMem (h ⟨db.toCollect, db.total.reorder _ hperm⟩
        ⟨List.Perm.refl _, hperm⟩)
      rw [hl'.val, TotalTable.row?_of_last rfl]
      rfl
    have heq := (hlast row hrow).symm.trans (hname ▸ hlast row' hrow')
    rw [← Int32.toInt32_toUInt32 (getInt row.totalEnergy), heq, Int32.toInt32_toUInt32]
  · intro h db' hR
    have hid : ∀ row ∈ db'.toCollect.rows, row.id ≤ reqTotalCnt :=
      fun row hrow => hl.id_le row (hR.toCollect.mem_iff.mp hrow)
    obtain ⟨m', hm'⟩ := exists_loadInMem hid
    have hl' := loaded_of_loadInMem hm'
    have hslots : m'.memToCollects = m.memToCollects := by
      funext id
      rw [hl'.slot, hl.slot, ToCollectTable.row?_perm hR.toCollect]
    have hkeys : m'.memTotalEnergyMap.keys = m.memTotalEnergyMap.keys := by
      rw [hl'.keys, hl.keys]
      exact List.toFinset_eq_of_perm _ _ (hR.total.map _)
    have hval : m'.memTotalEnergyMap.val = m.memTotalEnergyMap.val := by
      funext u
      rw [hl'.val, hl.val]
      cases hrow : db.total.row? u with
      | none =>
        have hnone : db'.total.row? u = none := TotalTable.row?_eq_none.mpr fun row hr =>
          TotalTable.row?_eq_none.mp hrow row (hR.total.mem_iff.mp hr)
        rw [hnone]
      | some row =>
        obtain ⟨hin, hname⟩ := TotalTable.mem_of_row? hrow
        cases hrow' : db'.total.row? u with
        | none =>
          exact absurd hname (TotalTable.row?_eq_none.mp hrow' row (hR.total.mem_iff.mpr hin))
        | some row' =>
          obtain ⟨hin', hname'⟩ := TotalTable.mem_of_row? hrow'
          exact congrArg Int32.toUInt32
            (h row' (hR.total.mem_iff.mp hin') row hin (hname'.trans hname.symm))
    rw [hm', Mem.ext hslots (TotalEnergyMap.ext hkeys hval)]

/-- Two names that are one once the bytes after the nul are gone. -/
def aliasDb : Database where
  toCollect := tenUnitsDb.toCollect
  total := ⟨[⟨1, some (ascii "ann"), some 5⟩, ⟨2, some (ascii "ann" ++ [0]), some 7⟩],
    by decide, by decide⟩

theorem load_order_iff_aliasDb :
    ∃ m, loadInMem aliasDb = .ok m ∧ ¬ ∀ db', aliasDb.Reorders db' → loadInMem db' = .ok m := by
  have hid : ∀ row ∈ aliasDb.toCollect.rows, row.id ≤ reqTotalCnt := by decide
  obtain ⟨m, hm⟩ := exists_loadInMem hid
  exact ⟨m, hm, fun h => absurd ((load_order_iff hm).mp h) (by decide)⟩

/-! ## One write-back after another -/

/-- **A later memory image**: what was modified stays modified, and who had a total has
one. -/
structure Mem.Later (m m' : Mem) : Prop where
  modified : ∀ id r, m.memToCollects id = some r → r.modified = true →
    ∃ r', m'.memToCollects id = some r' ∧ r'.modified = true
  keys : m.memTotalEnergyMap.keys ⊆ m'.memTotalEnergyMap.keys

/-- Calls lead to later images. -/
theorem later_collectAll (m : Mem) (qs : List Request) : m.Later (collectAll m qs) where
  modified := by
    intro id r hr hmod
    refine ⟨_, (memToCollects_collectAll m qs id).trans (by rw [hr]; rfl), ?_⟩
    exact MemToCollect.modified_nexts_of_modified hmod _
  keys := by
    rw [keys_collectAll]
    exact Finset.subset_union_left

/-- A row that is written again shows what was written last. -/
theorem writeBackRow_writeBackRow {m m' : Mem} (h : m.Later m') (row : ToCollectRow) :
    writeBackRow m' (writeBackRow m row) = writeBackRow m' row := by
  cases hslot : (recordIndex? row.id).bind m.memToCollects with
  | none =>
    have hskip : writeBackRow m row = row := by
      rw [writeBackRow, hslot]
      rfl
    rw [hskip]
  | some r =>
    obtain ⟨id, hidx, hr⟩ := Option.bind_eq_some_iff.mp hslot
    have hid : row.id = ((id : ℕ) : ℤ) := recordIndex?_eq_some.mp hidx
    rw [writeBackRow_of_some hid hr]
    by_cases hmod : r.modified = true
    · obtain ⟨r', hr', hmod'⟩ := h.modified id r hr hmod
      have hwrite : ∀ row' : ToCollectRow, row'.id = ((id : ℕ) : ℤ) → writeBackRow m' row'
          = { row' with
              toCollectEnergy := some r'.toCollectEnergy.toInt32
              status := some r'.newStatus } := fun row' hid' =>
        (writeBackRow_of_some hid' hr').trans (if_pos hmod')
      rw [if_pos hmod, hwrite row hid]
      exact hwrite _ (by exact hid)
    · rw [if_neg hmod]

/-- And so does a total. -/
theorem writeBackTotal_writeBackTotal {t t' : TotalEnergyMap} (h : t.keys ⊆ t'.keys)
    (row : TotalRow) : writeBackTotal t' (writeBackTotal t row) = writeBackTotal t' row := by
  cases hname : row.name? with
  | none =>
    have hskip : writeBackTotal t row = row := by
      rw [writeBackTotal, hname]
      rfl
    rw [hskip]
  | some u =>
    have hwrite : ∀ (t : TotalEnergyMap) (row : TotalRow), row.name? = some u →
        writeBackTotal t row
          = if u ∈ t.keys then { row with totalEnergy := some (t.val u).toInt32 } else row := by
      intro t row hname
      rw [writeBackTotal, hname]
      rfl
    rw [hwrite t row hname]
    by_cases hu : u ∈ t.keys
    · rw [if_pos hu, hwrite t' row hname, if_pos (h hu)]
      exact (hwrite t' _ (by exact hname)).trans (if_pos (h hu))
    · rw [if_neg hu]

/-- A database is its rows. -/
theorem Database.ext_rows {db db' : Database} (h₁ : db.toCollect.rows = db'.toCollect.rows)
    (h₂ : db.total.rows = db'.total.rows) : db = db' := by
  obtain ⟨⟨rows₁, _, _⟩, ⟨rows₂, _, _⟩⟩ := db
  obtain ⟨⟨rows₁', _, _⟩, ⟨rows₂', _, _⟩⟩ := db'
  obtain rfl : rows₁ = rows₁' := h₁
  obtain rfl : rows₂ = rows₂' := h₂
  rfl

/-- **An earlier write-back is made up for by a later one.** After a load, any sequence of
calls, a write-back, any more calls and another write-back the tables are those that the
second write-back alone would have left, whatever the order in which the totals were
written. -/
theorem writeBack_absorbed {db : Database} {m : Mem} (hload : loadInMem db = .ok m)
    (hall : db.AllIds) (cs cs' : List Call) :
    ∃ m₁ m₂, handleRequests cs m = .ok m₁ ∧ handleRequests cs' m₁ = .ok m₂
      ∧ ∀ order₁ order₂, m₁.memTotalEnergyMap.Enumerates order₁ →
        m₂.memTotalEnergyMap.Enumerates order₂ →
          ∃ db₁ db₂, writeBack m₁ order₁ db = .ok db₁ ∧ writeBack m₂ order₂ db₁ = .ok db₂
            ∧ writeBack m₂ order₂ db = .ok db₂ := by
  have hl := loaded_of_loadInMem hload
  set m₁ := collectAll m (cs.map Call.request) with hm₁
  have hlater := later_collectAll m₁ (cs'.map Call.request)
  have hslot₁ : ∀ id : RecordId, 1 ≤ (id : ℕ) → (m₁.memToCollects id).isSome = true :=
    fun id hid => isSome_collectAll (hl.isSome_slot hall hid) _
  have hslot₂ := fun (id : RecordId) hid =>
    isSome_collectAll (hslot₁ id hid) (cs'.map Call.request)
  refine ⟨m₁, _, handleRequests_eq cs m, handleRequests_eq cs' m₁,
    fun order₁ order₂ horder₁ horder₂ => ?_⟩
  obtain ⟨db₁, hdb₁, hrec₁, htot₁⟩ := writeBack_eq db hslot₁ horder₁
  obtain ⟨db₂, hdb₂, hrec₂, htot₂⟩ := writeBack_eq db₁ hslot₂ horder₂
  obtain ⟨db₃, hdb₃, hrec₃, htot₃⟩ := writeBack_eq db hslot₂ horder₂
  have hsame : db₃ = db₂ := by
    refine Database.ext_rows ?_ ?_
    · rw [hrec₃, hrec₂, hrec₁, List.map_map]
      exact List.map_congr_left fun row _ => (writeBackRow_writeBackRow hlater row).symm
    · rw [htot₃, htot₂, htot₁, List.map_map]
      exact List.map_congr_left fun row _ => (writeBackTotal_writeBackTotal hlater.keys row).symm
  exact ⟨db₁, db₂, hdb₁, hdb₂, hsame ▸ hdb₃⟩

/-- Another user has asked when the records are written first, and the owner asks then. -/
theorem writeBack_absorbed_threeUnits :
    ∃ m m₁ m₂ order₁ order₂ db₁ db₂, loadInMem threeUnitsDb = .ok m
      ∧ handleRequests [raceCalls 1] m = .ok m₁ ∧ handleRequests [raceCalls 0] m₁ = .ok m₂
      ∧ writeBack m₁ order₁ threeUnitsDb = .ok db₁ ∧ writeBack m₂ order₂ db₁ = .ok db₂
      ∧ writeBack m₂ order₂ threeUnitsDb = .ok db₂ := by
  obtain ⟨m, hm⟩ : ∃ m, loadInMem threeUnitsDb = .ok m := exists_loadInMem_uniformDb
  obtain ⟨m₁, m₂, hm₁, hm₂, h⟩ :=
    writeBack_absorbed hm allIds_uniformDb [raceCalls 1] [raceCalls 0]
  obtain ⟨order₁, horder₁⟩ := m₁.memTotalEnergyMap.exists_enumerates
  obtain ⟨order₂, horder₂⟩ := m₂.memTotalEnergyMap.exists_enumerates
  obtain ⟨db₁, db₂, hdb₁, hdb₂, hsame⟩ := h order₁ order₂ horder₁ horder₂
  exact ⟨m, m₁, m₂, order₁, order₂, db₁, db₂, hm, hm₁, hm₂, hdb₁, hdb₂, hsame⟩

/-! ## The totals after a restart -/

/-- **No total is lost**: the row that decides what is loaded for a user is the user's own,
or the total is what was loaded. -/
def TotalTable.Recovers (t : TotalTable) (loaded now : TotalEnergyMap) : Prop :=
  ∀ u ∈ now.keys, ∃ row, t.row? u = some row
    ∧ (row.userId = some u.bytes ∨ now.val u = loaded.val u)

namespace TotalTable

variable {t t' : TotalTable} {u : CString} {row : TotalRow} {now : TotalEnergyMap}

@[simp] theorem userId_writeBackTotal (now : TotalEnergyMap) (row : TotalRow) :
    (writeBackTotal now row).userId = row.userId := by
  unfold writeBackTotal
  cases row.name? with
  | none => rfl
  | some u =>
    show (if u ∈ now.keys then _ else row : TotalRow).userId = _
    split <;> rfl

/-- The same row decides after a write-back. -/
theorem row?_writeBackTotal (h : t'.rows = t.rows.map (writeBackTotal now)) (u : CString) :
    t'.row? u = (t.row? u).map (writeBackTotal now) := by
  have hname : (fun row : TotalRow => decide (getString row.userId = u)) ∘ writeBackTotal now
      = fun row => decide (getString row.userId = u) := by
    funext row
    simp
  rw [row?, row?, h, ← List.map_reverse, List.find?_map, hname]

/-- What is loaded for a user after a write-back: the total written, if the row that
decides is the user's own, and what the row held before otherwise. -/
theorem getInt_writeBackTotal (hrow : t.row? u = some row) (hu : u ∈ now.keys) :
    (getInt (writeBackTotal now row).totalEnergy).toUInt32
      = if row.userId = some u.bytes then now.val u else (getInt row.totalEnergy).toUInt32 := by
  by_cases hown : row.userId = some u.bytes
  · rw [if_pos hown, writeBackTotal, TotalRow.name?_eq_some.mpr hown, Option.elim_some, if_pos hu]
    exact UInt32.toUInt32_toInt32 _
  · have hname : row.name? = none := by
      refine Option.eq_none_iff_forall_ne_some.mpr fun v hv => hown ?_
      -- a row that has a name is read as it
      have huserId := TotalRow.name?_eq_some.mp hv
      have hread := (mem_of_row? hrow).2
      rw [getString, huserId, Option.getD_some, CString.ofBytes_bytes] at hread
      rw [huserId, hread]
    rw [if_neg hown, writeBackTotal, hname]
    rfl

end TotalTable

/-- **What comes back of the totals**, for any later image of a loaded one. -/
theorem restart_totals {db db' : Database} {m m₁ m' : Mem} (hl : Loaded db m)
    (hl' : Loaded db' m') (hlater : m.Later m₁)
    (htot : db'.total.rows = db.total.rows.map (writeBackTotal m₁.memTotalEnergyMap)) :
    m'.memTotalEnergyMap = m₁.memTotalEnergyMap
      ↔ db.total.Recovers m.memTotalEnergyMap m₁.memTotalEnergyMap := by
  have hkeys : m'.memTotalEnergyMap.keys = m.memTotalEnergyMap.keys := by
    rw [hl'.keys, hl.keys, htot, List.map_map]
    refine congrArg List.toFinset (List.map_congr_left fun row _ => ?_)
    exact congrArg getString (TotalTable.userId_writeBackTotal _ row)
  have hmem : ∀ u, u ∈ m.memTotalEnergyMap.keys ↔ ∃ row, db.total.row? u = some row := by
    intro u
    rw [hl.keys, List.mem_toFinset, ← Option.ne_none_iff_exists', ne_eq, TotalTable.row?_eq_none]
    simp
  have hval : ∀ u ∈ m₁.memTotalEnergyMap.keys, ∀ row, db.total.row? u = some row →
      m'.memTotalEnergyMap.val u = if row.userId = some u.bytes
        then m₁.memTotalEnergyMap.val u else m.memTotalEnergyMap.val u := by
    intro u hu row hrow
    rw [hl'.val, TotalTable.row?_writeBackTotal htot, hl.val, hrow]
    exact TotalTable.getInt_writeBackTotal hrow hu
  constructor
  · intro heq u hu
    obtain ⟨row, hrow⟩ := (hmem u).mp (hkeys ▸ heq ▸ hu)
    refine ⟨row, hrow, ?_⟩
    have hback := hval u hu row hrow
    by_cases hown : row.userId = some u.bytes
    · exact Or.inl hown
    · rw [if_neg hown, heq] at hback
      exact Or.inr hback
  · intro h
    refine TotalEnergyMap.ext ?_ (funext fun u => ?_)
    · rw [hkeys]
      refine Finset.Subset.antisymm hlater.keys fun u hu => ?_
      obtain ⟨row, hrow, -⟩ := h u hu
      exact (hmem u).mpr ⟨row, hrow⟩
    · by_cases hu : u ∈ m₁.memTotalEnergyMap.keys
      · obtain ⟨row, hrow, hsafe⟩ := h u hu
        rw [hval u hu row hrow]
        split
        · rfl
        · rename_i hown
          exact (hsafe.resolve_left hown).symm
      · have hu' : u ∉ m'.memTotalEnergyMap.keys := fun hmem' =>
          hu (hlater.keys (hkeys ▸ hmem'))
        rw [TotalEnergyMap.val_of_notMem _ u hu, TotalEnergyMap.val_of_notMem _ u hu']

/-- **When a restart loses no total.** After a load, any sequence of calls, a complete
write-back and a reload, the totals are what they were before it if and only if every user
who has one has a row, and the row that decides what is loaded for the user is the user's
own, unless the total is still the one that was loaded. -/
theorem restart_totals_iff {db : Database} {m : Mem} (hload : loadInMem db = .ok m)
    (hall : db.AllIds) (cs : List Call) :
    ∃ m', handleRequests cs m = .ok m'
      ∧ ∀ order, m'.memTotalEnergyMap.Enumerates order →
        ∃ db' m'', writeBack m' order db = .ok db' ∧ loadInMem db' = .ok m''
          ∧ (m''.memTotalEnergyMap = m'.memTotalEnergyMap
            ↔ db.total.Recovers m.memTotalEnergyMap m'.memTotalEnergyMap) := by
  have hl := loaded_of_loadInMem hload
  refine ⟨_, handleRequests_eq cs m, fun order horder => ?_⟩
  obtain ⟨db', hdb', hrec, htot⟩ := writeBack_eq db
    (fun id hid => isSome_collectAll (hl.isSome_slot hall hid) _) horder
  obtain ⟨m'', hm''⟩ := exists_loadInMem_of_writeBack hl hrec
  exact ⟨db', m'', hdb', hm'',
    restart_totals hl (loaded_of_loadInMem hm'') (later_collectAll m _) htot⟩

/-- The owner has collected and has no row: the total is lost. -/
theorem restart_totals_iff_threeUnits :
    ∃ m m' order db' m'', loadInMem threeUnitsDb = .ok m
      ∧ handleRequests [raceCalls 0] m = .ok m' ∧ writeBack m' order threeUnitsDb = .ok db'
      ∧ loadInMem db' = .ok m'' ∧ m''.memTotalEnergyMap ≠ m'.memTotalEnergyMap := by
  obtain ⟨m, hm⟩ : ∃ m, loadInMem threeUnitsDb = .ok m := exists_loadInMem_uniformDb
  obtain ⟨m', hm', h⟩ := restart_totals_iff hm allIds_uniformDb [raceCalls 0]
  obtain ⟨order, horder⟩ := m'.memTotalEnergyMap.exists_enumerates
  obtain ⟨db', m'', hdb', hm'', hiff⟩ := h order horder
  have hann : ann ∈ m'.memTotalEnergyMap.keys := by
    obtain rfl := Except.ok.inj (hm'.symm.trans (handleRequests_eq [raceCalls 0] m))
    have hcredit : creditOf (raceCalls 0).request m = some 3 := by
      show (m.memToCollects 1).bind _ = _
      rw [slot_uniformDb hm (by decide)]
      decide
    rw [keys_collectAll, List.map_singleton, credits, hcredit]
    exact Finset.mem_union_right _ (List.mem_toFinset.mpr List.mem_cons_self)
  refine ⟨m, m', order, db', m'', hm, hm', hdb', hm'', fun heq => ?_⟩
  obtain ⟨row, hrow, -⟩ := hiff.mp heq ann hann
  exact absurd (TotalTable.mem_of_row? hrow).1 List.not_mem_nil

end GreenFinal
