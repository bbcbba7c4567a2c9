import GreenFinal.WriteBack

/-!
# The energy in the database

After a load, any requests, and a complete write-back, the sum over the two
tables ought to be what it was. In memory nothing is lost. The database loses
something in one place: a user can be credited without having a row in
`total_energy` – any name in a request will do – and then the UPDATE with
that name changes nothing, while the record's row has been debited. So the
sum is kept exactly if no energy strays to a user without a row.

There is one more way for the sums to differ, and it needs no request. Two
rows can be read as the same name, a null and an empty one for instance; the
total of that name is then the one loaded last, and it is written back into
the row whose name it is exactly. What the rows gain by that is `aliasGain`,
and it is zero where the names are distinct. `energy_conserved_iff` has both.
-/

open CLib

namespace GreenFinal

/-- The total loaded for a name. -/
def Database.loadedTotal (db : Database) (u : CString) : ℤ :=
  (db.total.row? u).elim 0 TotalRow.energy

/-- What the rows of `total_energy` gain when each is written the total loaded for
its name. -/
def Database.aliasGain (db : Database) : ℤ :=
  (db.total.rows.map fun row => row.name?.elim 0 fun u => db.loadedTotal u - row.energy).sum

/-- No two rows of `total_energy` are read as the same name. -/
def Database.NamesDistinct (db : Database) : Prop :=
  (db.total.rows.map fun row => getString row.userId).Nodup

/-- What is credited to users without a row, out of a list of credits. -/
def Database.straying (db : Database) (cs : List (CString × ℕ)) : ℕ :=
  ((cs.filter fun c => ¬ db.HasRow c.1).map Prod.snd).sum

/-- **The energy that strays**: what the settlements of the records credit to
users without a row. -/
def Database.strayed (db : Database) (m : Mem) (qs : List Request) : ℕ :=
  ∑ id, (m.memToCollects id).elim 0 fun r =>
    db.straying (settle r.userId r.toCollectEnergy.toNat (askers id qs)).credits

/-- **No energy strays**: whoever is first to ask for a record of another user,
with enough in it to share, has a row; and so has an owner who asks for a record
with anything in it. -/
def Database.NoneStrays (db : Database) (m : Mem) (qs : List Request) : Prop :=
  ∀ id r, m.memToCollects id = some r →
    (∀ u us, askers id qs = u :: us → u ≠ r.userId → 3 < r.toCollectEnergy.toNat →
      db.HasRow u)
    ∧ (r.userId ∈ askers id qs → 0 < r.toCollectEnergy.toNat → db.HasRow r.userId)

/-! ## Credits by row and by record -/

/-- The rows with a given name: one or none. -/
theorem sum_ite_name (rows : List TotalRow) (hnd : (rows.filterMap TotalRow.userId).Nodup)
    (u : CString) (n : ℕ) :
    (rows.map fun row => if row.name? = some u then n else 0).sum
      = if ∃ row ∈ rows, row.userId = some u.bytes then n else 0 := by
  induction rows with
  | nil => simp
  | cons row rows ih =>
    rw [List.map_cons, List.sum_cons]
    by_cases hrow : row.userId = some u.bytes
    · rw [List.filterMap_cons_some hrow, List.nodup_cons] at hnd
      have hnone : ¬ ∃ row ∈ rows, row.userId = some u.bytes := fun ⟨row', h, heq⟩ =>
        hnd.1 (List.mem_filterMap.mpr ⟨row', h, heq⟩)
      rw [if_pos (TotalRow.name?_eq_some.mpr hrow), ih hnd.2, if_neg hnone,
        if_pos ⟨row, List.mem_cons_self, hrow⟩, Nat.add_zero]
    · have hnd' : (rows.filterMap TotalRow.userId).Nodup := by
        cases hu : row.userId with
        | none => rwa [List.filterMap_cons_none hu] at hnd
        | some bs =>
          rw [List.filterMap_cons_some hu, List.nodup_cons] at hnd
          exact hnd.2
      rw [if_neg (fun h => hrow (TotalRow.name?_eq_some.mp h)), ih hnd', Nat.zero_add]
      simp [hrow]

/-- **What reaches the rows and what strays** is all that is credited. -/
theorem sum_creditedTo_add_straying (db : Database) (cs : List Credit) :
    (db.total.rows.map fun row => row.name?.elim 0 fun u => creditedTo u cs).sum
      + ((cs.filter fun c => ¬ db.HasRow c.userId).map fun c => c.amount.toNat).sum
      = creditTotal cs := by
  induction cs with
  | nil =>
    have hzero : ∀ row : TotalRow, row.name?.elim 0 (fun u => creditedTo u []) = 0 := by
      intro row
      cases row.name? <;> rfl
    simp [hzero, creditTotal]
  | cons c cs ih =>
    have hsplit : ∀ row : TotalRow, row.name?.elim 0 (fun u => creditedTo u (c :: cs))
        = (if row.name? = some c.userId then c.amount.toNat else 0)
          + row.name?.elim 0 (fun u => creditedTo u cs) := by
      intro row
      cases hname : row.name? with
      | none => simp
      | some u =>
        by_cases hu : c.userId = u
        · subst hu
          simp [creditedTo]
        · simp [creditedTo, hu, Ne.symm hu]
    -- the new credit reaches one row at most, as no two rows have one name
    have hone : (db.total.rows.map fun row =>
        if row.name? = some c.userId then c.amount.toNat else 0).sum
        = if db.HasRow c.userId then c.amount.toNat else 0 :=
      sum_ite_name db.total.rows db.total.nodup_userId c.userId c.amount.toNat
    rw [List.map_congr_left (fun row _ => hsplit row), List.sum_map_add, hone,
      show creditTotal (c :: cs) = c.amount.toNat + creditTotal cs from rfl, ← ih]
    by_cases hrow : db.HasRow c.userId
    · rw [if_pos hrow, List.filter_cons_of_neg (by simpa using hrow)]
      omega
    · rw [if_neg hrow, List.filter_cons_of_pos (by simpa using hrow), List.map_cons,
        List.sum_cons]
      omega

/-- Credits counted by the record they are made from. -/
theorem sum_creditsFrom (db : Database) (cs : List Credit) :
    ∑ id, db.straying (creditsFrom id cs)
      = ((cs.filter fun c => ¬ db.HasRow c.userId).map fun c => c.amount.toNat).sum := by
  induction cs with
  | nil => exact Finset.sum_const_zero
  | cons c cs ih =>
    have hsplit : ∀ id, db.straying (creditsFrom id (c :: cs))
        = (if id = c.id then (if db.HasRow c.userId then 0 else c.amount.toNat) else 0)
          + db.straying (creditsFrom id cs) := by
      intro id
      by_cases hid : c.id = id
      · by_cases hrow : db.HasRow c.userId <;>
          simp [Database.straying, creditsFrom, hid, hrow]
      · simp [Database.straying, creditsFrom, hid, Ne.symm hid]
    rw [Finset.sum_congr rfl (fun id _ => hsplit id), Finset.sum_add_distrib,
      Finset.sum_ite_eq' Finset.univ c.id, if_pos (Finset.mem_univ c.id), ih]
    by_cases hrow : db.HasRow c.userId <;> simp [hrow]

/-- What strays is what the settlements say. -/
theorem strayed_eq {db : Database} {m : Mem} (hl : Loaded db m) (qs : List Request) :
    db.strayed m qs
      = (((credits qs m).filter fun c => ¬ db.HasRow c.userId).map
          fun c => c.amount.toNat).sum := by
  rw [← sum_creditsFrom, Database.strayed]
  refine Finset.sum_congr rfl (fun id _ => ?_)
  cases hr : m.memToCollects id with
  | none =>
    rw [creditsFrom_credits_of_none hr]
    rfl
  | some r =>
    rw [creditsFrom_credits hr, (MemToCollect.nexts_settle (hl.fresh hr).1 _).2.2]
    rfl

/-! ## The tables after the write-back -/

/-- **The table of the records keeps what the records keep.** -/
theorem toCollect_energy_writeBack {db : Database} {m : Mem} (hl : Loaded db m)
    (hfit : db.Fits) (hm : m.energy < 2 ^ 31) (qs : List Request) :
    ((db.toCollect.rows.map (writeBackRow (collectAll m qs))).map ToCollectRow.energy).sum
      = (collectAll m qs).recordEnergy := by
  have hpoint : ∀ id : RecordId, (db.toCollect.row? id).elim 0
      (ToCollectRow.energy ∘ writeBackRow (collectAll m qs))
      = ((collectAll m qs).slotEnergy id : ℤ) := by
    intro id
    have hslot := memToCollects_collectAll m qs id
    rw [hl.slot] at hslot
    cases hrow : db.toCollect.row? id with
    | none =>
      rw [hrow] at hslot
      rw [Mem.slotEnergy, hslot]
      rfl
    | some row =>
      rw [hrow, Option.map_some, Option.map_some] at hslot
      have hid : row.id = ((id : ℕ) : ℤ) := by simpa using List.find?_some hrow
      have hle := (collectAll m qs).slotEnergy_le_recordEnergy id
      have hrec := recordEnergy_collectAll m qs
      rw [Mem.slotEnergy_of_some hslot] at hle ⊢
      show (writeBackRow _ row).energy = _
      rw [writeBackRow_of_some hid hslot]
      cases hmod : (row.load.nexts (askers id qs)).modified with
      | true =>
        rw [if_pos rfl]
        unfold Mem.energy at hm
        exact toInt_toInt32 (by omega)
      | false =>
        have hfresh : row.load.status ≠ .allCollected := Status.noConfusion
        rw [if_neg Bool.false_ne_true, MemToCollect.nexts_of_not_modified hfresh hmod]
        exact (Loaded.energy_load
          (hfit.toCollect_nonneg row (List.mem_of_find?_eq_some hrow))).symm
  have hsum := sum_rows (ToCollectRow.energy ∘ writeBackRow (collectAll m qs))
    db.toCollect.nodup_id (fun row hrow =>
      ⟨(db.toCollect.id_pos row hrow).trans' Int.one_nonneg, hl.id_le row hrow⟩)
  rw [List.map_map, ← hsum, Mem.recordEnergy, Nat.cast_sum]
  exact Finset.sum_congr rfl (fun id _ => hpoint id)

/-- The total loaded for a name, as it is in memory. -/
theorem toNat_val_loaded {db : Database} {m : Mem} (hl : Loaded db m) (hfit : db.Fits)
    (u : CString) : ((m.memTotalEnergyMap.val u).toNat : ℤ) = db.loadedTotal u := by
  rw [hl.val, Database.loadedTotal]
  cases hrow : db.total.row? u with
  | none => rfl
  | some row =>
    exact toNat_toUInt32 (hfit.total_nonneg row
      (List.mem_reverse.mp (List.mem_of_find?_eq_some hrow)))

/-- A named row's user has an entry. -/
theorem mem_keys_of_name? {db : Database} {m : Mem} (hl : Loaded db m) {row : TotalRow}
    (hrow : row ∈ db.total.rows) {u : CString} (hu : row.name? = some u) :
    u ∈ m.memTotalEnergyMap.keys := by
  rw [hl.keys, List.mem_toFinset]
  refine List.mem_map.mpr ⟨row, hrow, ?_⟩
  rw [getString, TotalRow.name?_eq_some.mp hu, Option.getD_some, CString.ofBytes_bytes]

/-- **The table of the totals gains what reaches its rows**, and what the rows gain
from each other's names. -/
theorem total_energy_writeBack {db : Database} {m : Mem} (hl : Loaded db m)
    (hfit : db.Fits) (hm : m.energy < 2 ^ 31) (qs : List Request) :
    ((db.total.rows.map
        (writeBackTotal (collectAll m qs).memTotalEnergyMap)).map TotalRow.energy).sum
      = db.total.energy + db.aliasGain
        + ((db.total.rows.map fun row =>
            row.name?.elim 0 fun u => creditedTo u (credits qs m)).sum : ℕ) := by
  have hm' : m.energy < 2 ^ 32 := hm.trans (by decide)
  have hpoint : ∀ row ∈ db.total.rows,
      (TotalRow.energy ∘ writeBackTotal (collectAll m qs).memTotalEnergyMap) row
        = row.energy + (row.name?.elim 0 fun u => db.loadedTotal u - row.energy)
          + ((row.name?.elim 0 fun u => creditedTo u (credits qs m) : ℕ) : ℤ) := by
    intro row hrow
    show (writeBackTotal _ row).energy = _
    unfold writeBackTotal
    cases hu : row.name? with
    | none =>
      show row.energy = row.energy + 0 + ((0 : ℕ) : ℤ)
      omega
    | some u =>
      have hkey : u ∈ (collectAll m qs).memTotalEnergyMap.keys := by
        rw [keys_collectAll]
        exact Finset.mem_union_left _ (mem_keys_of_name? hl hrow hu)
      have hval := val_collectAll_of_lt hm' qs u
      have hle := (collectAll m qs).memTotalEnergyMap.val_le_energy u
      have henergy := energy_collectAll hm' qs
      have hload := toNat_val_loaded hl hfit u
      -- no total exceeds the energy there is, so the cast to `int` is exact
      have hlt : ((collectAll m qs).memTotalEnergyMap.val u).toNat < 2 ^ 31 := by
        unfold Mem.energy at hm henergy
        omega
      rw [Option.elim_some, if_pos hkey]
      show ((collectAll m qs).memTotalEnergyMap.val u).toInt32.toInt
        = row.energy + (db.loadedTotal u - row.energy) + (creditedTo u (credits qs m) : ℤ)
      rw [toInt_toInt32 hlt]
      omega
  rw [List.map_map, List.map_congr_left hpoint, List.sum_map_add, List.sum_map_add,
    Nat.cast_list_sum, List.map_map]
  rfl

/-! ## When the energy is conserved -/

theorem straying_append (db : Database) (cs cs' : List (CString × ℕ)) :
    db.straying (cs ++ cs') = db.straying cs + db.straying cs' := by
  rw [Database.straying, List.filter_append, List.map_append, List.sum_append]
  rfl

theorem straying_singleton_eq_zero (db : Database) (u : CString) (n : ℕ) :
    db.straying [(u, n)] = 0 ↔ (0 < n → db.HasRow u) := by
  by_cases hu : db.HasRow u
  · simp [Database.straying, hu]
  · simp [Database.straying, hu]

/-- What strays from one record. -/
theorem straying_settle_eq_zero (db : Database) (o : CString) (e : ℕ)
    (asks : List CString) :
    db.straying (settle o e asks).credits = 0
      ↔ (∀ u us, asks = u :: us → u ≠ o → 3 < e → db.HasRow u)
        ∧ (o ∈ asks → 0 < e → db.HasRow o) := by
  have hcredits : (settle o e asks).credits = sharedOut o e asks
      ++ if o ∈ asks then [(o, e - ((sharedOut o e asks).map Prod.snd).sum)] else [] := by
    unfold settle
    by_cases ho : o ∈ asks
    · simp only [if_pos ho]
    · simp only [if_neg ho, List.append_nil]
  -- only the first to ask can get a share
  have hshared : db.straying (sharedOut o e asks) = 0
      ↔ ∀ u us, asks = u :: us → u ≠ o → 3 < e → db.HasRow u := by
    cases asks with
    | nil =>
      refine ⟨fun _ u us h => absurd h (List.cons_ne_nil u us).symm, fun _ => rfl⟩
    | cons v us =>
      by_cases h : v ≠ o ∧ 3 < e
      · rw [sharedOut_cons h.1 h.2, straying_singleton_eq_zero]
        constructor
        · intro hv u us' heq _ _
          rw [← List.head_eq_of_cons_eq heq]
          exact hv (share_pos h.2)
        · exact fun hall _ => hall v us rfl h.1 h.2
      · have hnil : sharedOut o e (v :: us) = [] := by
          rcases sharedOut_cases o e (v :: us) with hs | ⟨w, hw, -, he, hs⟩
          · exact hs
          · by_cases hv : v = o
            · rw [hv, sharedOut_cons_self]
            · exact absurd ⟨hv, he⟩ h
        rw [hnil]
        refine ⟨fun _ u us' heq hu he => ?_, fun _ => rfl⟩
        rw [← List.head_eq_of_cons_eq heq] at hu
        exact absurd ⟨hu, he⟩ h
  have howner : db.straying (if o ∈ asks then
        [(o, e - ((sharedOut o e asks).map Prod.snd).sum)] else []) = 0
      ↔ (o ∈ asks → 0 < e → db.HasRow o) := by
    by_cases ho : o ∈ asks
    · rw [if_pos ho, straying_singleton_eq_zero]
      have hpos : 0 < e - ((sharedOut o e asks).map Prod.snd).sum ↔ 0 < e := by
        rcases sharedOut_cases o e asks with hs | ⟨v, -, -, he, hs⟩
        · rw [hs]
          exact Iff.rfl
        · have := share_lt he
          rw [hs, List.map_singleton, List.sum_singleton]
          omega
      rw [hpos]
      exact ⟨fun h _ => h, fun h => h ho⟩
    · rw [if_neg ho]
      exact ⟨fun _ h => absurd h ho, fun _ => rfl⟩
  rw [hcredits, straying_append, Nat.add_eq_zero_iff, hshared, howner]

theorem strayed_eq_zero_iff (db : Database) (m : Mem) (qs : List Request) :
    db.strayed m qs = 0 ↔ db.NoneStrays m qs := by
  rw [Database.strayed, Finset.sum_eq_zero_iff]
  constructor
  · intro h id r hr
    have hid := h id (Finset.mem_univ id)
    rw [hr] at hid
    exact (straying_settle_eq_zero db _ _ _).mp hid
  · intro h id _
    cases hr : m.memToCollects id with
    | none => rfl
    | some r => exact (straying_settle_eq_zero db _ _ _).mpr (h id r hr)

/-- Where names are distinct, every row is written its own total. -/
theorem aliasGain_eq_zero {db : Database} (h : db.NamesDistinct) : db.aliasGain = 0 := by
  have hpoint : ∀ row ∈ db.total.rows,
      (row.name?.elim 0 fun u => db.loadedTotal u - row.energy) = 0 := by
    intro row hrow
    cases hu : row.name? with
    | none => rfl
    | some u =>
      have hname : getString row.userId = u := by
        rw [getString, TotalRow.name?_eq_some.mp hu, Option.getD_some,
          CString.ofBytes_bytes]
      have hsome : (db.total.row? u).isSome = true := by
        rw [TotalTable.row?, List.find?_isSome]
        exact ⟨row, List.mem_reverse.mpr hrow, by simpa using hname⟩
      obtain ⟨row', hrow'⟩ := Option.isSome_iff_exists.mp hsome
      have hname' : getString row'.userId = u := by simpa using List.find?_some hrow'
      have hmem' := List.mem_reverse.mp (List.mem_of_find?_eq_some hrow')
      have heq : row' = row :=
        List.inj_on_of_nodup_map h hmem' hrow (hname'.trans hname.symm)
      rw [Option.elim_some, Database.loadedTotal, hrow', heq]
      exact sub_self row.energy
  rw [Database.aliasGain, List.map_congr_left hpoint]
  exact List.sum_map_zero

/-- **The books of the database.** -/
theorem energy_writeBack {db : Database} {m : Mem} (hload : loadInMem db = .ok m)
    (hfit : db.Fits) (qs : List Request) {db' : Database}
    (hrec : db'.toCollect.rows = db.toCollect.rows.map (writeBackRow (collectAll m qs)))
    (htot : db'.total.rows
      = db.total.rows.map (writeBackTotal (collectAll m qs).memTotalEnergyMap)) :
    db'.energy = db.energy + db.aliasGain - db.strayed m qs := by
  have hl := loaded_of_loadInMem hload
  have hm := hfit.energy_lt hload
  have h₁ := toCollect_energy_writeBack hl hfit hm qs
  have h₂ := total_energy_writeBack hl hfit hm qs
  have h₃ := sum_creditedTo_add_straying db (credits qs m)
  have h₄ := recordEnergy_collectAll m qs
  have h₅ := hl.recordEnergy_eq hfit.toCollect_nonneg
  rw [← strayed_eq hl] at h₃
  rw [← hrec] at h₁
  rw [← htot] at h₂
  change db'.toCollect.energy = _ at h₁
  change db'.total.energy = _ at h₂
  unfold Database.energy
  omega

/-- **When the energy is conserved in the database.** After a load, any sequence of
calls and a complete write-back, the sum over the two tables is what it was if
and only if what strays to users without a row is what the rows gain from each
other's names; where the names are distinct, if and only if nothing strays. -/
theorem energy_conserved_iff {db : Database} {m : Mem} (hload : loadInMem db = .ok m)
    (hall : db.AllIds) (hfit : db.Fits) (cs : List Call) :
    ∃ m', handleRequests cs m = .ok m'
      ∧ ∀ order, m'.memTotalEnergyMap.Enumerates order →
        ∃ db', writeBack m' order db = .ok db'
          ∧ (db'.energy = db.energy
            ↔ db.aliasGain = db.strayed m (cs.map Call.request))
          ∧ (db.NamesDistinct →
            (db'.energy = db.energy ↔ db.NoneStrays m (cs.map Call.request))) := by
  have hl := loaded_of_loadInMem hload
  refine ⟨_, handleRequests_eq cs m, fun order horder => ?_⟩
  obtain ⟨db', hdb', hrec, htot⟩ := writeBack_eq db
    (fun id hid => isSome_collectAll (hl.isSome_slot hall hid) _) horder
  have hsum := energy_writeBack hload hfit (cs.map Call.request) hrec htot
  have hiff : db'.energy = db.energy
      ↔ db.aliasGain = db.strayed m (cs.map Call.request) := by
    rw [hsum]
    omega
  refine ⟨db', hdb', hiff, fun hnames => ?_⟩
  rw [hiff, aliasGain_eq_zero hnames, ← strayed_eq_zero_iff]
  omega

/-- A database in which one user owns ten units in every record and has a row. -/
def annsDb : Database := uniformDb ann 10 ⟨[⟨1, some ann.bytes, some 5⟩], by decide, by decide⟩

theorem annsDb_fits : annsDb.Fits :=
  fits_uniformDb (by decide) (by decide) (by decide)

theorem annsDb_namesDistinct : annsDb.NamesDistinct := List.nodup_singleton _

theorem annsDb_hasRow : annsDb.HasRow ann :=
  ⟨⟨1, some ann.bytes, some 5⟩, List.mem_singleton.mpr rfl, rfl⟩

theorem exists_loadInMem_annsDb : ∃ m, loadInMem annsDb = .ok m := exists_loadInMem_uniformDb

/-- The owner's request loses nothing. -/
theorem energy_conserved_owner :
    ∃ m m' order db', loadInMem annsDb = .ok m
      ∧ handleRequests [raceCalls 0] m = .ok m' ∧ m'.memTotalEnergyMap.Enumerates order
      ∧ writeBack m' order annsDb = .ok db' ∧ db'.energy = annsDb.energy := by
  obtain ⟨m, hm⟩ := exists_loadInMem_annsDb
  obtain ⟨m', hm', h⟩ := energy_conserved_iff hm allIds_uniformDb annsDb_fits [raceCalls 0]
  obtain ⟨order, horder⟩ := m'.memTotalEnergyMap.exists_enumerates
  obtain ⟨db', hdb', -, hiff⟩ := h order horder
  refine ⟨m, m', order, db', hm, hm', horder, hdb', (hiff annsDb_namesDistinct).mpr ?_⟩
  intro id r hr
  have howner : r.userId = ann := by
    have hid := (loaded_of_loadInMem hm).one_le hr
    rw [slot_uniformDb hm hid] at hr
    rw [← Option.some.inj hr]
  rw [howner]
  refine ⟨fun u us heq hu _ => absurd ?_ hu, fun _ _ => annsDb_hasRow⟩
  have hmem : u ∈ askers id ([raceCalls 0].map Call.request) := by
    rw [heq]
    exact List.mem_cons_self
  obtain ⟨q, hq, -, rfl⟩ := mem_askers.mp hmem
  rw [List.mem_singleton.mp hq]
  rfl

/-- **Energy is lost to a user without a row.** Another user's share of record 1 is
credited in memory, debited from the record's row, and written nowhere. -/
theorem annsDb_energy_lost :
    ∃ m m' order db', loadInMem annsDb = .ok m ∧ annsDb.AllIds ∧ annsDb.Fits
      ∧ handleRequests [raceCalls 1] m = .ok m' ∧ m'.memTotalEnergyMap.Enumerates order
      ∧ writeBack m' order annsDb = .ok db' ∧ db'.energy < annsDb.energy := by
  obtain ⟨m, hm⟩ := exists_loadInMem_annsDb
  have hl := loaded_of_loadInMem hm
  have hm' := handleRequests_eq [raceCalls 1] m
  obtain ⟨order, horder⟩ :=
    (collectAll m ([raceCalls 1].map Call.request)).memTotalEnergyMap.exists_enumerates
  obtain ⟨db', hdb', hrec, htot⟩ := writeBack_eq annsDb
    (fun id hid => isSome_collectAll (hl.isSome_slot allIds_uniformDb hid) _) horder
  have hsum := energy_writeBack hm annsDb_fits _ hrec htot
  have hgain : annsDb.aliasGain = 0 := aliasGain_eq_zero annsDb_namesDistinct
  have hstray : annsDb.strayed m ([raceCalls 1].map Call.request) ≠ 0 := by
    intro h
    have hrow := ((strayed_eq_zero_iff _ _ _).mp h 1 _ (slot_uniformDb hm (by decide))).1
      bob [] rfl (by decide) (by decide)
    exact absurd hrow (by decide)
  refine ⟨m, _, order, db', hm, allIds_uniformDb, annsDb_fits, hm', horder, hdb', ?_⟩
  omega

end GreenFinal
