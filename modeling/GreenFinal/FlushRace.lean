import GreenFinal.Conservation
import GreenFinal.Progress

/-!
# The write-back against running requests

The flush of the records is started by the request that draws the last number
but one, the flush of the totals by the one that draws the last; other requests
may then have been counted and answered and not been handled, and nothing
orders the flushes after them but 200 ms of sleep. A request handled when a
flush has passed its record, or its user, is lost to the tables.

`timely` is the condition that this does not happen, checked at each handling
of a request: if the request takes anything, every flush of the records under
way has still to come to its record, and, if it takes any energy, every flush
of the totals to its user. Under it nothing is lost (`writtenBack_of_timely`);
without it a request on one connection is lost while the other serves the
remaining ones (`annsDb_update_lost`).
-/

open CLib Interleave

namespace GreenFinal

/-- The request that `handle_request` reads in a chunk, if it reads one for a
record in the array. -/
def Chunk.request? (c : Chunk) : Option Request :=
  match parseRequest c.line c.len with
  | .ok (some t) =>
    (recordIndex? t.id).bind fun id => (CString.ofBuffer? t.userId).map fun u => ⟨u, id⟩
  | _ => none

/-- A call changes the image by the request in its chunk, or not at all. -/
theorem Chunk.handleRequest_cases {c : Chunk} {m m' : Mem}
    (h : handleRequest c.line c.len m = .ok m') :
    m' = m ∨ ∃ q, c.request? = some q ∧ m' = collectEnergy q m := by
  unfold handleRequest at h
  unfold Chunk.request?
  split at h
  · cases h
  · exact Or.inl (Except.ok.inj h).symm
  · rename_i t ht
    split at h
    · cases h
    · rename_i id hid
      split at h
      · exact Or.inl (Except.ok.inj h).symm
      · split at h
        · cases h
        · rename_i u hu
          refine Or.inr ⟨⟨u, id⟩, ?_, (Except.ok.inj h).symm⟩
          rw [ht]
          dsimp only
          rw [hid, hu]
          rfl

/-- The request of a call. -/
theorem Call.request?_chunk (c : Call) : c.chunk.request? = some c.request := by
  obtain ⟨t, ht, hu, hid⟩ := c.parses
  unfold Chunk.request?
  rw [ht]
  dsimp only
  rw [hid, hu]
  rfl

variable {ι : Type*} [DecidableEq ι] {m : Mem} {db : Database} {tr es : List HttpEvent}
  {s s' : Server ι} {a : Action ι}

/-! ## The condition -/

/-- **A request takes nothing behind the back of a flush**: if it takes from its
record, the flushes of the records under way have still to read that record, and
if it is credited energy, the flushes of the totals have still to read its user. -/
def Server.takesInTime (s : Server ι) (q : Request) : Bool :=
  (s.mem.memToCollects q.id).elim true fun r =>
    r.rejects q.userId
      || (s.toCollectScans.all (fun ids => ids.contains q.id)
        && (r.amount q.userId = 0
          || s.totalScans.all (fun us => us.elim true fun us => us.contains q.userId)))

/-- **The step handles its request in time**, if it handles one. -/
def timely : Action ι → Server ι → Bool
  | .http i _, s =>
    match s.pc i with
    | .handle c _ => c.request?.elim true s.takesInTime
    | _ => true
  | _, _ => true

/-- The runs in which every request is handled in time. -/
abbrev TimelyRun (m : Mem) (db : Database) (tr : List HttpEvent) (s : Server ι) : Prop :=
  Run (only timely serverStep) (Server.start m db) tr s

omit [DecidableEq ι] in
theorem Server.takesInTime_iff {q : Request} :
    s.takesInTime q = true
      ↔ ∀ r, s.mem.memToCollects q.id = some r → r.rejects q.userId = false →
        (∀ ids ∈ s.toCollectScans, q.id ∈ ids)
          ∧ (r.amount q.userId ≠ 0 → ∀ us, some us ∈ s.totalScans → q.userId ∈ us) := by
  unfold takesInTime
  cases hr : s.mem.memToCollects q.id with
  | none => exact ⟨fun _ r h => absurd h (by simp), fun _ => rfl⟩
  | some r =>
    simp only [Option.elim_some, Bool.or_eq_true, Bool.and_eq_true, List.all_eq_true,
      List.contains_iff_mem, decide_eq_true_iff, Option.some.injEq, forall_eq']
    cases hrej : r.rejects q.userId with
    | true => simp
    | false =>
      simp only [Bool.false_eq_true, false_or, true_implies, and_congr_right_iff]
      intro _
      rw [or_iff_not_imp_left]
      refine imp_congr_right (fun _ => ⟨fun h us hus => ?_, fun h us hus => ?_⟩)
      · simpa using h (some us) hus
      · cases us with
        | none => rfl
        | some us => simpa using h us hus

/-! ## What the tables should hold -/

/-- **The row of a record carries what was collected**: the record's energy and the
text of its status, if something has been taken. -/
def ToCollectTable.Carries (t : ToCollectTable) (m : Mem) (id : RecordId) : Prop :=
  ∀ r, m.memToCollects id = some r → r.status ≠ .empty →
    ∃ row, t.row? id = some row ∧ row.toCollectEnergy = some r.toCollectEnergy.toInt32
      ∧ row.status = collectedText r.status

/-- **A user's row carries the user's total.** -/
def TotalTable.Carries (t : TotalTable) (m : Mem) (u : CString) : Prop :=
  ∀ row ∈ t.rows, row.userId = some u.bytes →
    row.totalEnergy = some (m.memTotalEnergyMap.val u).toInt32

/-- **No update is lost.** -/
structure Server.WrittenBack (s : Server ι) : Prop where
  /-- Every record from which something has been taken is in its row. -/
  toCollect : ∀ id : RecordId, 1 ≤ (id : ℕ) → s.toCollect.Carries s.mem id
  /-- Every user's total is in the user's row. -/
  total : ∀ u, s.total.Carries s.mem u

/-- The flushes under way have come to their end. -/
structure Server.FlushesEnded (s : Server ι) : Prop where
  toCollect : ∀ ids ∈ s.toCollectScans, ids = []
  total : ∀ us ∈ s.totalScans, us = some []

/-! ### Statements and rows -/

/-- An UPDATE keeps the rows where they are. -/
theorem row?_toCollectEnergyUpdate (t : ToCollectTable) (q : ToCollectUpdate)
    (id : RecordId) : (toCollectEnergyUpdate t q).row? id = (t.row? id).map q.apply := by
  have hid : (fun row : ToCollectRow => decide (row.id = ((id : ℕ) : ℤ))) ∘ q.apply
      = fun row => decide (row.id = ((id : ℕ) : ℤ)) := by
    funext row
    simp
  show (t.rows.map q.apply).find? _ = _
  rw [List.find?_map, hid]
  rfl

theorem row?_foldl_toCollectEnergyUpdate (us : List ToCollectUpdate) (t : ToCollectTable)
    (id : RecordId) :
    (us.foldl toCollectEnergyUpdate t).row? id
      = (t.row? id).map fun row => us.foldl (fun row q => q.apply row) row := by
  induction us generalizing t with
  | nil => exact Option.map_id'.symm
  | cons q us ih =>
    rw [List.foldl_cons, ih, row?_toCollectEnergyUpdate, Option.map_map]
    rfl

theorem id_of_row? {t : ToCollectTable} {id : RecordId} {row : ToCollectRow}
    (h : t.row? id = some row) : row.id = ((id : ℕ) : ℤ) := by
  simpa using List.find?_some h

/-- The statements for one record leave the rows of the others alone. -/
theorem carries_flush_of_ne {t : ToCollectTable} {id id' : RecordId} (hne : id' ≠ id)
    (h : t.Carries m id') :
    ((updatesOf m id).foldl toCollectEnergyUpdate t).Carries m id' := by
  intro r hr hs
  obtain ⟨row, hrow, he, ht⟩ := h r hr hs
  refine ⟨row, ?_, he, ht⟩
  rw [row?_foldl_toCollectEnergyUpdate, hrow, Option.map_some]
  refine congrArg some (foldl_apply_of_ne (fun q hq heq => hne ?_))
  rw [id_of_mem_updatesOf hq, id_of_row? hrow] at heq
  exact Fin.ext (Int.ofNat.inj heq.symm)

/-- The statements for a record bring its row up to date, if the record is marked
when something has been taken from it. -/
theorem carries_flush_self {t : ToCollectTable} {id : RecordId}
    (hrow : (t.row? id).isSome = true)
    (hmark : ∀ r, m.memToCollects id = some r → r.status ≠ .empty → r.modified = true) :
    ((updatesOf m id).foldl toCollectEnergyUpdate t).Carries m id := by
  intro r hr hs
  obtain ⟨row, hrow⟩ := Option.isSome_iff_exists.mp hrow
  have hus : updatesOf m id = [r.update id] := by
    rw [updatesOf, hr]
    exact if_pos (hmark r hr hs)
  have hset : (r.update id).apply row
      = { row with
          toCollectEnergy := some r.toCollectEnergy.toInt32
          status := some r.newStatus } := if_pos (id_of_row? hrow)
  refine ⟨(r.update id).apply row, ?_, ?_, ?_⟩
  · rw [hus, List.foldl_cons, List.foldl_nil, row?_toCollectEnergyUpdate, hrow]
    rfl
  · rw [hset]
  · rw [hset, collectedText_of_ne hs]

/-- The statement for a user brings the user's row up to date and leaves the others
alone. -/
theorem carries_totalEnergyUpdate {t : TotalTable} {u v : CString}
    (h : v ≠ u → t.Carries m v) :
    (totalEnergyUpdate t (m.memTotalEnergyMap.update u)).Carries m v := by
  intro row' hrow' hname
  obtain ⟨row, hrow, rfl⟩ := List.mem_map.mp hrow'
  rw [TotalUpdate.userId_apply] at hname
  by_cases hv : v = u
  · subst hv
    have hset : (m.memTotalEnergyMap.update v).apply row
        = { row with totalEnergy := some (m.memTotalEnergyMap.val v).toInt32 } :=
      if_pos hname
    rw [hset]
  · have hskip : (m.memTotalEnergyMap.update u).apply row = row := by
      refine if_neg (fun hu => hv ?_)
      exact CString.ext_bytes (Option.some.inj (hname.symm.trans hu))
    rw [hskip]
    exact h hv row hrow hname

/-! ### Requests and what the rows carry -/

namespace MemToCollect

/-- A request that is turned down changes nothing that is written back. -/
theorem next_of_rejects_eq {r : MemToCollect} {u : CString} (h : r.rejects u = true) :
    (r.next u).status = r.status ∧ (r.next u).toCollectEnergy = r.toCollectEnergy := by
  by_cases ha : r.status = .allCollected
  · rw [next_of_allCollected ha]
    exact ⟨rfl, rfl⟩
  · rw [next_of_rejects ha h]
    exact ⟨rfl, rfl⟩

/-- A record from which something is taken is marked. -/
theorem modified_next {r : MemToCollect} {u : CString}
    (h : r.status ≠ .empty → r.modified = true) (hs : (r.next u).status ≠ .empty) :
    (r.next u).modified = true := by
  by_cases ha : r.status = .allCollected
  · rw [next_of_allCollected ha] at hs ⊢
    exact h hs
  · cases hrej : r.rejects u with
    | true =>
      rw [next_of_rejects ha hrej]
      rfl
    | false =>
      rw [next_of_accepts hrej]
      rfl

end MemToCollect

/-- A request that comes before its record is flushed leaves the rows flushed as
they should be. -/
theorem carries_collectEnergy {t : ToCollectTable} {q : Request} {id : RecordId}
    (h : t.Carries m id)
    (hq : ∀ r, m.memToCollects q.id = some r → r.rejects q.userId = false → id ≠ q.id) :
    t.Carries (collectEnergy q m) id := by
  intro r' hr' hs
  rw [memToCollects_collectEnergy] at hr'
  by_cases hid : id = q.id
  · subst hid
    rw [Function.update_self] at hr'
    obtain ⟨r, hr, rfl⟩ := Option.map_eq_some_iff.mp hr'
    cases hrej : r.rejects q.userId with
    | false => exact absurd rfl (hq r hr hrej)
    | true =>
      obtain ⟨h₁, h₂⟩ := MemToCollect.next_of_rejects_eq hrej
      rw [h₁] at hs ⊢
      rw [h₂]
      exact h r hr hs
  · rw [Function.update_of_ne hid] at hr'
    exact h r' hr' hs

/-- So does one that comes before its user is flushed, or moves no energy. -/
theorem total_carries_collectEnergy {t : TotalTable} {q : Request} {u : CString}
    (h : t.Carries m u)
    (hq : ∀ r, m.memToCollects q.id = some r → r.rejects q.userId = false →
      r.amount q.userId ≠ 0 → u ≠ q.userId) :
    t.Carries (collectEnergy q m) u := by
  have hval : (collectEnergy q m).memTotalEnergyMap.val u = m.memTotalEnergyMap.val u := by
    rw [memTotalEnergyMap_collectEnergy, creditOf]
    cases hr : m.memToCollects q.id with
    | none => rfl
    | some r =>
      rw [Option.bind_some]
      cases hrej : r.rejects q.userId with
      | true =>
        rw [MemToCollect.credit?_of_rejects hrej]
        rfl
      | false =>
        rw [MemToCollect.credit?_of_accepts hrej, Option.elim_some]
        by_cases hu : u = q.userId
        · have hzero : r.amount q.userId = 0 := by
            by_contra hne
            exact hq r hr hrej hne hu
          subst hu
          rw [TotalEnergyMap.val_add_self, hzero, UInt32.add_zero]
        · exact TotalEnergyMap.val_add_of_ne _ _ hu
  intro row hrow hname
  rw [hval]
  exact h row hrow hname

theorem keys_subset_collectEnergy (q : Request) (m : Mem) :
    m.memTotalEnergyMap.keys ⊆ (collectEnergy q m).memTotalEnergyMap.keys := by
  rw [memTotalEnergyMap_collectEnergy]
  cases creditOf q m with
  | none => exact Finset.Subset.refl _
  | some n => exact Finset.subset_insert _ _

/-! ## The invariant -/

/-- **What the flushes have passed is written.** -/
structure Passed (s : Server ι) : Prop where
  /-- Every id has its row. -/
  isSome_row : ∀ id : RecordId, 1 ≤ (id : ℕ) → (s.toCollect.row? id).isSome = true
  /-- A record from which something has been taken is marked. -/
  marked : ∀ id r, s.mem.memToCollects id = some r → r.status ≠ .empty → r.modified = true
  /-- Every user with a row has an entry. -/
  keys : ∀ row ∈ s.total.rows, ∀ u : CString, row.userId = some u.bytes →
    u ∈ s.mem.memTotalEnergyMap.keys
  /-- The records some flush has read are up to date in their rows. -/
  toCollect : ∀ ids ∈ s.toCollectScans, ∀ id : RecordId, 1 ≤ (id : ℕ) → id ∉ ids →
    s.toCollect.Carries s.mem id
  /-- The users some flush has read are up to date in theirs. -/
  total : ∀ us, some us ∈ s.totalScans → ∀ u, u ∉ us → s.total.Carries s.mem u

omit [DecidableEq ι] in
/-- A request handled in time keeps it. -/
theorem Passed.collectEnergy {q : Request} (hP : Passed s)
    (hq : s.takesInTime q = true) : Passed { s with mem := collectEnergy q s.mem } := by
  rw [Server.takesInTime_iff] at hq
  refine ⟨hP.isSome_row, fun id r' hr' hs => ?_, fun row hrow u hu => ?_,
    fun ids hids id hid hnot => ?_, fun us hus u hnot => ?_⟩
  · rw [memToCollects_collectEnergy] at hr'
    by_cases heq : id = q.id
    · subst heq
      rw [Function.update_self] at hr'
      obtain ⟨r, hr, rfl⟩ := Option.map_eq_some_iff.mp hr'
      exact MemToCollect.modified_next (hP.marked q.id r hr) hs
    · rw [Function.update_of_ne heq] at hr'
      exact hP.marked id r' hr' hs
  · exact keys_subset_collectEnergy q s.mem (hP.keys row hrow u hu)
  · refine carries_collectEnergy (hP.toCollect ids hids id hid hnot) (fun r hr hrej heq => ?_)
    exact hnot (heq ▸ (hq r hr hrej).1 ids hids)
  · refine total_carries_collectEnergy (hP.total us hus u hnot)
      (fun r hr hrej hne heq => ?_)
    exact hnot (heq ▸ (hq r hr hrej).2 hne us hus)

/-- **Every step that handles its request in time keeps it.** -/
theorem Passed.step (hP : Passed s) (ht : timely a s = true) (h : ServerStep s a s' es) :
    Passed s' := by
  cases h with
  | enters | leaves | receives | ends | counts | responds | respondsLate | finishes =>
    exact ⟨hP.isSome_row, hP.marked, hP.keys, hP.toCollect, hP.total⟩
  | handles i c cnt hpc m hm =>
    have hmem : Passed { s with mem := m } := by
      rcases Chunk.handleRequest_cases hm with rfl | ⟨q, hq, rfl⟩
      · exact hP
      · unfold timely at ht
        dsimp only at ht
        rw [hpc] at ht
        dsimp only at ht
        rw [hq] at ht
        exact hP.collectEnergy ht
    exact ⟨hmem.isSome_row, hmem.marked, hmem.keys, hmem.toCollect, hmem.total⟩
  | startsToCollect i cnt hpc hcnt =>
    refine ⟨hP.isSome_row, hP.marked, hP.keys, fun ids hids id hid hnot => ?_, hP.total⟩
    rcases List.mem_append.mp hids with hids | hids
    · exact hP.toCollect ids hids id hid hnot
    · rw [List.mem_singleton.mp hids] at hnot
      exact absurd (mem_scanIds.mpr hid) hnot
  | startsTotal i cnt hpc hcnt =>
    refine ⟨hP.isSome_row, hP.marked, hP.keys, hP.toCollect, fun us hus u hnot => ?_⟩
    rcases List.mem_append.mp hus with hus | hus
    · exact hP.total us hus u hnot
    · exact absurd (List.mem_singleton.mp hus) (Option.some_ne_none us)
  | scansRecord k id ids hk us hus =>
    -- the row just read is up to date, the rows read before are left alone
    have hus' : us = updatesOf s.mem id := by
      unfold flushRecord at hus
      unfold updatesOf
      split at hus
      · cases hus
      · rename_i r hr
        rw [hr]
        exact (Except.ok.inj hus).symm
    rw [hus']
    refine ⟨fun id' hid' => ?_, hP.marked, hP.keys, fun ids' hids' id' hid' hnot => ?_,
      hP.total⟩
    · rw [row?_foldl_toCollectEnergyUpdate, Option.isSome_map]
      exact hP.isSome_row id' hid'
    · by_cases heq : id' = id
      · subst heq
        exact carries_flush_self (hP.isSome_row id' hid') (hP.marked id')
      · refine carries_flush_of_ne heq ?_
        rcases List.mem_or_eq_of_mem_set hids' with hids' | rfl
        · exact hP.toCollect ids' hids' id' hid' hnot
        · refine hP.toCollect (id :: ids') (List.mem_of_getElem? hk) id' hid' (fun h => ?_)
          exact hnot ((List.mem_cons.mp h).resolve_left heq)
  | beginsTotal k order hk horder =>
    refine ⟨hP.isSome_row, hP.marked, hP.keys, hP.toCollect, fun us hus u hnot => ?_⟩
    rcases List.mem_or_eq_of_mem_set hus with hus | hus
    · exact hP.total us hus u hnot
    · -- a user outside the order has no entry, and hence no row
      rw [Option.some.inj hus, horder.mem_iff] at hnot
      exact fun row hrow hu => absurd (hP.keys row hrow u hu) hnot
  | scansTotal k u us hk =>
    refine ⟨hP.isSome_row, hP.marked, fun row' hrow' v hv => ?_, hP.toCollect,
      fun us' hus' v hnot => ?_⟩
    · obtain ⟨row, hrow, rfl⟩ := List.mem_map.mp hrow'
      rw [TotalUpdate.userId_apply] at hv
      exact hP.keys row hrow v hv
    · refine carries_totalEnergyUpdate (fun hne => ?_)
      rcases List.mem_or_eq_of_mem_set hus' with hus' | hus'
      · exact hP.total us' hus' v hnot
      · obtain rfl := Option.some.inj hus'
        refine hP.total (u :: us') (List.mem_of_getElem? hk) v (fun h => ?_)
        exact hnot ((List.mem_cons.mp h).resolve_left hne)

omit [DecidableEq ι] in
/-- It holds after loading. -/
theorem passed_start (hl : Loaded db m) (hall : db.AllIds) :
    Passed (Server.start m db : Server ι) := by
  refine ⟨fun id hid => ?_, fun id r hr hs => ?_, fun row hrow u hu => ?_,
    fun ids hids => absurd hids List.not_mem_nil, fun us hus => absurd hus List.not_mem_nil⟩
  · have hsome := hl.isSome_slot hall hid
    rw [hl.slot, Option.isSome_map] at hsome
    exact hsome
  · exact absurd (hl.fresh hr).1 hs
  · exact mem_keys_of_name? hl hrow (TotalRow.name?_eq_some.mpr hu)

theorem TimelyRun.passed (hl : Loaded db m) (hall : db.AllIds) (h : TimelyRun m db tr s) :
    Passed s :=
  Run.invariant (I := fun _ s => Passed s) (passed_start hl hall)
    (fun _ _ _ _ _ _ hP hs => hP.step (only_eq_some.mp hs).1
      (serverStep_cases (only_eq_some.mp hs).2)) h

/-! ## The map while it is flushed -/

/-- A chunk at hand was at hand before, or has just been received. -/
theorem ServerStep.chunk? (h : ServerStep s a s' es) (j : ι) (c : Chunk)
    (hc : (s'.pc j).chunk? = some c) : (s.pc j).chunk? = some c ∨ .received c ∈ es := by
  have hmove : ∀ (i : ι) (pc : HttpPc),
      (pc.chunk? = some c → (s.pc i).chunk? = some c ∨ .received c ∈ es) →
      (Function.update s.pc i pc j).chunk? = some c →
      (s.pc j).chunk? = some c ∨ .received c ∈ es := by
    intro i pc hpc hj
    by_cases hji : j = i
    · subst hji
      rw [Function.update_self] at hj
      exact hpc hj
    · rw [Function.update_of_ne hji] at hj
      exact Or.inl hj
  cases h with
  | enters i | leaves i | ends i | startsToCollect i | startsTotal i | respondsLate i
  | finishes i =>
    refine hmove i _ (fun h => ?_) hc
    exact absurd h.symm (Option.some_ne_none c)
  | receives i hpc c' =>
    refine hmove i _ (fun h => Or.inr ?_) hc
    rw [Option.some.inj (show some c' = some c from h)]
    exact List.mem_cons_self
  | counts i c' hpc =>
    refine hmove i _ (fun h => Or.inl ?_) hc
    rw [hpc]
    unfold afterCount at h
    split at h <;> exact h
  | responds i c' cnt hpc =>
    refine hmove i _ (fun h => Or.inl ?_) hc
    rw [hpc]
    exact h
  | handles i c' cnt hpc =>
    refine hmove i _ (fun h => ?_) hc
    unfold afterHandle at h
    split at h <;> exact absurd h.symm (Option.some_ne_none c)
  | scansRecord | beginsTotal | scansTotal => exact Or.inl hc

theorem ServerRun.received_of_chunk? (h : ServerRun m db tr s) (i : ι) (c : Chunk)
    (hc : (s.pc i).chunk? = some c) : .received c ∈ tr := by
  refine Run.invariant (I := fun tr (s : Server ι) =>
    ∀ i c, (s.pc i).chunk? = some c → .received c ∈ tr) (fun i c hc => ?_)
    (fun tr s a s' es _ hI hs i c hc => ?_) h i c hc
  · exact absurd hc.symm (Option.some_ne_none c)
  · rcases (serverStep_cases hs).chunk? i c hc with hc | hc
    · exact List.mem_append_left _ (hI i c hc)
    · exact List.mem_append_right _ hc

/-- **The users of the chunks have rows.** -/
def UsersHaveRows (db : Database) (tr : List HttpEvent) : Prop :=
  ∀ c q, .received c ∈ tr → c.request? = some q → db.HasRow q.userId

/-- **Then no entry is created while the map is being flushed.** -/
theorem ServerRun.keys (hl : Loaded db m) (h : ServerRun m db tr s)
    (hu : UsersHaveRows db tr) :
    s.mem.memTotalEnergyMap.keys = m.memTotalEnergyMap.keys := by
  refine Run.invariant (I := fun tr (s : Server ι) => UsersHaveRows db tr →
    s.mem.memTotalEnergyMap.keys = m.memTotalEnergyMap.keys) (fun _ => rfl)
    (fun tr s a s' es hr hI hs hu => ?_) h hu
  have hkeys := hI (fun c q hc => hu c q (List.mem_append_left _ hc))
  cases serverStep_cases hs with
  | handles i c cnt hpc m' hm =>
    show m'.memTotalEnergyMap.keys = _
    rcases Chunk.handleRequest_cases hm with rfl | ⟨q, hq, rfl⟩
    · exact hkeys
    · obtain ⟨row, hrow, hname⟩ := hu c q
        (List.mem_append_left _ (ServerRun.received_of_chunk? hr i c (by rw [hpc]; rfl))) hq
      have hmem : q.userId ∈ s.mem.memTotalEnergyMap.keys := by
        rw [hkeys]
        exact mem_keys_of_name? hl hrow (TotalRow.name?_eq_some.mpr hname)
      rw [memTotalEnergyMap_collectEnergy, ← hkeys]
      cases creditOf q s.mem with
      | none => rfl
      | some n => exact Finset.insert_eq_of_mem hmem
  | enters | leaves | receives | ends | counts | responds | startsToCollect | startsTotal
  | respondsLate | finishes | scansRecord | beginsTotal | scansTotal => exact hkeys

/-- **When no update is lost.** In every run in which each request is handled in
time, once `REQ_TOTAL_CNT` requests are received and done and the flushes have
ended, every record from which something has been taken is in its row with its
energy and status, and every user's total in the user's row. -/
theorem writtenBack_of_timely [Fintype ι] (hload : loadInMem db = .ok m)
    (hall : db.AllIds) (h : TimelyRun m db tr s) (husers : UsersHaveRows db tr)
    (hreceived : received tr = reqTotalCnt) (hdone : done tr = reqTotalCnt)
    (hended : s.FlushesEnded) :
    s.WrittenBack ∧ s.mem.memTotalEnergyMap.keys = m.memTotalEnergyMap.keys := by
  have hl := loaded_of_loadInMem hload
  have hrun : ServerRun m db tr s := Run.of_only h
  have hP := h.passed hl hall
  obtain ⟨hlen₁, hlen₂⟩ := hrun.length_scans
  have htrigger : ∀ k, k ≤ reqTotalCnt → (UInt32.ofNat k).toNat = k := fun k hk =>
    UInt32.toNat_ofNat_of_lt (hk.trans_lt (by decide))
  have hone₁ : tr.count .startedToCollect = 1 :=
    hrun.count_start_of_done hreceived hdone (.toCollect (htrigger _ (Nat.sub_le _ _)))
  have hone₂ : tr.count .startedTotal = 1 :=
    hrun.count_start_of_done hreceived hdone (.total (htrigger _ le_rfl))
  rw [hone₁] at hlen₁
  rw [hone₂] at hlen₂
  obtain ⟨ids, hids⟩ := List.length_eq_one_iff.mp hlen₁
  obtain ⟨us, hus⟩ := List.length_eq_one_iff.mp hlen₂
  have hmem₁ : ids ∈ s.toCollectScans := hids ▸ List.mem_singleton_self ids
  have hmem₂ : us ∈ s.totalScans := hus ▸ List.mem_singleton_self us
  refine ⟨⟨fun id hid => ?_, fun u => ?_⟩, hrun.keys hl husers⟩
  · exact hP.toCollect ids hmem₁ id hid (by rw [hended.toCollect ids hmem₁]; simp)
  · exact hP.total [] (hended.total us hmem₂ ▸ hmem₂) u List.not_mem_nil

/-! ## Runs to the end

A flush with nothing else running does what `executeUpdateToCollect` and
`executeUpdateTotal` do. -/

section Alone

variable {i : ι}

omit [DecidableEq ι] in
/-- Only the handling of a request can be late. -/
theorem limitsHandling_timely (i : ι) : LimitsHandling timely i := by
  intro s input h
  unfold timely
  dsimp only
  split
  · exact absurd ‹_› (h _ _)
  · rfl

omit [DecidableEq ι] in
theorem timely_of_handle {c : Call} {cnt : UInt32} (hpc : s.pc i = .handle c.chunk cnt)
    (h : s.takesInTime c.request = true) : timely (.http i none) s = true := by
  unfold timely
  dsimp only
  rw [hpc]
  dsimp only
  rw [c.request?_chunk]
  exact h

/-- A flush of the records alone issues the statements of `flushRecords`. -/
theorem run_scanRecords {ids : List RecordId} {us : List ToCollectUpdate}
    (hs : s.toCollectScans = [ids]) (hus : flushRecords s.mem ids = .ok us) :
    Run (only timely serverStep) s []
      { s with
        toCollect := us.foldl toCollectEnergyUpdate s.toCollect
        toCollectScans := [[]] } := by
  induction ids generalizing s us with
  | nil =>
    obtain rfl := Except.ok.inj hus
    have hsame : { s with toCollect := s.toCollect, toCollectScans := [[]] } = s := by
      rw [← hs]
    exact hsame.symm ▸ Run.init
  | cons id ids ih =>
    unfold flushRecords at hus
    split at hus
    · cases hus
    · rename_i us₁ h₁
      split at hus
      · cases hus
      · rename_i us₂ h₂
        obtain rfl := Except.ok.inj hus
        have hstep := (ServerStep.scansRecord 0 id ids (by rw [hs]; rfl) us₁ h₁).only
          (show timely _ _ = true from rfl)
        rw [hs] at hstep
        have hrest := ih (s := { s with
          toCollect := us₁.foldl toCollectEnergyUpdate s.toCollect
          toCollectScans := [ids] }) rfl h₂
        rw [List.foldl_append]
        exact (Run.single hstep).append hrest

/-- **A flush of the records alone is `executeUpdateToCollect`.** -/
theorem run_executeUpdateToCollect {t : ToCollectTable} (hs : s.toCollectScans = [scanIds])
    (ht : executeUpdateToCollect s.mem s.toCollect = .ok t) :
    Run (only timely serverStep) s [] { s with toCollect := t, toCollectScans := [[]] } := by
  unfold executeUpdateToCollect at ht
  cases hus : flushRecords s.mem scanIds with
  | error e =>
    rw [hus] at ht
    cases ht
  | ok us =>
    rw [hus] at ht
    obtain rfl := Except.ok.inj ht
    exact run_scanRecords hs hus

/-- A flush of the totals that has begun issues a statement for every key left. -/
theorem run_scanTotals {us : List CString} (hs : s.totalScans = [some us]) :
    Run (only timely serverStep) s []
      { s with
        total := executeUpdateTotal s.mem.memTotalEnergyMap us s.total
        totalScans := [some []] } := by
  induction us generalizing s with
  | nil =>
    have hsame : { s with
        total := executeUpdateTotal s.mem.memTotalEnergyMap [] s.total
        totalScans := [some []] } = s := by
      rw [← hs]
      rfl
    exact hsame.symm ▸ Run.init
  | cons u us ih =>
    have hscan : ServerStep s (.scanTotal 0 []) _ _ :=
      .scansTotal 0 u us (by rw [hs]; rfl)
    have hstep := hscan.only (show timely _ _ = true from rfl)
    rw [hs] at hstep
    exact (Run.single hstep).append (ih (s := { s with
      total := totalEnergyUpdate s.total (s.mem.memTotalEnergyMap.update u)
      totalScans := [some us] }) rfl)

/-- **A flush of the totals alone is `executeUpdateTotal`.** -/
theorem run_executeUpdateTotal {order : List CString} (hs : s.totalScans = [none])
    (horder : s.mem.memTotalEnergyMap.Enumerates order) :
    Run (only timely serverStep) s []
      { s with
        total := executeUpdateTotal s.mem.memTotalEnergyMap order s.total
        totalScans := [some []] } := by
  have hstep := (ServerStep.beginsTotal 0 order (by rw [hs]; rfl) horder).only
    (show timely _ _ = true from rfl)
  rw [hs] at hstep
  exact (Run.single hstep).append (run_scanTotals (s := { s with
    totalScans := [some order] }) rfl)

/-- **Both flushes can run to their end**, and leave the rows of a write-back. -/
theorem exists_run_flushes (hs₁ : s.toCollectScans = [scanIds]) (hs₂ : s.totalScans = [none])
    (hsome : ∀ id : RecordId, 1 ≤ (id : ℕ) → (s.mem.memToCollects id).isSome = true) :
    ∃ s', Run (only timely serverStep) s [] s' ∧ s'.mem = s.mem ∧ s'.pc = s.pc
      ∧ s'.toCollect.rows = s.toCollect.rows.map (writeBackRow s.mem)
      ∧ s'.toCollectScans = [[]] ∧ s'.totalScans = [some []] := by
  obtain ⟨t, ht, hrows⟩ := executeUpdateToCollect_eq s.toCollect hsome
  obtain ⟨order, horder⟩ := s.mem.memTotalEnergyMap.exists_enumerates
  have hrun := (run_executeUpdateToCollect hs₁ ht).append
    (run_executeUpdateTotal (s := { s with toCollect := t, toCollectScans := [[]] }) hs₂ horder)
  exact ⟨_, hrun, rfl, rfl, hrows, rfl, rfl⟩

end Alone

/-! ## A request is lost -/

/-- The owner's request for record 2. -/
def laterCall : Call := HttpRequest.plainCall ann ann_length ann_clean 2 (by decide)

/-- **One connection is ahead.** The second thread has drawn the first number and
answered its request for record 1; the first thread has had `k` requests done. No
flush has read anything. -/
structure Ahead (m : Mem) (k : ℕ) (tr : List HttpEvent) (s : Server (Fin 2)) : Prop where
  run : TimelyRun m annsDb tr s
  received_eq : received tr = k + 1
  drawn_eq : drawn tr = k + 1
  done_eq : done tr = k
  chunks : ∀ c ∈ chunksOf tr, c = (raceCalls 0).chunk ∨ c = laterCall.chunk
  atGuard : s.pc 0 = .guard
  atHandle : s.pc 1 = .handle (raceCalls 0).chunk 1
  slot : s.mem.memToCollects 1 = m.memToCollects 1
  isSome : ∀ id : RecordId, 1 ≤ (id : ℕ) → (s.mem.memToCollects id).isSome = true
  toCollect : s.toCollect = annsDb.toCollect
  toCollectScans : ∀ ids ∈ s.toCollectScans, ids = scanIds
  totalScans : ∀ us ∈ s.totalScans, us = none

namespace Ahead

variable {k : ℕ} {s : Server (Fin 2)}

theorem doneCnt (h : Ahead m k tr s) (hk : k < reqTotalCnt) : s.doneCnt.toNat = k := by
  have hdone := ServerRun.toNat_doneCnt (Run.of_only h.run) (by
    rw [h.done_eq]
    exact hk.trans (by decide))
  exact hdone.trans h.done_eq

/-- Both are at their guards, and the second serves its request up to the
handling. -/
theorem zero (hl : Loaded annsDb m) : ∃ tr s, Ahead m 0 tr s := by
  have hpos : 0 < reqTotalCnt := by decide
  obtain ⟨tr, hrun, hr, hd, hf⟩ := exists_run_handle (limitsHandling_timely 1)
    (s := (Server.start m annsDb : Server (Fin 2))) rfl hpos (raceCalls 0).chunk
  have hguard : Function.update (Server.start m annsDb : Server (Fin 2)).pc 1
      (.handle (raceCalls 0).chunk 1) 0 = .guard := Function.update_of_ne Fin.zero_ne_one _ _
  exact ⟨tr, _, hrun, congrArg List.length hr, hd, hf, fun c h => Or.inl (by simpa [hr] using h),
    hguard, Server.pc_goto .., rfl,
    fun id hid => hl.isSome_slot allIds_uniformDb hid, rfl,
    fun ids h => absurd h List.not_mem_nil, fun us h => absurd h List.not_mem_nil⟩

/-- A request for another record is in time while no flush has read anything. -/
theorem takesInTime (h : Ahead m k tr s) {q : Request} (hid : 1 ≤ (q.id : ℕ)) :
    s.takesInTime q = true := by
  refine Server.takesInTime_iff.mpr (fun r _ _ => ⟨fun ids hids => ?_, fun _ us hus => ?_⟩)
  · rw [h.toCollectScans ids hids]
    exact mem_scanIds.mpr hid
  · exact absurd (h.totalScans _ hus) (Option.some_ne_none us)

/-- The first thread serves one more. -/
theorem succ (h : Ahead m k tr s) (hk : k < reqTotalCnt) :
    ∃ tr' s', Ahead m (k + 1) tr' s' := by
  obtain ⟨tr', s', hrun, hret, hr, hd, hf⟩ := exists_run_serve (limitsHandling_timely 0)
    h.atGuard (by rw [h.doneCnt hk]; exact hk) (laterCall.handleRequest_eq s.mem)
    (timely_of_handle (Server.pc_goto ..)
      (h.takesInTime (show 1 ≤ ((2 : RecordId) : ℕ) by decide)))
  refine ⟨_, s', h.run.append hrun, ?_, ?_, ?_, fun c hc' => ?_, ?_, ?_, ?_, fun id hid => ?_,
    hret.toCollect.trans h.toCollect, fun ids hids => ?_, fun us hus => ?_⟩
  · rw [received_append, h.received_eq, received, hr]
    rfl
  · rw [drawn_append, h.drawn_eq, hd]
  · rw [done_append, h.done_eq, hf]
  · rw [chunksOf_append, hr] at hc'
    rcases List.mem_append.mp hc' with hc' | hc'
    · exact h.chunks c hc'
    · exact Or.inr (List.mem_singleton.mp hc')
  · rw [hret.pc]
    exact Function.update_self ..
  · rw [hret.pc, Function.update_of_ne Fin.zero_ne_one.symm]
    exact h.atHandle
  · rw [hret.mem]
    show (collectEnergy laterCall.request s.mem).memToCollects 1 = _
    have hne : (1 : RecordId) ≠ laterCall.request.id :=
      show (1 : RecordId) ≠ 2 by decide
    rw [memToCollects_collectEnergy, Function.update_of_ne hne]
    exact h.slot
  · rw [hret.mem]
    exact isSome_collectAll (h.isSome id hid) [laterCall.request]
  · rcases hret.toCollectScans with heq | heq
    · exact h.toCollectScans ids (heq ▸ hids)
    · rw [heq] at hids
      rcases List.mem_append.mp hids with hids | hids
      · exact h.toCollectScans ids hids
      · exact List.mem_singleton.mp hids
  · rcases hret.totalScans with heq | heq
    · exact h.totalScans us (heq ▸ hus)
    · rw [heq] at hus
      rcases List.mem_append.mp hus with hus | hus
      · exact h.totalScans us hus
      · exact List.mem_singleton.mp hus

/-- It can get ahead as far as it likes. -/
theorem exists_ahead (hl : Loaded annsDb m) (hk : k ≤ reqTotalCnt) :
    ∃ tr s, Ahead m k tr s := by
  induction k with
  | zero => exact zero hl
  | succ k ih =>
    obtain ⟨tr, s, h⟩ := ih (Nat.le_of_succ_le hk)
    exact h.succ hk

/-- When only the second thread's request is left, both flushes have been started. -/
theorem scans (h : Ahead m (reqTotalCnt - 1) tr s) :
    s.toCollectScans = [scanIds] ∧ s.totalScans = [none] := by
  have hrun : ServerRun m annsDb tr s := Run.of_only h.run
  have hdrawn : drawn tr = reqTotalCnt := h.drawn_eq
  have hstart : ∀ n e, Triggers n e → tr.count e = 1 := by
    intro n e hn
    refine hrun.count_start_eq (hdrawn ▸ by decide) hdrawn.ge hn
      (Fin.forall_fin_two.mpr ⟨?_, ?_⟩)
    · show (s.pc 0).unstarted n = false
      rw [h.atGuard]
      rfl
    · show (s.pc 1).unstarted n = false
      rw [h.atHandle]
      refine decide_eq_false ?_
      rintro rfl
      cases hn with
      | toCollect h => exact absurd h (by decide)
      | total h => exact absurd h (by decide)
  obtain ⟨hlen₁, hlen₂⟩ := hrun.length_scans
  rw [hstart (UInt32.ofNat (reqTotalCnt - 1)) _ (.toCollect rfl)] at hlen₁
  rw [hstart (UInt32.ofNat reqTotalCnt) _ (.total rfl)] at hlen₂
  obtain ⟨ids, hids⟩ := List.length_eq_one_iff.mp hlen₁
  obtain ⟨us, hus⟩ := List.length_eq_one_iff.mp hlen₂
  refine ⟨?_, ?_⟩
  · rw [hids, h.toCollectScans ids (hids ▸ List.mem_singleton_self ids)]
  · rw [hus, h.totalScans us (hus ▸ List.mem_singleton_self us)]

/-- The chunks received are requests of a user with a row. -/
theorem exists_call (h : Ahead m k tr s) {tr' : List HttpEvent}
    (hr : chunksOf tr' = []) {c : Chunk} (hc : .received c ∈ tr ++ tr') :
    ∃ call : Call, call.chunk = c ∧ annsDb.HasRow call.request.userId := by
  rw [← mem_chunksOf, chunksOf_append, hr, List.append_nil] at hc
  rcases h.chunks c hc with rfl | rfl
  · exact ⟨raceCalls 0, rfl, annsDb_hasRow⟩
  · exact ⟨laterCall, rfl, annsDb_hasRow⟩

theorem usersHaveRows (h : Ahead m k tr s) {tr' : List HttpEvent}
    (hr : chunksOf tr' = []) : UsersHaveRows annsDb (tr ++ tr') := by
  intro c q hc hq
  obtain ⟨call, rfl, hrow⟩ := h.exists_call hr hc
  rw [call.request?_chunk] at hq
  obtain rfl := Option.some.inj hq
  exact hrow

end Ahead

/-- If the flushes wait for the last request, nothing is lost. -/
theorem annsDb_writtenBack :
    ∃ m tr, ∃ s : Server (Fin 2), loadInMem annsDb = .ok m ∧ TimelyRun m annsDb tr s
      ∧ received tr = reqTotalCnt ∧ done tr = reqTotalCnt ∧ s.FlushesEnded
      ∧ s.WrittenBack := by
  obtain ⟨m, hm⟩ := exists_loadInMem_annsDb
  obtain ⟨tr, s, h⟩ := Ahead.exists_ahead (loaded_of_loadInMem hm) (Nat.sub_le reqTotalCnt 1)
  obtain ⟨tr₁, s₁, hrun₁, hret, hscans, hr₁, -, hf₁⟩ :=
    exists_run_handled (limitsHandling_timely 1) h.atHandle ((raceCalls 0).handleRequest_eq s.mem)
      (timely_of_handle h.atHandle (h.takesInTime (by decide)))
  obtain ⟨hs₁, hs₂⟩ := hscans (by decide)
  rw [h.scans.1] at hs₁
  rw [h.scans.2] at hs₂
  obtain ⟨s₂, hrun₂, -, -, -, he₁, he₂⟩ := exists_run_flushes hs₁ hs₂ (fun id hid => by
    rw [hret.mem]
    exact isSome_collectAll (h.isSome id hid) [(raceCalls 0).request])
  have hrun := (h.run.append hrun₁).append hrun₂
  rw [List.append_nil] at hrun
  have hreceived : received (tr ++ tr₁) = reqTotalCnt := by
    rw [received_append, h.received_eq, received, hr₁]
    rfl
  have hdone : done (tr ++ tr₁) = reqTotalCnt := by
    rw [done_append, h.done_eq, hf₁]
    rfl
  have hended : s₂.FlushesEnded := ⟨by simp [he₁], by simp [he₂]⟩
  exact ⟨m, _, s₂, hm, hrun, hreceived, hdone, hended,
    (writtenBack_of_timely hm allIds_uniformDb hrun (h.usersHaveRows hr₁) hreceived hdone
      hended).1⟩

/-- **A request is lost.** While one connection has its request for record 1 counted
and answered, the other serves the remaining requests and the flushes come to
their end; then the request is handled, and record 1 is empty in memory and full in
its row. -/
theorem annsDb_update_lost :
    ∃ m tr r, ∃ s : Server (Fin 2), loadInMem annsDb = .ok m ∧ annsDb.AllIds
      ∧ ServerRun m annsDb tr s
      ∧ (∀ c, .received c ∈ tr →
        ∃ call : Call, call.chunk = c ∧ annsDb.HasRow call.request.userId)
      ∧ received tr = reqTotalCnt ∧ done tr = reqTotalCnt ∧ s.FlushesEnded
      ∧ s.mem.memToCollects 1 = some r ∧ r.status = .allCollected ∧ r.toCollectEnergy = 0
      ∧ s.toCollect.row? 1 = some ⟨1, some ann.bytes, some 10, none⟩
      ∧ ¬ s.WrittenBack := by
  obtain ⟨m, hm⟩ := exists_loadInMem_annsDb
  have hl := loaded_of_loadInMem hm
  obtain ⟨tr, s, h⟩ := Ahead.exists_ahead hl (Nat.sub_le reqTotalCnt 1)
  obtain ⟨s₁, hrun₁, hmem₁, hpc₁, hrows₁, he₁, he₂⟩ :=
    exists_run_flushes h.scans.1 h.scans.2 h.isSome
  -- no condition on this handling: it comes when the flushes have ended
  obtain ⟨tr₂, s₂, hrun₂, hret, hscans, hr₂, -, hf₂⟩ :=
    exists_run_handled (p := fun _ _ => true) (fun _ _ _ => rfl) (hpc₁ ▸ h.atHandle)
      ((raceCalls 0).handleRequest_eq s₁.mem) rfl
  obtain ⟨hs₁, hs₂⟩ := hscans (by decide)
  have hrun := (Run.of_only (h.run.append hrun₁)).append (Run.of_only hrun₂)
  rw [List.append_nil] at hrun
  have hslot : s.mem.memToCollects 1
      = some { userId := ann, toCollectEnergy := (10 : Int32).toUInt32 } :=
    h.slot.trans (slot_uniformDb hm (by decide))
  have hrow : annsDb.toCollect.row? 1 = some ⟨1, some ann.bytes, some 10, none⟩ := by
    obtain ⟨row, hrow⟩ := Option.isSome_iff_exists.mp
      (h.toCollect ▸ (h.run.passed hl allIds_uniformDb).isSome_row 1 (by decide))
    obtain ⟨i, -, -, rfl⟩ := mem_rows_uniformDb.mp (List.mem_of_find?_eq_some hrow)
    have hi : ((i : ℕ) : ℤ) = 1 := id_of_row? hrow
    rw [hrow, hi]
  have hrow₂ : s₂.toCollect.row? 1 = some ⟨1, some ann.bytes, some 10, none⟩ := by
    rw [hret.toCollect]
    show s₁.toCollect.row? 1 = _
    rw [row?_writeBack hrows₁, h.toCollect, hrow, Option.map_some, writeBackRow_of_some rfl hslot]
    rfl
  obtain ⟨r, hr, hstatus, henergy⟩ : ∃ r, s₂.mem.memToCollects 1 = some r
      ∧ r.status = .allCollected ∧ r.toCollectEnergy = 0 := by
    rw [hret.mem]
    show ∃ r, (collectEnergy (raceCalls 0).request s₁.mem).memToCollects 1 = some r ∧ _
    have hone : (1 : RecordId) = (raceCalls 0).request.id := rfl
    rw [memToCollects_collectEnergy, hone, Function.update_self, ← hone, hmem₁, hslot]
    exact ⟨_, rfl, by decide, by decide⟩
  refine ⟨m, _, r, s₂, hm, allIds_uniformDb, hrun, fun c hc => h.exists_call hr₂ hc, ?_, ?_,
    ⟨by simp [hs₁, he₁], by simp [hs₂, he₂]⟩, hr, hstatus, henergy, hrow₂, fun hw => ?_⟩
  · rw [received_append, h.received_eq, received, hr₂]
    rfl
  · rw [done_append, h.done_eq, hf₂]
    rfl
  · obtain ⟨row, hrow, -, htext⟩ := hw.toCollect 1 (by decide) r hr
      (by rw [hstatus]; exact Status.noConfusion)
    rw [hrow₂] at hrow
    obtain rfl := Option.some.inj hrow
    rw [hstatus] at htext
    exact Option.some_ne_none _ htext.symm

end GreenFinal
