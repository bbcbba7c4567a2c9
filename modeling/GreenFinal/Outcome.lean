import GreenFinal.FlushRace
import GreenFinal.Reorder
import GreenFinal.Requests

/-!
# What the tables hold in the end

The server as a whole takes two tables and a number of connections and leaves
two tables. `GreenFinal.FlushRace` says when the tables it leaves are those of the
memory image. Here the image itself is resolved: where no request is lost to the
tables, a row of `to_collect_energy` holds in the end what its owner, its energy
and the users that have asked for it settle (`outcome_of_timely`) – no thread, no
order and no flush occurs in that any more – and the energy of the two tables is
what it was before (`energy_conserved_of_timely`).

Two things are carried along a run for this. A row is at any time the loaded row,
or has been written from its record after some of the requests (`Written`); and
the image is that of the chunks handled so far (`Handled`).
-/

open CLib Interleave

namespace GreenFinal

/-! ## Chunks as requests -/

/-- The requests in a list of chunks. -/
def requestsOf (cs : List Chunk) : List Request := cs.filterMap Chunk.request?

/-- A chunk that asks for a record is a call. -/
theorem Chunk.exists_call {c : Chunk} {q : Request} (h : c.request? = some q) :
    ∃ call : Call, call.chunk = c ∧ call.request = q := by
  unfold request? at h
  split at h
  · rename_i t ht
    obtain ⟨id, hid, h⟩ := Option.bind_eq_some_iff.mp h
    obtain ⟨u, hu, rfl⟩ := Option.map_eq_some_iff.mp h
    exact ⟨⟨c, ⟨u, id⟩, t, ht, hu, hid⟩, rfl, rfl⟩
  · exact absurd h.symm (Option.some_ne_none q)

/-- A chunk does to the image what its request does, and nothing without one. -/
theorem Chunk.handleRequest_eq {c : Chunk} {m m' : Mem}
    (h : handleRequest c.line c.len m = .ok m') : m' = collectAll m (requestsOf [c]) := by
  cases hq : c.request? with
  | none =>
    have hnone : requestsOf [c] = [] := by
      rw [requestsOf, List.filterMap_cons_none hq]
      rfl
    rw [hnone]
    rcases Chunk.handleRequest_cases h with rfl | ⟨q, hq', -⟩
    · rfl
    · rw [hq] at hq'
      cases hq'
  | some q =>
    obtain ⟨call, rfl, rfl⟩ := Chunk.exists_call hq
    rw [call.handleRequest_eq] at h
    rw [requestsOf, List.filterMap_cons_some hq]
    exact (Except.ok.inj h).symm

theorem requestsOf_append (cs cs' : List Chunk) :
    requestsOf (cs ++ cs') = requestsOf cs ++ requestsOf cs' := List.filterMap_append

theorem collectAll_of_handleChunks {cs : List Chunk} {m m' : Mem}
    (h : handleChunks cs m = .ok m') : m' = collectAll m (requestsOf cs) := by
  induction cs using List.reverseRecOn generalizing m' with
  | nil => exact (Except.ok.inj h).symm
  | append_singleton cs c ih =>
    unfold handleChunks at h
    rw [List.foldlM_append] at h
    cases hcs : cs.foldlM (fun m c => handleRequest c.line c.len m) m with
    | error e =>
      rw [hcs] at h
      cases h
    | ok m₁ =>
      rw [hcs] at h
      change (handleRequest c.line c.len m₁ >>= pure) = _ at h
      rw [bind_pure] at h
      rw [Chunk.handleRequest_eq h, ih hcs, requestsOf_append, collectAll_append]

theorem askers_append (id : RecordId) (qs qs' : List Request) :
    askers id (qs ++ qs') = askers id qs ++ askers id qs' := by
  unfold askers
  rw [List.filter_append, List.map_append]

/-! ## Rows as they are written -/

/-- **How a row of `to_collect_energy` can stand** when the users of a list have asked for
its record: as it was loaded, or as it was written after some of them. -/
inductive Written (row : ToCollectRow) (asks : List CString) : ToCollectRow → Prop
  | loaded : Written row asks row
  | written (us : List CString) (hus : us <+: asks) (hne : us ≠ []) :
      Written row asks { row with
        toCollectEnergy := some (row.load.nexts us).toCollectEnergy.toInt32
        status := some (row.load.nexts us).newStatus }

namespace Written

variable {row row' : ToCollectRow} {asks : List CString}

theorem id_eq (h : Written row asks row') : row'.id = row.id := by
  cases h <;> rfl

theorem append (h : Written row asks row') (more : List CString) :
    Written row (asks ++ more) row' := by
  cases h with
  | loaded => exact .loaded
  | written us hus hne => exact .written us (hus.trans (List.prefix_append _ _)) hne

/-- The statement for a record that has seen all of them writes such a row. -/
theorem update {id : RecordId} (h : Written row asks row') (hid : row.id = ((id : ℕ) : ℤ))
    (hmod : (row.load.nexts asks).modified = true) :
    Written row asks (((row.load.nexts asks).update id).apply row') := by
  have hne : asks ≠ [] := by
    rintro rfl
    exact absurd hmod Bool.false_ne_true
  have hset : ((row.load.nexts asks).update id).apply row'
      = { row' with
          toCollectEnergy := some (row.load.nexts asks).toCollectEnergy.toInt32
          status := some (row.load.nexts asks).newStatus } := if_pos (h.id_eq.trans hid)
  rw [hset]
  cases h with
  | loaded => exact .written asks List.prefix_rfl hne
  | written us hus _ => exact .written asks List.prefix_rfl hne

end Written

/-- A row of `total_energy` is written in one column, and not at all where nobody's name
is in it. -/
structure SameUser (row row' : TotalRow) : Prop where
  userId : row'.userId = row.userId
  nameless : row.name? = none → row' = row

theorem SameUser.apply {row row' : TotalRow} (h : SameUser row row') (q : TotalUpdate) :
    SameUser row (q.apply row') := by
  refine ⟨(q.userId_apply row').trans h.userId, fun hnone => ?_⟩
  obtain rfl := h.nameless hnone
  refine if_neg fun heq => ?_
  rw [TotalRow.name?_eq_some.mpr heq] at hnone
  cases hnone

/-- With no request at hand. -/
def HttpPc.spent : HttpPc → Bool
  | .guard | .recv | .closed => true
  | _ => false

variable {ι : Type*} [DecidableEq ι] {m : Mem} {db : Database} {tr es : List HttpEvent}
  {s s' : Server ι} {a : Action ι} {cs : List Chunk}

/-- **The tables, row by row**, when the chunks of a list have been handled. -/
structure Recorded [Fintype ι] (m : Mem) (db : Database) (tr : List HttpEvent)
    (s : Server ι) (cs : List Chunk) : Prop where
  handled : Handled m tr s cs
  toCollect : ∃ g, s.toCollect.rows = db.toCollect.rows.map g
    ∧ ∀ row ∈ db.toCollect.rows, ∀ id : RecordId, row.id = ((id : ℕ) : ℤ) →
      Written row (askers id (requestsOf cs)) (g row)
  total : ∃ g, s.total.rows = db.total.rows.map g ∧ ∀ row, SameUser row (g row)

section Recorded

variable [Fintype ι]

omit [DecidableEq ι] in
/-- The record of a row is the loaded one after its askers. -/
theorem Recorded.slot (hR : Recorded m db tr s cs) (hl : Loaded db m) {row : ToCollectRow}
    (hrow : row ∈ db.toCollect.rows) {id : RecordId} (hid : row.id = ((id : ℕ) : ℤ)) :
    s.mem.memToCollects id = some (row.load.nexts (askers id (requestsOf cs))) := by
  rw [collectAll_of_handleChunks hR.handled.mem, memToCollects_collectAll, hl.slot,
    ToCollectTable.row?_eq_some.mpr ⟨hrow, hid⟩]
  rfl

omit [DecidableEq ι] in
/-- The scan of a record leaves the rows as they may be written. -/
theorem Recorded.written_scan (hR : Recorded m db tr s cs) (hl : Loaded db m)
    {row row' : ToCollectRow} (hrow : row ∈ db.toCollect.rows) {id : RecordId}
    (hid : row.id = ((id : ℕ) : ℤ)) (hw : Written row (askers id (requestsOf cs)) row')
    (id₀ : RecordId) :
    Written row (askers id (requestsOf cs))
      ((updatesOf s.mem id₀).foldl (fun row q => q.apply row) row') := by
  by_cases heq : id = id₀
  · subst heq
    -- the row's own record, with all its askers so far
    rw [updatesOf, hR.slot hl hrow hid, Option.elim_some]
    cases hmod : (row.load.nexts (askers id (requestsOf cs))).modified with
    | false => exact hw
    | true => exact hw.update hid hmod
  · have hskip : (updatesOf s.mem id₀).foldl (fun row q => q.apply row) row' = row' := by
      refine foldl_apply_of_ne fun q hq hq' => heq ?_
      rw [id_of_mem_updatesOf hq, hw.id_eq, hid] at hq'
      exact Fin.ext (Int.ofNat.inj hq'.symm)
    rw [hskip]
    exact hw

theorem Recorded.step (hl : Loaded db m) (hR : Recorded m db tr s cs)
    (h : ServerStep s a s' es) : ∃ rest, Recorded m db (tr ++ es) s' (cs ++ rest) := by
  obtain ⟨rest, hH⟩ := hR.handled.step h
  obtain ⟨g, hrows, hg⟩ := hR.toCollect
  obtain ⟨g', hrows', hg'⟩ := hR.total
  have hmore : ∀ row ∈ db.toCollect.rows, ∀ id : RecordId, row.id = ((id : ℕ) : ℤ) →
      ∀ row', Written row (askers id (requestsOf cs)) row' →
        Written row (askers id (requestsOf (cs ++ rest))) row' := by
    intro row _ id _ row' hw
    rw [requestsOf_append, askers_append]
    exact hw.append _
  have hkeep : ∀ row ∈ db.toCollect.rows, ∀ id : RecordId, row.id = ((id : ℕ) : ℤ) →
      Written row (askers id (requestsOf (cs ++ rest))) (g row) :=
    fun row hrow id hid => hmore row hrow id hid _ (hg row hrow id hid)
  refine ⟨rest, hH, ?_, ?_⟩
  · cases h with
    | scansRecord k id ids hk us hus =>
      have hus' : us = updatesOf s.mem id := by
        unfold flushRecord at hus
        unfold updatesOf
        split at hus
        · cases hus
        · rename_i r hr
          rw [hr]
          exact (Except.ok.inj hus).symm
      refine ⟨fun row => us.foldl (fun row q => q.apply row) (g row), ?_,
        fun row hrow id' hid' => hmore row hrow id' hid' _ ?_⟩
      · show (us.foldl toCollectEnergyUpdate s.toCollect).rows = _
        rw [rows_foldl_toCollectEnergyUpdate, hrows, List.map_map]
        rfl
      · show Written row _ (us.foldl (fun row q => q.apply row) (g row))
        rw [hus']
        exact hR.written_scan hl hrow hid' (hg row hrow id' hid') id
    | enters | leaves | receives | ends | counts | responds | handles | startsToCollect
    | startsTotal | respondsLate | finishes | beginsTotal | scansTotal =>
      exact ⟨g, hrows, hkeep⟩
  · cases h with
    | scansTotal k u us hk =>
      refine ⟨fun row => (s.mem.memTotalEnergyMap.update u).apply (g' row), ?_,
        fun row => (hg' row).apply _⟩
      show s.total.rows.map _ = _
      rw [hrows', List.map_map]
      rfl
    | enters | leaves | receives | ends | counts | responds | handles | startsToCollect
    | startsTotal | respondsLate | finishes | scansRecord | beginsTotal =>
      exact ⟨g', hrows', hg'⟩

theorem ServerRun.exists_recorded (hl : Loaded db m) (h : ServerRun m db tr s) :
    ∃ cs, Recorded m db tr s cs :=
  Run.invariant (I := fun tr (s : Server ι) => ∃ cs, Recorded m db tr s cs)
    ⟨[], handled_start, ⟨id, (List.map_id _).symm, fun _ _ _ _ => .loaded⟩,
      ⟨id, (List.map_id _).symm, fun _ => ⟨rfl, fun _ => rfl⟩⟩⟩
    (fun _ _ _ _ _ _ ⟨_, hR⟩ hs =>
      (hR.step hl (serverStep_cases hs)).imp' _ fun _ h => h) h

/-- When as many requests are done as have been received, no thread has one at hand. -/
theorem ServerRun.spent_of_done (h : ServerRun m db tr s)
    (hr : GreenFinal.received tr = done tr) (i : ι) : (s.pc i).spent = true := by
  have h₁ := h.received
  have h₂ := h.inFlight
  have hcount : ∑ j, (s.pc j).atCount.toNat = 0 := by omega
  have hflight : ∑ j, (s.pc j).inFlight.toNat = 0 := by omega
  have hcount' := Finset.sum_eq_zero_iff.mp hcount i (Finset.mem_univ i)
  have hflight' := Finset.sum_eq_zero_iff.mp hflight i (Finset.mem_univ i)
  cases hpc : s.pc i with
  | guard | recv | closed => rfl
  | count =>
    rw [hpc] at hcount'
    exact absurd hcount' Nat.one_ne_zero
  | respond | handle | start | respondLate | finish =>
    rw [hpc] at hflight'
    exact absurd hflight' Nat.one_ne_zero

theorem ServerRun.atHand_eq_zero (h : ServerRun m db tr s)
    (hr : GreenFinal.received tr = done tr) : s.atHand = 0 := by
  refine Finset.sum_eq_zero fun i _ => ?_
  have hspent := h.spent_of_done hr i
  cases hpc : s.pc i with
  | guard | recv | closed => rfl
  | count | respond | handle | start | respondLate | finish =>
    rw [hpc] at hspent
    cases hspent

end Recorded

/-! ## The end of a run -/

/-- **Where nothing is handled too late, the rows carry what was collected**, once all
requests are done and the flushes have ended. -/
theorem TimelyRun.carries [Fintype ι] (hl : Loaded db m) (hall : db.AllIds)
    (h : TimelyRun m db tr s) (hreceived : received tr = reqTotalCnt)
    (hdone : done tr = reqTotalCnt) (hended : s.FlushesEnded) :
    (∀ id : RecordId, 1 ≤ (id : ℕ) → s.toCollect.Carries s.mem id)
      ∧ ∀ u, s.total.Carries s.mem u := by
  have hrun : ServerRun m db tr s := Run.of_only h
  have hP := h.passed hl hall
  have htrigger : ∀ k, k ≤ reqTotalCnt → (UInt32.ofNat k).toNat = k := fun k hk =>
    UInt32.toNat_ofNat_of_lt (hk.trans_lt (by decide))
  obtain ⟨hlen₁, hlen₂⟩ := hrun.length_scans
  rw [hrun.count_start_of_done hreceived hdone (.toCollect (htrigger _ (Nat.sub_le _ _)))]
    at hlen₁
  rw [hrun.count_start_of_done hreceived hdone (.total (htrigger _ le_rfl))] at hlen₂
  obtain ⟨ids, hids⟩ := List.length_eq_one_iff.mp hlen₁
  obtain ⟨us, hus⟩ := List.length_eq_one_iff.mp hlen₂
  have hmem₁ : ids ∈ s.toCollectScans := hids ▸ List.mem_singleton_self ids
  have hmem₂ : us ∈ s.totalScans := hus ▸ List.mem_singleton_self us
  refine ⟨fun id hid => hP.toCollect ids hmem₁ id hid ?_, fun u => ?_⟩
  · rw [hended.toCollect ids hmem₁]
    exact List.not_mem_nil
  · exact hP.total [] (hended.total us hmem₂ ▸ hmem₂) u List.not_mem_nil

/-- A record that is left alone by all its askers is left alone by some of them. -/
theorem settled_of_subset {υ : Type*} [DecidableEq υ] {o : υ} {e : ℕ} {us asks : List υ}
    (h : (settled o e asks).1 = .empty) (hsub : us ⊆ asks) : settled o e us = (.empty, e) := by
  unfold settled at h ⊢
  by_cases ho : o ∈ asks
  · rw [if_pos ho] at h
    exact Status.noConfusion h
  · rw [if_neg ho] at h
    rw [if_neg fun h' => ho (hsub h')]
    by_cases hother : (∃ v ∈ asks, v ≠ o) ∧ 3 < e
    · rw [if_pos hother] at h
      exact Status.noConfusion h
    · refine if_neg fun h' => hother ⟨?_, h'.2⟩
      obtain ⟨⟨v, hv, hne⟩, -⟩ := h'
      exact ⟨v, hsub hv, hne⟩

/-- **What a row of `to_collect_energy` holds in the end**, when the users of a list have
asked for its record, in any order. Where nobody could take anything the row is left
alone, or it is written with the energy it had and a text that says otherwise. -/
structure Settles (row row' : ToCollectRow) (asks : List CString) : Prop where
  id_eq : row'.id = row.id
  userId : row'.userId = row.userId
  energy : row'.load.toCollectEnergy.toNat
    = (settled row.load.userId row.load.toCollectEnergy.toNat asks).2
  status : ∀ text,
    collectedText (settled row.load.userId row.load.toCollectEnergy.toNat asks).1 = some text →
      row'.status = some text
  untaken : (settled row.load.userId row.load.toCollectEnergy.toNat asks).1 = .empty →
    row'.status = row.status ∨ asks ≠ [] ∧ row'.status = some (ascii "collected_by_other")

/-- The energy of a row that has been written is read back. -/
theorem toUInt32_getInt (x : UInt32) : (getInt (some x.toInt32)).toUInt32 = x := rfl

/-- A row that is as it was written, and carries what was collected, holds what its
askers settle. -/
theorem Written.settles {row row' : ToCollectRow} {asks : List CString}
    (h : Written row asks row')
    (hcarries : (row.load.nexts asks).status ≠ .empty →
      row'.toCollectEnergy = some (row.load.nexts asks).toCollectEnergy.toInt32
        ∧ row'.status = collectedText (row.load.nexts asks).status) :
    Settles row row' asks := by
  have hend := MemToCollect.nexts_settled (r := row.load) rfl asks
  have hstatus := congrArg Prod.fst hend
  have henergy := congrArg Prod.snd hend
  dsimp only at hstatus henergy
  by_cases hempty : (row.load.nexts asks).status = .empty
  · -- nobody could take anything, whichever requests the row was written after
    rw [hstatus] at hempty
    have hrest := congrArg Prod.snd (settled_of_subset hempty (List.Subset.refl asks))
    have htext : ∀ text, collectedText (settled row.load.userId row.load.toCollectEnergy.toNat
        asks).1 ≠ some text := fun text htext => by
      rw [hempty] at htext
      exact absurd htext.symm (Option.some_ne_none text)
    cases h with
    | loaded =>
      exact ⟨rfl, rfl, hrest.symm, fun text ht => absurd ht (htext text), fun _ => Or.inl rfl⟩
    | written us hus hne =>
      have hus' := MemToCollect.nexts_settled (r := row.load) rfl us
      rw [settled_of_subset hempty hus.subset] at hus'
      have hnone : (row.load.nexts us).status = .empty := congrArg Prod.fst hus'
      have htaken : (row.load.nexts us).status ≠ .allCollected := by
        rw [hnone]
        exact Status.noConfusion
      refine ⟨rfl, rfl, ?_, fun text ht => absurd ht (htext text), fun _ => Or.inr ⟨?_, ?_⟩⟩
      · rw [hrest]
        exact congrArg Prod.snd hus'
      · rintro rfl
        exact hne (List.prefix_nil.mp hus)
      · exact congrArg some (if_neg htaken)
  · obtain ⟨he, ht⟩ := hcarries hempty
    have huser : row'.userId = row.userId := by
      cases h <;> rfl
    refine ⟨h.id_eq, huser, ?_, fun text htext => ?_, fun h => absurd (hstatus.trans h) hempty⟩
    · rw [← henergy]
      show (getInt row'.toCollectEnergy).toUInt32.toNat = _
      rw [he, toUInt32_getInt]
    · rw [ht, hstatus, htext]

section Outcome

variable [Fintype ι]

/-- The requests of a run whose chunks have all been handled, up to their order. -/
theorem Handled.perm (hH : Handled m tr s cs) (h : ServerRun m db tr s)
    (hr : received tr = done tr) : cs.Perm (chunksOf tr) := by
  have hchunks := hH.chunks
  rw [h.atHand_eq_zero hr, add_zero] at hchunks
  exact Multiset.coe_eq_coe.mp hchunks

omit [DecidableEq ι] in
/-- Where the rows carry what was collected, each holds what its askers settle. -/
theorem Recorded.settles (hR : Recorded m db tr s cs) (hl : Loaded db m)
    (hcarries : ∀ id : RecordId, 1 ≤ (id : ℕ) → s.toCollect.Carries s.mem id) :
    ∃ g, s.toCollect.rows = db.toCollect.rows.map g
      ∧ ∀ row ∈ db.toCollect.rows, ∀ id : RecordId, row.id = ((id : ℕ) : ℤ) →
        Settles row (g row) (askers id (requestsOf cs)) := by
  obtain ⟨g, hrows, hg⟩ := hR.toCollect
  refine ⟨g, hrows, fun row hrow id hid => ?_⟩
  have hw := hg row hrow id hid
  refine hw.settles fun hs => ?_
  have hpos : 1 ≤ (id : ℕ) := by
    have := db.toCollect.id_pos row hrow
    omega
  obtain ⟨row₁, hrow₁, he, ht⟩ := hcarries id hpos _ (hR.slot hl hrow hid) hs
  have hmem : g row ∈ s.toCollect.rows := by
    rw [hrows]
    exact List.mem_map_of_mem hrow
  have hrow' := ToCollectTable.row?_eq_some.mpr ⟨hmem, hw.id_eq.trans hid⟩
  obtain rfl := Option.some.inj (hrow'.symm.trans hrow₁)
  exact ⟨he, ht⟩

/-- **What the server leaves in the table of the records.** In every run in which each
request is handled in time, once `REQ_TOTAL_CNT` requests are received and done and
the flushes have ended, every row holds what its owner, its energy and the users that
have asked for it settle, whatever the threads, their order and the flushes. -/
theorem outcome_of_timely (hload : loadInMem db = .ok m) (hall : db.AllIds)
    (h : TimelyRun m db tr s) (hreceived : received tr = reqTotalCnt)
    (hdone : done tr = reqTotalCnt) (hended : s.FlushesEnded) (id : RecordId)
    (hid : 1 ≤ (id : ℕ)) :
    ∃ row row', db.toCollect.row? id = some row ∧ s.toCollect.row? id = some row'
      ∧ Settles row row' (askers id (requestsOf (chunksOf tr))) := by
  have hl := loaded_of_loadInMem hload
  have hrun : ServerRun m db tr s := Run.of_only h
  obtain ⟨cs, hR⟩ := hrun.exists_recorded hl
  obtain ⟨row, hrow, hrowid⟩ := hall id hid
  obtain ⟨g, hrows, hg⟩ := hR.settles hl (h.carries hl hall hreceived hdone hended).1
  have hsettles := hg row hrow id hrowid
  have hmem : g row ∈ s.toCollect.rows := by
    rw [hrows]
    exact List.mem_map_of_mem hrow
  -- the order in which the chunks were handled does not matter to a fresh record
  have hperm : (askers id (requestsOf cs)).Perm (askers id (requestsOf (chunksOf tr))) :=
    askers_perm ((hR.handled.perm hrun (hreceived.trans hdone.symm)).filterMap _) id
  have hsame := settled_of_perm row.load.userId row.load.toCollectEnergy.toNat hperm
  refine ⟨row, g row, ToCollectTable.row?_eq_some.mpr ⟨hrow, hrowid⟩,
    ToCollectTable.row?_eq_some.mpr ⟨hmem, hsettles.id_eq.trans hrowid⟩, hsettles.id_eq,
    hsettles.userId, ?_, fun text ht => hsettles.status text ?_, fun hempty => ?_⟩
  · exact hsettles.energy.trans (congrArg Prod.snd hsame)
  · rw [← ht]
    exact congrArg (fun p : Status × ℕ => collectedText p.1) hsame
  · refine (hsettles.untaken ((congrArg Prod.fst hsame).trans hempty)).imp_right fun h => ?_
    refine ⟨fun hnil => h.1 ?_, h.2⟩
    rw [hnil] at hperm
    exact hperm.eq_nil

/-- What is read back of a row after the write-back of its record. -/
theorem load_writeBackRow {row : ToCollectRow} {id : RecordId} {us : List CString}
    (hid : row.id = ((id : ℕ) : ℤ)) (h : m.memToCollects id = some (row.load.nexts us)) :
    (writeBackRow m row).load.toCollectEnergy = (row.load.nexts us).toCollectEnergy := by
  rw [writeBackRow_of_some hid h]
  cases hmod : (row.load.nexts us).modified with
  | true => rfl
  | false =>
    rw [MemToCollect.nexts_of_not_modified (r := row.load) Status.noConfusion hmod]
    rfl

/-- The energy of a row is what is read of it. -/
theorem energy_eq_load (row : ToCollectRow) :
    row.energy = row.load.toCollectEnergy.toInt32.toInt := rfl

omit [DecidableEq ι] in
/-- Where the users of the chunks have rows, no energy strays. -/
theorem UsersHaveRows.noneStrays (husers : UsersHaveRows db tr)
    (hcs : ∀ c ∈ cs, c ∈ chunksOf tr) : db.NoneStrays m (requestsOf cs) := by
  have hrow : ∀ id u, u ∈ askers id (requestsOf cs) → db.HasRow u := by
    intro id u hu
    obtain ⟨q, hq, -, rfl⟩ := mem_askers.mp hu
    obtain ⟨c, hc, hcq⟩ := List.mem_filterMap.mp hq
    exact husers c q (mem_chunksOf.mp (hcs c hc)) hcq
  refine fun id r _ => ⟨fun u us hus _ _ => hrow id u ?_, fun ho _ => hrow id _ ho⟩
  rw [hus]
  exact List.mem_cons_self

omit [DecidableEq ι] in
/-- The records' table has the energy of a write-back of the image. -/
theorem Recorded.toCollect_energy (hR : Recorded m db tr s cs) (hl : Loaded db m)
    (hcarries : ∀ id : RecordId, 1 ≤ (id : ℕ) → s.toCollect.Carries s.mem id)
    {tc : ToCollectTable} (htc : tc.rows = db.toCollect.rows.map (writeBackRow s.mem)) :
    s.toCollect.energy = tc.energy := by
  obtain ⟨g, hrows, hg⟩ := hR.settles hl hcarries
  rw [ToCollectTable.energy, ToCollectTable.energy, hrows, htc, List.map_map, List.map_map]
  refine congrArg List.sum (List.map_congr_left fun row hrow => ?_)
  obtain ⟨id, hid⟩ : ∃ id : RecordId, row.id = ((id : ℕ) : ℤ) := by
    have hpos := db.toCollect.id_pos row hrow
    have hle := hl.id_le row hrow
    exact ⟨⟨row.id.toNat, by omega⟩, (Int.toNat_of_nonneg (by omega)).symm⟩
  have henergy : (row.load.nexts (askers id (requestsOf cs))).toCollectEnergy.toNat = _ :=
    congrArg Prod.snd (MemToCollect.nexts_settled (r := row.load) rfl _)
  show (g row).energy = (writeBackRow _ row).energy
  rw [energy_eq_load, energy_eq_load,
    UInt32.toNat_inj.mp ((hg row hrow id hid).energy.trans henergy.symm),
    load_writeBackRow hid (hR.slot hl hrow hid)]

omit [DecidableEq ι] in
/-- So has the table of the totals. -/
theorem Recorded.total_energy (hR : Recorded m db tr s cs) (hl : Loaded db m)
    (hcarries : ∀ u, s.total.Carries s.mem u) {tt : TotalTable}
    (htt : tt.rows = db.total.rows.map (writeBackTotal s.mem.memTotalEnergyMap)) :
    s.total.energy = tt.energy := by
  obtain ⟨g, hrows, hg⟩ := hR.total
  rw [TotalTable.energy, TotalTable.energy, hrows, htt, List.map_map, List.map_map]
  refine congrArg List.sum (List.map_congr_left fun row hrow => ?_)
  show (g row).energy = (writeBackTotal _ row).energy
  unfold writeBackTotal
  cases hname : row.name? with
  | none =>
    rw [(hg row).nameless hname]
    rfl
  | some u =>
    have hin : g row ∈ s.total.rows := by
      rw [hrows]
      exact List.mem_map_of_mem hrow
    have hval := hcarries u (g row) hin
      ((hg row).userId.trans (TotalRow.name?_eq_some.mp hname))
    have hkey : u ∈ s.mem.memTotalEnergyMap.keys := by
      rw [collectAll_of_handleChunks hR.handled.mem, keys_collectAll]
      exact Finset.mem_union_left _ (mem_keys_of_name? hl hrow hname)
    rw [Option.elim_some, if_pos hkey, TotalRow.energy, hval]
    rfl

/-- **Energy is conserved by the server.** In every run in which each request is handled
in time, with values that fit, names that are distinct and users that have rows, once
`REQ_TOTAL_CNT` requests are received and done and the flushes have ended, the two
tables hold as much energy together as they did before loading. -/
theorem energy_conserved_of_timely (hload : loadInMem db = .ok m) (hall : db.AllIds)
    (hfit : db.Fits) (hnames : db.NamesDistinct) (h : TimelyRun m db tr s)
    (husers : UsersHaveRows db tr) (hreceived : received tr = reqTotalCnt)
    (hdone : done tr = reqTotalCnt) (hended : s.FlushesEnded) :
    s.toCollect.energy + s.total.energy = db.energy := by
  have hl := loaded_of_loadInMem hload
  have hrun : ServerRun m db tr s := Run.of_only h
  obtain ⟨cs, hR⟩ := hrun.exists_recorded hl
  obtain ⟨hrec, htot⟩ := h.carries hl hall hreceived hdone hended
  have hperm := hR.handled.perm hrun (hreceived.trans hdone.symm)
  have hmem := collectAll_of_handleChunks hR.handled.mem
  obtain ⟨order, horder⟩ := s.mem.memTotalEnergyMap.exists_enumerates
  -- the tables of the run have the energies of a write-back of its image
  obtain ⟨db', -, hrec', htot'⟩ := writeBack_eq db
    (fun id hid => hmem ▸ isSome_collectAll (hl.isSome_slot hall hid) _) horder
  have hsame₁ := hR.toCollect_energy hl hrec hrec'
  have hsame₂ := hR.total_energy hl htot htot'
  rw [hmem] at hrec' htot'
  have hbooks := energy_writeBack hload hfit (requestsOf cs) hrec' htot'
  rw [aliasGain_eq_zero hnames, (strayed_eq_zero_iff db m _).mpr
    (husers.noneStrays fun c hc => hperm.subset hc)] at hbooks
  rw [hsame₁, hsame₂]
  show db'.energy = _
  omega

end Outcome

/-! ## Such a run -/

/-- There is a run in which nothing is handled too late and everything comes to its
end: one connection has its request handled when the other has served the rest, and
then the flushes run. -/
theorem exists_timelyRun_annsDb :
    ∃ m tr, ∃ s : Server (Fin 2), loadInMem annsDb = .ok m ∧ TimelyRun m annsDb tr s
      ∧ UsersHaveRows annsDb tr ∧ (∀ c, .received c ∈ tr → ∃ call : Call, call.chunk = c)
      ∧ received tr = reqTotalCnt ∧ done tr = reqTotalCnt ∧ s.FlushesEnded := by
  obtain ⟨m, hm⟩ := exists_loadInMem_annsDb
  obtain ⟨tr, s, h⟩ := Ahead.exists_ahead (loaded_of_loadInMem hm) (Nat.sub_le reqTotalCnt 1)
  obtain ⟨tr₁, s₁, hrun₁, hret, hscans, hr₁, -, hf₁⟩ :=
    exists_run_handled (limitsHandling_timely 1) h.atHandle ((raceCalls 0).handleRequest_eq s.mem)
      (timely_of_handle h.atHandle (h.takesInTime (by decide)))
  obtain ⟨hs₁, hs₂⟩ := hscans (by decide)
  rw [h.scans.1] at hs₁
  rw [h.scans.2] at hs₂
  have hsome : ∀ id : RecordId, 1 ≤ (id : ℕ) → (s₁.mem.memToCollects id).isSome = true := by
    intro id hid
    rw [hret.mem]
    exact isSome_collectAll (h.isSome id hid) [(raceCalls 0).request]
  obtain ⟨s₂, hrun₂, -, -, -, he₁, he₂⟩ := exists_run_flushes hs₁ hs₂ hsome
  have hrun := (h.run.append hrun₁).append hrun₂
  rw [List.append_nil] at hrun
  refine ⟨m, _, s₂, hm, hrun, h.usersHaveRows hr₁,
    fun c hc => (h.exists_call hr₁ hc).imp fun _ hcall => hcall.1, ?_, ?_,
    ⟨by simp [he₁], by simp [he₂]⟩⟩
  · rw [received_append, h.received_eq, received, hr₁]
    rfl
  · rw [done_append, h.done_eq, hf₁]
    rfl

end GreenFinal
