import GreenFinal.WriteBack

/-!
# Restarting

A restart writes the memory image back and loads it again. The energies come
back, and so do the owners; the statuses are written and not read, so every
record comes back as `EMPTY`. What can be told from outside is what a record
offers: to its owner everything it holds, unless it is `ALL_COLLECTED`; to
another user three tenths, if it is `EMPTY` and holds more than three units
(`SameOffer`). Records with the same offers make the same credits for ever,
and records with different ones can be told apart by one request.

An emptied record offers nothing before the restart and, holding nothing,
offers nothing after it. A record shared in by another user offers nothing to
other users before and may do so again after: exactly if more than three
units are left in it, which is to say if there were five or more to begin
with. `restart_iff` is that, over a whole state.
-/

open CLib

namespace GreenFinal

/-! ## What can be told from outside -/

/-- What a list of requests is credited, leaving out credits of nothing. -/
def amounts (qs : List Request) (m : Mem) : List Credit :=
  (credits qs m).filter fun c => c.amount ≠ 0

namespace MemToCollect

/-- What the owner would get. -/
def ownerOffer (r : MemToCollect) : UInt32 :=
  if r.status = .allCollected then 0 else r.toCollectEnergy

/-- Another user would get a share. -/
def Sharable (r : MemToCollect) : Prop := r.status = .empty ∧ 3 < r.toCollectEnergy

instance (r : MemToCollect) : Decidable r.Sharable :=
  inferInstanceAs (Decidable (_ ∧ _))

/-- **The same offers**: to the owner, and to other users. -/
structure SameOffer (r r' : MemToCollect) : Prop where
  userId : r.userId = r'.userId
  ownerOffer : r.ownerOffer = r'.ownerOffer
  sharable : r.Sharable ↔ r'.Sharable

/-- What a call is credited that is worth something. -/
def worth (r : MemToCollect) (u : CString) : Option UInt32 :=
  (r.credit? u).filter fun n => n ≠ 0

/-- The owner is credited the owner's offer. -/
theorem worth_owner (r : MemToCollect) :
    r.worth r.userId = (some r.ownerOffer).filter fun n => n ≠ 0 := by
  unfold worth ownerOffer
  by_cases ha : r.status = .allCollected
  · rw [credit?_of_rejects (rejects_of_allCollected ha _), if_pos ha]
    rfl
  · rw [(next_owner ha).2, if_neg ha]

/-- Another user is credited the share, where there is one. -/
theorem worth_other {r : MemToCollect} {u : CString} (hu : r.userId ≠ u) :
    r.worth u = if r.Sharable then some (toCollectEnergyCount r.toCollectEnergy).toUInt32
      else none := by
  unfold worth
  by_cases hs : r.Sharable
  · have hacc : r.rejects u = false :=
      rejects_eq_false_iff.mpr ⟨by rw [hs.1]; decide, Or.inr hs⟩
    have hamt : r.amount u = (toCollectEnergyCount r.toCollectEnergy).toUInt32 := if_neg hu
    have hne : r.amount u ≠ 0 := by
      intro h
      have hpos : 3 < r.toCollectEnergy.toNat := UInt32.lt_iff_toNat_lt.mp hs.2
      have h0 := toNat_amount_other hu
      rw [h, UInt32.toNat_zero] at h0
      omega
    rw [credit?_of_accepts hacc, if_pos hs, ← hamt]
    simp [hne]
  · have hrej : r.rejects u = true := rejects_of_other hu hs
    rw [credit?_of_rejects hrej, if_neg hs]
    rfl

/-- After the owner has asked there is nothing left to offer. -/
theorem offers_next_owner (r : MemToCollect) :
    (r.next r.userId).ownerOffer = 0 ∧ ¬ (r.next r.userId).Sharable := by
  by_cases ha : r.status = .allCollected
  · rw [next_of_allCollected ha]
    exact ⟨if_pos ha, fun h => absurd (ha.symm.trans h.1) (by decide)⟩
  · rw [(next_owner ha).1]
    exact ⟨rfl, fun h => absurd h.1 (show Status.allCollected ≠ .empty by decide)⟩

/-- After another user has asked, the share is gone if there was one, and nothing
else has changed. -/
theorem offers_next_other {r : MemToCollect} {u : CString} (hu : r.userId ≠ u) :
    ¬ (r.next u).Sharable
      ∧ (r.next u).ownerOffer = if r.Sharable
        then r.toCollectEnergy - (toCollectEnergyCount r.toCollectEnergy).toUInt32
        else r.ownerOffer := by
  by_cases hs : r.Sharable
  · obtain ⟨hstatus, -, -, -⟩ := next_other hu hs.1 hs.2
    have hacc : r.rejects u = false :=
      rejects_eq_false_iff.mpr ⟨by rw [hs.1]; decide, Or.inr hs⟩
    refine ⟨fun h => absurd (hstatus.symm.trans h.1) (by decide), ?_⟩
    rw [if_pos hs, ownerOffer, hstatus, if_neg (by decide), next_of_accepts hacc]
    show (if r.userId = u then (0 : UInt32) else _) = _
    rw [if_neg hu, amount, if_neg hu]
    rfl
  · have hrej : r.rejects u = true := rejects_of_other hu hs
    rw [if_neg hs]
    by_cases ha : r.status = .allCollected
    · rw [next_of_allCollected ha]
      exact ⟨hs, rfl⟩
    · rw [next_of_rejects ha hrej]
      exact ⟨hs, rfl⟩

namespace SameOffer

variable {r r' : MemToCollect}

/-- A record that can be shared in shows its energy to the owner. -/
theorem toCollectEnergy_eq (h : r.SameOffer r') (hs : r.Sharable) :
    r.toCollectEnergy = r'.toCollectEnergy := by
  have hs' := h.sharable.mp hs
  have ho := h.ownerOffer
  unfold MemToCollect.ownerOffer at ho
  rw [hs.1, hs'.1, if_neg (by decide), if_neg (by decide)] at ho
  exact ho

/-- The same offers are the same credits … -/
theorem worth_eq (h : r.SameOffer r') (u : CString) : r.worth u = r'.worth u := by
  by_cases hu : r.userId = u
  · subst hu
    rw [worth_owner, h.ownerOffer, h.userId, ← worth_owner r']
  · rw [worth_other hu, worth_other (h.userId ▸ hu)]
    by_cases hs : r.Sharable
    · rw [if_pos hs, if_pos (h.sharable.mp hs), h.toCollectEnergy_eq hs]
    · rw [if_neg hs, if_neg (fun hs' => hs (h.sharable.mpr hs'))]

/-- … and leave the same offers. -/
theorem next (h : r.SameOffer r') (u : CString) : (r.next u).SameOffer (r'.next u) := by
  refine ⟨by rw [userId_next, userId_next, h.userId], ?_, ?_⟩
  · by_cases hu : r.userId = u
    · subst hu
      rw [(offers_next_owner r).1, h.userId, (offers_next_owner r').1]
    · rw [(offers_next_other hu).2, (offers_next_other (h.userId ▸ hu)).2]
      by_cases hs : r.Sharable
      · rw [if_pos hs, if_pos (h.sharable.mp hs), h.toCollectEnergy_eq hs]
      · rw [if_neg hs, if_neg (fun hs' => hs (h.sharable.mpr hs')), h.ownerOffer]
  · by_cases hu : r.userId = u
    · subst hu
      refine iff_of_false (offers_next_owner r).2 ?_
      rw [h.userId]
      exact (offers_next_owner r').2
    · exact iff_of_false (offers_next_other hu).1 (offers_next_other (h.userId ▸ hu)).1

/-- The same for slots. -/
theorem bind_worth {a b : Option MemToCollect} (h : Option.Rel SameOffer a b)
    (u : CString) : (a.bind fun r => r.worth u) = b.bind fun r => r.worth u := by
  cases h with
  | none => rfl
  | some h => exact h.worth_eq u

@[inherit_doc bind_worth]
theorem map_next {a b : Option MemToCollect} (h : Option.Rel SameOffer a b)
    (u : CString) :
    Option.Rel SameOffer (a.map fun r => r.next u) (b.map fun r => r.next u) := by
  cases h with
  | none => exact .none
  | some h => exact .some (h.next u)

end SameOffer

end MemToCollect

/-- The same offers everywhere. -/
def SameOffers (m m' : Mem) : Prop :=
  ∀ id, Option.Rel MemToCollect.SameOffer (m.memToCollects id) (m'.memToCollects id)

/-- What a request is credited that is worth something. -/
theorem amounts_cons (q : Request) (qs : List Request) (m : Mem) :
    amounts (q :: qs) m
      = ((m.memToCollects q.id).bind fun r => r.worth q.userId).toList.map
          (fun n => ⟨q.id, q.userId, n⟩)
        ++ amounts qs (collectEnergy q m) := by
  rw [amounts, credits, List.filter_append, amounts, creditOf]
  refine congrArg (· ++ _) ?_
  cases m.memToCollects q.id with
  | none => rfl
  | some r =>
    rw [Option.bind_some, Option.bind_some, MemToCollect.worth]
    cases r.credit? q.userId with
    | none => rfl
    | some n => by_cases hn : n = 0 <;> simp [hn, Option.filter]

/-- **The same offers make the same credits**, whatever is asked for. -/
theorem SameOffers.amounts_eq {m m' : Mem} (h : SameOffers m m') (qs : List Request) :
    amounts qs m = amounts qs m' := by
  induction qs generalizing m m' with
  | nil => rfl
  | cons q qs ih =>
    have hnext : SameOffers (collectEnergy q m) (collectEnergy q m') := by
      intro id
      rw [memToCollects_collectEnergy, memToCollects_collectEnergy]
      by_cases hid : id = q.id
      · subst hid
        rw [Function.update_self, Function.update_self]
        exact MemToCollect.SameOffer.map_next (h q.id) q.userId
      · rw [Function.update_of_ne hid, Function.update_of_ne hid]
        exact h id
    rw [amounts_cons, amounts_cons, MemToCollect.SameOffer.bind_worth (h q.id), ih hnext]

/-! ## What a restart does to the offers -/

namespace MemToCollect

/-- The record a restart makes of a record. -/
def reload (r : MemToCollect) : MemToCollect :=
  { userId := r.userId, toCollectEnergy := r.toCollectEnergy }

/-- **A restart exposes a record** that another user has shared in and that is
still worth sharing in. -/
def Exposed (r : MemToCollect) : Prop :=
  r.status = .collectedByOther ∧ 3 < r.toCollectEnergy

/-- Whether a record is exposed, from its owner, its energy and who asked. -/
theorem exposed_nexts {r : MemToCollect} (hs : r.status = .empty) (us : List CString) :
    (r.nexts us).Exposed ↔ 5 ≤ r.toCollectEnergy ∧ us ≠ [] ∧ r.userId ∉ us := by
  obtain ⟨hstatus, hrest, -⟩ := nexts_settle hs us
  have hle : (5 : UInt32) ≤ r.toCollectEnergy ↔ 5 ≤ r.toCollectEnergy.toNat :=
    UInt32.le_iff_toNat_le
  have hlt : 3 < (r.nexts us).toCollectEnergy ↔ 3 < (r.nexts us).toCollectEnergy.toNat :=
    UInt32.lt_iff_toNat_lt
  have hother : 5 ≤ r.toCollectEnergy.toNat ∧ us ≠ [] ∧ r.userId ∉ us →
      (settle r.userId r.toCollectEnergy.toNat us).status = .collectedByOther := by
    rintro ⟨he, hne, ho⟩
    rw [settle_status_of_lt (by omega) hne, if_neg ho]
  unfold Exposed
  rw [hle, hlt, hstatus, hrest]
  rcases settle_cases r.userId r.toCollectEnergy.toNat us with
    ⟨hst, -⟩ | ⟨hst, he, hr, -⟩ | ⟨hst, -⟩
  · exact iff_of_false (fun h => absurd (hst.symm.trans h.1) (by decide))
      (fun h => absurd (hst.symm.trans (hother h)) (by decide))
  · have hne : us ≠ [] := by
      rintro rfl
      exact absurd hst (by simp [settle])
    have ho : r.userId ∉ us := by
      intro ho
      rw [settle_status_of_lt he hne, if_pos ho] at hst
      exact absurd hst (by decide)
    rw [hr, share]
    constructor
    · exact fun h => ⟨by omega, hne, ho⟩
    · exact fun h => ⟨hst, by omega⟩
  · exact iff_of_false (fun h => absurd (hst.symm.trans h.1) (by decide))
      (fun h => absurd (hst.symm.trans (hother h)) (by decide))

/-- A record that is not exposed makes the same offers after a restart. -/
theorem sameOffer_reload {r : MemToCollect} (hs : r.status = .empty) (us : List CString)
    (h : ¬ (r.nexts us).Exposed) : (r.nexts us).SameOffer (r.nexts us).reload := by
  obtain ⟨hstatus, hrest, -⟩ := nexts_settle hs us
  have hempty : (r.nexts us).status = .allCollected → (r.nexts us).toCollectEnergy = 0 := by
    intro ha
    rw [hstatus] at ha
    rcases settle_cases r.userId r.toCollectEnergy.toNat us with
      ⟨hst, -⟩ | ⟨hst, -⟩ | ⟨-, hr, -⟩
    · exact absurd (hst.symm.trans ha) (by decide)
    · exact absurd (hst.symm.trans ha) (by decide)
    · rw [hr] at hrest
      exact UInt32.toNat_inj.mp hrest
  refine ⟨rfl, ?_, ?_⟩
  · have hreload : (r.nexts us).reload.ownerOffer = (r.nexts us).toCollectEnergy :=
      if_neg (show Status.empty ≠ .allCollected by decide)
    rw [hreload, ownerOffer]
    by_cases ha : (r.nexts us).status = .allCollected
    · rw [if_pos ha, hempty ha]
    · rw [if_neg ha]
  · show (_ ∧ _) ↔ (Status.empty = .empty ∧ 3 < (r.nexts us).toCollectEnergy)
    cases hst : (r.nexts us).status with
    | empty => exact Iff.rfl
    | collectedByOther =>
      exact iff_of_false (fun h' => absurd h'.1 (by decide)) (fun h' => h ⟨hst, h'.2⟩)
    | allCollected =>
      refine iff_of_false (fun h' => absurd h'.1 (by decide)) (fun h' => ?_)
      rw [hempty hst] at h'
      exact absurd h'.2 (by decide)

end MemToCollect

/-- What has been loaded and written back can be loaded again. -/
theorem exists_loadInMem_of_writeBack {db db' : Database} {m m' : Mem} (hl : Loaded db m)
    (hrec : db'.toCollect.rows = db.toCollect.rows.map (writeBackRow m')) :
    ∃ m'', loadInMem db' = .ok m'' := by
  refine exists_loadInMem (fun row hrow => ?_)
  rw [hrec] at hrow
  obtain ⟨row', hrow', rfl⟩ := List.mem_map.mp hrow
  rw [id_writeBackRow]
  exact hl.id_le row' hrow'

/-- **The records after a restart**: the same owners and energies, all `EMPTY`. -/
theorem slot_restart {db db' : Database} {m m' : Mem} (hl : Loaded db m)
    (hl' : Loaded db' m') (qs : List Request)
    (hrec : db'.toCollect.rows = db.toCollect.rows.map (writeBackRow (collectAll m qs)))
    (id : RecordId) :
    m'.memToCollects id = ((collectAll m qs).memToCollects id).map MemToCollect.reload := by
  have hslot := memToCollects_collectAll m qs id
  rw [hl.slot] at hslot
  rw [hl'.slot, row?_writeBack hrec]
  cases hrow : db.toCollect.row? id with
  | none =>
    rw [hrow] at hslot
    rw [hslot]
    rfl
  | some row =>
    rw [hrow, Option.map_some, Option.map_some] at hslot
    have hid : row.id = ((id : ℕ) : ℤ) := by simpa using List.find?_some hrow
    rw [hslot, Option.map_some, Option.map_some, Option.map_some,
      writeBackRow_of_some hid hslot]
    refine congrArg some ?_
    have howner := MemToCollect.userId_nexts row.load (askers id qs)
    cases hmod : (row.load.nexts (askers id qs)).modified with
    | true =>
      rw [if_pos rfl, MemToCollect.reload, howner]
      rfl
    | false =>
      rw [if_neg Bool.false_ne_true,
        MemToCollect.nexts_of_not_modified (show Status.empty ≠ .allCollected by decide) hmod]
      rfl

/-- One of two users is not the owner, and can ask. -/
theorem exists_other (o : CString) {id : RecordId} (hid : 1 ≤ (id : ℕ)) :
    ∃ c : Call, c.request.id = id ∧ o ≠ c.request.userId := by
  by_cases ho : o = ann
  · refine ⟨HttpRequest.plainCall bob bob_length bob_clean id hid, rfl, ?_⟩
    rw [ho]
    show ann ≠ bob
    decide
  · exact ⟨HttpRequest.plainCall ann ann_length ann_clean id hid, rfl, ho⟩

/-- **An exposed record shows**: another user's request tells the states before and
after the restart apart. -/
theorem amounts_of_exposed {m m' : Mem} {q : Request} {r : MemToCollect}
    (hr : m.memToCollects q.id = some r) (hr' : m'.memToCollects q.id = some r.reload)
    (hu : r.userId ≠ q.userId) (he : r.Exposed) : amounts [q] m' ≠ amounts [q] m := by
  have hs : ¬ r.Sharable := fun h => absurd (he.1.symm.trans h.1) (by decide)
  have hs' : r.reload.Sharable := ⟨rfl, he.2⟩
  rw [amounts_cons, amounts_cons, hr, hr', Option.bind_some, Option.bind_some,
    MemToCollect.worth_other hu, MemToCollect.worth_other (r := r.reload) hu, if_neg hs,
    if_pos hs']
  exact List.cons_ne_nil _ _

/-- **When a restart is not noticed.** After a load, any sequence of calls, a
complete write-back and a reload, every later sequence of calls is credited the
same amounts as without the restart if and only if, for each record with five
units or more that somebody asked for, its owner asked too. -/
theorem restart_iff {db : Database} {m : Mem} (hload : loadInMem db = .ok m)
    (hall : db.AllIds) (cs : List Call) :
    ∃ m', handleRequests cs m = .ok m'
      ∧ ∀ order, m'.memTotalEnergyMap.Enumerates order →
        ∃ db' m'', writeBack m' order db = .ok db' ∧ loadInMem db' = .ok m''
          ∧ ((∀ later : List Call, amounts (later.map Call.request) m''
              = amounts (later.map Call.request) m')
            ↔ OwnersAskToo (5 ≤ ·) m (cs.map Call.request)) := by
  have hl := loaded_of_loadInMem hload
  refine ⟨_, handleRequests_eq cs m, fun order horder => ?_⟩
  obtain ⟨db', hdb', hrec, -⟩ := writeBack_eq db
    (fun id hid => isSome_collectAll (hl.isSome_slot hall hid) _) horder
  obtain ⟨m'', hm''⟩ := exists_loadInMem_of_writeBack hl hrec
  have hslot := slot_restart hl (loaded_of_loadInMem hm'') (cs.map Call.request) hrec
  refine ⟨db', m'', hdb', hm'', ?_, ?_⟩
  · intro h id r hr he hask
    have hnext : (collectAll m (cs.map Call.request)).memToCollects id
        = some (r.nexts (askers id (cs.map Call.request))) := by
      rw [memToCollects_collectAll, hr]
      rfl
    have hslot' := hslot id
    rw [hnext, Option.map_some] at hslot'
    by_contra hno
    -- another user asks for the exposed record once more: only the reloaded
    -- process shares it again
    obtain ⟨c, rfl, hc⟩ := exists_other r.userId (hl.one_le hr)
    refine amounts_of_exposed hnext hslot' ?_ ?_ (h [c])
    · rw [MemToCollect.userId_nexts]
      exact hc
    · exact (MemToCollect.exposed_nexts (hl.fresh hr).1 _).mpr
        ⟨he, askers_ne_nil.mpr hask, fun ho => hno (mem_askers.mp ho)⟩
  · intro h later
    -- record by record, the reloaded image makes the same offers
    refine (SameOffers.amounts_eq (fun id => ?_) _).symm
    rw [hslot, memToCollects_collectAll]
    cases hr : m.memToCollects id with
    | none => exact .none
    | some r =>
      refine .some (MemToCollect.sameOffer_reload (hl.fresh hr).1 _ (fun hexp => ?_))
      obtain ⟨he, hne, ho⟩ := (MemToCollect.exposed_nexts (hl.fresh hr).1 _).mp hexp
      exact ho (mem_askers.mpr (h id r hr he (askers_ne_nil.mp hne)))

/-- A database in which one user owns ten units in every record, with a row for that
user and one for another. -/
def twoUsersDb : Database := uniformDb ann 10
  ⟨[⟨1, some ann.bytes, some 5⟩, ⟨2, some bob.bytes, some 0⟩], by decide, by decide⟩

/-- If the owner has asked too, the restart is not noticed. -/
theorem restart_owner :
    ∃ m m' order db' m'', loadInMem twoUsersDb = .ok m
      ∧ handleRequests [raceCalls 1, raceCalls 0] m = .ok m'
      ∧ m'.memTotalEnergyMap.Enumerates order
      ∧ writeBack m' order twoUsersDb = .ok db' ∧ loadInMem db' = .ok m''
      ∧ ∀ later : List Call, amounts (later.map Call.request) m''
        = amounts (later.map Call.request) m' := by
  obtain ⟨m, hm⟩ : ∃ m, loadInMem twoUsersDb = .ok m := exists_loadInMem_uniformDb
  obtain ⟨m', hm', h⟩ := restart_iff hm allIds_uniformDb [raceCalls 1, raceCalls 0]
  obtain ⟨order, horder⟩ := m'.memTotalEnergyMap.exists_enumerates
  obtain ⟨db', m'', hdb', hm'', hiff⟩ := h order horder
  exact ⟨m, m', order, db', m'', hm, hm', horder, hdb', hm'',
    hiff.mpr (ownersAskToo_raceCalls hm _)⟩

/-- **The same user takes a second share after a restart.** Three of ten units have
gone to another user; written back and reloaded, the record is `EMPTY` with
seven, and the other user's next request is credited again, which it was not
before. -/
theorem twoUsersDb_second_share :
    ∃ m m' order db' m'', loadInMem twoUsersDb = .ok m ∧ twoUsersDb.AllIds
      ∧ twoUsersDb.HasRow bob ∧ handleRequests [raceCalls 1] m = .ok m'
      ∧ m'.memTotalEnergyMap.Enumerates order
      ∧ writeBack m' order twoUsersDb = .ok db' ∧ loadInMem db' = .ok m''
      ∧ amounts [(raceCalls 1).request] m' = []
      ∧ amounts [(raceCalls 1).request] m'' = [⟨1, bob, 2⟩] := by
  obtain ⟨m, hm⟩ : ∃ m, loadInMem twoUsersDb = .ok m := exists_loadInMem_uniformDb
  have hl := loaded_of_loadInMem hm
  have hm' := handleRequests_eq [raceCalls 1] m
  obtain ⟨order, horder⟩ :=
    (collectAll m ([raceCalls 1].map Call.request)).memTotalEnergyMap.exists_enumerates
  obtain ⟨db', hdb', hrec, -⟩ := writeBack_eq twoUsersDb
    (fun id hid => isSome_collectAll (hl.isSome_slot allIds_uniformDb hid) _) horder
  obtain ⟨m'', hm''⟩ := exists_loadInMem_of_writeBack hl hrec
  have hslot' := slot_restart hl (loaded_of_loadInMem hm'') _ hrec 1
  have hslot := memToCollects_collectAll m ([raceCalls 1].map Call.request) 1
  rw [slot_uniformDb hm (by decide)] at hslot
  rw [hslot] at hslot'
  refine ⟨m, _, order, db', m'', hm, allIds_uniformDb, by decide, hm', horder, hdb', hm'', ?_, ?_⟩
  · rw [amounts_cons]
    show ((collectAll m _).memToCollects 1 |>.bind _).toList.map _ ++ [] = []
    rw [hslot]
    decide
  · rw [amounts_cons]
    show (m''.memToCollects 1 |>.bind _).toList.map _ ++ [] = _
    rw [hslot']
    decide

end GreenFinal
