import GreenFinal.Lifecycle
import GreenFinal.WriteBack

/-!
# A record read field by field

`executeUpdateToCollect` takes no mutex. Of every record it reads `modified_`, then
`status_`, then `to_collect_energy_`, one after another, while a call that holds the
mutex writes the energy first and the status after it. What it puts into the UPDATE
of a record ought to be an energy and a status that the record has had together, at
some moment when nobody held it and something had been taken from it
(`Shared.Committed`).

That can fail in three ways: the status may be read before a collection and the
energy after it; the energy may be read while the status that belongs to it is still
to be written, or the lock still held; and a record that is merely marked is written
back with the text of one that was shared. `untorn` is the condition that none of
these happens, on the state in which the energy is read. It is exact
(`Reading.committed_iff`): an energy and a text are those of an earlier moment if and
only if the record still has the status that was read and nobody is writing to it.
-/

open CLib Interleave

namespace GreenFinal

/-! ## What a step does to a record -/

/-- The energy is written and the lock not yet given back. -/
def Pc.written : Pc → Bool
  | .close | .unlock .collected => true
  | _ => false

variable {ι : Type*} {call : ι → Call} {m : Mem} {s s' : Shared ι} {i : ι}
  {es : List (Event ι)} {id : RecordId}

/-- The holder of a record's mutex has written the energy and not yet left. -/
def Shared.midWrite (s : Shared ι) (id : RecordId) : Bool :=
  (s.mutex id).any fun i => (s.pc i).written

theorem Shared.midWrite_of_free (h : s.mutex id = none) : s.midWrite id = false := by
  rw [midWrite, h]
  rfl

theorem Shared.midWrite_of_held (h : s.mutex id = some i) :
    s.midWrite id = (s.pc i).written := by
  rw [midWrite, h]
  rfl

variable [DecidableEq ι]

/-- A call that moves on between two places on the same side of its writes. -/
theorem Shared.midWrite_goto {pc : Pc} (h : pc.written = (s.pc i).written) :
    (s.goto i pc).midWrite id = s.midWrite id := by
  show (s.mutex id).any (fun j => (Function.update s.pc i pc j).written) = _
  have hsame : ∀ j, (Function.update s.pc i pc j).written = (s.pc j).written := by
    intro j
    by_cases hj : j = i
    · rw [hj, Function.update_self, h]
    · rw [Function.update_of_ne hj]
  simp only [hsame]
  rfl

/-- A step leaves the writes to the other records alone. -/
theorem Locked.midWrite_of_ne (hL : Locked call s) (h : StepOf call i s s' es)
    (hid : id ≠ (call i).request.id) : s'.midWrite id = s.midWrite id := by
  have hmutex := h.mutex_of_ne hid
  cases hm : s.mutex id with
  | none => rw [Shared.midWrite_of_free hm, Shared.midWrite_of_free (hmutex.trans hm)]
  | some j =>
    have hj : j ≠ i := by
      rintro rfl
      exact hid ((hL.mutex_iff _ _).mp hm).2.symm
    rw [Shared.midWrite_of_held hm, Shared.midWrite_of_held (hmutex.trans hm), h.pc_of_ne hj]

/-- **What a step does to a record**: nothing but perhaps a mark, outside the writes of
its holder; or it gives the record back as it is; or it is one of the two writes, and
the energy comes first. -/
theorem Locked.record_step (hL : Locked call s) (h : StepOf call i s s' es)
    (id : RecordId) :
    (s'.midWrite id = s.midWrite id
        ∧ (s'.slot id = s.slot id ∨ s'.slot id = (s.slot id).map MemToCollect.mark))
      ∨ (s'.slot id = s.slot id ∧ s'.mutex id = none)
      ∨ (s'.midWrite id = true ∧ (s.midWrite id = true
        ∨ ∃ r u, s.slot id = some r ∧ r.rejects u = false
          ∧ s'.slot id = some (r.debit u (r.amount u)))) := by
  have hL' := hL.step h
  by_cases hid : id = (call i).request.id
  · subst hid
    have hk := hL.knows i
    cases h with
    | returns hpc | checks hpc | rejects hpc | accepts hpc | credits hpc =>
      exact Or.inl ⟨Shared.midWrite_goto (by show _ = (s.pc i).written; rw [hpc]; rfl),
        Or.inl rfl⟩
    | marks hpc r hr =>
      refine Or.inl ⟨Shared.midWrite_goto (by show _ = (s.pc i).written; rw [hpc]; rfl),
        Or.inr ?_⟩
      rw [hr]
      exact Shared.slot_setRecord_goto ..
    | locks hpc hfree =>
      refine Or.inl ⟨?_, Or.inl rfl⟩
      rw [Shared.midWrite_of_free hfree, Shared.midWrite_of_held
        (hL'.mutex_of_inside (by rw [Shared.pc_goto_self]; rfl)), Shared.pc_goto_self]
      rfl
    | unlocks e hpc => exact Or.inr (Or.inl ⟨rfl, Function.update_self ..⟩)
    | debits n hpc r hr =>
      rw [hpc] at hk
      obtain ⟨r', hr', -, hacc, rfl⟩ := hk
      obtain rfl : r = r' := Option.some.inj (hr.symm.trans hr')
      refine Or.inr (Or.inr ⟨?_, Or.inr ⟨r, (call i).request.userId, hr, hacc,
        Shared.slot_setRecord_goto ..⟩⟩)
      rw [Shared.midWrite_of_held (hL'.mutex_of_inside (by rw [Shared.pc_goto_self]; rfl)),
        Shared.pc_goto_self]
      rfl
    | closes hpc r hr =>
      refine Or.inr (Or.inr ⟨?_, Or.inl ?_⟩)
      · rw [Shared.midWrite_of_held (hL'.mutex_of_inside (by rw [Shared.pc_goto_self]; rfl)),
          Shared.pc_goto_self]
        rfl
      · rw [Shared.midWrite_of_held (hL.mutex_of_inside (by rw [hpc]; rfl)), hpc]
        rfl
  · exact Or.inl ⟨hL.midWrite_of_ne h hid, Or.inl (h.slot_of_ne hid)⟩

/-- The record is as it was, or it has lost energy since. -/
def Shared.Since (s : Shared ι) (id : RecordId) (r₀ : MemToCollect) : Prop :=
  ∃ r, s.slot id = some r
    ∧ ((r.toCollectEnergy = r₀.toCollectEnergy ∧ r.status = r₀.status
        ∧ s.midWrite id = false)
      ∨ r.toCollectEnergy < r₀.toCollectEnergy)

/-- **A record that has been taken from stays as it is until its owner empties it**, and
then it has lost energy. -/
theorem Shared.Since.step {r₀ : MemToCollect} (h : s.Since id r₀) (hL : Locked call s)
    (hne : r₀.status ≠ .empty) (hpos : r₀.status ≠ .allCollected → 0 < r₀.toCollectEnergy)
    (hs : StepOf call i s s' es) : s'.Since id r₀ := by
  obtain ⟨r, hr, ⟨he, hst, hmid⟩ | hlt⟩ := h
  · rcases hL.record_step hs id with ⟨hmw, hslot⟩ | ⟨hslot, hfree⟩ | ⟨-, hmw | hdebit⟩
    · rcases hslot with hslot | hslot
      · exact ⟨r, hslot.trans hr, Or.inl ⟨he, hst, hmw.trans hmid⟩⟩
      · rw [hr] at hslot
        exact ⟨r.mark, hslot, Or.inl ⟨he, hst, hmw.trans hmid⟩⟩
    · exact ⟨r, hslot.trans hr, Or.inl ⟨he, hst, midWrite_of_free hfree⟩⟩
    · rw [hmid] at hmw
      cases hmw
    · obtain ⟨r₁, u, hr₁, hacc, hslot⟩ := hdebit
      obtain rfl : r = r₁ := Option.some.inj (hr.symm.trans hr₁)
      obtain ⟨ha, ho⟩ := MemToCollect.rejects_eq_false_iff.mp hacc
      have howner : r.userId = u := ho.resolve_right fun h => hne (hst ▸ h.1)
      refine ⟨_, hslot, Or.inr ?_⟩
      show (if r.userId = u then 0 else _) < _
      rw [if_pos howner]
      exact hpos (hst ▸ ha)
  · obtain ⟨r', hr', -⟩ := (hL.slotEvolves hs id).exists_right hr
    have hsum := hL.slotEnergy_step hs id
    rw [Mem.slotEnergy_of_some hr, Mem.slotEnergy_of_some hr'] at hsum
    refine ⟨r', hr', Or.inr (UInt32.lt_iff_toNat_lt.mpr ?_)⟩
    have := UInt32.lt_iff_toNat_lt.mp hlt
    omega

/-! ## The flush between the calls -/

/-- Where the flush of the records is in its loop. -/
inductive ReadPc where
  /-- At the read of `modified_` of the first of the records left. -/
  | modified (ids : List RecordId)
  /-- At the read of `status_`. -/
  | status (id : RecordId) (ids : List RecordId)
  /-- At the read of `to_collect_energy_`, with `new_status` chosen. -/
  | energy (id : RecordId) (newStatus : List UInt8) (ids : List RecordId)

/-- **One read of the flush**, and the UPDATE issued on the last of a record; a null
pointer stops it. -/
def flushStep (m : Mem) : ReadPc → Option (ReadPc × List ToCollectUpdate)
  | .modified [] => none
  | .modified (id :: ids) =>
    (m.memToCollects id).map fun r => (if r.modified then .status id ids else .modified ids, [])
  | .status id ids => (m.memToCollects id).map fun r => (.energy id r.newStatus ids, [])
  | .energy id newStatus ids =>
    (m.memToCollects id).map fun r =>
      (.modified ids, [⟨r.toCollectEnergy.toInt32, newStatus, (id : ℕ)⟩])

/-- The calls, and the flush beside them. -/
structure Reading (ι : Type*) where
  /-- What the calls share, and where each of them is. -/
  shared : Shared ι
  /-- Where the flush is. -/
  pc : ReadPc

/-- Who steps. -/
inductive ReadAction (ι : Type*) where
  | call (i : ι)
  | flush

/-- **One atomic step of the calls and the flush**, with the UPDATE it issues. -/
def readStep (call : ι → Call) :
    ReadAction ι → Reading ι → Option (Reading ι × List ToCollectUpdate)
  | .call i, s => (microStep call i s.shared).map fun p => ({ s with shared := p.1 }, [])
  | .flush, s => (flushStep s.shared.mem s.pc).map fun p => ({ s with pc := p.1 }, p.2)

/-- Nothing has started. -/
def Reading.start (m : Mem) : Reading ι := ⟨.start m, .modified scanIds⟩

theorem readStep_modified {ids : List RecordId} {r : MemToCollect} (hr : s.slot id = some r) :
    readStep call .flush ⟨s, .modified (id :: ids)⟩
      = some (⟨s, if r.modified then .status id ids else .modified ids⟩, []) := by
  simp only [readStep, flushStep, hr, Option.map_some]

theorem readStep_status {ids : List RecordId} {r : MemToCollect} (hr : s.slot id = some r) :
    readStep call .flush ⟨s, .status id ids⟩
      = some (⟨s, .energy id r.newStatus ids⟩, []) := by
  simp only [readStep, flushStep, hr, Option.map_some]

theorem readStep_energy {newStatus : List UInt8} {ids : List RecordId} {r : MemToCollect}
    (hr : s.slot id = some r) :
    readStep call .flush ⟨s, .energy id newStatus ids⟩
      = some (⟨s, .modified ids⟩, [⟨r.toCollectEnergy.toInt32, newStatus, (id : ℕ)⟩]) := by
  simp only [readStep, flushStep, hr, Option.map_some]

/-- The calls do not notice the flush. -/
theorem Reading.project {s₀ s : Reading ι} {tr : List ToCollectUpdate}
    (h : Run (readStep call) s₀ tr s) :
    ∃ tr', Run (microStep call) s₀.shared tr' s.shared := by
  refine Run.project Reading.shared (fun a s s' es hs => ?_) h
  cases a with
  | flush =>
    obtain ⟨p, -, heq⟩ := Option.map_eq_some_iff.mp hs
    obtain ⟨rfl, -⟩ := Prod.mk.inj heq
    exact Or.inl rfl
  | call i =>
    obtain ⟨⟨s₁, es₁⟩, hstep, heq⟩ := Option.map_eq_some_iff.mp hs
    obtain ⟨rfl, -⟩ := Prod.mk.inj heq
    exact Or.inr ⟨i, es₁, hstep⟩

theorem Reading.callRun {tr : List ToCollectUpdate} {t : Reading ι}
    (h : Run (readStep call) (Reading.start m) tr t) :
    ∃ tr', CallRun call m tr' t.shared := Reading.project h

/-! ## What may be written -/

/-- **A moment at which an UPDATE is right**: its energy and its status are those of a
record that nobody holds and from which something has been taken. -/
def Shared.Committed (s : Shared ι) (q : ToCollectUpdate) : Prop :=
  ∃ id r, s.slot id = some r ∧ s.mutex id = none ∧ r.status ≠ .empty ∧ q = r.update id

/-- **The energy belongs to the status that was read**: something has been taken from
the record, nobody is between the writes and the unlock, and the text of the status is
still the one chosen. -/
def untorn : ReadAction ι → Reading ι → Bool
  | .flush, ⟨s, .energy id newStatus _⟩ =>
    (s.slot id).elim true fun r =>
      r.status ≠ .empty && !s.midWrite id && r.newStatus = newStatus
  | _, _ => true

/-- **Left alone, the reads issue what `executeUpdateToCollect` issues** for the records that
come first; and none of them is torn, if from those that are marked something has been taken
and nobody is writing to them. -/
theorem readStep_alone {ids rest : List RecordId} {us : List ToCollectUpdate}
    (h : flushRecords s.mem ids = .ok us)
    (hsettled : ∀ id ∈ ids, ∀ r, s.slot id = some r → r.modified = true →
      r.status ≠ .empty ∧ s.midWrite id = false) :
    Run (only untorn (readStep call)) ⟨s, .modified (ids ++ rest)⟩ us ⟨s, .modified rest⟩ := by
  induction ids generalizing us with
  | nil =>
    obtain rfl := Except.ok.inj h
    exact .init
  | cons id ids ih =>
    rw [flushRecords, flushRecord] at h
    cases hr : s.mem.memToCollects id with
    | none =>
      rw [hr] at h
      cases h
    | some r =>
      rw [hr] at h
      dsimp only at h
      cases hrest : flushRecords s.mem ids with
      | error e =>
        rw [hrest] at h
        cases h
      | ok us' =>
        rw [hrest] at h
        obtain rfl := Except.ok.inj h
        have hlater := ih hrest fun id' hid' => hsettled id' (List.mem_cons_of_mem id hid')
        have hmod : only untorn (readStep call) .flush ⟨s, .modified (id :: (ids ++ rest))⟩
            = some (⟨s, if r.modified then .status id (ids ++ rest) else .modified (ids ++ rest)⟩,
              []) := only_eq_some.mpr ⟨rfl, readStep_modified hr⟩
        cases hm : r.modified with
        | false =>
          rw [hm] at hmod
          exact (Run.single hmod).append hlater
        | true =>
          obtain ⟨hstatus, hmid⟩ := hsettled id List.mem_cons_self r hr hm
          have huntorn : untorn (.flush : ReadAction ι)
              ⟨s, .energy id r.newStatus (ids ++ rest)⟩ = true := by
            show (s.slot id).elim true _ = true
            rw [show s.slot id = some r from hr]
            simp [hstatus, hmid]
          rw [hm] at hmod
          exact (((Run.single hmod).next
            (only_eq_some.mpr ⟨rfl, readStep_status hr⟩)).next
            (only_eq_some.mpr ⟨huntorn, readStep_energy hr⟩)).append hlater

variable {db : Database} {vs : List (Reading ι)} {tr : List ToCollectUpdate} {t t' : Reading ι}

/-- An UPDATE is issued on the last read of a record. -/
theorem exists_of_mem_events {a : ReadAction ι} {us : List ToCollectUpdate}
    {q : ToCollectUpdate} (h : readStep call a t = some (t', us)) (hq : q ∈ us) :
    a = .flush ∧ ∃ id newStatus ids r, t.pc = .energy id newStatus ids
      ∧ t.shared.slot id = some r ∧ q = ⟨r.toCollectEnergy.toInt32, newStatus, (id : ℕ)⟩ := by
  cases a with
  | call i =>
    obtain ⟨p, -, heq⟩ := Option.map_eq_some_iff.mp h
    rw [← (Prod.mk.inj heq).2] at hq
    exact absurd hq List.not_mem_nil
  | flush =>
    obtain ⟨p, hp, heq⟩ := Option.map_eq_some_iff.mp h
    rw [← (Prod.mk.inj heq).2] at hq
    refine ⟨rfl, ?_⟩
    cases hpc : t.pc with
    | modified ids =>
      rw [hpc] at hp
      cases ids with
      | nil => cases hp
      | cons id ids =>
        obtain ⟨r, -, rfl⟩ := Option.map_eq_some_iff.mp hp
        exact absurd hq List.not_mem_nil
    | status id ids =>
      rw [hpc] at hp
      obtain ⟨r, -, rfl⟩ := Option.map_eq_some_iff.mp hp
      exact absurd hq List.not_mem_nil
    | energy id newStatus ids =>
      rw [hpc] at hp
      obtain ⟨r, hr, rfl⟩ := Option.map_eq_some_iff.mp hp
      exact ⟨id, newStatus, ids, r, rfl, hr, List.mem_singleton.mp hq⟩

/-- **What is settled has been committed**: the unlock that ended the writes was such a
moment. -/
theorem Reading.exists_committed (hload : loadInMem db = .ok m)
    (h : Path (readStep call) (Reading.start m) vs tr t) :
    ∀ id r, t.shared.slot id = some r → r.status ≠ .empty → t.shared.midWrite id = false →
      ∃ v ∈ vs, v.shared.Committed (r.update id) := by
  refine Path.invariant (I := fun vs _ t => ∀ id r, t.shared.slot id = some r →
    r.status ≠ .empty → t.shared.midWrite id = false →
      ∃ v ∈ vs, v.shared.Committed (r.update id)) ?_ ?_ h
  · exact fun id r hr hs => absurd ((loaded_of_loadInMem hload).fresh hr).1 hs
  · intro vs tr t a t' es hpath ih hstep id r hr hs hmid
    have hkeep : (∃ v ∈ vs, v.shared.Committed (r.update id)) →
        ∃ v ∈ vs ++ [t'], v.shared.Committed (r.update id) :=
      fun ⟨v, hv, hc⟩ => ⟨v, List.mem_append_left _ hv, hc⟩
    cases a with
    | flush =>
      obtain ⟨p, -, heq⟩ := Option.map_eq_some_iff.mp hstep
      obtain ⟨rfl, -⟩ := Prod.mk.inj heq
      exact hkeep (ih id r hr hs hmid)
    | call i =>
      obtain ⟨⟨s', es'⟩, hmicro, heq⟩ := Option.map_eq_some_iff.mp hstep
      obtain ⟨rfl, -⟩ := Prod.mk.inj heq
      obtain ⟨tr', hrun⟩ := Reading.callRun hpath.run
      rcases hrun.locked.record_step (stepOf_of_microStep hmicro) id with
        ⟨hmw, hslot | hslot⟩ | ⟨-, hfree⟩ | ⟨hmw, -⟩
      · exact hkeep (ih id r (hslot.symm.trans hr) hs (hmw.symm.trans hmid))
      · obtain ⟨r', hr', rfl⟩ := Option.map_eq_some_iff.mp (hslot.symm.trans hr)
        exact hkeep (ih id r' hr' hs (hmw.symm.trans hmid))
      · exact ⟨_, List.mem_append_right _ (List.mem_singleton_self _), id, r, hr, hfree, hs, rfl⟩
      · exact absurd (hmw.symm.trans hmid) Bool.noConfusion

/-- **A committed record is as it was, or has lost energy since.** -/
theorem Reading.since_of_committed (hload : loadInMem db = .ok m) {v : Reading ι}
    {tr₁ tr₂ : List ToCollectUpdate} (hv : Run (readStep call) (Reading.start m) tr₁ v)
    (ht : Run (readStep call) v tr₂ t) {r₀ : MemToCollect} (hr₀ : v.shared.slot id = some r₀)
    (hfree : v.shared.mutex id = none) (hne : r₀.status ≠ .empty) :
    t.shared.Since id r₀ := by
  obtain ⟨tr₁', hcall⟩ := Reading.callRun hv
  obtain ⟨tr₂', ht'⟩ := Reading.project ht
  obtain ⟨r₁, hr₁, -⟩ := (hcall.slotEvolves id).exists_left hr₀
  have hstage := hcall.stage hr₁ ((loaded_of_loadInMem hload).fresh hr₁).1 hr₀ hfree
  have hpos : r₀.status ≠ .allCollected → 0 < r₀.toCollectEnergy := by
    intro ha
    cases hs : r₀.status with
    | empty => exact absurd hs hne
    | allCollected => exact absurd hs ha
    | collectedByOther =>
      rw [hs] at hstage
      obtain ⟨he, hrest, -⟩ := hstage
      refine UInt32.lt_iff_toNat_lt.mpr ?_
      show 0 < r₀.toCollectEnergy.toNat
      omega
  exact (Run.invariant (I := fun _ s => Locked call s ∧ s.Since id r₀)
    ⟨hcall.locked, r₀, hr₀, Or.inl ⟨rfl, rfl, Shared.midWrite_of_free hfree⟩⟩
    (fun _ _ _ _ _ _ ⟨hL, hI⟩ hs =>
      ⟨hL.step (stepOf_of_microStep hs), hI.step hL hne hpos (stepOf_of_microStep hs)⟩) ht').2

/-- **When an UPDATE is right**: it has been committed before if and only if the energy,
as it is read, belongs to the status that was read. -/
theorem Reading.committed_iff (hload : loadInMem db = .ok m)
    (h : Path (readStep call) (Reading.start m) vs tr t) {a : ReadAction ι}
    {us : List ToCollectUpdate} {q : ToCollectUpdate}
    (hstep : readStep call a t = some (t', us)) (hq : q ∈ us) :
    (∃ v ∈ vs, v.shared.Committed q) ↔ untorn a t = true := by
  obtain ⟨rfl, id, newStatus, ids, r, hpc, hr, rfl⟩ := exists_of_mem_events hstep hq
  obtain ⟨s, pc⟩ := t
  obtain rfl : pc = .energy id newStatus ids := hpc
  change s.slot id = some r at hr
  have huntorn : untorn .flush ⟨s, .energy id newStatus ids⟩ = true
      ↔ r.status ≠ .empty ∧ s.midWrite id = false ∧ r.newStatus = newStatus := by
    show (s.slot id).elim true _ = true ↔ _
    rw [hr]
    simp [and_assoc]
  rw [huntorn]
  constructor
  · rintro ⟨v, hv, id', r₀, hr₀, hfree, hne, heq⟩
    obtain ⟨henergy, hstatus, hid⟩ := ToCollectUpdate.mk.inj heq
    obtain rfl : id = id' := Fin.ext (Int.ofNat.inj hid)
    obtain ⟨⟨tr₁, hfrom⟩, tr₂, hto⟩ := h.runs_of_mem hv
    obtain ⟨r', hr', hsince⟩ := Reading.since_of_committed hload hfrom hto hr₀ hfree hne
    obtain rfl : r = r' := Option.some.inj (hr.symm.trans hr')
    rcases hsince with ⟨-, hst, hmid⟩ | hlt
    · refine ⟨hst ▸ hne, hmid, ?_⟩
      rw [hstatus, MemToCollect.newStatus, MemToCollect.newStatus, hst]
    · have hsame : r.toCollectEnergy = r₀.toCollectEnergy := congrArg Int32.toUInt32 henergy
      rw [hsame] at hlt
      exact absurd hlt (UInt32.lt_irrefl _)
  · rintro ⟨hs, hmid, rfl⟩
    exact Reading.exists_committed hload h id r hr hs hmid

/-- **The flush writes committed records where none of its reads is torn.** Whatever the
calls and however they come between the reads: in a run whose reads are all untorn,
every UPDATE is of an energy and a status that the record had together at a moment of
the run when nobody held it and something had been taken from it; and in any run an
UPDATE is so exactly if its own last read is untorn. -/
theorem flush_committed (hload : loadInMem db = .ok m) (call : ι → Call) :
    (∀ vs tr t, Path (only untorn (readStep call)) (Reading.start m) vs tr t →
        ∀ q ∈ tr, ∃ v ∈ vs, v.shared.Committed q)
      ∧ ∀ vs tr t, Path (readStep call) (Reading.start m) vs tr t →
        ∀ a t' us, readStep call a t = some (t', us) →
          ∀ q ∈ us, (∃ v ∈ vs, v.shared.Committed q) ↔ untorn a t = true := by
  refine ⟨fun vs tr t h => ?_, fun vs tr t h a t' us hstep q hq =>
    Reading.committed_iff hload h hstep hq⟩
  refine Path.invariant (I := fun vs tr _ => ∀ q ∈ tr, ∃ v ∈ vs, v.shared.Committed q)
    (fun q hq => absurd hq List.not_mem_nil) ?_ h
  intro vs tr t a t' us hpath ih hstep q hq
  obtain ⟨huntorn, hstep'⟩ := only_eq_some.mp hstep
  have hbefore : ∃ v ∈ vs, v.shared.Committed q := by
    rcases List.mem_append.mp hq with hq | hq
    · exact ih q hq
    · exact (Reading.committed_iff hload hpath.of_only hstep' hq).mpr huntorn
  obtain ⟨v, hv, hc⟩ := hbefore
  exact ⟨v, List.mem_append_left _ hv, hc⟩

/-- While the calls run the flush may rest. -/
theorem Reading.of_calls {tr : List (Event ι)} (h : Run (microStep call) s tr s') (pc : ReadPc) :
    Run (only untorn (readStep call)) ⟨s, pc⟩ [] ⟨s', pc⟩ := by
  induction h with
  | init => exact .init
  | @next _ _ s₁ s₂ i _ hs ih =>
    have hstep : readStep call (.call i) ⟨s₁, pc⟩ = some (⟨s₂, pc⟩, []) := by
      simp only [readStep, hs, Option.map_some]
    exact ih.next (only_eq_some.mpr ⟨rfl, hstep⟩)

/-- The scan starts with record 1. -/
theorem exists_scanIds_eq : ∃ rest, scanIds = 1 :: rest := by
  have hfirst : ∀ n, 0 < n → ∃ (i : Fin n) (is : List (Fin n)), (i : ℕ) = 0
      ∧ List.finRange n = i :: is := by
    intro n hn
    cases n with
    | zero => exact absurd hn (Nat.lt_irrefl 0)
    | succ n => exact ⟨0, _, rfl, List.finRange_succ⟩
  obtain ⟨i, is, hi, heq⟩ := hfirst reqTotalCnt (by decide)
  refine ⟨is.map Fin.succ, ?_⟩
  rw [scanIds, heq, List.map_cons]
  refine congrArg (· :: _) (Fin.ext ?_)
  rw [Fin.val_succ, hi]
  rfl

/-- The owner has collected a record before the flush comes to it. -/
theorem flush_committed_owner :
    ∃ m vs t, loadInMem tenUnitsDb = .ok m
      ∧ Path (only untorn (readStep raceCalls)) (Reading.start m) vs
        [⟨0, ascii "all_collected", 1⟩] t
      ∧ ∃ v ∈ vs, v.shared.Committed ⟨0, ascii "all_collected", 1⟩ := by
  have hexec : (loadInMem tenUnitsDb).toOption.bind (fun m =>
      (Run.exec (microStep raceCalls) (List.replicate 8 0) (Shared.start m)).map fun p =>
        (p.1.slot 1, p.1.midWrite 1))
      = some (some ⟨ann, .allCollected, 0, true⟩, false) := by
    decide +kernel
  obtain ⟨m, hm, hexec⟩ := Option.bind_eq_some_iff.mp hexec
  obtain ⟨⟨s, tr⟩, hrun, hend⟩ := Option.map_eq_some_iff.mp hexec
  obtain ⟨hr, hmid⟩ := Prod.mk.inj hend
  have hload : loadInMem tenUnitsDb = .ok m := eq_ok_of_toOption hm
  obtain ⟨rest, hscan⟩ := exists_scanIds_eq
  have hrecords : flushRecords s.mem [1] = .ok [⟨0, ascii "all_collected", 1⟩] := by
    rw [flushRecords, flushRecord, show s.mem.memToCollects 1 = _ from hr]
    rfl
  have hpath : Run (only untorn (readStep raceCalls)) (Reading.start m)
      [⟨0, ascii "all_collected", 1⟩] ⟨s, .modified rest⟩ := by
    rw [Reading.start, hscan]
    refine (Reading.of_calls (Run.of_exec hrun) _).append (readStep_alone hrecords ?_)
    intro id hid r hr' _
    obtain rfl := List.mem_singleton.mp hid
    obtain rfl := Option.some.inj (hr.symm.trans hr')
    exact ⟨show Status.allCollected ≠ .empty by decide, hmid⟩
  obtain ⟨vs, hpath⟩ := Path.exists_of_run hpath
  exact ⟨m, vs, _, hload, hpath,
    (flush_committed hload raceCalls).1 vs _ _ hpath _ (List.mem_singleton_self _)⟩

/-- In the race for ten units no moment has a record that is shared and empty. -/
theorem not_committed_raceCalls (hload : loadInMem tenUnitsDb = .ok m)
    {tr : List ToCollectUpdate} {v : Reading (Fin 2)}
    (h : Run (readStep raceCalls) (Reading.start m) tr v) :
    ¬ v.shared.Committed ⟨0, ascii "collected_by_other", 1⟩ := by
  rintro ⟨id, r, hr, hfree, hne, heq⟩
  obtain ⟨henergy, hstatus, hid⟩ := ToCollectUpdate.mk.inj heq
  obtain rfl : 1 = id := Fin.ext (Int.ofNat.inj hid)
  have hr₀ : m.memToCollects 1 = some { userId := ann, toCollectEnergy := 10 } := by
    rw [(loaded_of_loadInMem hload).slot]
    rfl
  obtain ⟨tr', hcall⟩ := Reading.callRun h
  have hstage := hcall.stage hr₀ rfl hr hfree
  cases hs : r.status with
  | empty => exact hne hs
  | allCollected =>
    rw [MemToCollect.newStatus, if_pos hs] at hstatus
    exact absurd hstatus (by decide)
  | collectedByOther =>
    rw [hs] at hstage
    obtain ⟨-, hrest, -⟩ := hstage
    have hzero : 0 = r.toCollectEnergy := congrArg Int32.toUInt32 henergy
    rw [← hzero] at hrest
    exact absurd hrest (by decide)

/-- **A torn record is written.** Another user takes the share; the flush reads the status;
the owner takes the rest; the flush reads the energy. What it writes, nothing left of a
record that was shared, the record has been at no moment of any run. -/
theorem tornRecord_written :
    ∃ m vs t, loadInMem tenUnitsDb = .ok m
      ∧ Path (readStep raceCalls) (Reading.start m) vs
        [⟨0, ascii "collected_by_other", 1⟩] t
      ∧ (¬ ∃ v ∈ vs, v.shared.Committed ⟨0, ascii "collected_by_other", 1⟩)
      ∧ ∀ tr v, Run (readStep raceCalls) (Reading.start m) tr v →
        ¬ v.shared.Committed ⟨0, ascii "collected_by_other", 1⟩ := by
  have hexec : (loadInMem tenUnitsDb).toOption.bind (fun m =>
      (Run.exec (microStep raceCalls) (List.replicate 8 1) (Shared.start m)).bind fun p =>
        (Run.exec (microStep raceCalls) (List.replicate 8 0) p.1).map fun p' =>
          (p.1.slot 1, p'.1.slot 1))
      = some (some ⟨ann, .collectedByOther, 7, true⟩, some ⟨ann, .allCollected, 0, true⟩) := by
    decide +kernel
  obtain ⟨m, hm, hexec⟩ := Option.bind_eq_some_iff.mp hexec
  obtain ⟨⟨s₁, tr₁⟩, hrun₁, hexec⟩ := Option.bind_eq_some_iff.mp hexec
  obtain ⟨⟨s₂, tr₂⟩, hrun₂, hend⟩ := Option.map_eq_some_iff.mp hexec
  obtain ⟨hr₁, hr₂⟩ := Prod.mk.inj hend
  have hload : loadInMem tenUnitsDb = .ok m := eq_ok_of_toOption hm
  obtain ⟨rest, hscan⟩ := exists_scanIds_eq
  have hbefore := Reading.of_calls (Run.of_exec hrun₁) (.modified (1 :: rest))
  have hbetween := Reading.of_calls (Run.of_exec hrun₂)
    (.energy 1 (ascii "collected_by_other") rest)
  have hrun : Run (readStep raceCalls) (Reading.start m)
      [⟨0, ascii "collected_by_other", 1⟩] ⟨s₂, .modified rest⟩ := by
    rw [Reading.start, hscan]
    exact (((hbefore.of_only.next (readStep_modified hr₁)).next (readStep_status hr₁)).append
      hbetween.of_only).next (readStep_energy hr₂)
  obtain ⟨vs, hpath⟩ := Path.exists_of_run hrun
  refine ⟨m, vs, _, hload, hpath, fun ⟨v, hv, hc⟩ => ?_,
    fun tr v h => not_committed_raceCalls hload h⟩
  obtain ⟨⟨tr, hfrom⟩, -⟩ := hpath.runs_of_mem hv
  exact not_committed_raceCalls hload hfrom hc

end GreenFinal
