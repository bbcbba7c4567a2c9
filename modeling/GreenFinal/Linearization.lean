import GreenFinal.MicroStep
import GreenFinal.Settlement

/-!
# Double-checked locking is linearizable

However the steps of a family of calls interleave, the calls act as if each
happened at one instant. The instant is the check on which the call leaves,
for a call that takes nothing, and the credit of the user's total, for one
that does: there the total changes, and the record's change is decided, the
debit and the new status being still to be written. So the record as the
others may take it to be is the record with the writes its holder owes,
`Shared.view`, and a run is matched by the sequential execution of its calls
in the order of those instants (`Linearized`).

The flag `modified_` has no such instant. It is written before the lock, by
calls that then wait and by calls that are then rejected, and a call that
would have set it may find everything taken and not set it at all. While
calls are under way the match is therefore up to the flag; once all have
returned the flag is right as well, because it tells apart exactly the
records that somebody asked for in time (`Marked`).
-/

open CLib Interleave

namespace GreenFinal

namespace MemToCollect

variable {r r' : MemToCollect} {u : CString}

/-- A call does to a marked record what it does to the record. -/
theorem mark_next (r : MemToCollect) (u : CString) : (r.next u).mark = r.mark.next u := by
  unfold next
  by_cases ha : r.status = .allCollected
  · rw [if_pos ha, if_pos (show r.mark.status = .allCollected from ha)]
  · rw [if_neg ha, if_neg (show ¬ r.mark.status = .allCollected from ha), rejects_mark]
    cases r.rejects u <;> rfl

theorem mark_next_of_rejects (h : r.rejects u = true) : (r.next u).mark = r.mark := by
  by_cases ha : r.status = .allCollected
  · rw [next_of_allCollected ha]
  · rw [next_of_rejects ha h]
    rfl

theorem rejects_eq_of_mark_eq (h : r.mark = r'.mark) : r.rejects u = r'.rejects u := by
  show r.mark.rejects u = r'.mark.rejects u
  rw [h]

theorem amount_eq_of_mark_eq (h : r.mark = r'.mark) : r.amount u = r'.amount u := by
  show r.mark.amount u = r'.mark.amount u
  rw [h]

/-- The flag is all that the mark hides. -/
theorem eq_of_mark_eq (h : r.mark = r'.mark) (hm : r.modified = r'.modified) : r = r' := by
  have hu : r.mark.userId = r'.mark.userId := by rw [h]
  have hs : r.mark.status = r'.mark.status := by rw [h]
  have he : r.mark.toCollectEnergy = r'.mark.toCollectEnergy := by rw [h]
  cases r
  cases r'
  cases hu
  cases hs
  cases he
  cases hm
  rfl

end MemToCollect

/-! ## The sequential side -/

/-- One call on the memory image, with the ledger kept beside it. -/
def ledgerStep (b : Mem × List Credit) (q : Request) : Mem × List Credit :=
  (collectEnergy q b.1,
    b.2 ++ (creditOf q b.1).toList.map (fun n => ⟨q.id, q.userId, n⟩))

theorem foldl_ledgerStep (qs : List Request) (m : Mem) (cs : List Credit) :
    qs.foldl ledgerStep (m, cs) = (collectAll m qs, cs ++ credits qs m) := by
  induction qs generalizing m cs with
  | nil => rw [List.foldl_nil, collectAll_nil, credits, List.append_nil]
  | cons q qs ih =>
    rw [List.foldl_cons, ledgerStep, ih, collectAll_cons, credits, List.append_assoc]

/-! ## The concurrent side -/

namespace Pc

/-- The call has taken effect. -/
def effective : Pc → Bool
  | .check | .mark | .lock | .recheck | .credit => false
  | _ => true

/-- The writes a call owes its record. -/
def finish (u : CString) : Pc → MemToCollect → MemToCollect
  | .debit n, r => (r.debit u n).close u
  | .close, r => r.close u
  | _, r => r

theorem effective_of_ended {pc : Pc} (h : pc.ended = true) : pc.effective = true := by
  cases pc <;> first | rfl | cases h

theorem inside_of_ended {pc : Pc} (h : pc.ended = true) : pc.inside = false := by
  cases pc <;> first | rfl | cases h

theorem mark_finish_mark (u : CString) (pc : Pc) (r : MemToCollect) :
    (pc.finish u r.mark).mark = (pc.finish u r).mark := by
  cases pc <;> rfl

end Pc

/-- The credits of a trace. -/
def creditsOf {ι : Type*} (tr : List (Event ι)) : List Credit :=
  tr.filterMap fun e => match e with
    | .credit _ k => some k
    | .debit .. => none

theorem creditsOf_append {ι : Type*} (tr es : List (Event ι)) :
    creditsOf (tr ++ es) = creditsOf tr ++ creditsOf es := List.filterMap_append

variable {ι : Type*} [DecidableEq ι] {call : ι → Call} {m : Mem} {tr es : List (Event ι)}
  {s s' : Shared ι} {i : ι} {order : List ι} {b : Mem × List Credit}

/-- **A record as the others may take it to be**: with the writes done that the
holder of its mutex owes. -/
def Shared.view (call : ι → Call) (s : Shared ι) (id : RecordId) : Option MemToCollect :=
  (s.slot id).map fun r =>
    (s.mutex id).elim r fun i => (s.pc i).finish (call i).request.userId r

omit [DecidableEq ι] in
theorem Shared.view_of_free {id : RecordId} (h : s.mutex id = none) :
    s.view call id = s.slot id := by
  rw [Shared.view, h]
  exact Option.map_id'

omit [DecidableEq ι] in
theorem Shared.view_of_held {id : RecordId} (h : s.mutex id = some i) :
    s.view call id
      = (s.slot id).map ((s.pc i).finish (call i).request.userId) := by
  rw [Shared.view, h]
  rfl

/-- A step that neither writes nor passes the lock leaves the view alone. -/
theorem StepOf.view_eq (h : StepOf call i s s' es)
    (hslot : s'.slot (call i).request.id = s.slot (call i).request.id)
    (hmutex : s'.mutex (call i).request.id = s.mutex (call i).request.id)
    (hpc : (s'.pc i).finish (call i).request.userId
      = (s.pc i).finish (call i).request.userId) :
    s'.view call (call i).request.id = s.view call (call i).request.id := by
  have hfin : ∀ j, (s'.pc j).finish (call j).request.userId
      = (s.pc j).finish (call j).request.userId := by
    intro j
    by_cases hj : j = i
    · rw [hj, hpc]
    · rw [h.pc_of_ne hj]
  unfold Shared.view
  rw [hslot, hmutex]
  simp only [hfin]

namespace Locked

omit [DecidableEq ι] in
/-- A call inside holds its record's mutex. -/
theorem mutex_of_inside (hL : Locked call s) (h : (s.pc i).inside = true) :
    s.mutex (call i).request.id = some i := (hL.mutex_iff _ _).mpr ⟨h, rfl⟩

omit [DecidableEq ι] in
/-- A record whose call is inside is seen with that call's writes done. -/
theorem view_of_inside (hL : Locked call s) (h : (s.pc i).inside = true) :
    s.view call (call i).request.id
      = (s.slot (call i).request.id).map ((s.pc i).finish (call i).request.userId) :=
  Shared.view_of_held (hL.mutex_of_inside h)

/-- **A write of the holder cannot be seen through the view**: it was owed before. -/
theorem view_of_writes {r r' : MemToCollect} {pc : Pc} (hL : Locked call s)
    (hL' : Locked call ((s.setRecord (call i).request.id r').goto i pc))
    (hin : (s.pc i).inside = true) (hin' : pc.inside = true)
    (hr : s.slot (call i).request.id = some r)
    (hfin : pc.finish (call i).request.userId r'
      = (s.pc i).finish (call i).request.userId r) :
    ((s.setRecord (call i).request.id r').goto i pc).view call (call i).request.id
      = s.view call (call i).request.id := by
  rw [hL.view_of_inside hin, hL'.view_of_inside (by rw [Shared.pc_goto_self]; exact hin'),
    Shared.slot_setRecord_goto, Shared.pc_goto_self, hr, Option.map_some, Option.map_some, hfin]

/-- **The mark cannot be seen through the view**: the holder, if there is one,
finishes the marked record as it would have finished the other. -/
theorem view_of_marks (hL : Locked call s) (hpc : s.pc i = .mark) {r : MemToCollect}
    (hr : s.slot (call i).request.id = some r) :
    (((s.setRecord (call i).request.id r.mark).goto i .lock).view call
        (call i).request.id).map MemToCollect.mark
      = (s.view call (call i).request.id).map MemToCollect.mark := by
  rw [Shared.view, Shared.view, Shared.slot_setRecord_goto, hr, Option.map_some,
    Option.map_some, Option.map_some, Option.map_some]
  refine congrArg some ?_
  show ((s.mutex (call i).request.id).elim r.mark fun j =>
      (Function.update s.pc i .lock j).finish (call j).request.userId r.mark).mark
    = _
  cases hm : s.mutex (call i).request.id with
  | none => rfl
  | some j =>
    have hj : j ≠ i := by
      rintro rfl
      have hin := ((hL.mutex_iff _ _).mp hm).1
      rw [hpc] at hin
      exact absurd hin Bool.false_ne_true
    show ((Function.update s.pc i .lock j).finish _ r.mark).mark = _
    rw [Function.update_of_ne hj]
    exact Pc.mark_finish_mark _ _ r

omit [DecidableEq ι] in
/-- A record of which everything is taken has no writes to come. -/
theorem view_of_allCollected (hL : Locked call s) {id : RecordId} {r : MemToCollect}
    (hr : s.slot id = some r) (ha : r.status = .allCollected) :
    s.view call id = some r := by
  cases hm : s.mutex id with
  | none => rw [Shared.view_of_free hm, hr]
  | some j =>
    obtain ⟨-, rfl⟩ := (hL.mutex_iff _ _).mp hm
    have hk := hL.knows j
    rw [Shared.view_of_held hm, hr]
    cases hpc : s.pc j with
    | debit n =>
      rw [hpc] at hk
      obtain ⟨r', hr', -, hacc, -⟩ := hk
      obtain rfl : r = r' := Option.some.inj (hr.symm.trans hr')
      exact absurd ha (MemToCollect.rejects_eq_false_iff.mp hacc).1
    | close =>
      rw [hpc] at hk
      obtain ⟨r', hr', -, hs⟩ := hk
      obtain rfl : r = r' := Option.some.inj (hr.symm.trans hr')
      exact absurd ha hs
    | _ => rfl

/-- A step leaves the views of the other records alone. -/
theorem view_of_ne (hL : Locked call s) (h : StepOf call i s s' es) {id : RecordId}
    (hid : id ≠ (call i).request.id) : s'.view call id = s.view call id := by
  cases hm : s.mutex id with
  | none =>
    rw [Shared.view_of_free hm, Shared.view_of_free ((h.mutex_of_ne hid).trans hm),
      h.slot_of_ne hid]
  | some j =>
    have hj : j ≠ i := by
      rintro rfl
      exact hid ((hL.mutex_iff _ _).mp hm).2.symm
    rw [Shared.view_of_held hm, Shared.view_of_held ((h.mutex_of_ne hid).trans hm),
      h.slot_of_ne hid, h.pc_of_ne hj]

end Locked

/-- **The match between a run and a sequential execution**: the calls that have
taken effect, in order; the memory image they leave; and their ledger. -/
structure Linearized (call : ι → Call) (tr : List (Event ι)) (s : Shared ι)
    (order : List ι) (b : Mem × List Credit) : Prop where
  /-- The run keeps the discipline of the lock. -/
  locked : Locked call s
  /-- No call takes effect twice. -/
  nodup : order.Nodup
  /-- The order lists the calls that have taken effect. -/
  mem_iff : ∀ i, i ∈ order ↔ (s.pc i).effective = true
  /-- The totals are the same. -/
  totals : b.1.memTotalEnergyMap = s.mem.memTotalEnergyMap
  /-- The records are the same, once the holders are done and up to the mark. -/
  slots : ∀ id, (b.1.memToCollects id).map MemToCollect.mark
    = (s.view call id).map MemToCollect.mark
  /-- The credits are the same. -/
  ledger : b.2 = creditsOf tr

namespace Linearized

omit [DecidableEq ι] in
theorem start (call : ι → Call) (m : Mem) :
    Linearized call [] (Shared.start m) [] (m, []) where
  locked := Locked.start call m
  nodup := List.nodup_nil
  mem_iff := fun _ => ⟨fun h => absurd h List.not_mem_nil,
    fun h => absurd h Bool.false_ne_true⟩
  totals := rfl
  slots := fun _ => by rw [Shared.view_of_free rfl]; rfl
  ledger := rfl

omit [DecidableEq ι] in
/-- The record of the sequential side, from that of the concurrent side. -/
theorem exists_slot (hR : Linearized call tr s order b) {id : RecordId}
    {r : MemToCollect} (hv : s.view call id = some r) :
    ∃ r', b.1.memToCollects id = some r' ∧ r'.mark = r.mark := by
  have h := hR.slots id
  rw [hv, Option.map_some] at h
  exact Option.map_eq_some_iff.mp h

/-- A step that is nobody's instant. -/
theorem silent (hR : Linearized call tr s order b) (h : StepOf call i s s' es)
    (heff : (s'.pc i).effective = (s.pc i).effective)
    (htot : s'.mem.memTotalEnergyMap = s.mem.memTotalEnergyMap)
    (hview : (s'.view call (call i).request.id).map MemToCollect.mark
      = (s.view call (call i).request.id).map MemToCollect.mark)
    (hes : creditsOf es = []) : Linearized call (tr ++ es) s' order b where
  locked := hR.locked.step h
  nodup := hR.nodup
  mem_iff := fun j => by
    rw [hR.mem_iff]
    by_cases hj : j = i
    · rw [hj, heff]
    · rw [h.pc_of_ne hj]
  totals := by rw [hR.totals, htot]
  slots := fun id => by
    rw [hR.slots]
    by_cases hid : id = (call i).request.id
    · rw [hid, hview]
    · rw [hR.locked.view_of_ne h hid]
  ledger := by rw [creditsOf_append, hes, List.append_nil, hR.ledger]

/-- The instant of the call that steps. -/
theorem instant (hR : Linearized call tr s order b) (h : StepOf call i s s' es)
    (heff : (s.pc i).effective = false) (heff' : (s'.pc i).effective = true)
    (htot : (collectEnergy (call i).request b.1).memTotalEnergyMap
      = s'.mem.memTotalEnergyMap)
    (hview : ((b.1.memToCollects (call i).request.id).map fun r =>
        (r.next (call i).request.userId).mark)
      = (s'.view call (call i).request.id).map MemToCollect.mark)
    (hes : (creditOf (call i).request b.1).toList.map
        (fun n => (⟨(call i).request.id, (call i).request.userId, n⟩ : Credit))
      = creditsOf es) :
    Linearized call (tr ++ es) s' (order ++ [i]) (ledgerStep b (call i).request) where
  locked := hR.locked.step h
  nodup := by
    refine hR.nodup.append (List.nodup_singleton i) (fun j hj hji => ?_)
    rw [List.mem_singleton.mp hji, hR.mem_iff, heff] at hj
    exact absurd hj Bool.false_ne_true
  mem_iff := fun j => by
    rw [List.mem_append, hR.mem_iff, List.mem_singleton]
    by_cases hj : j = i
    · rw [hj, heff']
      exact ⟨fun _ => rfl, fun _ => Or.inr rfl⟩
    · rw [h.pc_of_ne hj]
      exact ⟨fun h => h.resolve_right hj, Or.inl⟩
  totals := htot
  slots := fun id => by
    rw [ledgerStep, memToCollects_collectEnergy]
    by_cases hid : id = (call i).request.id
    · subst hid
      rw [Function.update_self, Option.map_map]
      exact hview
    · rw [Function.update_of_ne hid, hR.locked.view_of_ne h hid]
      exact hR.slots id
  ledger := by
    rw [ledgerStep, creditsOf_append, hes, hR.ledger]

/-- A call that takes nothing has its instant at the check it leaves on. -/
theorem instant_of_rejects (hR : Linearized call tr s order b)
    (h : StepOf call i s s' []) (heff : (s.pc i).effective = false)
    (heff' : (s'.pc i).effective = true)
    (htot : s'.mem.memTotalEnergyMap = s.mem.memTotalEnergyMap)
    {r : MemToCollect} (hview : s.view call (call i).request.id = some r)
    (hview' : s'.view call (call i).request.id = some r)
    (hrej : r.rejects (call i).request.userId = true) :
    Linearized call (tr ++ []) s' (order ++ [i]) (ledgerStep b (call i).request) := by
  obtain ⟨r', hr', hmark⟩ := hR.exists_slot hview
  have hrej' : r'.rejects (call i).request.userId = true :=
    (MemToCollect.rejects_eq_of_mark_eq hmark).trans hrej
  have hcred : creditOf (call i).request b.1 = none := by
    rw [creditOf, hr']
    exact MemToCollect.credit?_of_rejects hrej'
  refine hR.instant h heff heff' ?_ ?_ ?_
  · rw [memTotalEnergyMap_collectEnergy, hcred, htot]
    exact hR.totals
  · rw [hr', hview', Option.map_some, Option.map_some,
      MemToCollect.mark_next_of_rejects hrej', hmark]
  · rw [hcred]
    rfl

/-- The return on the check before the lock is an instant: no record is there, or
nothing is left of it, which does not depend on the holder. -/
theorem step_returns (hR : Linearized call tr s order b) (hpc : s.pc i = .check)
    (hun : returnsUnlocked (s.slot (call i).request.id) = true) :
    Linearized call (tr ++ []) (s.goto i .skipped) (order ++ [i])
      (ledgerStep b (call i).request) := by
  have hL := hR.locked
  have hstep : StepOf call i s _ _ := .returns hpc hun
  have heff : (s.pc i).effective = false := by rw [hpc]; rfl
  have heff' : ((s.goto i .skipped).pc i).effective = true := by
    rw [Shared.pc_goto_self]
    rfl
  cases hr : s.slot (call i).request.id with
  | none =>
    have hb : b.1.memToCollects (call i).request.id = none := by
      have h := hR.slots (call i).request.id
      rw [Shared.view, hr, Option.map_none, Option.map_none] at h
      exact Option.map_eq_none_iff.mp h
    have hcred : creditOf (call i).request b.1 = none := by
      rw [creditOf, hb]
      rfl
    refine hR.instant hstep heff heff' ?_ ?_ ?_
    · rw [collectEnergy_of_none hb]
      exact hR.totals
    · rw [hb, Shared.view, show (s.goto i .skipped).slot (call i).request.id = none from hr]
      rfl
    · rw [hcred]
      rfl
  | some r =>
    have ha : r.status = .allCollected := by
      rw [hr] at hun
      exact of_decide_eq_true hun
    exact hR.instant_of_rejects hstep heff heff' rfl (hL.view_of_allCollected hr ha)
      ((hL.step hstep).view_of_allCollected hr ha) (MemToCollect.rejects_of_allCollected ha _)

/-- A rejection under the lock is an instant. -/
theorem step_rejects (hR : Linearized call tr s order b) (hpc : s.pc i = .recheck)
    {r : MemToCollect} (hr : s.slot (call i).request.id = some r)
    (hrej : r.rejects (call i).request.userId = true) :
    Linearized call (tr ++ []) (s.goto i (.unlock .rejected)) (order ++ [i])
      (ledgerStep b (call i).request) := by
  have hstep : StepOf call i s _ _ := .rejects hpc r hr hrej
  have hview : s.view call (call i).request.id = some r := by
    rw [hR.locked.view_of_inside (by rw [hpc]; rfl), hr, hpc]
    rfl
  have hview' := hstep.view_eq rfl rfl (by rw [hpc, Shared.pc_goto_self]; rfl)
  rw [hview] at hview'
  exact hR.instant_of_rejects hstep (by rw [hpc]; rfl)
    (by rw [Shared.pc_goto_self]; rfl) rfl hview hview' hrej

/-- The credit is an instant: from then on the others see the record with the
debit and the status written, as the sequential call leaves it. -/
theorem step_credits (hR : Linearized call tr s order b) (hpc : s.pc i = .credit)
    {r : MemToCollect} (hr : s.slot (call i).request.id = some r) :
    Linearized call
      (tr ++ [.credit i ⟨(call i).request.id, (call i).request.userId,
        r.amount (call i).request.userId⟩])
      ((s.credit (call i).request.userId (r.amount (call i).request.userId)).goto i
        (.debit (r.amount (call i).request.userId)))
      (order ++ [i]) (ledgerStep b (call i).request) := by
  have hstep : StepOf call i s _ _ := .credits hpc r hr
  have hk := hR.locked.knows i
  rw [hpc] at hk
  obtain ⟨r₁, hr₁, -, hacc⟩ := hk
  obtain rfl : r = r₁ := Option.some.inj (hr.symm.trans hr₁)
  have hview : s.view call (call i).request.id = some r := by
    rw [hR.locked.view_of_inside (by rw [hpc]; rfl), hr, hpc]
    rfl
  obtain ⟨r', hr', hmark⟩ := hR.exists_slot hview
  -- the sequential call meets the same record up to the mark, and accepts too
  have hacc' : r'.rejects (call i).request.userId = false :=
    (MemToCollect.rejects_eq_of_mark_eq hmark).trans hacc
  have hcred : creditOf (call i).request b.1
      = some (r.amount (call i).request.userId) := by
    rw [creditOf, hr', Option.bind_some, MemToCollect.credit?_of_accepts hacc',
      MemToCollect.amount_eq_of_mark_eq hmark]
  refine hR.instant hstep (by rw [hpc]; rfl) (by rw [Shared.pc_goto_self]; rfl) ?_ ?_ ?_
  · rw [memTotalEnergyMap_collectEnergy, hcred]
    show b.1.memTotalEnergyMap.add _ _ = _
    rw [hR.totals]
    rfl
  · rw [(hR.locked.step hstep).view_of_inside (by rw [Shared.pc_goto_self]; rfl),
      Shared.pc_goto_self, hr', Option.map_some, MemToCollect.mark_next, hmark,
      ← MemToCollect.mark_next, MemToCollect.next_of_accepts hacc]
    show _ = ((s.slot (call i).request.id).map _).map _
    rw [hr]
    rfl
  · rw [hcred]
    rfl

/-- **Every step is nobody's instant or the instant of the call that steps.** The
instants are the three places where a call's fate is sealed; the writes that
follow the credit are in the view already. -/
theorem step (hR : Linearized call tr s order b) (h : StepOf call i s s' es) :
    Linearized call (tr ++ es) s' order b
      ∨ Linearized call (tr ++ es) s' (order ++ [i]) (ledgerStep b (call i).request) := by
  have hL := hR.locked
  have hL' := hL.step h
  cases h with
  | returns hpc hun => exact Or.inr (hR.step_returns hpc hun)
  | rejects hpc r hr hrej => exact Or.inr (hR.step_rejects hpc hr hrej)
  | credits hpc r hr => exact Or.inr (hR.step_credits hpc hr)
  | checks hpc r hr hs =>
    refine Or.inl (hR.silent (.checks hpc r hr hs) ?_ rfl ?_ rfl)
    · rw [hpc, Shared.pc_goto_self]
      rfl
    · rw [StepOf.view_eq (.checks hpc r hr hs) rfl rfl
        (by rw [hpc, Shared.pc_goto_self]; rfl)]
  | marks hpc r hr =>
    refine Or.inl (hR.silent (.marks hpc r hr) ?_ rfl (hL.view_of_marks hpc hr) rfl)
    rw [hpc, Shared.pc_goto_self]
    rfl
  | locks hpc hfree =>
    refine Or.inl (hR.silent (.locks hpc hfree) ?_ rfl ?_ rfl)
    · rw [hpc, Shared.pc_goto_self]
      rfl
    · rw [Shared.view_of_free hfree, hL'.view_of_inside (by rw [Shared.pc_goto_self]; rfl),
        Shared.pc_goto_self]
      exact congrArg _ Option.map_id'
  | accepts hpc r hr hacc =>
    refine Or.inl (hR.silent (.accepts hpc r hr hacc) ?_ rfl ?_ rfl)
    · rw [hpc, Shared.pc_goto_self]
      rfl
    · rw [StepOf.view_eq (.accepts hpc r hr hacc) rfl rfl
        (by rw [hpc, Shared.pc_goto_self]; rfl)]
  | debits n hpc r hr =>
    refine Or.inl (hR.silent (.debits n hpc r hr) ?_ rfl ?_ rfl)
    · rw [hpc, Shared.pc_goto_self]
      rfl
    · rw [hL.view_of_writes hL' (by rw [hpc]; rfl) rfl hr (by rw [hpc]; rfl)]
  | closes hpc r hr =>
    refine Or.inl (hR.silent (.closes hpc r hr) ?_ rfl ?_ rfl)
    · rw [hpc, Shared.pc_goto_self]
      rfl
    · rw [hL.view_of_writes hL' (by rw [hpc]; rfl) rfl hr (by rw [hpc]; rfl)]
  | unlocks e hpc =>
    refine Or.inl (hR.silent (.unlocks e hpc) ?_ rfl ?_ rfl)
    · rw [hpc, Shared.pc_goto_self]
      rfl
    · rw [Shared.view_of_free (show ((s.setMutex (call i).request.id none).goto i
        (.returned e)).mutex (call i).request.id = none from Function.update_self ..),
        hL.view_of_inside (by rw [hpc]; rfl), hpc]
      exact congrArg _ Option.map_id'.symm

end Linearized

/-- **Every reachable state is matched by a sequential execution.** -/
theorem CallRun.linearized (h : CallRun call m tr s) :
    ∃ order : List ι, Linearized call tr s order
      (collectAll m (order.map fun i => (call i).request),
        credits (order.map fun i => (call i).request) m) := by
  obtain ⟨order, hR⟩ := Run.simulates (κ := ι)
    (fun b i => ledgerStep b (call i).request) (Linearized.start call m)
    (fun tr s i s' es order b hR hs => (hR.step (stepOf_of_microStep hs)).imp_right
      (fun h => ⟨i, h⟩)) h
  have hfold := foldl_ledgerStep (order.map fun i => (call i).request) m []
  rw [List.foldl_map, List.nil_append] at hfold
  rw [hfold] at hR
  exact ⟨order, hR⟩

/-! ## The flag -/

/-- **What the flags tell**: which records have been asked for in time. -/
structure Marked (call : ι → Call) (m : Mem) (s : Shared ι) : Prop where
  /-- A record without a mark is as it was. -/
  untouched : ∀ id r, s.slot id = some r → r.modified = false →
    m.memToCollects id = some r
  /-- A mark was there or has been made. -/
  made : ∀ id r, s.slot id = some r → r.modified = true →
    (∃ r₀, m.memToCollects id = some r₀ ∧ r₀.modified = true)
      ∨ ∃ i, (s.pc i).marked = true ∧ (call i).request.id = id
  /-- Who gets to make a mark has found something to take. -/
  inTime : ∀ i, s.pc i ≠ .check → s.pc i ≠ .skipped →
    ∃ r₀, m.memToCollects (call i).request.id = some r₀ ∧ r₀.status ≠ .allCollected

namespace Marked

omit [DecidableEq ι] in
theorem start (call : ι → Call) (m : Mem) : Marked call m (Shared.start m) where
  untouched := fun _ _ h _ => h
  made := fun _ r h hm => Or.inl ⟨r, h, hm⟩
  inTime := fun _ h => absurd rfl h

/-- Every step keeps what the flags tell: only a call past the write of the flag
writes anything else. -/
theorem step (hM : Marked call m s) (hL : Locked call s)
    (hE : ∀ id, SlotEvolves (m.memToCollects id) (s.slot id))
    (h : StepOf call i s s' es) : Marked call m s' := by
  have hk := hL.knows i
  have hstay : ∀ j, (s.pc j).marked = true → (s'.pc j).marked = true := by
    intro j hj
    by_cases hji : j = i
    · subst hji
      cases h with
      | returns hpc | checks hpc | marks hpc =>
        rw [hpc] at hj
        cases hj
      | locks | rejects | accepts | credits | debits | closes | unlocks =>
        rw [Shared.pc_goto_self]
        rfl
    · rw [h.pc_of_ne hji]
      exact hj
  refine ⟨fun id r hr hm => ?_, fun id r hr hm => ?_, fun j hj hj' => ?_⟩
  · by_cases hid : id = (call i).request.id
    · subst hid
      cases h with
      | marks hpc r₁ =>
        rw [Shared.slot_setRecord_goto] at hr
        rw [← Option.some.inj hr] at hm
        exact absurd hm.symm Bool.false_ne_true
      | debits n hpc r₁ hr₁ | closes hpc r₁ hr₁ =>
        rw [hpc] at hk
        obtain ⟨r₂, hr₂, hm₂, -⟩ := hk
        obtain rfl : r₁ = r₂ := Option.some.inj (hr₁.symm.trans hr₂)
        rw [Shared.slot_setRecord_goto] at hr
        rw [← Option.some.inj hr] at hm
        exact absurd (hm₂.symm.trans hm) Bool.noConfusion
      | returns | checks | locks | rejects | accepts | credits | unlocks =>
        exact hM.untouched _ r hr hm
    · exact hM.untouched id r ((h.slot_of_ne hid) ▸ hr) hm
  · by_cases hmi : (s'.pc i).marked = true ∧ (call i).request.id = id
    · exact Or.inr ⟨i, hmi⟩
    · have hr' : s.slot id = some r := by
        by_cases hid : id = (call i).request.id
        · subst hid
          cases h with
          | marks | debits | closes =>
            rw [Shared.pc_goto_self] at hmi
            exact absurd ⟨rfl, rfl⟩ hmi
          | returns | checks | locks | rejects | accepts | credits | unlocks => exact hr
        · exact (h.slot_of_ne hid) ▸ hr
      rcases hM.made id r hr' hm with h₀ | ⟨j, hj, hid⟩
      · exact Or.inl h₀
      · exact Or.inr ⟨j, hstay j hj, hid⟩
  · by_cases hji : j = i
    · subst hji
      cases h with
      | returns hpc =>
        rw [Shared.pc_goto_self] at hj'
        exact absurd rfl hj'
      | checks hpc r hr hs =>
        obtain ⟨r₀, hr₀, he⟩ := (hE (call j).request.id).exists_left hr
        exact ⟨r₀, hr₀, fun ha => hs (he.allCollected ha)⟩
      | marks hpc | locks hpc | rejects hpc | accepts hpc | credits hpc | debits _ hpc
      | closes hpc | unlocks _ hpc =>
        exact hM.inTime j (by rw [hpc]; exact Pc.noConfusion)
          (by rw [hpc]; exact Pc.noConfusion)
    · rw [h.pc_of_ne hji] at hj hj'
      exact hM.inTime j hj hj'

end Marked

/-- In every reachable state the records have evolved from the loaded ones. -/
theorem CallRun.slotEvolves (h : CallRun call m tr s) (id : RecordId) :
    SlotEvolves (m.memToCollects id) (s.slot id) :=
  (Locked.start call m).slotEvolves_run h id

theorem CallRun.flags (h : CallRun call m tr s) : Marked call m s :=
  Run.invariant (I := fun _ s => Marked call m s) (Marked.start call m)
    (fun _ _ _ _ _ hr hM hs => hM.step (CallRun.locked hr) (CallRun.slotEvolves hr)
      (stepOf_of_microStep hs)) h

/-- **Once all calls have returned, the flag is that of the sequential
execution.** -/
theorem CallRun.modified_eq (h : CallRun call m tr s) (hdone : ∀ i, (s.pc i).ended = true)
    {order : List ι} (hall : ∀ i, i ∈ order) {id : RecordId} {r₀ r : MemToCollect}
    (hr₀ : m.memToCollects id = some r₀) (hr : s.slot id = some r) :
    (r₀.nexts (askers id (order.map fun i => (call i).request))).modified
      = r.modified := by
  have hM := h.flags
  cases hm : r.modified with
  | false =>
    obtain rfl : r₀ = r := Option.some.inj (hr₀.symm.trans (hM.untouched id r hr hm))
    by_cases ha : r₀.status = .allCollected
    · rw [(MemToCollect.nexts_of_allCollected ha _).1, hm]
    · -- who asked for it has found it taken or has marked it: nobody did
      have hnone : askers id (order.map fun i => (call i).request) = [] := by
        refine List.eq_nil_iff_forall_not_mem.mpr (fun u hu => ?_)
        obtain ⟨q, hq, hid, -⟩ := mem_askers.mp hu
        obtain ⟨i, -, rfl⟩ := List.mem_map.mp hq
        have hk := h.locked.knows i
        have hend := hdone i
        rw [hid, hr] at hk
        cases hpc : s.pc i with
        | skipped =>
          rw [hpc] at hk
          exact ha (of_decide_eq_true hk)
        | returned e =>
          rw [hpc] at hk
          obtain ⟨r', hr', hm'⟩ := hk
          rw [← Option.some.inj hr', hm] at hm'
          exact absurd hm' Bool.false_ne_true
        | _ =>
          rw [hpc] at hend
          cases hend
      rw [hnone, MemToCollect.nexts_nil, hm]
  | true =>
    rcases hM.made id r hr hm with ⟨r₁, hr₁, hm₁⟩ | ⟨i, hi, rfl⟩
    · obtain rfl : r₀ = r₁ := Option.some.inj (hr₀.symm.trans hr₁)
      exact MemToCollect.modified_nexts_of_modified hm₁ _
    · obtain ⟨r₁, hr₁, hs⟩ := hM.inTime i
        (fun hpc => by rw [hpc] at hi; cases hi) (fun hpc => by rw [hpc] at hi; cases hi)
      obtain rfl : r₀ = r₁ := Option.some.inj (hr₀.symm.trans hr₁)
      have hne : askers (call i).request.id (order.map fun i => (call i).request) ≠ [] :=
        List.ne_nil_of_mem (mem_askers.mpr
          ⟨(call i).request, List.mem_map.mpr ⟨i, hall i, rfl⟩, rfl, rfl⟩)
      rw [MemToCollect.modified_nexts hs, List.isEmpty_eq_false_iff.mpr hne]
      simp

/-- **Double-checked locking is linearizable.** Once all calls have returned, the
memory image is the one that `handle_request` leaves when it is executed on
their chunks one after another, in some order. And a call that has returned on
the check before the lock would, from then on, be rejected under it. -/
theorem linearizable (h : CallRun call m tr s) :
    ((∀ i, (s.pc i).ended = true) →
      ∃ order : List ι, order.Nodup ∧ (∀ i, i ∈ order)
        ∧ handleRequests (order.map call) m = .ok s.mem)
      ∧ ∀ i r, s.pc i = .skipped → s.slot (call i).request.id = some r →
        r.rejects (call i).request.userId = true := by
  refine ⟨fun hdone => ?_, fun i r hpc hr => ?_⟩
  · obtain ⟨order, hR⟩ := h.linearized
    have hall : ∀ i, i ∈ order := fun i =>
      (hR.mem_iff i).mpr (Pc.effective_of_ended (hdone i))
    refine ⟨order, hR.nodup, hall, ?_⟩
    rw [handleRequests_eq, List.map_map]
    refine congrArg Except.ok (Mem.ext (funext fun id => ?_) hR.totals)
    have hfree : s.mutex id = none := by
      refine Option.eq_none_iff_forall_ne_some.mpr (fun i hi => ?_)
      have hin := ((h.locked.mutex_iff id i).mp hi).1
      rw [Pc.inside_of_ended (hdone i)] at hin
      exact absurd hin Bool.false_ne_true
    have hslot := hR.slots id
    rw [Shared.view_of_free hfree, memToCollects_collectAll] at hslot
    show (collectAll m (order.map fun i => (call i).request)).memToCollects id = s.slot id
    rw [memToCollects_collectAll]
    have hE := h.slotEvolves id
    cases hr₀ : m.memToCollects id with
    | none => exact (hE.eq_none hr₀).symm
    | some r₀ =>
      obtain ⟨r, hr, -⟩ := hE.exists_right hr₀
      rw [hr₀, hr] at hslot
      rw [hr, Option.map_some]
      exact congrArg some (MemToCollect.eq_of_mark_eq (Option.some.inj hslot)
        (h.modified_eq hdone hall hr₀ hr))
  · have hk := h.locked.knows i
    rw [hpc, hr] at hk
    exact MemToCollect.rejects_of_allCollected (of_decide_eq_true hk) _

/-- A record with ten units. -/
def tenUnits : MemToCollect := { userId := ann, toCollectEnergy := 10 }

/-- A memory image with that record in slot 1. -/
def tenUnitsMem : Mem := ⟨fun id => if id = 1 then some tenUnits else none, .empty⟩

/-- The owner's request for it, and that of another user. -/
def raceCalls : Fin 2 → Call
  | 0 => HttpRequest.plainCall ann ann_length ann_clean 1 one_le_one
  | 1 => HttpRequest.plainCall bob bob_length bob_clean 1 one_le_one

/-- The other user passes the first check before the owner does, and gets to the
second when the owner has been there. -/
def raceSchedule : List (Fin 2) := [1, 1, 0, 0, 0, 0, 0, 0, 0, 0, 1, 1, 1]

/-- That race has an order. -/
theorem linearizable_raceCalls :
    ∃ tr s, CallRun raceCalls tenUnitsMem tr s
      ∧ ∃ order : List (Fin 2), order.Nodup ∧ (∀ i, i ∈ order)
        ∧ handleRequests (order.map raceCalls) tenUnitsMem = .ok s.mem := by
  have hexec : (Run.exec (microStep raceCalls) raceSchedule (Shared.start tenUnitsMem)).map
      (fun p => decide (∀ i, (p.1.pc i).ended = true)) = some true := by
    decide +kernel
  obtain ⟨⟨s, tr⟩, hrun, hdone⟩ := Option.map_eq_some_iff.mp hexec
  have hrun' : CallRun raceCalls tenUnitsMem tr s := Run.of_exec hrun
  exact ⟨tr, s, hrun', (linearizable hrun').1 (of_decide_eq_true hdone)⟩

end GreenFinal
