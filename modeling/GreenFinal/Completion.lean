import GreenFinal.Linearization

/-!
# Calls come to their end, and in an order that time allows

A call of `handle_request` takes one lock, and nothing it does under the lock
waits for anybody. So a call can only be held up by the call that has its
record's mutex, and that one is held up by nobody: no cycle of waiting can
arise. No step of a call is repeated either, so a call takes eight steps at
the most, whatever the others do. Together, every schedule of a family of
calls ends after finitely many steps, and where it ends all calls have
returned and all mutexes are free (`calls_complete`).

`GreenFinal.Linearization` gives the calls an order. The second half of this
module relates that order to the time at which they run: at every moment of a
run the calls that have taken effect by then are the first in the order, so a
call that has returned before another begins comes before it
(`linearizable_in_time`).
-/

open CLib Interleave

namespace GreenFinal

/-- How many steps a call has still to take, at the most. -/
def Pc.left : Pc → ℕ
  | .check => 8
  | .mark => 7
  | .lock => 6
  | .recheck => 5
  | .credit => 4
  | .debit _ => 3
  | .close => 2
  | .unlock _ => 1
  | .skipped | .returned _ => 0

variable {ι : Type*} [DecidableEq ι] {call : ι → Call} {m : Mem} {tr es : List (Event ι)}
  {s s' : Shared ι} {i : ι}

/-- Every step of a call brings it closer to its end. -/
theorem StepOf.left_lt (h : StepOf call i s s' es) : (s'.pc i).left < (s.pc i).left := by
  cases h with
  | returns hpc | checks hpc | marks hpc | locks hpc | rejects hpc | accepts hpc
  | credits hpc | debits _ hpc | closes hpc | unlocks _ hpc =>
    rw [Shared.pc_goto_self, hpc]
    simp [Pc.left]

/-- **The steps left to all calls together go down.** -/
theorem descends_left [Fintype ι] (call : ι → Call) :
    Descends (microStep call) (Locked call) (fun s => ∑ j, (s.pc j).left) where
  keeps := fun hL hs => hL.step (stepOf_of_microStep hs)
  lowers := by
    intro i s s' es _ hs
    have hstep := stepOf_of_microStep hs
    refine Finset.sum_lt_sum (fun j _ => ?_) ⟨i, Finset.mem_univ i, hstep.left_lt⟩
    by_cases hj : j = i
    · rw [hj]
      exact hstep.left_lt.le
    · rw [hstep.pc_of_ne hj]

/-! ## Nobody waits for long -/

namespace Locked

omit [DecidableEq ι] in
/-- Past the first check there is a record. -/
theorem exists_slot (hL : Locked call s) (hcheck : s.pc i ≠ .check)
    (hend : (s.pc i).ended = false) : ∃ r, s.slot (call i).request.id = some r := by
  have hk := hL.knows i
  cases hpc : s.pc i with
  | check => exact absurd hpc hcheck
  | skipped | returned =>
    rw [hpc] at hend
    cases hend
  | mark =>
    rw [hpc] at hk
    exact hk
  | lock | recheck | unlock | credit | debit | close =>
    rw [hpc] at hk
    obtain ⟨r, hr, -⟩ := hk
    exact ⟨r, hr⟩

/-- **Only the lock can hold up a call.** -/
theorem isSome_microStep (hL : Locked call s) (hend : (s.pc i).ended = false)
    (hlock : s.pc i = .lock → s.mutex (call i).request.id = none) :
    (microStep call i s).isSome = true := by
  unfold microStep
  dsimp only
  by_cases hcheck : s.pc i = .check
  · rw [hcheck]
    rfl
  obtain ⟨r, hr⟩ := hL.exists_slot hcheck hend
  cases hpc : s.pc i with
  | check => exact absurd hpc hcheck
  | mark | recheck | credit | debit | close =>
    dsimp only
    rw [hr]
    rfl
  | lock =>
    dsimp only
    rw [if_pos (hlock hpc)]
    rfl
  | unlock => rfl
  | skipped | returned =>
    rw [hpc] at hend
    cases hend

/-- **Whoever has to wait, waits for a call that can go on.** -/
theorem step_or_wait (hL : Locked call s) (hend : (s.pc i).ended = false) :
    (microStep call i s).isSome = true
      ∨ ∃ j, s.mutex (call i).request.id = some j ∧ (microStep call j s).isSome = true := by
  by_cases hlock : s.pc i = .lock
  · cases hm : s.mutex (call i).request.id with
    | none => exact Or.inl (hL.isSome_microStep hend fun _ => hm)
    | some j =>
      -- the holder is past its lock, so nothing holds it up
      have hin := ((hL.mutex_iff _ j).mp hm).1
      refine Or.inr ⟨j, rfl, hL.isSome_microStep ?_ fun hj => ?_⟩
      · by_contra hj
        rw [Bool.not_eq_false] at hj
        rw [Pc.inside_of_ended hj] at hin
        exact absurd hin Bool.false_ne_true
      · rw [hj] at hin
        exact absurd hin Bool.false_ne_true
  · exact Or.inl (hL.isSome_microStep hend fun h => absurd h hlock)

/-- Where nothing more can happen all calls have returned. -/
theorem ended_of_quiet (hL : Locked call s) (hq : Quiet (microStep call) s) (i : ι) :
    (s.pc i).ended = true := by
  by_contra hend
  rw [Bool.not_eq_true] at hend
  rcases hL.step_or_wait hend with h | ⟨j, -, h⟩
  · rw [hq i] at h
    cases h
  · rw [hq j] at h
    cases h

omit [DecidableEq ι] in
/-- When all calls have returned all mutexes are free. -/
theorem mutex_eq_none (hL : Locked call s) (hdone : ∀ i, (s.pc i).ended = true)
    (id : RecordId) : s.mutex id = none := by
  refine Option.eq_none_iff_forall_ne_some.mpr (fun i hi => ?_)
  have hin := ((hL.mutex_iff id i).mp hi).1
  rw [Pc.inside_of_ended (hdone i)] at hin
  exact absurd hin Bool.false_ne_true

end Locked

/-- **Calls come to their end.** No schedule of a family of calls has more than eight
steps for each call. In every state it can reach, a call that has not returned can
step, or waits for a call that can; the run can be carried on until all have
returned; and where it cannot be carried on they have, and all mutexes are free. -/
theorem calls_complete [Fintype ι] (call : ι → Call) (m : Mem) :
    (∀ as tr s, Run.exec (microStep call) as (Shared.start m) = some (s, tr) →
        as.length ≤ 8 * Fintype.card ι)
      ∧ ∀ tr s, CallRun call m tr s →
        (∀ i, (s.pc i).ended = false → (microStep call i s).isSome = true
          ∨ ∃ j, s.mutex (call i).request.id = some j ∧ (microStep call j s).isSome = true)
        ∧ (∃ tr' s', Run (microStep call) s tr' s' ∧ ∀ i, (s'.pc i).ended = true)
        ∧ (Quiet (microStep call) s →
          (∀ i, (s.pc i).ended = true) ∧ ∀ id, s.mutex id = none) := by
  have hdesc := descends_left call
  refine ⟨fun as tr s hexec => ?_, fun tr s h => ⟨fun i => h.locked.step_or_wait, ?_,
    fun hq => ?_⟩⟩
  · have hle := hdesc.length_le (Locked.start call m) hexec
    have hstart : ∑ j, ((Shared.start m : Shared ι).pc j).left = Fintype.card ι * 8 :=
      Finset.sum_const_nat (fun _ _ => rfl)
    omega
  · obtain ⟨tr', s', hr, hq⟩ := hdesc.exists_quiet h.locked
    exact ⟨tr', s', hr, (hdesc.invariant h.locked hr).ended_of_quiet hq⟩
  · exact ⟨h.locked.ended_of_quiet hq, h.locked.mutex_eq_none (h.locked.ended_of_quiet hq)⟩

/-- Two calls for one record can always be brought to their end. -/
theorem calls_complete_raceCalls :
    ∃ tr s, CallRun raceCalls tenUnitsMem tr s ∧ ∀ id, s.mutex id = none := by
  obtain ⟨-, hreach⟩ := calls_complete raceCalls tenUnitsMem
  obtain ⟨-, ⟨tr, s, hr, hdone⟩, -⟩ := hreach [] _ Run.init
  exact ⟨tr, s, hr, (CallRun.locked hr).mutex_eq_none hdone⟩

/-! ## The order and time -/

/-- **A run and its order, at every moment**: the calls that have taken effect by then
are the first in the order, and the totals are those they leave. -/
def CutAt (call : ι → Call) (m : Mem) (order : List ι) (v : Shared ι) : Prop :=
  ∃ pre, pre <+: order ∧ (∀ i, i ∈ pre ↔ (v.pc i).effective = true)
    ∧ v.mem.memTotalEnergyMap
      = (collectAll m (pre.map fun i => (call i).request)).memTotalEnergyMap

omit [DecidableEq ι] in
/-- What the order cuts it goes on cutting when it grows. -/
theorem CutAt.append {order : List ι} {v : Shared ι} (h : CutAt call m order v)
    (rest : List ι) : CutAt call m (order ++ rest) v := by
  obtain ⟨pre, hpre, hmem, htot⟩ := h
  exact ⟨pre, hpre.trans (List.prefix_append _ _), hmem, htot⟩

omit [DecidableEq ι] in
/-- The order cuts at the state it has led to. -/
theorem Linearized.cutAt {order : List ι}
    (h : Linearized call tr s order
      (order.foldl (fun b i => ledgerStep b (call i).request) (m, []))) :
    CutAt call m order s := by
  refine ⟨order, List.prefix_rfl, h.mem_iff, ?_⟩
  rw [← h.totals, ← List.foldl_map (f := fun i => (call i).request), foldl_ledgerStep]

/-- **Every path has one order that cuts at each of its states.** -/
theorem exists_cutAt {vs : List (Shared ι)}
    (h : Path (microStep call) (Shared.start m) vs tr s) :
    ∃ order : List ι, Linearized call tr s order
        (order.foldl (fun b i => ledgerStep b (call i).request) (m, []))
      ∧ ∀ v ∈ vs, CutAt call m order v := by
  refine Path.invariant (I := fun vs tr s => ∃ order : List ι, Linearized call tr s order
      (order.foldl (fun b i => ledgerStep b (call i).request) (m, []))
    ∧ ∀ v ∈ vs, CutAt call m order v) ⟨[], Linearized.start call m, fun v hv => ?_⟩
    (fun vs tr s i s' es _ ⟨order, hR, hcut⟩ hs => ?_) h
  · rw [List.mem_singleton.mp hv]
    exact (Linearized.start call m).cutAt
  · rcases hR.step (stepOf_of_microStep hs) with hR' | hR'
    · refine ⟨order, hR', fun v hv => ?_⟩
      rcases List.mem_append.mp hv with hv | hv
      · exact hcut v hv
      · rw [List.mem_singleton.mp hv]
        exact hR'.cutAt
    · -- the call that takes effect is put at the end
      rw [← List.foldl_concat (f := fun b i => ledgerStep b (call i).request)] at hR'
      refine ⟨order ++ [i], hR', fun v hv => ?_⟩
      rcases List.mem_append.mp hv with hv | hv
      · exact (hcut v hv).append [i]
      · rw [List.mem_singleton.mp hv]
        exact hR'.cutAt

/-- When all calls have returned, executing them in the order leaves the memory image
the run has left. -/
theorem Linearized.handleRequests_eq {order : List ι}
    (hR : Linearized call tr s order
      (order.foldl (fun b i => ledgerStep b (call i).request) (m, [])))
    (h : CallRun call m tr s) (hdone : ∀ i, (s.pc i).ended = true) :
    handleRequests (order.map call) m = .ok s.mem := by
  have hall : ∀ i, i ∈ order := fun i => (hR.mem_iff i).mpr (Pc.effective_of_ended (hdone i))
  have hslots := hR.slots
  have htotals := hR.totals
  rw [← List.foldl_map (f := fun i => (call i).request), foldl_ledgerStep] at hslots htotals
  rw [GreenFinal.handleRequests_eq, List.map_map]
  refine congrArg Except.ok (Mem.ext (funext fun id => ?_) htotals)
  -- nobody owes a record anything, so only the flags are left to compare
  have hslot := hslots id
  rw [Shared.view_of_free (hR.locked.mutex_eq_none hdone id),
    memToCollects_collectAll] at hslot
  show (collectAll m _).memToCollects id = s.slot id
  rw [memToCollects_collectAll]
  cases hr₀ : m.memToCollects id with
  | none => exact ((h.slotEvolves id).eq_none hr₀).symm
  | some r₀ =>
    obtain ⟨r, hr, -⟩ := (h.slotEvolves id).exists_right hr₀
    rw [hr₀, hr] at hslot
    rw [hr, Option.map_some]
    exact congrArg some (MemToCollect.eq_of_mark_eq (Option.some.inj hslot)
      (h.modified_eq hdone hall hr₀ hr))

/-- **The calls have an order that time allows.** Along every path on which all calls
return there is one order of the calls such that `handle_request`, executed on their
chunks in this order, leaves the memory image of the run; that at every moment the
calls that have taken effect are the first in it, with the totals of that moment;
and in which a call that has returned before another begins comes before it. -/
theorem linearizable_in_time {vs : List (Shared ι)}
    (h : Path (microStep call) (Shared.start m) vs tr s)
    (hdone : ∀ i, (s.pc i).ended = true) :
    ∃ order : List ι, order.Nodup ∧ (∀ i, i ∈ order)
      ∧ handleRequests (order.map call) m = .ok s.mem
      ∧ (∀ v ∈ vs, CutAt call m order v)
      ∧ ∀ v ∈ vs, ∀ i j, (v.pc i).ended = true → v.pc j = .check → Precedes i j order := by
  obtain ⟨order, hR, hcut⟩ := exists_cutAt h
  refine ⟨order, hR.nodup, fun i => (hR.mem_iff i).mpr (Pc.effective_of_ended (hdone i)),
    hR.handleRequests_eq h.run hdone, hcut, fun v hv i j hi hj => ?_⟩
  obtain ⟨pre, hpre, hmem, -⟩ := hcut v hv
  refine Precedes.of_prefix hpre ((hmem i).mpr (Pc.effective_of_ended hi)) fun h => ?_
  rw [hmem, hj] at h
  exact absurd h Bool.false_ne_true

/-- Where the other user is served before the owner begins, the order is theirs. -/
theorem linearizable_in_time_raceCalls :
    ∃ (s : Shared (Fin 2)) (order : List (Fin 2)), order.Nodup
      ∧ handleRequests (order.map raceCalls) tenUnitsMem = .ok s.mem
      ∧ Precedes 1 0 order := by
  have hexec : ((Run.exec (microStep raceCalls) (List.replicate 8 1)
      (Shared.start tenUnitsMem)).bind fun p =>
        (Run.exec (microStep raceCalls) (List.replicate 8 0) p.1).map fun q =>
          decide ((p.1.pc 1).ended = true ∧ p.1.pc 0 = .check
            ∧ ∀ i, (q.1.pc i).ended = true)) = some true := by
    decide +kernel
  obtain ⟨⟨v, tr⟩, hrun, hrest⟩ := Option.bind_eq_some_iff.mp hexec
  obtain ⟨⟨s, tr'⟩, hrun', hdone⟩ := Option.map_eq_some_iff.mp hrest
  obtain ⟨h₁, h₀, hend⟩ := of_decide_eq_true hdone
  obtain ⟨vs, hpath⟩ := Path.exists_of_run (Run.of_exec hrun)
  obtain ⟨vs', hpath'⟩ := hpath.append (Run.of_exec hrun')
  obtain ⟨order, hnodup, -, hmem, -, htime⟩ := linearizable_in_time hpath' hend
  exact ⟨s, order, hnodup, hmem, htime v (List.mem_append_left _ hpath.mem_last) 1 0 h₁ h₀⟩

end GreenFinal
