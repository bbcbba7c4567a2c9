import GreenFinal.Lib.Interleave
import GreenFinal.Call

/-!
# Calls against each other

Every connection runs on a thread of its own, and the threads share the
memory image. Here the second half of `handle_request` is cut into the
steps that other threads can come between: the unlocked check, the write of
`modified_`, the lock, the re-check under the lock, the credit of the user's
total, the debit of the record, the write of its status, and the unlock.
Each is one atomic step on the shared state, and the interleavings of a
family of calls are the runs of `microStep`.

The mutex of a record is the call holding it. A call that would lock a
taken mutex has no step; neither has one that has returned.

`StepOf` lists what a step can do, one constructor for each place in the
code, and `stepOf_of_microStep` says there is nothing else. `Locked` is the
discipline the lock imposes: the calls between lock and unlock are exactly
the holders of their records' mutexes, and what a call has read of its record
and still relies on is true of it. `Locked.slotEvolves_run` is what holds of a
record whoever steps: its status never moves backwards.
-/

open CLib Interleave

namespace GreenFinal

/-- The two ways out of the lock. -/
inductive Exit where
  /-- On the check under the lock. -/
  | rejected
  /-- With a credit. -/
  | collected
  deriving DecidableEq

/-- Where a call is in the code. -/
inductive Pc where
  /-- At the check before the lock. -/
  | check
  /-- At the write of `modified_`. -/
  | mark
  /-- At the lock. -/
  | lock
  /-- Under the lock, at the second check. -/
  | recheck
  /-- At the credit of the user's total. -/
  | credit
  /-- At the write of the energy; `n` is what has just been credited. -/
  | debit (n : UInt32)
  /-- At the write of the status. -/
  | close
  /-- At the unlock. -/
  | unlock (e : Exit)
  /-- Returned on the check before the lock. -/
  | skipped
  /-- Returned from under the lock. -/
  | returned (e : Exit)
  deriving DecidableEq

namespace Pc

/-- Between the lock and the unlock. -/
def inside : Pc → Bool
  | .recheck | .credit | .debit _ | .close | .unlock _ => true
  | _ => false

/-- Past the write of `modified_`. -/
def marked : Pc → Bool
  | .check | .mark | .skipped => false
  | _ => true

/-- Returned. -/
def ended : Pc → Bool
  | .skipped | .returned _ => true
  | _ => false

/-- Credited and not yet debited. -/
def pending : Pc → ℕ
  | .debit n => n.toNat
  | _ => 0

end Pc

/-- The state the calls share, and where each of them is. -/
structure Shared (ι : Type*) where
  /-- The memory image. -/
  mem : Mem
  /-- The holder of each record's mutex. -/
  mutex : RecordId → Option ι
  /-- Where each call is. -/
  pc : ι → Pc

/-- What the ledger sees of a step. -/
inductive Event (ι : Type*) where
  /-- A user's total was credited. -/
  | credit (i : ι) (k : Credit)
  /-- A record was debited. -/
  | debit (i : ι) (id : RecordId) (amount : UInt32)

variable {ι : Type*} [DecidableEq ι]

namespace Shared

/-- The state in which no call has started. -/
def start (m : Mem) : Shared ι := ⟨m, fun _ => none, fun _ => .check⟩

/-- The call `i` moves on to `pc`. -/
def goto (s : Shared ι) (i : ι) (pc : Pc) : Shared ι :=
  { s with pc := Function.update s.pc i pc }

/-- A record is written back into its slot. -/
def setRecord (s : Shared ι) (id : RecordId) (r : MemToCollect) : Shared ι :=
  { s with mem := s.mem.setRecord id r }

/-- A user's total is credited. -/
def credit (s : Shared ι) (u : CString) (n : UInt32) : Shared ι :=
  { s with mem := s.mem.credit u n }

/-- A mutex changes hands. -/
def setMutex (s : Shared ι) (id : RecordId) (o : Option ι) : Shared ι :=
  { s with mutex := Function.update s.mutex id o }

/-- The record in a slot. -/
abbrev slot (s : Shared ι) (id : RecordId) : Option MemToCollect := s.mem.memToCollects id

end Shared

/-- **One atomic step of the call `i`**, with what the ledger sees of it. -/
def microStep (call : ι → Call) (i : ι) (s : Shared ι) :
    Option (Shared ι × List (Event ι)) :=
  let q := (call i).request
  match s.pc i with
  | .check =>
    some (s.goto i (if returnsUnlocked (s.slot q.id) then .skipped else .mark), [])
  | .mark => (s.slot q.id).map fun r => ((s.setRecord q.id r.mark).goto i .lock, [])
  | .lock =>
    if s.mutex q.id = none then some ((s.setMutex q.id (some i)).goto i .recheck, [])
    else none
  | .recheck =>
    (s.slot q.id).map fun r =>
      (s.goto i (if r.rejects q.userId then .unlock .rejected else .credit), [])
  | .credit =>
    (s.slot q.id).map fun r =>
      ((s.credit q.userId (r.amount q.userId)).goto i (.debit (r.amount q.userId)),
        [.credit i ⟨q.id, q.userId, r.amount q.userId⟩])
  | .debit n =>
    (s.slot q.id).map fun r =>
      ((s.setRecord q.id (r.debit q.userId n)).goto i .close, [.debit i q.id n])
  | .close =>
    (s.slot q.id).map fun r =>
      ((s.setRecord q.id (r.close q.userId)).goto i (.unlock .collected), [])
  | .unlock e => some ((s.setMutex q.id none).goto i (.returned e), [])
  | .skipped | .returned _ => none

/-- The runs of a family of calls from a loaded memory image. -/
abbrev CallRun (call : ι → Call) (m : Mem) (tr : List (Event ι)) (s : Shared ι) : Prop :=
  Run (microStep call) (Shared.start m) tr s

/-- **What a step of the call `i` does**, by the place it starts from. -/
inductive StepOf (call : ι → Call) (i : ι) (s : Shared ι) :
    Shared ι → List (Event ι) → Prop
  | returns (hpc : s.pc i = .check)
      (h : returnsUnlocked (s.slot (call i).request.id) = true) :
      StepOf call i s (s.goto i .skipped) []
  | checks (hpc : s.pc i = .check) (r : MemToCollect)
      (hr : s.slot (call i).request.id = some r) (h : r.status ≠ .allCollected) :
      StepOf call i s (s.goto i .mark) []
  | marks (hpc : s.pc i = .mark) (r : MemToCollect)
      (hr : s.slot (call i).request.id = some r) :
      StepOf call i s ((s.setRecord (call i).request.id r.mark).goto i .lock) []
  | locks (hpc : s.pc i = .lock) (h : s.mutex (call i).request.id = none) :
      StepOf call i s ((s.setMutex (call i).request.id (some i)).goto i .recheck) []
  | rejects (hpc : s.pc i = .recheck) (r : MemToCollect)
      (hr : s.slot (call i).request.id = some r)
      (h : r.rejects (call i).request.userId = true) :
      StepOf call i s (s.goto i (.unlock .rejected)) []
  | accepts (hpc : s.pc i = .recheck) (r : MemToCollect)
      (hr : s.slot (call i).request.id = some r)
      (h : r.rejects (call i).request.userId = false) :
      StepOf call i s (s.goto i .credit) []
  | credits (hpc : s.pc i = .credit) (r : MemToCollect)
      (hr : s.slot (call i).request.id = some r) :
      StepOf call i s
        ((s.credit (call i).request.userId (r.amount (call i).request.userId)).goto i
          (.debit (r.amount (call i).request.userId)))
        [.credit i ⟨(call i).request.id, (call i).request.userId,
          r.amount (call i).request.userId⟩]
  | debits (n : UInt32) (hpc : s.pc i = .debit n) (r : MemToCollect)
      (hr : s.slot (call i).request.id = some r) :
      StepOf call i s
        ((s.setRecord (call i).request.id (r.debit (call i).request.userId n)).goto i .close)
        [.debit i (call i).request.id n]
  | closes (hpc : s.pc i = .close) (r : MemToCollect)
      (hr : s.slot (call i).request.id = some r) :
      StepOf call i s
        ((s.setRecord (call i).request.id (r.close (call i).request.userId)).goto i
          (.unlock .collected)) []
  | unlocks (e : Exit) (hpc : s.pc i = .unlock e) :
      StepOf call i s ((s.setMutex (call i).request.id none).goto i (.returned e)) []

/-- A step does one of these things. -/
theorem stepOf_of_microStep {call : ι → Call} {i : ι} {s s' : Shared ι}
    {es : List (Event ι)} (h : microStep call i s = some (s', es)) :
    StepOf call i s s' es := by
  unfold microStep at h
  cases hpc : s.pc i with
  | check =>
    rw [hpc] at h
    obtain ⟨rfl, rfl⟩ := Prod.mk.inj (Option.some.inj h)
    cases hu : returnsUnlocked (s.slot (call i).request.id) with
    | true => exact .returns hpc hu
    | false =>
      cases hr : s.slot (call i).request.id with
      | none =>
        rw [hr] at hu
        cases hu
      | some r =>
        rw [hr] at hu
        exact .checks hpc r hr (of_decide_eq_false hu)
  | mark =>
    rw [hpc] at h
    obtain ⟨r, hr, heq⟩ := Option.map_eq_some_iff.mp h
    obtain ⟨rfl, rfl⟩ := Prod.mk.inj heq
    exact .marks hpc r hr
  | lock =>
    rw [hpc] at h
    by_cases hm : s.mutex (call i).request.id = none
    · obtain ⟨rfl, rfl⟩ := Prod.mk.inj (Option.some.inj ((if_pos hm).symm.trans h))
      exact .locks hpc hm
    · exact absurd ((if_neg hm).symm.trans h) (by simp)
  | recheck =>
    rw [hpc] at h
    obtain ⟨r, hr, heq⟩ := Option.map_eq_some_iff.mp h
    obtain ⟨rfl, rfl⟩ := Prod.mk.inj heq
    cases hrej : r.rejects (call i).request.userId with
    | true => exact .rejects hpc r hr hrej
    | false => exact .accepts hpc r hr hrej
  | credit =>
    rw [hpc] at h
    obtain ⟨r, hr, heq⟩ := Option.map_eq_some_iff.mp h
    obtain ⟨rfl, rfl⟩ := Prod.mk.inj heq
    exact .credits hpc r hr
  | debit n =>
    rw [hpc] at h
    obtain ⟨r, hr, heq⟩ := Option.map_eq_some_iff.mp h
    obtain ⟨rfl, rfl⟩ := Prod.mk.inj heq
    exact .debits n hpc r hr
  | close =>
    rw [hpc] at h
    obtain ⟨r, hr, heq⟩ := Option.map_eq_some_iff.mp h
    obtain ⟨rfl, rfl⟩ := Prod.mk.inj heq
    exact .closes hpc r hr
  | unlock e =>
    rw [hpc] at h
    obtain ⟨rfl, rfl⟩ := Prod.mk.inj (Option.some.inj h)
    exact .unlocks e hpc
  | skipped =>
    rw [hpc] at h
    cases h
  | returned e =>
    rw [hpc] at h
    cases h

/-! ## What a step leaves alone -/

@[simp] theorem Shared.pc_goto_self (s : Shared ι) (i : ι) (pc : Pc) :
    (s.goto i pc).pc i = pc := Function.update_self ..

@[simp] theorem Shared.slot_setRecord_goto (s : Shared ι) (i : ι) (pc : Pc)
    (id : RecordId) (r : MemToCollect) :
    ((s.setRecord id r).goto i pc).slot id = some r := Function.update_self ..

namespace StepOf

variable {call : ι → Call} {i : ι} {s s' : Shared ι} {es : List (Event ι)}

/-- Only the call that steps moves. -/
theorem pc_of_ne (h : StepOf call i s s' es) {j : ι} (hj : j ≠ i) : s'.pc j = s.pc j := by
  cases h <;> exact Function.update_of_ne hj ..

/-- A step touches the record its call asks for, and no other. -/
theorem slot_of_ne (h : StepOf call i s s' es) {id : RecordId}
    (hid : id ≠ (call i).request.id) : s'.slot id = s.slot id := by
  cases h with
  | marks | debits | closes => exact Function.update_of_ne hid ..
  | _ => rfl

/-- A step touches the mutex of the record its call asks for, and no other. -/
theorem mutex_of_ne (h : StepOf call i s s' es) {id : RecordId}
    (hid : id ≠ (call i).request.id) : s'.mutex id = s.mutex id := by
  cases h with
  | locks | unlocks => exact Function.update_of_ne hid ..
  | _ => rfl

/-- Outside the lock a call does no more to its record than to mark it. -/
theorem slot_of_outside (h : StepOf call i s s' es) (hi : (s.pc i).inside = false)
    (id : RecordId) :
    s'.slot id = s.slot id ∨ s'.slot id = (s.slot id).map MemToCollect.mark := by
  cases h with
  | marks hpc r hr =>
    by_cases hid : id = (call i).request.id
    · subst hid
      refine Or.inr ?_
      rw [hr]
      exact Function.update_self ..
    · exact Or.inl (Function.update_of_ne hid ..)
  | debits n hpc | closes hpc =>
    rw [hpc] at hi
    cases hi
  | _ => exact Or.inl rfl

end StepOf

/-! ## How a record can change -/

/-- **The changes a record goes through**: its owner stays, a mark stays, and
its status never moves backwards. -/
structure MemToCollect.Evolves (r r' : MemToCollect) : Prop where
  /-- The owner stays. -/
  userId : r'.userId = r.userId
  /-- A mark stays. -/
  modified : r.modified = true → r'.modified = true
  /-- The status does not move backwards. -/
  status : r.status.toNat ≤ r'.status.toNat

theorem MemToCollect.Evolves.refl (r : MemToCollect) : r.Evolves r := ⟨rfl, id, le_rfl⟩

theorem MemToCollect.Evolves.trans {r r' r'' : MemToCollect} (h : r.Evolves r')
    (h' : r'.Evolves r'') : r.Evolves r'' :=
  ⟨h'.userId.trans h.userId, fun hm => h'.modified (h.modified hm),
    h.status.trans h'.status⟩

theorem MemToCollect.evolves_mark (r : MemToCollect) : r.Evolves r.mark :=
  ⟨rfl, fun _ => rfl, le_rfl⟩

theorem MemToCollect.evolves_close {r : MemToCollect} (h : r.status ≠ .allCollected)
    (u : CString) : r.Evolves (r.close u) := by
  refine ⟨rfl, id, ?_⟩
  show r.status.toNat ≤ (if r.userId = u then Status.allCollected
    else .collectedByOther).toNat
  cases hs : r.status with
  | allCollected => exact absurd hs h
  | empty => exact Nat.zero_le _
  | collectedByOther => split <;> decide

/-- Nothing comes after `ALL_COLLECTED`. -/
theorem MemToCollect.Evolves.allCollected {r r' : MemToCollect} (h : r.Evolves r')
    (hr : r.status = .allCollected) : r'.status = .allCollected := by
  have := h.status
  rw [hr] at this
  cases hs : r'.status with
  | allCollected => rfl
  | empty | collectedByOther =>
    rw [hs] at this
    exact absurd this (by decide)

/-- The same for a slot: it keeps its record, or stays null. -/
abbrev SlotEvolves : Option MemToCollect → Option MemToCollect → Prop :=
  Option.Rel MemToCollect.Evolves

theorem SlotEvolves.refl (slot : Option MemToCollect) : SlotEvolves slot slot := by
  cases slot with
  | none => exact .none
  | some r => exact .some (MemToCollect.Evolves.refl r)

theorem SlotEvolves.trans {a b c : Option MemToCollect} (h : SlotEvolves a b)
    (h' : SlotEvolves b c) : SlotEvolves a c := by
  cases h with
  | none => exact h'
  | some h =>
    cases h' with
    | some h' => exact .some (h.trans h')

theorem SlotEvolves.exists_right {a b : Option MemToCollect} (h : SlotEvolves a b)
    {r : MemToCollect} (ha : a = some r) : ∃ r', b = some r' ∧ r.Evolves r' := by
  subst ha
  cases h with
  | some h => exact ⟨_, rfl, h⟩

theorem SlotEvolves.exists_left {a b : Option MemToCollect} (h : SlotEvolves a b)
    {r' : MemToCollect} (hb : b = some r') : ∃ r, a = some r ∧ r.Evolves r' := by
  subst hb
  cases h with
  | some h => exact ⟨_, rfl, h⟩

theorem SlotEvolves.eq_none {a b : Option MemToCollect} (h : SlotEvolves a b)
    (ha : a = none) : b = none := by
  subst ha
  cases h
  rfl

theorem SlotEvolves.returnsUnlocked {a b : Option MemToCollect} (h : SlotEvolves a b)
    (ha : returnsUnlocked a = true) : returnsUnlocked b = true := by
  cases h with
  | none => rfl
  | some h => exact decide_eq_true (h.allCollected (of_decide_eq_true ha))

/-! ## The discipline of the lock -/

/-- **What a call knows of its record**, from what it has read and done. -/
def Pc.Knows (u : CString) (slot : Option MemToCollect) : Pc → Prop
  | .check => True
  | .mark => ∃ r, slot = some r
  | .skipped => returnsUnlocked slot = true
  | .credit => ∃ r, slot = some r ∧ r.modified = true ∧ r.rejects u = false
  | .debit n => ∃ r, slot = some r ∧ r.modified = true ∧ r.rejects u = false
      ∧ n = r.amount u
  | .close => ∃ r, slot = some r ∧ r.modified = true ∧ r.status ≠ .allCollected
  | .lock | .recheck | .unlock _ | .returned _ =>
      ∃ r, slot = some r ∧ r.modified = true

/-- What a call knows outside the lock stays true, whatever the others do. -/
theorem Pc.Knows.evolve {u : CString} {a b : Option MemToCollect} {pc : Pc}
    (h : pc.Knows u a) (hpc : pc.inside = false) (hab : SlotEvolves a b) :
    pc.Knows u b := by
  cases pc with
  | check => trivial
  | mark =>
    obtain ⟨r, rfl⟩ := h
    cases hab with
    | some => exact ⟨_, rfl⟩
  | skipped => exact hab.returnsUnlocked h
  | lock | returned =>
    obtain ⟨r, rfl, hm⟩ := h
    cases hab with
    | some hr => exact ⟨_, rfl, hr.modified hm⟩
  | recheck | credit | debit | close | unlock => cases hpc

/-- What a call knows survives a mark. -/
theorem Pc.Knows.mark {u : CString} {slot : Option MemToCollect} {pc : Pc}
    (h : pc.Knows u slot) : pc.Knows u (slot.map MemToCollect.mark) := by
  cases pc with
  | check => trivial
  | mark =>
    obtain ⟨r, rfl⟩ := h
    exact ⟨r.mark, rfl⟩
  | skipped => cases slot <;> exact h
  | lock | recheck | unlock | returned =>
    obtain ⟨r, rfl, -⟩ := h
    exact ⟨r.mark, rfl, rfl⟩
  | credit | debit | close =>
    obtain ⟨r, rfl, -, h⟩ := h
    exact ⟨r.mark, rfl, rfl, h⟩

/-- **The discipline the lock imposes.** -/
structure Locked (call : ι → Call) (s : Shared ι) : Prop where
  /-- The calls between lock and unlock hold the mutexes of their records. -/
  mutex_iff : ∀ id i, s.mutex id = some i
    ↔ (s.pc i).inside = true ∧ (call i).request.id = id
  /-- What the calls know of their records is true. -/
  knows : ∀ i, (s.pc i).Knows (call i).request.userId (s.slot (call i).request.id)

namespace Locked

variable {call : ι → Call} {i j : ι} {s s' : Shared ι} {es : List (Event ι)}

omit [DecidableEq ι] in
theorem start (call : ι → Call) (m : Mem) : Locked call (Shared.start m) :=
  ⟨fun _ _ => ⟨fun h => absurd h.symm (Option.some_ne_none _),
      fun h => absurd h.1 Bool.false_ne_true⟩,
    fun _ => trivial⟩

omit [DecidableEq ι] in
/-- **Mutual exclusion**: two calls inside are at different records. -/
theorem eq_of_inside (hL : Locked call s) (hi : (s.pc i).inside = true)
    (hj : (s.pc j).inside = true) (h : (call i).request.id = (call j).request.id) :
    i = j :=
  Option.some.inj (((hL.mutex_iff _ i).mpr ⟨hi, h⟩).symm.trans
    ((hL.mutex_iff _ j).mpr ⟨hj, rfl⟩))

/-- Every step lets the records evolve. -/
theorem slotEvolves (hL : Locked call s) (h : StepOf call i s s' es) (id : RecordId) :
    SlotEvolves (s.slot id) (s'.slot id) := by
  by_cases hid : id = (call i).request.id
  · subst hid
    have hk := hL.knows i
    cases h with
    | marks hpc r hr =>
      rw [hr, Shared.slot_setRecord_goto]
      exact .some r.evolves_mark
    | debits n hpc r hr =>
      rw [hr, Shared.slot_setRecord_goto]
      exact .some ⟨rfl, fun hm => hm, le_rfl⟩
    | closes hpc r hr =>
      rw [hpc] at hk
      obtain ⟨r', hr', -, hs⟩ := hk
      obtain rfl : r = r' := Option.some.inj (hr.symm.trans hr')
      rw [hr, Shared.slot_setRecord_goto]
      exact .some (MemToCollect.evolves_close hs _)
    | _ => exact SlotEvolves.refl _
  · rw [h.slot_of_ne hid]
    exact SlotEvolves.refl _

/-- A step that stays on its side of the lock keeps the holders. -/
theorem mutex_iff_update (hL : Locked call s) {pc : Pc}
    (hpc : pc.inside = (s.pc i).inside) (id : RecordId) (j : ι) :
    s.mutex id = some j
      ↔ (Function.update s.pc i pc j).inside = true ∧ (call j).request.id = id := by
  rw [hL.mutex_iff]
  by_cases hj : j = i
  · subst hj
    rw [Function.update_self, hpc]
  · rw [Function.update_of_ne hj]

/-- The holders after a step. -/
theorem mutex_iff_step (hL : Locked call s) (h : StepOf call i s s' es)
    (id : RecordId) (j : ι) :
    s'.mutex id = some j ↔ (s'.pc j).inside = true ∧ (call j).request.id = id := by
  cases h with
  | locks hpc hfree =>
    show Function.update s.mutex (call i).request.id (some i) id = some j
      ↔ (Function.update s.pc i .recheck j).inside = true ∧ _
    by_cases hj : j = i
    · subst hj
      rw [Function.update_self]
      by_cases hid : id = (call j).request.id
      · rw [hid, Function.update_self]
        exact ⟨fun _ => ⟨rfl, rfl⟩, fun _ => rfl⟩
      · have hout : (s.pc j).inside = false := by rw [hpc]; rfl
        rw [Function.update_of_ne hid, hL.mutex_iff, hout]
        exact ⟨fun h => absurd h.1 Bool.false_ne_true, fun h => absurd h.2.symm hid⟩
    · rw [Function.update_of_ne hj]
      by_cases hid : id = (call i).request.id
      · subst hid
        rw [Function.update_self, ← hL.mutex_iff, hfree]
        simp [Ne.symm hj]
      · rw [Function.update_of_ne hid]
        exact hL.mutex_iff id j
  | unlocks e hpc =>
    have hin : (s.pc i).inside = true := by rw [hpc]; rfl
    show Function.update s.mutex (call i).request.id none id = some j
      ↔ (Function.update s.pc i (.returned e) j).inside = true ∧ _
    by_cases hj : j = i
    · subst hj
      rw [Function.update_self]
      by_cases hid : id = (call j).request.id
      · rw [hid, Function.update_self]
        exact ⟨fun h => absurd h.symm (Option.some_ne_none _),
          fun h => absurd h.1 Bool.false_ne_true⟩
      · rw [Function.update_of_ne hid, hL.mutex_iff]
        exact ⟨fun h => absurd h.2.symm hid, fun h => absurd h.1 Bool.false_ne_true⟩
    · rw [Function.update_of_ne hj]
      by_cases hid : id = (call i).request.id
      · subst hid
        rw [Function.update_self]
        constructor
        · exact fun h => absurd h.symm (Option.some_ne_none _)
        -- two calls inside with the same record would be one
        · exact fun h => absurd (hL.eq_of_inside h.1 hin h.2) hj
      · rw [Function.update_of_ne hid]
        exact hL.mutex_iff id j
  | returns hpc | checks hpc | marks hpc | rejects hpc | accepts hpc | credits hpc
  | debits _ hpc | closes hpc =>
    exact hL.mutex_iff_update (by rw [hpc]; rfl) id j

/-- What the call that steps knows afterwards. -/
theorem knows_step_self (hL : Locked call s) (h : StepOf call i s s' es) :
    (s'.pc i).Knows (call i).request.userId (s'.slot (call i).request.id) := by
  have hk := hL.knows i
  cases h with
  | returns hpc h =>
    rw [Shared.pc_goto_self]
    exact h
  | checks hpc r hr =>
    rw [Shared.pc_goto_self]
    exact ⟨r, hr⟩
  | marks hpc r hr =>
    rw [Shared.pc_goto_self]
    exact ⟨r.mark, Function.update_self .., rfl⟩
  | locks hpc =>
    rw [hpc] at hk
    rw [Shared.pc_goto_self]
    exact hk
  | rejects hpc r hr =>
    rw [hpc] at hk
    rw [Shared.pc_goto_self]
    exact hk
  | accepts hpc r hr h =>
    rw [hpc] at hk
    obtain ⟨r', hr', hm⟩ := hk
    obtain rfl : r = r' := Option.some.inj (hr.symm.trans hr')
    rw [Shared.pc_goto_self]
    exact ⟨r, hr, hm, h⟩
  | credits hpc r hr =>
    rw [hpc] at hk
    obtain ⟨r', hr', hm, hacc⟩ := hk
    obtain rfl : r = r' := Option.some.inj (hr.symm.trans hr')
    rw [Shared.pc_goto_self]
    exact ⟨r, hr, hm, hacc, rfl⟩
  | debits n hpc r hr =>
    rw [hpc] at hk
    obtain ⟨r', hr', hm, hacc, -⟩ := hk
    obtain rfl : r = r' := Option.some.inj (hr.symm.trans hr')
    rw [Shared.pc_goto_self]
    exact ⟨_, Function.update_self .., hm, (MemToCollect.rejects_eq_false_iff.mp hacc).1⟩
  | closes hpc r hr =>
    rw [hpc] at hk
    obtain ⟨r', hr', hm, -⟩ := hk
    obtain rfl : r = r' := Option.some.inj (hr.symm.trans hr')
    rw [Shared.pc_goto_self]
    exact ⟨_, Function.update_self .., hm⟩
  | unlocks e hpc =>
    rw [hpc] at hk
    rw [Shared.pc_goto_self]
    exact hk

/-- **Every step keeps the discipline.** A call outside the lock can only mark
the record of a holder; a holder is the only one inside, and what the others
know does not depend on what it writes. -/
theorem step (hL : Locked call s) (h : StepOf call i s s' es) : Locked call s' := by
  refine ⟨hL.mutex_iff_step h, fun j => ?_⟩
  by_cases hj : j = i
  · subst hj
    exact hL.knows_step_self h
  · have hk := hL.knows j
    rw [h.pc_of_ne hj]
    cases hin : (s.pc j).inside with
    | false => exact hk.evolve hin (hL.slotEvolves h _)
    | true =>
      cases hi : (s.pc i).inside with
      | false =>
        rcases h.slot_of_outside hi (call j).request.id with hs | hs
        · rw [hs]
          exact hk
        · rw [hs]
          exact hk.mark
      | true =>
        rw [h.slot_of_ne (fun hid => hj (hL.eq_of_inside hin hi hid))]
        exact hk

end Locked

/-- Every reachable state keeps the discipline of the lock. -/
theorem CallRun.locked {call : ι → Call} {m : Mem} {tr : List (Event ι)} {s : Shared ι}
    (h : CallRun call m tr s) : Locked call s :=
  Run.invariant (I := fun _ s => Locked call s) (Locked.start call m)
    (fun _ _ _ _ _ _ hL hs => hL.step (stepOf_of_microStep hs)) h

/-- **Along a run the records evolve.** -/
theorem Locked.slotEvolves_run {call : ι → Call} {s s' : Shared ι} (hL : Locked call s)
    {tr : List (Event ι)} (h : Run (microStep call) s tr s') (id : RecordId) :
    SlotEvolves (s.slot id) (s'.slot id) :=
  (Run.invariant (I := fun _ s' => Locked call s' ∧ SlotEvolves (s.slot id) (s'.slot id))
    ⟨hL, SlotEvolves.refl _⟩
    (fun _ _ _ _ _ _ ⟨hL, he⟩ hs =>
      ⟨hL.step (stepOf_of_microStep hs),
        he.trans (hL.slotEvolves (stepOf_of_microStep hs) id)⟩) h).2

end GreenFinal
