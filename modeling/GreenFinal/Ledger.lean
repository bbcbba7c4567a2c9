import GreenFinal.Linearization
import GreenFinal.Tables

/-!
# The energy ledger

Energy moves from records to totals and is neither made nor lost. For one
call at a time this is plain: what a record loses its user gains, so the sum
over everything in memory stays (`energy_collectEnergy`), and since no part
exceeds the sum, no addition can wrap once the loaded sum fits.

Between the steps of concurrent calls the books are off by what is under way:
the credit comes before the debit. `energy_ledger` says by how much. A user's
total is what was loaded plus the user's credits, a record is what was loaded
less its debits, and the two sides together exceed the loaded sum by the
amounts credited and not yet debited, one for each call between those two
steps.
-/

open CLib Interleave

namespace GreenFinal

/-! ## One call at a time -/

/-- The sum of the amounts of a ledger. -/
def creditTotal (cs : List Credit) : ℕ := (cs.map fun c => c.amount.toNat).sum

theorem creditTotal_append (cs cs' : List Credit) :
    creditTotal (cs ++ cs') = creditTotal cs + creditTotal cs' := by
  rw [creditTotal, List.map_append, List.sum_append]
  rfl

/-- The amount a request is credited, if any. -/
def creditAmount (q : Request) (m : Mem) : ℕ := (creditOf q m).elim 0 UInt32.toNat

theorem creditTotal_credits_cons (q : Request) (qs : List Request) (m : Mem) :
    creditTotal (credits (q :: qs) m)
      = creditAmount q m + creditTotal (credits qs (collectEnergy q m)) := by
  rw [credits, creditTotal_append, creditAmount]
  cases creditOf q m with
  | none => rfl
  | some n => rfl

/-- The record's side of a call, for every slot. -/
theorem slotEnergy_collectEnergy (q : Request) (m : Mem) (id : RecordId) :
    (collectEnergy q m).slotEnergy id + (if id = q.id then creditAmount q m else 0)
      = m.slotEnergy id := by
  rw [Mem.slotEnergy, memToCollects_collectEnergy]
  by_cases hid : id = q.id
  · subst hid
    rw [Function.update_self, if_pos rfl, creditAmount, creditOf, Mem.slotEnergy]
    cases m.memToCollects q.id with
    | none => rfl
    | some r => exact r.toNat_next_add_credit q.userId
  · rw [Function.update_of_ne hid, if_neg hid]
    rfl

/-- **The records lose what is credited.** -/
theorem recordEnergy_collectEnergy (q : Request) (m : Mem) :
    (collectEnergy q m).recordEnergy + creditAmount q m = m.recordEnergy := by
  have hsum : ∑ id, ((collectEnergy q m).slotEnergy id
      + (if id = q.id then creditAmount q m else 0)) = ∑ id, m.slotEnergy id :=
    Finset.sum_congr rfl (fun id _ => slotEnergy_collectEnergy q m id)
  rw [Finset.sum_add_distrib, Finset.sum_ite_eq' Finset.univ q.id,
    if_pos (Finset.mem_univ q.id)] at hsum
  exact hsum

theorem creditAmount_le (q : Request) (m : Mem) : creditAmount q m ≤ m.recordEnergy := by
  rw [← recordEnergy_collectEnergy q m]
  exact Nat.le_add_left _ _

/-- A user's total after a call in which nothing wraps. -/
theorem val_collectEnergy_of_lt {m : Mem} (hm : m.energy < 2 ^ 32) (q : Request)
    (u : CString) :
    ((collectEnergy q m).memTotalEnergyMap.val u).toNat
      = (m.memTotalEnergyMap.val u).toNat + if q.userId = u then creditAmount q m else 0 := by
  have hle := creditAmount_le q m
  have hval := m.memTotalEnergyMap.val_le_energy q.userId
  unfold Mem.energy at hm
  rw [memTotalEnergyMap_collectEnergy]
  unfold creditAmount at hle ⊢
  cases hc : creditOf q m with
  | none =>
    show _ = _ + if _ then 0 else 0
    rw [ite_self]
    rfl
  | some n =>
    rw [hc] at hle
    change n.toNat ≤ _ at hle
    show ((m.memTotalEnergyMap.add q.userId n).val u).toNat
      = _ + if q.userId = u then n.toNat else 0
    by_cases hu : q.userId = u
    · subst hu
      rw [TotalEnergyMap.val_add_self, UInt32.toNat_add, if_pos rfl,
        Nat.mod_eq_of_lt (by omega)]
    · rw [TotalEnergyMap.val_add_of_ne _ _ (Ne.symm hu), if_neg hu]
      rfl

/-- **A call conserves the energy in memory.** -/
theorem energy_collectEnergy {m : Mem} (hm : m.energy < 2 ^ 32) (q : Request) :
    (collectEnergy q m).energy = m.energy := by
  have hrec := recordEnergy_collectEnergy q m
  have hle := creditAmount_le q m
  have hval := m.memTotalEnergyMap.val_le_energy q.userId
  have htot : (collectEnergy q m).memTotalEnergyMap.energy
      = m.memTotalEnergyMap.energy + creditAmount q m := by
    unfold Mem.energy at hm
    rw [memTotalEnergyMap_collectEnergy]
    unfold creditAmount at hle ⊢
    cases hc : creditOf q m with
    | none => rfl
    | some n =>
      rw [hc] at hle
      change n.toNat ≤ _ at hle
      exact TotalEnergyMap.energy_add_of_lt (by omega)
  unfold Mem.energy
  omega

/-- Calls one after another conserve the energy in memory. -/
theorem energy_collectAll {m : Mem} (hm : m.energy < 2 ^ 32) (qs : List Request) :
    (collectAll m qs).energy = m.energy := by
  induction qs generalizing m with
  | nil => rfl
  | cons q qs ih =>
    rw [collectAll_cons, ih (by rw [energy_collectEnergy hm]; exact hm),
      energy_collectEnergy hm]

/-- The records lose what is credited, over any sequence of calls. -/
theorem recordEnergy_collectAll (m : Mem) (qs : List Request) :
    (collectAll m qs).recordEnergy + creditTotal (credits qs m) = m.recordEnergy := by
  induction qs generalizing m with
  | nil => exact Nat.add_zero _
  | cons q qs ih =>
    rw [collectAll_cons, creditTotal_credits_cons, Nat.add_comm (creditAmount q m),
      ← Nat.add_assoc, ih, recordEnergy_collectEnergy]

/-- **Where everything fits, a user's total is exactly what was there and what
was credited.** -/
theorem val_collectAll_of_lt {m : Mem} (hm : m.energy < 2 ^ 32) (qs : List Request)
    (u : CString) :
    ((collectAll m qs).memTotalEnergyMap.val u).toNat
      = (m.memTotalEnergyMap.val u).toNat + creditedTo u (credits qs m) := by
  induction qs generalizing m with
  | nil => rfl
  | cons q qs ih =>
    have hcred : creditedTo u (credits (q :: qs) m)
        = (if q.userId = u then creditAmount q m else 0)
          + creditedTo u (credits qs (collectEnergy q m)) := by
      rw [credits, creditAmount]
      cases creditOf q m with
      | none =>
        show _ = (if _ then 0 else 0) + _
        rw [ite_self, Nat.zero_add]
        rfl
      | some n =>
        by_cases hu : q.userId = u <;> simp [creditedTo, hu]
    rw [collectAll_cons, ih (by rw [energy_collectEnergy hm]; exact hm),
      val_collectEnergy_of_lt hm, hcred, Nat.add_assoc]

/-- The totals gain what is credited, modulo `2^32`. -/
theorem energy_totals_collectAll (m : Mem) (qs : List Request) :
    (collectAll m qs).memTotalEnergyMap.energy
      ≡ m.memTotalEnergyMap.energy + creditTotal (credits qs m) [MOD 2 ^ 32] := by
  induction qs generalizing m with
  | nil => rfl
  | cons q qs ih =>
    rw [collectAll_cons, creditTotal_credits_cons]
    refine (ih (collectEnergy q m)).trans ?_
    rw [← Nat.add_assoc]
    refine Nat.ModEq.add_right _ ?_
    rw [memTotalEnergyMap_collectEnergy, creditAmount]
    cases creditOf q m with
    | none => rfl
    | some n => exact TotalEnergyMap.energy_add_modEq _ _ _

/-! ## Calls against each other -/

/-- What a trace has debited from a record. -/
def debitedFrom {ι : Type*} (id : RecordId) (tr : List (Event ι)) : ℕ :=
  (tr.map fun e => match e with
    | .debit _ id' n => if id' = id then n.toNat else 0
    | .credit .. => 0).sum

/-- What a trace has debited in all. -/
def debitTotal {ι : Type*} (tr : List (Event ι)) : ℕ :=
  (tr.map fun e => match e with
    | .debit _ _ n => n.toNat
    | .credit .. => 0).sum

theorem debitedFrom_append {ι : Type*} (id : RecordId) (tr es : List (Event ι)) :
    debitedFrom id (tr ++ es) = debitedFrom id tr + debitedFrom id es := by
  rw [debitedFrom, List.map_append, List.sum_append]
  rfl

theorem debitTotal_append {ι : Type*} (tr es : List (Event ι)) :
    debitTotal (tr ++ es) = debitTotal tr + debitTotal es := by
  rw [debitTotal, List.map_append, List.sum_append]
  rfl

/-- What is debited in all is debited from the records. -/
theorem sum_debitedFrom {ι : Type*} (tr : List (Event ι)) :
    ∑ id, debitedFrom id tr = debitTotal tr := by
  induction tr with
  | nil => exact Finset.sum_const_zero
  | cons e tr ih =>
    have hone : ∑ id, debitedFrom id [e] = debitTotal [e] := by
      cases e with
      | credit => exact Finset.sum_const_zero
      | debit i id' n =>
        have : ∀ id, debitedFrom id [Event.debit i id' n] = if id' = id then n.toNat else 0 :=
          fun _ => Nat.add_zero _
        rw [Finset.sum_congr rfl (fun id _ => this id), Finset.sum_ite_eq,
          if_pos (Finset.mem_univ id')]
        exact (Nat.add_zero _).symm
    have happ : ∀ id, debitedFrom id (e :: tr) = debitedFrom id [e] + debitedFrom id tr :=
      fun id => debitedFrom_append id [e] tr
    rw [Finset.sum_congr rfl (fun id _ => happ id), Finset.sum_add_distrib, hone, ih]
    exact (debitTotal_append [e] tr).symm

variable {ι : Type*} [DecidableEq ι] {call : ι → Call} {m : Mem} {tr es : List (Event ι)}
  {s s' : Shared ι} {i : ι}

/-- **A step of the books of the records**: what a slot loses is debited. -/
theorem Locked.slotEnergy_step (hL : Locked call s) (h : StepOf call i s s' es)
    (id : RecordId) :
    s'.mem.slotEnergy id + debitedFrom id es = s.mem.slotEnergy id := by
  by_cases hid : id = (call i).request.id
  · subst hid
    have hk := hL.knows i
    cases h with
    | marks hpc r hr =>
      rw [Mem.slotEnergy_of_some hr,
        Mem.slotEnergy_of_some (s.slot_setRecord_goto i .lock _ r.mark)]
      rfl
    | closes hpc r hr =>
      rw [Mem.slotEnergy_of_some hr, Mem.slotEnergy_of_some
        (s.slot_setRecord_goto i (.unlock .collected) _ (r.close (call i).request.userId))]
      rfl
    | debits n hpc r hr =>
      -- the record is the one the amount was computed from: nobody else is inside
      rw [hpc] at hk
      obtain ⟨r', hr', -, -, rfl⟩ := hk
      obtain rfl : r = r' := Option.some.inj (hr.symm.trans hr')
      rw [Mem.slotEnergy_of_some hr, Mem.slotEnergy_of_some
        (s.slot_setRecord_goto i .close _ (r.debit (call i).request.userId _)),
        ← r.toNat_debit_amount (call i).request.userId]
      simp [debitedFrom]
    | returns | checks | locks | rejects | accepts | credits | unlocks =>
      exact Nat.add_zero _
  · have hes : debitedFrom id es = 0 := by
      cases h with
      | debits n hpc r hr => simp [debitedFrom, Ne.symm hid]
      | _ => rfl
    have hslot : s'.mem.memToCollects id = s.mem.memToCollects id := h.slot_of_ne hid
    rw [hes, Mem.slotEnergy, Mem.slotEnergy, hslot]
    rfl

/-- **A step of the books of the calls**: what is credited is debited or
pending. -/
theorem StepOf.pending_step [Fintype ι] (h : StepOf call i s s' es) :
    creditTotal (creditsOf es) + ∑ j, (s.pc j).pending
      = debitTotal es + ∑ j, (s'.pc j).pending := by
  have hsum : ∀ pc : Pc, ∑ j, (Function.update s.pc i pc j).pending + (s.pc i).pending
      = ∑ j, (s.pc j).pending + pc.pending := sum_update Pc.pending s.pc i
  cases h with
  | credits hpc r hr =>
    have h := hsum (.debit (r.amount (call i).request.userId))
    rw [hpc] at h
    show (r.amount (call i).request.userId).toNat + 0 + _
      = 0 + ∑ j, (Function.update s.pc i _ j).pending
    change _ + 0 = _ + (r.amount (call i).request.userId).toNat at h
    omega
  | debits n hpc r hr =>
    have h := hsum .close
    rw [hpc] at h
    show 0 + _ = n.toNat + 0 + ∑ j, (Function.update s.pc i _ j).pending
    change _ + n.toNat = _ + 0 at h
    omega
  | returns hpc | checks hpc | marks hpc | locks hpc | rejects hpc | accepts hpc
  | closes hpc | unlocks _ hpc =>
    have hsame : ∀ pc : Pc, pc.pending = 0 →
        ∑ j, (Function.update s.pc i pc j).pending = ∑ j, (s.pc j).pending := by
      intro pc hz
      have h := hsum pc
      rw [hpc, hz] at h
      exact h
    exact congrArg (0 + ·) (hsame _ rfl).symm

/-- In every reachable state a record is what was loaded less its debits. -/
theorem CallRun.slotEnergy (h : CallRun call m tr s) (id : RecordId) :
    s.mem.slotEnergy id + debitedFrom id tr = m.slotEnergy id := by
  refine Run.invariant (I := fun tr s => s.mem.slotEnergy id + debitedFrom id tr
    = m.slotEnergy id) (Nat.add_zero _) (fun tr s i s' es hr hI hs => ?_) h
  have hstep := (CallRun.locked hr).slotEnergy_step (stepOf_of_microStep hs) id
  rw [debitedFrom_append]
  omega

/-- In every reachable state what has been credited has been debited or is
pending. -/
theorem CallRun.pending [Fintype ι] (h : CallRun call m tr s) :
    creditTotal (creditsOf tr) = debitTotal tr + ∑ j, (s.pc j).pending := by
  refine Run.invariant (I := fun tr s => creditTotal (creditsOf tr)
    = debitTotal tr + ∑ j, (s.pc j).pending) ?_ (fun tr s i s' es _ hI hs => ?_) h
  · simp [creditTotal, creditsOf, debitTotal, Shared.start, Pc.pending]
  · have hstep := (stepOf_of_microStep hs).pending_step
    rw [creditsOf_append, creditTotal_append, debitTotal_append]
    omega

/-- The records are what was loaded less all debits. -/
theorem CallRun.recordEnergy (h : CallRun call m tr s) :
    s.mem.recordEnergy + debitTotal tr = m.recordEnergy := by
  have hsum : ∑ id, (s.mem.slotEnergy id + debitedFrom id tr) = ∑ id, m.slotEnergy id :=
    Finset.sum_congr rfl (fun id _ => h.slotEnergy id)
  rw [Finset.sum_add_distrib, sum_debitedFrom] at hsum
  exact hsum

/-- **The books in exact integers**: no sum wraps, and the casts to `int` in the
two UPDATE statements keep every value. -/
structure ExactLedger [Fintype ι] (call : ι → Call) (m : Mem) (tr : List (Event ι))
    (s : Shared ι) : Prop where
  /-- A total is what was loaded and what was credited. -/
  total : ∀ u, (s.mem.memTotalEnergyMap.val u).toNat
    = (m.memTotalEnergyMap.val u).toNat + creditedTo u (creditsOf tr)
  /-- Everything in memory is what was loaded and what is pending. -/
  energy : s.mem.energy = m.energy + ∑ i, (s.pc i).pending
  /-- A credit about to be made does not wrap. -/
  credit_lt : ∀ i r, s.pc i = .credit → s.slot (call i).request.id = some r →
    (s.mem.memTotalEnergyMap.val (call i).request.userId).toNat
      + (r.amount (call i).request.userId).toNat < 2 ^ 32
  /-- A debit about to be made does not wrap. -/
  debit_le : ∀ i n r, s.pc i = .debit n → s.slot (call i).request.id = some r →
    n.toNat ≤ r.toCollectEnergy.toNat
  /-- The value of `executeUpdateTotal`. -/
  toInt_total : ∀ u, (s.mem.memTotalEnergyMap.val u).toInt32.toInt
    = (m.memTotalEnergyMap.val u).toNat + creditedTo u (creditsOf tr)
  /-- The value of `executeUpdateToCollect`. -/
  toInt_record : ∀ id r, s.slot id = some r →
    r.toCollectEnergy.toInt32.toInt = (m.slotEnergy id : ℤ) - debitedFrom id tr

/-- Where the loaded energy fits an `int`, the books are exact. -/
theorem CallRun.exactLedger [Fintype ι] (h : CallRun call m tr s)
    (hm : m.energy < 2 ^ 31) : ExactLedger call m tr s := by
  have hm' : m.energy < 2 ^ 32 := hm.trans (by decide)
  obtain ⟨order, hR⟩ := h.linearized
  have htot := hR.totals
  have hled : credits (order.map fun i => (call i).request) m = creditsOf tr := hR.ledger
  -- the sequential execution conserves the energy exactly, so it bounds every
  -- single total of the concurrent side
  have henergy := energy_collectAll hm' (order.map fun i => (call i).request)
  have hrec := recordEnergy_collectAll m (order.map fun i => (call i).request)
  have hslots := h.recordEnergy
  have hpend := h.pending
  rw [hled] at hrec
  change (collectAll m _).memTotalEnergyMap = _ at htot
  unfold Mem.energy at henergy
  rw [htot] at henergy
  have htotal : ∀ u, (s.mem.memTotalEnergyMap.val u).toNat
      = (m.memTotalEnergyMap.val u).toNat + creditedTo u (creditsOf tr) := by
    intro u
    rw [← htot, val_collectAll_of_lt hm', hled]
  have hsmall : ∀ u, (s.mem.memTotalEnergyMap.val u).toNat < 2 ^ 31 := by
    intro u
    have := s.mem.memTotalEnergyMap.val_le_energy u
    unfold Mem.energy at hm
    omega
  refine ⟨htotal, ?_, fun i r hpc hr => ?_, fun i n r hpc hr => ?_, fun u => ?_,
    fun id r hr => ?_⟩
  · unfold Mem.energy
    omega
  · -- the record on the sequential side still holds what is to be credited
    have hview : s.view call (call i).request.id = some r := by
      rw [Shared.view_of_held (h.locked.mutex_of_inside (by rw [hpc]; rfl)), hr, hpc]
      rfl
    obtain ⟨r', hr', hmark⟩ := hR.exists_slot hview
    have hle := (collectAll m (order.map fun i => (call i).request)).slotEnergy_le_recordEnergy
      (call i).request.id
    have hval := s.mem.memTotalEnergyMap.val_le_energy (call i).request.userId
    have hamt := r'.toNat_amount_le (call i).request.userId
    rw [MemToCollect.amount_eq_of_mark_eq hmark] at hamt
    rw [Mem.slotEnergy_of_some hr'] at hle
    unfold Mem.energy at hm
    omega
  · have hk := h.locked.knows i
    rw [hpc] at hk
    obtain ⟨r', hr', -, -, rfl⟩ := hk
    obtain rfl : r = r' := Option.some.inj (hr.symm.trans hr')
    exact r.toNat_amount_le _
  · rw [toInt_toInt32 (hsmall u), htotal u]
    exact Nat.cast_add _ _
  · have hslot := h.slotEnergy id
    have hle := m.slotEnergy_le_recordEnergy id
    rw [Mem.slotEnergy_of_some hr] at hslot
    unfold Mem.energy at hm
    rw [toInt_toInt32 (by omega)]
    omega

/-- **The energy ledger.** In every state that concurrent calls can reach from a
loaded one, a user's total is what was loaded plus what the user was credited,
modulo `2^32`; a record is what was loaded less what was debited from it; and
all together exceeds what was loaded by what is credited and not yet debited.
Where the loaded values sum to less than `2^31`, all this is exact; a negative
one would be loaded as `2^31` or more. -/
theorem energy_ledger [Fintype ι] {db : Database} (hload : loadInMem db = .ok m)
    (h : CallRun call m tr s) :
    (∀ u, (s.mem.memTotalEnergyMap.val u).toNat
        ≡ (m.memTotalEnergyMap.val u).toNat + creditedTo u (creditsOf tr) [MOD 2 ^ 32])
      ∧ (∀ id, s.mem.slotEnergy id + debitedFrom id tr = m.slotEnergy id)
      ∧ s.mem.energy ≡ m.energy + ∑ i, (s.pc i).pending [MOD 2 ^ 32]
      ∧ (db.Fits → m.energy < 2 ^ 31)
      ∧ (m.energy < 2 ^ 31 → ExactLedger call m tr s) := by
  obtain ⟨order, hR⟩ := h.linearized
  have htot := hR.totals
  have hled : credits (order.map fun i => (call i).request) m = creditsOf tr := hR.ledger
  change (collectAll m _).memTotalEnergyMap = _ at htot
  refine ⟨fun u => ?_, h.slotEnergy, ?_, fun hfit => hfit.energy_lt hload, h.exactLedger⟩
  · rw [← htot, val_collectAll, hled]
    exact Nat.mod_modEq _ _
  · have hmod := energy_totals_collectAll m (order.map fun i => (call i).request)
    have hslots := h.recordEnergy
    have hpend := h.pending
    rw [htot, hled] at hmod
    have hsum : m.memTotalEnergyMap.energy + creditTotal (creditsOf tr) + s.mem.recordEnergy
        = m.energy + ∑ i, (s.pc i).pending := by
      unfold Mem.energy
      omega
    rw [← hsum]
    exact hmod.add_right _

/-- The books of a race for one record. -/
theorem energy_ledger_raceCalls :
    ∃ m tr s, loadInMem tenUnitsDb = .ok m ∧ CallRun raceCalls m tr s
      ∧ (∀ i, (s.pc i).ended = true) ∧ ExactLedger raceCalls m tr s := by
  have hexec : (loadInMem tenUnitsDb).toOption.bind (fun m =>
      (Run.exec (microStep raceCalls) raceSchedule (Shared.start m)).map
        (fun p => decide (∀ i, (p.1.pc i).ended = true))) = some true := by
    decide +kernel
  obtain ⟨m, hm, hexec⟩ := Option.bind_eq_some_iff.mp hexec
  obtain ⟨⟨s, tr⟩, hrun, hdone⟩ := Option.map_eq_some_iff.mp hexec
  have hload : loadInMem tenUnitsDb = .ok m := eq_ok_of_toOption hm
  have hrun' : CallRun raceCalls m tr s := Run.of_exec hrun
  obtain ⟨-, -, -, hfit, hexact⟩ := energy_ledger hload hrun'
  exact ⟨m, tr, s, hload, hrun', of_decide_eq_true hdone, hexact (hfit tenUnitsDb_fits)⟩

end GreenFinal
