import GreenFinal.Lib.Binary64
import GreenFinal.Mem
import Mathlib.Algebra.BigOperators.Group.List.Basic

/-!
# Collecting from a record

The second half of `handle_request`, from the record lookup on: who may
take how much, and what is written. `collectEnergy` is that half as one
call on the memory image, with nobody else running; the threads that run
its steps against each other are in `GreenFinal.MicroStep` and take the
same pieces – the unlocked check, the mark, the locked re-check, the
amount – from here.

A call touches one record and, when it succeeds, one user's total. So its
effect splits in two (`collectEnergy_eq`): what becomes of the record,
`MemToCollect.next`, which depends on the record and the asking user only,
and the amount credited, `MemToCollect.credit?`. Over a sequence of
requests a record then sees just the users that asked for it, in order
(`memToCollects_collectAll`), and a user's total grows by that user's
credits (`val_collectAll`).
-/

open CLib

namespace GreenFinal

/-! ## The non-owner's share -/

/-- The double nearest `0.3`, as a multiple of `2^(-54)`. -/
def threeTenths : ℕ := 5404319552844595

/-- `(int) floor((double) e * 0.3)`. -/
def toCollectEnergyCount (e : UInt32) : Int32 :=
  Int32.ofNat (Binary64.mulFloor e.toNat threeTenths 54)

/-- **The double product has the integer part of three tenths.** The
constant lies below `0.3`, by `e / 5` units of `2^(-54)` in the product. For
a multiple of ten that puts the product just under an integer, less than
half a unit in the last place away, and rounding lifts it back; for any
other `e` the product is a tenth or more away from the next integer. -/
theorem mulFloor_threeTenths {e : ℕ} (he : e < 2 ^ 32) :
    Binary64.mulFloor e threeTenths 54 = 3 * e / 10 := by
  rcases Nat.eq_zero_or_pos e with rfl | hpos
  · rw [Binary64.mulFloor, Nat.zero_mul]
    decide
  have hm : e * threeTenths * 10 + 2 * e = 3 * 2 ^ 54 * e := by
    unfold threeTenths
    omega
  have hlt : e * threeTenths < 2 ^ (53 + 32) := by
    unfold threeTenths
    omega
  have hsize : 53 ≤ (e * threeTenths).size := by
    refine Nat.lt_size.mpr ?_
    unfold threeTenths
    omega
  have hexc := Binary64.excess_lt hlt
  obtain ⟨hlo, hhi⟩ := Binary64.binade (by decide) hsize
  have hunit : 2 ^ Binary64.excess 53 (e * threeTenths) ≤ 2 ^ 32 :=
    Nat.pow_le_pow_right (by decide) hexc
  have hup := Binary64.roundTo_le 53 (e * threeTenths)
  have hdown := Binary64.le_roundTo 53 (e * threeTenths)
  rw [Nat.pow_add] at hlo hhi
  -- for a multiple of ten the product just misses an integer and is rounded up
  -- to it; for any other `e` the next integer is out of reach
  by_cases hten : e % 10 = 0
  · have hnear : Binary64.roundTo 53 (e * threeTenths) = 3 * (e / 10) * 2 ^ 54 :=
      Binary64.roundTo_eq_of_near ((Nat.pow_dvd_pow 2 (by omega)).mul_left _)
        (by omega) (by omega)
    rw [Binary64.mulFloor, hnear, Nat.mul_div_cancel _ (by decide)]
    omega
  · have hrem : 1 ≤ 3 * e % 10 ∧ 3 * e % 10 ≤ 9 := by omega
    have hdiv : 10 * (3 * e / 10) + 3 * e % 10 = 3 * e := Nat.div_add_mod _ _
    rw [Binary64.mulFloor]
    refine Nat.div_eq_of_lt_le ?_ ?_
    · omega
    · omega

/-- **The share is three tenths, rounded down**, and the cast to `int` loses
nothing. -/
theorem toNat_toCollectEnergyCount (e : UInt32) :
    (toCollectEnergyCount e).toUInt32.toNat = 3 * e.toNat / 10 := by
  have he : e.toNat < 2 ^ 32 := e.toNat_lt
  rw [toCollectEnergyCount, mulFloor_threeTenths he]
  show (UInt32.ofNat (3 * e.toNat / 10)).toNat = _
  rw [UInt32.toNat_ofNat']
  exact Nat.mod_eq_of_lt (by omega)

/-- As an `int` it is what it is as a `uint32_t`. -/
theorem toInt_toCollectEnergyCount (e : UInt32) :
    (toCollectEnergyCount e).toInt = ((3 * e.toNat / 10 : ℕ) : ℤ) := by
  have he : e.toNat < 2 ^ 32 := e.toNat_lt
  rw [toCollectEnergyCount, mulFloor_threeTenths he]
  exact Int32.toInt_ofNat_of_lt (by omega)

/-! ## One call -/

/-- A request that has been taken apart: the user it names and a record in
the array. -/
structure Request where
  /-- `user_id` -/
  userId : CString
  /-- `to_collect_energy_id` -/
  id : RecordId
  deriving DecidableEq

/-- The check before the lock: no record, or nothing left to collect. -/
def returnsUnlocked (slot : Option MemToCollect) : Bool :=
  slot.elim true (fun r => r.status = .allCollected)

namespace MemToCollect

/-- `modified_ = true`. -/
def mark (r : MemToCollect) : MemToCollect := { r with modified := true }

/-- The check under the lock: everything is taken, or the user is not the
owner and either somebody was here before or too little is left. -/
def rejects (r : MemToCollect) (u : CString) : Bool :=
  r.status = .allCollected
    || (r.userId ≠ u && (r.status ≠ .empty || r.toCollectEnergy ≤ 3))

/-- What the user is credited: everything for the owner, the share for
another. -/
def amount (r : MemToCollect) (u : CString) : UInt32 :=
  if r.userId = u then r.toCollectEnergy
  else (toCollectEnergyCount r.toCollectEnergy).toUInt32

/-- The write to `to_collect_energy_`: zero for the owner, the record less
the amount credited for another. -/
def debit (r : MemToCollect) (u : CString) (n : UInt32) : MemToCollect :=
  { r with toCollectEnergy := if r.userId = u then 0 else r.toCollectEnergy - n }

/-- The write to `status_`. -/
def close (r : MemToCollect) (u : CString) : MemToCollect :=
  { r with status := if r.userId = u then .allCollected else .collectedByOther }

end MemToCollect

/-- **`handle_request` after the request has been taken apart**, run without
interruption. -/
def collectEnergy (q : Request) (m : Mem) : Mem :=
  match m.memToCollects q.id with
  | none => m
  | some r =>
    if r.status = .allCollected then m
    else if r.mark.rejects q.userId then m.setRecord q.id r.mark
    else
      (m.credit q.userId (r.amount q.userId)).setRecord q.id
        ((r.mark.debit q.userId (r.amount q.userId)).close q.userId)

/-- The requests of a list, one after another. -/
def collectAll (m : Mem) (qs : List Request) : Mem :=
  qs.foldl (fun m q => collectEnergy q m) m

/-! ## The record's side of a call -/

namespace MemToCollect

/-- What a call by `u` makes of the record. -/
def next (r : MemToCollect) (u : CString) : MemToCollect :=
  if r.status = .allCollected then r
  else if r.rejects u then r.mark
  else (r.mark.debit u (r.amount u)).close u

/-- What a call by `u` credits, if it credits anything. -/
def credit? (r : MemToCollect) (u : CString) : Option UInt32 :=
  if r.rejects u then none else some (r.amount u)

@[simp] theorem rejects_mark (r : MemToCollect) (u : CString) :
    r.mark.rejects u = r.rejects u := rfl

theorem rejects_of_allCollected {r : MemToCollect} (h : r.status = .allCollected)
    (u : CString) : r.rejects u = true := by
  rw [rejects, h]
  rfl

/-- Only the owner takes from a record somebody has taken from. -/
theorem rejects_eq_false_iff {r : MemToCollect} {u : CString} :
    r.rejects u = false
      ↔ r.status ≠ .allCollected
        ∧ (r.userId = u ∨ (r.status = .empty ∧ 3 < r.toCollectEnergy)) := by
  unfold rejects
  by_cases hu : r.userId = u <;> cases r.status <;>
    simp [hu, UInt32.not_le]

/-- Where there is nothing to share, everybody else is turned away. -/
theorem rejects_of_other {r : MemToCollect} {u : CString} (hu : r.userId ≠ u)
    (h : ¬ (r.status = .empty ∧ 3 < r.toCollectEnergy)) : r.rejects u = true := by
  by_contra hacc
  rcases (rejects_eq_false_iff.mp (Bool.eq_false_iff.mpr hacc)).2 with ho | hs
  · exact hu ho
  · exact h hs

@[simp] theorem userId_next (r : MemToCollect) (u : CString) :
    (r.next u).userId = r.userId := by
  unfold next
  split
  · rfl
  · split <;> rfl

theorem next_of_allCollected {r : MemToCollect} (h : r.status = .allCollected)
    (u : CString) : r.next u = r := if_pos h

theorem next_of_rejects {r : MemToCollect} {u : CString}
    (ha : r.status ≠ .allCollected) (h : r.rejects u = true) :
    r.next u = r.mark := by
  rw [next, if_neg ha, if_pos h]

theorem next_of_accepts {r : MemToCollect} {u : CString}
    (h : r.rejects u = false) :
    r.next u = (r.mark.debit u (r.amount u)).close u := by
  rw [next, if_neg (rejects_eq_false_iff.mp h).1, if_neg (by rw [h]; exact Bool.false_ne_true)]

theorem credit?_of_rejects {r : MemToCollect} {u : CString}
    (h : r.rejects u = true) : r.credit? u = none := if_pos h

theorem credit?_of_accepts {r : MemToCollect} {u : CString}
    (h : r.rejects u = false) : r.credit? u = some (r.amount u) :=
  if_neg (by rw [h]; exact Bool.false_ne_true)

theorem toNat_amount_owner {r : MemToCollect} {u : CString} (h : r.userId = u) :
    (r.amount u).toNat = r.toCollectEnergy.toNat := by
  rw [amount, if_pos h]

theorem toNat_amount_other {r : MemToCollect} {u : CString} (h : r.userId ≠ u) :
    (r.amount u).toNat = 3 * r.toCollectEnergy.toNat / 10 := by
  rw [amount, if_neg h, toNat_toCollectEnergyCount]

/-- **Nobody is credited more than the record holds.** -/
theorem toNat_amount_le (r : MemToCollect) (u : CString) :
    (r.amount u).toNat ≤ r.toCollectEnergy.toNat := by
  by_cases h : r.userId = u
  · exact (toNat_amount_owner h).le
  · rw [toNat_amount_other h]
    omega

/-- **What is credited is what the record loses.** -/
theorem toNat_debit_amount (r : MemToCollect) (u : CString) :
    (r.debit u (r.amount u)).toCollectEnergy.toNat + (r.amount u).toNat
      = r.toCollectEnergy.toNat := by
  have hle := r.toNat_amount_le u
  by_cases h : r.userId = u
  · rw [debit, toNat_amount_owner h, if_pos h]
    exact Nat.zero_add _
  · rw [debit]
    show (if r.userId = u then _ else _ : UInt32).toNat + _ = _
    rw [if_neg h, UInt32.toNat_sub_of_le _ _ (UInt32.le_iff_toNat_le.mpr hle)]
    omega

/-- The record's side of the ledger of one call. -/
theorem toNat_next_add_credit (r : MemToCollect) (u : CString) :
    (r.next u).toCollectEnergy.toNat + ((r.credit? u).elim 0 UInt32.toNat)
      = r.toCollectEnergy.toNat := by
  cases h : r.rejects u with
  | true =>
    rw [credit?_of_rejects h]
    by_cases ha : r.status = .allCollected
    · rw [next_of_allCollected ha]
      rfl
    · rw [next_of_rejects ha h]
      rfl
  | false =>
    rw [credit?_of_accepts h, next_of_accepts h]
    exact r.toNat_debit_amount u

end MemToCollect

/-! ## The two sides of a call -/

/-- The credit a request makes, if it makes one. -/
def creditOf (q : Request) (m : Mem) : Option UInt32 :=
  (m.memToCollects q.id).bind (fun r => r.credit? q.userId)

theorem collectEnergy_of_none {q : Request} {m : Mem}
    (h : m.memToCollects q.id = none) : collectEnergy q m = m := by
  unfold collectEnergy
  rw [h]

/-- **A call is a step of its record and at most one credit.** -/
theorem collectEnergy_of_some {q : Request} {m : Mem} {r : MemToCollect}
    (h : m.memToCollects q.id = some r) :
    collectEnergy q m
      = ((r.credit? q.userId).elim m (m.credit q.userId)).setRecord q.id
          (r.next q.userId) := by
  unfold collectEnergy
  rw [h]
  show (if r.status = .allCollected then m else _) = _
  by_cases ha : r.status = .allCollected
  · rw [if_pos ha, MemToCollect.credit?_of_rejects (MemToCollect.rejects_of_allCollected ha _),
      MemToCollect.next_of_allCollected ha]
    show m = { m with memToCollects := Function.update m.memToCollects q.id (some r) }
    rw [← h, Function.update_eq_self]
  · rw [if_neg ha, MemToCollect.rejects_mark]
    cases hrej : r.rejects q.userId with
    | true =>
      rw [MemToCollect.credit?_of_rejects hrej, MemToCollect.next_of_rejects ha hrej]
      rfl
    | false =>
      rw [MemToCollect.credit?_of_accepts hrej, MemToCollect.next_of_accepts hrej]
      rfl

/-- The slots after a call. -/
theorem memToCollects_collectEnergy (q : Request) (m : Mem) :
    (collectEnergy q m).memToCollects
      = Function.update m.memToCollects q.id
          ((m.memToCollects q.id).map (fun r => r.next q.userId)) := by
  cases h : m.memToCollects q.id with
  | none =>
    rw [collectEnergy_of_none h, Option.map_none, ← h, Function.update_eq_self]
  | some r =>
    rw [collectEnergy_of_some h, Option.map_some]
    cases r.credit? q.userId <;> rfl

/-- The totals after a call. -/
theorem memTotalEnergyMap_collectEnergy (q : Request) (m : Mem) :
    (collectEnergy q m).memTotalEnergyMap
      = (creditOf q m).elim m.memTotalEnergyMap (m.memTotalEnergyMap.add q.userId) := by
  unfold creditOf
  cases h : m.memToCollects q.id with
  | none =>
    rw [collectEnergy_of_none h]
    rfl
  | some r =>
    rw [collectEnergy_of_some h, Option.bind_some]
    cases r.credit? q.userId <;> rfl

/-! ## Sequences of calls -/

/-- One entry of the ledger: what a call took from a record for a user. -/
structure Credit where
  /-- The record taken from. -/
  id : RecordId
  /-- The user credited. -/
  userId : CString
  /-- The amount. -/
  amount : UInt32
  deriving DecidableEq

/-- The credits a list of requests makes, one request after another. -/
def credits : List Request → Mem → List Credit
  | [], _ => []
  | q :: qs, m =>
      (creditOf q m).toList.map (fun n => ⟨q.id, q.userId, n⟩)
        ++ credits qs (collectEnergy q m)

/-- The users that ask for a record, in order. -/
def askers (id : RecordId) (qs : List Request) : List CString :=
  (qs.filter (fun q => q.id = id)).map Request.userId

/-- The credits made from one record, as user and amount. -/
def creditsFrom (id : RecordId) (cs : List Credit) : List (CString × ℕ) :=
  (cs.filter (fun c => c.id = id)).map (fun c => (c.userId, c.amount.toNat))

/-- What a user has been credited in all. -/
def creditedTo (u : CString) (cs : List Credit) : ℕ :=
  ((cs.filter (fun c => c.userId = u)).map (fun c => c.amount.toNat)).sum

namespace MemToCollect

/-- The record after the users of a list have asked, in order. -/
def nexts (r : MemToCollect) (us : List CString) : MemToCollect := us.foldl next r

/-- What the users of a list are credited from the record. -/
def creditList : MemToCollect → List CString → List (CString × ℕ)
  | _, [] => []
  | r, u :: us =>
      (r.credit? u).toList.map (fun n => (u, n.toNat)) ++ (r.next u).creditList us

@[simp] theorem nexts_nil (r : MemToCollect) : r.nexts [] = r := rfl

@[simp] theorem nexts_cons (r : MemToCollect) (u : CString) (us : List CString) :
    r.nexts (u :: us) = (r.next u).nexts us := rfl

end MemToCollect

@[simp] theorem collectAll_nil (m : Mem) : collectAll m [] = m := rfl

@[simp] theorem collectAll_cons (m : Mem) (q : Request) (qs : List Request) :
    collectAll m (q :: qs) = collectAll (collectEnergy q m) qs := rfl

theorem askers_cons (id : RecordId) (q : Request) (qs : List Request) :
    askers id (q :: qs)
      = if q.id = id then q.userId :: askers id qs else askers id qs := by
  unfold askers
  by_cases h : q.id = id <;> simp [h]

theorem mem_askers {id : RecordId} {qs : List Request} {u : CString} :
    u ∈ askers id qs ↔ ∃ q ∈ qs, q.id = id ∧ q.userId = u := by
  simp [askers, and_assoc]

/-- **A record sees the users that ask for it, and nothing else.** -/
theorem memToCollects_collectAll (m : Mem) (qs : List Request) (id : RecordId) :
    (collectAll m qs).memToCollects id
      = (m.memToCollects id).map (fun r => r.nexts (askers id qs)) := by
  induction qs generalizing m with
  | nil =>
    exact Option.map_id'.symm
  | cons q qs ih =>
    rw [collectAll_cons, ih, memToCollects_collectEnergy, askers_cons]
    by_cases h : q.id = id
    · subst h
      rw [Function.update_self, Option.map_map, if_pos rfl]
      rfl
    · rw [Function.update_of_ne (Ne.symm h), if_neg h]

/-- The credits made from a record are those its askers get from it. -/
theorem creditsFrom_credits {m : Mem} {id : RecordId} {r : MemToCollect}
    (h : m.memToCollects id = some r) (qs : List Request) :
    creditsFrom id (credits qs m) = r.creditList (askers id qs) := by
  induction qs generalizing m r with
  | nil => rfl
  | cons q qs ih =>
    have hnext : (collectEnergy q m).memToCollects id
        = some (if q.id = id then r.next q.userId else r) := by
      rw [memToCollects_collectEnergy]
      by_cases hid : q.id = id
      · subst hid
        rw [Function.update_self, h, if_pos rfl]
        rfl
      · rw [Function.update_of_ne (Ne.symm hid), if_neg hid, h]
    have happ : creditsFrom id (credits (q :: qs) m)
        = creditsFrom id ((creditOf q m).toList.map (fun n => ⟨q.id, q.userId, n⟩))
          ++ creditsFrom id (credits qs (collectEnergy q m)) := by
      rw [credits, creditsFrom, List.filter_append, List.map_append]
      rfl
    rw [happ, ih hnext, askers_cons]
    by_cases hid : q.id = id
    · subst hid
      rw [if_pos rfl, if_pos rfl, MemToCollect.creditList, creditOf, h, Option.bind_some]
      cases r.credit? q.userId <;> simp [creditsFrom]
    · rw [if_neg hid, if_neg hid]
      cases creditOf q m <;> simp [creditsFrom, hid]

/-- An empty slot credits nobody. -/
theorem creditsFrom_credits_of_none {m : Mem} {id : RecordId}
    (h : m.memToCollects id = none) (qs : List Request) :
    creditsFrom id (credits qs m) = [] := by
  induction qs generalizing m with
  | nil => rfl
  | cons q qs ih =>
    have hnext : (collectEnergy q m).memToCollects id = none := by
      rw [memToCollects_collectEnergy]
      by_cases hid : id = q.id
      · subst hid
        rw [Function.update_self, h]
        rfl
      · rw [Function.update_of_ne hid, h]
    rw [credits, creditsFrom, List.filter_append, List.map_append]
    refine List.append_eq_nil_iff.mpr ⟨?_, ih hnext⟩
    by_cases hid : q.id = id
    · rw [creditOf, hid, h]
      rfl
    · cases creditOf q m <;> simp [hid]

/-- **A user's total grows by the user's credits**, modulo `2^32`. -/
theorem val_collectAll (m : Mem) (qs : List Request) (u : CString) :
    ((collectAll m qs).memTotalEnergyMap.val u).toNat
      = ((m.memTotalEnergyMap.val u).toNat + creditedTo u (credits qs m)) % 2 ^ 32 := by
  induction qs generalizing m with
  | nil =>
    show _ = ((m.memTotalEnergyMap.val u).toNat + 0) % 2 ^ 32
    exact (Nat.mod_eq_of_lt (m.memTotalEnergyMap.val u).toNat_lt).symm
  | cons q qs ih =>
    rw [collectAll_cons, ih, memTotalEnergyMap_collectEnergy, credits]
    cases hc : creditOf q m with
    | none => rfl
    | some n =>
      show (((m.memTotalEnergyMap.add q.userId n).val u).toNat + _) % _ = _
      by_cases hu : q.userId = u
      · subst hu
        rw [TotalEnergyMap.val_add_self, UInt32.toNat_add, Nat.mod_add_mod]
        simp [creditedTo, Nat.add_assoc]
      · rw [TotalEnergyMap.val_add_of_ne _ _ (Ne.symm hu)]
        simp [creditedTo, hu]

/-- The users with an entry afterwards: those that had one and those
credited. -/
theorem keys_collectAll (m : Mem) (qs : List Request) :
    (collectAll m qs).memTotalEnergyMap.keys
      = m.memTotalEnergyMap.keys ∪ ((credits qs m).map Credit.userId).toFinset := by
  induction qs generalizing m with
  | nil => exact (Finset.union_empty _).symm
  | cons q qs ih =>
    rw [collectAll_cons, ih, memTotalEnergyMap_collectEnergy, credits]
    cases hc : creditOf q m with
    | none => rfl
    | some n =>
      show insert q.userId m.memTotalEnergyMap.keys ∪ _ = _
      rw [Finset.insert_union]
      simp [Finset.union_insert]

end GreenFinal
