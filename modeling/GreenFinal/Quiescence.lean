import GreenFinal.Completion
import GreenFinal.Refinement

/-!
# The process comes to rest

When the clients send nothing more, the threads finish what they have at hand and leave
their loops, and the flushes they have started go through their rows. Nothing of this
waits for ever: a call waits for a mutex, whose holder waits for nobody; a thread in `recv`
gets the end of its connection; and a flush waits for nothing. And nothing of it goes on for
ever, since every step uses up some of what is left to do (`Process.left`): the steps of
the threads, the rows of the flushes, and for a flush that is still to begin the rows it
will have. Together every schedule ends, and where it ends all threads are past their
loops, all mutexes are free and all flushes have ended (`process_completes`).

The flush of the totals has a row for every user with a total when it begins, and calls
can add users until then: what a thread may still add is counted beforehand.
-/

open CLib Interleave

namespace GreenFinal

variable {ι : Type*} [DecidableEq ι] {db : Database} {m : Mem} {tr es : List HttpEvent}
  {s s' : Process ι} {a : Action ι} {i : ι}

/-- Nothing more is received. -/
def inputless : Action ι → Process ι → Bool
  | .http _ input, _ => input.isNone
  | _, _ => true

/-- **At rest**: all threads are past their loops, no mutex is taken, and all flushes have
ended. -/
structure AtRest (s : Process ι) : Prop where
  closed : ∀ i, s.server.pc i = .closed
  mutex : ∀ id, s.mutex id = none
  toCollectScans : ∀ ids ∈ s.server.toCollectScans, ids = []
  totalScans : ∀ us ∈ s.server.totalScans, us = some []

/-- **Idle**: the threads are past their loops or have not come to them, no mutex is taken,
and all flushes have ended. -/
structure Idle (s : Process ι) : Prop where
  pc : ∀ i, s.server.pc i = .guard ∨ s.server.pc i = .closed
  mutex : ∀ id, s.mutex id = none
  toCollectScans : ∀ ids ∈ s.server.toCollectScans, ids = []
  totalScans : ∀ us ∈ s.server.totalScans, us = some []

/-! ## What is left to do -/

/-- How many steps a thread has still to take, at the most, if it receives nothing. -/
def HttpPc.left (p : Pc) : HttpPc → ℕ
  | .count _ => 16
  | .respond _ _ => 15
  | .handle _ _ => 6 + p.left
  | .start _ => 5
  | .respondLate _ => 4
  | .finish _ => 3
  | .guard => 2
  | .recv => 1
  | .closed => 0

/-- How many flushes a thread may still start, if it receives nothing. -/
def HttpPc.starts : HttpPc → ℕ
  | .count _ | .respond _ _ | .handle _ _ | .start _ => 1
  | .guard | .recv | .respondLate _ | .finish _ | .closed => 0

/-- The call has not made its credit. -/
def Pc.toCredit : Pc → Bool
  | .check | .mark | .lock | .recheck | .credit => true
  | .debit _ | .close | .unlock _ | .skipped | .returned _ => false

/-- How many users a thread may still add to the totals, if it receives nothing. -/
def HttpPc.adds (p : Pc) : HttpPc → ℕ
  | .count _ | .respond _ _ => 1
  | .handle _ _ => p.toCredit.toNat
  | .guard | .recv | .start _ | .respondLate _ | .finish _ | .closed => 0

/-- How many reads of a row follow. -/
def RowPc.left : RowPc → ℕ
  | .modified => 2
  | .status => 1
  | .energy _ => 0

theorem RowPc.left_le (pc : RowPc) : pc.left ≤ 2 := by
  unfold left
  split <;> omega

/-- How many reads a flush of the records makes, at the most. -/
def flushReads : ℕ := 3 * reqTotalCnt + 2

theorem length_scanIds : scanIds.length = reqTotalCnt := by
  rw [scanIds, List.length_map, List.length_finRange]

/-- How many reads a flush of the records has still to make. -/
def Process.readsLeft (s : Process ι) (k : ℕ) : ℕ :=
  3 * (s.server.toCollectScans[k]?.getD []).length + (s.rows k).left

section Measure

variable [Fintype ι]

/-- A sum over what the threads are at. -/
def Process.total (s : Process ι) (f : Pc → HttpPc → ℕ) : ℕ :=
  ∑ i, f (s.callPc i) (s.server.pc i)

/-- How many users can have a total when a flush begins. -/
def Process.users (s : Process ι) : ℕ :=
  s.server.mem.memTotalEnergyMap.keys.card + s.total HttpPc.adds

/-- What the flushes of the records have still to do. -/
def Process.recordsLeft (s : Process ι) : ℕ :=
  ∑ k ∈ Finset.range s.server.toCollectScans.length, s.readsLeft k
    + flushReads * s.total fun _ => HttpPc.starts

/-- What the flushes of the totals have still to do, if a loop that has not begun has at
most `n` rows. -/
def Process.totalsLeft (s : Process ι) (n : ℕ) : ℕ :=
  (s.server.totalScans.map fun us => us.elim (n + 1) List.length).sum
    + (n + 1) * s.total fun _ => HttpPc.starts

/-- **What is left to do.** -/
def Process.left (s : Process ι) : ℕ :=
  s.total HttpPc.left + s.recordsLeft + s.totalsLeft s.users

omit [DecidableEq ι] in
/-- A loop that has not begun has fewer rows if there are fewer users. -/
theorem Process.totalsLeft_mono {n n' : ℕ} (s : Process ι) (h : n ≤ n') :
    s.totalsLeft n ≤ s.totalsLeft n' := by
  refine Nat.add_le_add (List.sum_le_sum fun us _ => ?_)
    (Nat.mul_le_mul_right _ (Nat.succ_le_succ h))
  cases us with
  | none => exact Nat.succ_le_succ h
  | some us => exact le_rfl

end Measure

/-! ## A step of a thread -/

/-- **A thread gets on**: it has fewer steps to take, and neither adds users nor starts
flushes but those that were counted. -/
structure Advances (s s' : Process ι) (i : ι) : Prop where
  others : ∀ j, j ≠ i → s'.callPc j = s.callPc j ∧ s'.server.pc j = s.server.pc j
  left : (s'.server.pc i).left (s'.callPc i) < (s.server.pc i).left (s.callPc i)
  rows : s'.rows = s.rows
  users : s'.server.mem.memTotalEnergyMap.keys.card + (s'.server.pc i).adds (s'.callPc i)
    ≤ s.server.mem.memTotalEnergyMap.keys.card + (s.server.pc i).adds (s.callPc i)
  flushes : ∃ n₁ n₂,
    s'.server.toCollectScans = s.server.toCollectScans ++ List.replicate n₁ scanIds
      ∧ s'.server.totalScans = s.server.totalScans ++ List.replicate n₂ none
      ∧ n₁ + n₂ + (s'.server.pc i).starts ≤ (s.server.pc i).starts

namespace Advances

variable [Fintype ι]

/-- What changes in a sum over the threads is the summand of the one that moves. -/
theorem total (h : Advances s s' i) (f : Pc → HttpPc → ℕ) :
    s'.total f + f (s.callPc i) (s.server.pc i)
      = s.total f + f (s'.callPc i) (s'.server.pc i) := by
  have hplace : (fun j => (s'.callPc j, s'.server.pc j)) = Function.update
      (fun j => (s.callPc j, s.server.pc j)) i (s'.callPc i, s'.server.pc i) := by
    funext j
    by_cases hj : j = i
    · rw [hj, Function.update_self]
    · rw [Function.update_of_ne hj, (h.others j hj).1, (h.others j hj).2]
  have hsum := sum_update (fun p : Pc × HttpPc => f p.1 p.2)
    (fun j => (s.callPc j, s.server.pc j)) i (s'.callPc i, s'.server.pc i)
  rw [← hplace] at hsum
  exact hsum

theorem users_le (h : Advances s s' i) : s'.users ≤ s.users := by
  have hadds := h.total HttpPc.adds
  have husers := h.users
  unfold Process.users
  omega

theorem recordsLeft_le (h : Advances s s' i) : s'.recordsLeft ≤ s.recordsLeft := by
  obtain ⟨n₁, n₂, hscans, -, hstarts⟩ := h.flushes
  have htotal := h.total fun _ => HttpPc.starts
  have hold : ∑ k ∈ Finset.range s.server.toCollectScans.length, s'.readsLeft k
      = ∑ k ∈ Finset.range s.server.toCollectScans.length, s.readsLeft k := by
    refine Finset.sum_congr rfl fun k hk => ?_
    rw [Process.readsLeft, Process.readsLeft, h.rows, hscans,
      List.getElem?_append_left (Finset.mem_range.mp hk)]
  have hnew : ∀ k, s'.readsLeft (s.server.toCollectScans.length + k)
      ≤ flushReads := by
    intro k
    have hlen : (((List.replicate n₁ scanIds)[k]?).getD []).length ≤ reqTotalCnt := by
      rw [List.getElem?_replicate]
      split
      · rw [Option.getD_some, length_scanIds]
      · exact Nat.zero_le _
    have hrow := RowPc.left_le (s'.rows (s.server.toCollectScans.length + k))
    rw [Process.readsLeft, hscans, List.getElem?_append_right (Nat.le_add_right _ _),
      Nat.add_sub_cancel_left, flushReads]
    omega
  unfold Process.recordsLeft
  rw [show s'.server.toCollectScans.length = s.server.toCollectScans.length + n₁ by
    rw [hscans, List.length_append, List.length_replicate], Finset.sum_range_add, hold]
  have hle : ∑ k ∈ Finset.range n₁, s'.readsLeft (s.server.toCollectScans.length + k)
      ≤ n₁ * flushReads := by
    refine (Finset.sum_le_sum fun k _ => hnew k).trans ?_
    rw [Finset.sum_const_nat (m := flushReads) fun _ _ => rfl, Finset.card_range]
  have hmul := Nat.mul_le_mul_left flushReads
    (show n₁ + s'.total (fun _ => HttpPc.starts) ≤ s.total fun _ => HttpPc.starts by omega)
  rw [Nat.mul_add, Nat.mul_comm _ n₁] at hmul
  omega

theorem totalsLeft_le (h : Advances s s' i) (n : ℕ) : s'.totalsLeft n ≤ s.totalsLeft n := by
  obtain ⟨n₁, n₂, -, hscans, hstarts⟩ := h.flushes
  have htotal := h.total fun _ => HttpPc.starts
  unfold Process.totalsLeft
  rw [hscans, List.map_append, List.sum_append, List.map_replicate, List.sum_replicate]
  have hmul := Nat.mul_le_mul_left (n + 1)
    (show n₂ + s'.total (fun _ => HttpPc.starts) ≤ s.total fun _ => HttpPc.starts by omega)
  rw [Nat.mul_add, Nat.mul_comm _ n₂] at hmul
  show _ + n₂ * (n + 1) + _ ≤ _
  omega

/-- So there is less left to do. -/
theorem left_lt (h : Advances s s' i) : s'.left < s.left := by
  have hleft := h.total HttpPc.left
  have hlt := h.left
  have hrecords := h.recordsLeft_le
  have htotals := (h.totalsLeft_le s'.users).trans (s.totalsLeft_mono h.users_le)
  unfold Process.left
  omega

end Advances

/-- A thread that moves on outside its call. -/
theorem Advances.of_goto {t : Server ι} {pc : HttpPc}
    (hpc : t.pc = Function.update s.server.pc i pc)
    (hleft : pc.left (s.callPc i) < (s.server.pc i).left (s.callPc i))
    (hmem : t.mem = s.server.mem)
    (hadds : pc.adds (s.callPc i) ≤ (s.server.pc i).adds (s.callPc i))
    (hflushes : ∃ n₁ n₂, t.toCollectScans = s.server.toCollectScans ++ List.replicate n₁ scanIds
      ∧ t.totalScans = s.server.totalScans ++ List.replicate n₂ none
      ∧ n₁ + n₂ + pc.starts ≤ (s.server.pc i).starts) :
    Advances s { s with server := t } i := by
  have hself : t.pc i = pc := by rw [hpc, Function.update_self]
  refine ⟨fun j hj => ⟨rfl, ?_⟩, ?_, rfl, ?_, ?_⟩
  · show t.pc j = s.server.pc j
    rw [hpc, Function.update_of_ne hj]
  · show (t.pc i).left (s.callPc i) < _
    rw [hself]
    exact hleft
  · show t.mem.memTotalEnergyMap.keys.card + (t.pc i).adds (s.callPc i) ≤ _
    rw [hself, hmem]
    exact Nat.add_le_add_left hadds _
  · show ∃ n₁ n₂, t.toCollectScans = _ ∧ t.totalScans = _ ∧ n₁ + n₂ + (t.pc i).starts ≤ _
    rw [hself]
    exact hflushes

theorem Pc.left_le (p : Pc) : p.left ≤ 8 := by
  unfold left
  split <;> omega

namespace HttpPc

/-- A thread with a number has at most a call to go, and what comes after it. -/
theorem afterCount_le (p : Pc) (c : Chunk) (cnt : UInt32) :
    (afterCount c cnt).left p ≤ 15 ∧ (afterCount c cnt).adds p ≤ 1
      ∧ (afterCount c cnt).starts = 1 := by
  have hp := p.left_le
  unfold afterCount
  split
  · exact ⟨by rw [left]; omega, Bool.toNat_le _, rfl⟩
  · exact ⟨le_rfl, le_rfl, rfl⟩

/-- A thread that comes back from its call adds no users. -/
theorem afterHandle_le (p : Pc) (cnt : UInt32) :
    (afterHandle cnt).left p ≤ 5 ∧ (afterHandle cnt).adds p = 0
      ∧ (afterHandle cnt).starts ≤ 1 := by
  unfold afterHandle
  split
  · exact ⟨le_rfl, rfl, le_rfl⟩
  · exact ⟨by rw [left]; omega, rfl, Nat.zero_le 1⟩

end HttpPc

/-- A call that comes back. -/
theorem Advances.of_leave {c : Chunk} {cnt : UInt32} (hpc : s.server.pc i = .handle c cnt) :
    Advances s (s.leave i cnt) i := by
  have hself : (s.leave i cnt).server.pc i = afterHandle cnt := Function.update_self ..
  obtain ⟨hleft, hadds, hstarts⟩ := HttpPc.afterHandle_le ((s.leave i cnt).callPc i) cnt
  refine ⟨fun j hj => ⟨Function.update_of_ne hj .., Function.update_of_ne hj ..⟩, ?_, rfl, ?_,
    0, 0, (List.append_nil _).symm, (List.append_nil _).symm, ?_⟩
  · rw [hself, hpc]
    show _ < 6 + _
    omega
  · rw [hself, hadds]
    exact Nat.le_add_right _ _
  · rw [hself, hpc]
    show 0 + 0 + _ ≤ 1
    omega

/-- **A call gets on with every step**: it has fewer to take, and if it adds a user to the
totals it adds none after that. -/
theorem StepOf.advances {call : ι → Call} {sh sh' : Shared ι} {ces : List (Event ι)}
    (h : StepOf call i sh sh' ces) :
    sh'.mem.memTotalEnergyMap.keys.card + (sh'.pc i).toCredit.toNat
      ≤ sh.mem.memTotalEnergyMap.keys.card + (sh.pc i).toCredit.toNat := by
  cases h with
  | returns hpc | checks hpc | marks hpc | locks hpc | rejects hpc | accepts hpc | debits _ hpc
  | closes hpc | unlocks _ hpc =>
    rw [Shared.pc_goto_self, hpc]
    exact Nat.add_le_add_left (by simp [Pc.toCredit]) _
  | credits hpc =>
    rw [Shared.pc_goto_self, hpc]
    exact Finset.card_insert_le _ _

/-- **A step of a thread gets it on**, if it receives nothing. -/
theorem ProcessStep.advances (h : ProcessStep s (.http i none) s' es) : Advances s s' i := by
  have hnone : ∀ {t : Server ι} {pc : HttpPc},
      t.toCollectScans = s.server.toCollectScans → t.totalScans = s.server.totalScans →
        pc.starts ≤ (s.server.pc i).starts → ∃ n₁ n₂,
          t.toCollectScans = s.server.toCollectScans ++ List.replicate n₁ scanIds
            ∧ t.totalScans = s.server.totalScans ++ List.replicate n₂ none
            ∧ n₁ + n₂ + pc.starts ≤ (s.server.pc i).starts := fun h₁ h₂ h₃ =>
    ⟨0, 0, h₁.trans (List.append_nil _).symm, h₂.trans (List.append_nil _).symm,
      (Nat.zero_add _).le.trans h₃⟩
  have hcall := (s.callPc i).left_le
  have hcredit := Bool.toNat_le (s.callPc i).toCredit
  cases h with
  | threads i hne t es h =>
    cases h with
    | enters _ hpc | leaves _ hpc | ends _ hpc | responds _ _ _ hpc | respondsLate _ _ hpc
    | finishes _ _ hpc =>
      refine .of_goto rfl ?_ rfl ?_ (hnone rfl rfl ?_) <;> rw [hpc] <;>
        simp only [HttpPc.left, HttpPc.adds, HttpPc.starts] <;> omega
    | counts _ c hpc =>
      obtain ⟨hleft, hadds, hstarts⟩ :=
        HttpPc.afterCount_le (s.callPc i) c (s.server.reqCnt + 1)
      refine .of_goto rfl ?_ rfl ?_ (hnone rfl rfl ?_)
      · rw [hpc]
        exact Nat.lt_succ_of_le hleft
      · rw [hpc]
        exact hadds
      · rw [hpc]
        exact hstarts.le
    | handles _ c cnt hpc => exact absurd hpc (hne c cnt)
    | startsToCollect _ cnt hpc =>
      refine .of_goto rfl ?_ rfl ?_ ⟨1, 0, rfl, (List.append_nil _).symm, ?_⟩ <;> rw [hpc] <;>
        simp only [HttpPc.left, HttpPc.adds, HttpPc.starts] <;> omega
    | startsTotal _ cnt hpc =>
      refine .of_goto rfl ?_ rfl ?_ ⟨0, 1, (List.append_nil _).symm, rfl, ?_⟩ <;> rw [hpc] <;>
        simp only [HttpPc.left, HttpPc.adds, HttpPc.starts] <;> omega
  | disposes i c cnt hpc | returns i c cnt _ hpc => exact .of_leave hpc
  | steps i c cnt call hpc hcall sh ces h =>
    have hstep := stepOf_of_microStep h
    refine ⟨fun j hj => ⟨hstep.pc_of_ne hj, rfl⟩, ?_, rfl, ?_, 0, 0, (List.append_nil _).symm,
      (List.append_nil _).symm, (Nat.zero_add _).le⟩
    · show HttpPc.left (sh.pc i) (s.server.pc i) < _
      rw [hpc]
      exact Nat.add_lt_add_left hstep.left_lt 6
    · show sh.mem.memTotalEnergyMap.keys.card + HttpPc.adds (sh.pc i) (s.server.pc i) ≤ _
      rw [hpc]
      exact hstep.advances

/-! ## A step of a flush -/

section Flush

variable [Fintype ι] {k : ℕ} {id : RecordId} {ids : List RecordId}

omit [DecidableEq ι] in
/-- A flush of the records that makes a read has one less to make. -/
theorem Process.left_lt_of_row (hk : k < s.server.toCollectScans.length)
    (hlen : s'.server.toCollectScans.length = s.server.toCollectScans.length)
    (hother : ∀ j, j ≠ k → s'.readsLeft j = s.readsLeft j)
    (hlt : s'.readsLeft k < s.readsLeft k)
    (hpc : s'.server.pc = s.server.pc) (hcall : s'.callPc = s.callPc)
    (hmem : s'.server.mem = s.server.mem)
    (htotal : s'.server.totalScans = s.server.totalScans) : s'.left < s.left := by
  have hsame : ∀ f, s'.total f = s.total f := fun f => by
    rw [Process.total, Process.total, hpc, hcall]
  have husers : s'.users = s.users := by rw [Process.users, Process.users, hmem, hsame]
  have htotals : s'.totalsLeft s'.users = s.totalsLeft s.users := by
    rw [Process.totalsLeft, Process.totalsLeft, husers, htotal, hsame]
  have hrecords : s'.recordsLeft < s.recordsLeft := by
    rw [Process.recordsLeft, Process.recordsLeft, hlen, hsame]
    refine Nat.add_lt_add_right (Finset.sum_lt_sum (fun j _ => ?_)
      ⟨k, Finset.mem_range.mpr hk, hlt⟩) _
    by_cases hj : j = k
    · rw [hj]
      exact hlt.le
    · exact (hother j hj).le
  rw [Process.left, Process.left, hsame, htotals]
  omega

omit [DecidableEq ι] in
/-- On to another field. -/
theorem Process.left_toField_lt {pc : RowPc} (hk : s.server.toCollectScans[k]? = some (id :: ids))
    (hlt : pc.left < (s.rows k).left) : (s.toField k pc).left < s.left := by
  refine Process.left_lt_of_row (List.getElem?_eq_some_iff.mp hk).1 rfl (fun j hj => ?_) ?_ rfl rfl
    rfl rfl
  · show 3 * _ + (Function.update s.rows k pc j).left = _
    rw [Function.update_of_ne hj]
    rfl
  · show 3 * _ + (Function.update s.rows k pc k).left < _
    rw [Function.update_self]
    exact Nat.add_lt_add_left hlt _

omit [DecidableEq ι] in
/-- On to the next row. -/
theorem Process.left_nextRow_lt (hk : s.server.toCollectScans[k]? = some (id :: ids))
    (tc : ToCollectTable) : (s.nextRow k ids tc).left < s.left := by
  have hlt : k < s.server.toCollectScans.length := (List.getElem?_eq_some_iff.mp hk).1
  refine Process.left_lt_of_row hlt List.length_set (fun j hj => ?_) ?_ rfl rfl rfl rfl
  · show 3 * (((s.server.toCollectScans.set k ids)[j]?).getD []).length
      + (Function.update s.rows k .modified j).left = _
    rw [Function.update_of_ne hj, List.getElem?_set_ne (Ne.symm hj)]
    rfl
  · show 3 * (((s.server.toCollectScans.set k ids)[k]?).getD []).length
      + (Function.update s.rows k .modified k).left < _
    rw [Function.update_self, List.getElem?_set_self hlt, Process.readsLeft, hk]
    show 3 * ids.length + 2 < 3 * (ids.length + 1) + _
    omega

/-- Changing one entry of a list changes the sum by that entry's summand. -/
theorem sum_map_set {α : Type*} (f : α → ℕ) {l : List α} {k : ℕ} {a : α} (h : l[k]? = some a)
    (x : α) : ((l.set k x).map f).sum + f a = (l.map f).sum + f x := by
  induction l generalizing k with
  | nil => cases h
  | cons b l ih =>
    cases k with
    | zero =>
      obtain rfl := Option.some.inj h
      rw [List.set_cons_zero, List.map_cons, List.map_cons, List.sum_cons, List.sum_cons]
      omega
    | succ k =>
      have hrest := ih h
      rw [List.set_cons_succ, List.map_cons, List.map_cons, List.sum_cons, List.sum_cons]
      omega

omit [DecidableEq ι] in
/-- A flush of the totals that begins or makes a step has less to do. -/
theorem Process.left_lt_of_total {us : Option (List CString)} {us' : List CString}
    (hk : s.server.totalScans[k]? = some us) (tab : TotalTable)
    (hlt : us'.length < us.elim (s.users + 1) List.length) :
    ({ s with server := { s.server with
        total := tab
        totalScans := s.server.totalScans.set k (some us') } } : Process ι).left < s.left := by
  have hsum := sum_map_set (fun us => us.elim (s.users + 1) List.length) hk (some us')
  have hsum' : ((s.server.totalScans.set k (some us')).map fun us =>
      us.elim (s.users + 1) List.length).sum
        < (s.server.totalScans.map fun us => us.elim (s.users + 1) List.length).sum := by
    dsimp only [Option.elim_some] at hsum
    omega
  exact Nat.add_lt_add_left (Nat.add_lt_add_right hsum' _) _

/-- **What is left to do goes down with every step**, if nothing more is received. -/
theorem ProcessStep.left_lt (h : ProcessStep s a s' es) (hinput : inputless a s = true) :
    s'.left < s.left := by
  cases a with
  | http i input =>
    obtain rfl : input = none := Option.isNone_iff_eq_none.mp hinput
    exact h.advances.left_lt
  | scanRecord k =>
    cases h with
    | reads _ id ids hk hrow => exact Process.left_toField_lt hk (by rw [hrow]; decide)
    | skips _ id ids hk => exact Process.left_nextRow_lt hk _
    | readsStatus _ id ids hk hrow =>
      exact Process.left_toField_lt hk (by rw [hrow]; exact Nat.zero_lt_one)
    | writes _ id ids newStatus hk => exact Process.left_nextRow_lt hk _
  | scanTotal k order =>
    cases h with
    | totals _ _ t es h =>
      cases h with
      | beginsTotal _ _ hk horder =>
        refine Process.left_lt_of_total hk s.server.total ?_
        have hlen : order.length = s.server.mem.memTotalEnergyMap.keys.card := by
          rw [← horder.2, List.toFinset_card_of_nodup horder.1]
        rw [hlen]
        exact Nat.lt_succ_of_le (Nat.le_add_right _ _)
      | scansTotal _ u us hk => exact Process.left_lt_of_total hk _ (Nat.lt_succ_self us.length)

end Flush

/-! ## Where it stops -/

/-- Where a thread is with a chunk, it was received; and where it is to start a flush, its
request triggers one. -/
structure HttpPc.Sound (tr : List HttpEvent) (pc : HttpPc) : Prop where
  received : ∀ c, pc.chunk? = some c → c ∈ chunksOf tr
  triggers : ∀ cnt, pc = .start cnt → isTrigger cnt = true

theorem HttpMove.sound {pc pc' : HttpPc} (h : HttpMove pc pc' es) (hs : pc.Sound tr) :
    pc'.Sound (tr ++ es) := by
  have hold : ∀ c, pc.chunk? = some c → c ∈ chunksOf (tr ++ es) := fun c hc => by
    rw [chunksOf_append]
    exact List.mem_append_left _ (hs.received c hc)
  cases h with
  | receives c =>
    refine ⟨fun d hd => ?_, fun _ h => HttpPc.noConfusion h⟩
    rw [chunksOf_append, ← Option.some.inj hd]
    exact List.mem_append_right _ List.mem_cons_self
  | counts c cnt =>
    refine ⟨fun d hd => hold d ?_, fun n h => ?_⟩
    · rw [toList_chunk?_afterCount] at hd
      exact hd
    · unfold afterCount at h
      split at h <;> cases h
  | responds c cnt => exact ⟨hold, fun _ h => HttpPc.noConfusion h⟩
  | handles c cnt =>
    refine ⟨fun d hd => ?_, fun n h => ?_⟩
    · rw [chunk?_afterHandle] at hd
      cases hd
    · unfold afterHandle at h
      split at h
      · obtain rfl := HttpPc.start.inj h
        assumption
      · cases h
  | enters | leaves | ends | starts | respondsLate | finishes =>
    exact ⟨fun _ hc => absurd hc.symm (Option.some_ne_none _), fun _ h => HttpPc.noConfusion h⟩

theorem ProcessRun.sound (h : ProcessRun m db tr s) (i : ι) : (s.server.pc i).Sound tr := by
  refine Run.invariant (I := fun tr (s : Process ι) => ∀ i, (s.server.pc i).Sound tr)
    (fun _ => ⟨fun _ hc => absurd hc.symm (Option.some_ne_none _),
      fun _ h => HttpPc.noConfusion h⟩) (fun tr s a s' es hr hI hs i => ?_) h i
  rcases (threaded_process m db).move hr hs with ⟨hpc, rfl⟩ | ⟨j, pc', hpc, hmove⟩
  · rw [List.append_nil, hpc]
    exact hI i
  · rw [hpc]
    by_cases hij : i = j
    · rw [hij, Function.update_self]
      exact hmove.sound (hI j)
    · rw [Function.update_of_ne hij]
      refine ⟨fun c hc => ?_, (hI i).triggers⟩
      rw [chunksOf_append]
      exact List.mem_append_left _ ((hI i).received c hc)

/-- **Everything a flush is to read is there.** -/
structure Scannable (s : Process ι) : Prop where
  slots : ∀ id : RecordId, 1 ≤ (id : ℕ) → (s.server.mem.memToCollects id).isSome = true
  ids : ∀ ids ∈ s.server.toCollectScans, ∀ id ∈ ids, 1 ≤ (id : ℕ)

/-- **The calls under way** of a reachable process, as calls that share the memory. -/
theorem ProcessRun.exists_locked [Fintype ι] (hload : loadInMem db = .ok m)
    (h : ProcessRun m db tr s) :
    ∃ call : ι → Call, Locked call s.shared
      ∧ (∀ i c, (s.server.pc i).call? = some c → call i = c)
      ∧ ∀ i, (s.server.pc i).call? = none → s.callPc i = .check := by
  obtain ⟨tr', t, -, m', tc, -, hR, -⟩ := ProcessRun.exists_follows hload h
  obtain ⟨call, ctr, order, cs, hM⟩ := hR.matched
  exact ⟨call, hM.linearized.locked, hM.calls, hM.idle⟩

theorem ProcessRun.scannable [Fintype ι] (hload : loadInMem db = .ok m) (hall : db.AllIds)
    (h : ProcessRun m db tr s) : Scannable s := by
  refine Run.invariant (I := fun _ (s : Process ι) => Scannable s)
    ⟨fun id hid => (loaded_of_loadInMem hload).isSome_slot hall hid,
      fun ids hids => absurd hids List.not_mem_nil⟩ (fun tr s a s' es hr hI hs => ?_) h
  cases processStep_cases hs with
  | threads i hne t es h =>
    obtain ⟨hmem, -, -, hscans⟩ := h.outside hne
    refine ⟨fun id hid => ?_, fun ids hids id hid => ?_⟩
    · show (t.mem.memToCollects id).isSome = true
      rw [hmem]
      exact hI.slots id hid
    · change ids ∈ t.toCollectScans at hids
      rcases hscans with hsame | happend
      · exact hI.ids ids (hsame ▸ hids) id hid
      · rw [happend] at hids
        rcases List.mem_append.mp hids with hids | hids
        · exact hI.ids ids hids id hid
        · rw [List.mem_singleton.mp hids] at hid
          exact mem_scanIds.mp hid
  | disposes | returns => exact ⟨hI.slots, hI.ids⟩
  | steps i c cnt d hpc hcall sh ces h =>
    obtain ⟨call, hL, hcalls, -⟩ := ProcessRun.exists_locked hload hr
    obtain rfl := hcalls i d (by rw [hpc]; exact hcall)
    have hstep : StepOf call i s.shared sh ces :=
      stepOf_of_microStep ((microStep_congr rfl).symm.trans h)
    refine ⟨fun id hid => ?_, hI.ids⟩
    obtain ⟨r, hr⟩ := Option.isSome_iff_exists.mp (hI.slots id hid)
    obtain ⟨r', hr', -⟩ := (hL.slotEvolves hstep id).exists_right hr
    exact Option.isSome_iff_exists.mpr ⟨r', hr'⟩
  | reads | readsStatus => exact ⟨hI.slots, hI.ids⟩
  | skips k id ids hk | writes k id ids _ hk =>
    refine ⟨hI.slots, fun ids' hids' id' hid' => ?_⟩
    rcases List.mem_or_eq_of_mem_set hids' with hids' | rfl
    · exact hI.ids ids' hids' id' hid'
    · exact hI.ids _ (List.mem_of_getElem? hk) id' (List.mem_cons_of_mem id hid')
  | totals k order t es h =>
    cases h with
    | beginsTotal | scansTotal => exact ⟨hI.slots, hI.ids⟩

/-- **A chunk that does no harm**: whatever is in memory, `handle_request` returns. -/
def Chunk.Harmless (c : Chunk) : Prop := ∀ m, ∃ m', handleRequest c.line c.len m = .ok m'

/-- A thread outside its call waits for nobody. -/
theorem isSome_threadStep (hsound : (s.server.pc i).Sound tr)
    (hclosed : s.server.pc i ≠ .closed) (hcall : ∀ c cnt, s.server.pc i ≠ .handle c cnt) :
    (threadStep i none s).isSome = true := by
  unfold threadStep httpStep
  cases hpc : s.server.pc i with
  | guard | recv | count | respond | respondLate | finish => rfl
  | start cnt =>
    have htrig : cnt.toNat = reqTotalCnt - 1 ∨ cnt.toNat = reqTotalCnt := by
      simpa [isTrigger] using hsound.triggers cnt hpc
    dsimp only
    by_cases hfirst : cnt.toNat = reqTotalCnt - 1
    · rw [if_pos hfirst]
      rfl
    · rw [if_neg hfirst, if_pos (htrig.resolve_left hfirst)]
      rfl
  | handle c cnt => exact absurd hpc (hcall c cnt)
  | closed => exact absurd hpc hclosed

/-- A thread in its call waits for nobody when it has returned or the call can step. -/
theorem isSome_threadStep_of_call {call : ι → Call} {c : Chunk} {cnt : UInt32}
    (hpc : s.server.pc i = .handle c cnt) (hcall : c.call? = some (call i))
    (h : (s.callPc i).ended = true ∨ (microStep call i s.shared).isSome = true) :
    (threadStep i none s).isSome = true := by
  unfold threadStep
  rw [hpc]
  dsimp only
  unfold handleStep
  rw [hcall]
  dsimp only
  split
  · rfl
  · rename_i hend
    have hsame : microStep (fun _ => call i) i s.shared = microStep call i s.shared :=
      microStep_congr rfl
    rw [Option.isSome_map, hsame]
    exact h.resolve_left hend

/-- A thread in a call that shares nothing is done with it in one step. -/
theorem isSome_threadStep_of_harmless {c : Chunk} {cnt : UInt32}
    (hpc : s.server.pc i = .handle c cnt) (hcall : c.call? = none) (hc : c.Harmless) :
    (threadStep i none s).isSome = true := by
  obtain ⟨m', hm'⟩ := hc s.server.mem
  unfold threadStep
  rw [hpc]
  dsimp only
  unfold handleStep
  rw [hcall, hm']
  rfl

/-- A thread whose call has returned or can step can step. -/
theorem isSome_threadStep_of_calls {call : ι → Call}
    (hcalls : ∀ i c, (s.server.pc i).call? = some c → call i = c)
    (hne : (s.server.pc i).call? ≠ none)
    (h : (s.callPc i).ended = true ∨ (microStep call i s.shared).isSome = true) :
    (threadStep i none s).isSome = true := by
  obtain ⟨d, hd⟩ := Option.ne_none_iff_exists'.mp hne
  cases hpc : s.server.pc i with
  | handle c cnt =>
    have hcall : c.call? = some (call i) := by
      rw [hcalls i d hd]
      rw [hpc] at hd
      exact hd
    exact isSome_threadStep_of_call hpc hcall h
  | guard | recv | count | respond | start | respondLate | finish | closed =>
    rw [hpc] at hd
    cases hd

/-- **A call under way keeps the process going**: it can step, or its mutex is held by
one that can. -/
theorem exists_isSome_threadStep {call : ι → Call} (hL : Locked call s.shared)
    (hcalls : ∀ i c, (s.server.pc i).call? = some c → call i = c)
    (hidle : ∀ i, (s.server.pc i).call? = none → s.callPc i = .check)
    (hne : (s.server.pc i).call? ≠ none) :
    ∃ j, (s.server.pc j).call? ≠ none ∧ (threadStep j none s).isSome = true := by
  by_cases hend : (s.callPc i).ended = true
  · exact ⟨i, hne, isSome_threadStep_of_calls hcalls hne (Or.inl hend)⟩
  · rcases hL.step_or_wait (i := i) (Bool.eq_false_of_not_eq_true hend) with hstep | ⟨j, hj, hstep⟩
    · exact ⟨i, hne, isSome_threadStep_of_calls hcalls hne (Or.inr hstep)⟩
    · have hne' : (s.server.pc j).call? ≠ none := fun hnone => by
        have hin := ((hL.mutex_iff _ j).mp hj).1
        rw [show s.shared.pc j = s.callPc j from rfl, hidle j hnone] at hin
        exact Bool.false_ne_true hin
      exact ⟨j, hne', isSome_threadStep_of_calls hcalls hne' (Or.inr hstep)⟩

omit [DecidableEq ι] in
/-- A flush of the records that can go no further has ended. -/
theorem Scannable.eq_nil_of_rowStep {k : ℕ} {ids : List RecordId} (hscan : Scannable s)
    (hk : s.server.toCollectScans[k]? = some ids) (h : rowStep k s = none) : ids = [] := by
  cases ids with
  | nil => rfl
  | cons id ids =>
    obtain ⟨r, hr⟩ := Option.isSome_iff_exists.mp
      (hscan.slots id (hscan.ids _ (List.mem_of_getElem? hk) id List.mem_cons_self))
    unfold rowStep at h
    rw [hk] at h
    dsimp only at h
    rw [hr] at h
    cases h

omit [DecidableEq ι] in
/-- A flush of the totals that can go no further has ended. -/
theorem eq_some_nil_of_scanTotalStep {t : Server ι} {k : ℕ}
    {us : Option (List CString)} (hk : t.totalScans[k]? = some us)
    (h : ∀ order, scanTotalStep k order t = none) : us = some [] := by
  obtain ⟨order, horder⟩ := t.mem.memTotalEnergyMap.exists_enumerates
  have hstep := h order
  unfold scanTotalStep at hstep
  rw [hk] at hstep
  cases us with
  | none =>
    dsimp only at hstep
    rw [if_pos horder] at hstep
    cases hstep
  | some us =>
    cases us with
    | nil => rfl
    | cons u us => cases hstep

/-- **Where nobody who has come to its loop can go further, and no flush can, the process is
idle.** -/
theorem ProcessRun.idle [Fintype ι] (hload : loadInMem db = .ok m) (hall : db.AllIds)
    (h : ProcessRun m db tr s) (hharmless : ∀ c ∈ chunksOf tr, c.Harmless)
    (hthread : ∀ i, s.server.pc i ≠ .guard → threadStep i none s = none)
    (hrow : ∀ k, rowStep k s = none)
    (htotal : ∀ k order, scanTotalStep k order s.server = none) : Idle s := by
  obtain ⟨call, hL, hcalls, hidle⟩ := ProcessRun.exists_locked hload h
  have hguard : ∀ i, (threadStep i none s).isSome = true → s.server.pc i = .guard := by
    intro i hsome
    by_contra hne
    rw [hthread i hne] at hsome
    cases hsome
  have hnocall : ∀ i, (s.server.pc i).call? = none := by
    intro i
    by_contra hne
    -- whoever goes on is in a call, and so past the guard
    obtain ⟨j, hj, hsome⟩ := exists_isSome_threadStep hL hcalls hidle hne
    exact hj (by rw [hguard j hsome]; rfl)
  have hpc : ∀ i, s.server.pc i = .guard ∨ s.server.pc i = .closed := by
    intro i
    by_contra hne
    obtain ⟨hne, hclosed⟩ := not_or.mp hne
    refine hne (hguard i ?_)
    by_cases hhandle : ∃ c cnt, s.server.pc i = .handle c cnt
    · obtain ⟨c, cnt, hpc⟩ := hhandle
      have hcall := hnocall i
      rw [hpc] at hcall
      exact isSome_threadStep_of_harmless hpc hcall
        (hharmless c ((h.sound i).received c (by rw [hpc]; rfl)))
    · exact isSome_threadStep (h.sound i) hclosed fun c cnt hpc => hhandle ⟨c, cnt, hpc⟩
  refine ⟨hpc, fun id => ?_, fun ids hids => ?_, fun us hus => ?_⟩
  · refine Option.eq_none_iff_forall_ne_some.mpr fun i hi => ?_
    have hin := ((hL.mutex_iff id i).mp hi).1
    have hcheck : s.callPc i = .check := hidle i (hnocall i)
    rw [show s.shared.pc i = s.callPc i from rfl, hcheck] at hin
    exact absurd hin Bool.false_ne_true
  · obtain ⟨k, hk⟩ := List.mem_iff_getElem?.mp hids
    exact (ProcessRun.scannable hload hall h).eq_nil_of_rowStep hk (hrow k)
  · obtain ⟨k, hk⟩ := List.mem_iff_getElem?.mp hus
    exact eq_some_nil_of_scanTotalStep hk (htotal k)

/-- **Where nothing more can happen, the process is at rest.** -/
theorem ProcessRun.atRest [Fintype ι] (hload : loadInMem db = .ok m) (hall : db.AllIds)
    (h : ProcessRun m db tr s) (hharmless : ∀ c ∈ chunksOf tr, c.Harmless)
    (hquiet : Quiet (only inputless processStep) s) : AtRest s := by
  have hthread : ∀ i, threadStep i none s = none := fun i => hquiet (.http i none)
  have hI := h.idle hload hall hharmless (fun i _ => hthread i) (fun k => hquiet (.scanRecord k))
    fun k order => Option.map_eq_none_iff.mp (hquiet (.scanTotal k order))
  refine ⟨fun i => (hI.pc i).resolve_left fun hpc => ?_, hI.mutex, hI.toCollectScans, hI.totalScans⟩
  have hsome := isSome_threadStep (h.sound i) (by rw [hpc]; exact HttpPc.noConfusion)
    fun c cnt hpc' => HttpPc.noConfusion (hpc.symm.trans hpc')
  rw [hthread i] at hsome
  cases hsome

/-- Without input nothing is received. -/
theorem chunksOf_inputless (h : Run (only inputless processStep) s tr s') : chunksOf tr = [] := by
  refine Run.invariant (I := fun tr _ => chunksOf tr = []) rfl (fun tr s a s' es _ hI hs => ?_) h
  obtain ⟨hinput, hs⟩ := only_eq_some.mp hs
  rw [chunksOf_append, hI, List.nil_append]
  cases processStep_cases hs with
  | threads i _ t es h =>
    cases h with
    | receives => exact absurd hinput Bool.false_ne_true
    | enters | leaves | ends | counts | responds | handles | startsToCollect | startsTotal
    | respondsLate | finishes => rfl
  | totals k order t es h => cases h <;> rfl
  | disposes | steps | returns | reads | skips | readsStatus | writes => rfl

/-- Where the process is idle all requests received are done. -/
theorem ProcessRun.done_of_idle [Fintype ι] (hload : loadInMem db = .ok m)
    (h : ProcessRun m db tr s) (hI : Idle s) : done tr = (chunksOf tr).length := by
  obtain ⟨tr', t, hrun, m', tc, rfl, -, htr⟩ := ProcessRun.exists_follows hload h
  have hpc : ∀ i, (s.atomic m' tc).pc i = s.server.pc i := by
    intro i
    show (s.server.pc i).after (s.callPc i) = _
    rcases hI.pc i with hpc | hpc <;> rw [hpc] <;> rfl
  have hcount : ∀ i, ((s.atomic m' tc).pc i).atCount = false := by
    intro i
    rw [hpc]
    rcases hI.pc i with hpc | hpc <;> rw [hpc] <;> rfl
  have hfree : ∀ i, ((s.atomic m' tc).pc i).inFlight = false := by
    intro i
    rw [hpc]
    rcases hI.pc i with hpc | hpc <;> rw [hpc] <;> rfl
  have hreceived := hrun.received
  have hflight := hrun.inFlight
  simp only [hcount, hfree, Bool.toNat_false, Finset.sum_const_zero, add_zero]
    at hreceived hflight
  rw [← done_filter_seen tr, ← htr, done_filter_seen, ← chunksOf_filter_seen tr, ← htr,
    chunksOf_filter_seen]
  exact hflight.symm.trans hreceived.symm

omit [DecidableEq ι] in
theorem AtRest.idle (h : AtRest s) : Idle s :=
  ⟨fun i => Or.inr (h.closed i), h.mutex, h.toCollectScans, h.totalScans⟩

/-- What is left to do goes down. -/
theorem inputless_descends [Fintype ι] :
    Descends (only inputless (processStep (ι := ι))) (fun _ => True) Process.left where
  keeps := fun _ _ => trivial
  lowers := fun _ hs =>
    let ⟨hinput, hs⟩ := only_eq_some.mp hs
    (processStep_cases hs).left_lt hinput

/-- **The process comes to rest.** From every reachable state of a process whose records
are all there and whose chunks do no harm: if nothing more is received, no schedule goes
on for ever, and where one can go no further all threads are past their loops, all
mutexes are free, all flushes have ended, and every request received is done. So the run
can be carried on to such a state. -/
theorem process_completes [Fintype ι] (hload : loadInMem db = .ok m) (hall : db.AllIds)
    (h : ProcessRun m db tr s) (hharmless : ∀ c, .received c ∈ tr → c.Harmless) :
    (∃ n, ∀ as s' tr', Run.exec (only inputless processStep) as s = some (s', tr') →
        as.length ≤ n)
      ∧ (∀ tr' s', Run (only inputless processStep) s tr' s' →
        Quiet (only inputless processStep) s' →
          AtRest s' ∧ done (tr ++ tr') = (chunksOf tr).length)
      ∧ ∃ tr' s', Run (only inputless processStep) s tr' s' ∧ AtRest s'
        ∧ done (tr ++ tr') = (chunksOf tr).length := by
  have hrest : ∀ tr' s', Run (only inputless processStep) s tr' s' →
      Quiet (only inputless processStep) s' →
        AtRest s' ∧ done (tr ++ tr') = (chunksOf tr).length := by
    intro tr' s' hr hquiet
    have hrun : ProcessRun m db (tr ++ tr') s' := h.append (Run.of_only hr)
    have hchunks : chunksOf (tr ++ tr') = chunksOf tr := by
      rw [chunksOf_append, chunksOf_inputless hr, List.append_nil]
    have hat : AtRest s' := hrun.atRest hload hall (fun c hc => hharmless c
      (mem_chunksOf.mp (hchunks ▸ hc))) hquiet
    exact ⟨hat, (hrun.done_of_idle hload hat.idle).trans (congrArg List.length hchunks)⟩
  refine ⟨⟨s.left, fun as s' tr' hexec => ?_⟩, hrest, ?_⟩
  · have hle := inputless_descends.length_le trivial hexec
    omega
  · obtain ⟨tr', s', hr, hquiet⟩ := inputless_descends.exists_quiet trivial (s := s)
    obtain ⟨hat, hdone⟩ := hrest tr' s' hr hquiet
    exact ⟨tr', s', hr, hat, hdone⟩

/-- Calls do no harm. -/
theorem Call.harmless (call : Call) : call.chunk.Harmless :=
  fun m => ⟨_, call.handleRequest_eq m⟩

/-- A run in which one connection has a request at hand, and the other waits for one. -/
theorem exists_processRun_threeUnits :
    ∃ m, ∃ s : Process Bool, loadInMem threeUnitsDb = .ok m
      ∧ ProcessRun m threeUnitsDb
        [.received (raceCalls 0).chunk, .numbered 1, .responded 1] s := by
  obtain ⟨m, hm⟩ : ∃ m, loadInMem threeUnitsDb = .ok m := exists_loadInMem_uniformDb
  have hexec : (Run.exec processStep
      [.http false none, .http true none, .http true (some (raceCalls 0).chunk),
        .http true none, .http true none] (Process.start m threeUnitsDb)).map Prod.snd
      = some [.received (raceCalls 0).chunk, .numbered 1, .responded 1] := rfl
  obtain ⟨⟨s, tr⟩, hrun, rfl⟩ := Option.map_eq_some_iff.mp hexec
  exact ⟨m, s, hm, Run.of_exec hrun⟩

/-- The request is done, and the other connection is left. -/
theorem process_completes_threeUnits :
    ∃ (m : Mem) (s s' : Process Bool) (tr tr' : List HttpEvent),
      loadInMem threeUnitsDb = .ok m ∧ ProcessRun m threeUnitsDb tr s
        ∧ chunksOf tr = [(raceCalls 0).chunk] ∧ ProcessRun m threeUnitsDb (tr ++ tr') s'
        ∧ AtRest s' ∧ done (tr ++ tr') = 1 := by
  obtain ⟨m, s, hm, hrun⟩ := exists_processRun_threeUnits
  obtain ⟨-, -, tr', s', hr, hrest, hdone⟩ := process_completes hm allIds_uniformDb hrun
    fun c hc => by
      obtain rfl : c = (raceCalls 0).chunk := by simpa using hc
      exact (raceCalls 0).harmless
  exact ⟨m, s, s', _, tr', hm, hrun, rfl, hrun.append (Run.of_only hr), hrest, hdone⟩

end GreenFinal
