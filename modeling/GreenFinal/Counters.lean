import GreenFinal.FuncHttp
import Mathlib.Algebra.BigOperators.Group.Finset.Piecewise

/-!
# The two counters

A thread reads `done_count` at its loop guard and draws its number from
`req_cnt` only after it has received something, so by then any number of
others may have finished and the thread overruns `REQ_TOTAL_CNT`. By how much
is bounded: when a thread passes the guard fewer than `REQ_TOTAL_CNT` requests
are done, and each thread is past the guard with at most one request. So
`done_count` and the threads past the guard together stay below
`REQ_TOTAL_CNT` plus the number of threads, and with them `req_cnt`.

With that neither counter wraps, every number is drawn once, and the two
numbers that trigger a flush do so once. `flushes_once` in
`GreenFinal.Progress` collects this.
-/

open CLib Interleave

namespace GreenFinal

namespace HttpPc

/-- Between the two counter increments. -/
def inFlight : HttpPc → Bool
  | .respond .. | .handle .. | .start _ | .respondLate _ | .finish _ => true
  | _ => false

/-- With a request received and no number drawn. -/
def atCount : HttpPc → Bool
  | .count _ => true
  | _ => false

/-- The chunk received and not yet handled. -/
def chunk? : HttpPc → Option Chunk
  | .count c | .respond c _ | .handle c _ => some c
  | _ => none

/-- Past the loop guard, with a request to come or at hand. -/
def pastGuard : HttpPc → Bool
  | .guard | .closed => false
  | _ => true

/-- At hand is the request with the given number. -/
def holds (n : UInt32) : HttpPc → Bool
  | .respond _ cnt | .handle _ cnt | .start cnt | .respondLate cnt | .finish cnt => cnt = n
  | _ => false

/-- At hand is the request with the given number, and it has not started a flush. -/
def unstarted (n : UInt32) : HttpPc → Bool
  | .respond _ cnt | .handle _ cnt | .start cnt => cnt = n
  | _ => false

/-- The request with the given number has been handled. -/
def handled (n : UInt32) : HttpPc → Bool
  | .start cnt | .respondLate cnt | .finish cnt => cnt = n
  | _ => false

end HttpPc

/-- The chunks received, in order. -/
def chunksOf (tr : List HttpEvent) : List Chunk :=
  tr.filterMap fun e => match e with
    | .received c => some c
    | _ => none

/-- How many chunks have been received. -/
def received (tr : List HttpEvent) : ℕ := (chunksOf tr).length

/-- How many numbers have been drawn. -/
def drawn (tr : List HttpEvent) : ℕ :=
  tr.countP fun e => match e with
    | .numbered _ => true
    | _ => false

/-- How many requests have been counted as done. -/
def done (tr : List HttpEvent) : ℕ :=
  tr.countP fun e => match e with
    | .finished _ => true
    | _ => false

theorem chunksOf_append (tr es : List HttpEvent) :
    chunksOf (tr ++ es) = chunksOf tr ++ chunksOf es := List.filterMap_append

theorem mem_chunksOf {tr : List HttpEvent} {c : Chunk} :
    c ∈ chunksOf tr ↔ .received c ∈ tr := by
  unfold chunksOf
  rw [List.mem_filterMap]
  constructor
  · rintro ⟨e, he, heq⟩
    split at heq
    · rw [← Option.some.inj heq]
      exact he
    · exact absurd heq.symm (Option.some_ne_none c)
  · exact fun h => ⟨_, h, rfl⟩

theorem received_append (tr es : List HttpEvent) :
    received (tr ++ es) = received tr + received es := by
  rw [received, chunksOf_append, List.length_append]
  rfl

theorem drawn_append (tr es : List HttpEvent) : drawn (tr ++ es) = drawn tr + drawn es :=
  List.countP_append

theorem done_append (tr es : List HttpEvent) : done (tr ++ es) = done tr + done es :=
  List.countP_append

theorem inFlight_afterCount (c : Chunk) (cnt : UInt32) :
    (afterCount c cnt).inFlight = true := by
  unfold afterCount
  split <;> rfl

theorem inFlight_afterHandle (cnt : UInt32) : (afterHandle cnt).inFlight = true := by
  unfold afterHandle
  split <;> rfl

theorem pastGuard_afterCount (c : Chunk) (cnt : UInt32) :
    (afterCount c cnt).pastGuard = true := by
  unfold afterCount
  split <;> rfl

theorem pastGuard_afterHandle (cnt : UInt32) : (afterHandle cnt).pastGuard = true := by
  unfold afterHandle
  split <;> rfl

variable {ι : Type*} [DecidableEq ι] {m : Mem} {db : Database} {tr es : List HttpEvent}
  {s s' : Server ι} {a : Action ι}

/-! ## What a step does to the counts -/

section Steps

variable [Fintype ι]

/-- A thread that moves changes a count of the threads by its own share. -/
theorem sum_toNat_update (f : HttpPc → Bool) (s : Server ι) (i : ι) (pc : HttpPc) :
    ∑ j, (f (Function.update s.pc i pc j)).toNat + (f (s.pc i)).toNat
      = ∑ j, (f (s.pc j)).toNat + (f pc).toNat :=
  sum_update (fun pc => (f pc).toNat) s.pc i pc

/-- **A number is drawn or a request done for every change of the requests in
flight.** -/
theorem ServerStep.inFlight (h : ServerStep s a s' es) :
    done es + ∑ j, (s'.pc j).inFlight.toNat = drawn es + ∑ j, (s.pc j).inFlight.toNat := by
  have hsum := sum_toNat_update HttpPc.inFlight s
  cases h with
  | counts i c hpc =>
    have h := hsum i (afterCount c (s.reqCnt + 1))
    rw [hpc, inFlight_afterCount] at h
    exact (Nat.zero_add _).trans (h.trans (Nat.add_comm _ _))
  | finishes i cnt hpc =>
    have h := hsum i .guard
    rw [hpc] at h
    exact (Nat.add_comm _ _).trans (h.trans (Nat.add_comm _ _))
  | handles i c cnt hpc m hm =>
    have h := hsum i (afterHandle cnt)
    rw [hpc, inFlight_afterHandle] at h
    exact congrArg (0 + ·) (Nat.add_right_cancel h)
  | enters i hpc | leaves i hpc | receives i hpc | ends i hpc | responds i _ _ hpc
  | startsToCollect i _ hpc | startsTotal i _ hpc | respondsLate i _ hpc =>
    have hsame : ∀ pc : HttpPc, pc.inFlight = (s.pc i).inFlight →
        ∑ j, (Function.update s.pc i pc j).inFlight.toNat = ∑ j, (s.pc j).inFlight.toNat := by
      intro pc heq
      have h := hsum i pc
      rw [heq] at h
      exact Nat.add_right_cancel h
    exact congrArg (0 + ·) (hsame _ (by rw [hpc]; rfl))
  | scansRecord | beginsTotal | scansTotal => rfl

/-- **Only the guard lets a thread in**, and only while requests are missing. -/
theorem ServerStep.pastGuard (h : ServerStep s a s' es) :
    (done es = 0 ∧ s.doneCnt.toNat < reqTotalCnt)
      ∨ done es + ∑ j, (s'.pc j).pastGuard.toNat ≤ ∑ j, (s.pc j).pastGuard.toNat := by
  have hsum := sum_toNat_update HttpPc.pastGuard s
  have hle : ∀ i pc, pc.pastGuard.toNat ≤ (s.pc i).pastGuard.toNat →
      ∑ j, (Function.update s.pc i pc j).pastGuard.toNat
        ≤ ∑ j, (s.pc j).pastGuard.toNat := by
    intro i pc hpc
    have h := hsum i pc
    omega
  cases h with
  | enters i hpc h => exact Or.inl ⟨rfl, h⟩
  | finishes i cnt hpc =>
    have h := hsum i .guard
    rw [hpc] at h
    exact Or.inr (le_of_eq ((Nat.add_comm _ _).trans h))
  | counts i c hpc =>
    refine Or.inr ((Nat.zero_add _).trans_le (hle i (afterCount c _) ?_))
    rw [hpc, pastGuard_afterCount]
    exact le_rfl
  | handles i c cnt hpc m hm =>
    refine Or.inr ((Nat.zero_add _).trans_le (hle i (afterHandle cnt) ?_))
    rw [hpc, pastGuard_afterHandle]
    exact le_rfl
  | leaves i hpc | receives i hpc | ends i hpc | responds i _ _ hpc
  | startsToCollect i _ hpc | startsTotal i _ hpc | respondsLate i _ hpc =>
    exact Or.inr ((Nat.zero_add _).trans_le
      (hle i _ (by rw [hpc]; simp [HttpPc.pastGuard])))
  | scansRecord | beginsTotal | scansTotal => exact Or.inr (Nat.zero_add _).le

/-- **The event a request with a trigger's number is to bring about.** -/
inductive Triggers : UInt32 → HttpEvent → Prop
  | toCollect {n : UInt32} (h : n.toNat = reqTotalCnt - 1) : Triggers n .startedToCollect
  | total {n : UInt32} (h : n.toNat = reqTotalCnt) : Triggers n .startedTotal

theorem Triggers.isTrigger {n : UInt32} {e : HttpEvent} (h : Triggers n e) :
    isTrigger n = true := by
  cases h with
  | toCollect h => simp [GreenFinal.isTrigger, h]
  | total h => simp [GreenFinal.isTrigger, h]

theorem Triggers.ne_numbered {n : UInt32} {e : HttpEvent} (h : Triggers n e) (cnt : UInt32) :
    HttpEvent.numbered cnt ≠ e := by
  cases h <;> exact HttpEvent.noConfusion

/-- Each flush has its own number. -/
theorem Triggers.eq_iff {n cnt : UInt32} {e e' : HttpEvent} (hn : Triggers n e)
    (hcnt : Triggers cnt e') : e' = e ↔ cnt = n := by
  have hne : reqTotalCnt - 1 ≠ reqTotalCnt := by decide
  cases hn with
  | toCollect h =>
    cases hcnt with
    | toCollect h' => exact iff_of_true rfl (UInt32.toNat_inj.mp (h'.trans h.symm))
    | total h' =>
      refine iff_of_false HttpEvent.noConfusion (fun heq => hne ?_)
      rw [← h, ← heq, h']
  | total h =>
    cases hcnt with
    | toCollect h' =>
      refine iff_of_false HttpEvent.noConfusion (fun heq => hne ?_)
      rw [← h', heq, h]
    | total h' => exact iff_of_true rfl (UInt32.toNat_inj.mp (h'.trans h.symm))

/-- Its start is the event of that number's request. -/
theorem Triggers.count_start {n cnt : UInt32} {e e' : HttpEvent} (hn : Triggers n e)
    (hcnt : Triggers cnt e') : [e'].count e = (decide (cnt = n)).toNat := by
  rw [List.count_singleton]
  by_cases h : cnt = n
  · rw [(hn.eq_iff hcnt).mpr h, decide_eq_true h]
    simp
  · have hne : ¬ (e' == e) = true := fun he => h ((hn.eq_iff hcnt).mp (by simpa using he))
    rw [if_neg hne, decide_eq_false h]
    rfl

/-- A step of one thread keeps a balance of events and threads if it keeps it for
that thread. -/
theorem balance_update (f : HttpPc → Bool) (s : Server ι) {i : ι} {pc : HttpPc} {a b : ℕ}
    (h : a + (f pc).toNat = b + (f (s.pc i)).toNat) :
    a + ∑ j, (f (Function.update s.pc i pc j)).toNat = b + ∑ j, (f (s.pc j)).toNat := by
  have hsum := sum_toNat_update f s i pc
  omega

/-- A number is drawn for every chunk received. -/
theorem ServerStep.received (h : ServerStep s a s' es) :
    drawn es + ∑ j, (s'.pc j).atCount.toNat = received es + ∑ j, (s.pc j).atCount.toNat := by
  cases h with
  | counts i c hpc =>
    have hafter : (afterCount c (s.reqCnt + 1)).atCount = false := by
      unfold afterCount
      split <;> rfl
    refine balance_update HttpPc.atCount s ?_
    rw [hpc, hafter]
    rfl
  | handles i c cnt hpc m hm =>
    have hafter : (afterHandle cnt).atCount = false := by
      unfold afterHandle
      split <;> rfl
    refine balance_update HttpPc.atCount s ?_
    rw [hpc, hafter]
    rfl
  | enters i hpc | leaves i hpc | receives i hpc | ends i hpc | responds i _ _ hpc
  | startsToCollect i _ hpc | startsTotal i _ hpc | respondsLate i _ hpc
  | finishes i _ hpc =>
    refine balance_update HttpPc.atCount s ?_
    rw [hpc]
    rfl
  | scansRecord | beginsTotal | scansTotal => rfl

/-- **A request that starts a flush has drawn the flush's number.** -/
theorem ServerStep.unstarted {n : UInt32} {e : HttpEvent} (hn : Triggers n e)
    (h : ServerStep s a s' es) :
    es.count e + ∑ j, ((s'.pc j).unstarted n).toNat
      = es.count (.numbered n) + ∑ j, ((s.pc j).unstarted n).toNat := by
  cases h with
  | counts i c hpc =>
    refine balance_update (HttpPc.unstarted n) s ?_
    have hafter : (afterCount c (s.reqCnt + 1)).unstarted n = decide (s.reqCnt + 1 = n) := by
      unfold afterCount
      split <;> rfl
    rw [hpc, hafter, List.count_singleton, List.count_singleton,
      if_neg (by simpa using hn.ne_numbered _)]
    by_cases hcnt : s.reqCnt + 1 = n <;> simp [hcnt, HttpPc.unstarted]
  | handles i c cnt hpc m hm =>
    refine balance_update (HttpPc.unstarted n) s ?_
    have hafter : (afterHandle cnt).unstarted n = decide (cnt = n) := by
      unfold afterHandle
      by_cases hcnt : cnt = n
      · rw [hcnt, hn.isTrigger]
        rfl
      · split
        · rfl
        · exact (decide_eq_false hcnt).symm
    have he : [HttpEvent.handled cnt].count e = 0 := by
      cases hn <;> rfl
    rw [hpc, hafter, he]
    rfl
  | startsToCollect i cnt hpc hcnt =>
    refine balance_update (HttpPc.unstarted n) s ?_
    rw [hpc, hn.count_start (.toCollect hcnt)]
    exact Nat.add_comm _ _
  | startsTotal i cnt hpc hcnt =>
    refine balance_update (HttpPc.unstarted n) s ?_
    rw [hpc, hn.count_start (.total hcnt)]
    exact Nat.add_comm _ _
  | receives i hpc | responds i _ _ hpc | respondsLate i _ hpc | finishes i _ hpc =>
    refine balance_update (HttpPc.unstarted n) s ?_
    rw [hpc]
    cases hn <;> rfl
  | enters i hpc | leaves i hpc | ends i hpc =>
    refine balance_update (HttpPc.unstarted n) s ?_
    rw [hpc]
    rfl
  | scansRecord | beginsTotal | scansTotal => rfl

end Steps

/-! ## What holds along a run -/

/-- The counters count, modulo `2^32`. -/
structure Counted (s₀ : Server ι) (tr : List HttpEvent) (s : Server ι) : Prop where
  reqCnt : s.reqCnt = s₀.reqCnt + UInt32.ofNat (drawn tr)
  doneCnt : s.doneCnt = s₀.doneCnt + UInt32.ofNat (done tr)

theorem Counted.step {s₀ : Server ι} (hC : Counted s₀ tr s) (h : ServerStep s a s' es) :
    Counted s₀ (tr ++ es) s' := by
  have hsame : s'.reqCnt = s.reqCnt → s'.doneCnt = s.doneCnt → drawn es = 0 → done es = 0 →
      Counted s₀ (tr ++ es) s' := by
    intro h₁ h₂ h₃ h₄
    refine ⟨?_, ?_⟩
    · rw [h₁, drawn_append, h₃]
      exact hC.reqCnt
    · rw [h₂, done_append, h₄]
      exact hC.doneCnt
  cases h with
  | counts i c hpc =>
    refine ⟨?_, ?_⟩
    · show s.reqCnt + 1 = _
      rw [hC.reqCnt, drawn_append, UInt32.ofNat_add, UInt32.add_assoc]
      rfl
    · rw [done_append]
      exact hC.doneCnt
  | finishes i cnt hpc =>
    refine ⟨?_, ?_⟩
    · rw [drawn_append]
      exact hC.reqCnt
    · show s.doneCnt + 1 = _
      rw [hC.doneCnt, done_append, UInt32.ofNat_add, UInt32.add_assoc]
      rfl
  | enters | leaves | receives | ends | responds | handles | startsToCollect
  | startsTotal | respondsLate | scansRecord | beginsTotal | scansTotal =>
    exact hsame rfl rfl rfl rfl

theorem counted_of_run {s₀ : Server ι} (h : Run serverStep s₀ tr s) : Counted s₀ tr s :=
  Run.invariant (I := Counted s₀)
    ⟨(UInt32.add_zero _).symm, (UInt32.add_zero _).symm⟩
    (fun _ _ _ _ _ _ hC hs => hC.step (serverStep_cases hs)) h

theorem ServerRun.toNat_reqCnt (h : ServerRun m db tr s) (hlt : drawn tr < 2 ^ 32) :
    s.reqCnt.toNat = drawn tr := by
  rw [(counted_of_run h).reqCnt]
  show (0 + UInt32.ofNat (drawn tr)).toNat = _
  rw [UInt32.zero_add, UInt32.toNat_ofNat']
  exact Nat.mod_eq_of_lt hlt

theorem ServerRun.toNat_doneCnt (h : ServerRun m db tr s) (hlt : done tr < 2 ^ 32) :
    s.doneCnt.toNat = done tr := by
  rw [(counted_of_run h).doneCnt]
  show (0 + UInt32.ofNat (done tr)).toNat = _
  rw [UInt32.zero_add, UInt32.toNat_ofNat']
  exact Nat.mod_eq_of_lt hlt

section Threads

variable [Fintype ι]

/-- The requests in flight are those drawn and not done. -/
theorem ServerRun.inFlight (h : ServerRun m db tr s) :
    drawn tr = done tr + ∑ j, (s.pc j).inFlight.toNat := by
  refine Run.invariant (I := fun tr (s : Server ι) => drawn tr
    = done tr + ∑ j, (s.pc j).inFlight.toNat) ?_ (fun tr s a s' es _ hI hs => ?_) h
  · show 0 = 0 + ∑ _j : ι, 0
    rw [Finset.sum_const_zero, Nat.add_zero]
  · have hstep := (serverStep_cases hs).inFlight
    rw [drawn_append, done_append]
    omega

omit [DecidableEq ι] in
theorem sum_toNat_le_card (f : HttpPc → Bool) (s : Server ι) :
    ∑ j, (f (s.pc j)).toNat ≤ Fintype.card ι := by
  rw [Fintype.card_eq_sum_ones]
  exact Finset.sum_le_sum (fun j _ => Bool.toNat_le _)

/-- **The overrun is bounded by the threads.** -/
theorem ServerRun.pastGuard (hT : Fintype.card ι + reqTotalCnt ≤ 2 ^ 32)
    (h : ServerRun m db tr s) :
    done tr + ∑ j, (s.pc j).pastGuard.toNat ≤ reqTotalCnt - 1 + Fintype.card ι := by
  refine Run.invariant (I := fun tr (s : Server ι) => done tr
    + ∑ j, (s.pc j).pastGuard.toNat ≤ reqTotalCnt - 1 + Fintype.card ι) ?_
    (fun tr s a s' es hr hI hs => ?_) h
  · have hzero : ∑ j, ((Server.start m db : Server ι).pc j).pastGuard.toNat = 0 :=
      Finset.sum_const_zero
    rw [hzero]
    exact Nat.zero_le _
  · have hpos : 1 ≤ reqTotalCnt := by decide
    rw [done_append]
    rcases (serverStep_cases hs).pastGuard with ⟨hdone, hlt⟩ | hle
    · -- the thread that passes the guard has seen fewer than all requests done
      rw [ServerRun.toNat_doneCnt hr (by omega)] at hlt
      have hcard := sum_toNat_le_card HttpPc.pastGuard s'
      omega
    · omega

omit [DecidableEq ι] in
/-- A thread in flight is past the guard. -/
theorem sum_inFlight_le_pastGuard (s : Server ι) :
    ∑ j, (s.pc j).inFlight.toNat ≤ ∑ j, (s.pc j).pastGuard.toNat := by
  refine Finset.sum_le_sum (fun j _ => ?_)
  cases s.pc j <;> simp [HttpPc.inFlight, HttpPc.pastGuard]

/-- No counter wraps. -/
theorem ServerRun.drawn_le (hT : Fintype.card ι + reqTotalCnt ≤ 2 ^ 32)
    (h : ServerRun m db tr s) : drawn tr ≤ reqTotalCnt - 1 + Fintype.card ι := by
  have h₁ := h.inFlight
  have h₂ := h.pastGuard hT
  have h₃ := sum_inFlight_le_pastGuard s
  omega

end Threads

/-- A step draws one number, the next, or none. -/
theorem ServerStep.numbered (h : ServerStep s a s' es) :
    (drawn es = 0 ∧ ∀ n, es.count (.numbered n) = 0) ∨ es = [.numbered (s.reqCnt + 1)] := by
  cases h with
  | counts => exact Or.inr rfl
  | enters | leaves | receives | ends | responds | handles | startsToCollect
  | startsTotal | respondsLate | finishes | scansRecord | beginsTotal | scansTotal =>
    exact Or.inl ⟨rfl, fun _ => rfl⟩

/-- **Every number is drawn once**, as long as the counter does not wrap. -/
theorem ServerRun.count_numbered (h : ServerRun m db tr s) (hlt : drawn tr < 2 ^ 32)
    (n : UInt32) :
    tr.count (.numbered n) = if 1 ≤ n.toNat ∧ n.toNat ≤ drawn tr then 1 else 0 := by
  refine Run.invariant (I := fun tr (_ : Server ι) => drawn tr < 2 ^ 32 →
    tr.count (.numbered n) = if 1 ≤ n.toNat ∧ n.toNat ≤ drawn tr then 1 else 0) ?_
    (fun tr s a s' es hr hI hs hlt => ?_) h hlt
  · intro _
    refine (if_neg (fun h => ?_)).symm
    exact absurd (h.1.trans h.2) (by decide)
  · rcases (serverStep_cases hs).numbered with ⟨hd, hc⟩ | rfl
    · rw [drawn_append, hd, Nat.add_zero] at hlt ⊢
      rw [List.count_append, hc n, Nat.add_zero]
      exact hI hlt
    · have hone : drawn [HttpEvent.numbered (s.reqCnt + 1)] = 1 := rfl
      rw [drawn_append, hone] at hlt ⊢
      have hnext : (s.reqCnt + 1).toNat = drawn tr + 1 := by
        rw [UInt32.toNat_add, ServerRun.toNat_reqCnt hr (by omega)]
        exact Nat.mod_eq_of_lt hlt
      rw [List.count_append, hI (by omega)]
      by_cases hn : s.reqCnt + 1 = n
      · rw [hn] at hnext ⊢
        rw [hnext, if_neg (by omega), if_pos (by omega), List.count_singleton_self]
      · have hne : n.toNat ≠ drawn tr + 1 := fun h =>
          hn (UInt32.toNat_inj.mp (hnext.trans h.symm))
        have hzero : [HttpEvent.numbered (s.reqCnt + 1)].count (.numbered n) = 0 := by
          rw [List.count_singleton, if_neg (by simpa using hn)]
        rw [hzero, Nat.add_zero]
        refine if_congr ?_ rfl rfl
        omega

section Starts

variable [Fintype ι] {n : UInt32} {e : HttpEvent}

/-- A trigger's number stands against its flush or a request that has yet to start
it. -/
theorem ServerRun.unstarted (h : ServerRun m db tr s) (hn : Triggers n e) :
    tr.count e + ∑ j, ((s.pc j).unstarted n).toNat = tr.count (.numbered n) := by
  refine Run.invariant (I := fun tr (s : Server ι) => tr.count e
    + ∑ j, ((s.pc j).unstarted n).toNat = tr.count (.numbered n)) ?_
    (fun tr s a s' es _ hI hs => ?_) h
  · show 0 + ∑ _j : ι, 0 = 0
    rw [Finset.sum_const_zero, Nat.add_zero]
  · have hstep := (serverStep_cases hs).unstarted hn
    rw [List.count_append, List.count_append]
    omega

/-- A flush is started at most once. -/
theorem ServerRun.count_start_le (h : ServerRun m db tr s) (hlt : drawn tr < 2 ^ 32)
    (hn : Triggers n e) : tr.count e ≤ 1 := by
  have hbal := h.unstarted hn
  rw [h.count_numbered hlt] at hbal
  split at hbal <;> omega

/-- And it is once all numbers are drawn and nobody holds its own. -/
theorem ServerRun.count_start_eq (h : ServerRun m db tr s) (hlt : drawn tr < 2 ^ 32)
    (hle : reqTotalCnt ≤ drawn tr) (hn : Triggers n e)
    (hpc : ∀ i, (s.pc i).unstarted n = false) : tr.count e = 1 := by
  have hbal := h.unstarted hn
  have hzero : ∑ j, ((s.pc j).unstarted n).toNat = 0 :=
    Finset.sum_eq_zero (fun j _ => by rw [hpc j]; rfl)
  have hnum : 1 ≤ n.toNat ∧ n.toNat ≤ reqTotalCnt := by
    cases hn with
    | toCollect h =>
      rw [h]
      decide
    | total h =>
      rw [h]
      decide
  rw [hzero, h.count_numbered hlt, if_pos ⟨hnum.1, hnum.2.trans hle⟩] at hbal
  exact hbal

/-- The chunks received are the numbers drawn and those to be drawn. -/
theorem ServerRun.received (h : ServerRun m db tr s) :
    received tr = drawn tr + ∑ j, (s.pc j).atCount.toNat := by
  refine Run.invariant (I := fun tr (s : Server ι) => GreenFinal.received tr
    = drawn tr + ∑ j, (s.pc j).atCount.toNat) ?_ (fun tr s a s' es _ hI hs => ?_) h
  · show 0 = 0 + ∑ _j : ι, 0
    rw [Finset.sum_const_zero, Nat.add_zero]
  · have hstep := (serverStep_cases hs).received
    rw [received_append, drawn_append]
    omega

/-- **When `REQ_TOTAL_CNT` requests are received and done, both flushes have been
started.** -/
theorem ServerRun.count_start_of_done (h : ServerRun m db tr s)
    (hr : GreenFinal.received tr = reqTotalCnt) (hd : done tr = reqTotalCnt)
    (hn : Triggers n e) : tr.count e = 1 := by
  have h₁ := h.received
  have h₂ := h.inFlight
  have hN : reqTotalCnt < 2 ^ 32 := by decide
  have hzero : ∑ j, (s.pc j).inFlight.toNat = 0 := by omega
  refine h.count_start_eq (by omega) (by omega) hn (fun i => ?_)
  have hi : (s.pc i).inFlight.toNat = 0 :=
    Finset.sum_eq_zero_iff.mp hzero i (Finset.mem_univ i)
  cases hpc : s.pc i with
  | respond | handle | start =>
    rw [hpc] at hi
    exact absurd hi Nat.one_ne_zero
  | guard | recv | count | respondLate | finish | closed => rfl

end Starts

/-! ## The order of events -/

/-- Past the start of the flush that the given number triggers. -/
def HttpPc.pastStart (n : UInt32) : HttpPc → Bool
  | .respondLate cnt | .finish cnt => cnt = n
  | _ => false

/-- **A trigger's request is handled, then starts its flush, then is done.** -/
structure Ordered (n : UInt32) (e : HttpEvent) (tr : List HttpEvent) (s : Server ι) :
    Prop where
  handled : ∀ i, (s.pc i).handled n = true → .handled n ∈ tr
  started : ∀ i, (s.pc i).pastStart n = true → e ∈ tr
  handledFirst : Precedes (.handled n) e tr
  startedFirst : Precedes e (.finished n) tr

/-- A step of one thread that emits nothing, or what is neither the start nor the
end. -/
theorem Ordered.update {n : UInt32} {e : HttpEvent} (hO : Ordered n e tr s)
    {s' : Server ι} {i : ι} {pc : HttpPc} (hpc : s'.pc = Function.update s.pc i pc)
    (hh : pc.handled n = true → .handled n ∈ tr ++ es)
    (hs : pc.pastStart n = true → e ∈ tr ++ es)
    (h₁ : Precedes (.handled n) e (tr ++ es)) (h₂ : Precedes e (.finished n) (tr ++ es)) :
    Ordered n e (tr ++ es) s' := by
  refine ⟨fun j hj => ?_, fun j hj => ?_, h₁, h₂⟩
  · rw [hpc] at hj
    by_cases hji : j = i
    · subst hji
      rw [Function.update_self] at hj
      exact hh hj
    · rw [Function.update_of_ne hji] at hj
      exact List.mem_append_left _ (hO.handled j hj)
  · rw [hpc] at hj
    by_cases hji : j = i
    · subst hji
      rw [Function.update_self] at hj
      exact hs hj
    · rw [Function.update_of_ne hji] at hj
      exact List.mem_append_left _ (hO.started j hj)

/-- A step of one thread that emits nothing. -/
theorem Ordered.silent {n : UInt32} {e : HttpEvent} (hO : Ordered n e tr s)
    {s' : Server ι} {i : ι} {pc : HttpPc} (hpc : s'.pc = Function.update s.pc i pc)
    (hh : pc.handled n ≠ true) (hs : pc.pastStart n ≠ true) : Ordered n e tr s' := by
  rw [← List.append_nil tr]
  refine hO.update hpc (fun h => absurd h hh) (fun h => absurd h hs) ?_ ?_
  · rw [List.append_nil]
    exact hO.handledFirst
  · rw [List.append_nil]
    exact hO.startedFirst

/-- A step of one thread whose event is neither the start of a flush nor the end
of the trigger. -/
theorem Ordered.emit {n : UInt32} {e e' : HttpEvent} (hO : Ordered n e tr s)
    (hn : Triggers n e) {s' : Server ι} {i : ι} {pc : HttpPc}
    (hpc : s'.pc = Function.update s.pc i pc)
    (hh : pc.handled n = true → .handled n ∈ tr ++ [e'])
    (hs : pc.pastStart n = true → e ∈ tr ++ [e'])
    (hstart : ¬Triggers n e') (hend : e' ≠ .finished n) :
    Ordered n e (tr ++ [e']) s' :=
  hO.update hpc hh hs (hO.handledFirst.concat (fun h => absurd (h ▸ hn) hstart))
    (hO.startedFirst.concat (fun h => absurd h hend))

/-- The start of a flush, by the request with its number. -/
theorem Ordered.start {n cnt : UInt32} {e e' : HttpEvent} (hO : Ordered n e tr s)
    (hn : Triggers n e) (hcnt : Triggers cnt e') {s' : Server ι} {i : ι}
    (hpc : s.pc i = .start cnt) (hpc' : s'.pc = Function.update s.pc i (.respondLate cnt))
    (hne : e' ≠ .finished n) : Ordered n e (tr ++ [e']) s' := by
  have hhandled : cnt = n → HttpEvent.handled n ∈ tr := fun h =>
    hO.handled i (by rw [hpc]; exact decide_eq_true h)
  refine hO.update hpc' (fun h => List.mem_append_left _ (hhandled (of_decide_eq_true h)))
    (fun h => ?_) (hO.handledFirst.concat (fun h => hhandled ((hn.eq_iff hcnt).mp h)))
    (hO.startedFirst.concat (fun h => absurd h hne))
  rw [(hn.eq_iff hcnt).mpr (of_decide_eq_true h)]
  exact List.mem_append_right _ List.mem_cons_self

/-- Every step keeps the order. -/
theorem Ordered.step {n : UInt32} {e : HttpEvent} (hn : Triggers n e)
    (hO : Ordered n e tr s) (h : ServerStep s a s' es) : Ordered n e (tr ++ es) s' := by
  cases h with
  | enters i hpc | leaves i hpc | ends i hpc =>
    rw [List.append_nil]
    refine hO.silent rfl ?_ ?_ <;> exact Bool.false_ne_true
  | receives i hpc c =>
    exact hO.emit hn rfl (fun h => absurd h Bool.false_ne_true)
      (fun h => absurd h Bool.false_ne_true) nofun HttpEvent.noConfusion
  | counts i c hpc =>
    have hafter : ∀ f : HttpPc → Bool, (∀ c cnt, f (.handle c cnt) = false) →
        (∀ c cnt, f (.respond c cnt) = false) → f (afterCount c (s.reqCnt + 1)) = false := by
      intro f h₁ h₂
      unfold afterCount
      split
      · exact h₁ _ _
      · exact h₂ _ _
    refine hO.emit hn
      (show _ = Function.update s.pc i (afterCount c (s.reqCnt + 1)) from rfl)
      (fun h => ?_) (fun h => ?_) nofun HttpEvent.noConfusion
    · rw [hafter (HttpPc.handled n) (fun _ _ => rfl) (fun _ _ => rfl)] at h
      exact absurd h Bool.false_ne_true
    · rw [hafter (HttpPc.pastStart n) (fun _ _ => rfl) (fun _ _ => rfl)] at h
      exact absurd h Bool.false_ne_true
  | responds i c cnt hpc =>
    exact hO.emit hn rfl (fun h => absurd h Bool.false_ne_true)
      (fun h => absurd h Bool.false_ne_true) nofun HttpEvent.noConfusion
  | handles i c cnt hpc m hm =>
    refine hO.emit hn (show _ = Function.update s.pc i (afterHandle cnt) from rfl)
      (fun h => ?_) (fun h => ?_) nofun HttpEvent.noConfusion
    · have hcnt : cnt = n := by
        unfold afterHandle at h
        split at h <;> exact of_decide_eq_true h
      rw [hcnt]
      exact List.mem_append_right _ List.mem_cons_self
    · -- a trigger goes on to start its flush
      unfold afterHandle at h
      split at h
      · exact absurd h Bool.false_ne_true
      · rename_i hno
        rw [of_decide_eq_true (show decide (cnt = n) = true from h), hn.isTrigger] at hno
        exact absurd rfl hno
  | startsToCollect i cnt hpc hcnt =>
    exact hO.start hn (.toCollect hcnt) hpc rfl HttpEvent.noConfusion
  | startsTotal i cnt hpc hcnt =>
    exact hO.start hn (.total hcnt) hpc rfl HttpEvent.noConfusion
  | respondsLate i cnt hpc =>
    exact hO.emit hn rfl
      (fun h => List.mem_append_left _ (hO.handled i (by rw [hpc]; exact h)))
      (fun h => List.mem_append_left _ (hO.started i (by rw [hpc]; exact h)))
      nofun HttpEvent.noConfusion
  | finishes i cnt hpc =>
    -- the thread is past the start of the flush its number triggers
    refine hO.update rfl (fun h => absurd h Bool.false_ne_true)
      (fun h => absurd h Bool.false_ne_true)
      (hO.handledFirst.concat (fun h => nomatch h ▸ hn))
      (hO.startedFirst.concat (fun h => ?_))
    injection h with hcnt
    exact hO.started i (by rw [hpc]; exact decide_eq_true hcnt)
  | scansRecord | beginsTotal | scansTotal =>
    rw [List.append_nil]
    exact ⟨hO.handled, hO.started, hO.handledFirst, hO.startedFirst⟩

theorem ServerRun.ordered {n : UInt32} {e : HttpEvent} (hn : Triggers n e)
    (h : ServerRun m db tr s) : Ordered n e tr s := by
  refine Run.invariant (I := Ordered n e) ⟨fun _ h => ?_, fun _ h => ?_, Precedes.nil _ _,
    Precedes.nil _ _⟩ (fun _ _ _ _ _ _ hO hs => hO.step hn (serverStep_cases hs)) h
  · exact absurd (show false = true from h) Bool.false_ne_true
  · exact absurd (show false = true from h) Bool.false_ne_true

/-- The flushes there are have been started. -/
theorem ServerRun.length_scans (h : ServerRun m db tr s) :
    s.toCollectScans.length = tr.count .startedToCollect
      ∧ s.totalScans.length = tr.count .startedTotal := by
  refine Run.invariant (I := fun tr (s : Server ι) =>
    s.toCollectScans.length = tr.count .startedToCollect
      ∧ s.totalScans.length = tr.count .startedTotal) ⟨rfl, rfl⟩
    (fun tr s a s' es _ hI hs => ?_) h
  rw [List.count_append, List.count_append, ← hI.1, ← hI.2]
  cases serverStep_cases hs with
  | startsToCollect => exact ⟨List.length_append, rfl⟩
  | startsTotal => exact ⟨rfl, List.length_append⟩
  | scansRecord => exact ⟨List.length_set, rfl⟩
  | beginsTotal | scansTotal => exact ⟨rfl, List.length_set⟩
  | enters | leaves | receives | ends | counts | responds | handles | respondsLate
  | finishes => exact ⟨rfl, rfl⟩

end GreenFinal
