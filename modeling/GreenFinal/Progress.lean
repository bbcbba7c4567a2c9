import GreenFinal.Counters

/-!
# Serving a request to its end

The steps of one thread, put together: from its guard to the handling of a
request, and from there back to the guard. They are there whatever the other
threads and the flushes do in between, and also under a condition on the steps,
as long as it leaves the thread free everywhere but at the handling.

With such runs at hand, what `GreenFinal.Counters` shows of the counters and the
flushes is put together (`flushes_once`): one thread that serves all requests
starts both flushes.
-/

open CLib Interleave

namespace GreenFinal

variable {ι : Type*} [DecidableEq ι] {i : ι} {p : Action ι → Server ι → Bool}
  {s s' : Server ι} {a : Action ι} {es : List HttpEvent} {m : Mem} {db : Database}
  {tr : List HttpEvent}

/-- **A condition that limits a thread at most in its handling.** -/
def LimitsHandling (p : Action ι → Server ι → Bool) (i : ι) : Prop :=
  ∀ s input, (∀ c cnt, s.pc i ≠ .handle c cnt) → p (.http i input) s = true

namespace Server

@[simp] theorem pc_goto (s : Server ι) (i : ι) (pc : HttpPc) : (s.goto i pc).pc i = pc :=
  Function.update_self ..

theorem goto_goto (s : Server ι) (i : ι) (pc pc' : HttpPc) :
    (s.goto i pc).goto i pc' = s.goto i pc' := by
  unfold goto
  rw [Function.update_idem]

end Server

theorem ServerStep.only (h : ServerStep s a s' es) (hp : p a s = true) :
    only p serverStep a s = some (s', es) :=
  only_eq_some.mpr ⟨hp, h.serverStep_eq⟩

/-- A step away from the handling is free. -/
theorem ServerStep.run (input : Option Chunk) (h : ServerStep s (.http i input) s' es)
    (hp : LimitsHandling p i) (hpc : ∀ c cnt, s.pc i ≠ .handle c cnt) :
    Run (Interleave.only p serverStep) s es s' :=
  Run.single (h.only (hp s input hpc))

/-- **A thread at its guard can receive a chunk and come to handle it.** -/
theorem exists_run_handle (hp : LimitsHandling p i) (hpc : s.pc i = .guard)
    (hd : s.doneCnt.toNat < reqTotalCnt) (c : Chunk) :
    ∃ tr, Run (only p serverStep) s tr
        ({ s with reqCnt := s.reqCnt + 1 }.goto i (.handle c (s.reqCnt + 1)))
      ∧ chunksOf tr = [c] ∧ drawn tr = 1 ∧ done tr = 0 := by
  have henter : Run (only p serverStep) s [] (s.goto i .recv) :=
    ServerStep.run none (.enters i hpc hd) hp
      (fun c cnt => by rw [hpc]; exact HttpPc.noConfusion)
  have hreceive := ServerStep.run (some c) (.receives i (s.pc_goto i .recv) c) hp
    (fun c cnt => by rw [Server.pc_goto]; exact HttpPc.noConfusion)
  rw [Server.goto_goto] at hreceive
  have hcount : Run (only p serverStep) (s.goto i (.count c)) [.numbered (s.reqCnt + 1)]
      (({ s with reqCnt := s.reqCnt + 1 }.goto i (.count c)).goto i
        (afterCount c (s.reqCnt + 1))) :=
    ServerStep.run none (.counts i c (s.pc_goto i _)) hp
      (fun c cnt => by rw [Server.pc_goto]; exact HttpPc.noConfusion)
  rw [Server.goto_goto] at hcount
  have hrun := (henter.append hreceive).append hcount
  cases htrig : isTrigger (s.reqCnt + 1) with
  | true =>
    rw [afterCount, if_pos htrig] at hrun
    exact ⟨_, hrun, rfl, rfl, rfl⟩
  | false =>
    -- all but the triggers answer before they handle
    rw [afterCount, htrig] at hrun
    have hrespond := hrun.append
      (ServerStep.run none (.responds i c (s.reqCnt + 1) (Server.pc_goto ..)) hp
        (fun c cnt => by rw [Server.pc_goto]; exact HttpPc.noConfusion))
    rw [Server.goto_goto] at hrespond
    exact ⟨_, hrespond, rfl, rfl, rfl⟩

/-- The thread `i` is back at its guard with one more request done, and has started a
flush or not. -/
structure Returned (i : ι) (s s' : Server ι) : Prop where
  mem : s'.mem = s.mem
  doneCnt : s'.doneCnt = s.doneCnt + 1
  pc : s'.pc = Function.update s.pc i .guard
  toCollect : s'.toCollect = s.toCollect
  total : s'.total = s.total
  toCollectScans : s'.toCollectScans = s.toCollectScans
    ∨ s'.toCollectScans = s.toCollectScans ++ [scanIds]
  totalScans : s'.totalScans = s.totalScans ∨ s'.totalScans = s.totalScans ++ [none]

/-- Where the thread was before does not matter. -/
theorem Returned.of_goto {pc : HttpPc} (h : Returned i (s.goto i pc) s') : Returned i s s' :=
  ⟨h.mem, h.doneCnt, h.pc.trans (Function.update_idem ..), h.toCollect, h.total,
    h.toCollectScans, h.totalScans⟩

/-- **A thread that has handled its request can get back to its guard.** -/
theorem exists_run_guard (hp : LimitsHandling p i) {cnt : UInt32}
    (hpc : s.pc i = afterHandle cnt) :
    ∃ tr s', Run (only p serverStep) s tr s' ∧ Returned i s s'
      ∧ (isTrigger cnt = false →
        s'.toCollectScans = s.toCollectScans ∧ s'.totalScans = s.totalScans)
      ∧ chunksOf tr = [] ∧ drawn tr = 0 ∧ done tr = 1 := by
  have hfinish : ∀ s : Server ι, s.pc i = .finish cnt →
      Run (only p serverStep) s [.finished cnt]
        ({ s with doneCnt := s.doneCnt + 1 }.goto i .guard) := fun s hpc =>
    ServerStep.run none (.finishes i cnt hpc) hp
      (fun c cnt => by rw [hpc]; exact HttpPc.noConfusion)
  have hlate : ∀ s : Server ι, s.pc i = .respondLate cnt →
      Run (only p serverStep) s ([.responded cnt] ++ [.finished cnt])
        ({ s with doneCnt := s.doneCnt + 1 }.goto i .guard) := by
    intro s hpc
    rw [← Server.goto_goto _ i (.finish cnt)]
    exact (ServerStep.run none (.respondsLate i cnt hpc) hp
      (fun c cnt => by rw [hpc]; exact HttpPc.noConfusion)).append
      (hfinish (s.goto i (.finish cnt)) (Server.pc_goto ..))
  unfold afterHandle at hpc
  split at hpc
  · rename_i htrig
    have hfree : ∀ c cnt, s.pc i ≠ .handle c cnt := fun c cnt => by
      rw [hpc]
      exact HttpPc.noConfusion
    -- a trigger starts one of the two flushes and answers after that
    have hno : isTrigger cnt ≠ false := fun h => Bool.false_ne_true (h.symm.trans htrig)
    rcases (Bool.or_eq_true_iff ..).mp htrig with h | h
    · have hstart := ServerStep.run none (.startsToCollect i cnt hpc
        (of_decide_eq_true h)) hp hfree
      exact ⟨_, _, hstart.append (hlate _ (Server.pc_goto ..)),
        ⟨rfl, rfl, Function.update_idem .., rfl, rfl, Or.inr rfl, Or.inl rfl⟩,
        fun h => absurd h hno, rfl, rfl, rfl⟩
    · have hstart := ServerStep.run none (.startsTotal i cnt hpc
        (of_decide_eq_true h)) hp hfree
      exact ⟨_, _, hstart.append (hlate _ (Server.pc_goto ..)),
        ⟨rfl, rfl, Function.update_idem .., rfl, rfl, Or.inl rfl, Or.inr rfl⟩,
        fun h => absurd h hno, rfl, rfl, rfl⟩
  · exact ⟨_, _, hfinish s hpc, ⟨rfl, rfl, rfl, rfl, rfl, Or.inl rfl, Or.inl rfl⟩,
      fun _ => ⟨rfl, rfl⟩, rfl, rfl, rfl⟩

/-- **A thread can handle its request and get back to its guard**, if the handling is
admitted and stays inside its arrays. -/
theorem exists_run_handled (hp : LimitsHandling p i) {c : Chunk} {cnt : UInt32} {m : Mem}
    (hpc : s.pc i = .handle c cnt) (hm : handleRequest c.line c.len s.mem = .ok m)
    (hc : p (.http i none) s = true) :
    ∃ tr s', Run (only p serverStep) s tr s' ∧ Returned i { s with mem := m } s'
      ∧ (isTrigger cnt = false →
        s'.toCollectScans = s.toCollectScans ∧ s'.totalScans = s.totalScans)
      ∧ chunksOf tr = [] ∧ drawn tr = 0 ∧ done tr = 1 := by
  have hstep : ServerStep s (.http i none) _ _ := .handles i c cnt hpc m hm
  obtain ⟨tr, s', hrun, hret, hscans, hr, hd, hf⟩ :=
    exists_run_guard hp (Server.pc_goto { s with mem := m } i _)
  refine ⟨_, s', (Run.single (hstep.only hc)).append hrun, hret.of_goto, hscans, ?_, ?_, ?_⟩
  · rw [chunksOf_append, hr]
    rfl
  · rw [drawn_append, hd]
    rfl
  · rw [done_append, hf]
    rfl

/-- **A thread can serve a request**, from its guard to its guard. -/
theorem exists_run_serve (hp : LimitsHandling p i) (hpc : s.pc i = .guard)
    (hd : s.doneCnt.toNat < reqTotalCnt) {c : Chunk} {m : Mem}
    (hm : handleRequest c.line c.len s.mem = .ok m)
    (hc : p (.http i none) ({ s with reqCnt := s.reqCnt + 1 }.goto i
      (.handle c (s.reqCnt + 1))) = true) :
    ∃ tr s', Run (only p serverStep) s tr s' ∧ Returned i { s with mem := m } s'
      ∧ chunksOf tr = [c] ∧ drawn tr = 1 ∧ done tr = 1 := by
  obtain ⟨tr₁, hrun₁, hr₁, hd₁, hf₁⟩ := exists_run_handle hp hpc hd c
  obtain ⟨tr₂, s', hrun₂, hret, -, hr₂, hd₂, hf₂⟩ :=
    exists_run_handled hp (Server.pc_goto { s with reqCnt := s.reqCnt + 1 } i _) hm hc
  have hret' : Returned i { s with mem := m, reqCnt := s.reqCnt + 1 } s' :=
    Returned.of_goto (show Returned i (Server.goto _ i (.handle c (s.reqCnt + 1))) s' from hret)
  refine ⟨_, s', hrun₁.append hrun₂, ⟨hret'.mem, hret'.doneCnt, hret'.pc, hret'.toCollect,
    hret'.total, hret'.toCollectScans, hret'.totalScans⟩, ?_, ?_, ?_⟩
  · rw [chunksOf_append, hr₁, hr₂]
    rfl
  · rw [drawn_append, hd₁, hd₂]
  · rw [done_append, hf₁, hf₂]

/-- **One thread can serve them all.** -/
theorem exists_run_serves (m : Mem) (db : Database) (call : Call) {k : ℕ} (hk : k ≤ reqTotalCnt) :
    ∃ tr, ∃ s : Server Unit, ServerRun m db tr s ∧ s.pc () = .guard ∧ drawn tr = k
      ∧ done tr = k := by
  induction k with
  | zero => exact ⟨[], Server.start m db, .init, rfl, rfl, rfl⟩
  | succ k ih =>
    obtain ⟨tr, s, hrun, hpc, hdrawn, hdone⟩ := ih (Nat.le_of_succ_le hk)
    have hcnt : s.doneCnt.toNat = k :=
      (hrun.toNat_doneCnt (hdone ▸ (Nat.lt_of_succ_le hk).trans (by decide))).trans hdone
    obtain ⟨tr', s', hrun', hret, -, hd, hf⟩ := exists_run_serve (p := fun _ _ => true)
      (fun _ _ _ => rfl) hpc (hcnt ▸ Nat.lt_of_succ_le hk) (call.handleRequest_eq s.mem) rfl
    refine ⟨tr ++ tr', s', hrun.append (Run.of_only hrun'), ?_, ?_, ?_⟩
    · rw [hret.pc]
      exact Function.update_self ..
    · rw [drawn_append, hdrawn, hd]
    · rw [done_append, hdone, hf]

/-! ## The counters and the flushes -/

/-- **The two counters and the two flushes.** With at most `2^32 - REQ_TOTAL_CNT`
connections, in every reachable state: the counters count what was drawn and
done and do not wrap; they differ by the threads between the two increments;
each flush has been started at most once, after the request that triggers it was
handled; and it has been started when that request is done. -/
theorem flushes_once [Fintype ι] (hT : Fintype.card ι ≤ 2 ^ 32 - reqTotalCnt)
    (h : ServerRun m db tr s) :
    (s.reqCnt.toNat = drawn tr ∧ s.doneCnt.toNat = done tr)
      ∧ s.reqCnt.toNat - s.doneCnt.toNat
        = (Finset.univ.filter fun i => (s.pc i).inFlight = true).card
      ∧ s.doneCnt.toNat ≤ s.reqCnt.toNat
      ∧ s.reqCnt.toNat ≤ reqTotalCnt - 1 + Fintype.card ι
      ∧ (s.toCollectScans.length = tr.count .startedToCollect
        ∧ s.totalScans.length = tr.count .startedTotal)
      ∧ ∀ n e, Triggers n e →
        tr.count e ≤ 1 ∧ Precedes (.handled n) e tr ∧ Precedes e (.finished n) tr := by
  have hT' : Fintype.card ι + reqTotalCnt ≤ 2 ^ 32 := by
    have : reqTotalCnt ≤ 2 ^ 32 := by decide
    omega
  have hpos : 1 ≤ reqTotalCnt := by decide
  have hle := h.drawn_le hT'
  have hflight := h.inFlight
  have hlt : drawn tr < 2 ^ 32 := by omega
  have hreq := h.toNat_reqCnt hlt
  have hdone := h.toNat_doneCnt (by omega)
  have hcard : (Finset.univ.filter fun i => (s.pc i).inFlight = true).card
      = ∑ i, (s.pc i).inFlight.toNat := by
    rw [Finset.card_filter]
    refine Finset.sum_congr rfl (fun i _ => ?_)
    cases (s.pc i).inFlight <;> rfl
  refine ⟨⟨hreq, hdone⟩, ?_, ?_, ?_, h.length_scans, fun n e hn => ?_⟩
  · rw [hreq, hdone, hcard]
    omega
  · omega
  · omega
  · exact ⟨h.count_start_le hlt hn, (h.ordered hn).handledFirst, (h.ordered hn).startedFirst⟩

/-- One thread has served all requests, and has started both flushes on its way. -/
theorem flushes_once_oneThread :
    ∃ tr, ∃ s : Server Unit, ServerRun tenUnitsMem tenUnitsDb tr s
      ∧ s.reqCnt.toNat = reqTotalCnt ∧ s.doneCnt.toNat = reqTotalCnt
      ∧ s.toCollectScans.length = 1 ∧ s.totalScans.length = 1
      ∧ ∀ n e, Triggers n e →
        e ∈ tr ∧ Precedes (.handled n) e tr ∧ Precedes e (.finished n) tr := by
  obtain ⟨tr, s, hrun, hpc, hdrawn, hdone⟩ :=
    exists_run_serves tenUnitsMem tenUnitsDb (raceCalls 0) le_rfl
  have hstart : ∀ n e, Triggers n e → tr.count e = 1 := fun n e hn =>
    hrun.count_start_eq (hdrawn ▸ by decide) hdrawn.ge hn fun _ => by rw [hpc]; rfl
  obtain ⟨⟨hreq, hfin⟩, -, -, -, ⟨hlen₁, hlen₂⟩, horder⟩ := flushes_once (by decide) hrun
  refine ⟨tr, s, hrun, hreq.trans hdrawn, hfin.trans hdone,
    hlen₁.trans (hstart (UInt32.ofNat (reqTotalCnt - 1)) _ (.toCollect rfl)),
    hlen₂.trans (hstart (UInt32.ofNat reqTotalCnt) _ (.total rfl)),
    fun n e hn => ⟨?_, (horder n e hn).2⟩⟩
  rw [← List.one_le_count_iff, hstart n e hn]

end GreenFinal
