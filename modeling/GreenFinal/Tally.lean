import GreenFinal.Launch
import GreenFinal.Startup

/-!
# What the program keeps count of

`func` counts the connections before it accepts them, and the count decides when the clock
starts; each thread of `func_http` counts the requests that it has done, besides the count
of all, and prints both when the count of all comes to a multiple of `logEvery`.

Connections are accepted once and in the order in which they were made, and `func` is never
kept waiting in `accept` (`connections_accepted`). Every multiple of `logEvery` up to the
number of requests done is printed once, by the thread that has counted it, however the
threads overtake each other (`progress_lines`). Both need that no counter wraps.
-/

open CLib Interleave

namespace GreenFinal

variable {ι : Type*} [DecidableEq ι] {db : Database} {m : Mem} {tr es : List (ProgramEvent ι)}
  {s s' : Program ι} {a : ProgramAction ι}

/-! ## The connections -/

/-- The clients in the order in which they connected. -/
def connectedOf (tr : List (ProgramEvent ι)) : List ι :=
  tr.filterMap fun e => match e with
    | .connected i => some i
    | _ => none

/-- The clients in the order in which they were accepted. -/
def acceptedOf (tr : List (ProgramEvent ι)) : List ι :=
  tr.filterMap fun e => match e with
    | .accepted i => some i
    | _ => none

omit [DecidableEq ι] in
@[simp] theorem connectedOf_append (tr es : List (ProgramEvent ι)) :
    connectedOf (tr ++ es) = connectedOf tr ++ connectedOf es := List.filterMap_append

omit [DecidableEq ι] in
@[simp] theorem acceptedOf_append (tr es : List (ProgramEvent ι)) :
    acceptedOf (tr ++ es) = acceptedOf tr ++ acceptedOf es := List.filterMap_append

/-- **The connections that `func` has to do with**: those that were made are accepted or
wait; between `epoll_wait` and `accept` one does wait; and the count of them starts the
clock once. -/
structure Queued (tr : List (ProgramEvent ι)) (s : Program ι) : Prop where
  connected : connectedOf tr = s.accepted ++ s.backlog
  accepted : acceptedOf tr = s.accepted
  nodup : (s.accepted ++ s.backlog).Nodup
  waiting : s.func = .count ∨ s.func = .accept → s.backlog ≠ []
  hasCount : s.hasCount.toNat = s.accepted.length + if s.func = .accept then 1 else 0
  clock : tr.count .clockStarted = if s.hasCount = 0 then 0 else 1

/-- A step that is not about the connections. -/
theorem Queued.of_quiet (h : Queued tr s) (hconnected : connectedOf es = [])
    (haccepted : acceptedOf es = []) (hclock : .clockStarted ∉ es)
    (ha : s'.accepted = s.accepted) (hb : s'.backlog = s.backlog)
    (hh : s'.hasCount = s.hasCount) (hcount : s'.func = .count ↔ s.func = .count)
    (haccept : s'.func = .accept ↔ s.func = .accept) : Queued (tr ++ es) s' where
  connected := by rw [connectedOf_append, hconnected, List.append_nil, ha, hb, h.connected]
  accepted := by rw [acceptedOf_append, haccepted, List.append_nil, ha, h.accepted]
  nodup := by
    rw [ha, hb]
    exact h.nodup
  waiting := by
    rw [hb, hcount, haccept]
    exact h.waiting
  hasCount := by
    rw [hh, ha, h.hasCount]
    simp only [haccept]
  clock := by
    rw [List.count_append, List.count_eq_zero_of_not_mem hclock, hh]
    exact h.clock

/-- The connections are in order, if there are not more than `has_count` can count. -/
theorem ProgramRun.queued [Fintype ι] (hT : Fintype.card ι < 2 ^ 64) (h : ProgramRun db tr s) :
    Queued tr s := by
  refine Run.invariant (I := fun tr (s : Program ι) => Queued tr s)
    ⟨rfl, rfl, by simp [Program.start], by simp [Program.start], rfl, rfl⟩
    (fun tr s a s' es hr hI hs => ?_) h
  cases programStep_cases hs with
  | loads | passes | fails | sleeps | activates | wakes | waitsAgain | prints | flushes =>
    exact hI.of_quiet rfl rfl (by simp) rfl rfl rfl Iff.rfl Iff.rfl
  | spawns hmain =>
    have hunborn := (ProgramRun.born hr).unborn.mpr (Or.inr hmain)
    exact hI.of_quiet rfl rfl (by simp) rfl rfl rfl (by simp [hunborn]) (by simp [hunborn])
  | listens hfunc | cannotListen hfunc | sets hfunc | notifies hfunc =>
    exact hI.of_quiet rfl rfl (by simp) rfl rfl rfl (by simp [hfunc]) (by simp [hfunc])
  | threads i input ha hline p es =>
    refine hI.of_quiet ?_ ?_ (by simp) (by simp) (by simp) (by simp) (by simp) (by simp)
    · exact List.filterMap_eq_nil_iff.mpr (by simp)
    · exact List.filterMap_eq_nil_iff.mpr (by simp)
  | waits hfunc hne =>
    refine ⟨by simpa using hI.connected, by simpa using hI.accepted, hI.nodup, fun _ => hne, ?_,
      by simpa using hI.clock⟩
    simpa [hfunc] using hI.hasCount
  | counts hfunc =>
    have hcount := hI.hasCount
    rw [hfunc, if_neg FuncPc.noConfusion, add_zero] at hcount
    have hlen := hI.nodup.length_le_card
    have hpos := List.length_pos_of_ne_nil (hI.waiting (Or.inl hfunc))
    rw [List.length_append] at hlen
    have hnext : (s.hasCount + 1).toNat = s.hasCount.toNat + 1 := by
      rw [UInt64.toNat_add, UInt64.toNat_one]
      exact Nat.mod_eq_of_lt (by omega)
    refine ⟨?_, ?_, hI.nodup, fun _ => hI.waiting (Or.inl hfunc), ?_, ?_⟩
    · rw [connectedOf_append, hI.connected]
      split <;> exact List.append_nil _
    · rw [acceptedOf_append, hI.accepted]
      split <;> exact List.append_nil _
    · exact hnext.trans (congrArg (· + 1) hcount)
    · -- the clock is started with the first connection, and never again
      have hne : s.hasCount + 1 ≠ 0 := fun hzero => by
        rw [hzero] at hnext
        exact absurd hnext.symm (Nat.succ_ne_zero _)
      rw [List.count_append, hI.clock]
      by_cases hzero : s.hasCount = 0
      · simp [hzero]
      · simp [hzero, hne]
  | accepts hfunc i rest hb =>
    have hcount := hI.hasCount
    have hclock := hI.clock
    rw [hfunc, if_pos rfl] at hcount
    refine ⟨?_, ?_, ?_, by simp, ?_, ?_⟩
    · rw [connectedOf_append, hI.connected, hb]
      simp [connectedOf]
    · rw [acceptedOf_append, hI.accepted]
      rfl
    · simpa [hb] using hI.nodup
    · simpa using hcount
    · simpa using hclock
  | connects i hlisten hb ha =>
    refine ⟨?_, ?_, ?_, ?_, hI.hasCount, by simpa using hI.clock⟩
    · rw [connectedOf_append, hI.connected, List.append_assoc]
      rfl
    · rw [acceptedOf_append, hI.accepted]
      exact List.append_nil _
    · rw [← List.append_assoc]
      refine List.nodup_append.mpr ⟨hI.nodup, List.nodup_singleton i, ?_⟩
      rintro j hj k hk rfl
      rw [List.mem_singleton.mp hk] at hj
      exact (List.mem_append.mp hj).elim ha hb
    · exact fun _ => List.append_ne_nil_of_right_ne_nil _ (List.cons_ne_nil _ _)

/-- The steps of `func`. -/
def ofFunc : ProgramAction ι → Program ι → Bool
  | .func, _ => true
  | _, _ => false

/-- How many steps `func` is from its wait with nobody waiting. -/
def Program.funcLeft (s : Program ι) : ℕ :=
  3 * s.backlog.length + match s.func with
    | .unborn | .accept => 0
    | .listen => 5
    | .setDone => 4
    | .notify => 3
    | .wait => 2
    | .count => 1

/-- **`func` comes to its wait with nobody waiting**, if nobody else moves. -/
theorem ofFunc_descends (db : Database) :
    Descends (only ofFunc (programStep db))
      (fun s : Program ι => s.func ≠ .unborn ∧ (s.func = .count ∨ s.func = .accept →
        s.backlog ≠ [])) Program.funcLeft where
  keeps := by
    intro a s s' es hI hs
    obtain ⟨hof, hs⟩ := only_eq_some.mp hs
    cases programStep_cases hs with
    | listens | sets | notifies | accepts => exact ⟨FuncPc.noConfusion, by simp⟩
    | waits hfunc hne => exact ⟨FuncPc.noConfusion, fun _ => hne⟩
    | counts hfunc => exact ⟨FuncPc.noConfusion, fun _ => hI.2 (Or.inl hfunc)⟩
    | loads | spawns | passes | fails | sleeps | activates | wakes | cannotListen | waitsAgain
    | connects | prints | threads | flushes => cases hof
  lowers := by
    intro a s s' es hI hs
    obtain ⟨hof, hs⟩ := only_eq_some.mp hs
    cases programStep_cases hs with
    | listens hfunc | sets hfunc | notifies hfunc | waits hfunc | counts hfunc =>
      simp [Program.funcLeft, hfunc]
    | accepts hfunc i rest hb =>
      simp [Program.funcLeft, hfunc, hb]
      omega
    | loads | spawns | passes | fails | sleeps | activates | wakes | cannotListen | waitsAgain
    | connects | prints | threads | flushes => cases hof

omit [DecidableEq ι] in
/-- `func` stops nowhere but in its wait. -/
theorem funcStep_eq_none (hwaiting : s.func = .count ∨ s.func = .accept → s.backlog ≠ []) :
    funcStep s = none ↔ s.func = .unborn ∨ s.func = .wait ∧ s.backlog = [] := by
  unfold funcStep
  cases hpc : s.func with
  | unborn => simp
  | listen | setDone | notify | count => simp
  | wait => simp
  | accept =>
    obtain ⟨i, rest, hb⟩ := List.exists_cons_of_ne_nil (hwaiting (Or.inr hpc))
    simp [hb]

/-- While only `func` moves, no client connects. -/
theorem connectedOf_ofFunc (h : Run (only ofFunc (programStep db)) s tr s') :
    connectedOf tr = [] := by
  refine Run.invariant (I := fun tr _ => connectedOf tr = []) rfl
    (fun tr s a s' es _ hI hs => ?_) h
  obtain ⟨hof, hs⟩ := only_eq_some.mp hs
  rw [connectedOf_append, hI, List.nil_append]
  cases programStep_cases hs with
  | listens | sets | notifies | waits | accepts => rfl
  | counts => split <;> rfl
  | loads | spawns | passes | fails | sleeps | activates | wakes | cannotListen | waitsAgain
  | connects | prints | threads | flushes => cases hof

/-- **Connections are accepted in order.** With fewer than `2^64` of them, in every run:
those accepted are, in this order, the first of those made, and none of them twice; the
clock is started once at most; `func` stops in its wait alone, and only when nobody waits,
never in `accept`; and once it runs, it accepts by itself all who wait. -/
theorem connections_accepted [Fintype ι] (hT : Fintype.card ι < 2 ^ 64)
    (h : ProgramRun db tr s) :
    (connectedOf tr).Nodup ∧ acceptedOf tr <+: connectedOf tr ∧ tr.count .clockStarted ≤ 1
      ∧ (programStep db .func s = none
        ↔ s.func = .unborn ∨ s.func = .wait ∧ s.backlog = [])
      ∧ (s.func ≠ .unborn → ∃ tr' s', Run (only ofFunc (programStep db)) s tr' s'
        ∧ acceptedOf (tr ++ tr') = connectedOf tr) := by
  have hQ := h.queued hT
  refine ⟨?_, ?_, ?_, funcStep_eq_none hQ.waiting, fun hborn => ?_⟩
  · rw [hQ.connected]
    exact hQ.nodup
  · rw [hQ.connected, hQ.accepted]
    exact List.prefix_append _ _
  · rw [hQ.clock]
    split
    · exact Nat.zero_le 1
    · exact le_rfl
  · obtain ⟨tr', s', hr, hquiet⟩ := (ofFunc_descends db).exists_quiet ⟨hborn, hQ.waiting⟩
    have hlast := (ofFunc_descends db).invariant ⟨hborn, hQ.waiting⟩ hr
    have hrun' : ProgramRun db (tr ++ tr') s' := h.append (Run.of_only hr)
    have hQ' := hrun'.queued hT
    have hstop : funcStep s' = none := hquiet .func
    have hnone : s'.backlog = [] :=
      (((funcStep_eq_none hlast.2).mp hstop).resolve_left hlast.1).2
    refine ⟨tr', s', hr, ?_⟩
    calc acceptedOf (tr ++ tr')
        = connectedOf (tr ++ tr') := by
          rw [hQ'.accepted, hQ'.connected, hnone, List.append_nil]
      _ = connectedOf tr := by
          rw [connectedOf_append, connectedOf_ofFunc hr, List.append_nil]

/-- Two clients connect at once, and `func` accepts both. -/
theorem connections_accepted_two :
    ∃ (s : Program Bool) (tr : List (ProgramEvent Bool)), ProgramRun tenUnitsDb tr s
      ∧ connectedOf tr = [true, false] ∧ acceptedOf tr = []
      ∧ ∃ tr' s', Run (only ofFunc (programStep tenUnitsDb)) s tr' s'
        ∧ acceptedOf (tr ++ tr') = [true, false] := by
  have hexec : (Run.exec (programStep tenUnitsDb)
      [.main, .main, .func, .connect true, .connect false] (Program.start tenUnitsDb)).map
        (fun p => (p.2, p.1.func))
      = some ([.loaded, .listening, .connected true, .connected false], .setDone) := by
    decide +kernel
  obtain ⟨⟨s, tr⟩, hrun, heq⟩ := Option.map_eq_some_iff.mp hexec
  obtain ⟨rfl, hfunc⟩ := Prod.mk.inj heq
  have hrun' : ProgramRun tenUnitsDb _ s := Run.of_exec hrun
  obtain ⟨-, -, -, -, hdrain⟩ := connections_accepted (by decide) hrun'
  exact ⟨s, _, hrun', rfl, rfl, hdrain (by rw [hfunc]; exact FuncPc.noConfusion)⟩

/-! ## The lines on the progress -/

/-- The lines printed, in this order. -/
def linesOf (tr : List (ProgramEvent ι)) : List (UInt64 × UInt64) :=
  tr.filterMap fun e => match e with
    | .logged n c => some (n, c)
    | _ => none

/-- The number that a line says are done. -/
def lineMark (l : UInt64 × UInt64) : Multiset ℕ := {l.1.toNat}

/-- The numbers in the lines that were printed or are about to be. -/
def Program.marks [Fintype ι] (s : Program ι) : Multiset ℕ :=
  (s.log.map fun l => l.1.toNat : List ℕ) + ∑ i, (s.line i).elim 0 lineMark

/-- The multiples of `logEvery` up to `n`. -/
def marksUpTo (n : ℕ) : Multiset ℕ :=
  (Multiset.range (n / logEvery)).map fun k => (k + 1) * logEvery

/-- One more request done is one more mark, if it is its turn. -/
theorem marksUpTo_succ (n : ℕ) :
    marksUpTo (n + 1) = marksUpTo n + if (n + 1) % logEvery = 0 then {n + 1} else 0 := by
  unfold marksUpTo
  by_cases hturn : (n + 1) % logEvery = 0
  · have hdvd : logEvery ∣ n + 1 := Nat.dvd_of_mod_eq_zero hturn
    rw [Nat.succ_div_of_dvd hdvd, Multiset.range_succ, Multiset.map_cons, if_pos hturn,
      ← Nat.succ_div_of_dvd hdvd, Nat.div_mul_cancel hdvd]
    exact (Multiset.singleton_add _ _).symm.trans (add_comm _ _)
  · have hdvd : ¬ logEvery ∣ n + 1 := fun hdvd => hturn (Nat.mod_eq_zero_of_dvd hdvd)
    rw [Nat.succ_div_of_not_dvd hdvd, if_neg hturn, add_zero]

/-- What a thread counts as done. -/
theorem ProcessStep.done_of_http {p p' : Process ι} {i : ι} {input : Option Chunk}
    {es : List HttpEvent} (h : ProcessStep p (.http i input) p' es) :
    (∃ cnt, p.server.pc i = .finish cnt) ∧ done es = 1
      ∨ (∀ cnt, p.server.pc i ≠ .finish cnt) ∧ done es = 0 := by
  cases h with
  | threads i hpc t es h =>
    cases h with
    | finishes i cnt hpc => exact Or.inl ⟨⟨cnt, hpc⟩, rfl⟩
    | enters _ hpc | leaves _ hpc | receives _ hpc | ends _ hpc | counts _ _ hpc
    | responds _ _ _ hpc | handles _ _ _ hpc | startsToCollect _ _ hpc | startsTotal _ _ hpc
    | respondsLate _ _ hpc =>
      exact Or.inr ⟨fun cnt h => HttpPc.noConfusion (hpc.symm.trans h), rfl⟩
  | disposes _ _ _ hpc | steps _ _ _ _ hpc | returns _ _ _ _ hpc =>
    exact Or.inr ⟨fun cnt h => HttpPc.noConfusion (hpc.symm.trans h), rfl⟩

/-- With at most `2^32 - REQ_TOTAL_CNT` connections `done_count` does not wrap. -/
theorem ProgramRun.toNat_doneCnt [Fintype ι] (hT : Fintype.card ι ≤ 2 ^ 32 - reqTotalCnt)
    (h : ProgramRun db tr s) :
    s.process.server.doneCnt.toNat = done (httpEvents tr) ∧ done (httpEvents tr) < 2 ^ 32 := by
  have hT' : Fintype.card ι + reqTotalCnt ≤ 2 ^ 32 := by
    have : reqTotalCnt ≤ 2 ^ 32 := by decide
    omega
  have hpos : 1 ≤ reqTotalCnt := by decide
  rcases h.process with ⟨rfl, rfl⟩ | ⟨-, m, hload, hrun⟩
  · exact ⟨rfl, Nat.two_pow_pos 32⟩
  · obtain ⟨tr', t, hserver, m', tc, rfl, -, htr⟩ := ProcessRun.exists_follows hload hrun
    have hdone : done tr' = done (httpEvents tr) := by
      rw [← done_filter_seen tr', htr, done_filter_seen]
    have hle := hserver.drawn_le hT'
    have hflight := hserver.inFlight
    have hlt : done tr' < 2 ^ 32 := by omega
    exact ⟨(hserver.toNat_doneCnt hlt).trans hdone, hdone ▸ hlt⟩

/-- **What is counted and printed**: the threads have done what is done between them; the
marks printed or about to be are those up to it; and a line that is about to be printed
tells how many its thread has done. -/
structure Tallied [Fintype ι] (tr : List (ProgramEvent ι)) (s : Program ι) : Prop where
  count : ∑ i, (s.count i).toNat = done (httpEvents tr)
  marks : s.marks = marksUpTo (done (httpEvents tr))
  log : linesOf tr = s.log
  own : ∀ i l, s.line i = some l → l.2 = s.count i
  line_le : ∀ i l, s.line i = some l → l.2.toNat ≤ l.1.toNat
  log_le : ∀ l ∈ s.log, l.2.toNat ≤ l.1.toNat

omit [DecidableEq ι] in
/-- A step that counts and prints nothing. -/
theorem Tallied.of_quiet [Fintype ι] (h : Tallied tr s) (hdone : done (httpEvents es) = 0)
    (hlines : linesOf es = []) (hcount : s'.count = s.count) (hline : s'.line = s.line)
    (hlog : s'.log = s.log) : Tallied (tr ++ es) s' := by
  have hsame : done (httpEvents (tr ++ es)) = done (httpEvents tr) := by
    rw [httpEvents_append, done_append, hdone, add_zero]
  constructor
  · rw [hsame, hcount, h.count]
  · rw [hsame, Program.marks, hlog, hline]
    exact h.marks
  · rw [linesOf, List.filterMap_append, ← linesOf, ← linesOf, hlines, List.append_nil, hlog, h.log]
  · rw [hline, hcount]
    exact h.own
  · rw [hline]
    exact h.line_le
  · rw [hlog]
    exact h.log_le

/-- A thread prints its line. -/
theorem Tallied.of_print [Fintype ι] (h : Tallied tr s) {i : ι} {l : UInt64 × UInt64}
    (hline : s.line i = some l) :
    Tallied (tr ++ [.logged l.1 l.2])
      { s with line := Function.update s.line i none, log := s.log ++ [l] } := by
  have hold : ∀ j l', Function.update s.line i none j = some l' → s.line j = some l' := by
    intro j l' hj
    by_cases hij : j = i
    · subst hij
      rw [Function.update_self] at hj
      cases hj
    · rwa [Function.update_of_ne hij] at hj
  have hdone : done (httpEvents (tr ++ [.logged l.1 l.2])) = done (httpEvents tr) := by
    rw [httpEvents_append, done_append]
    rfl
  constructor
  · exact h.count.trans hdone.symm
  · have hsum : ∑ j, (Function.update s.line i none j).elim 0 lineMark + lineMark l
        = ∑ j, (s.line j).elim 0 lineMark := by
      have := sum_update (fun o : Option (UInt64 × UInt64) => o.elim 0 lineMark) s.line i none
      rw [hline] at this
      exact this.trans (add_zero _)
    rw [hdone, ← h.marks]
    unfold Program.marks
    rw [← hsum, List.map_append, ← Multiset.coe_add, add_assoc]
    exact congrArg (_ + ·) (add_comm _ _)
  · rw [linesOf, List.filterMap_append, ← linesOf, h.log]
    rfl
  · exact fun j l' hj => h.own j l' (hold j l' hj)
  · exact fun j l' hj => h.line_le j l' (hold j l' hj)
  · intro l' hl'
    rcases List.mem_append.mp hl' with hl' | hl'
    · exact h.log_le l' hl'
    · rw [List.mem_singleton.mp hl']
      exact h.line_le i l hline

/-- What a thread does that counts a request as done. -/
theorem Program.afterHttp_of_finish {i : ι} {cnt : UInt32} (p : Process ι)
    (hpc : s.process.server.pc i = .finish cnt) :
    s.afterHttp i p = { s with
      process := p
      count := Function.update s.count i (s.count i + 1)
      line := Function.update s.line i
        (if (s.process.server.doneCnt.toUInt64 + 1).toNat % logEvery = 0 then
          some (s.process.server.doneCnt.toUInt64 + 1, s.count i + 1) else none) } := by
  rw [afterHttp, hpc]

/-- What a thread does that counts none. -/
theorem Program.afterHttp_of_ne_finish {i : ι} (p : Process ι)
    (hpc : ∀ cnt, s.process.server.pc i ≠ .finish cnt) :
    s.afterHttp i p = { s with process := p } := by
  unfold afterHttp
  split
  · rename_i cnt h
    exact absurd h (hpc cnt)
  · rfl

/-- A thread counts a request as done. -/
theorem Tallied.of_finish [Fintype ι] (h : Tallied tr s) {i : ι} {cnt : UInt32}
    (hpc : s.process.server.pc i = .finish cnt) (hline : s.line i = none)
    (hcnt : s.process.server.doneCnt.toNat = done (httpEvents tr))
    (hlt : done (httpEvents tr) < 2 ^ 32) (p : Process ι) (hdone : done (httpEvents es) = 1)
    (hlines : linesOf es = []) : Tallied (tr ++ es) (s.afterHttp i p) := by
  have hnext : done (httpEvents (tr ++ es)) = done (httpEvents tr) + 1 := by
    rw [httpEvents_append, done_append, hdone]
  have hcur : (s.process.server.doneCnt.toUInt64 + 1).toNat = done (httpEvents tr) + 1 := by
    rw [UInt64.toNat_add, UInt32.toNat_toUInt64, hcnt, UInt64.toNat_one]
    exact Nat.mod_eq_of_lt (by omega)
  have hle : (s.count i).toNat ≤ done (httpEvents tr) := by
    rw [← h.count]
    exact Finset.single_le_sum (f := fun j => (s.count j).toNat) (fun _ _ => Nat.zero_le _)
      (Finset.mem_univ i)
  have hone : (s.count i + 1).toNat = (s.count i).toNat + 1 := by
    rw [UInt64.toNat_add, UInt64.toNat_one]
    exact Nat.mod_eq_of_lt (by omega)
  rw [Program.afterHttp_of_finish p hpc, hcur]
  generalize s.process.server.doneCnt.toUInt64 + 1 = cur at hcur
  -- the line that is about to be printed is the one of this thread, or was before
  have hcases : ∀ j l, Function.update s.line i (if (done (httpEvents tr) + 1) % logEvery = 0 then
      some (cur, s.count i + 1) else none) j = some l →
        j = i ∧ l = (cur, s.count i + 1) ∨ j ≠ i ∧ s.line j = some l := by
    intro j l hj
    by_cases hij : j = i
    · subst hij
      rw [Function.update_self] at hj
      split at hj
      · exact Or.inl ⟨rfl, (Option.some.inj hj).symm⟩
      · cases hj
    · rw [Function.update_of_ne hij] at hj
      exact Or.inr ⟨hij, hj⟩
  constructor
  · have hsum := sum_update UInt64.toNat s.count i (s.count i + 1)
    rw [hone, h.count] at hsum
    rw [hnext]
    show ∑ j, (Function.update s.count i (s.count i + 1) j).toNat = _
    omega
  · rw [hnext, marksUpTo_succ, ← h.marks]
    unfold Program.marks
    rw [add_assoc]
    refine congrArg (_ + ·) ?_
    have hsum := sum_update (fun o : Option (UInt64 × UInt64) => o.elim 0 lineMark) s.line i
      (if (done (httpEvents tr) + 1) % logEvery = 0 then some (cur, s.count i + 1) else none)
    rw [hline] at hsum
    refine (add_zero _).symm.trans (hsum.trans (congrArg (_ + ·) ?_))
    split
    · exact congrArg (fun n : ℕ => ({n} : Multiset ℕ)) hcur
    · rfl
  · rw [linesOf, List.filterMap_append, ← linesOf, ← linesOf, hlines, List.append_nil]
    exact h.log
  · intro j l hj
    rcases hcases j l hj with ⟨rfl, rfl⟩ | ⟨hij, hj⟩
    · show s.count j + 1 = Function.update s.count j (s.count j + 1) j
      rw [Function.update_self]
    · show l.2 = Function.update s.count i (s.count i + 1) j
      rw [Function.update_of_ne hij]
      exact h.own j l hj
  · intro j l hj
    rcases hcases j l hj with ⟨rfl, rfl⟩ | ⟨hij, hj⟩
    · rw [hone, hcur]
      exact Nat.succ_le_succ hle
    · exact h.line_le j l hj
  · exact h.log_le

theorem ProgramRun.tallied [Fintype ι] (hT : Fintype.card ι ≤ 2 ^ 32 - reqTotalCnt)
    (h : ProgramRun db tr s) : Tallied tr s := by
  refine Run.invariant (I := fun tr (s : Program ι) => Tallied tr s) ?_
    (fun tr s a s' es hr hI hs => ?_) h
  · constructor
    · exact Finset.sum_const_zero
    · show 0 + ∑ _i : ι, (0 : Multiset ℕ) = marksUpTo 0
      rw [Finset.sum_const_zero, add_zero, marksUpTo, Nat.zero_div]
      rfl
    · rfl
    · exact fun _ _ hl => absurd hl.symm (Option.some_ne_none _)
    · exact fun _ _ hl => absurd hl.symm (Option.some_ne_none _)
    · exact fun _ hl => absurd hl List.not_mem_nil
  · cases programStep_cases hs with
    | loads | spawns | passes | fails | sleeps | activates | wakes | listens | cannotListen
    | sets | notifies | waits | waitsAgain | accepts | connects | flushes =>
      exact hI.of_quiet rfl rfl rfl rfl rfl
    | counts =>
      refine hI.of_quiet ?_ ?_ rfl rfl rfl <;> split <;> rfl
    | prints i l hline => exact hI.of_print hline
    | threads i input ha hline p es hp =>
      have hlines : linesOf (es.map (ProgramEvent.http i)) = [] :=
        List.filterMap_eq_nil_iff.mpr (by simp)
      rcases (processStep_cases hp).done_of_http with ⟨⟨cnt, hpc⟩, hdone⟩ | ⟨hpc, hdone⟩
      · obtain ⟨hcnt, hlt⟩ := ProgramRun.toNat_doneCnt hT hr
        exact hI.of_finish hpc hline hcnt hlt p (by rw [httpEvents_map, hdone]) hlines
      · rw [Program.afterHttp_of_ne_finish p hpc]
        exact hI.of_quiet (by rw [httpEvents_map, hdone]) hlines rfl rfl rfl

/-- **Every line on the progress is printed once.** With at most `2^32 - REQ_TOTAL_CNT`
connections, in every run: the threads have counted, between them, the requests that are
done; the numbers in the lines printed, with those that threads are about to print, are
the multiples of `logEvery` up to that, each once; and the thread that prints a line has
done as many requests as its line says, and not more than are done in all. -/
theorem progress_lines [Fintype ι] (hT : Fintype.card ι ≤ 2 ^ 32 - reqTotalCnt)
    (h : ProgramRun db tr s) :
    ∑ i, (s.count i).toNat = done (httpEvents tr)
      ∧ (((linesOf tr).map fun l => l.1.toNat : List ℕ) : Multiset ℕ)
          + ∑ i, (s.line i).elim 0 lineMark
        = marksUpTo (done (httpEvents tr))
      ∧ (∀ i l, s.line i = some l → l.2 = s.count i)
      ∧ ∀ l ∈ linesOf tr, l.2.toNat ≤ l.1.toNat := by
  have hI := ProgramRun.tallied hT h
  rw [hI.log]
  exact ⟨hI.count, hI.marks, hI.own, hI.log_le⟩

/-- All requests are served by two connections, and a hundred lines have been printed. -/
theorem progress_lines_annsDb :
    ∃ (s : Program (Fin 2)) (tr : List (ProgramEvent (Fin 2))), ProgramRun annsDb tr s
      ∧ ∑ i, (s.count i).toNat = reqTotalCnt ∧ (linesOf tr).length = 100 := by
  obtain ⟨m, tr, t, hm, hrun, -, -, -, hdone, -⟩ := exists_timelyRun_annsDb
  obtain ⟨tr', s, hrun', htr, -, hS⟩ := exists_run_program hm (TimelyRun.ordered hrun)
  obtain ⟨hcount, hmarks, -, -⟩ := progress_lines (by decide) (Run.of_only hrun')
  rw [htr, hdone] at hcount hmarks
  rw [Finset.sum_eq_zero fun i _ => by rw [hS.line i]; rfl, add_zero] at hmarks
  have hcard := congrArg Multiset.card hmarks
  rw [Multiset.coe_card, List.length_map, marksUpTo, Multiset.card_map, Multiset.card_range]
    at hcard
  exact ⟨s, tr', Run.of_only hrun', hcount, hcard⟩

end GreenFinal
