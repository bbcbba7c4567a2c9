import GreenFinal.Tally

/-!
# What the program does for its clients

What holds of the process can be said of the program from its launch. Whatever it has
received it brings to an end, with every line on the progress printed
(`program_completes`); and where `REQ_TOTAL_CNT` requests were received, and calls, rows and
credits were in order, the tables hold then what was settled, and nothing has to be assumed
of what was done by that time (`program_outcome`).
-/

open CLib Interleave

namespace GreenFinal

variable {ι : Type*} [DecidableEq ι] {db : Database} {m : Mem} {tr es : List (ProgramEvent ι)}
  {s s' : Program ι} {a : ProgramAction ι} {q : Action ι → Process ι → Bool}

/-! ## What is received is brought to an end -/

/-- The steps of the threads, the flushes and the printing, with nothing more received. -/
def serving : ProgramAction ι → Program ι → Bool
  | .print _, _ => true
  | .process a, s => inputless a s.process
  | _, _ => false

/-- How many steps they have still to take, at the most: every step of the process may be
the one after which a line is due. -/
def Program.left [Fintype ι] (s : Program ι) : ℕ :=
  2 * s.process.left + ∑ i, (s.line i).isSome.toNat

omit [DecidableEq ι] in
/-- A thread moves, and has a line to print after it or not. -/
theorem Program.sum_line_afterHttp_le [Fintype ι] [DecidableEq ι] (p : Process ι) {i : ι}
    (hline : s.line i = none) :
    ∑ j, ((s.afterHttp i p).line j).isSome.toNat ≤ ∑ j, (s.line j).isSome.toNat + 1 := by
  by_cases hpc : ∃ cnt, s.process.server.pc i = .finish cnt
  · obtain ⟨cnt, hpc⟩ := hpc
    rw [afterHttp_of_finish p hpc]
    have hsum := sum_update (fun o : Option (UInt64 × UInt64) => o.isSome.toNat) s.line i
      (if (s.process.server.doneCnt.toUInt64 + 1).toNat % logEvery = 0 then
        some (s.process.server.doneCnt.toUInt64 + 1, s.count i + 1) else none)
    rw [hline] at hsum
    refine (Nat.le_add_right _ _).trans (hsum.le.trans (Nat.add_le_add_left ?_ _))
    exact Bool.toNat_le _
  · rw [afterHttp_of_ne_finish p fun cnt h => hpc ⟨cnt, h⟩]
    exact Nat.le_succ _

/-- **What is left to do goes down.** -/
theorem serving_descends [Fintype ι] (db : Database) :
    Descends (only serving (programStep (ι := ι) db)) (fun _ => True) Program.left where
  keeps := fun _ _ => trivial
  lowers := by
    intro a s s' es _ hs
    obtain ⟨hserving, hs⟩ := only_eq_some.mp hs
    cases programStep_cases hs with
    | prints i l hline =>
      have hsum := sum_update (fun o : Option (UInt64 × UInt64) => o.isSome.toNat) s.line i none
      rw [hline] at hsum
      refine Nat.add_lt_add_left ?_ _
      exact Nat.lt_of_succ_le hsum.le
    | threads i input ha hline p es h =>
      have hleft := (processStep_cases h).left_lt hserving
      have hlines := Program.sum_line_afterHttp_le p hline
      unfold Program.left
      rw [Program.process_afterHttp]
      omega
    | flushes b hb p es h =>
      have hleft := (processStep_cases h).left_lt hserving
      unfold Program.left
      dsimp only
      omega
    | loads | spawns | passes | fails | sleeps | activates | wakes | listens | cannotListen
    | sets | notifies | waits | waitsAgain | counts | accepts | connects => cases hserving

/-- A thread moves itself only. -/
theorem ProcessStep.pc_of_ne {p p' : Process ι} {i j : ι} {input : Option Chunk}
    {es : List HttpEvent} (h : ProcessStep p (.http i input) p' es) (hj : j ≠ i) :
    p'.server.pc j = p.server.pc j := by
  cases h with
  | threads _ hpc t es h =>
    obtain ⟨-, -, hpc', -⟩ := h.outside hpc
    show t.pc j = _
    rw [hpc']
    exact Function.update_of_ne hj ..
  | disposes | returns => exact Function.update_of_ne hj ..
  | steps => rfl

/-- A flush moves no thread. -/
theorem ProcessStep.pc_of_flush {a : Action ι} {p p' : Process ι} {es : List HttpEvent}
    (h : ProcessStep p a p' es) (ha : ∀ i input, a ≠ .http i input) :
    p'.server.pc = p.server.pc := by
  cases h with
  | threads i => exact absurd rfl (ha i _)
  | disposes i => exact absurd rfl (ha i _)
  | steps i => exact absurd rfl (ha i _)
  | returns i => exact absurd rfl (ha i _)
  | reads | skips | readsStatus | writes => rfl
  | totals k order t es h => cases h <;> rfl

/-- Who has not been accepted has not begun. -/
theorem ProgramRun.guard_of_notMem (h : ProgramRun db tr s) {i : ι} (hi : i ∉ s.accepted) :
    s.process.server.pc i = .guard := by
  refine Run.invariant (I := fun _ (s : Program ι) => i ∉ s.accepted →
    s.process.server.pc i = .guard) (fun _ => rfl) (fun tr s a s' es _ hI hs hi => ?_) h hi
  cases programStep_cases hs with
  | loads => rfl
  | accepts => exact hI fun hin => hi (List.mem_append_left _ hin)
  | threads j input hj hline p es h =>
    rw [Program.accepted_afterHttp] at hi
    rw [Program.process_afterHttp, (processStep_cases h).pc_of_ne fun hij : i = j => hi (hij ▸ hj)]
    exact hI hi
  | flushes b hb p es h =>
    exact (congrFun ((processStep_cases h).pc_of_flush hb) i).trans (hI hi)
  | spawns | passes | fails | sleeps | activates | wakes | listens | cannotListen | sets
  | notifies | waits | waitsAgain | counts | connects | prints => exact hI hi

/-- **All that was received is dealt with**: the threads are past their loops, no mutex is
taken and no flush under way, every request received is done, and the lines printed are
those on the requests done. -/
structure Served (tr : List (ProgramEvent ι)) (s : Program ι) : Prop where
  closed : ∀ i ∈ s.accepted, s.process.server.pc i = .closed
  mutex : ∀ id, s.process.mutex id = none
  ended : s.process.server.FlushesEnded
  done : done (httpEvents tr) = received (httpEvents tr)
  line : ∀ i, s.line i = none
  log : (((linesOf tr).map fun l => l.1.toNat : List ℕ) : Multiset ℕ)
    = marksUpTo (GreenFinal.done (httpEvents tr))

/-- Where threads, flushes and printing can go no further, the process is idle. -/
theorem ProgramRun.idle [Fintype ι] (hall : db.AllIds) (h : ProgramRun db tr s)
    (hharmless : ∀ c, .received c ∈ httpEvents tr → c.Harmless)
    (hquiet : Quiet (only serving (programStep db)) s) :
    Idle s.process ∧ done (httpEvents tr) = received (httpEvents tr) := by
  have hline : ∀ i, s.line i = none := fun i => Option.map_eq_none_iff.mp (hquiet (.print i))
  have hprocess : ∀ b, (∀ i input, b ≠ .http i input) → processStep b s.process = none := by
    intro b hb
    cases b with
    | http i input => exact absurd rfl (hb i input)
    | scanRecord k => exact Option.map_eq_none_iff.mp (hquiet (.process (.scanRecord k)))
    | scanTotal k order =>
      exact Option.map_eq_none_iff.mp (hquiet (.process (.scanTotal k order)))
  have hthread : ∀ i, s.process.server.pc i ≠ .guard → threadStep i none s.process = none := by
    intro i hne
    have hin : i ∈ s.accepted := by
      by_contra hi
      exact hne (h.guard_of_notMem hi)
    have hstep : programStep db (.process (.http i none)) s = none :=
      hquiet (.process (.http i none))
    exact Option.map_eq_none_iff.mp ((if_pos ⟨hin, hline i⟩).symm.trans hstep)
  rcases h.process with ⟨rfl, rfl⟩ | ⟨-, m, hload, hrun⟩
  · exact ⟨⟨fun _ => Or.inl rfl, fun _ => rfl, fun _ h => absurd h List.not_mem_nil,
      fun _ h => absurd h List.not_mem_nil⟩, rfl⟩
  · have hI := hrun.idle hload hall (fun c hc => hharmless c (mem_chunksOf.mp hc)) hthread
      (fun k => hprocess (.scanRecord k) fun _ _ h => by cases h)
      fun k order => Option.map_eq_none_iff.mp (hprocess (.scanTotal k order)
        fun _ _ h => by cases h)
    exact ⟨hI, hrun.done_of_idle hload hI⟩

/-- And all that was received is dealt with. -/
theorem ProgramRun.served [Fintype ι] (hall : db.AllIds)
    (hT : Fintype.card ι ≤ 2 ^ 32 - reqTotalCnt) (h : ProgramRun db tr s)
    (hharmless : ∀ c, .received c ∈ httpEvents tr → c.Harmless)
    (hquiet : Quiet (only serving (programStep db)) s) : Served tr s := by
  obtain ⟨hI, hdone⟩ := h.idle hall hharmless hquiet
  have hline : ∀ i, s.line i = none := fun i => Option.map_eq_none_iff.mp (hquiet (.print i))
  have htallied := ProgramRun.tallied hT h
  refine ⟨fun i hi => (hI.pc i).resolve_left fun hpc => ?_, hI.mutex,
    ⟨hI.toCollectScans, hI.totalScans⟩, hdone, hline, ?_⟩
  · -- a thread that has been accepted goes on from its guard
    have hstep : programStep db (.process (.http i none)) s = none :=
      hquiet (.process (.http i none))
    have hnone : threadStep i none s.process = none :=
      Option.map_eq_none_iff.mp ((if_pos ⟨hi, hline i⟩).symm.trans hstep)
    unfold threadStep httpStep at hnone
    rw [hpc] at hnone
    cases hnone
  · have hmarks := htallied.marks
    unfold Program.marks at hmarks
    rw [Finset.sum_eq_zero fun i _ => by rw [hline i]; rfl, add_zero] at hmarks
    rw [htallied.log]
    exact hmarks

/-- With nothing more received nothing is received. -/
theorem chunksOf_serving (h : Run (only serving (programStep db)) s tr s') :
    chunksOf (httpEvents tr) = [] := by
  refine Run.invariant (I := fun tr (_ : Program ι) => chunksOf (httpEvents tr) = []) rfl
    (fun tr s a s' es _ hI hs => ?_) h
  obtain ⟨hserving, hs⟩ := only_eq_some.mp hs
  rw [httpEvents_append, chunksOf_append, hI, List.nil_append]
  cases programStep_cases hs with
  | prints => rfl
  | threads i input ha hline p es h =>
    have hinput : inputless (.http i input) s.process = true := hserving
    rw [httpEvents_map]
    exact chunksOf_inputless (Run.single (only_eq_some.mpr ⟨hinput, h⟩))
  | flushes => rfl
  | loads | spawns | passes | fails | sleeps | activates | wakes | listens | cannotListen
  | sets | notifies | waits | waitsAgain | counts | accepts | connects => cases hserving

/-- **The program brings to an end what it has received.** From every reachable state of
the program, with records that are all there, chunks that do no harm and at most
`2^32 - REQ_TOTAL_CNT` connections: if nothing more is received, no schedule of the threads,
the flushes and the printing goes on for ever, and where it can go no further all threads
are past their loops, mutexes are free, flushes have ended, every request received is done
and every line on the requests done is printed, once. So the run can be carried on to such a
state. -/
theorem program_completes [Fintype ι] (hall : db.AllIds)
    (hT : Fintype.card ι ≤ 2 ^ 32 - reqTotalCnt) (h : ProgramRun db tr s)
    (hharmless : ∀ c, .received c ∈ httpEvents tr → c.Harmless) :
    (∃ n, ∀ as s' tr', Run.exec (only serving (programStep db)) as s = some (s', tr') →
        as.length ≤ n)
      ∧ (∀ tr' s', Run (only serving (programStep db)) s tr' s' →
        Quiet (only serving (programStep db)) s' →
          Served (tr ++ tr') s' ∧ done (httpEvents (tr ++ tr')) = received (httpEvents tr))
      ∧ ∃ tr' s', Run (only serving (programStep db)) s tr' s' ∧ Served (tr ++ tr') s'
        ∧ done (httpEvents (tr ++ tr')) = received (httpEvents tr) := by
  have hserved : ∀ tr' s', Run (only serving (programStep db)) s tr' s' →
      Quiet (only serving (programStep db)) s' →
        Served (tr ++ tr') s' ∧ done (httpEvents (tr ++ tr')) = received (httpEvents tr) := by
    intro tr' s' hr hquiet
    have hrun : ProgramRun db (tr ++ tr') s' := h.append (Run.of_only hr)
    have hchunks : chunksOf (httpEvents (tr ++ tr')) = chunksOf (httpEvents tr) := by
      rw [httpEvents_append, chunksOf_append, chunksOf_serving hr, List.append_nil]
    have hS := hrun.served hall hT (fun c hc => hharmless c
      (mem_chunksOf.mp (hchunks ▸ mem_chunksOf.mpr hc))) hquiet
    exact ⟨hS, hS.done.trans (congrArg List.length hchunks)⟩
  refine ⟨⟨s.left, fun as s' tr' hexec => ?_⟩, hserved, ?_⟩
  · have hle := (serving_descends db).length_le trivial hexec
    omega
  · obtain ⟨tr', s', hr, hquiet⟩ := (serving_descends db).exists_quiet trivial (s := s)
    exact ⟨tr', s', hr, hserved tr' s' hr hquiet⟩

/-- Two clients have connected and one has sent a request, which is done in the end. -/
theorem program_completes_threeUnits :
    ∃ (s s' : Program Bool) (tr tr' : List (ProgramEvent Bool)), ProgramRun threeUnitsDb tr s
      ∧ received (httpEvents tr) = 1 ∧ ProgramRun threeUnitsDb (tr ++ tr') s'
      ∧ Served (tr ++ tr') s' ∧ done (httpEvents (tr ++ tr')) = 1 := by
  obtain ⟨m, p, hm, hrun⟩ := exists_processRun_threeUnits
  have hrun₁ : Run (only (fun _ _ => true) processStep) (Process.start m threeUnitsDb)
      [.received (raceCalls 0).chunk, .numbered 1, .responded 1] p := by
    rw [only_true]
    exact hrun
  obtain ⟨tr, s, hrun₂, htr, -, -⟩ := exists_run_program hm hrun₁
  have hreceived : received (httpEvents tr) = 1 := by
    rw [htr]
    rfl
  obtain ⟨-, -, tr', s', hr, hS, hdone⟩ := program_completes allIds_uniformDb (by decide)
    (Run.of_only hrun₂) fun c hc => by
      obtain rfl : c = (raceCalls 0).chunk := by simpa [htr] using hc
      exact (raceCalls 0).harmless
  exact ⟨s, s', tr, tr', Run.of_only hrun₂, hreceived,
    (Run.of_only hrun₂).append (Run.of_only hr), hS, hdone.trans hreceived⟩

/-! ## What the tables hold in the end -/

/-- The runs of the program in which calls and rows are kept apart and nothing is credited
behind the back of a flush. -/
abbrev OrderedProgramRun [Fintype ι] (db : Database) (tr : List (ProgramEvent ι))
    (s : Program ι) : Prop :=
  Run (only (ofProcess inOrder) (programStep db)) (Program.start db) tr s

/-- **What the program leaves in the tables.** In every run of the program from its launch in
which calls and rows are kept apart and every credit comes in time: when `REQ_TOTAL_CNT`
requests have been received, and threads, flushes and printing can go no further without
another, every row holds what its owner, its energy and the users that have asked for it
settle; with values that fit, names that are distinct and users that have rows, the two
tables hold as much energy together as they did before loading; and the lines printed are
those on all multiples of `logEvery` up to `REQ_TOTAL_CNT`. -/
theorem program_outcome [Fintype ι] (hall : db.AllIds)
    (hT : Fintype.card ι ≤ 2 ^ 32 - reqTotalCnt) (h : OrderedProgramRun db tr s)
    (hharmless : ∀ c, .received c ∈ httpEvents tr → c.Harmless)
    (hreceived : received (httpEvents tr) = reqTotalCnt)
    (hquiet : Quiet (only serving (programStep db)) s) :
    (∀ id : RecordId, 1 ≤ (id : ℕ) →
        ∃ row row', db.toCollect.row? id = some row
          ∧ s.process.server.toCollect.row? id = some row'
          ∧ Settles row row' (askers id (requestsOf (chunksOf (httpEvents tr)))))
      ∧ (db.Fits → db.NamesDistinct → UsersHaveRows db (httpEvents tr) →
        s.process.server.toCollect.energy + s.process.server.total.energy = db.energy)
      ∧ (((linesOf tr).map fun l => l.1.toNat : List ℕ) : Multiset ℕ)
        = marksUpTo reqTotalCnt := by
  have hS : Served tr s := ProgramRun.served hall hT (Run.of_only h) hharmless hquiet
  have hdone : done (httpEvents tr) = reqTotalCnt := hS.done.trans hreceived
  rcases ProgramRun.process_only h with ⟨-, rfl⟩ | ⟨-, m, hload, hrun⟩
  · exact absurd hreceived (show ¬ received [] = reqTotalCnt by decide)
  -- the server that the process follows has received and done the same
  obtain ⟨tr', t, hrun', hchunks, hdone', htable, htotal, hended⟩ :=
    OrderedRun.exists_timelyRun hload hrun
  have hreceived' : received tr' = reqTotalCnt := by
    rw [received, hchunks]
    exact hreceived
  have hdone'' : done tr' = reqTotalCnt := hdone'.trans hdone
  refine ⟨fun id hid => ?_, fun hfit hnames husers => ?_, hdone ▸ hS.log⟩
  · rw [← htable, ← hchunks]
    exact outcome_of_timely hload hall hrun' hreceived' hdone'' (hended hS.ended) id hid
  · have husers' : UsersHaveRows db tr' := fun c q hc =>
      husers c q (mem_chunksOf.mp (hchunks ▸ mem_chunksOf.mpr hc))
    rw [← htable, ← htotal]
    exact energy_conserved_of_timely hload hall hfit hnames hrun' husers' hreceived' hdone''
      (hended hS.ended)

/-- **Nothing is left but to leave the loops.** -/
structure Spent (p : Process ι) : Prop where
  pc : ∀ i, (p.server.pc i).spent = true
  ended : p.server.FlushesEnded

/-- What is done then is in order. -/
theorem Spent.step [Fintype ι] {a : Action ι} {p p' : Process ι} {es : List HttpEvent}
    (hp : Spent p) (h : ProcessStep p a p' es) (hinput : inputless a p = true) :
    Spent p' ∧ inOrder a p = true := by
  have hnot : ∀ i pc, p.server.pc i = pc → pc.spent = true := fun i pc hpc => hpc ▸ hp.pc i
  have hgoto : ∀ i pc, pc.spent = true → Spent { p with server := p.server.goto i pc } := by
    refine fun i pc hpc => ⟨fun j => ?_, hp.ended.toCollect, hp.ended.total⟩
    show (Function.update p.server.pc i pc j).spent = true
    by_cases hj : j = i
    · rw [hj, Function.update_self]
      exact hpc
    · rw [Function.update_of_ne hj]
      exact hp.pc j
  have horder : ∀ i input, inOrder (.http i input) p = true := by
    intro i input
    have hnone : (p.server.pc i).call? = none := by
      cases hpc : p.server.pc i with
      | guard | recv | closed => rfl
      | count | respond | handle | start | respondLate | finish => cases hnot i _ hpc
    rw [inOrder, keepsApart, creditsInTime, hnone]
    rfl
  cases h with
  | threads i _ t es h =>
    refine ⟨?_, horder i _⟩
    cases h with
    | enters | leaves | ends => exact hgoto i _ rfl
    | receives => cases hinput
    | counts _ c hpc | responds _ c cnt hpc | handles _ c cnt hpc | startsToCollect _ cnt hpc
    | startsTotal _ cnt hpc | respondsLate _ cnt hpc | finishes _ cnt hpc =>
      cases hnot i _ hpc
  | disposes i c cnt hpc | steps i c cnt _ hpc | returns i c cnt _ hpc => cases hnot i _ hpc
  | reads k id ids hk | skips k id ids hk | readsStatus k id ids hk | writes k id ids _ hk =>
    cases hp.ended.toCollect _ (List.mem_of_getElem? hk)
  | totals k order t es h =>
    cases h with
    | beginsTotal _ _ hk => cases hp.ended.total _ (List.mem_of_getElem? hk)
    | scansTotal _ u us hk => cases hp.ended.total _ (List.mem_of_getElem? hk)

/-- And all the rest of the run is. -/
theorem Spent.run [Fintype ι] {p p' : Process ι} {tr : List HttpEvent} (hp : Spent p)
    (h : Run (only inputless processStep) p tr p') : Run (only inOrder processStep) p tr p' := by
  refine (Run.invariant (I := fun tr p' => Spent p' ∧ Run (only inOrder processStep) p tr p')
    ⟨hp, .init⟩ (fun tr p₁ a p₂ es _ hI hs => ?_) h).2
  obtain ⟨hinput, hs⟩ := only_eq_some.mp hs
  obtain ⟨hp₂, horder⟩ := hI.1.step (processStep_cases hs) hinput
  exact ⟨hp₂, hI.2.next (only_eq_some.mpr ⟨horder, hs⟩)⟩

/-- Where the process can go no further, a program at its clients' service cannot. -/
theorem Serving.quiet (hS : Serving s) (h : Quiet (only inputless processStep) s.process) :
    Quiet (only serving (programStep db)) s := by
  intro a
  cases a with
  | print i => exact Option.map_eq_none_iff.mpr (hS.line i)
  | process a =>
    have hstep : ∀ p es, inputless a s.process = true → processStep a s.process ≠ some (p, es) :=
      fun p es hinput hs => by
        have hnone := h a
        rw [only_eq_some.mpr ⟨hinput, hs⟩] at hnone
        cases hnone
    refine Option.eq_none_iff_forall_ne_some.mpr fun ⟨s', es⟩ hs => ?_
    obtain ⟨hserving, hs⟩ := only_eq_some.mp hs
    cases programStep_cases hs with
    | threads i input _ _ p es h => exact hstep p es hserving h
    | flushes _ _ p es h => exact hstep p es hserving h
  | main | wakeUp | func | funcFails | connect => rfl

/-- The program in which all is in order and `REQ_TOTAL_CNT` requests are received: its
tables hold what was settled, the energy that they held, and a hundred lines are printed. -/
theorem program_outcome_annsDb :
    ∃ (s : Program (Fin 2)) (tr : List (ProgramEvent (Fin 2))) (row row' : ToCollectRow)
      (asks : List CString), OrderedProgramRun annsDb tr s
        ∧ annsDb.toCollect.row? 1 = some row
        ∧ s.process.server.toCollect.row? 1 = some row' ∧ Settles row row' asks
        ∧ s.process.server.toCollect.energy + s.process.server.total.energy = annsDb.energy
        ∧ (linesOf tr).length = 100 := by
  obtain ⟨m, tr, t, hm, hrun, husers, hcalls, hreceived, hdone, hended⟩ := exists_timelyRun_annsDb
  -- what is left is to leave the loops
  have hspent : Spent (Process.ofServer t) := by
    refine ⟨fun i => ?_, hended.toCollect, hended.total⟩
    exact ServerRun.spent_of_done (Run.of_only hrun) (hreceived.trans hdone.symm) i
  obtain ⟨tr₂, p, hrun₂, hquiet⟩ := inputless_descends.exists_quiet trivial
    (s := Process.ofServer t)
  have hordered := (TimelyRun.ordered hrun).append (hspent.run hrun₂)
  obtain ⟨tr', s, hrun', htr, rfl, hS⟩ := exists_run_program hm hordered
  have hchunks : chunksOf (httpEvents tr') = chunksOf tr := by
    rw [htr, chunksOf_append, chunksOf_inputless hrun₂, List.append_nil]
  have hmem : ∀ c, .received c ∈ httpEvents tr' → .received c ∈ tr := fun c hc =>
    mem_chunksOf.mp (hchunks ▸ mem_chunksOf.mpr hc)
  have hquiet' : Quiet (only serving (programStep annsDb)) s := hS.quiet hquiet
  obtain ⟨hrows, henergy, hlines⟩ := program_outcome allIds_uniformDb (by decide) hrun'
    (fun c hc => by
      obtain ⟨call, rfl⟩ := hcalls c (hmem c hc)
      exact call.harmless) ((congrArg List.length hchunks).trans hreceived) hquiet'
  obtain ⟨row, row', hrow, hrow', hsettles⟩ := hrows 1 one_le_one
  refine ⟨s, tr', row, row', _, hrun', hrow, hrow', hsettles,
    henergy annsDb_fits annsDb_namesDistinct fun c q hc => husers c q (hmem c hc), ?_⟩
  have hcard := congrArg Multiset.card hlines
  rw [Multiset.coe_card, List.length_map, marksUpTo, Multiset.card_map, Multiset.card_range]
    at hcard
  exact hcard

end GreenFinal
