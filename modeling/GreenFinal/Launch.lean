import GreenFinal.Program
import GreenFinal.Quiescence
import GreenFinal.Realization

/-!
# The program does what the process does

The process is a part of the program, and `GreenFinal.Program` says that it runs there as it
does alone. It is no more restricted there, either: the start can be gone through, every
client be given its thread and every line be printed as soon as it is due, so that
whatever the process can do it can do in the program (`program_realizes`).
-/

open CLib Interleave

namespace GreenFinal

variable {ι : Type*} [DecidableEq ι] {db : Database} {m : Mem} {tr es : List (ProgramEvent ι)}
  {s s' : Program ι} {a : ProgramAction ι} {q : Action ι → Process ι → Bool}

/-- **At the clients' service**: the start is over, every client has its thread, and no line
is due. -/
structure Serving (s : Program ι) : Prop where
  main : s.main = .join
  func : s.func = .wait
  backlog : s.backlog = []
  accepted : ∀ i, i ∈ s.accepted
  line : ∀ i, s.line i = none

/-- The start, up to the wait for clients. -/
theorem exists_run_start (q : Action ι → Process ι → Bool) (hload : loadInMem db = .ok m) :
    ∃ tr, Run (only (ofProcess q) (programStep db)) (Program.start db) tr
        { Program.start db with
          main := .join
          func := .wait
          listens := true
          initServerDone := true
          process := Process.start m db }
      ∧ httpEvents (ι := ι) tr = [] := by
  have hloads : only (ofProcess q) (programStep db) .main (Program.start db)
      = some ({ Program.start db with
          main := .spawn
          process := Process.start m db }, [.loaded]) := by
    refine only_eq_some.mpr ⟨rfl, ?_⟩
    show (loadInMem db).toOption.map _ = _
    rw [hload]
    rfl
  exact ⟨_, (Run.single hloads).append (Run.of_exec
    (show Run.exec _ [.main, .func, .func, .func, .main, .main] _ = some (_, _) from rfl)), rfl⟩

/-- A client connects and is accepted. -/
theorem exists_run_accept_one (db : Database) (q : Action ι → Process ι → Bool)
    (hfunc : s.func = .wait) (hlistens : s.listens = true) (hbacklog : s.backlog = []) {i : ι}
    (hi : i ∉ s.accepted) :
    ∃ tr c, Run (only (ofProcess q) (programStep db)) s tr
        { s with hasCount := c, accepted := s.accepted ++ [i] }
      ∧ httpEvents tr = [] := by
  obtain ⟨main, func, listens, flag, cnt, backlog, accepted, count, line, log, process⟩ := s
  obtain rfl := hfunc
  obtain rfl := hlistens
  obtain rfl := hbacklog
  have hconnects : only (ofProcess q) (programStep db) (.connect i)
      ⟨main, .wait, true, flag, cnt, [], accepted, count, line, log, process⟩
      = some (⟨main, .wait, true, flag, cnt, [i], accepted, count, line, log, process⟩,
        [.connected i]) :=
    only_eq_some.mpr ⟨rfl, if_pos ⟨rfl, List.not_mem_nil, hi⟩⟩
  refine ⟨_, cnt + 1, (Run.single hconnects).append (Run.of_exec
    (show Run.exec _ [.func, .func, .func] _ = some (_, _) from rfl)), ?_⟩
  show httpEvents ([.connected i] ++ ((if cnt = 0 then [.clockStarted] else []) ++ _)) = _
  split <;> rfl

/-- Clients connect and are accepted, one after another. -/
theorem exists_run_accept (db : Database) (q : Action ι → Process ι → Bool) (l : List ι)
    (hl : l.Nodup) (hfunc : s.func = .wait) (hlistens : s.listens = true)
    (hbacklog : s.backlog = []) (hnew : ∀ i ∈ l, i ∉ s.accepted) :
    ∃ tr c, Run (only (ofProcess q) (programStep db)) s tr
        { s with hasCount := c, accepted := s.accepted ++ l }
      ∧ httpEvents tr = [] := by
  induction l generalizing s with
  | nil =>
    refine ⟨[], s.hasCount, ?_, rfl⟩
    rw [List.append_nil]
    exact .init
  | cons i l ih =>
    obtain ⟨tr₁, c₁, hrun₁, htr₁⟩ :=
      exists_run_accept_one db q hfunc hlistens hbacklog (hnew i List.mem_cons_self)
    obtain ⟨tr₂, c₂, hrun₂, htr₂⟩ := ih (List.nodup_cons.mp hl).2
      (s := { s with hasCount := c₁, accepted := s.accepted ++ [i] }) hfunc hlistens hbacklog
      fun j hj hin => (List.mem_append.mp hin).elim (hnew j (List.mem_cons_of_mem i hj))
        fun hji => (List.nodup_cons.mp hl).1 (List.mem_singleton.mp hji ▸ hj)
    refine ⟨tr₁ ++ tr₂, c₂, ?_, ?_⟩
    · rw [List.append_cons]
      exact hrun₁.append hrun₂
    · rw [httpEvents_append, htr₁, htr₂]
      rfl

/-- **The program can come to serve all its clients** before any of them sends anything. -/
theorem exists_run_serving [Fintype ι] (q : Action ι → Process ι → Bool)
    (hload : loadInMem db = .ok m) :
    ∃ tr s, Run (only (ofProcess q) (programStep db)) (Program.start (ι := ι) db) tr s
      ∧ httpEvents tr = [] ∧ s.process = Process.start m db ∧ Serving s := by
  obtain ⟨tr₁, hrun₁, htr₁⟩ := exists_run_start (ι := ι) q hload
  obtain ⟨tr₂, c, hrun₂, htr₂⟩ := exists_run_accept db q Finset.univ.toList
    (Finset.nodup_toList _) (s := { Program.start (ι := ι) db with
      main := .join
      func := .wait
      listens := true
      initServerDone := true
      process := Process.start m db }) rfl rfl rfl fun _ _ => List.not_mem_nil
  refine ⟨tr₁ ++ tr₂, _, hrun₁.append hrun₂, ?_, rfl, rfl, rfl, rfl, fun i => ?_, fun _ => rfl⟩
  · rw [httpEvents_append, htr₁, htr₂]
    rfl
  · exact List.mem_append_right _ (Finset.mem_toList.mpr (Finset.mem_univ i))

/-- Another thread's line is left alone. -/
theorem Program.line_afterHttp_of_ne (p : Process ι) {i j : ι} (hj : j ≠ i) :
    (s.afterHttp i p).line j = s.line j := by
  unfold afterHttp
  split
  · exact Function.update_of_ne hj ..
  · rfl

/-- **A step of the process, in the program**: the thread prints its line at once. -/
theorem Serving.realize (db : Database) (hS : Serving s) {a : Action ι} {p : Process ι}
    {es : List HttpEvent} (hq : q a s.process = true) (h : processStep a s.process = some (p, es)) :
    ∃ tr s', Run (only (ofProcess q) (programStep db)) s tr s'
      ∧ httpEvents tr = es ∧ s'.process = p ∧ Serving s' := by
  cases a with
  | scanRecord k | scanTotal k order =>
    obtain rfl := (processStep_cases h).eq_nil_of_flush fun _ _ h => by cases h
    have hstep : only (ofProcess q) (programStep db) (.process _) s
        = some ({ s with process := p }, []) :=
      only_eq_some.mpr ⟨hq, Option.map_eq_some_iff.mpr ⟨_, h, rfl⟩⟩
    exact ⟨_, _, Run.single hstep, rfl, rfl, hS.main, hS.func, hS.backlog, hS.accepted, hS.line⟩
  | http i input =>
    have hstep : only (ofProcess q) (programStep db) (.process (.http i input)) s
        = some (s.afterHttp i p, es.map (.http i)) := by
      refine only_eq_some.mpr ⟨hq, (if_pos ⟨hS.accepted i, hS.line i⟩).trans ?_⟩
      exact Option.map_eq_some_iff.mpr ⟨_, h, rfl⟩
    have hother : ∀ j, j ≠ i → (s.afterHttp i p).line j = none := fun j hj =>
      (Program.line_afterHttp_of_ne p hj).trans (hS.line j)
    cases hline : (s.afterHttp i p).line i with
    | none =>
      refine ⟨_, _, Run.single hstep, httpEvents_map i es, by simp, by simp [hS.main],
        by simp [hS.func], by simp [hS.backlog], by simp [hS.accepted], fun j => ?_⟩
      by_cases hj : j = i
      · rw [hj, hline]
      · exact hother j hj
    | some l =>
      have hprint : only (ofProcess q) (programStep db) (.print i) (s.afterHttp i p)
          = some ({ s.afterHttp i p with
              line := Function.update (s.afterHttp i p).line i none
              log := (s.afterHttp i p).log ++ [l] }, [.logged l.1 l.2]) :=
        only_eq_some.mpr ⟨rfl, Option.map_eq_some_iff.mpr ⟨l, hline, rfl⟩⟩
      refine ⟨_, _, (Run.single hstep).next hprint, ?_, by simp, by simp [hS.main],
        by simp [hS.func], by simp [hS.backlog], by simp [hS.accepted], fun j => ?_⟩
      · rw [httpEvents_append, httpEvents_map]
        exact List.append_nil es
      · by_cases hj : j = i
        · rw [hj]
          exact Function.update_self ..
        · exact (Function.update_of_ne hj ..).trans (hother j hj)

/-- A run of the process is one of the program, under the same condition on its steps. -/
theorem exists_run_program [Fintype ι] (hload : loadInMem db = .ok m) {tr : List HttpEvent}
    {p : Process ι} (h : Run (only q processStep) (Process.start m db) tr p) :
    ∃ tr' s, Run (only (ofProcess q) (programStep db)) (Program.start db) tr' s
      ∧ httpEvents tr' = tr ∧ s.process = p ∧ Serving s := by
  induction h with
  | init =>
    obtain ⟨tr, s, hrun, htr, hp, hS⟩ := exists_run_serving q hload
    exact ⟨tr, s, hrun, htr, hp, hS⟩
  | next _ hs ih =>
    obtain ⟨tr₁, s₁, hrun₁, rfl, rfl, hS₁⟩ := ih
    obtain ⟨hq, hs⟩ := only_eq_some.mp hs
    obtain ⟨tr₂, s₂, hrun₂, rfl, rfl, hS₂⟩ := hS₁.realize db hq hs
    exact ⟨tr₁ ++ tr₂, s₂, hrun₁.append hrun₂, httpEvents_append .., rfl, hS₂⟩

/-- **Whatever the process can do it can do in the program**: every run of the process on
the memory image that is loaded is, with the same events in the threads, part of a run of
the program from its launch, in which the start has been marked, every client has its
thread and all lines that are due have been printed. -/
theorem program_realizes [Fintype ι] (hload : loadInMem db = .ok m) {tr : List HttpEvent}
    {p : Process ι} (h : ProcessRun m db tr p) :
    ∃ tr' s, ProgramRun db tr' s ∧ httpEvents tr' = tr ∧ s.process = p ∧ Serving s := by
  have h' : Run (only (fun _ _ => true) processStep) (Process.start m db) tr p := by
    rw [only_true]
    exact h
  obtain ⟨tr', s, hrun, htr, hp, hS⟩ := exists_run_program hload h'
  exact ⟨tr', s, Run.of_only hrun, htr, hp, hS⟩

/-- The program serves two clients, one of which has sent a request. -/
theorem program_realizes_threeUnits :
    ∃ (s : Program Bool) (tr : List (ProgramEvent Bool)), ProgramRun threeUnitsDb tr s
      ∧ httpEvents tr = [.received (raceCalls 0).chunk, .numbered 1, .responded 1]
      ∧ Serving s := by
  obtain ⟨m, p, hm, hrun⟩ := exists_processRun_threeUnits
  obtain ⟨tr, s, hrun', htr, -, hS⟩ := program_realizes hm hrun
  exact ⟨s, tr, hrun', htr, hS⟩

end GreenFinal
