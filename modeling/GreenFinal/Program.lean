import GreenFinal.Refinement

/-!
# The program from its start

`main` loads the memory image, starts a thread with `func`, and waits on a condition
variable until that thread has set up its socket; then it touches the file that marks the
start as successful. `func` sets up the listening socket, tells `main`, and accepts one
connection after another, each for a thread of its own with `func_http`. Everything
`GreenFinal.Process` describes takes place among these threads.

A state of the program has the process in it, and besides it where `main` and `func`
are, the connections that wait to be accepted, and the figures that are printed on the
way. `func` prints that `socket`, `bind` or `listen` has failed and goes on as if it had
not, to `init_server_done` and the notification; then nothing listens at the port that the
clients connect to. It calls `epoll_wait` again when that has failed. Both are steps of
their own (`funcFailStep`); that `epoll_create`, `epoll_ctl` or `accept` fails, or that
`load_in_mem` leaves its array, is no step. `mtx` is taken by `main` alone, so it keeps
nobody waiting and is not in the state: what matters is that the notification does not
take it.
-/

open CLib Interleave

namespace GreenFinal

/-- Where `main` is. -/
inductive MainPc where
  /-- At `load_in_mem`. -/
  | load
  /-- At the start of the thread with `func`. -/
  | spawn
  /-- At the check of `init_server_done` in `cv.wait`. -/
  | test
  /-- The check has failed; about to go to sleep. -/
  | sleep
  /-- Asleep on the condition variable. -/
  | asleep
  /-- At `activate_flag`. -/
  | activate
  /-- At the `join` of the thread with `func`, which does not return. -/
  | join
  deriving DecidableEq

/-- Where `func` is. -/
inductive FuncPc where
  /-- Not started. -/
  | unborn
  /-- Setting up the socket, up to `listen` and `epoll_ctl`. -/
  | listen
  /-- At `init_server_done = true`. -/
  | setDone
  /-- At `cv.notify_all()`. -/
  | notify
  /-- In `epoll_wait`. -/
  | wait
  /-- At `has_count.fetch_add(1)` and the start of the clock. -/
  | count
  /-- At `accept` and the start of the thread. -/
  | accept
  deriving DecidableEq

/-- The socket has been set up, or could not be. -/
def FuncPc.setUp : FuncPc → Bool
  | .unborn | .listen => false
  | _ => true

/-- `init_server_done` has been set. -/
def FuncPc.done : FuncPc → Bool
  | .unborn | .listen | .setDone => false
  | _ => true

/-- `cv.notify_all()` has been called. -/
def FuncPc.notified : FuncPc → Bool
  | .wait | .count | .accept => true
  | _ => false

/-- What can be seen of a run of the program. -/
inductive ProgramEvent (ι : Type*) where
  /-- The memory image was loaded. -/
  | loaded
  /-- The socket began to listen. -/
  | listening
  /-- It could not, which was reported. -/
  | listenFailed
  /-- `init_server_done` was set. -/
  | initDone
  /-- `main` found that it was not. -/
  | tested
  /-- `main` went to sleep. -/
  | slept
  /-- All who slept were woken. -/
  | notified
  /-- The file that marks the start was touched. -/
  | activated
  /-- A client connected. -/
  | connected (i : ι)
  /-- `start` was set. -/
  | clockStarted
  /-- A connection was accepted and its thread started. -/
  | accepted (i : ι)
  /-- Something happened in a thread. -/
  | http (i : ι) (e : HttpEvent)
  /-- A line on the progress was printed. -/
  | logged (done count : UInt64)
  deriving DecidableEq

/-- **A state of the program.** -/
structure Program (ι : Type*) where
  /-- Where `main` is. -/
  main : MainPc
  /-- Where `func` is. -/
  func : FuncPc
  /-- The socket listens. -/
  listens : Bool
  /-- `init_server_done` -/
  initServerDone : Bool
  /-- `has_count` -/
  hasCount : UInt64
  /-- The connections that wait to be accepted, the first first. -/
  backlog : List ι
  /-- The connections that have been accepted, each with its thread. -/
  accepted : List ι
  /-- The `count` of each thread. -/
  count : ι → UInt64
  /-- The line on the progress that each thread has still to print. -/
  line : ι → Option (UInt64 × UInt64)
  /-- The lines printed. -/
  log : List (UInt64 × UInt64)
  /-- The threads, the counters, the memory image and the tables. -/
  process : Process ι

/-- Who moves. -/
inductive ProgramAction (ι : Type*) where
  /-- `main`. -/
  | main
  /-- Nobody: the condition variable lets go of `main` without a notification. -/
  | wakeUp
  /-- `func`. -/
  | func
  /-- `func`, when its system call fails. -/
  | funcFails
  /-- A client that connects. -/
  | connect (i : ι)
  /-- A thread that prints its line. -/
  | print (i : ι)
  /-- A thread of `func_http`, or a flush. -/
  | process (a : Action ι)

/-- How many requests are done for every line that is printed. -/
def logEvery : ℕ := 10000

variable {ι : Type*} [DecidableEq ι]

namespace Program

/-- The program before its first step. -/
def start (db : Database) : Program ι where
  main := .load
  func := .unborn
  listens := false
  initServerDone := false
  hasCount := 0
  backlog := []
  accepted := []
  count := fun _ => 0
  line := fun _ => none
  log := []
  process := Process.start ⟨fun _ => none, .empty⟩ db

/-- A thread has moved, and the process is `p`: if it has counted a request as done, it
counts it for itself and has a line to print if it is its turn. -/
def afterHttp (s : Program ι) (i : ι) (p : Process ι) : Program ι :=
  match s.process.server.pc i with
  | .finish _ =>
    let cur := s.process.server.doneCnt.toUInt64 + 1
    { s with
      process := p
      count := Function.update s.count i (s.count i + 1)
      line := Function.update s.line i
        (if cur.toNat % logEvery = 0 then some (cur, s.count i + 1) else none) }
  | _ => { s with process := p }

end Program

/-- **One step of `main`.** -/
def mainStep (db : Database) (s : Program ι) : Option (Program ι × List (ProgramEvent ι)) :=
  match s.main with
  | .load => (loadInMem db).toOption.map fun m =>
      ({ s with main := .spawn, process := Process.start m db }, [.loaded])
  | .spawn => some ({ s with main := .test, func := .listen }, [])
  | .test =>
    if s.initServerDone then some ({ s with main := .activate }, [])
    else some ({ s with main := .sleep }, [.tested])
  | .sleep => some ({ s with main := .asleep }, [.slept])
  | .asleep => none
  | .activate => some ({ s with main := .join }, [.activated])
  | .join => none

/-- **One step of `func`.** -/
def funcStep (s : Program ι) : Option (Program ι × List (ProgramEvent ι)) :=
  match s.func with
  | .unborn => none
  | .listen => some ({ s with func := .setDone, listens := true }, [.listening])
  | .setDone => some ({ s with func := .notify, initServerDone := true }, [.initDone])
  | .notify =>
    some ({ s with func := .wait, main := if s.main = .asleep then .test else s.main },
      [.notified])
  | .wait => if s.backlog = [] then none else some ({ s with func := .count }, [])
  | .count =>
    some ({ s with func := .accept, hasCount := s.hasCount + 1 },
      if s.hasCount = 0 then [.clockStarted] else [])
  | .accept =>
    match s.backlog with
    | [] => none
    | i :: rest =>
      some ({ s with func := .wait, backlog := rest, accepted := s.accepted ++ [i] },
        [.accepted i])

/-- **One step of `func` in which its system call fails.** -/
def funcFailStep (s : Program ι) : Option (Program ι × List (ProgramEvent ι)) :=
  match s.func with
  -- `socket`, `bind` or `listen` returns -1, and the set-up goes on
  | .listen => some ({ s with func := .setDone }, [.listenFailed])
  -- `epoll_wait` returns -1
  | .wait => some (s, [])
  | _ => none

/-- **One step of the program.** -/
def programStep (db : Database) :
    ProgramAction ι → Program ι → Option (Program ι × List (ProgramEvent ι))
  | .main, s => mainStep db s
  | .wakeUp, s => if s.main = .asleep then some ({ s with main := .test }, []) else none
  | .func, s => funcStep s
  | .funcFails, s => funcFailStep s
  | .connect i, s =>
    if s.listens = true ∧ i ∉ s.backlog ∧ i ∉ s.accepted then
      some ({ s with backlog := s.backlog ++ [i] }, [.connected i])
    else none
  | .print i, s => (s.line i).map fun l =>
      ({ s with line := Function.update s.line i none, log := s.log ++ [l] },
        [.logged l.1 l.2])
  | .process (.http i input), s =>
    if i ∈ s.accepted ∧ s.line i = none then
      (processStep (.http i input) s.process).map fun p => (s.afterHttp i p.1, p.2.map (.http i))
    else none
  | .process a, s => (processStep a s.process).map fun p => ({ s with process := p.1 }, [])

/-- The runs of the program on a database. -/
abbrev ProgramRun (db : Database) (tr : List (ProgramEvent ι)) (s : Program ι) : Prop :=
  Run (programStep db) (Program.start db) tr s

/-- **What a step of the program does.** -/
inductive ProgramStep (db : Database) (s : Program ι) :
    ProgramAction ι → Program ι → List (ProgramEvent ι) → Prop
  | loads (hmain : s.main = .load) (m : Mem) (hm : loadInMem db = .ok m) :
      ProgramStep db s .main { s with main := .spawn, process := Process.start m db } [.loaded]
  | spawns (hmain : s.main = .spawn) :
      ProgramStep db s .main { s with main := .test, func := .listen } []
  | passes (hmain : s.main = .test) (hdone : s.initServerDone = true) :
      ProgramStep db s .main { s with main := .activate } []
  | fails (hmain : s.main = .test) (hdone : s.initServerDone = false) :
      ProgramStep db s .main { s with main := .sleep } [.tested]
  | sleeps (hmain : s.main = .sleep) : ProgramStep db s .main { s with main := .asleep } [.slept]
  | activates (hmain : s.main = .activate) :
      ProgramStep db s .main { s with main := .join } [.activated]
  | wakes (hmain : s.main = .asleep) : ProgramStep db s .wakeUp { s with main := .test } []
  | listens (hfunc : s.func = .listen) :
      ProgramStep db s .func { s with func := .setDone, listens := true } [.listening]
  | cannotListen (hfunc : s.func = .listen) :
      ProgramStep db s .funcFails { s with func := .setDone } [.listenFailed]
  | sets (hfunc : s.func = .setDone) :
      ProgramStep db s .func { s with func := .notify, initServerDone := true } [.initDone]
  | notifies (hfunc : s.func = .notify) :
      ProgramStep db s .func
        { s with func := .wait, main := if s.main = .asleep then .test else s.main } [.notified]
  | waits (hfunc : s.func = .wait) (hne : s.backlog ≠ []) :
      ProgramStep db s .func { s with func := .count } []
  | waitsAgain (hfunc : s.func = .wait) : ProgramStep db s .funcFails s []
  | counts (hfunc : s.func = .count) :
      ProgramStep db s .func { s with func := .accept, hasCount := s.hasCount + 1 }
        (if s.hasCount = 0 then [.clockStarted] else [])
  | accepts (hfunc : s.func = .accept) (i : ι) (rest : List ι) (hbacklog : s.backlog = i :: rest) :
      ProgramStep db s .func
        { s with func := .wait, backlog := rest, accepted := s.accepted ++ [i] } [.accepted i]
  | connects (i : ι) (hlisten : s.listens = true) (hb : i ∉ s.backlog)
      (ha : i ∉ s.accepted) :
      ProgramStep db s (.connect i) { s with backlog := s.backlog ++ [i] } [.connected i]
  | prints (i : ι) (l : UInt64 × UInt64) (hline : s.line i = some l) :
      ProgramStep db s (.print i)
        { s with line := Function.update s.line i none, log := s.log ++ [l] } [.logged l.1 l.2]
  | threads (i : ι) (input : Option Chunk) (ha : i ∈ s.accepted) (hline : s.line i = none)
      (p : Process ι) (es : List HttpEvent)
      (h : processStep (.http i input) s.process = some (p, es)) :
      ProgramStep db s (.process (.http i input)) (s.afterHttp i p) (es.map (.http i))
  | flushes (a : Action ι) (ha : ∀ i input, a ≠ .http i input) (p : Process ι)
      (es : List HttpEvent) (h : processStep a s.process = some (p, es)) :
      ProgramStep db s (.process a) { s with process := p } []

/-- What `main` does. -/
theorem mainStep_cases {db : Database} {s s' : Program ι} {es : List (ProgramEvent ι)}
    (h : mainStep db s = some (s', es)) : ProgramStep db s .main s' es := by
  unfold mainStep at h
  cases hmain : s.main with
  | load =>
    rw [hmain] at h
    obtain ⟨m, hm, heq⟩ := Option.map_eq_some_iff.mp h
    obtain ⟨rfl, rfl⟩ := Prod.mk.inj heq
    exact .loads hmain m (eq_ok_of_toOption hm)
  | spawn =>
    rw [hmain] at h
    obtain ⟨rfl, rfl⟩ := Prod.mk.inj (Option.some.inj h)
    exact .spawns hmain
  | test =>
    rw [hmain] at h
    dsimp only at h
    cases hdone : s.initServerDone with
    | true =>
      rw [hdone, if_pos rfl] at h
      obtain ⟨rfl, rfl⟩ := Prod.mk.inj (Option.some.inj h)
      rw [← hdone]
      exact .passes hmain hdone
    | false =>
      rw [hdone, if_neg Bool.false_ne_true] at h
      obtain ⟨rfl, rfl⟩ := Prod.mk.inj (Option.some.inj h)
      rw [← hdone]
      exact .fails hmain hdone
  | sleep =>
    rw [hmain] at h
    obtain ⟨rfl, rfl⟩ := Prod.mk.inj (Option.some.inj h)
    exact .sleeps hmain
  | asleep | join =>
    rw [hmain] at h
    cases h
  | activate =>
    rw [hmain] at h
    obtain ⟨rfl, rfl⟩ := Prod.mk.inj (Option.some.inj h)
    exact .activates hmain

/-- What `func` does. -/
theorem funcStep_cases {db : Database} {s s' : Program ι} {es : List (ProgramEvent ι)}
    (h : funcStep s = some (s', es)) : ProgramStep db s .func s' es := by
  unfold funcStep at h
  cases hfunc : s.func with
  | unborn =>
    rw [hfunc] at h
    cases h
  | listen =>
    rw [hfunc] at h
    obtain ⟨rfl, rfl⟩ := Prod.mk.inj (Option.some.inj h)
    exact .listens hfunc
  | setDone =>
    rw [hfunc] at h
    obtain ⟨rfl, rfl⟩ := Prod.mk.inj (Option.some.inj h)
    exact .sets hfunc
  | notify =>
    rw [hfunc] at h
    obtain ⟨rfl, rfl⟩ := Prod.mk.inj (Option.some.inj h)
    exact .notifies hfunc
  | wait =>
    rw [hfunc] at h
    dsimp only at h
    by_cases hb : s.backlog = []
    · rw [if_pos hb] at h
      cases h
    · rw [if_neg hb] at h
      obtain ⟨rfl, rfl⟩ := Prod.mk.inj (Option.some.inj h)
      exact .waits hfunc hb
  | count =>
    rw [hfunc] at h
    obtain ⟨rfl, rfl⟩ := Prod.mk.inj (Option.some.inj h)
    exact .counts hfunc
  | accept =>
    rw [hfunc] at h
    dsimp only at h
    split at h
    · cases h
    · rename_i i rest hb
      obtain ⟨rfl, rfl⟩ := Prod.mk.inj (Option.some.inj h)
      exact .accepts hfunc i rest hb

/-- What `func` does when its system call fails. -/
theorem funcFailStep_cases {db : Database} {s s' : Program ι} {es : List (ProgramEvent ι)}
    (h : funcFailStep s = some (s', es)) : ProgramStep db s .funcFails s' es := by
  unfold funcFailStep at h
  cases hfunc : s.func with
  | listen =>
    rw [hfunc] at h
    obtain ⟨rfl, rfl⟩ := Prod.mk.inj (Option.some.inj h)
    exact .cannotListen hfunc
  | wait =>
    rw [hfunc] at h
    obtain ⟨rfl, rfl⟩ := Prod.mk.inj (Option.some.inj h)
    exact .waitsAgain hfunc
  | unborn | setDone | notify | count | accept =>
    rw [hfunc] at h
    cases h

/-- A step does one of these things. -/
theorem programStep_cases {db : Database} {a : ProgramAction ι} {s s' : Program ι}
    {es : List (ProgramEvent ι)} (h : programStep db a s = some (s', es)) :
    ProgramStep db s a s' es := by
  cases a with
  | main => exact mainStep_cases h
  | func => exact funcStep_cases h
  | funcFails => exact funcFailStep_cases h
  | wakeUp =>
    change (if s.main = .asleep then some ({ s with main := .test }, []) else none) = _ at h
    by_cases hmain : s.main = .asleep
    · rw [if_pos hmain] at h
      obtain ⟨rfl, rfl⟩ := Prod.mk.inj (Option.some.inj h)
      exact .wakes hmain
    · rw [if_neg hmain] at h
      cases h
  | connect i =>
    change (if _ then _ else none) = _ at h
    split at h
    · rename_i hc
      obtain ⟨rfl, rfl⟩ := Prod.mk.inj (Option.some.inj h)
      exact .connects i hc.1 hc.2.1 hc.2.2
    · cases h
  | print i =>
    obtain ⟨l, hl, heq⟩ := Option.map_eq_some_iff.mp h
    obtain ⟨rfl, rfl⟩ := Prod.mk.inj heq
    exact .prints i l hl
  | process a =>
    cases a with
    | http i input =>
      change (if _ then _ else none) = _ at h
      split at h
      · rename_i hc
        obtain ⟨⟨p, es'⟩, hp, heq⟩ := Option.map_eq_some_iff.mp h
        obtain ⟨rfl, rfl⟩ := Prod.mk.inj heq
        exact .threads i input hc.1 hc.2 p es' hp
      · cases h
    | scanRecord | scanTotal =>
      obtain ⟨⟨p, es'⟩, hp, heq⟩ := Option.map_eq_some_iff.mp h
      obtain ⟨rfl, rfl⟩ := Prod.mk.inj heq
      exact .flushes _ (fun _ _ h => by cases h) p es' hp

/-! ## What a thread leaves alone -/

namespace Program

variable (s : Program ι) (i : ι) (p : Process ι)

@[simp] theorem process_afterHttp : (s.afterHttp i p).process = p := by
  unfold afterHttp
  split <;> rfl

@[simp] theorem main_afterHttp : (s.afterHttp i p).main = s.main := by
  unfold afterHttp
  split <;> rfl

@[simp] theorem func_afterHttp : (s.afterHttp i p).func = s.func := by
  unfold afterHttp
  split <;> rfl

@[simp] theorem listens_afterHttp : (s.afterHttp i p).listens = s.listens := by
  unfold afterHttp
  split <;> rfl

@[simp] theorem initServerDone_afterHttp :
    (s.afterHttp i p).initServerDone = s.initServerDone := by
  unfold afterHttp
  split <;> rfl

@[simp] theorem hasCount_afterHttp : (s.afterHttp i p).hasCount = s.hasCount := by
  unfold afterHttp
  split <;> rfl

@[simp] theorem backlog_afterHttp : (s.afterHttp i p).backlog = s.backlog := by
  unfold afterHttp
  split <;> rfl

@[simp] theorem accepted_afterHttp : (s.afterHttp i p).accepted = s.accepted := by
  unfold afterHttp
  split <;> rfl

end Program

/-! ## The process in the program -/

section Order

variable {db : Database} {tr es : List (ProgramEvent ι)} {s s' : Program ι}
  {a : ProgramAction ι}

/-- What happens in the threads. -/
def httpEvents (tr : List (ProgramEvent ι)) : List HttpEvent :=
  tr.filterMap fun e => match e with
    | .http _ e => some e
    | _ => none

omit [DecidableEq ι] in
theorem httpEvents_append (tr es : List (ProgramEvent ι)) :
    httpEvents (tr ++ es) = httpEvents tr ++ httpEvents es := List.filterMap_append

omit [DecidableEq ι] in
theorem httpEvents_map (i : ι) (es : List HttpEvent) :
    httpEvents (es.map (ProgramEvent.http i)) = es := by
  rw [httpEvents, List.filterMap_map]
  exact List.filterMap_some

/-- A flush that has not been started does not step. -/
theorem processStep_start_eq_none {m : Mem} {b : Action ι} (hb : ∀ i input, b ≠ .http i input) :
    processStep b (Process.start m db) = none := by
  cases b with
  | http i input => exact absurd rfl (hb i input)
  | scanRecord | scanTotal => rfl

/-- A flush shows nothing. -/
theorem ProcessStep.eq_nil_of_flush {a : Action ι} {p p' : Process ι} {es : List HttpEvent}
    (h : ProcessStep p a p' es) (ha : ∀ i input, a ≠ .http i input) : es = [] := by
  cases h with
  | threads i => exact absurd rfl (ha i _)
  | disposes i => exact absurd rfl (ha i _)
  | steps i => exact absurd rfl (ha i _)
  | returns i => exact absurd rfl (ha i _)
  | reads | skips | readsStatus | writes => rfl
  | totals k order t es h => cases h <;> rfl

/-- A condition on the steps of the process, for those of the program. -/
def ofProcess (q : Action ι → Process ι → Bool) : ProgramAction ι → Program ι → Bool
  | .process a, s => q a s.process
  | _, _ => true

/-- **The process runs in the program as it does alone**: nothing happens before the memory
image is loaded, and from then on the threads and the flushes make a run of the process,
whatever `main`, `func` and the clients do; and their steps satisfy there what they do in
the program. -/
theorem ProgramRun.process_only {q : Action ι → Process ι → Bool}
    (h : Run (only (ofProcess q) (programStep db)) (Program.start db) tr s) :
    s = Program.start db ∧ tr = []
      ∨ s.main ≠ .load ∧ ∃ m, loadInMem db = .ok m
        ∧ Run (only q processStep) (Process.start m db) (httpEvents tr) s.process := by
  refine Run.invariant (I := fun tr (s : Program ι) => s = Program.start db ∧ tr = []
    ∨ s.main ≠ .load ∧ ∃ m, loadInMem db = .ok m
      ∧ Run (only q processStep) (Process.start m db) (httpEvents tr) s.process)
    (Or.inl ⟨rfl, rfl⟩) (fun tr s a s' es _ hI hs => ?_) h
  obtain ⟨hq, hs⟩ := only_eq_some.mp hs
  have hstep := programStep_cases hs
  rcases hI with ⟨rfl, rfl⟩ | ⟨hmain, m, hm, hrun⟩
  · -- at the start there is nothing to do but to load
    cases hstep with
    | loads _ m hm => exact Or.inr ⟨MainPc.noConfusion, m, hm, .init⟩
    | spawns hmain | passes hmain | fails hmain | sleeps hmain | activates hmain
    | wakes hmain => cases hmain
    | listens hfunc | cannotListen hfunc | sets hfunc | notifies hfunc | waits hfunc
    | waitsAgain hfunc | counts hfunc | accepts hfunc => cases hfunc
    | connects _ hlisten => exact absurd hlisten Bool.false_ne_true
    | prints _ _ hline => cases hline
    | threads _ _ ha => exact absurd ha List.not_mem_nil
    | flushes b hb p es h =>
      rw [show (Program.start db).process = Process.start _ db from rfl,
        processStep_start_eq_none hb] at h
      cases h
  · refine Or.inr ?_
    cases hstep with
    | loads hload => exact absurd hload hmain
    | threads i input ha hline p es h =>
      rw [Program.main_afterHttp, Program.process_afterHttp, httpEvents_append, httpEvents_map]
      exact ⟨hmain, m, hm, hrun.next (only_eq_some.mpr ⟨hq, h⟩)⟩
    | flushes b hb p es h =>
      obtain rfl := (processStep_cases h).eq_nil_of_flush hb
      rw [httpEvents_append]
      exact ⟨hmain, m, hm, hrun.next (only_eq_some.mpr ⟨hq, h⟩)⟩
    | notifies =>
      rw [httpEvents_append]
      refine ⟨?_, m, hm, (List.append_nil (httpEvents tr)).symm ▸ hrun⟩
      show (if s.main = .asleep then MainPc.test else s.main) ≠ .load
      split
      · exact MainPc.noConfusion
      · exact hmain
    | counts =>
      have hnone : httpEvents (if s.hasCount = 0 then [(.clockStarted : ProgramEvent ι)] else [])
          = [] := by
        split <;> rfl
      rw [httpEvents_append, hnone, List.append_nil]
      exact ⟨hmain, m, hm, hrun⟩
    | spawns | passes | fails | sleeps | activates | wakes =>
      rw [httpEvents_append]
      exact ⟨MainPc.noConfusion, m, hm, (List.append_nil (httpEvents tr)).symm ▸ hrun⟩
    | listens | cannotListen | sets | waits | waitsAgain | accepts | connects | prints =>
      rw [httpEvents_append]
      exact ⟨hmain, m, hm, (List.append_nil (httpEvents tr)).symm ▸ hrun⟩

theorem ProgramRun.process (h : ProgramRun db tr s) :
    s = Program.start db ∧ tr = []
      ∨ s.main ≠ .load ∧ ∃ m, loadInMem db = .ok m
        ∧ ProcessRun m db (httpEvents tr) s.process := by
  have hfree : (ofProcess fun _ _ => true) = fun (_ : ProgramAction ι) (_ : Program ι) => true := by
    funext a s
    cases a <;> rfl
  have h' : Run (only (ofProcess fun _ _ => true) (programStep db)) (Program.start db) tr s := by
    rw [hfree, only_true]
    exact h
  have hprocess := ProgramRun.process_only h'
  rw [only_true] at hprocess
  exact hprocess

/-! ## Where `main` and `func` are -/

/-- **Where `main` and `func` are**: `func` runs once `main` has started it, and the flag is
set where `func` has set it. -/
structure Born (s : Program ι) : Prop where
  unborn : s.func = .unborn ↔ s.main = .load ∨ s.main = .spawn
  initServerDone : s.initServerDone = s.func.done

omit [DecidableEq ι] in
/-- The flag is set before the notification. -/
theorem Born.notified_of_flag (h : Born s) (hflag : s.initServerDone = false) :
    s.func.notified = false := by
  have hdone : s.func.done = false := h.initServerDone.symm.trans hflag
  cases hfunc : s.func with
  | unborn | listen | setDone | notify => rfl
  | wait | count | accept =>
    rw [hfunc] at hdone
    cases hdone

theorem Born.step (h : Born s) (hs : programStep db a s = some (s', es)) : Born s' := by
  obtain ⟨hunborn, hdone⟩ := h
  cases programStep_cases hs with
  | loads hmain =>
    exact ⟨iff_of_true (hunborn.mpr (Or.inl hmain)) (Or.inr rfl), hdone⟩
  | spawns hmain =>
    refine ⟨by simp, hdone.trans ?_⟩
    rw [hunborn.mpr (Or.inr hmain)]
    rfl
  | passes hmain | fails hmain | sleeps hmain | activates hmain | wakes hmain =>
    rw [hmain] at hunborn
    exact ⟨by simpa using hunborn, hdone⟩
  | listens hfunc | cannotListen hfunc | waits hfunc | counts hfunc | accepts hfunc =>
    rw [hfunc] at hunborn hdone
    exact ⟨by simpa using hunborn, hdone⟩
  | sets hfunc =>
    rw [hfunc] at hunborn
    exact ⟨by simpa using hunborn, rfl⟩
  | notifies hfunc =>
    rw [hfunc] at hunborn hdone
    refine ⟨?_, hdone⟩
    by_cases hmain : s.main = .asleep
    · simp [hmain]
    · simpa [hmain] using hunborn
  | threads => exact ⟨by simpa using hunborn, by simpa using hdone⟩
  | waitsAgain | connects | prints | flushes => exact ⟨hunborn, hdone⟩

theorem ProgramRun.born (h : ProgramRun db tr s) : Born s :=
  Run.invariant (I := fun _ (s : Program ι) => Born s) ⟨by simp [Program.start], rfl⟩
    (fun _ _ _ _ _ _ hI hs => hI.step hs) h

/-! ## What comes first -/

/-- **What the trace tells of the socket**: whether it was set up, and how that ended. -/
structure SetUp (tr : List (ProgramEvent ι)) (s : Program ι) : Prop where
  setUp : s.func.setUp = true ↔ .listening ∈ tr ∨ .listenFailed ∈ tr
  listens : s.listens = true ↔ .listening ∈ tr
  once : .listenFailed ∈ tr → .listening ∉ tr
  initDone : .listenFailed ∉ tr → Precedes .listening .initDone tr

omit [DecidableEq ι] in
/-- A step that is not about the socket. -/
theorem SetUp.of_quiet (h : SetUp tr s) (hlistening : .listening ∉ es)
    (hfailed : .listenFailed ∉ es) (hinit : .initDone ∈ es → s.func.setUp = true)
    (hsetUp : s'.func.setUp = s.func.setUp) (hlistens : s'.listens = s.listens) :
    SetUp (tr ++ es) s' := by
  have hmem : ∀ e, e ∉ es → (e ∈ tr ++ es ↔ e ∈ tr) := fun e he => by
    rw [List.mem_append, or_iff_left he]
  constructor
  · rw [hsetUp, hmem _ hlistening, hmem _ hfailed]
    exact h.setUp
  · rw [hlistens, hmem _ hlistening]
    exact h.listens
  · rw [hmem _ hlistening, hmem _ hfailed]
    exact h.once
  · rw [hmem _ hfailed]
    exact fun hnot => (h.initDone hnot).append fun hin =>
      (h.setUp.mp (hinit hin)).resolve_right hnot

theorem ProgramRun.setUp (h : ProgramRun db tr s) : SetUp tr s := by
  refine Run.invariant (I := fun tr (s : Program ι) => SetUp tr s)
    ⟨by simp [Program.start, FuncPc.setUp], by simp [Program.start], by simp,
      fun _ => Precedes.nil _ _⟩ (fun tr s a s' es hr hI hs => ?_) h
  -- before the socket is set up neither event has happened
  have hbefore : s.func = .listen → .listening ∉ tr ∧ .listenFailed ∉ tr := fun hfunc => by
    rw [← not_or, ← hI.setUp, hfunc]
    exact Bool.false_ne_true
  cases programStep_cases hs with
  | listens hfunc =>
    obtain ⟨hlistening, hfailed⟩ := hbefore hfunc
    exact ⟨iff_of_true rfl (by simp), iff_of_true rfl (by simp), by simp [hfailed],
      fun _ => (hI.initDone hfailed).append (by simp)⟩
  | cannotListen hfunc =>
    obtain ⟨hlistening, hfailed⟩ := hbefore hfunc
    exact ⟨iff_of_true rfl (by simp), by simpa using hI.listens, by simp [hlistening],
      fun hnot => absurd (List.mem_append_right _ List.mem_cons_self) hnot⟩
  | sets hfunc =>
    exact hI.of_quiet (by simp) (by simp) (fun _ => by rw [hfunc]; rfl) (by rw [hfunc]; rfl) rfl
  | spawns hmain =>
    have hunborn : s.func = .unborn := (ProgramRun.born hr).unborn.mpr (Or.inr hmain)
    exact hI.of_quiet (by simp) (by simp) (by simp) (by rw [hunborn]; rfl) rfl
  | notifies hfunc | waits hfunc | accepts hfunc =>
    exact hI.of_quiet (by simp) (by simp) (by simp) (by rw [hfunc]; rfl) rfl
  | counts hfunc =>
    refine hI.of_quiet ?_ ?_ ?_ (by rw [hfunc]; rfl) rfl <;> split <;> simp
  | threads => exact hI.of_quiet (by simp) (by simp) (by simp) (by simp) (by simp)
  | loads | passes | fails | sleeps | activates | wakes | waitsAgain | connects | prints
    | flushes => exact hI.of_quiet (by simp) (by simp) (by simp) rfl rfl

end Order

end GreenFinal
