import GreenFinal.Program

/-!
# The notification of `main`

`func` sets `init_server_done` and notifies without taking `mtx`. So both can fall between
the check of `main`, which finds the flag not set, and its going to sleep: then `main`
sleeps on, and the start is never marked as successful although the server is up. Apart
from spurious wake-ups this is the only thing that can go wrong, and it can be read off the
trace (`activation_iff`).

In one direction an invariant relates the trace to where `main` is (`Told`). In the other
the start is brought to its end by letting `main` go to sleep before `func` notifies it:
this keeps `main` from missing the notification, and there are only so many steps
(`prompt_descends`).
-/

open CLib Interleave

namespace GreenFinal

variable {ι : Type*} [DecidableEq ι] {db : Database} {m : Mem} {tr es : List (ProgramEvent ι)}
  {s s' : Program ι} {a : ProgramAction ι}

/-! ## What the trace tells -/

/-- `main` has found the flag not set, and has not been woken. -/
def MainPc.waits : MainPc → Bool
  | .sleep | .asleep => true
  | _ => false

/-- **The notification was missed**: `main` had found the flag not set, and had not gone to
sleep yet. -/
def Missed (tr : List (ProgramEvent ι)) : Prop :=
  ∃ pre post, tr = pre ++ .notified :: post ∧ .tested ∈ pre ∧ .slept ∉ pre

/-- A condition variable that wakes nobody without a notification. -/
def steady : ProgramAction ι → Program ι → Bool
  | .wakeUp, _ => false
  | _, _ => true

/-- The runs without spurious wake-ups. -/
abbrev SteadyRun (db : Database) (tr : List (ProgramEvent ι)) (s : Program ι) : Prop :=
  Run (only steady (programStep db)) (Program.start db) tr s

omit [DecidableEq ι] in
theorem Missed.append (h : Missed tr) (es : List (ProgramEvent ι)) : Missed (tr ++ es) := by
  obtain ⟨pre, post, rfl, hmissed⟩ := h
  exact ⟨pre, post ++ es, List.append_assoc .., hmissed⟩

omit [DecidableEq ι] in
/-- What has been missed stays missed, and without a notification nothing is. -/
theorem missed_append (h : .notified ∉ es) : Missed (tr ++ es) ↔ Missed tr := by
  refine ⟨?_, fun hmissed => hmissed.append es⟩
  rintro ⟨pre, post, heq, hmissed⟩
  rcases List.append_eq_append_iff.mp heq with ⟨w, rfl, hw⟩ | ⟨w, rfl, hw⟩
  · exact absurd (hw ▸ List.mem_append_right _ List.mem_cons_self) h
  · cases w with
    | nil =>
      rw [List.nil_append] at hw
      exact absurd (hw ▸ List.mem_cons_self) h
    | cons e w =>
      obtain ⟨rfl, -⟩ := List.cons.inj hw
      exact ⟨pre, w, rfl, hmissed⟩

omit [DecidableEq ι] in
/-- Whether a first notification is missed. -/
theorem missed_notified (h : .notified ∉ tr) :
    Missed (tr ++ [.notified]) ↔ .tested ∈ tr ∧ .slept ∉ tr := by
  constructor
  · rintro ⟨pre, post, heq, hmissed⟩
    rcases List.append_eq_append_iff.mp heq with ⟨w, rfl, hw⟩ | ⟨w, rfl, hw⟩
    · cases w with
      | nil => simpa using hmissed
      | cons e w => simp at hw
    · cases w with
      | nil => simpa using hmissed
      | cons e w =>
        obtain ⟨rfl, -⟩ := List.cons.inj hw
        exact absurd (List.mem_append_right _ List.mem_cons_self) h
  · exact fun hmissed => ⟨tr, [], rfl, hmissed⟩

/-- The start is marked as successful before `main` waits for the end of `func`. -/
theorem ProgramRun.activated_iff (h : ProgramRun db tr s) :
    .activated ∈ tr ↔ s.main = .join := by
  refine Run.invariant (I := fun tr (s : Program ι) => .activated ∈ tr ↔ s.main = .join)
    (by simp [Program.start]) (fun tr s a s' es _ hI hs => ?_) h
  rw [List.mem_append, hI]
  cases programStep_cases hs with
  | activates hmain => simp
  | loads hmain | spawns hmain | passes hmain | fails hmain | sleeps hmain | wakes hmain =>
    simp [hmain]
  | notifies =>
    by_cases hmain : s.main = .asleep <;> simp [hmain]
  | counts =>
    by_cases hzero : s.hasCount = 0 <;> simp [hzero]
  | threads => simp
  | listens | cannotListen | sets | waits | waitsAgain | accepts | connects | prints
  | flushes => simp

/-- **What the trace tells of `main`**: before the notification, whether it has found the
flag not set, and whether it sleeps; after it, whether it has missed the notification and
goes on waiting. -/
structure Told (tr : List (ProgramEvent ι)) (s : Program ι) : Prop where
  notified : .notified ∈ tr ↔ s.func.notified = true
  tested : s.func.notified = false → (.tested ∈ tr ↔ s.main.waits = true)
  slept : s.func.notified = false → (.slept ∈ tr ↔ s.main = .asleep)
  missed : s.func.notified = true → (Missed tr ↔ s.main.waits = true)

omit [DecidableEq ι] in
/-- A step that is not about the notification. -/
theorem Told.of_quiet (h : Told tr s) (hnotified : .notified ∉ es) (htested : .tested ∉ es)
    (hslept : .slept ∉ es) (hfunc : s'.func.notified = s.func.notified)
    (hwaits : s'.main.waits = s.main.waits) (hasleep : s'.main = .asleep ↔ s.main = .asleep) :
    Told (tr ++ es) s' := by
  constructor
  · rw [List.mem_append, or_iff_left hnotified, hfunc]
    exact h.notified
  · rw [List.mem_append, or_iff_left htested, hfunc, hwaits]
    exact h.tested
  · rw [List.mem_append, or_iff_left hslept, hfunc, hasleep]
    exact h.slept
  · rw [missed_append hnotified, hfunc, hwaits]
    exact h.missed

omit [DecidableEq ι] in
/-- What the notification changes. -/
theorem Told.of_notified (h : Told tr s) (hfunc : s.func = .notify) :
    Told (tr ++ [.notified])
      { s with func := .wait, main := if s.main = .asleep then .test else s.main } := by
  have hbefore : s.func.notified = false := by rw [hfunc]; rfl
  have hnone : .notified ∉ tr := fun hmem =>
    absurd (h.notified.mp hmem) (by rw [hbefore]; exact Bool.false_ne_true)
  refine ⟨iff_of_true (List.mem_append_right _ List.mem_cons_self) rfl,
    fun hafter => absurd hafter.symm Bool.false_ne_true,
    fun hafter => absurd hafter.symm Bool.false_ne_true, fun _ => ?_⟩
  rw [missed_notified hnone, h.tested hbefore, h.slept hbefore]
  -- who sleeps is woken, and who is about to go to sleep is not
  cases hmain : s.main <;> simp [MainPc.waits]

/-- The trace tells where `main` is, if it is woken by nothing but the notification. -/
theorem SteadyRun.told (h : SteadyRun db tr s) : Told tr s := by
  refine Run.invariant (I := fun tr (s : Program ι) => Told tr s)
    ⟨by simp [Program.start, FuncPc.notified], by simp [Program.start, MainPc.waits],
      by simp [Program.start], by simp [Program.start, FuncPc.notified]⟩
    (fun tr s a s' es hr hI hs => ?_) h
  obtain ⟨hsteady, hs⟩ := only_eq_some.mp hs
  have hborn := ProgramRun.born (Run.of_only hr)
  cases programStep_cases hs with
  | wakes => cases hsteady
  | loads hmain | passes hmain | activates hmain =>
    exact hI.of_quiet (by simp) (by simp) (by simp) rfl (by rw [hmain]; rfl) (by simp [hmain])
  | spawns hmain =>
    refine hI.of_quiet (by simp) (by simp) (by simp) ?_ (by rw [hmain]; rfl) (by simp [hmain])
    rw [hborn.unborn.mpr (Or.inr hmain)]
    rfl
  | fails hmain hflag =>
    have hbefore := hborn.notified_of_flag hflag
    have hslept := hI.slept hbefore
    rw [hmain] at hslept
    refine ⟨by simpa using hI.notified, fun _ => iff_of_true (by simp) rfl, fun _ => ?_,
      fun hafter => absurd hafter (by rw [hbefore]; exact Bool.false_ne_true)⟩
    simpa using hslept
  | sleeps hmain =>
    have htested := hI.tested
    have hmissed := hI.missed
    rw [hmain] at htested hmissed
    refine ⟨by simpa using hI.notified, fun hbefore => ?_,
      fun _ => iff_of_true (by simp) rfl, fun hafter => ?_⟩
    · rw [List.mem_append, or_iff_left (by simp)]
      exact htested hbefore
    · rw [missed_append (by simp)]
      exact hmissed hafter
  | notifies hfunc => exact hI.of_notified hfunc
  | listens hfunc | cannotListen hfunc | sets hfunc | waits hfunc | accepts hfunc =>
    exact hI.of_quiet (by simp) (by simp) (by simp) (by rw [hfunc]; rfl) rfl Iff.rfl
  | counts hfunc =>
    refine hI.of_quiet ?_ ?_ ?_ (by rw [hfunc]; rfl) rfl Iff.rfl <;> split <;> simp
  | threads => exact hI.of_quiet (by simp) (by simp) (by simp) (by simp) (by simp) (by simp)
  | waitsAgain | connects | prints | flushes =>
    exact hI.of_quiet (by simp) (by simp) (by simp) rfl rfl Iff.rfl

/-! ## The start comes to its end -/

/-- `main` does not wait for a notification that has been. -/
structure Reached (s : Program ι) : Prop where
  born : Born s
  heard : s.func.notified = true → s.main.waits = false

/-- The steps of the start in which `func` lets `main` go to sleep first. -/
def prompt : ProgramAction ι → Program ι → Bool
  | .main, _ => true
  | .func, s => s.func.notified = false ∧ s.main ≠ .sleep
  | _, _ => false

/-- How many steps `main` is from the end, if it has to sleep. -/
def MainPc.rank : MainPc → ℕ
  | .load => 6
  | .spawn => 5
  | .test => 4
  | .sleep => 3
  | .asleep => 2
  | .activate => 1
  | .join => 0

/-- How many steps `func` is from its loop, the notification counted for what `main` has to
do after it. -/
def FuncPc.rank : FuncPc → ℕ
  | .unborn | .listen => 5
  | .setDone => 4
  | .notify => 3
  | .wait | .count | .accept => 0

/-- **The start comes to its end** in at most eleven steps, if `func` lets `main` go to sleep
first: each of them brings it nearer, and none lets `main` miss the notification. -/
theorem prompt_descends (db : Database) :
    Descends (only prompt (programStep db)) (Reached (ι := ι))
      (fun s => s.main.rank + s.func.rank) where
  keeps := by
    intro a s s' es hI hs
    obtain ⟨hprompt, hs⟩ := only_eq_some.mp hs
    obtain ⟨hborn, hheard⟩ := hI
    refine ⟨hborn.step hs, ?_⟩
    cases programStep_cases hs with
    | loads | passes | activates => exact fun _ => rfl
    | spawns | listens | sets => exact fun hafter => absurd hafter Bool.false_ne_true
    | fails hmain hflag =>
      exact fun hafter => absurd (hborn.notified_of_flag hflag ▸ hafter) Bool.false_ne_true
    | sleeps hmain =>
      rw [hmain] at hheard
      exact hheard
    | notifies hfunc =>
      -- who sleeps is woken, and nobody is about to go to sleep
      intro _
      have hawake : s.main ≠ .sleep := (of_decide_eq_true hprompt).2
      cases hmain : s.main with
      | sleep => exact absurd hmain hawake
      | load | spawn | test | asleep | activate | join => simp [MainPc.waits]
    | waits hfunc | counts hfunc | accepts hfunc =>
      rw [prompt, hfunc] at hprompt
      simp [FuncPc.notified] at hprompt
    | wakes | cannotListen | waitsAgain | connects | prints | threads | flushes => cases hprompt
  lowers := by
    intro a s s' es ⟨⟨hunborn, hdone⟩, hheard⟩ hs
    obtain ⟨hprompt, hs⟩ := only_eq_some.mp hs
    cases programStep_cases hs with
    | loads hmain | passes hmain | fails hmain | sleeps hmain | activates hmain =>
      simp [hmain, MainPc.rank]
    | spawns hmain => simp [hmain, hunborn.mpr (Or.inr hmain), MainPc.rank, FuncPc.rank]
    | listens hfunc | sets hfunc => simp [hfunc, FuncPc.rank]
    | notifies hfunc =>
      rw [hfunc]
      cases hmain : s.main <;> simp [MainPc.rank, FuncPc.rank]
    | waits hfunc | counts hfunc | accepts hfunc =>
      rw [prompt, hfunc] at hprompt
      simp [FuncPc.notified] at hprompt
    | wakes | cannotListen | waitsAgain | connects | prints | threads | flushes => cases hprompt

/-- Where the start can go no further, it has come to its end. -/
theorem Reached.join_of_quiet (h : Reached s) (hload : loadInMem db = .ok m)
    (hquiet : Quiet (only prompt (programStep db)) s) : s.main = .join := by
  have hmain : mainStep db s = none := hquiet .main
  have hfunc := hquiet .func
  cases hpc : s.main with
  | load =>
    rw [mainStep, hpc, hload] at hmain
    cases hmain
  | test =>
    rw [mainStep, hpc] at hmain
    dsimp only at hmain
    split at hmain <;> cases hmain
  | spawn | sleep | activate =>
    rw [mainStep, hpc] at hmain
    cases hmain
  | asleep =>
    have hbefore : s.func.notified = false := by
      by_contra hafter
      have := h.heard (Bool.eq_true_of_not_eq_false hafter)
      rw [hpc] at this
      cases this
    have hprompt : prompt (.func : ProgramAction ι) s = true :=
      decide_eq_true ⟨hbefore, by rw [hpc]; exact MainPc.noConfusion⟩
    rw [only, if_pos hprompt] at hfunc
    change funcStep s = none at hfunc
    cases hf : s.func with
    | unborn =>
      have := h.born.unborn.mp hf
      rw [hpc] at this
      simp at this
    | listen | setDone | notify =>
      rw [funcStep, hf] at hfunc
      cases hfunc
    | wait | count | accept =>
      rw [hf] at hbefore
      cases hbefore
  | join => rfl

/-- **The start can be brought to its end** where `main` has not missed the
notification. -/
theorem Reached.exists_activated (h : Reached s) (hload : loadInMem db = .ok m)
    (hrun : ProgramRun db tr s) :
    ∃ tr' s', Run (only steady (programStep db)) s tr' s' ∧ .activated ∈ tr ++ tr' := by
  obtain ⟨tr', s', hr, hquiet⟩ := (prompt_descends db).exists_quiet h
  have hreached := (prompt_descends db).invariant h hr
  have hrun' : ProgramRun db (tr ++ tr') s' := hrun.append (Run.of_only hr)
  refine ⟨tr', s', hr.only_mono fun a s hprompt => ?_,
    hrun'.activated_iff.mpr (hreached.join_of_quiet hload hquiet)⟩
  cases a with
  | main | func => rfl
  | wakeUp | funcFails | connect | print | process => cases hprompt

/-- A spurious wake-up makes up for a notification that was missed. -/
theorem exists_woken (db : Database) (s : Program ι) :
    ∃ tr' s', Run (programStep db) s tr' s' ∧ s'.main.waits = false := by
  have hwake : ∀ s : Program ι, s.main = .asleep →
      ∃ tr' s', Run (programStep db) s tr' s' ∧ s'.main.waits = false := fun s hpc =>
    ⟨[], { s with main := .test }, .single (a := .wakeUp) (if_pos hpc), rfl⟩
  cases hpc : s.main with
  | asleep => exact hwake s hpc
  | sleep =>
    have hstep : programStep db .main s = some ({ s with main := .asleep }, [.slept]) := by
      change mainStep db s = _
      rw [mainStep, hpc]
    obtain ⟨tr', s', hr, hw⟩ := hwake { s with main := .asleep } rfl
    exact ⟨_, s', (Run.single hstep).append hr, hw⟩
  | load | spawn | test | activate | join => exact ⟨[], s, .init, by rw [hpc]; rfl⟩

/-- **When the start comes to its end.** Where the condition variable wakes `main` only when
it is notified, a start whose memory image can be loaded can still be marked as successful
after some trace if and only if the notification was not missed in it; with a spurious
wake-up it always can. -/
theorem activation_iff (hload : loadInMem db = .ok m) (h : SteadyRun db tr s) :
    ((∃ tr' s', Run (only steady (programStep db)) s tr' s' ∧ .activated ∈ tr ++ tr')
        ↔ ¬ Missed tr)
      ∧ ∃ tr' s', Run (programStep db) s tr' s' ∧ .activated ∈ tr ++ tr' := by
  have hrun : ProgramRun db tr s := Run.of_only h
  refine ⟨⟨?_, fun hheard => ?_⟩, ?_⟩
  · -- who has missed it goes on waiting, whatever comes
    rintro ⟨tr', s', hr, hmem⟩ hmissed
    have hrun' : SteadyRun db (tr ++ tr') s' := h.append hr
    have hjoin : s'.main = .join := ProgramRun.activated_iff (Run.of_only hrun') |>.mp hmem
    have htold := SteadyRun.told hrun'
    obtain ⟨pre, post, rfl, -⟩ := id hmissed
    have hafter : s'.func.notified = true := htold.notified.mp (by simp)
    have hwaits := (htold.missed hafter).mp (hmissed.append tr')
    rw [hjoin] at hwaits
    cases hwaits
  · refine Reached.exists_activated ⟨hrun.born, fun hafter => ?_⟩ hload hrun
    rw [(SteadyRun.told h).missed hafter] at hheard
    exact Bool.eq_false_of_not_eq_true hheard
  · obtain ⟨tr₁, s₁, hr₁, hwoken⟩ := exists_woken db s
    have hrun₁ : ProgramRun db (tr ++ tr₁) s₁ := hrun.append hr₁
    obtain ⟨tr₂, s₂, hr₂, hmem⟩ :=
      Reached.exists_activated ⟨hrun₁.born, fun _ => hwoken⟩ hload hrun₁
    exact ⟨tr₁ ++ tr₂, s₂, hr₁.append (Run.of_only hr₂), List.append_assoc tr tr₁ tr₂ ▸ hmem⟩

/-- `func` notifies `main` when that has checked the flag and does not sleep yet. -/
def missedStart : List (ProgramAction Bool) := [.main, .main, .main, .func, .func, .func, .main]

/-- After it the server is up, and nothing but a spurious wake-up leads to the mark. -/
theorem activation_iff_missedStart :
    ∃ (s : Program Bool) (tr : List (ProgramEvent Bool)), SteadyRun tenUnitsDb tr s
      ∧ .listening ∈ tr ∧ .notified ∈ tr
      ∧ (¬ ∃ tr' s', Run (only steady (programStep tenUnitsDb)) s tr' s'
        ∧ .activated ∈ tr ++ tr')
      ∧ ∃ tr' s', Run (programStep tenUnitsDb) s tr' s' ∧ .activated ∈ tr ++ tr' := by
  have hexec : (loadInMem tenUnitsDb).toOption.bind (fun _ =>
      (Run.exec (only steady (programStep tenUnitsDb)) missedStart
        (Program.start tenUnitsDb)).map Prod.snd)
      = some [.loaded, .tested, .listening, .initDone, .notified, .slept] := by
    decide +kernel
  obtain ⟨m, hm, hrest⟩ := Option.bind_eq_some_iff.mp hexec
  obtain ⟨⟨s, tr⟩, hrun, rfl⟩ := Option.map_eq_some_iff.mp hrest
  have hrun' : SteadyRun tenUnitsDb _ s := Run.of_exec hrun
  obtain ⟨hiff, hspurious⟩ := activation_iff (eq_ok_of_toOption hm) hrun'
  have hmissed : Missed ([.loaded, .tested, .listening, .initDone, .notified, .slept] :
      List (ProgramEvent Bool)) :=
    ⟨[.loaded, .tested, .listening, .initDone], [.slept], rfl, by decide, by decide⟩
  exact ⟨s, _, hrun', by decide, by decide, fun hex => hiff.mp hex hmissed, hspurious⟩

end GreenFinal
