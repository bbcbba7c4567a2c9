import GreenFinal.Completion
import GreenFinal.Refinement

/-!
# The process does what the server does

`GreenFinal.Refinement` says that the process does nothing that the server does not. It
does all of that, too: a schedule that lets a thread go through its call, and a flush
through a row, before anybody else moves, makes of the process the server
(`process_realizes`). So a server with atomic calls is what the process is, seen from
outside, and neither more nor less; what `GreenFinal.FlushRace` shows to go wrong there
goes wrong in the process.

With both directions the end of a run can be carried over: where calls and rows are kept
apart and nothing is credited too late (`inOrder`), the tables that the process leaves
are those of `GreenFinal.Outcome` (`process_outcome`, `process_energy_conserved`), and
there are such runs.
-/

open CLib Interleave

namespace GreenFinal

/-! ## A call that runs alone -/

/-- **A call alone comes to its end**, with what it does sequentially done and its mutex
given back. -/
theorem exists_solo (d : Call) (m : Mem) :
    ∃ ces sh, CallRun (fun _ : Unit => d) m ces sh ∧ (sh.pc ()).ended = true
      ∧ (∀ id, sh.mutex id = none) ∧ sh.mem = collectEnergy d.request m := by
  obtain ⟨ces, sh, hr, hq⟩ :=
    (descends_left fun _ : Unit => d).exists_quiet (Locked.start (fun _ => d) m)
  have hL : Locked (fun _ => d) sh := CallRun.locked hr
  have hdone := hL.ended_of_quiet hq
  refine ⟨ces, sh, hr, hdone (), hL.mutex_eq_none hdone, ?_⟩
  obtain ⟨vs, hp⟩ := Path.exists_of_run hr
  obtain ⟨order, hR, -⟩ := exists_cutAt hp
  have hmem := hR.handleRequests_eq hr hdone
  have hone : order = [()] := by
    have hin : () ∈ order := (hR.mem_iff ()).mpr (Pc.effective_of_ended (hdone ()))
    exact List.perm_singleton.mp ((List.perm_ext_iff_of_nodup hR.nodup
      (List.nodup_singleton ())).mpr fun i => ⟨fun _ => List.mem_singleton_self i, fun _ => hin⟩)
  rw [hone, GreenFinal.handleRequests_eq] at hmem
  exact (Except.ok.inj hmem).symm

variable {ι : Type*} [DecidableEq ι]

/-- The state of a call alone, as that of the thread `i` among others that are in none. -/
def Shared.lift (i : ι) (sh : Shared Unit) : Shared ι where
  mem := sh.mem
  mutex := fun id => (sh.mutex id).map fun _ => i
  pc := Function.update (fun _ => .check) i (sh.pc ())

namespace Shared

variable (i : ι) (sh : Shared Unit)

theorem pc_lift : (sh.lift i).pc i = sh.pc () := by
  show Function.update (fun _ => Pc.check) i (sh.pc ()) i = _
  exact Function.update_self ..

theorem lift_goto (pc : Pc) : (sh.goto () pc).lift i = (sh.lift i).goto i pc := by
  show (⟨_, _, Function.update _ i (Function.update sh.pc () pc ())⟩ : Shared ι)
    = ⟨_, _, Function.update (Function.update _ i (sh.pc ())) i pc⟩
  rw [Function.update_self, Function.update_idem]
  rfl

theorem lift_setMutex (id : RecordId) (o : Option Unit) :
    (sh.setMutex id o).lift i = (sh.lift i).setMutex id (o.map fun _ => i) := by
  have hmutex : (fun id' => (Function.update sh.mutex id o id').map fun _ => i)
      = Function.update (fun id' => (sh.mutex id').map fun _ => i) id (o.map fun _ => i) := by
    funext id'
    by_cases hid : id' = id
    · rw [hid, Function.update_self, Function.update_self]
    · rw [Function.update_of_ne hid, Function.update_of_ne hid]
  exact congrArg (fun mutex => (⟨sh.mem, mutex, (sh.lift i).pc⟩ : Shared ι)) hmutex

end Shared

/-- **What a call does alone it does among threads that are in none.** -/
theorem microStep_lift {d : Call} {sh sh' : Shared Unit} {ces : List (Event Unit)} (i : ι)
    (h : microStep (fun _ => d) () sh = some (sh', ces)) :
    ∃ ces', microStep (fun _ => d) i (sh.lift i) = some (sh'.lift i, ces') := by
  unfold microStep
  rw [Shared.pc_lift]
  dsimp only
  cases stepOf_of_microStep h with
  | returns hpc hun =>
    rw [hpc, Shared.lift_goto]
    dsimp only
    rw [show returnsUnlocked ((sh.lift i).slot d.request.id) = true from hun, if_pos rfl]
    exact ⟨_, rfl⟩
  | checks hpc r hr hs =>
    have hun : returnsUnlocked ((sh.lift i).slot d.request.id) = false := by
      rw [show (sh.lift i).slot d.request.id = some r from hr]
      exact decide_eq_false hs
    rw [hpc, Shared.lift_goto]
    dsimp only
    rw [hun, if_neg Bool.false_ne_true]
    exact ⟨_, rfl⟩
  | locks hpc hfree =>
    have hfree' : (sh.lift i).mutex d.request.id = none := Option.map_eq_none_iff.mpr hfree
    rw [hpc, Shared.lift_goto, Shared.lift_setMutex]
    dsimp only
    rw [if_pos hfree']
    exact ⟨_, rfl⟩
  | rejects hpc r hr hrej =>
    rw [hpc, Shared.lift_goto]
    dsimp only
    rw [show (sh.lift i).slot d.request.id = some r from hr, Option.map_some, if_pos hrej]
    exact ⟨_, rfl⟩
  | accepts hpc r hr hacc =>
    rw [hpc, Shared.lift_goto]
    dsimp only
    rw [show (sh.lift i).slot d.request.id = some r from hr, Option.map_some,
      if_neg fun h' => Bool.false_ne_true (hacc.symm.trans h')]
    exact ⟨_, rfl⟩
  | marks hpc r hr | credits hpc r hr | debits _ hpc r hr | closes hpc r hr =>
    rw [hpc, Shared.lift_goto]
    dsimp only
    rw [show (sh.lift i).slot d.request.id = some r from hr]
    exact ⟨_, rfl⟩
  | unlocks e hpc =>
    rw [hpc, Shared.lift_goto, Shared.lift_setMutex]
    exact ⟨_, rfl⟩

/-! ## A step of the server, in steps of the process -/

/-- The process in which no thread is in a call and no flush in the middle of a row. -/
def Process.ofServer (t : Server ι) : Process ι where
  server := t
  mutex := fun _ => none
  callPc := fun _ => .check
  rows := fun _ => .modified

/-- That process with the thread `i` in a call. -/
def Process.alone (t : Server ι) (i : ι) (sh : Shared Unit) : Process ι where
  server := { t with mem := sh.mem }
  mutex := (sh.lift i).mutex
  callPc := (sh.lift i).pc
  rows := fun _ => .modified

/-- **The conditions on a run of the process**: calls and rows are kept apart, and nothing
is credited behind the back of a flush. -/
def inOrder [Fintype ι] (a : Action ι) (s : Process ι) : Bool :=
  keepsApart a s && creditsInTime a s

/-- The runs of the process in which they hold. -/
abbrev OrderedRun [Fintype ι] (m : Mem) (db : Database) (tr : List HttpEvent)
    (s : Process ι) : Prop :=
  Run (only inOrder processStep) (Process.start m db) tr s

variable {t t' : Server ι} {s : Process ι} {a : Action ι} {es : List HttpEvent} {i : ι}
  {input : Option Chunk}

omit [DecidableEq ι] in
/-- Where all flushes are between two rows no row is open. -/
theorem Process.rowOpen_eq_false (h : ∀ k, s.rows k = .modified) (id : RecordId) :
    s.rowOpen id = false := by
  refine List.any_eq_false.mpr fun k _ hk => ?_
  rw [h k] at hk
  exact absurd hk Bool.false_ne_true

theorem threadStep_of_handle {c : Chunk} {cnt : UInt32} (hpc : s.server.pc i = .handle c cnt) :
    processStep (.http i input) s = handleStep i c cnt s := by
  show threadStep i input s = _
  unfold threadStep
  rw [hpc]

theorem threadStep_of_not_handle (hpc : ∀ c cnt, s.server.pc i ≠ .handle c cnt) :
    processStep (.http i input) s
      = (httpStep i input s.server).map fun p => ({ s with server := p.1 }, p.2) := by
  show threadStep i input s = _
  unfold threadStep
  cases hp : s.server.pc i with
  | handle c cnt => exact absurd hp (hpc c cnt)
  | guard | recv | count | respond | start | respondLate | finish | closed => rfl

section Realize

variable [Fintype ι] {p : Action ι → Process ι → Bool} {c : Chunk} {cnt : UInt32} {d : Call}

omit [DecidableEq ι] in
/-- No call starts in the middle of a row when there is no such row. -/
theorem keepsApart_http (h : ∀ k, s.rows k = .modified) :
    keepsApart (.http i input) s = true := by
  unfold keepsApart
  dsimp only
  cases (s.server.pc i).call? with
  | none => rfl
  | some d =>
    rw [Option.all_some, Process.rowOpen_eq_false h, Bool.not_false, Bool.or_true]

omit [DecidableEq ι] in
/-- No row is read in the middle of a call when there is no such call. -/
theorem keepsApart_scanRecord {k : ℕ} (h : ∀ j, s.callPc j = .check) :
    keepsApart (.scanRecord k) s = true := by
  unfold keepsApart
  dsimp only
  cases s.server.toCollectScans[k]?.bind List.head? with
  | none => rfl
  | some id =>
    refine decide_eq_true fun j => ?_
    rw [Process.inCall, h j]
    rfl

omit [Fintype ι] in
/-- **A call alone credits in time what is handled in time.** -/
theorem creditsInTime_alone {sh : Shared Unit} {ces : List (Event Unit)}
    (hpc : t.pc i = .handle c cnt) (hcall : c.call? = some d)
    (hr : CallRun (fun _ => d) t.mem ces sh) (h : timely (.http i input) t = true) :
    creditsInTime (.http i input) (Process.alone t i sh) = true := by
  unfold creditsInTime
  dsimp only
  rw [show ((Process.alone t i sh).server.pc i).call? = some d by
    rw [← hcall]; exact congrArg HttpPc.call? hpc, Option.all_some,
    show (Process.alone t i sh).callPc i = sh.pc () from Shared.pc_lift i sh]
  by_cases hcredit : sh.pc () = .credit
  · -- up to the credit the record is the one the request has been found in time for
    obtain ⟨order, hR⟩ := CallRun.linearized hr
    have hnil : order = [] := by
      refine List.eq_nil_iff_forall_not_mem.mpr fun u hu => ?_
      have heff := (hR.mem_iff u).mp hu
      rw [show sh.pc u = .credit from hcredit] at heff
      exact Bool.false_ne_true heff
    have hslot := hR.slots d.request.id
    rw [hnil, hR.locked.view_of_inside (by rw [hcredit]; rfl)] at hslot
    rw [timely_of_pc hpc, (Chunk.call?_eq_some.mp hcall).2, Option.elim_some,
      Server.takesInTime_iff] at h
    refine (Bool.or_eq_true_iff ..).mpr (Or.inr (Server.takesInTime_iff.mpr fun r hr hacc => ?_))
    change sh.slot d.request.id = some r at hr
    rw [hr, hcredit] at hslot
    obtain ⟨r₀, hr₀, hmark⟩ := Option.map_eq_some_iff.mp hslot
    have h₀ := h r₀ hr₀ ((MemToCollect.rejects_eq_of_mark_eq hmark).trans hacc)
    rw [MemToCollect.amount_eq_of_mark_eq hmark] at h₀
    exact h₀
  · rw [decide_eq_true hcredit]
    rfl

/-- **The steps of a call alone.** -/
theorem run_alone {sh : Shared Unit} {ces : List (Event Unit)}
    (hp : ∀ s, keepsApart (.http i input) s = true →
      (timely (.http i input) t = true → creditsInTime (.http i input) s = true) →
      p (.http i input) s = true)
    (hpc : t.pc i = .handle c cnt) (hcall : c.call? = some d)
    (hr : CallRun (fun _ => d) t.mem ces sh) :
    Run (only p processStep) (Process.ofServer t) [] (Process.alone t i sh) := by
  refine Run.invariant (I := fun _ sh =>
    Run (only p processStep) (Process.ofServer t) [] (Process.alone t i sh)) ?_
    (fun ces sh u sh' ces' hr hI hs => ?_) hr
  · have hstart : Process.alone t i (Shared.start t.mem) = Process.ofServer t := by
      have hpc : Function.update (fun _ : ι => Pc.check) i .check = fun _ => .check :=
        Function.update_eq_self i fun _ => Pc.check
      exact congrArg (fun pc => (⟨t, fun _ => none, pc, fun _ => .modified⟩ : Process ι)) hpc
    rw [hstart]
    exact .init
  · obtain ⟨ces', hs'⟩ := microStep_lift i hs
    have hend : ¬ ((Process.alone t i sh).callPc i).ended = true := by
      rw [show (Process.alone t i sh).callPc i = sh.pc () from Shared.pc_lift i sh]
      intro hend
      rcases (stepOf_of_microStep hs).underWay with hcheck | hway
      · rw [show sh.pc () = .check from hcheck] at hend
        exact Bool.false_ne_true hend
      · change (sh.pc ()).underWay = true at hway
        cases hp : sh.pc () with
        | skipped | returned =>
          rw [hp] at hway
          exact Bool.false_ne_true hway
        | _ =>
          rw [hp] at hend
          exact Bool.false_ne_true hend
    have hstep : processStep (.http i input) (Process.alone t i sh)
        = some (Process.alone t i sh', []) := by
      rw [threadStep_of_handle (show (Process.alone t i sh).server.pc i = _ from hpc)]
      unfold handleStep
      rw [hcall]
      dsimp only
      rw [if_neg hend, show (Process.alone t i sh).shared = sh.lift i from rfl, hs']
      rfl
    exact (List.append_nil ([] : List HttpEvent)) ▸ hI.next (only_eq_some.mpr
      ⟨hp _ (keepsApart_http fun _ => rfl) (creditsInTime_alone hpc hcall hr), hstep⟩)

/-- The handling of a chunk that shares nothing, in one step. -/
theorem run_dispose
    (hp : ∀ s, keepsApart (.http i input) s = true →
      (timely (.http i input) t = true → creditsInTime (.http i input) s = true) →
      p (.http i input) s = true)
    (hpc : t.pc i = .handle c cnt) (hcall : c.call? = none) {m : Mem}
    (hm : handleRequest c.line c.len t.mem = .ok m) :
    Run (only p processStep) (Process.ofServer t) [.handled cnt]
      (Process.ofServer ({ t with mem := m }.goto i (afterHandle cnt))) := by
  have hidle : Function.update (fun _ : ι => Pc.check) i .check = fun _ => .check :=
    Function.update_eq_self i fun _ => Pc.check
  have hsame : m = t.mem := by
    rcases Chunk.handleRequest_cases hm with h | ⟨q, hq, -⟩
    · exact h
    · rw [Chunk.call?_eq_none.mp hcall] at hq
      cases hq
  have hstep : processStep (.http i input) (Process.ofServer t)
      = some (Process.ofServer ({ t with mem := m }.goto i (afterHandle cnt)),
        [.handled cnt]) := by
    rw [threadStep_of_handle (show (Process.ofServer t).server.pc i = _ from hpc)]
    unfold handleStep
    rw [hcall]
    dsimp only
    rw [show (Process.ofServer t).server.mem = t.mem from rfl, hm, hsame]
    exact congrArg (fun pc => some ((⟨t.goto i (afterHandle cnt), fun _ => none, pc,
      fun _ => .modified⟩ : Process ι), [HttpEvent.handled cnt])) hidle
  refine Run.single (only_eq_some.mpr ⟨hp _ (keepsApart_http fun _ => rfl) fun _ => ?_, hstep⟩)
  unfold creditsInTime
  dsimp only
  rw [show ((Process.ofServer t).server.pc i).call? = none by
    rw [← hcall]; exact congrArg HttpPc.call? hpc]
  rfl

omit [Fintype ι] in
/-- A call that has ended alone returns into the state of the server. -/
theorem returns_alone {sh : Shared Unit} (hpc : t.pc i = .handle c cnt)
    (hcall : c.call? = some d) (hend : (sh.pc ()).ended = true)
    (hmutex : ∀ id, sh.mutex id = none) :
    processStep (.http i input) (Process.alone t i sh)
      = some (Process.ofServer ({ t with mem := sh.mem }.goto i (afterHandle cnt)),
        [.handled cnt]) := by
  rw [threadStep_of_handle (show (Process.alone t i sh).server.pc i = _ from hpc)]
  unfold handleStep
  rw [hcall]
  dsimp only
  rw [if_pos (show ((Process.alone t i sh).callPc i).ended = true by
    rw [show (Process.alone t i sh).callPc i = sh.pc () from Shared.pc_lift i sh, hend])]
  have hfree : (sh.lift i).mutex = fun _ => none := by
    funext id
    show (sh.mutex id).map _ = none
    rw [hmutex]
    rfl
  have hpcs : Function.update (sh.lift i).pc i .check = fun _ => .check := by
    show Function.update (Function.update (fun _ => Pc.check) i (sh.pc ())) i .check = _
    rw [Function.update_idem]
    exact Function.update_eq_self i fun _ => Pc.check
  show some ((⟨{ t with mem := sh.mem }.goto i (afterHandle cnt), (sh.lift i).mutex,
    Function.update (sh.lift i).pc i .check, fun _ => .modified⟩ : Process ι), _) = _
  rw [hfree, hpcs]
  rfl

/-- **The handling of a request, in steps of its call.** -/
theorem run_handle
    (hp : ∀ s, keepsApart (.http i input) s = true →
      (timely (.http i input) t = true → creditsInTime (.http i input) s = true) →
      p (.http i input) s = true)
    (hpc : t.pc i = .handle c cnt) {m : Mem} (hm : handleRequest c.line c.len t.mem = .ok m) :
    Run (only p processStep) (Process.ofServer t) [.handled cnt]
      (Process.ofServer ({ t with mem := m }.goto i (afterHandle cnt))) := by
  cases hcall : c.call? with
  | none => exact run_dispose hp hpc hcall hm
  | some d =>
    obtain ⟨ces, sh, hr, hend, hmutex, hmem⟩ := exists_solo d t.mem
    have hrun := run_alone hp hpc hcall hr
    obtain ⟨rfl, -⟩ := Chunk.call?_eq_some.mp hcall
    obtain rfl : collectEnergy d.request t.mem = m := by
      rw [d.handleRequest_eq] at hm
      exact Except.ok.inj hm
    have hstep : processStep (.http i input) _ = _ := returns_alone hpc hcall hend hmutex
    rw [hmem] at hstep
    exact hrun.next (only_eq_some.mpr
      ⟨hp _ (keepsApart_http fun _ => rfl) (creditsInTime_alone hpc hcall hr), hstep⟩)

omit [Fintype ι] in
/-- The reads of a row, field by field. -/
theorem rowStep_eq {k : ℕ} {id : RecordId} {ids : List RecordId} {r : MemToCollect}
    (hk : s.server.toCollectScans[k]? = some (id :: ids))
    (hr : s.server.mem.memToCollects id = some r) :
    processStep (.scanRecord k) s = some (match s.rows k with
      | .modified =>
        if r.modified then (s.toField k .status, [])
        else (s.nextRow k ids s.server.toCollect, [])
      | .status => (s.toField k (.energy r.newStatus), [])
      | .energy newStatus =>
        (s.nextRow k ids (toCollectEnergyUpdate s.server.toCollect
          ⟨r.toCollectEnergy.toInt32, newStatus, (id : ℕ)⟩), [])) := by
  show rowStep k s = _
  unfold rowStep
  rw [hk]
  dsimp only
  rw [hr]
  rfl

/-- **The writing of a row, in reads of its fields.** -/
theorem run_row {k : ℕ} {id : RecordId} {ids : List RecordId} {us : List ToCollectUpdate}
    (hp : ∀ s, keepsApart (.scanRecord k) s = true → p (.scanRecord k) s = true)
    (hk : t.toCollectScans[k]? = some (id :: ids)) (hus : flushRecord t.mem id = .ok us) :
    Run (only p processStep) (Process.ofServer t) []
      (Process.ofServer { t with
        toCollect := us.foldl toCollectEnergyUpdate t.toCollect
        toCollectScans := t.toCollectScans.set k ids }) := by
  obtain ⟨r, hr⟩ : ∃ r, t.mem.memToCollects id = some r := by
    unfold flushRecord at hus
    cases hr : t.mem.memToCollects id with
    | none =>
      rw [hr] at hus
      cases hus
    | some r => exact ⟨r, rfl⟩
  obtain rfl : (if r.modified then [r.update id] else []) = us := by
    unfold flushRecord at hus
    rw [hr] at hus
    exact Except.ok.inj hus
  have hidle : Function.update (fun _ : ℕ => RowPc.modified) k .modified = fun _ => .modified :=
    Function.update_eq_self k fun _ => RowPc.modified
  have hstep : ∀ {s s' : Process ι}, (∀ j, s.callPc j = .check) →
      processStep (.scanRecord k) s = some (s', []) → Run (only p processStep) s [] s' :=
    fun hs h => Run.single (only_eq_some.mpr ⟨hp _ (keepsApart_scanRecord hs), h⟩)
  cases hmod : r.modified with
  | false =>
    refine hstep (fun _ => rfl) ?_
    rw [rowStep_eq (s := Process.ofServer t) hk hr]
    dsimp only [Process.ofServer]
    rw [hmod]
    exact congrArg (fun rows => some ((⟨{ t with toCollectScans := t.toCollectScans.set k ids },
      fun _ => none, fun _ => .check, rows⟩ : Process ι), [])) hidle
  | true =>
    -- the three fields, one after another
    have h₁ : processStep (.scanRecord k) (Process.ofServer t)
        = some ((Process.ofServer t).toField k .status, []) := by
      rw [rowStep_eq (s := Process.ofServer t) hk hr]
      dsimp only [Process.ofServer]
      rw [hmod]
      rfl
    have h₂ : processStep (.scanRecord k) ((Process.ofServer t).toField k .status)
        = some ((Process.ofServer t).toField k (.energy r.newStatus), []) := by
      rw [rowStep_eq (s := (Process.ofServer t).toField k .status) hk hr]
      have hrow : ((Process.ofServer t).toField k .status).rows k = .status :=
        Function.update_self ..
      rw [hrow]
      refine congrArg (fun rows => some ((⟨t, fun _ => none, fun _ => .check, rows⟩
        : Process ι), [])) ?_
      exact Function.update_idem ..
    have h₃ : processStep (.scanRecord k) ((Process.ofServer t).toField k (.energy r.newStatus))
        = some (Process.ofServer { t with
          toCollect := [r.update id].foldl toCollectEnergyUpdate t.toCollect
          toCollectScans := t.toCollectScans.set k ids }, []) := by
      rw [rowStep_eq (s := (Process.ofServer t).toField k (.energy r.newStatus)) hk hr]
      have hrow : ((Process.ofServer t).toField k (.energy r.newStatus)).rows k
          = .energy r.newStatus := Function.update_self ..
      rw [hrow]
      refine congrArg (fun rows => some ((⟨{ t with
        toCollect := toCollectEnergyUpdate t.toCollect (r.update id)
        toCollectScans := t.toCollectScans.set k ids }, fun _ => none, fun _ => .check, rows⟩
        : Process ι), [])) ?_
      exact (Function.update_idem ..).trans hidle
    exact ((hstep (fun _ => rfl) h₁).append (hstep (fun _ => rfl) h₂)).append
      (hstep (fun _ => rfl) h₃)

/-- **A step of the server, in steps of the process.** -/
theorem ServerStep.realize
    (hp : ∀ s, keepsApart a s = true →
      (timely a t = true → creditsInTime a s = true) → p a s = true)
    (h : ServerStep t a t' es) :
    Run (Interleave.only p processStep) (Process.ofServer t) es (Process.ofServer t') := by
  cases a with
  | http i input =>
    by_cases hpc : ∃ c cnt, t.pc i = .handle c cnt
    · obtain ⟨c, cnt, hpc⟩ := hpc
      cases h with
      | handles _ c' cnt' hpc' m hm => exact run_handle hp hpc' hm
      | enters _ hpc' | leaves _ hpc' | receives _ hpc' | ends _ hpc' | counts _ _ hpc'
      | responds _ _ _ hpc' | startsToCollect _ _ hpc' | startsTotal _ _ hpc'
      | respondsLate _ _ hpc' | finishes _ _ hpc' =>
        rw [hpc] at hpc'
        cases hpc'
    · have hfree : ∀ c cnt, t.pc i ≠ .handle c cnt := fun c cnt h => hpc ⟨c, cnt, h⟩
      have hstep : processStep (.http i input) (Process.ofServer t)
          = some (Process.ofServer t', es) := by
        rw [threadStep_of_not_handle (show ∀ c cnt, (Process.ofServer t).server.pc i ≠ _
          from hfree), show httpStep i input (Process.ofServer t).server = some (t', es)
          from h.serverStep_eq]
        rfl
      refine Run.single (only_eq_some.mpr
        ⟨hp _ (keepsApart_http fun _ => rfl) fun _ => ?_, hstep⟩)
      unfold creditsInTime
      dsimp only
      have hnone : ((Process.ofServer t).server.pc i).call? = none := by
        cases hp : (Process.ofServer t).server.pc i with
        | handle c cnt => exact absurd hp (hfree c cnt)
        | guard | recv | count | respond | start | respondLate | finish | closed => rfl
      rw [hnone]
      rfl
  | scanRecord k =>
    cases h with
    | scansRecord _ id ids hk us hus =>
      exact run_row (fun s hs => hp s hs fun _ => rfl) hk hus
  | scanTotal k order =>
    have hstep : processStep (.scanTotal k order) (Process.ofServer t)
        = some (Process.ofServer t', es) := by
      show (scanTotalStep k order t).map _ = _
      rw [show scanTotalStep k order t = some (t', es) from h.serverStep_eq]
      rfl
    exact Run.single (only_eq_some.mpr ⟨hp _ rfl fun _ => rfl, hstep⟩)

/-- **Every run of the server is one of the process**, under the condition that the
process then satisfies. -/
theorem run_realize {m : Mem} {db : Database} {tr : List HttpEvent}
    {q : Action ι → Server ι → Bool}
    (hp : ∀ a s t, q a t = true → keepsApart a s = true →
      (timely a t = true → creditsInTime a s = true) → p a s = true)
    (h : Run (only q serverStep) (Server.start m db) tr t) :
    Run (only p processStep) (Process.start m db) tr (Process.ofServer t) :=
  Run.expand Process.ofServer (fun a t t' es hs => by
    obtain ⟨hq, hs⟩ := only_eq_some.mp hs
    exact (serverStep_cases hs).realize fun s => hp a s t hq) h

end Realize

variable [Fintype ι] {m : Mem} {db : Database} {tr : List HttpEvent}

/-- A run of the server in which every request is handled in time is one of the process in
which calls and rows are kept apart and every credit comes in time. -/
theorem TimelyRun.ordered (h : TimelyRun m db tr t) :
    OrderedRun m db tr (Process.ofServer t) :=
  run_realize (fun _ _ _ hq hapart hin => (Bool.and_eq_true_iff ..).mpr ⟨hapart, hin hq⟩) h

/-- **The process does what the server does**: every run of the server is, with the same
events, a run of the process with its steps in `handle_request` and its reads of single
fields, which ends where the server ends, with nobody in a call, no mutex taken and no
flush in the middle of a row. And if the server handles every request in time, the
process keeps calls and rows apart and credits in time. -/
theorem process_realizes (h : ServerRun m db tr t) :
    ProcessRun m db tr (Process.ofServer t)
      ∧ (TimelyRun m db tr t → OrderedRun m db tr (Process.ofServer t)) := by
  have h' : Run (only (fun _ _ => true) serverStep) (Server.start m db) tr t := by
    rw [only_true]
    exact h
  exact ⟨Run.of_only (run_realize (p := fun _ _ => true) (fun _ _ _ _ _ _ => rfl) h'),
    TimelyRun.ordered⟩

/-- Two threads: the first has a request done while the second draws its number. -/
def twoRequests (c c' : Chunk) : List (Action Bool) :=
  [.http false none, .http true none, .http false (some c), .http false none,
    .http true (some c'), .http false none, .http false none, .http true none,
    .http false none]

/-- Served by the server, and so by the process. -/
theorem process_realizes_twoRequests :
    ∃ tr, ∃ s : Process Bool, ProcessRun tenUnitsMem tenUnitsDb tr s
      ∧ drawn tr = 2 ∧ done tr = 1 ∧ ∀ id, s.mutex id = none := by
  have hexec : (Run.exec serverStep
      (twoRequests (raceCalls 0).chunk (raceCalls 1).chunk)
      (Server.start tenUnitsMem tenUnitsDb)).map
      (fun p => (drawn p.2, done p.2)) = some (2, 1) := by
    decide +kernel
  obtain ⟨⟨t, tr⟩, hrun, heq⟩ := Option.map_eq_some_iff.mp hexec
  obtain ⟨hdrawn, hdone⟩ := Prod.mk.inj heq
  exact ⟨tr, _, (process_realizes (Run.of_exec hrun)).1, hdrawn, hdone, fun _ => rfl⟩

/-! ## The end of a run -/

omit [Fintype ι] [DecidableEq ι] in
/-- What is shown by two runs that differ in the moments of the handling. -/
theorem shown_eq {tr tr' : List HttpEvent}
    (h : tr'.filter HttpEvent.seen = tr.filter HttpEvent.seen) :
    chunksOf tr' = chunksOf tr ∧ done tr' = done tr := by
  refine ⟨?_, ?_⟩
  · rw [← chunksOf_filter_seen tr', h, chunksOf_filter_seen]
  · rw [← done_filter_seen tr', h, done_filter_seen]

/-- **A run in which all is in order is followed by a timely one**, with the same tables. -/
theorem OrderedRun.exists_timelyRun (hload : loadInMem db = .ok m) (h : OrderedRun m db tr s) :
    ∃ (tr' : List HttpEvent) (t : Server ι), TimelyRun m db tr' t
      ∧ chunksOf tr' = chunksOf tr ∧ done tr' = done tr
      ∧ t.toCollect = s.server.toCollect ∧ t.total = s.server.total
      ∧ (s.server.FlushesEnded → t.FlushesEnded) := by
  obtain ⟨tr', t, hrun, m', tc, rfl, hR, htr⟩ := Refines.run (q := timely)
    (loaded_of_loadInMem hload)
    (fun a s hp (_ : True) => ((Bool.and_eq_true_iff ..).mp hp).1)
    (fun a s t hp hq => hq ((Bool.and_eq_true_iff ..).mp hp).2) h
  obtain ⟨hchunks, hdone⟩ := shown_eq htr
  exact ⟨tr', _, hrun, hchunks, hdone, (hR.rows trivial).table, rfl,
    fun hended => ⟨hended.toCollect, hended.total⟩⟩

/-- **What the process leaves in the table of the records.** In every run of the process,
with calls that overlap and flushes that read field by field, in which calls and rows are
kept apart and every credit comes in time: once `REQ_TOTAL_CNT` requests are received and
done and the flushes have ended, every row holds what its owner, its energy and the users
that have asked for it settle, in whatever order they have come. -/
theorem process_outcome (hload : loadInMem db = .ok m) (hall : db.AllIds)
    (h : OrderedRun m db tr s) (hreceived : received tr = reqTotalCnt)
    (hdone : done tr = reqTotalCnt) (hended : s.server.FlushesEnded) (id : RecordId)
    (hid : 1 ≤ (id : ℕ)) :
    ∃ row row', db.toCollect.row? id = some row ∧ s.server.toCollect.row? id = some row'
      ∧ Settles row row' (askers id (requestsOf (chunksOf tr))) := by
  obtain ⟨tr', t, hrun, hchunks, hdone', htable, -, hended'⟩ := OrderedRun.exists_timelyRun hload h
  have hreceived' : received tr' = reqTotalCnt := by
    rw [received, hchunks]
    exact hreceived
  rw [← htable, ← hchunks]
  exact outcome_of_timely hload hall hrun hreceived' (hdone'.trans hdone) (hended' hended) id hid

/-- **Energy is conserved by the process.** In such a run, with values that fit, names that
are distinct and users that have rows, the two tables hold in the end as much energy
together as they did before loading. -/
theorem process_energy_conserved (hload : loadInMem db = .ok m) (hall : db.AllIds)
    (hfit : db.Fits) (hnames : db.NamesDistinct) (h : OrderedRun m db tr s)
    (husers : UsersHaveRows db tr) (hreceived : received tr = reqTotalCnt)
    (hdone : done tr = reqTotalCnt) (hended : s.server.FlushesEnded) :
    s.server.toCollect.energy + s.server.total.energy = db.energy := by
  obtain ⟨tr', t, hrun, hchunks, hdone', htable, htotal, hended'⟩ :=
    OrderedRun.exists_timelyRun hload h
  have hreceived' : received tr' = reqTotalCnt := by
    rw [received, hchunks]
    exact hreceived
  have husers' : UsersHaveRows db tr' := fun c q hc =>
    husers c q (mem_chunksOf.mp (hchunks ▸ mem_chunksOf.mpr hc))
  rw [← htable, ← htotal]
  exact energy_conserved_of_timely hload hall hfit hnames hrun husers' hreceived'
    (hdone'.trans hdone) (hended' hended)

/-- There is a run in which all is in order and everything comes to its end, and its rows
are settled. -/
theorem process_outcome_annsDb :
    ∃ (s : Process (Fin 2)) (row row' : ToCollectRow) (asks : List CString),
      annsDb.toCollect.row? 1 = some row ∧ s.server.toCollect.row? 1 = some row'
        ∧ Settles row row' asks := by
  obtain ⟨m, tr, t, hm, hrun, -, -, hreceived, hdone, hended⟩ := exists_timelyRun_annsDb
  obtain ⟨row, row', hrow, hrow', hsettles⟩ := process_outcome hm allIds_uniformDb
    (TimelyRun.ordered hrun) hreceived hdone hended 1 one_le_one
  exact ⟨_, row, row', _, hrow, hrow', hsettles⟩

/-- And its energy is what it was. -/
theorem process_energy_conserved_annsDb :
    ∃ s : Process (Fin 2), s.server.toCollect.energy + s.server.total.energy = annsDb.energy := by
  obtain ⟨m, tr, t, hm, hrun, husers, -, hreceived, hdone, hended⟩ := exists_timelyRun_annsDb
  exact ⟨_, process_energy_conserved hm allIds_uniformDb annsDb_fits annsDb_namesDistinct
    (TimelyRun.ordered hrun) husers hreceived hdone hended⟩

end GreenFinal
