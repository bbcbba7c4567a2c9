import GreenFinal.FlushRace
import GreenFinal.Requests

/-!
# The process, step by step

`GreenFinal.FuncHttp` takes `handle_request` and the write-back of a row for one
step each. Here they are not. A thread that handles a request goes through the
places of `GreenFinal.MicroStep`, the other threads come in between, and a flush of
the records reads the three fields of a record one after another, with everybody
else at work. All the rest is as there: the process has a server in it, whose
threads, counters, tables and flushes it shares, and adds what the server does not
see – who holds which mutex, where in `handle_request` each thread is, and which
field each flush reads next.

`ProcessStep` lists what a step can do. How the process relates to the server is in
`GreenFinal.Refinement`.
-/

open CLib Interleave

namespace GreenFinal

/-- A chunk that asks for a record can be made a call. -/
theorem Chunk.parses_of_request? {c : Chunk} {q : Request} (h : c.request? = some q) :
    ∃ t, parseRequest c.line c.len = .ok (some t)
      ∧ CString.ofBuffer? t.userId = some q.userId ∧ recordIndex? t.id = some q.id := by
  unfold request? at h
  split at h
  · rename_i t ht
    obtain ⟨id, hid, h⟩ := Option.bind_eq_some_iff.mp h
    obtain ⟨u, hu, rfl⟩ := Option.map_eq_some_iff.mp h
    exact ⟨t, ht, hu, hid⟩
  · exact absurd h.symm (Option.some_ne_none q)

/-- The call that a chunk brings about, if it asks for a record in the array. -/
def Chunk.call? (c : Chunk) : Option Call :=
  match h : c.request? with
  | none => none
  | some q => some ⟨c, q, c.parses_of_request? h⟩

theorem Chunk.call?_eq_some {c : Chunk} {call : Call} :
    c.call? = some call ↔ call.chunk = c ∧ c.request? = some call.request := by
  unfold call?
  constructor
  · intro h
    split at h
    · cases h
    · rename_i q hq
      obtain rfl := Option.some.inj h
      exact ⟨rfl, hq⟩
  · rintro ⟨rfl, hq⟩
    split
    · rename_i hnone
      rw [hnone] at hq
      cases hq
    · rename_i q hq'
      obtain rfl := Option.some.inj (hq'.symm.trans hq)
      rfl

theorem Chunk.call?_eq_none {c : Chunk} : c.call? = none ↔ c.request? = none := by
  unfold call?
  split
  · rename_i h
    exact ⟨fun _ => h, fun _ => rfl⟩
  · rename_i q h
    exact ⟨fun h' => absurd h' (Option.some_ne_none _), fun h' => by rw [h'] at h; cases h⟩

/-- Where a flush of the records is with the first of the rows it has left. -/
inductive RowPc where
  /-- At the read of `modified_`. -/
  | modified
  /-- At the read of `status_`. -/
  | status
  /-- At the read of `to_collect_energy_`, with `new_status` chosen. -/
  | energy (newStatus : List UInt8)
  deriving DecidableEq

/-- **A state of the process.** -/
structure Process (ι : Type*) where
  /-- The threads, the counters, the tables and the flushes, and the memory image as it
  is between any two accesses. -/
  server : Server ι
  /-- The holder of each record's mutex. -/
  mutex : RecordId → Option ι
  /-- Where in `handle_request` each thread is. -/
  callPc : ι → Pc
  /-- Which field each flush of the records reads next. -/
  rows : ℕ → RowPc

variable {ι : Type*} [DecidableEq ι]

namespace Process

/-- The process after `load_in_mem`, before the first connection. -/
def start (m : Mem) (db : Database) : Process ι where
  server := Server.start m db
  mutex := fun _ => none
  callPc := fun _ => .check
  rows := fun _ => .modified

/-- What the calls of `handle_request` share. -/
def shared (s : Process ι) : Shared ι := ⟨s.server.mem, s.mutex, s.callPc⟩

/-- The process after a step of a call. -/
def withShared (s : Process ι) (sh : Shared ι) : Process ι :=
  { s with
    server := { s.server with mem := sh.mem }
    mutex := sh.mutex
    callPc := sh.pc }

/-- The thread `i` comes back from `handle_request`. -/
def leave (s : Process ι) (i : ι) (cnt : UInt32) : Process ι :=
  { s with
    server := s.server.goto i (afterHandle cnt)
    callPc := Function.update s.callPc i .check }

/-- The flush `k` moves on to another field of its row. -/
def toField (s : Process ι) (k : ℕ) (pc : RowPc) : Process ι :=
  { s with rows := Function.update s.rows k pc }

/-- The flush `k` is done with a row, and leaves the table `tc`. -/
def nextRow (s : Process ι) (k : ℕ) (ids : List RecordId) (tc : ToCollectTable) : Process ι :=
  { s with
    server :=
      { s.server with
        toCollect := tc
        toCollectScans := s.server.toCollectScans.set k ids }
    rows := Function.update s.rows k .modified }

end Process

/-- **One step of `handle_request`** in the thread `i`: a step of its call, or its
return. A chunk that asks for no record of the array is done with in one step, or
leads out of the arrays. -/
def handleStep (i : ι) (c : Chunk) (cnt : UInt32) (s : Process ι) :
    Option (Process ι × List HttpEvent) :=
  match c.call? with
  | none =>
    (handleRequest c.line c.len s.server.mem).toOption.map fun _ =>
      (s.leave i cnt, [.handled cnt])
  | some call =>
    if (s.callPc i).ended then some (s.leave i cnt, [.handled cnt])
    else (microStep (fun _ => call) i s.shared).map fun p => (s.withShared p.1, [])

/-- **One read of a flush of the records**, and the UPDATE on the last one of a row. -/
def rowStep (k : ℕ) (s : Process ι) : Option (Process ι × List HttpEvent) :=
  match s.server.toCollectScans[k]? with
  | some (id :: ids) =>
    (s.server.mem.memToCollects id).map fun r =>
      match s.rows k with
      | .modified =>
        if r.modified then (s.toField k .status, [])
        else (s.nextRow k ids s.server.toCollect, [])
      | .status => (s.toField k (.energy r.newStatus), [])
      | .energy newStatus =>
        (s.nextRow k ids (toCollectEnergyUpdate s.server.toCollect
          ⟨r.toCollectEnergy.toInt32, newStatus, (id : ℕ)⟩), [])
  | _ => none

/-- **One step of the thread `i`**, in its call or around it. -/
def threadStep (i : ι) (input : Option Chunk) (s : Process ι) :
    Option (Process ι × List HttpEvent) :=
  match s.server.pc i with
  | .handle c cnt => handleStep i c cnt s
  | _ => (httpStep i input s.server).map fun p => ({ s with server := p.1 }, p.2)

/-- **One step of the process.** -/
def processStep : Action ι → Process ι → Option (Process ι × List HttpEvent)
  | .http i input, s => threadStep i input s
  | .scanRecord k, s => rowStep k s
  | .scanTotal k order, s =>
    (scanTotalStep k order s.server).map fun p => ({ s with server := p.1 }, p.2)

/-- The runs of the process from a loaded state. -/
abbrev ProcessRun (m : Mem) (db : Database) (tr : List HttpEvent) (s : Process ι) : Prop :=
  Run processStep (Process.start m db) tr s

/-- **What a step of the process does.** -/
inductive ProcessStep (s : Process ι) : Action ι → Process ι → List HttpEvent → Prop
  | threads {input : Option Chunk} (i : ι) (hpc : ∀ c cnt, s.server.pc i ≠ .handle c cnt)
      (t : Server ι) (es : List HttpEvent) (h : ServerStep s.server (.http i input) t es) :
      ProcessStep s (.http i input) { s with server := t } es
  | disposes {input : Option Chunk} (i : ι) (c : Chunk) (cnt : UInt32)
      (hpc : s.server.pc i = .handle c cnt) (hcall : c.call? = none) (m : Mem)
      (hm : handleRequest c.line c.len s.server.mem = .ok m) :
      ProcessStep s (.http i input) (s.leave i cnt) [.handled cnt]
  | steps {input : Option Chunk} (i : ι) (c : Chunk) (cnt : UInt32) (call : Call)
      (hpc : s.server.pc i = .handle c cnt) (hcall : c.call? = some call)
      (sh : Shared ι) (es : List (Event ι))
      (h : microStep (fun _ => call) i s.shared = some (sh, es)) :
      ProcessStep s (.http i input) (s.withShared sh) []
  | returns {input : Option Chunk} (i : ι) (c : Chunk) (cnt : UInt32) (call : Call)
      (hpc : s.server.pc i = .handle c cnt) (hcall : c.call? = some call)
      (hend : (s.callPc i).ended = true) :
      ProcessStep s (.http i input) (s.leave i cnt) [.handled cnt]
  | reads (k : ℕ) (id : RecordId) (ids : List RecordId)
      (hk : s.server.toCollectScans[k]? = some (id :: ids)) (hrow : s.rows k = .modified)
      (r : MemToCollect) (hr : s.server.mem.memToCollects id = some r)
      (hmod : r.modified = true) :
      ProcessStep s (.scanRecord k) (s.toField k .status) []
  | skips (k : ℕ) (id : RecordId) (ids : List RecordId)
      (hk : s.server.toCollectScans[k]? = some (id :: ids)) (hrow : s.rows k = .modified)
      (r : MemToCollect) (hr : s.server.mem.memToCollects id = some r)
      (hmod : r.modified = false) :
      ProcessStep s (.scanRecord k) (s.nextRow k ids s.server.toCollect) []
  | readsStatus (k : ℕ) (id : RecordId) (ids : List RecordId)
      (hk : s.server.toCollectScans[k]? = some (id :: ids)) (hrow : s.rows k = .status)
      (r : MemToCollect) (hr : s.server.mem.memToCollects id = some r) :
      ProcessStep s (.scanRecord k) (s.toField k (.energy r.newStatus)) []
  | writes (k : ℕ) (id : RecordId) (ids : List RecordId) (newStatus : List UInt8)
      (hk : s.server.toCollectScans[k]? = some (id :: ids))
      (hrow : s.rows k = .energy newStatus)
      (r : MemToCollect) (hr : s.server.mem.memToCollects id = some r) :
      ProcessStep s (.scanRecord k)
        (s.nextRow k ids (toCollectEnergyUpdate s.server.toCollect
          ⟨r.toCollectEnergy.toInt32, newStatus, (id : ℕ)⟩)) []
  | totals (k : ℕ) (order : List CString) (t : Server ι) (es : List HttpEvent)
      (h : ServerStep s.server (.scanTotal k order) t es) :
      ProcessStep s (.scanTotal k order) { s with server := t } es

/-- What a thread does in its call. -/
theorem handleStep_cases {input : Option Chunk} {i : ι} {c : Chunk} {cnt : UInt32}
    {s s' : Process ι} {es : List HttpEvent} (hpc : s.server.pc i = .handle c cnt)
    (h : handleStep i c cnt s = some (s', es)) : ProcessStep s (.http i input) s' es := by
  unfold handleStep at h
  cases hcall : c.call? with
  | none =>
    rw [hcall] at h
    obtain ⟨m, hm, heq⟩ := Option.map_eq_some_iff.mp h
    obtain ⟨rfl, rfl⟩ := Prod.mk.inj heq
    exact .disposes i c cnt hpc hcall m (eq_ok_of_toOption hm)
  | some call =>
    rw [hcall] at h
    dsimp only at h
    by_cases hend : (s.callPc i).ended = true
    · rw [if_pos hend] at h
      obtain ⟨rfl, rfl⟩ := Prod.mk.inj (Option.some.inj h)
      exact .returns i c cnt call hpc hcall hend
    · rw [if_neg hend] at h
      obtain ⟨⟨sh, es'⟩, hstep, heq⟩ := Option.map_eq_some_iff.mp h
      obtain ⟨rfl, rfl⟩ := Prod.mk.inj heq
      exact .steps i c cnt call hpc hcall sh es' hstep

/-- What a thread does. -/
theorem threadStep_cases {input : Option Chunk} {i : ι} {s s' : Process ι}
    {es : List HttpEvent} (h : threadStep i input s = some (s', es)) :
    ProcessStep s (.http i input) s' es := by
  unfold threadStep at h
  by_cases hpc : ∃ c cnt, s.server.pc i = .handle c cnt
  · obtain ⟨c, cnt, hpc⟩ := hpc
    rw [hpc] at h
    exact handleStep_cases hpc h
  · have hfree : ∀ c cnt, s.server.pc i ≠ .handle c cnt := fun c cnt h => hpc ⟨c, cnt, h⟩
    have hthread : (httpStep i input s.server).map
        (fun p => ({ s with server := p.1 }, p.2)) = some (s', es) := by
      cases hpc' : s.server.pc i with
      | handle c cnt => exact absurd hpc' (hfree c cnt)
      | guard | recv | count | respond | start | respondLate | finish | closed =>
        rw [hpc'] at h
        exact h
    obtain ⟨⟨t, es'⟩, hstep, heq⟩ := Option.map_eq_some_iff.mp hthread
    obtain ⟨rfl, rfl⟩ := Prod.mk.inj heq
    exact .threads i hfree t es' (serverStep_cases hstep)

/-- What a flush of the records does. -/
theorem rowStep_cases {k : ℕ} {s s' : Process ι} {es : List HttpEvent}
    (h : rowStep k s = some (s', es)) : ProcessStep s (.scanRecord k) s' es := by
  unfold rowStep at h
  split at h
  · rename_i id ids hk
    obtain ⟨r, hr, heq⟩ := Option.map_eq_some_iff.mp h
    cases hrow : s.rows k with
    | modified =>
      rw [hrow] at heq
      dsimp only at heq
      by_cases hmod : r.modified = true
      · rw [if_pos hmod] at heq
        obtain ⟨rfl, rfl⟩ := Prod.mk.inj heq
        exact .reads k id ids hk hrow r hr hmod
      · rw [if_neg hmod] at heq
        obtain ⟨rfl, rfl⟩ := Prod.mk.inj heq
        exact .skips k id ids hk hrow r hr (Bool.eq_false_iff.mpr hmod)
    | status =>
      rw [hrow] at heq
      obtain ⟨rfl, rfl⟩ := Prod.mk.inj heq
      exact .readsStatus k id ids hk hrow r hr
    | energy newStatus =>
      rw [hrow] at heq
      obtain ⟨rfl, rfl⟩ := Prod.mk.inj heq
      exact .writes k id ids newStatus hk hrow r hr
  · cases h

/-- A step does one of these things. -/
theorem processStep_cases {a : Action ι} {s s' : Process ι} {es : List HttpEvent}
    (h : processStep a s = some (s', es)) : ProcessStep s a s' es := by
  cases a with
  | http i input => exact threadStep_cases h
  | scanRecord k => exact rowStep_cases h
  | scanTotal k order =>
    change (scanTotalStep k order s.server).map _ = _ at h
    obtain ⟨⟨t, es'⟩, hstep, heq⟩ := Option.map_eq_some_iff.mp h
    obtain ⟨rfl, rfl⟩ := Prod.mk.inj heq
    exact .totals k order t es' (serverStep_cases (a := .scanTotal k order) hstep)

/-! ## The threads of the process -/

section Threads

variable {m : Mem} {db : Database} {tr es : List HttpEvent} {s s' : Process ι} {a : Action ι}

/-- **A step of the process is a move of one of its threads**, or is inside a call or a
flush. -/
theorem ProcessStep.move (h : ProcessStep s a s' es)
    (hs : ∀ i, (s.server.pc i).respondsFirst) :
    (s'.server.pc = s.server.pc ∧ es = [])
      ∨ ∃ i pc, s'.server.pc = Function.update s.server.pc i pc
        ∧ HttpMove (s.server.pc i) pc es := by
  cases h with
  | threads i hpc t es h => exact h.move hs
  | totals k order t es h => exact h.move hs
  | disposes i c cnt hpc | returns i c cnt _ hpc =>
    exact Or.inr ⟨i, _, rfl, hpc ▸ .handles c cnt⟩
  | steps | reads | skips | readsStatus | writes => exact Or.inl ⟨rfl, rfl⟩

theorem ProcessRun.respondsFirst (h : ProcessRun m db tr s) (i : ι) :
    (s.server.pc i).respondsFirst := by
  refine Run.invariant (I := fun _ (s : Process ι) => ∀ i, (s.server.pc i).respondsFirst)
    (fun _ => show HttpPc.guard.respondsFirst from trivial)
    (fun tr s a s' es _ hI hs i => ?_) h i
  rcases (processStep_cases hs).move hI with ⟨hpc, -⟩ | ⟨j, pc, hpc, hmove⟩
  · rw [hpc]
    exact hI i
  · rw [hpc]
    by_cases hij : i = j
    · rw [hij, Function.update_self]
      exact hmove.respondsFirst
    · rw [Function.update_of_ne hij]
      exact hI i

/-- The process is a system of threads. -/
theorem threaded_process (m : Mem) (db : Database) :
    Threaded processStep (Process.start m db : Process ι) (fun s => s.server.pc) :=
  ⟨fun _ => rfl, fun hr hs =>
    (processStep_cases hs).move (ProcessRun.respondsFirst hr)⟩

end Threads

end GreenFinal
