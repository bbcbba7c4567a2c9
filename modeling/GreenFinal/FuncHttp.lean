import GreenFinal.Lib.Interleave
import GreenFinal.WriteBack

/-!
# The connection threads and the two flushes

`func` starts a thread with `func_http` for every connection it accepts. The
thread takes what one `recv` delivers for one request: it draws a number from
`req_cnt`, answers and handles the request, and adds one to `done_count`; it
leaves its loop when the peer closes or `done_count` has reached
`REQ_TOTAL_CNT`. The thread that draws the last number but one starts the
flush of the records, the one that draws the last number the flush of the
totals; these two handle their request before they answer, all others after.

A state of the server is the memory image, the two counters, where each
thread is, the two tables, and the flushes under way, each with the rows it
has still to go through. `handle_request` is one step here, as it is one
instant by `GreenFinal.Linearization`; a flush takes one step for each row. The
200 ms a trigger sleeps order nothing, so they are not a step. A step in which
the source would leave its arrays, or read through a null record, does not
exist.
-/

open CLib Interleave

namespace GreenFinal

/-- Where a thread is in `func_http`. -/
inductive HttpPc where
  /-- At the loop guard, `done_count < REQ_TOTAL_CNT`. -/
  | guard
  /-- In `recv`. -/
  | recv
  /-- At `++req_cnt`, with what has been received. -/
  | count (c : Chunk)
  /-- At the answer that goes before the handling. -/
  | respond (c : Chunk) (cnt : UInt32)
  /-- At `handle_request`. -/
  | handle (c : Chunk) (cnt : UInt32)
  /-- At the start of a flush. -/
  | start (cnt : UInt32)
  /-- At the answer that goes after the start of a flush. -/
  | respondLate (cnt : UInt32)
  /-- At `done_count.fetch_add(1)`. -/
  | finish (cnt : UInt32)
  /-- Past the loop. -/
  | closed
  deriving DecidableEq

/-- The numbers that trigger a flush. -/
def isTrigger (cnt : UInt32) : Bool :=
  cnt.toNat = reqTotalCnt - 1 || cnt.toNat = reqTotalCnt

/-- What can be seen of a run. -/
inductive HttpEvent where
  /-- `recv` delivered a chunk. -/
  | received (c : Chunk)
  /-- A number was drawn. -/
  | numbered (cnt : UInt32)
  /-- The request with the number was answered. -/
  | responded (cnt : UInt32)
  /-- The request with the number was handled. -/
  | handled (cnt : UInt32)
  /-- The flush of the records was started. -/
  | startedToCollect
  /-- The flush of the totals was started. -/
  | startedTotal
  /-- The request with the number was counted as done. -/
  | finished (cnt : UInt32)
  deriving DecidableEq

/-- A state of the server. -/
structure Server (ι : Type*) where
  /-- The memory image. -/
  mem : Mem
  /-- `req_cnt` -/
  reqCnt : UInt32
  /-- `done_count` -/
  doneCnt : UInt32
  /-- Where each thread is. -/
  pc : ι → HttpPc
  /-- The table `to_collect_energy`. -/
  toCollect : ToCollectTable
  /-- The table `total_energy`. -/
  total : TotalTable
  /-- The flushes of the records, each with the ids it has still to read. -/
  toCollectScans : List (List RecordId)
  /-- The flushes of the totals, each with the keys it has still to read, or
  `none` before its loop has begun. -/
  totalScans : List (Option (List CString))

/-- Who moves, and what the environment hands over. -/
inductive Action (ι : Type*) where
  /-- A thread, with what `recv` delivers if it is there: nothing at the end. -/
  | http (i : ι) (input : Option Chunk)
  /-- A flush of the records. -/
  | scanRecord (k : ℕ)
  /-- A flush of the totals, with the order of the keys if its loop begins. -/
  | scanTotal (k : ℕ) (order : List CString)

variable {ι : Type*} [DecidableEq ι]

namespace Server

/-- The server after `load_in_mem`, before the first connection. -/
def start (m : Mem) (db : Database) : Server ι where
  mem := m
  reqCnt := 0
  doneCnt := 0
  pc := fun _ => .guard
  toCollect := db.toCollect
  total := db.total
  toCollectScans := []
  totalScans := []

/-- The thread `i` moves on to `pc`. -/
def goto (s : Server ι) (i : ι) (pc : HttpPc) : Server ι :=
  { s with pc := Function.update s.pc i pc }

end Server

/-- Where a thread goes with the number it has drawn. -/
def afterCount (c : Chunk) (cnt : UInt32) : HttpPc :=
  if isTrigger cnt then .handle c cnt else .respond c cnt

/-- Where a thread goes when it has handled its request. -/
def afterHandle (cnt : UInt32) : HttpPc :=
  if isTrigger cnt then .start cnt else .finish cnt

/-- **One step of `func_http`**, in the thread `i`. -/
def httpStep (i : ι) (input : Option Chunk) (s : Server ι) :
    Option (Server ι × List HttpEvent) :=
  match s.pc i with
  | .guard =>
    some (s.goto i (if s.doneCnt.toNat < reqTotalCnt then .recv else .closed), [])
  | .recv =>
    match input with
    | none => some (s.goto i .closed, [])
    | some c => some (s.goto i (.count c), [.received c])
  | .count c =>
    some ({ s with reqCnt := s.reqCnt + 1 }.goto i (afterCount c (s.reqCnt + 1)),
      [.numbered (s.reqCnt + 1)])
  | .respond c cnt => some (s.goto i (.handle c cnt), [.responded cnt])
  | .handle c cnt =>
    (handleRequest c.line c.len s.mem).toOption.map fun m =>
      ({ s with mem := m }.goto i (afterHandle cnt), [.handled cnt])
  | .start cnt =>
    if cnt.toNat = reqTotalCnt - 1 then
      some ({ s with toCollectScans := s.toCollectScans ++ [scanIds] }.goto i (.respondLate cnt),
        [.startedToCollect])
    else if cnt.toNat = reqTotalCnt then
      some ({ s with totalScans := s.totalScans ++ [none] }.goto i (.respondLate cnt),
        [.startedTotal])
    else none
  | .respondLate cnt => some (s.goto i (.finish cnt), [.responded cnt])
  | .finish cnt =>
    some ({ s with doneCnt := s.doneCnt + 1 }.goto i .guard, [.finished cnt])
  | .closed => none

/-- **One step of a flush of the records**: one row. -/
def scanRecordStep (k : ℕ) (s : Server ι) : Option (Server ι × List HttpEvent) :=
  match s.toCollectScans[k]? with
  | some (id :: ids) =>
    (flushRecord s.mem id).toOption.map fun us =>
      ({ s with
          toCollect := us.foldl toCollectEnergyUpdate s.toCollect
          toCollectScans := s.toCollectScans.set k ids }, [])
  | _ => none

/-- **One step of a flush of the totals**: the loop begins, or one row. -/
def scanTotalStep (k : ℕ) (order : List CString) (s : Server ι) :
    Option (Server ι × List HttpEvent) :=
  match s.totalScans[k]? with
  | some none =>
    if s.mem.memTotalEnergyMap.Enumerates order then
      some ({ s with totalScans := s.totalScans.set k (some order) }, [])
    else none
  | some (some (u :: us)) =>
    some ({ s with
        total := totalEnergyUpdate s.total (s.mem.memTotalEnergyMap.update u)
        totalScans := s.totalScans.set k (some us) }, [])
  | _ => none

/-- **One step of the server.** -/
def serverStep : Action ι → Server ι → Option (Server ι × List HttpEvent)
  | .http i input, s => httpStep i input s
  | .scanRecord k, s => scanRecordStep k s
  | .scanTotal k order, s => scanTotalStep k order s

/-- The runs of the server from a loaded state. -/
abbrev ServerRun (m : Mem) (db : Database) (tr : List HttpEvent) (s : Server ι) : Prop :=
  Run serverStep (Server.start m db) tr s

/-- **What a step of the server does**, by the place it starts from. -/
inductive ServerStep (s : Server ι) : Action ι → Server ι → List HttpEvent → Prop
  | enters {input : Option Chunk} (i : ι) (hpc : s.pc i = .guard)
      (h : s.doneCnt.toNat < reqTotalCnt) :
      ServerStep s (.http i input) (s.goto i .recv) []
  | leaves {input : Option Chunk} (i : ι) (hpc : s.pc i = .guard)
      (h : ¬ s.doneCnt.toNat < reqTotalCnt) :
      ServerStep s (.http i input) (s.goto i .closed) []
  | receives (i : ι) (hpc : s.pc i = .recv) (c : Chunk) :
      ServerStep s (.http i (some c)) (s.goto i (.count c)) [.received c]
  | ends (i : ι) (hpc : s.pc i = .recv) :
      ServerStep s (.http i none) (s.goto i .closed) []
  | counts {input : Option Chunk} (i : ι) (c : Chunk) (hpc : s.pc i = .count c) :
      ServerStep s (.http i input)
        ({ s with reqCnt := s.reqCnt + 1 }.goto i (afterCount c (s.reqCnt + 1)))
        [.numbered (s.reqCnt + 1)]
  | responds {input : Option Chunk} (i : ι) (c : Chunk) (cnt : UInt32)
      (hpc : s.pc i = .respond c cnt) :
      ServerStep s (.http i input) (s.goto i (.handle c cnt)) [.responded cnt]
  | handles {input : Option Chunk} (i : ι) (c : Chunk) (cnt : UInt32)
      (hpc : s.pc i = .handle c cnt) (m : Mem)
      (hm : handleRequest c.line c.len s.mem = .ok m) :
      ServerStep s (.http i input) ({ s with mem := m }.goto i (afterHandle cnt))
        [.handled cnt]
  | startsToCollect {input : Option Chunk} (i : ι) (cnt : UInt32)
      (hpc : s.pc i = .start cnt) (hcnt : cnt.toNat = reqTotalCnt - 1) :
      ServerStep s (.http i input)
        ({ s with toCollectScans := s.toCollectScans ++ [scanIds] }.goto i (.respondLate cnt))
        [.startedToCollect]
  | startsTotal {input : Option Chunk} (i : ι) (cnt : UInt32)
      (hpc : s.pc i = .start cnt) (hcnt : cnt.toNat = reqTotalCnt) :
      ServerStep s (.http i input)
        ({ s with totalScans := s.totalScans ++ [none] }.goto i (.respondLate cnt))
        [.startedTotal]
  | respondsLate {input : Option Chunk} (i : ι) (cnt : UInt32)
      (hpc : s.pc i = .respondLate cnt) :
      ServerStep s (.http i input) (s.goto i (.finish cnt)) [.responded cnt]
  | finishes {input : Option Chunk} (i : ι) (cnt : UInt32) (hpc : s.pc i = .finish cnt) :
      ServerStep s (.http i input) ({ s with doneCnt := s.doneCnt + 1 }.goto i .guard)
        [.finished cnt]
  | scansRecord (k : ℕ) (id : RecordId) (ids : List RecordId)
      (hk : s.toCollectScans[k]? = some (id :: ids)) (us : List ToCollectUpdate)
      (hus : flushRecord s.mem id = .ok us) :
      ServerStep s (.scanRecord k)
        { s with
          toCollect := us.foldl toCollectEnergyUpdate s.toCollect
          toCollectScans := s.toCollectScans.set k ids } []
  | beginsTotal (k : ℕ) (order : List CString) (hk : s.totalScans[k]? = some none)
      (horder : s.mem.memTotalEnergyMap.Enumerates order) :
      ServerStep s (.scanTotal k order)
        { s with totalScans := s.totalScans.set k (some order) } []
  | scansTotal {order : List CString} (k : ℕ) (u : CString) (us : List CString)
      (hk : s.totalScans[k]? = some (some (u :: us))) :
      ServerStep s (.scanTotal k order)
        { s with
          total := totalEnergyUpdate s.total (s.mem.memTotalEnergyMap.update u)
          totalScans := s.totalScans.set k (some us) } []

/-- A step does one of these things. -/
theorem serverStep_cases {a : Action ι} {s s' : Server ι} {es : List HttpEvent}
    (h : serverStep a s = some (s', es)) : ServerStep s a s' es := by
  cases a with
  | http i input =>
    change httpStep i input s = _ at h
    unfold httpStep at h
    cases hpc : s.pc i with
    | guard =>
      rw [hpc] at h
      obtain ⟨rfl, rfl⟩ := Prod.mk.inj (Option.some.inj h)
      by_cases hd : s.doneCnt.toNat < reqTotalCnt
      · rw [if_pos hd]
        exact .enters i hpc hd
      · rw [if_neg hd]
        exact .leaves i hpc hd
    | recv =>
      rw [hpc] at h
      cases input with
      | none =>
        obtain ⟨rfl, rfl⟩ := Prod.mk.inj (Option.some.inj h)
        exact .ends i hpc
      | some c =>
        obtain ⟨rfl, rfl⟩ := Prod.mk.inj (Option.some.inj h)
        exact .receives i hpc c
    | count c =>
      rw [hpc] at h
      obtain ⟨rfl, rfl⟩ := Prod.mk.inj (Option.some.inj h)
      exact .counts i c hpc
    | respond c cnt =>
      rw [hpc] at h
      obtain ⟨rfl, rfl⟩ := Prod.mk.inj (Option.some.inj h)
      exact .responds i c cnt hpc
    | handle c cnt =>
      rw [hpc] at h
      obtain ⟨m, hm, heq⟩ := Option.map_eq_some_iff.mp h
      obtain ⟨rfl, rfl⟩ := Prod.mk.inj heq
      exact .handles i c cnt hpc m (eq_ok_of_toOption hm)
    | start cnt =>
      rw [hpc] at h
      dsimp only at h
      by_cases h₁ : cnt.toNat = reqTotalCnt - 1
      · rw [if_pos h₁] at h
        obtain ⟨rfl, rfl⟩ := Prod.mk.inj (Option.some.inj h)
        exact .startsToCollect i cnt hpc h₁
      · rw [if_neg h₁] at h
        by_cases h₂ : cnt.toNat = reqTotalCnt
        · rw [if_pos h₂] at h
          obtain ⟨rfl, rfl⟩ := Prod.mk.inj (Option.some.inj h)
          exact .startsTotal i cnt hpc h₂
        · rw [if_neg h₂] at h
          cases h
    | respondLate cnt =>
      rw [hpc] at h
      obtain ⟨rfl, rfl⟩ := Prod.mk.inj (Option.some.inj h)
      exact .respondsLate i cnt hpc
    | finish cnt =>
      rw [hpc] at h
      obtain ⟨rfl, rfl⟩ := Prod.mk.inj (Option.some.inj h)
      exact .finishes i cnt hpc
    | closed =>
      rw [hpc] at h
      cases h
  | scanRecord k =>
    change scanRecordStep k s = _ at h
    unfold scanRecordStep at h
    split at h
    · rename_i id ids hk
      obtain ⟨us, hus, heq⟩ := Option.map_eq_some_iff.mp h
      obtain ⟨rfl, rfl⟩ := Prod.mk.inj heq
      exact .scansRecord k id ids hk us (eq_ok_of_toOption hus)
    · cases h
  | scanTotal k order =>
    change scanTotalStep k order s = _ at h
    unfold scanTotalStep at h
    split at h
    · rename_i hk
      by_cases horder : s.mem.memTotalEnergyMap.Enumerates order
      · rw [if_pos horder] at h
        obtain ⟨rfl, rfl⟩ := Prod.mk.inj (Option.some.inj h)
        exact .beginsTotal k order hk horder
      · rw [if_neg horder] at h
        cases h
    · rename_i u us hk
      obtain ⟨rfl, rfl⟩ := Prod.mk.inj (Option.some.inj h)
      exact .scansTotal k u us hk
    · cases h

/-- And all of them are steps. -/
theorem ServerStep.serverStep_eq {a : Action ι} {s s' : Server ι} {es : List HttpEvent}
    (h : ServerStep s a s' es) : serverStep a s = some (s', es) := by
  cases h with
  | enters i hpc h =>
    rw [serverStep]
    unfold httpStep
    rw [hpc]
    dsimp only
    rw [if_pos h]
  | leaves i hpc h =>
    rw [serverStep]
    unfold httpStep
    rw [hpc]
    dsimp only
    rw [if_neg h]
  | receives i hpc | ends i hpc | counts i _ hpc | responds i _ _ hpc
  | respondsLate i _ hpc | finishes i _ hpc =>
    rw [serverStep]
    unfold httpStep
    rw [hpc]
  | handles i c cnt hpc m hm =>
    rw [serverStep]
    unfold httpStep
    rw [hpc]
    dsimp only
    rw [hm]
    rfl
  | startsToCollect i cnt hpc hcnt =>
    rw [serverStep]
    unfold httpStep
    rw [hpc]
    dsimp only
    rw [if_pos hcnt]
  | startsTotal i cnt hpc hcnt =>
    have hne : ¬ cnt.toNat = reqTotalCnt - 1 := by
      rw [hcnt]
      decide
    rw [serverStep]
    unfold httpStep
    rw [hpc]
    dsimp only
    rw [if_neg hne, if_pos hcnt]
  | scansRecord k id ids hk us hus =>
    show scanRecordStep k s = _
    rw [scanRecordStep, hk]
    dsimp only
    rw [hus]
    rfl
  | beginsTotal k order hk horder =>
    show scanTotalStep k order s = _
    rw [scanTotalStep, hk]
    dsimp only
    rw [if_pos horder]
  | scansTotal k u us hk =>
    show scanTotalStep k _ s = _
    rw [scanTotalStep, hk]

end GreenFinal
