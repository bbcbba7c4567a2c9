import GreenFinal.Outcome
import GreenFinal.Process
import GreenFinal.Succession

/-!
# The process refines the server

`GreenFinal.FuncHttp` reads `handle_request` as one step and `GreenFinal.Process` does
not. Every run of the process, with its threads inside `handle_request` at the same
time, is matched by a run of the server in which each request is handled at one instant
(`process_refines`). The instant is that of `GreenFinal.Linearization`; between it and
its return a thread is, for the server, past its call already (`Process.atomic`). So
when no request is at hand the memory image is what `handle_request` leaves when it is
executed on the chunks received, one after another (`process_linearizable`).

What the flushes of the records write is another matter, as they take no mutex and read
a record field by field. Where no call for a record is under way while its row is read
(`keepsApart`), they write what those of the server write, and where no credit comes
behind the back of a flush (`creditsInTime`), the run of the server is one in which
every request is handled in time (`Refines.run`).
-/

open CLib Interleave

namespace GreenFinal

variable {ι : Type*} [DecidableEq ι]

/-! ## The process as a server -/

/-- All that is seen of a request but the moment at which it is handled. -/
def HttpEvent.seen : HttpEvent → Bool
  | .handled _ => false
  | _ => true

/-- The call that a thread has at hand. -/
def HttpPc.call? : HttpPc → Option Call
  | .handle c _ => c.call?
  | _ => none

/-- Where the thread is for the server: past its call, once that has taken effect. -/
def HttpPc.after (p : Pc) : HttpPc → HttpPc
  | .handle c cnt => if p.effective then afterHandle cnt else .handle c cnt
  | pc => pc

theorem HttpPc.after_afterHandle (p : Pc) (cnt : UInt32) :
    (afterHandle cnt).after p = afterHandle cnt := by
  unfold afterHandle
  split <;> rfl

theorem HttpPc.after_of_not_effective {p : Pc} (h : p.effective = false) (pc : HttpPc) :
    pc.after p = pc := by
  cases pc with
  | handle => exact if_neg fun h' => Bool.false_ne_true (h.symm.trans h')
  | guard | recv | count | respond | start | respondLate | finish | closed => rfl

theorem HttpPc.call?_afterHandle (cnt : UInt32) : (afterHandle cnt).call? = none := by
  unfold afterHandle
  split <;> rfl

namespace Process

/-- Where the threads are for the server. -/
def atomicPc (s : Process ι) (i : ι) : HttpPc := (s.server.pc i).after (s.callPc i)

/-- **The process as a server**, with the memory image and the table of records that the
server has. -/
def atomic (s : Process ι) (m : Mem) (tc : ToCollectTable) : Server ι :=
  { s.server with mem := m, toCollect := tc, pc := s.atomicPc }

/-- The thread `j` is in the middle of a call for the record. -/
def inCall (s : Process ι) (j : ι) (id : RecordId) : Bool :=
  (s.callPc j).underWay && (s.server.pc j).call?.any fun c => c.request.id = id

/-- A flush is in the middle of the row of the record. -/
def rowOpen (s : Process ι) (id : RecordId) : Bool :=
  (List.range s.server.toCollectScans.length).any fun k =>
    s.rows k ≠ .modified && s.server.toCollectScans[k]?.bind List.head? = some id

omit [DecidableEq ι] in
theorem rowOpen_of_getElem? {s : Process ι} {k : ℕ} {id : RecordId} {ids : List RecordId}
    (hk : s.server.toCollectScans[k]? = some (id :: ids)) (hrow : s.rows k ≠ .modified) :
    s.rowOpen id = true := by
  obtain ⟨hlt, -⟩ := List.getElem?_eq_some_iff.mp hk
  refine List.any_eq_true.mpr ⟨k, List.mem_range.mpr hlt, ?_⟩
  rw [hk, decide_eq_true hrow]
  exact decide_eq_true rfl

end Process

/-- **The step keeps the calls for a record and the reading of its row apart**: no call
for it starts in the middle of its row, and no field of it is read in the middle of a
call. -/
def keepsApart [Fintype ι] : Action ι → Process ι → Bool
  | .http i _, s =>
    (s.server.pc i).call?.all fun c => s.callPc i ≠ .check || !s.rowOpen c.request.id
  | .scanRecord k, s =>
    (s.server.toCollectScans[k]?.bind List.head?).all fun id => ∀ j, s.inCall j id = false
  | .scanTotal _ _, _ => true

/-- **The step credits in time**, if it credits. -/
def creditsInTime : Action ι → Process ι → Bool
  | .http i _, s =>
    (s.server.pc i).call?.all fun c =>
      s.callPc i ≠ .credit || s.server.takesInTime c.request
  | _, _ => true

section Match

variable {call : ι → Call} {ctr : List (Event ι)} {order : List ι} {cs : List Credit}
  {s s' : Process ι} {S S' t : Server ι} {m : Mem} {a : Action ι} {es : List HttpEvent} {i : ι}
  {apart : Prop}

/-- **The match between the calls under way and a memory image.** -/
structure Matched (call : ι → Call) (ctr : List (Event ι)) (order : List ι)
    (cs : List Credit) (s : Process ι) (m : Mem) : Prop where
  /-- The calls are those at hand. -/
  calls : ∀ i c, (s.server.pc i).call? = some c → call i = c
  /-- A thread without a call is in none. -/
  idle : ∀ i, (s.server.pc i).call? = none → s.callPc i = .check
  /-- The calls that have taken effect have left the image. -/
  linearized : Linearized call ctr s.shared order (m, cs)
  /-- And the flags. -/
  flagged : Flagged call s.shared m

namespace Matched

omit [DecidableEq ι] in
/-- Threads that are in no call can have another at hand. -/
theorem exchange (hM : Matched call ctr order cs s m) (hshared : s'.shared = s.shared)
    (hcalls : ∀ j, s.callPc j ≠ .check → (s'.server.pc j).call? = (s.server.pc j).call?)
    (hidle : ∀ j, (s'.server.pc j).call? = none → s.callPc j = .check) :
    ∃ call', Matched call' ctr order cs s' m := by
  have hcall : ∀ j, s.shared.pc j ≠ .check →
      ((s'.server.pc j).call?).getD (call j) = call j := by
    intro j hj
    rw [hcalls j hj]
    cases hc : (s.server.pc j).call? with
    | none => rfl
    | some c => exact (hM.calls j c hc).symm
  refine ⟨fun j => ((s'.server.pc j).call?).getD (call j), fun j c hc => ?_, fun j hj => ?_,
    hshared.symm ▸ hM.linearized.congr hcall, hshared.symm ▸ hM.flagged.congr hcall⟩
  · show ((s'.server.pc j).call?).getD (call j) = c
    rw [hc]
    rfl
  · exact (congrArg (fun sh : Shared ι => sh.pc j) hshared).trans (hidle j hj)

/-- A thread that has no more to do in its call leaves it. -/
theorem leave (hM : Matched call ctr order cs s m) (cnt : UInt32)
    (hend : s.callPc i = .check ∨ (s.callPc i).ended = true) :
    ∃ order', Matched call ctr order' cs (s.leave i cnt) m := by
  have hcalls : ∀ j d, ((s.leave i cnt).server.pc j).call? = some d → call j = d := by
    intro j d hd
    by_cases hj : j = i
    · subst hj
      rw [show (s.leave j cnt).server.pc j = afterHandle cnt from Function.update_self ..,
        HttpPc.call?_afterHandle] at hd
      cases hd
    · rw [show (s.leave i cnt).server.pc j = s.server.pc j from
        Function.update_of_ne hj ..] at hd
      exact hM.calls j d hd
  have hidle : ∀ j, ((s.leave i cnt).server.pc j).call? = none →
      (s.leave i cnt).callPc j = .check := by
    intro j hd
    by_cases hj : j = i
    · subst hj
      exact Function.update_self ..
    · rw [show (s.leave i cnt).server.pc j = s.server.pc j from
        Function.update_of_ne hj ..] at hd
      exact (Function.update_of_ne hj ..).trans (hM.idle j hd)
  have hshared : (s.leave i cnt).shared = s.shared.goto i .check := rfl
  rcases hend with hcheck | hend
  · have hsame : s.shared.goto i .check = s.shared := by
      show (⟨_, _, Function.update s.callPc i .check⟩ : Shared ι) = _
      rw [← hcheck, Function.update_eq_self]
      rfl
    refine ⟨order, hcalls, hidle, ?_, ?_⟩
    · rw [hshared, hsame]
      exact hM.linearized
    · rw [hshared, hsame]
      exact hM.flagged
  · refine ⟨order.erase i, hcalls, hidle, ?_, ?_⟩
    · rw [hshared]
      exact hM.linearized.retire hend
    · rw [hshared]
      refine hM.flagged.of_slots (fun id r hr => ⟨r, hr, rfl⟩) fun j hj => ?_
      have hji : j ≠ i := by
        rintro rfl
        cases hpc : s.shared.pc j with
        | skipped | returned =>
          rw [hpc] at hj
          exact Bool.false_ne_true hj
        | _ =>
          rw [show s.callPc j = s.shared.pc j from rfl, hpc] at hend
          cases hend
      rw [show (s.shared.goto i .check).pc j = s.shared.pc j from Function.update_of_ne hji ..]
      exact hj

end Matched

/-! ## Steps outside the calls -/

/-- **A step of a thread outside its calls** touches the counters, its place and the
flushes. -/
theorem ServerStep.outside {input : Option Chunk} (h : ServerStep S (.http i input) S' es)
    (hpc : ∀ c cnt, S.pc i ≠ .handle c cnt) :
    S'.mem = S.mem ∧ S'.toCollect = S.toCollect
      ∧ S'.pc = Function.update S.pc i (S'.pc i)
      ∧ (S'.toCollectScans = S.toCollectScans
        ∨ S'.toCollectScans = S.toCollectScans ++ [scanIds]) := by
  cases h with
  | handles _ c cnt hpc' => exact absurd hpc' (hpc c cnt)
  | startsToCollect =>
    refine ⟨rfl, rfl, ?_, Or.inr rfl⟩
    rw [Server.pc_goto]
    rfl
  | enters | leaves | receives | ends | counts | responds | startsTotal | respondsLate
  | finishes =>
    refine ⟨rfl, rfl, ?_, Or.inl rfl⟩
    rw [Server.pc_goto]
    rfl

/-- And it does not depend on the rest. -/
theorem ServerStep.around {input : Option Chunk} (h : ServerStep S (.http i input) S' es)
    (hpc : ∀ c cnt, S.pc i ≠ .handle c cnt) (m : Mem) (tc : ToCollectTable)
    (pcs : ι → HttpPc) (hi : pcs i = S.pc i) :
    ServerStep { S with mem := m, toCollect := tc, pc := pcs } (.http i input)
      { S' with mem := m, toCollect := tc, pc := Function.update pcs i (S'.pc i) } es := by
  cases h with
  | handles _ c cnt hpc' => exact absurd hpc' (hpc c cnt)
  | enters _ hpc' hd =>
    rw [Server.pc_goto]
    exact .enters i (hi.trans hpc') hd
  | leaves _ hpc' hd =>
    rw [Server.pc_goto]
    exact .leaves i (hi.trans hpc') hd
  | receives _ hpc' c =>
    rw [Server.pc_goto]
    exact .receives i (hi.trans hpc') c
  | ends _ hpc' =>
    rw [Server.pc_goto]
    exact .ends i (hi.trans hpc')
  | counts _ c hpc' =>
    rw [Server.pc_goto]
    exact .counts i c (hi.trans hpc')
  | responds _ c cnt hpc' =>
    rw [Server.pc_goto]
    exact .responds i c cnt (hi.trans hpc')
  | startsToCollect _ cnt hpc' hcnt =>
    rw [Server.pc_goto]
    exact .startsToCollect i cnt (hi.trans hpc') hcnt
  | startsTotal _ cnt hpc' hcnt =>
    rw [Server.pc_goto]
    exact .startsTotal i cnt (hi.trans hpc') hcnt
  | respondsLate _ cnt hpc' =>
    rw [Server.pc_goto]
    exact .respondsLate i cnt (hi.trans hpc')
  | finishes _ cnt hpc' =>
    rw [Server.pc_goto]
    exact .finishes i cnt (hi.trans hpc')

omit [DecidableEq ι] in
theorem timely_of_pc {input : Option Chunk} {c : Chunk} {cnt : UInt32}
    (hpc : S.pc i = .handle c cnt) :
    timely (.http i input) S = c.request?.elim true S.takesInTime := by
  unfold timely
  dsimp only
  rw [hpc]

omit [DecidableEq ι] in
/-- What is not handled is handled in time. -/
theorem timely_of_not_handle {input : Option Chunk} (hpc : ∀ c cnt, S.pc i ≠ .handle c cnt) :
    timely (.http i input) S = true := by
  unfold timely
  dsimp only
  cases hp : S.pc i with
  | handle c cnt => exact absurd hp (hpc c cnt)
  | guard | recv | count | respond | start | respondLate | finish | closed => rfl

/-- A step of a flush of the totals only reads the totals. -/
theorem ServerStep.aroundTotal {k : ℕ} {us : List CString}
    (h : ServerStep S (.scanTotal k us) S' es) {m : Mem}
    (hm : m.memTotalEnergyMap = S.mem.memTotalEnergyMap) (tc : ToCollectTable)
    (pcs : ι → HttpPc) :
    ServerStep { S with mem := m, toCollect := tc, pc := pcs } (.scanTotal k us)
        { S' with mem := m, toCollect := tc, pc := pcs } es
      ∧ S'.mem = S.mem ∧ S'.toCollect = S.toCollect ∧ S'.pc = S.pc
      ∧ S'.toCollectScans = S.toCollectScans := by
  cases h with
  | beginsTotal _ _ hk horder =>
    exact ⟨.beginsTotal k us hk (hm.symm ▸ horder), rfl, rfl, rfl, rfl⟩
  | scansTotal _ u us' hk =>
    refine ⟨?_, rfl, rfl, rfl, rfl⟩
    rw [← hm]
    exact .scansTotal k u us' hk

/-! ## The tables -/

/-- **The rows of the records are written alike**: what a flush has read of a record in
the middle of its row is still so. -/
structure Rows (s : Process ι) (tc : ToCollectTable) : Prop where
  /-- The tables are the same. -/
  table : tc = s.server.toCollect
  /-- A flush begins at the first field. -/
  fresh : ∀ k, s.server.toCollectScans.length ≤ k → s.rows k = .modified
  /-- In the middle of a row nobody is in a call for its record. -/
  read : ∀ k id ids, s.server.toCollectScans[k]? = some (id :: ids) → s.rows k ≠ .modified →
    (∀ j, s.inCall j id = false)
      ∧ ∃ r, s.server.mem.memToCollects id = some r ∧ r.modified = true
        ∧ ∀ newStatus, s.rows k = .energy newStatus → newStatus = r.newStatus

namespace Rows

variable {tc : ToCollectTable}

omit [DecidableEq ι] in
/-- A step that keeps away from the rows that are being read. -/
theorem of_apart (hW : Rows s tc) (hrows : s'.rows = s.rows)
    (htable : s'.server.toCollect = s.server.toCollect)
    (hscans : s'.server.toCollectScans = s.server.toCollectScans)
    (hkeep : ∀ id, s.rowOpen id = true → (∀ j, s.inCall j id = false) →
      s'.server.mem.memToCollects id = s.server.mem.memToCollects id
        ∧ ∀ j, s'.inCall j id = false) : Rows s' tc := by
  refine ⟨hW.table.trans htable.symm, fun k hk => ?_, fun k id ids hk hrow => ?_⟩
  · rw [hrows]
    exact hW.fresh k (hscans ▸ hk)
  · rw [hrows] at hrow ⊢
    rw [hscans] at hk
    obtain ⟨hfree, hread⟩ := hW.read k id ids hk hrow
    obtain ⟨hslot, hfree'⟩ := hkeep id (Process.rowOpen_of_getElem? hk hrow) hfree
    rw [hslot]
    exact ⟨hfree', hread⟩

omit [DecidableEq ι] in
/-- A step that starts a flush. -/
theorem of_start (hW : Rows s tc) (hrows : s'.rows = s.rows)
    (htable : s'.server.toCollect = s.server.toCollect)
    (hmem : s'.server.mem = s.server.mem)
    (hscans : s'.server.toCollectScans = s.server.toCollectScans ++ [scanIds])
    (hcall : ∀ j id, s.inCall j id = false → s'.inCall j id = false) : Rows s' tc := by
  refine ⟨hW.table.trans htable.symm, fun k hk => ?_, fun k id ids hk hrow => ?_⟩
  · rw [hrows]
    rw [hscans, List.length_append] at hk
    exact hW.fresh k (Nat.le_of_add_right_le hk)
  · rw [hrows] at hrow ⊢
    -- the new flush is not in the middle of a row
    have hlt : k < s.server.toCollectScans.length := by
      by_contra hle
      exact hrow (hW.fresh k (Nat.le_of_not_lt hle))
    rw [hscans, List.getElem?_append_left hlt] at hk
    obtain ⟨hfree, hread⟩ := hW.read k id ids hk hrow
    rw [hmem]
    exact ⟨fun j => hcall j id (hfree j), hread⟩

omit [DecidableEq ι] in
/-- A step of a flush to the next field of the row, or to the next row. -/
theorem of_read (hW : Rows s tc) {k : ℕ} {id : RecordId} {ids : List RecordId} {pc : RowPc}
    (hk : s.server.toCollectScans[k]? = some (id :: ids))
    (hrows : s'.rows = Function.update s.rows k pc) (hmem : s'.server.mem = s.server.mem)
    (hscans : s'.server.toCollectScans = s.server.toCollectScans ∧ pc ≠ .modified
      ∨ s'.server.toCollectScans = s.server.toCollectScans.set k ids ∧ pc = .modified)
    (hcall : ∀ j id, s'.inCall j id = s.inCall j id)
    (hread : pc ≠ .modified → (∀ j, s.inCall j id = false)
      ∧ ∃ r, s.server.mem.memToCollects id = some r ∧ r.modified = true
        ∧ ∀ newStatus, pc = .energy newStatus → newStatus = r.newStatus) :
    Rows s' s'.server.toCollect := by
  obtain ⟨hlt, -⟩ := List.getElem?_eq_some_iff.mp hk
  have hlen : s'.server.toCollectScans.length = s.server.toCollectScans.length := by
    rcases hscans with ⟨h, -⟩ | ⟨h, -⟩
    · rw [h]
    · rw [h, List.length_set]
  refine ⟨rfl, fun k' hk' => ?_, fun k' id' ids' hk' hrow => ?_⟩
  · rw [hlen] at hk'
    rw [hrows, Function.update_of_ne (Nat.ne_of_gt (hlt.trans_le hk'))]
    exact hW.fresh k' hk'
  · rw [hrows] at hrow ⊢
    simp only [hcall, hmem]
    by_cases hkk : k' = k
    · subst hkk
      rw [Function.update_self] at hrow ⊢
      rcases hscans with ⟨h, -⟩ | ⟨-, hpc⟩
      · rw [h] at hk'
        obtain ⟨rfl, -⟩ := List.cons.inj (Option.some.inj (hk.symm.trans hk'))
        exact hread hrow
      · exact absurd hpc hrow
    · rw [Function.update_of_ne hkk] at hrow ⊢
      have hsame : s'.server.toCollectScans[k']? = s.server.toCollectScans[k']? := by
        rcases hscans with ⟨h, -⟩ | ⟨h, -⟩
        · rw [h]
        · rw [h]
          exact List.getElem?_set_ne (Ne.symm hkk)
      exact hW.read k' id' ids' (hsame.symm.trans hk') hrow

end Rows

/-! ## The match -/

/-- **The process refines the server** that has the memory image `m` and the table `tc`:
there the calls that have taken effect are done and the others not begun; and if the
calls have been kept apart from the rows, the tables are the same. -/
structure Refines (apart : Prop) (s : Process ι) (m : Mem) (tc : ToCollectTable) : Prop where
  matched : ∃ call ctr order cs, Matched call ctr order cs s m
  rows : apart → Rows s tc

/-- A thread that leaves its call is past it for the server. -/
theorem Process.atomic_leave (cnt : UInt32) (m : Mem) (tc : ToCollectTable) :
    (s.leave i cnt).atomic m tc = (s.atomic m tc).goto i (afterHandle cnt) := by
  have hpc : (s.leave i cnt).atomicPc = Function.update s.atomicPc i (afterHandle cnt) := by
    funext j
    show (Function.update s.server.pc i _ j).after (Function.update s.callPc i _ j) = _
    by_cases hj : j = i
    · rw [hj, Function.update_self, Function.update_self, Function.update_self,
        HttpPc.after_afterHandle]
    · rw [Function.update_of_ne hj, Function.update_of_ne hj, Function.update_of_ne hj]
      rfl
  show ({ s.server with mem := m, toCollect := tc, pc := (s.leave i cnt).atomicPc }
    : Server ι) = _
  rw [hpc]
  rfl

omit [DecidableEq ι] in
/-- A call that goes on, and has taken effect or not as before, is where it was for the
server. -/
theorem Process.atomic_withShared {sh : Shared ι} (m : Mem) (tc : ToCollectTable)
    (hother : ∀ j, j ≠ i → sh.pc j = s.callPc j)
    (heff : (sh.pc i).effective = (s.callPc i).effective) :
    (s.withShared sh).atomic m tc = s.atomic m tc := by
  have hpc : (s.withShared sh).atomicPc = s.atomicPc := by
    funext j
    show (s.server.pc j).after (sh.pc j) = (s.server.pc j).after (s.callPc j)
    by_cases hj : j = i
    · subst hj
      unfold HttpPc.after
      rw [heff]
    · rw [hother j hj]
  show ({ s.server with mem := m, toCollect := tc, pc := (s.withShared sh).atomicPc }
    : Server ι) = _
  rw [hpc]
  rfl

/-- A call that takes effect is past for the server. -/
theorem Process.atomic_withShared_of_effective {sh : Shared ι} {c : Chunk} {cnt : UInt32}
    (m : Mem) (tc : ToCollectTable) (hother : ∀ j, j ≠ i → sh.pc j = s.callPc j)
    (hpc : s.server.pc i = .handle c cnt) (heff : (sh.pc i).effective = true) :
    (s.withShared sh).atomic m tc = (s.atomic m tc).goto i (afterHandle cnt) := by
  have hpc' : (s.withShared sh).atomicPc = Function.update s.atomicPc i (afterHandle cnt) := by
    funext j
    show (s.server.pc j).after (sh.pc j) = _
    by_cases hj : j = i
    · rw [hj, Function.update_self, hpc]
      exact if_pos heff
    · rw [Function.update_of_ne hj, hother j hj]
      rfl
  show ({ s.server with mem := m, toCollect := tc, pc := (s.withShared sh).atomicPc }
    : Server ι) = _
  rw [hpc']
  rfl

/-- A call of nobody's record does the same wherever fewer records are left. -/
theorem Chunk.handleRequest_of_none {c : Chunk} {m₁ m₁' : Mem} (hnone : c.request? = none)
    (h : handleRequest c.line c.len m₁ = .ok m₁')
    (hm : ∀ id, returnsUnlocked (m₁.memToCollects id) = true →
      returnsUnlocked (m.memToCollects id) = true) :
    handleRequest c.line c.len m = .ok m := by
  unfold handleRequest at h ⊢
  unfold Chunk.request? at hnone
  cases hp : parseRequest c.line c.len with
  | error e =>
    rw [hp] at h
    cases h
  | ok o =>
    cases o with
    | none => rfl
    | some t =>
      rw [hp] at h hnone
      dsimp only at h hnone ⊢
      cases hid : recordIndex? t.id with
      | none =>
        rw [hid] at h
        cases h
      | some id =>
        rw [hid] at h hnone
        dsimp only at h ⊢
        by_cases hun : returnsUnlocked (m₁.memToCollects id) = true
        · rw [if_pos (hm id hun)]
        · -- a name that can be read would make it a request
          rw [if_neg hun] at h
          cases hu : CString.ofBuffer? t.userId with
          | none =>
            rw [hu] at h
            cases h
          | some u =>
            rw [hu] at hnone
            cases hnone

namespace Refines

variable {tc : ToCollectTable}

omit [DecidableEq ι] in
/-- Where nobody is in a call for a record it is that of the server. -/
theorem slot_eq (hR : Refines apart s m tc) {id : RecordId}
    (hfree : ∀ j, s.inCall j id = false) :
    s.server.mem.memToCollects id = m.memToCollects id := by
  obtain ⟨call, ctr, order, cs, hM⟩ := hR.matched
  refine hM.flagged.slot_eq hM.linearized fun j hj => ?_
  by_contra hway
  rw [Bool.not_eq_false] at hway
  have hfree' := hfree j
  cases hc : (s.server.pc j).call? with
  | none =>
    rw [show s.shared.pc j = s.callPc j from rfl, hM.idle j hc] at hway
    exact Bool.false_ne_true hway
  | some c =>
    rw [Process.inCall, hc, show (s.callPc j).underWay = true from hway, Bool.true_and,
      Option.any_some, ← hM.calls j c hc] at hfree'
    exact absurd hj (of_decide_eq_false hfree')

omit [DecidableEq ι] in
/-- The totals are those of the server. -/
theorem totals_eq (hR : Refines apart s m tc) :
    m.memTotalEnergyMap = s.server.mem.memTotalEnergyMap := by
  obtain ⟨call, ctr, order, cs, hM⟩ := hR.matched
  exact hM.linearized.totals

/-! ## One step -/

/-- A step of a thread outside its calls is a step of the server. -/
theorem threads (hR : Refines apart s m tc) {input : Option Chunk}
    (hpc : ∀ c cnt, s.server.pc i ≠ .handle c cnt)
    (h : ServerStep s.server (.http i input) S es) :
    ServerStep (s.atomic m tc) (.http i input)
        (({ s with server := S } : Process ι).atomic m tc) es
      ∧ Refines apart { s with server := S } m tc := by
  obtain ⟨hmem, htable, hpc', hscans⟩ := h.outside hpc
  obtain ⟨call, ctr, order, cs, hM⟩ := hR.matched
  have hnone : (s.server.pc i).call? = none := by
    cases hp : s.server.pc i with
    | handle c cnt => exact absurd hp (hpc c cnt)
    | guard | recv | count | respond | start | respondLate | finish | closed => rfl
  have hidle : s.callPc i = .check := hM.idle i hnone
  have hafter : (s.server.pc i).after (s.callPc i) = s.server.pc i := by
    rw [hidle]
    exact HttpPc.after_of_not_effective rfl _
  have hother : ∀ j, j ≠ i → S.pc j = s.server.pc j := by
    intro j hj
    rw [hpc']
    exact Function.update_of_ne hj ..
  have hatomic : (⟨S, s.mutex, s.callPc, s.rows⟩ : Process ι).atomicPc
      = Function.update s.atomicPc i (S.pc i) := by
    funext j
    show (S.pc j).after (s.callPc j) = _
    by_cases hj : j = i
    · rw [hj, Function.update_self, hidle, HttpPc.after_of_not_effective rfl]
    · rw [Function.update_of_ne hj, hother j hj]
      rfl
  have hcalls : ∀ j, s.callPc j ≠ .check → (S.pc j).call? = (s.server.pc j).call? := by
    intro j hj
    rw [hother j fun hji => hj (hji ▸ hidle)]
  have hcall : ∀ j id, s.inCall j id = false →
      ({ s with server := S } : Process ι).inCall j id = false := by
    intro j id hj
    by_cases hji : j = i
    · subst hji
      show ((s.callPc j).underWay && _) = false
      rw [hidle]
      rfl
    · show ((s.callPc j).underWay && (S.pc j).call?.any _) = false
      rw [hother j hji]
      exact hj
  refine ⟨?_, ?_, fun hap => ?_⟩
  · unfold Process.atomic
    rw [hatomic]
    exact h.around hpc m tc s.atomicPc hafter
  · have hshared : ({ s with server := S } : Process ι).shared = s.shared := by
      show (⟨S.mem, _, _⟩ : Shared ι) = _
      rw [hmem]
      rfl
    obtain ⟨call', hM'⟩ := hM.exchange hshared hcalls fun j hj => by
      by_cases hji : j = i
      · rw [hji, hidle]
      · exact hM.idle j (hother j hji ▸ hj)
    exact ⟨call', ctr, order, cs, hM'⟩
  · rcases hscans with hscans | hscans
    · exact (hR.rows hap).of_apart rfl htable hscans fun id _ hfree =>
        ⟨congrArg (fun m : Mem => m.memToCollects id) hmem, fun j => hcall j id (hfree j)⟩
    · exact (hR.rows hap).of_start rfl htable hmem hscans hcall

/-- A thread comes back from `handle_request`. -/
theorem leave (hR : Refines apart s m tc) (cnt : UInt32)
    (hend : s.callPc i = .check ∨ (s.callPc i).ended = true) :
    Refines apart (s.leave i cnt) m tc := by
  obtain ⟨call, ctr, order, cs, hM⟩ := hR.matched
  obtain ⟨order', hM'⟩ := hM.leave cnt hend
  refine ⟨⟨call, ctr, order', cs, hM'⟩, fun hap => ?_⟩
  refine (hR.rows hap).of_apart rfl rfl rfl fun id _ hfree => ⟨rfl, fun j => ?_⟩
  by_cases hji : j = i
  · subst hji
    show ((Function.update s.callPc j .check j).underWay && _) = false
    rw [Function.update_self]
    rfl
  · show ((Function.update s.callPc i .check j).underWay
      && (Function.update s.server.pc i (afterHandle cnt) j).call?.any _) = false
    rw [Function.update_of_ne hji, Function.update_of_ne hji]
    exact hfree j

/-- A chunk that asks for no record is a request that the server handles at once. -/
theorem disposes (hR : Refines apart s m tc) {input : Option Chunk} {c : Chunk} {cnt : UInt32}
    (hpc : s.server.pc i = .handle c cnt) (hcall : c.call? = none) {m' : Mem}
    (hm : handleRequest c.line c.len s.server.mem = .ok m') :
    ServerStep (s.atomic m tc) (.http i input) ((s.leave i cnt).atomic m tc) [.handled cnt]
      ∧ Refines apart (s.leave i cnt) m tc
      ∧ timely (.http i input) (s.atomic m tc) = true := by
  have hidle : s.callPc i = .check := by
    obtain ⟨call, ctr, order, cs, hM⟩ := hR.matched
    exact hM.idle i (by rw [hpc]; exact hcall)
  have hpc' : (s.atomic m tc).pc i = .handle c cnt := by
    show (s.server.pc i).after (s.callPc i) = _
    rw [hpc, hidle, HttpPc.after_of_not_effective rfl]
  have hnone := Chunk.call?_eq_none.mp hcall
  refine ⟨?_, hR.leave cnt (Or.inl hidle), ?_⟩
  · rw [Process.atomic_leave]
    refine .handles i c cnt hpc' m (Chunk.handleRequest_of_none hnone hm fun id h => ?_)
    obtain ⟨call, ctr, order, cs, hM⟩ := hR.matched
    exact hM.linearized.returnsUnlocked h
  · rw [timely_of_pc hpc', hnone]
    rfl

end Refines

omit [DecidableEq ι] in
/-- **The instant of a call that takes something is its credit.** -/
theorem Linearized.credits_of_accepts [DecidableEq ι] {ces : List (Event ι)}
    {sh sh' : Shared ι} (hR : Linearized call ctr sh order (m, cs))
    (h : StepOf call i sh sh' ces) (heff : (sh.pc i).effective = false)
    (heff' : (sh'.pc i).effective = true) {r' : MemToCollect}
    (hr' : m.memToCollects (call i).request.id = some r')
    (hacc : r'.rejects (call i).request.userId = false) :
    sh.pc i = .credit ∧ ∃ r, sh.slot (call i).request.id = some r
      ∧ r.rejects (call i).request.userId = false
      ∧ r.amount (call i).request.userId = r'.amount (call i).request.userId := by
  have hview : ∀ r, sh.slot (call i).request.id = some r → (sh.pc i).inside = true →
      (sh.pc i).finish (call i).request.userId r = r → r'.mark = r.mark := by
    intro r hr hin hfin
    have hslot := hR.slots (call i).request.id
    rw [hR.locked.view_of_inside hin, hr, Option.map_some, hfin,
      show (m, cs).1.memToCollects (call i).request.id = some r' from hr'] at hslot
    exact Option.some.inj hslot
  cases h with
  | checks hpc | marks hpc | locks hpc | accepts hpc =>
    rw [Shared.pc_goto_self] at heff'
    exact absurd heff' Bool.false_ne_true
  | debits _ hpc | closes hpc | unlocks _ hpc =>
    rw [hpc] at heff
    exact absurd heff.symm Bool.false_ne_true
  | returns hpc hun =>
    have hun' := hR.returnsUnlocked hun
    rw [show (m, cs).1.memToCollects (call i).request.id = some r' from hr'] at hun'
    rw [MemToCollect.rejects_of_allCollected (of_decide_eq_true hun')] at hacc
    cases hacc
  | rejects hpc r hr hrej =>
    have hmark := hview r hr (by rw [hpc]; rfl) (by rw [hpc]; rfl)
    rw [MemToCollect.rejects_eq_of_mark_eq hmark, hrej] at hacc
    cases hacc
  | credits hpc r hr =>
    have hmark := hview r hr (by rw [hpc]; rfl) (by rw [hpc]; rfl)
    exact ⟨hpc, r, hr, (MemToCollect.rejects_eq_of_mark_eq hmark).symm.trans hacc,
      (MemToCollect.amount_eq_of_mark_eq hmark).symm⟩

/-- Who steps has begun or is about to. -/
theorem StepOf.underWay {ces : List (Event ι)} {sh sh' : Shared ι}
    (h : StepOf call i sh sh' ces) : sh.pc i = .check ∨ (sh.pc i).underWay = true := by
  cases h with
  | returns hpc | checks hpc => exact Or.inl hpc
  | marks hpc | locks hpc | rejects hpc | accepts hpc | credits hpc | debits _ hpc
  | closes hpc | unlocks _ hpc =>
    rw [hpc]
    exact Or.inr rfl

/-- A step of a call leaves the rows alone that are open: they are of other records. -/
theorem Rows.of_call [Fintype ι] {tc : ToCollectTable} (hT : Rows s tc) {input : Option Chunk}
    (hcall : (s.server.pc i).call? = some (call i)) {sh : Shared ι} {ces : List (Event ι)}
    (h : StepOf call i s.shared sh ces) (hap : keepsApart (.http i input) s = true) :
    Rows (s.withShared sh) tc := by
  refine hT.of_apart rfl rfl rfl fun id hopen hfree => ?_
  have hid : id ≠ (call i).request.id := by
    rintro rfl
    unfold keepsApart at hap
    dsimp only at hap
    rw [hcall, Option.all_some, hopen, Bool.not_true, Bool.or_false] at hap
    have hfree' := hfree i
    rw [Process.inCall, hcall, Option.any_some, decide_eq_true rfl, Bool.and_true] at hfree'
    rcases h.underWay with hcheck | hway
    · exact of_decide_eq_true hap hcheck
    · exact Bool.false_ne_true (hfree'.symm.trans hway)
  refine ⟨h.slot_of_ne hid, fun j => ?_⟩
  show ((sh.pc j).underWay && (s.server.pc j).call?.any _) = false
  by_cases hji : j = i
  · subst hji
    rw [hcall, Option.any_some, decide_eq_false (Ne.symm hid), Bool.and_false]
  · rw [show sh.pc j = s.callPc j from h.pc_of_ne hji]
    exact hfree j

namespace Refines

variable {tc : ToCollectTable}

/-- **A step of a call** is nothing to the server, or is where it handles the request. -/
theorem steps [Fintype ι] (hR : Refines apart s m tc) {input : Option Chunk} {c : Chunk}
    {cnt : UInt32} {d : Call} (hpc : s.server.pc i = .handle c cnt) (hcall : c.call? = some d)
    {sh : Shared ι} {ces : List (Event ι)}
    (h : microStep (fun _ => d) i s.shared = some (sh, ces))
    (hap : apart → keepsApart (.http i input) s = true) :
    ((s.withShared sh).atomic m tc = s.atomic m tc ∧ Refines apart (s.withShared sh) m tc)
      ∨ ∃ m', ServerStep (s.atomic m tc) (.http i input) ((s.withShared sh).atomic m' tc)
          [.handled cnt]
        ∧ Refines apart (s.withShared sh) m' tc
        ∧ (creditsInTime (.http i input) s = true →
          timely (.http i input) (s.atomic m tc) = true) := by
  obtain ⟨call, ctr, order, cs, hM⟩ := hR.matched
  have hcall' : (s.server.pc i).call? = some d := by
    rw [hpc]
    exact hcall
  obtain rfl := hM.calls i d hcall'
  obtain ⟨hchunk, hreq⟩ := Chunk.call?_eq_some.mp hcall
  have hstep : StepOf call i s.shared sh ces :=
    stepOf_of_microStep ((microStep_congr rfl).symm.trans h)
  have hother : ∀ j, j ≠ i → sh.pc j = s.callPc j := fun j hj => hstep.pc_of_ne hj
  have hidle : ∀ j, ((s.withShared sh).server.pc j).call? = none →
      (s.withShared sh).callPc j = .check := by
    intro j hj
    have hji : j ≠ i := by
      rintro rfl
      exact absurd (hcall'.symm.trans hj) (Option.some_ne_none _)
    exact (hother j hji).trans (hM.idle j hj)
  have hrows : apart → Rows (s.withShared sh) tc := fun ha =>
    (hR.rows ha).of_call hcall' hstep (hap ha)
  rcases hM.linearized.step hstep with hL | hL
  · have heff : (sh.pc i).effective = (s.callPc i).effective :=
      Bool.eq_iff_iff.mpr ((hL.mem_iff i).symm.trans (hM.linearized.mem_iff i))
    exact Or.inl ⟨Process.atomic_withShared m tc hother heff,
      ⟨call, _, order, cs, hM.calls, hidle, hL, hM.flagged.silent hstep heff⟩, hrows⟩
  · have heff' : (sh.pc i).effective = true :=
      (hL.mem_iff i).mp (List.mem_append_right _ (List.mem_singleton_self i))
    have heff : (s.callPc i).effective = false := by
      rw [Bool.eq_false_iff]
      intro heff
      have hin := (hM.linearized.mem_iff i).mpr heff
      exact (List.disjoint_of_nodup_append hL.nodup) hin (List.mem_singleton_self i)
    have hpc' : (s.atomic m tc).pc i = .handle c cnt := by
      show (s.server.pc i).after (s.callPc i) = _
      rw [hpc, HttpPc.after_of_not_effective heff]
    refine Or.inr ⟨collectEnergy (call i).request m, ?_,
      ⟨⟨call, _, _, _, hM.calls, hidle, hL,
        hM.flagged.instant hM.linearized hstep heff heff'⟩, hrows⟩, fun hin => ?_⟩
    · rw [Process.atomic_withShared_of_effective _ tc hother hpc heff']
      exact .handles i c cnt hpc' _ (hchunk ▸ (call i).handleRequest_eq m)
    · rw [timely_of_pc hpc', hreq, Option.elim_some, Server.takesInTime_iff]
      intro r' hr' hacc
      obtain ⟨hcredit, r, hr, hacc', hamt⟩ :=
        hM.linearized.credits_of_accepts hstep heff heff' hr' hacc
      unfold creditsInTime at hin
      dsimp only at hin
      rw [hcall', Option.all_some, show s.callPc i = .credit from hcredit] at hin
      have hin' := Server.takesInTime_iff.mp (by simpa using hin) r hr hacc'
      rw [hamt] at hin'
      exact hin'

omit [DecidableEq ι] in
/-- A flush goes on in the middle of a row. -/
theorem reads (hR : Refines apart s m tc) {k : ℕ} {id : RecordId} {ids : List RecordId}
    {pc : RowPc} (hk : s.server.toCollectScans[k]? = some (id :: ids)) (hpc : pc ≠ .modified)
    (hread : apart → (∀ j, s.inCall j id = false)
      ∧ ∃ r, s.server.mem.memToCollects id = some r ∧ r.modified = true
        ∧ ∀ newStatus, pc = .energy newStatus → newStatus = r.newStatus) :
    Refines apart (s.toField k pc) m tc := by
  obtain ⟨call, ctr, order, cs, hM⟩ := hR.matched
  refine ⟨⟨call, ctr, order, cs, hM.calls, hM.idle, hM.linearized, hM.flagged⟩, fun ha => ?_⟩
  rw [(hR.rows ha).table]
  exact (hR.rows ha).of_read hk rfl rfl (Or.inl ⟨rfl, hpc⟩) (fun _ _ => rfl) fun _ => hread ha

/-- A flush is done with a row, and the server does it in one step. -/
theorem scans (hR : Refines apart s m tc) {k : ℕ} {id : RecordId} {ids : List RecordId}
    {r : MemToCollect} (hk : s.server.toCollectScans[k]? = some (id :: ids))
    (hr : s.server.mem.memToCollects id = some r) (tc₁ : ToCollectTable)
    (htable : apart → tc₁ = (updatesOf m id).foldl toCollectEnergyUpdate s.server.toCollect) :
    ∃ tc', ServerStep (s.atomic m tc) (.scanRecord k) ((s.nextRow k ids tc₁).atomic m tc') []
      ∧ Refines apart (s.nextRow k ids tc₁) m tc' := by
  obtain ⟨call, ctr, order, cs, hM⟩ := hR.matched
  obtain ⟨r', hr'⟩ := hM.linearized.isSome_slot hr
  have hk' : (s.atomic m tc).toCollectScans[k]? = some (id :: ids) := hk
  have hus : flushRecord (s.atomic m tc).mem id = .ok (updatesOf m id) := by
    unfold flushRecord updatesOf
    rw [show (s.atomic m tc).mem.memToCollects id = some r' from hr',
      show m.memToCollects id = some r' from hr']
    rfl
  have hstep := ServerStep.scansRecord k id ids hk' (updatesOf m id) hus
  refine ⟨(updatesOf m id).foldl toCollectEnergyUpdate tc, hstep,
    ⟨call, ctr, order, cs, hM.calls, hM.idle, hM.linearized, hM.flagged⟩, fun ha => ?_⟩
  rw [(hR.rows ha).table, ← htable ha]
  exact (hR.rows ha).of_read hk rfl rfl (Or.inr ⟨rfl, rfl⟩) (fun _ _ => rfl)
    fun h => absurd rfl h

omit [DecidableEq ι] in
/-- The row of a record that is not marked is passed over on both sides. -/
theorem skips (hR : Refines apart s m tc) {id : RecordId} {r : MemToCollect}
    (hr : s.server.mem.memToCollects id = some r) (hmod : r.modified = false) :
    updatesOf m id = [] := by
  obtain ⟨call, ctr, order, cs, hM⟩ := hR.matched
  unfold updatesOf
  cases hr' : m.memToCollects id with
  | none => rfl
  | some r' =>
    refine if_neg fun hmod' => ?_
    exact absurd ((hM.flagged.made id r r' hr hr' hmod').symm.trans hmod) Bool.noConfusion

omit [DecidableEq ι] in
/-- The row of a record that is read apart from the calls is written as it is there. -/
theorem writes (hR : Refines apart s m tc) (ha : apart) {k : ℕ} {id : RecordId}
    {ids : List RecordId} {r : MemToCollect} {newStatus : List UInt8}
    (hk : s.server.toCollectScans[k]? = some (id :: ids))
    (hrow : s.rows k = .energy newStatus) (hr : s.server.mem.memToCollects id = some r) :
    updatesOf m id = [⟨r.toCollectEnergy.toInt32, newStatus, (id : ℕ)⟩] := by
  obtain ⟨hfree, r₁, hr₁, hmod, hstatus⟩ := (hR.rows ha).read k id ids hk
    (by rw [hrow]; exact RowPc.noConfusion)
  obtain rfl : r = r₁ := Option.some.inj (hr.symm.trans hr₁)
  unfold updatesOf
  rw [← hR.slot_eq hfree, hr, Option.elim_some, if_pos hmod, hstatus newStatus hrow]
  rfl

/-- A step of a flush of the totals is one of the server. -/
theorem totals (hR : Refines apart s m tc) {k : ℕ} {us : List CString}
    (h : ServerStep s.server (.scanTotal k us) S es) :
    ServerStep (s.atomic m tc) (.scanTotal k us)
        (({ s with server := S } : Process ι).atomic m tc) es
      ∧ Refines apart { s with server := S } m tc := by
  obtain ⟨call, ctr, order, cs, hM⟩ := hR.matched
  obtain ⟨hstep, hmem, htable, hpc, hscans⟩ :=
    h.aroundTotal hM.linearized.totals tc s.atomicPc
  have hatomic : (⟨S, s.mutex, s.callPc, s.rows⟩ : Process ι).atomicPc = s.atomicPc := by
    unfold Process.atomicPc
    rw [hpc]
  have hshared : (⟨S, s.mutex, s.callPc, s.rows⟩ : Process ι).shared = s.shared := by
    unfold Process.shared
    rw [hmem]
  refine ⟨?_, ?_, fun ha => ?_⟩
  · unfold Process.atomic
    rw [hatomic]
    exact hstep
  · obtain ⟨call', hM'⟩ := hM.exchange hshared (fun j _ => by rw [hpc])
      (fun j hj => hM.idle j (by rw [← hpc]; exact hj))
    exact ⟨call', ctr, order, cs, hM'⟩
  · refine (hR.rows ha).of_apart rfl htable hscans fun id _ hfree => ⟨by rw [hmem], fun j => ?_⟩
    have hfree' := hfree j
    unfold Process.inCall at hfree' ⊢
    dsimp only
    rw [hpc]
    exact hfree'

/-- **A step of the process is a step of the server, or nothing.** -/
theorem step [Fintype ι] (hR : Refines apart s m tc) (h : ProcessStep s a s' es)
    (hap : apart → keepsApart a s = true) :
    (s'.atomic m tc = s.atomic m tc ∧ Refines apart s' m tc ∧ es.filter HttpEvent.seen = [])
      ∨ ∃ m' tc' es', ServerStep (s.atomic m tc) a (s'.atomic m' tc') es'
        ∧ Refines apart s' m' tc' ∧ es'.filter HttpEvent.seen = es.filter HttpEvent.seen
        ∧ (creditsInTime a s = true → timely a (s.atomic m tc) = true) := by
  cases h with
  | threads i hpc S es h =>
    obtain ⟨hstep, hR'⟩ := hR.threads hpc h
    refine Or.inr ⟨m, tc, es, hstep, hR', rfl, fun _ => timely_of_not_handle fun c cnt hc => ?_⟩
    -- a thread that is not at its call is not taken to be there
    change (s.server.pc i).after (s.callPc i) = _ at hc
    cases hp : s.server.pc i with
    | handle c' cnt' => exact hpc c' cnt' hp
    | guard | recv | count | respond | start | respondLate | finish | closed =>
      rw [hp] at hc
      cases hc
  | disposes i c cnt hpc hcall m' hm =>
    obtain ⟨hstep, hR', htimely⟩ := hR.disposes hpc hcall hm
    exact Or.inr ⟨m, tc, _, hstep, hR', rfl, fun _ => htimely⟩
  | steps i c cnt d hpc hcall sh ces hstep =>
    rcases hR.steps hpc hcall hstep hap with ⟨hsame, hR'⟩ | ⟨m', hstep', hR', htimely⟩
    · exact Or.inl ⟨hsame, hR', rfl⟩
    · exact Or.inr ⟨m', tc, _, hstep', hR', rfl, htimely⟩
  | returns i c cnt d hpc hcall hend =>
    refine Or.inl ⟨?_, hR.leave cnt (Or.inr hend), rfl⟩
    have hafter : (s.atomic m tc).pc i = afterHandle cnt := by
      show (s.server.pc i).after (s.callPc i) = _
      rw [hpc]
      exact if_pos (Pc.effective_of_ended hend)
    rw [Process.atomic_leave, Server.goto, ← hafter, Function.update_eq_self]
  | reads k id ids hk hrow r hr hmod =>
    refine Or.inl ⟨rfl, hR.reads hk RowPc.noConfusion fun ha => ⟨?_, r, hr, hmod, ?_⟩, rfl⟩
    · have hfree := hap ha
      unfold keepsApart at hfree
      dsimp only at hfree
      rw [hk] at hfree
      exact of_decide_eq_true hfree
    · exact fun newStatus h => absurd h RowPc.noConfusion
  | skips k id ids hk hrow r hr hmod =>
    obtain ⟨tc', hstep, hR'⟩ := hR.scans hk hr s.server.toCollect fun _ => by
      rw [hR.skips hr hmod]
      rfl
    exact Or.inr ⟨m, tc', [], hstep, hR', rfl, fun _ => rfl⟩
  | readsStatus k id ids hk hrow r hr =>
    refine Or.inl ⟨rfl, hR.reads hk RowPc.noConfusion fun ha => ?_, rfl⟩
    obtain ⟨hfree, r₁, hr₁, hmod, -⟩ := (hR.rows ha).read k id ids hk
      (by rw [hrow]; exact RowPc.noConfusion)
    obtain rfl : r = r₁ := Option.some.inj (hr.symm.trans hr₁)
    exact ⟨hfree, r, hr, hmod, fun newStatus h => (RowPc.energy.inj h).symm⟩
  | writes k id ids newStatus hk hrow r hr =>
    obtain ⟨tc', hstep, hR'⟩ := hR.scans hk hr _ fun ha => by
      rw [hR.writes ha hk hrow hr, List.foldl_cons, List.foldl_nil]
    exact Or.inr ⟨m, tc', [], hstep, hR', rfl, fun _ => rfl⟩
  | totals k us S es h =>
    obtain ⟨hstep, hR'⟩ := hR.totals h
    exact Or.inr ⟨m, tc, es, hstep, hR', rfl, fun _ => rfl⟩

end Refines

/-! ## Runs -/

omit [DecidableEq ι] in
theorem Refines.start {db : Database} (hl : Loaded db m) :
    Refines apart (Process.start m db : Process ι) m db.toCollect := by
  refine ⟨⟨fun _ => raceCalls 0, [], [], [], fun i c hc => ?_, fun _ _ => rfl,
    Linearized.start _ m, fun id r hr hs => ?_, fun id r r' hr hr' hm => ?_,
    fun id r r' hr hr' hm => ?_⟩, fun _ => ⟨rfl, fun _ _ => rfl, fun k id ids hk => ?_⟩⟩
  · cases hc
  · obtain ⟨row, -, -, rfl⟩ := hl.exists_row hr
    exact absurd rfl hs
  · exact (Option.some.inj (hr.symm.trans hr')) ▸ hm
  · exact Or.inl ((Option.some.inj (hr.symm.trans hr')) ▸ hm)
  · cases hk

/-- **A run of the server follows a run of the process**: the process refines the server
it has come to, and the two show the same up to the moments of the handling. -/
def Follows (apart : Prop) (tr : List HttpEvent) (s : Process ι) (tr' : List HttpEvent)
    (t : Server ι) : Prop :=
  ∃ m tc, t = s.atomic m tc ∧ Refines apart s m tc
    ∧ tr'.filter HttpEvent.seen = tr.filter HttpEvent.seen

theorem Follows.step [Fintype ι] {tr tr' : List HttpEvent} {q : Action ι → Server ι → Bool}
    (hF : Follows apart tr s tr' t) (h : ProcessStep s a s' es)
    (hap : apart → keepsApart a s = true)
    (hq : (creditsInTime a s = true → timely a t = true) → q a t = true) :
    Follows apart (tr ++ es) s' tr' t
      ∨ ∃ a' t' es', only q serverStep a' t = some (t', es')
        ∧ Follows apart (tr ++ es) s' (tr' ++ es') t' := by
  obtain ⟨m, tc, rfl, hR, htr⟩ := hF
  rcases hR.step h hap with ⟨hsame, hR', hes⟩ | ⟨m', tc', es', hstep, hR', hes, htimely⟩
  · refine Or.inl ⟨m, tc, hsame.symm, hR', ?_⟩
    rw [List.filter_append, hes, List.append_nil, htr]
  · refine Or.inr ⟨a, _, es', only_eq_some.mpr ⟨hq htimely, hstep.serverStep_eq⟩, m', tc', rfl,
      hR', ?_⟩
    rw [List.filter_append, List.filter_append, hes, htr]

/-- **Every run of the process is followed by one of the server**, and if the steps of the
one satisfy a condition, those of the other satisfy the condition that comes of it. -/
theorem Refines.run [Fintype ι] {db : Database} {tr : List HttpEvent}
    {p : Action ι → Process ι → Bool} {q : Action ι → Server ι → Bool} (hl : Loaded db m)
    (hap : ∀ a s, p a s = true → apart → keepsApart a s = true)
    (hq : ∀ a s t, p a s = true → (creditsInTime a s = true → timely a t = true) →
      q a t = true)
    (h : Run (only p processStep) (Process.start m db) tr s) :
    ∃ tr' t, Run (only q serverStep) (Server.start m db) tr' t ∧ Follows apart tr s tr' t :=
  Run.forward (R := Follows apart) ⟨m, db.toCollect, rfl, Refines.start hl, rfl⟩
    (fun _ s _ t a _ _ _ hF hs => by
      obtain ⟨hp, hs⟩ := only_eq_some.mp hs
      exact hF.step (processStep_cases hs) (hap a s hp) (hq a s t hp)) h

end Match

variable {m : Mem} {db : Database} {tr : List HttpEvent} {s : Process ι}

/-- The chunks received do not depend on when they are handled. -/
theorem chunksOf_filter_seen (tr : List HttpEvent) :
    chunksOf (tr.filter HttpEvent.seen) = chunksOf tr := by
  unfold chunksOf
  rw [List.filterMap_filter]
  refine congrArg (fun f => tr.filterMap f) (funext fun e => ?_)
  cases e <;> rfl

/-- Neither does how many are done. -/
theorem done_filter_seen (tr : List HttpEvent) :
    done (tr.filter HttpEvent.seen) = done tr := by
  unfold done
  rw [List.countP_filter]
  refine congrArg (fun f => tr.countP f) (funext fun e => ?_)
  cases e <;> rfl

/-- A thread with no chunk at hand has none for the server. -/
theorem HttpPc.chunk?_after {pc : HttpPc} (h : pc.chunk? = none) (p : Pc) :
    (pc.after p).chunk? = none := by
  cases pc with
  | handle => cases h
  | guard | recv | count | respond | start | respondLate | finish | closed => exact h

omit [DecidableEq ι] in
/-- And it is in no call. -/
theorem Process.inCall_of_chunk? (h : ∀ i, (s.server.pc i).chunk? = none) (j : ι)
    (id : RecordId) : s.inCall j id = false := by
  unfold inCall
  have hnone : (s.server.pc j).call? = none := by
    have hj := h j
    cases hp : s.server.pc j with
    | handle c cnt =>
      rw [hp] at hj
      cases hj
    | guard | recv | count | respond | start | respondLate | finish | closed => rfl
  rw [hnone, Option.any_none, Bool.and_false]

/-- Every run of the process is followed by one of the server. -/
theorem ProcessRun.exists_follows [Fintype ι] (hload : loadInMem db = .ok m)
    (h : ProcessRun m db tr s) :
    ∃ tr' t, ServerRun m db tr' t ∧ Follows False tr s tr' t := by
  have h' : Run (only (fun _ _ => true) processStep) (Process.start m db) tr s := by
    rw [only_true]
    exact h
  obtain ⟨tr', t, hrun, hF⟩ := Refines.run (q := fun _ _ => true)
    (loaded_of_loadInMem hload) (fun _ _ _ (h : False) => h.elim) (fun _ _ _ _ _ => rfl) h'
  exact ⟨tr', t, Run.of_only hrun, hF⟩

/-- **The process refines the server.** For every run of the process there is a run of
the server that shows the same, up to the moments at which requests are handled, and
ends where the process is: with its counters and totals, its table of the totals, its
flushes and its threads, save that a thread whose call has taken effect is past it; and
with its records, save those for which a call is under way. -/
theorem process_refines [Fintype ι] (hload : loadInMem db = .ok m)
    (h : ProcessRun m db tr s) :
    ∃ tr' t, ServerRun m db tr' t
      ∧ tr'.filter HttpEvent.seen = tr.filter HttpEvent.seen
      ∧ t = s.atomic t.mem t.toCollect
      ∧ t.mem.memTotalEnergyMap = s.server.mem.memTotalEnergyMap
      ∧ ∀ id, (∀ j, s.inCall j id = false) →
        t.mem.memToCollects id = s.server.mem.memToCollects id := by
  obtain ⟨tr', t, hrun, m', tc, rfl, hR, htr⟩ := ProcessRun.exists_follows hload h
  exact ⟨tr', _, hrun, htr, rfl, hR.totals_eq, fun id hfree => (hR.slot_eq hfree).symm⟩

/-- **The process is linearizable.** In every reachable state of the process, with any
number of threads that come with one request after another, and with the flushes at
work: when no chunk is at hand, the memory image is the one that `handle_request` leaves
when it is executed on all the chunks received, one after another in some order. -/
theorem process_linearizable [Fintype ι] (hload : loadInMem db = .ok m)
    (h : ProcessRun m db tr s) (hfree : ∀ i, (s.server.pc i).chunk? = none) :
    ∃ cs, cs.Perm (chunksOf tr) ∧ handleChunks cs m = .ok s.server.mem := by
  obtain ⟨tr', t, hrun, m', tc, rfl, hR, htr⟩ := ProcessRun.exists_follows hload h
  obtain ⟨cs, hH⟩ := ServerRun.exists_handled hrun
  have hmem : m' = s.server.mem :=
    Mem.ext (funext fun id => (hR.slot_eq (Process.inCall_of_chunk? hfree · id)).symm)
      hR.totals_eq
  have hnone : Server.atHand (s.atomic m' tc) = 0 := by
    refine Finset.sum_eq_zero fun i _ => ?_
    rw [show (s.atomic m' tc).pc i = (s.server.pc i).after (s.callPc i) from rfl,
      HttpPc.chunk?_after (hfree i)]
    rfl
  have hchunks := hH.chunks
  rw [hnone, add_zero, ← chunksOf_filter_seen tr', htr, chunksOf_filter_seen] at hchunks
  exact ⟨cs, Multiset.coe_eq_coe.mp hchunks, hmem ▸ hH.mem⟩

/-- How often a number is drawn does not depend on when requests are handled. -/
theorem count_numbered_of_filter {tr tr' : List HttpEvent}
    (h : tr'.filter HttpEvent.seen = tr.filter HttpEvent.seen) (n : UInt32) :
    tr'.count (.numbered n) = tr.count (.numbered n) := by
  have hseen : HttpEvent.seen (.numbered n) = true := rfl
  rw [← List.count_filter hseen, h, List.count_filter hseen]

/-- **The protocol of a request.** With at most `2^32 - REQ_TOTAL_CNT` connections, in every
reachable state of the process: a number is drawn at most once; its request is answered,
handled and counted as done at most once, and exactly once when no thread has it at hand
any more. An ordinary request is answered before it is handled; one that triggers a flush
is handled, starts the flush and is answered then. -/
theorem request_protocol [Fintype ι] (hT : Fintype.card ι ≤ 2 ^ 32 - reqTotalCnt)
    (hload : loadInMem db = .ok m) (h : ProcessRun m db tr s) (n : UInt32) :
    Protocol n tr s.server.pc := by
  obtain ⟨tr', t, hrun, -, -, -, -, htr⟩ := ProcessRun.exists_follows hload h
  refine (threaded_process m db).protocol h ?_
  rw [← count_numbered_of_filter htr]
  exact ServerRun.count_numbered_le_one hT hrun n

/-- Two connections whose calls for one record overlap: that of the other user passes
the first check before that of the owner begins, and gets the lock when it has
returned. -/
def overlap (c c' : Chunk) : List (Action Bool) :=
  [.http false none, .http true none, .http false (some c), .http true (some c')]
    ++ [false, true, false, true, true, true, false, false, false, false, false, false, false,
      false, false, true, true, true, true].map fun b => .http b none

/-- In the middle of it the server has handled the one request and not the other. -/
theorem process_refines_overlap :
    ∃ (m : Mem) (s : Process Bool) (t : Server Bool) (tr tr' : List HttpEvent),
      ProcessRun m tenUnitsDb tr s ∧ ServerRun m tenUnitsDb tr' t
        ∧ s.inCall true 1 = true ∧ t.mem.memTotalEnergyMap = s.server.mem.memTotalEnergyMap := by
  have hexec : (loadInMem tenUnitsDb).toOption.bind (fun m =>
      (Run.exec processStep
        ((overlap (raceCalls 0).chunk (raceCalls 1).chunk).take 19)
        (Process.start m tenUnitsDb)).map fun p => p.1.inCall true 1) = some true := by
    decide +kernel
  obtain ⟨m, hm, hrest⟩ := Option.bind_eq_some_iff.mp hexec
  obtain ⟨⟨s, tr⟩, hrun, hin⟩ := Option.map_eq_some_iff.mp hrest
  have hrun' : ProcessRun m tenUnitsDb tr s := Run.of_exec hrun
  obtain ⟨tr', t, hserver, -, -, htotals, -⟩ := process_refines (eq_ok_of_toOption hm) hrun'
  exact ⟨m, s, t, tr, tr', hrun', hserver, hin, htotals⟩

/-- In the end both have been handled, in some order. -/
theorem process_linearizable_overlap :
    ∃ (m : Mem) (s : Process Bool) (cs : List Chunk),
      cs.Perm [(raceCalls 0).chunk, (raceCalls 1).chunk]
        ∧ handleChunks cs m = .ok s.server.mem := by
  have hexec : (loadInMem tenUnitsDb).toOption.bind (fun m =>
      (Run.exec processStep (overlap (raceCalls 0).chunk (raceCalls 1).chunk)
        (Process.start m tenUnitsDb)).map fun p =>
          (chunksOf p.2, decide (∀ i, (p.1.server.pc i).chunk? = none)))
      = some ([(raceCalls 0).chunk, (raceCalls 1).chunk], true) := by
    decide +kernel
  obtain ⟨m, hm, hrest⟩ := Option.bind_eq_some_iff.mp hexec
  obtain ⟨⟨s, tr⟩, hrun, heq⟩ := Option.map_eq_some_iff.mp hrest
  obtain ⟨hchunks, hfree⟩ := Prod.mk.inj heq
  have hrun' : ProcessRun m tenUnitsDb tr s := Run.of_exec hrun
  obtain ⟨cs, hperm, hmem⟩ :=
    process_linearizable (eq_ok_of_toOption hm) hrun' (of_decide_eq_true hfree)
  exact ⟨m, s, cs, hchunks ▸ hperm, hmem⟩

/-- And the request that has drawn the first number has been answered and then handled. -/
theorem request_protocol_overlap :
    ∃ (m : Mem) (s : Process Bool) (tr : List HttpEvent), ProcessRun m tenUnitsDb tr s
      ∧ tr.count (.responded 1) = 1 ∧ tr.count (.handled 1) = 1
      ∧ Precedes (.responded 1) (.handled 1) tr := by
  have hexec : (loadInMem tenUnitsDb).toOption.bind (fun m =>
      (Run.exec processStep
        (overlap (raceCalls 0).chunk (raceCalls 1).chunk ++ [.http false none])
        (Process.start m tenUnitsDb)).map fun p =>
          (p.2.count (.numbered 1), decide (∀ i, (p.1.server.pc i).holds 1 = false)))
      = some (1, true) := by
    decide +kernel
  obtain ⟨m, hm, hrest⟩ := Option.bind_eq_some_iff.mp hexec
  obtain ⟨⟨s, tr⟩, hrun, heq⟩ := Option.map_eq_some_iff.mp hrest
  obtain ⟨hnum, hnone⟩ := Prod.mk.inj heq
  have hrun' : ProcessRun m tenUnitsDb tr s := Run.of_exec hrun
  have hP := request_protocol (by decide) (eq_ok_of_toOption hm) hrun' 1
  have hserved := hP.served (of_decide_eq_true hnone)
  exact ⟨m, s, tr, hrun', (hserved _ .responded).trans hnum, (hserved _ .handled).trans hnum,
    hP.sequenced.ordinary (by decide)⟩

end GreenFinal
