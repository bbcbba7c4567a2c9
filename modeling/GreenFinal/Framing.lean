import GreenFinal.Progress

/-!
# One `recv`, one request

`func_http` takes what one `recv` delivers for one request. It keeps nothing from
one `recv` to the next, does not look for the end of the headers, and does not
look behind the first request of a chunk. So what a connection brings about is
a matter of how its bytes are cut: per chunk there is one number, one call of
`handle_request`, one answer and one request done (`one_request_per_chunk`).
Where every chunk is one request, that is what its client asked for; a request
that arrives in two chunks is counted and answered twice and collects nothing
(`cut_request_lost`).

Here one connection is served alone. The flushes, which touch neither the
image nor the counters, may run beside it.
-/

open CLib Interleave

namespace GreenFinal

namespace HttpPc

/-- The answers due to the chunk at hand. A trigger answers after it has handled
its request, all others before. -/
def unanswered : HttpPc → ℕ
  | .count _ | .start _ | .respondLate _ => 1
  | .respond _ cnt => 1 + (isTrigger cnt).toNat
  | .handle _ cnt => (isTrigger cnt).toNat
  | _ => 0

/-- The requests to be counted as done for the chunk at hand. -/
def undone : HttpPc → ℕ
  | .guard | .recv | .closed => 0
  | _ => 1

end HttpPc

/-- How many answers have been sent. -/
def responses (tr : List HttpEvent) : ℕ :=
  tr.countP fun e => match e with
    | .responded _ => true
    | _ => false

theorem responses_append (tr es : List HttpEvent) :
    responses (tr ++ es) = responses tr + responses es :=
  List.countP_append

/-- `handle_request` on the chunks of a list, one call after another. -/
def handleChunks (cs : List Chunk) (m : Mem) : Except Fault Mem :=
  cs.foldlM (fun m c => handleRequest c.line c.len m) m

theorem handleChunks_concat {cs : List Chunk} {c : Chunk} {m m₁ m₂ : Mem}
    (h₁ : handleChunks cs m = .ok m₁) (h₂ : handleRequest c.line c.len m₁ = .ok m₂) :
    handleChunks (cs ++ [c]) m = .ok m₂ := by
  unfold handleChunks at h₁ ⊢
  rw [List.foldlM_append, h₁]
  show (handleRequest c.line c.len m₁ >>= pure) = _
  rw [h₂]
  rfl

/-- What chunks that are whole requests bring about. -/
theorem handleChunks_requests {rs : List HttpRequest} {cs : List Chunk}
    (h : cs.map Chunk.data = rs.map HttpRequest.bytes) (m : Mem) :
    handleChunks cs m = .ok (collectAll m (rs.map HttpRequest.request)) := by
  induction cs generalizing rs m with
  | nil =>
    obtain rfl := List.map_eq_nil_iff.mp h.symm
    rfl
  | cons c cs ih =>
    cases rs with
    | nil => exact absurd h (List.cons_ne_nil _ _)
    | cons r rs =>
      obtain ⟨hc, hcs⟩ := List.cons_eq_cons.mp h
      have hcall : handleRequest c.line c.len m = .ok (collectEnergy r.request m) :=
        (Call.ofHttp r c hc).handleRequest_eq m
      show (handleRequest c.line c.len m >>= fun m => handleChunks cs m) = _
      rw [hcall]
      exact ih hcs _

variable {ι : Type*} [DecidableEq ι] {i : ι} {tr es : List HttpEvent}
  {s₀ s s' : Server ι} {input : Option Chunk}

/-! ## One chunk at a time -/

/-- **What a step does with the chunk at hand**: the balance of what has been
received, answered, numbered and done, and the effect on the image. -/
theorem ServerStep.chunk (h : ServerStep s (.http i input) s' es) :
    responses es + (s'.pc i).unanswered = (chunksOf es).length + (s.pc i).unanswered
      ∧ drawn es + (s'.pc i).atCount.toNat = (chunksOf es).length + (s.pc i).atCount.toNat
      ∧ done es + (s'.pc i).undone = (chunksOf es).length + (s.pc i).undone
      ∧ ((s'.mem = s.mem
          ∧ (s.pc i).chunk?.toList ++ chunksOf es = (s'.pc i).chunk?.toList)
        ∨ ∃ c, (s.pc i).chunk? = some c ∧ (s'.pc i).chunk? = none ∧ chunksOf es = []
          ∧ handleRequest c.line c.len s.mem = .ok s'.mem) := by
  cases h with
  | enters _ hpc | leaves _ hpc | receives _ hpc | ends _ hpc | startsToCollect _ _ hpc
  | startsTotal _ _ hpc | respondsLate _ _ hpc | finishes _ _ hpc =>
    rw [hpc, Server.pc_goto]
    exact ⟨rfl, rfl, rfl, Or.inl ⟨rfl, rfl⟩⟩
  | responds _ c cnt hpc =>
    rw [hpc, Server.pc_goto]
    exact ⟨(Nat.zero_add _).symm, rfl, rfl, Or.inl ⟨rfl, rfl⟩⟩
  | counts _ c hpc =>
    rw [hpc, Server.pc_goto]
    unfold afterCount
    split
    · rename_i htrig
      refine ⟨?_, rfl, rfl, Or.inl ⟨rfl, rfl⟩⟩
      show 0 + (isTrigger _).toNat = _
      rw [htrig]
      rfl
    · rename_i htrig
      refine ⟨?_, rfl, rfl, Or.inl ⟨rfl, rfl⟩⟩
      show 0 + (1 + (isTrigger _).toNat) = _
      rw [Bool.eq_false_iff.mpr htrig]
      rfl
  | handles _ c cnt hpc m hm =>
    rw [hpc, Server.pc_goto]
    unfold afterHandle
    split
    · rename_i htrig
      refine ⟨?_, rfl, rfl, Or.inr ⟨c, rfl, rfl, rfl, hm⟩⟩
      show 0 + 1 = 0 + (isTrigger cnt).toNat
      rw [htrig]
      rfl
    · rename_i htrig
      refine ⟨?_, rfl, rfl, Or.inr ⟨c, rfl, rfl, rfl, hm⟩⟩
      show 0 + 0 = 0 + (isTrigger cnt).toNat
      rw [Bool.eq_false_iff.mpr htrig]
      rfl

/-- **Nobody but the thread `i` serves.** The flushes may go on. -/
def byThread (i : ι) : Action ι → Server ι → Bool
  | .http j _, _ => j = i
  | _, _ => true

/-- The runs in which the thread `i` serves alone. -/
abbrev AloneRun (i : ι) (s₀ : Server ι) (tr : List HttpEvent) (s : Server ι) : Prop :=
  Run (only (byThread i) serverStep) s₀ tr s

/-- **The books of a connection**: every chunk received has been answered, numbered,
handled and counted as done, but for what is due to the chunk at hand. -/
structure Framed (i : ι) (m₀ : Mem) (tr : List HttpEvent) (s : Server ι) : Prop where
  handled : ∃ cs, chunksOf tr = cs ++ (s.pc i).chunk?.toList ∧ handleChunks cs m₀ = .ok s.mem
  responses_eq : responses tr + (s.pc i).unanswered = (chunksOf tr).length
  drawn_eq : drawn tr + (s.pc i).atCount.toNat = (chunksOf tr).length
  done_eq : done tr + (s.pc i).undone = (chunksOf tr).length

/-- Every step of the thread keeps them. -/
theorem Framed.step {m₀ : Mem} (hF : Framed i m₀ tr s)
    (h : ServerStep s (.http i input) s' es) : Framed i m₀ (tr ++ es) s' := by
  obtain ⟨hr, hn, hd, hmem⟩ := h.chunk
  refine ⟨?_, ?_, ?_, ?_⟩
  · obtain ⟨cs, hcs, hhandled⟩ := hF.handled
    rcases hmem with ⟨hmem, hchunk⟩ | ⟨c, hc, hc', hes, hm⟩
    · exact ⟨cs, by rw [chunksOf_append, hcs, List.append_assoc, hchunk],
        by rw [hmem]; exact hhandled⟩
    · refine ⟨cs ++ [c], ?_, handleChunks_concat hhandled hm⟩
      rw [chunksOf_append, hcs, hes, hc, hc', List.append_nil]
      exact (List.append_nil _).symm
  · have hbal := hF.responses_eq
    rw [responses_append, chunksOf_append, List.length_append]
    omega
  · have hbal := hF.drawn_eq
    rw [drawn_append, chunksOf_append, List.length_append]
    omega
  · have hbal := hF.done_eq
    rw [done_append, chunksOf_append, List.length_append]
    omega

/-- **They hold along every run in which the thread serves alone**, from its
guard. -/
theorem AloneRun.framed (h₀ : s₀.pc i = .guard) (h : AloneRun i s₀ tr s) :
    Framed i s₀.mem tr s := by
  refine Run.invariant (I := Framed i s₀.mem) ?_ (fun tr s a s' es _ hF hs => ?_) h
  · exact ⟨⟨[], by rw [h₀]; rfl, rfl⟩, by rw [h₀]; rfl, by rw [h₀]; rfl, by rw [h₀]; rfl⟩
  · obtain ⟨hby, hstep⟩ := only_eq_some.mp hs
    cases a with
    | http j input =>
      obtain rfl : j = i := of_decide_eq_true hby
      exact hF.step (serverStep_cases hstep)
    | scanRecord k =>
      -- a flush touches neither the image nor the thread
      cases serverStep_cases hstep with
      | scansRecord =>
        rw [List.append_nil]
        exact ⟨hF.handled, hF.responses_eq, hF.drawn_eq, hF.done_eq⟩
    | scanTotal k order =>
      cases serverStep_cases hstep with
      | beginsTotal | scansTotal =>
        rw [List.append_nil]
        exact ⟨hF.handled, hF.responses_eq, hF.drawn_eq, hF.done_eq⟩

theorem limitsHandling_byThread (i : ι) : LimitsHandling (byThread i) i :=
  fun _ _ _ => decide_eq_true rfl

/-- A thread at its guard can end. -/
theorem exists_run_closed (hpc : s.pc i = .guard) :
    ∃ s', AloneRun i s [] s' ∧ s'.pc i = .closed := by
  have hfree : ∀ c cnt, s.pc i ≠ .handle c cnt := fun c cnt => by
    rw [hpc]
    exact HttpPc.noConfusion
  by_cases hd : s.doneCnt.toNat < reqTotalCnt
  · have henter := ServerStep.run none (.enters i hpc hd) (limitsHandling_byThread i) hfree
    have hend := ServerStep.run none (.ends i (s.pc_goto i .recv)) (limitsHandling_byThread i)
      (fun c cnt => by rw [Server.pc_goto]; exact HttpPc.noConfusion)
    exact ⟨_, henter.append hend, Server.pc_goto ..⟩
  · have hleave := ServerStep.run none (.leaves i hpc hd) (limitsHandling_byThread i) hfree
    exact ⟨_, hleave, Server.pc_goto ..⟩

/-- **A connection can be served to its end**, if it does not bring more than
`REQ_TOTAL_CNT` allows and no call leaves its arrays. -/
theorem exists_run_chunks {cs : List Chunk} {m : Mem} (hpc : s.pc i = .guard)
    (hd : s.doneCnt.toNat + cs.length ≤ reqTotalCnt) (hm : handleChunks cs s.mem = .ok m) :
    ∃ tr s', AloneRun i s tr s' ∧ s'.pc i = .closed ∧ chunksOf tr = cs := by
  induction cs generalizing s with
  | nil =>
    obtain ⟨s', hrun, hclosed⟩ := exists_run_closed hpc
    exact ⟨[], s', hrun, hclosed, rfl⟩
  | cons c cs ih =>
    rw [List.length_cons] at hd
    cases hc : handleRequest c.line c.len s.mem with
    | error e =>
      unfold handleChunks at hm
      rw [List.foldlM_cons, hc] at hm
      cases hm
    | ok m₁ =>
      unfold handleChunks at hm
      rw [List.foldlM_cons, hc] at hm
      obtain ⟨tr₁, s₁, hrun₁, hret, hr₁, -, -⟩ := exists_run_serve (limitsHandling_byThread i)
        hpc (by omega) hc (decide_eq_true rfl)
      have hdone : s₁.doneCnt.toNat = s.doneCnt.toNat + 1 := by
        have hlt : s.doneCnt.toNat + 1 < 2 ^ 32 := by
          have : reqTotalCnt < 2 ^ 32 := by decide
          omega
        rw [hret.doneCnt, UInt32.toNat_add]
        exact Nat.mod_eq_of_lt hlt
      obtain ⟨tr₂, s₂, hrun₂, hclosed, hr₂⟩ := ih (s := s₁)
        (by rw [hret.pc]; exact Function.update_self ..) (by omega)
        (by rw [hret.mem]; exact hm)
      exact ⟨_, s₂, hrun₁.append hrun₂, hclosed, by rw [chunksOf_append, hr₁, hr₂]; rfl⟩

/-- **One request per chunk.** A connection served alone, from any state of the image
and the counters: when its thread has ended, every chunk it received has been
handled once and in order, with one answer each, and the counters have gone up by
the number of chunks; if each chunk is one request, the image is that of the
requests in order. And it receives all that is sent, as long as there is room and no
call leaves its arrays. -/
theorem one_request_per_chunk (h₀ : s₀.pc i = .guard) :
    (∀ tr s, AloneRun i s₀ tr s → s.pc i = .closed →
      handleChunks (chunksOf tr) s₀.mem = .ok s.mem
        ∧ responses tr = (chunksOf tr).length
        ∧ s.reqCnt = s₀.reqCnt + UInt32.ofNat (chunksOf tr).length
        ∧ s.doneCnt = s₀.doneCnt + UInt32.ofNat (chunksOf tr).length
        ∧ ∀ rs : List HttpRequest, (chunksOf tr).map Chunk.data = rs.map HttpRequest.bytes →
          s.mem = collectAll s₀.mem (rs.map HttpRequest.request)
            ∧ (chunksOf tr).length = rs.length)
      ∧ ∀ cs, s₀.doneCnt.toNat + cs.length ≤ reqTotalCnt →
        (∃ m, handleChunks cs s₀.mem = .ok m) →
        ∃ tr s, AloneRun i s₀ tr s ∧ s.pc i = .closed ∧ chunksOf tr = cs := by
  refine ⟨fun tr s h hclosed => ?_, fun cs hd ⟨m, hm⟩ => exists_run_chunks h₀ hd hm⟩
  have hF := h.framed h₀
  have hC := counted_of_run (Run.of_only h)
  obtain ⟨cs, hcs, hhandled⟩ := hF.handled
  have hresp := hF.responses_eq
  have hdrawn := hF.drawn_eq
  have hdone := hF.done_eq
  rw [hclosed] at hcs hresp hdrawn hdone
  have hall : handleChunks (chunksOf tr) s₀.mem = .ok s.mem := by
    rw [hcs]
    exact (congrArg (handleChunks · s₀.mem) (List.append_nil cs)).trans hhandled
  refine ⟨hall, hresp, ?_, ?_, fun rs hrs => ⟨?_, ?_⟩⟩
  · rw [hC.reqCnt, ← hdrawn]
    rfl
  · rw [hC.doneCnt, ← hdone]
    rfl
  · exact Except.ok.inj (hall.symm.trans (handleChunks_requests hrs s₀.mem))
  · rw [← List.length_map, hrs, List.length_map]

/-- Two whole requests on one connection. -/
theorem one_request_per_chunk_raceCalls :
    ∃ tr, ∃ s : Server Unit, AloneRun () (Server.start tenUnitsMem tenUnitsDb) tr s
      ∧ s.pc () = .closed ∧ chunksOf tr = [(raceCalls 1).chunk, (raceCalls 0).chunk]
      ∧ s.mem = collectAll tenUnitsMem [(raceCalls 1).request, (raceCalls 0).request]
      ∧ responses tr = 2 ∧ s.reqCnt = 2 ∧ s.doneCnt = 2 := by
  obtain ⟨hevery, hsome⟩ := one_request_per_chunk
    (show (Server.start tenUnitsMem tenUnitsDb : Server Unit).pc () = .guard from rfl)
  have hroom : 0 + 2 ≤ reqTotalCnt := by decide
  obtain ⟨tr, s, hrun, hclosed, hcs⟩ := hsome [(raceCalls 1).chunk, (raceCalls 0).chunk] hroom
    ⟨_, handleRequests_eq [raceCalls 1, raceCalls 0] tenUnitsMem⟩
  obtain ⟨hhandled, hresp, hreq, hdone, -⟩ := hevery tr s hrun hclosed
  rw [hcs] at hhandled hresp hreq hdone
  exact ⟨tr, s, hrun, hclosed, hcs, Except.ok.inj (hhandled.symm.trans
    (handleRequests_eq [raceCalls 1, raceCalls 0] tenUnitsMem)), hresp, hreq, hdone⟩

/-! ## A request in two chunks -/

/-- The owner's request for record 1. -/
def annsRequest : HttpRequest := .plain ann ann_length ann_clean 1 one_le_one

/-- Its first ten bytes. -/
def firstPart : Chunk := ⟨annsRequest.bytes.take 10, by decide +kernel, by decide +kernel⟩

/-- And the others. -/
def secondPart : Chunk := ⟨annsRequest.bytes.drop 10, by decide +kernel, by decide +kernel⟩

/-- The steps of a thread that serves a chunk, from guard to guard. -/
def serveChunk (c : Chunk) : List (Action Unit) :=
  [.http () none, .http () (some c), .http () none, .http () none, .http () none,
    .http () none]

/-- **A connection that sends the given bytes can end** with `n` answers, numbers drawn
and requests done, and the given status of record 1. -/
def CanEndWith (n : ℕ) (st : Status) (bs : List UInt8) : Prop :=
  ∃ tr, ∃ s : Server Unit, AloneRun () (Server.start tenUnitsMem tenUnitsDb) tr s
    ∧ s.pc () = .closed ∧ (chunksOf tr).flatMap Chunk.data = bs
    ∧ responses tr = n ∧ s.reqCnt.toNat = n ∧ s.doneCnt.toNat = n
    ∧ (s.mem.memToCollects 1).map MemToCollect.status = some st

/-- It is enough to execute a schedule. -/
theorem canEndWith_of_exec (as : List (Action Unit)) {n : ℕ} {st : Status} {bs : List UInt8}
    (h : ((Run.exec (only (byThread ()) serverStep) as
      (Server.start tenUnitsMem tenUnitsDb)).any fun p =>
        p.1.pc () = .closed ∧ (chunksOf p.2).flatMap Chunk.data = bs
          ∧ responses p.2 = n ∧ p.1.reqCnt.toNat = n ∧ p.1.doneCnt.toNat = n
          ∧ (p.1.mem.memToCollects 1).map MemToCollect.status = some st) = true) :
    CanEndWith n st bs := by
  obtain ⟨⟨s, tr⟩, hrun, hend⟩ := (Option.any_eq_true _ _).mp h
  exact ⟨tr, s, Run.of_exec hrun, of_decide_eq_true hend⟩

/-- **A request that arrives in two chunks is lost**, and counted twice: the bytes that
collect record 1 with one answer when they arrive in one chunk collect nothing with
two answers when they arrive in two. -/
theorem cut_request_lost :
    CanEndWith 1 .allCollected annsRequest.bytes ∧ CanEndWith 2 .empty annsRequest.bytes :=
  ⟨canEndWith_of_exec (serveChunk (raceCalls 0).chunk ++ [.http () none, .http () none])
      (by decide +kernel),
    canEndWith_of_exec (serveChunk firstPart ++ serveChunk secondPart
      ++ [.http () none, .http () none]) (by decide +kernel)⟩

end GreenFinal
