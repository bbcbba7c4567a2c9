import GreenFinal.Framing
import Mathlib.Algebra.Order.Group.Multiset

/-!
# What becomes of a request

The threads of `func_http` share two counters and the memory image, and apart
from these each goes its own way. That way is an automaton, `HttpMove`, and a
step of the server is a move of one thread. So what a request goes through is
read off the automaton, one move at a time, and holds of every run of every
system of such threads (`Threaded`), however many there are:
`Threaded.balance` is for how often something happens, `Threaded.precedes` for
what comes first.

A request that has drawn a number is answered once, handled once and counted as
done once. The two that trigger a flush are handled, start their flush and are
answered after that; every other request is answered before it is handled, so
its answer does not say that anything has been collected (`Protocol`).

What the requests leave in memory is what `handle_request` leaves when it is
executed on the chunks received and no longer at hand, one after another in
some order (`Handled`).
-/

open CLib Interleave

namespace GreenFinal

/-- **A move of one thread**, and what is seen of it. -/
inductive HttpMove : HttpPc → HttpPc → List HttpEvent → Prop
  | enters : HttpMove .guard .recv []
  | leaves : HttpMove .guard .closed []
  | receives (c : Chunk) : HttpMove .recv (.count c) [.received c]
  | ends : HttpMove .recv .closed []
  | counts (c : Chunk) (cnt : UInt32) :
      HttpMove (.count c) (afterCount c cnt) [.numbered cnt]
  | responds (c : Chunk) (cnt : UInt32) (h : isTrigger cnt = false) :
      HttpMove (.respond c cnt) (.handle c cnt) [.responded cnt]
  | handles (c : Chunk) (cnt : UInt32) :
      HttpMove (.handle c cnt) (afterHandle cnt) [.handled cnt]
  | starts (cnt : UInt32) (e : HttpEvent) (h : Triggers cnt e) :
      HttpMove (.start cnt) (.respondLate cnt) [e]
  | respondsLate (cnt : UInt32) : HttpMove (.respondLate cnt) (.finish cnt) [.responded cnt]
  | finishes (cnt : UInt32) : HttpMove (.finish cnt) .guard [.finished cnt]

namespace HttpPc

/-- At hand is the request with the given number, and it has not been answered. -/
def toAnswer (n : UInt32) : HttpPc → Bool
  | .respond _ cnt | .start cnt | .respondLate cnt => cnt = n
  | .handle _ cnt => cnt = n && isTrigger n
  | _ => false

/-- At hand is the request with the given number, and it has been answered. -/
def answered (n : UInt32) : HttpPc → Bool
  | .handle _ cnt => cnt = n && !isTrigger n
  | .finish cnt => cnt = n
  | _ => false

/-- At hand is the request with the given number, and it has not been handled. -/
def toHandle (n : UInt32) : HttpPc → Bool
  | .respond _ cnt | .handle _ cnt => cnt = n
  | _ => false

theorem toAnswer_of_holds {n : UInt32} {pc : HttpPc} (h : pc.holds n = false) :
    pc.toAnswer n = false := by
  cases pc with
  | handle c cnt =>
    have hcnt : decide (cnt = n) = false := h
    rw [toAnswer, hcnt]
    rfl
  | respond | start | respondLate => exact h
  | guard | recv | count | finish | closed => rfl

theorem toHandle_of_holds {n : UInt32} {pc : HttpPc} (h : pc.holds n = false) :
    pc.toHandle n = false := by
  cases pc with
  | respond | handle => exact h
  | guard | recv | count | start | respondLate | finish | closed => rfl

end HttpPc

namespace HttpMove

variable {pc pc' : HttpPc} {es : List HttpEvent} {n : UInt32}

/-- What holds of a request wherever it goes when it has drawn its number. -/
theorem afterCount_eq (f : HttpPc → Bool) (c : Chunk) (cnt : UInt32)
    (h : f (.respond c cnt) = f (.handle c cnt) ∨ isTrigger cnt = true) :
    f (afterCount c cnt) = f (.handle c cnt) := by
  unfold afterCount
  cases htrig : isTrigger cnt with
  | true => rfl
  | false => exact h.resolve_right fun h' => Bool.false_ne_true (htrig.symm.trans h')

/-- **The answer is due from the number on.** -/
theorem toAnswer_balance (h : HttpMove pc pc' es) :
    es.count (.responded n) + (pc'.toAnswer n).toNat
      = es.count (.numbered n) + (pc.toAnswer n).toNat := by
  cases h with
  | counts c cnt =>
    have hafter : (afterCount c cnt).toAnswer n = decide (cnt = n) := by
      unfold afterCount
      cases htrig : isTrigger cnt with
      | true =>
        show (decide (cnt = n) && isTrigger n) = decide (cnt = n)
        by_cases hcnt : cnt = n
        · rw [← hcnt, htrig, Bool.and_true]
        · rw [decide_eq_false hcnt, Bool.false_and]
      | false => rfl
    rw [hafter, List.count_singleton, List.count_singleton]
    by_cases hcnt : cnt = n <;> simp [hcnt, HttpPc.toAnswer]
  | responds c cnt htrig =>
    rw [List.count_singleton, List.count_singleton]
    by_cases hcnt : cnt = n
    · subst hcnt
      simp [HttpPc.toAnswer, htrig]
    · simp [hcnt, HttpPc.toAnswer]
  | handles c cnt =>
    have hafter : (afterHandle cnt).toAnswer n = (decide (cnt = n) && isTrigger n) := by
      unfold afterHandle
      cases htrig : isTrigger cnt with
      | true =>
        show decide (cnt = n) = _
        by_cases hcnt : cnt = n
        · rw [← hcnt, htrig, Bool.and_true]
        · rw [decide_eq_false hcnt, Bool.false_and]
      | false =>
        show false = _
        by_cases hcnt : cnt = n
        · rw [← hcnt, htrig, Bool.and_false]
        · rw [decide_eq_false hcnt, Bool.false_and]
    rw [hafter]
    rfl
  | starts cnt e htrig => cases htrig <;> rfl
  | respondsLate cnt =>
    rw [List.count_singleton, List.count_singleton]
    by_cases hcnt : cnt = n <;> simp [hcnt, HttpPc.toAnswer]
  | enters | leaves | receives | ends | finishes => rfl

/-- **The handling is due from the number on.** -/
theorem toHandle_balance (h : HttpMove pc pc' es) :
    es.count (.handled n) + (pc'.toHandle n).toNat
      = es.count (.numbered n) + (pc.toHandle n).toNat := by
  cases h with
  | counts c cnt =>
    rw [afterCount_eq (HttpPc.toHandle n) c cnt (Or.inl rfl), List.count_singleton,
      List.count_singleton]
    by_cases hcnt : cnt = n <;> simp [hcnt, HttpPc.toHandle]
  | handles c cnt =>
    have hafter : (afterHandle cnt).toHandle n = false := by
      unfold afterHandle
      split <;> rfl
    rw [hafter, List.count_singleton, List.count_singleton]
    by_cases hcnt : cnt = n <;> simp [hcnt, HttpPc.toHandle]
  | starts cnt e htrig => cases htrig <;> rfl
  | enters | leaves | receives | ends | responds | respondsLate | finishes => rfl

/-- **The count of what is done is due from the number on.** -/
theorem holds_balance (h : HttpMove pc pc' es) :
    es.count (.finished n) + (pc'.holds n).toNat
      = es.count (.numbered n) + (pc.holds n).toNat := by
  cases h with
  | counts c cnt =>
    rw [afterCount_eq (HttpPc.holds n) c cnt (Or.inl rfl), List.count_singleton,
      List.count_singleton]
    by_cases hcnt : cnt = n <;> simp [hcnt, HttpPc.holds]
  | handles c cnt =>
    have hafter : (afterHandle cnt).holds n = decide (cnt = n) := by
      unfold afterHandle
      split <;> rfl
    rw [hafter]
    rfl
  | starts cnt e htrig => cases htrig <;> rfl
  | finishes cnt =>
    rw [List.count_singleton, List.count_singleton]
    by_cases hcnt : cnt = n <;> simp [hcnt, HttpPc.holds]
  | enters | leaves | receives | ends | responds | respondsLate => rfl

end HttpMove

variable {ι : Type*} [DecidableEq ι] {m : Mem} {db : Database} {tr es : List HttpEvent}
  {s s' : Server ι} {a : Action ι} {cs : List Chunk}

/-! ## The threads of a run -/

/-- Where the answer goes first, the request does not trigger a flush. -/
def HttpPc.respondsFirst : HttpPc → Prop
  | .respond _ cnt => isTrigger cnt = false
  | _ => True

theorem respondsFirst_afterCount (c : Chunk) (cnt : UInt32) :
    (afterCount c cnt).respondsFirst := by
  unfold afterCount
  cases htrig : isTrigger cnt with
  | true => trivial
  | false => exact htrig

theorem respondsFirst_afterHandle (cnt : UInt32) : (afterHandle cnt).respondsFirst := by
  unfold afterHandle
  split <;> trivial

/-- **A step of the server is a move of one of its threads**, or a step of a flush. -/
theorem ServerStep.move (h : ServerStep s a s' es) (hs : ∀ i, (s.pc i).respondsFirst) :
    (s'.pc = s.pc ∧ es = [])
      ∨ ∃ i pc, s'.pc = Function.update s.pc i pc ∧ HttpMove (s.pc i) pc es := by
  cases h with
  | enters i hpc => exact Or.inr ⟨i, _, rfl, hpc ▸ .enters⟩
  | leaves i hpc => exact Or.inr ⟨i, _, rfl, hpc ▸ .leaves⟩
  | receives i hpc c => exact Or.inr ⟨i, _, rfl, hpc ▸ .receives c⟩
  | ends i hpc => exact Or.inr ⟨i, _, rfl, hpc ▸ .ends⟩
  | counts i c hpc => exact Or.inr ⟨i, _, rfl, hpc ▸ .counts c _⟩
  | responds i c cnt hpc =>
    have htrig := hs i
    rw [hpc] at htrig
    exact Or.inr ⟨i, _, rfl, hpc ▸ .responds c cnt htrig⟩
  | handles i c cnt hpc => exact Or.inr ⟨i, _, rfl, hpc ▸ .handles c cnt⟩
  | startsToCollect i cnt hpc hcnt =>
    exact Or.inr ⟨i, _, rfl, hpc ▸ .starts cnt _ (.toCollect hcnt)⟩
  | startsTotal i cnt hpc hcnt => exact Or.inr ⟨i, _, rfl, hpc ▸ .starts cnt _ (.total hcnt)⟩
  | respondsLate i cnt hpc => exact Or.inr ⟨i, _, rfl, hpc ▸ .respondsLate cnt⟩
  | finishes i cnt hpc => exact Or.inr ⟨i, _, rfl, hpc ▸ .finishes cnt⟩
  | scansRecord | beginsTotal | scansTotal => exact Or.inl ⟨rfl, rfl⟩

theorem HttpMove.respondsFirst {pc pc' : HttpPc} (h : HttpMove pc pc' es) :
    pc'.respondsFirst := by
  cases h with
  | counts c cnt => exact respondsFirst_afterCount c cnt
  | handles c cnt => exact respondsFirst_afterHandle cnt
  | enters | leaves | receives | ends | responds | starts | respondsLate | finishes => trivial

/-! ## Systems of threads -/

/-- **A system whose steps are moves of its threads**, all of them at the guard at
first. -/
structure Threaded {α σ : Type*} (step : α → σ → Option (σ × List HttpEvent)) (s₀ : σ)
    (pc : σ → ι → HttpPc) : Prop where
  start : ∀ i, pc s₀ i = .guard
  move : ∀ {tr s a s' es}, Run step s₀ tr s → step a s = some (s', es) →
    (pc s' = pc s ∧ es = [])
      ∨ ∃ i pc', pc s' = Function.update (pc s) i pc' ∧ HttpMove (pc s i) pc' es

namespace Threaded

variable {α σ : Type*} {step : α → σ → Option (σ × List HttpEvent)} {s₀ t : σ}
  {pc : σ → ι → HttpPc}

/-- **What every move keeps in balance is in balance along a run**: how often `e` and
`e'` have happened, and the threads at which `e` is due. -/
theorem balance [Fintype ι] (hT : Threaded step s₀ pc) {e e' : HttpEvent} {f : HttpPc → Bool}
    (h₀ : f .guard = false)
    (hmove : ∀ pc pc' es, HttpMove pc pc' es →
      es.count e + (f pc').toNat = es.count e' + (f pc).toNat)
    (h : Run step s₀ tr t) : tr.count e + ∑ j, (f (pc t j)).toNat = tr.count e' := by
  refine Run.invariant (I := fun tr t => tr.count e
    + ∑ j, (f (pc t j)).toNat = tr.count e') ?_ (fun tr s a s' es hr hI hs => ?_) h
  · have hzero : ∑ j, (f (pc s₀ j)).toNat = 0 :=
      Finset.sum_eq_zero fun j _ => by rw [hT.start, h₀]; rfl
    rw [hzero]
    rfl
  · rw [List.count_append, List.count_append]
    rcases hT.move hr hs with ⟨hpc, rfl⟩ | ⟨i, pc', hpc, hm⟩
    · rw [hpc]
      exact hI
    · have hsum := sum_update (fun pc => (f pc).toNat) (pc s) i pc'
      have hstep := hmove _ _ _ hm
      rw [hpc]
      omega

/-- **What every move puts first comes first along a run**: a thread is `past` only
when `e` has happened, and `e'` happens only there. -/
theorem precedes (hT : Threaded step s₀ pc) {e e' : HttpEvent} (past : HttpPc → Bool)
    (h₀ : past .guard = false)
    (hpast : ∀ pc pc' es, HttpMove pc pc' es → past pc' = true → past pc = true ∨ e ∈ es)
    (hlater : ∀ pc pc' es, HttpMove pc pc' es → e' ∈ es → past pc = true)
    (h : Run step s₀ tr t) : Precedes e e' tr := by
  refine Run.precedes (fun s => ∃ i, past (pc s i) = true) ?_ (fun tr s a s' es hr hs hp => ?_)
    (fun tr s a s' es hr hs he => ?_) h
  · rintro ⟨i, hi⟩
    rw [hT.start, h₀] at hi
    exact absurd hi Bool.false_ne_true
  · obtain ⟨j, hj⟩ := hp
    rcases hT.move hr hs with ⟨hpc, rfl⟩ | ⟨i, pc', hpc, hm⟩
    · rw [hpc] at hj
      exact Or.inl ⟨j, hj⟩
    · rw [hpc] at hj
      by_cases hji : j = i
      · rw [hji, Function.update_self] at hj
        exact (hpast _ _ _ hm hj).imp_left fun hj => ⟨i, hj⟩
      · rw [Function.update_of_ne hji] at hj
        exact Or.inl ⟨j, hj⟩
  · rcases hT.move hr hs with ⟨-, rfl⟩ | ⟨i, pc', -, hm⟩
    · exact absurd he List.not_mem_nil
    · exact ⟨i, hlater _ _ _ hm he⟩

end Threaded

/-! ## What a request goes through -/

namespace HttpMove

variable {pc pc' : HttpPc} {n : UInt32}

/-- Who is to have answered has, or does so now. -/
theorem answered (h : HttpMove pc pc' es) (ha : pc'.answered n = true) :
    pc.answered n = true ∨ .responded n ∈ es := by
  cases h with
  | counts c cnt =>
    unfold afterCount at ha
    cases htrig : isTrigger cnt with
    | true =>
      rw [htrig] at ha
      obtain ⟨hcnt, hn⟩ := (Bool.and_eq_true_iff ..).mp ha
      rw [← of_decide_eq_true hcnt, htrig] at hn
      exact absurd hn Bool.false_ne_true
    | false =>
      rw [htrig] at ha
      exact absurd ha Bool.false_ne_true
  | responds c cnt =>
    obtain ⟨hcnt, -⟩ := (Bool.and_eq_true_iff ..).mp ha
    rw [of_decide_eq_true hcnt]
    exact Or.inr List.mem_cons_self
  | handles c cnt =>
    unfold afterHandle at ha
    cases htrig : isTrigger cnt with
    | true =>
      rw [htrig] at ha
      exact absurd ha Bool.false_ne_true
    | false =>
      rw [htrig] at ha
      have hcnt : cnt = n := of_decide_eq_true ha
      refine Or.inl ?_
      show (decide (cnt = n) && !isTrigger n) = true
      rw [← hcnt, htrig, decide_eq_true rfl]
      rfl
  | respondsLate cnt =>
    rw [of_decide_eq_true (show decide (cnt = n) = true from ha)]
    exact Or.inr List.mem_cons_self
  | enters | leaves | receives | ends | starts | finishes => exact absurd ha Bool.false_ne_true

/-- Who is to have handled the request has, or does so now. -/
theorem handled (h : HttpMove pc pc' es) (ha : pc'.handled n = true) :
    pc.handled n = true ∨ .handled n ∈ es := by
  cases h with
  | counts c cnt =>
    unfold afterCount at ha
    split at ha <;> exact absurd ha Bool.false_ne_true
  | handles c cnt =>
    have hcnt : cnt = n := by
      unfold afterHandle at ha
      split at ha <;> exact of_decide_eq_true ha
    rw [hcnt]
    exact Or.inr List.mem_cons_self
  | starts | respondsLate => exact Or.inl ha
  | enters | leaves | receives | ends | responds | finishes => exact absurd ha Bool.false_ne_true

/-- Who is to have started the flush has, or does so now. -/
theorem started {e : HttpEvent} (hn : Triggers n e) (h : HttpMove pc pc' es)
    (ha : pc'.pastStart n = true) : pc.pastStart n = true ∨ e ∈ es := by
  cases h with
  | counts c cnt =>
    unfold afterCount at ha
    split at ha <;> exact absurd ha Bool.false_ne_true
  | handles c cnt =>
    unfold afterHandle at ha
    cases htrig : isTrigger cnt with
    | true =>
      rw [htrig] at ha
      exact absurd ha Bool.false_ne_true
    | false =>
      rw [htrig] at ha
      rw [of_decide_eq_true (show decide (cnt = n) = true from ha), hn.isTrigger] at htrig
      exact absurd htrig.symm Bool.false_ne_true
  | starts cnt e' hcnt =>
    rw [(hn.eq_iff hcnt).mpr (of_decide_eq_true ha)]
    exact Or.inr List.mem_cons_self
  | respondsLate => exact Or.inl ha
  | enters | leaves | receives | ends | responds | finishes => exact absurd ha Bool.false_ne_true

/-- Where the answer is given. -/
theorem of_responded (h : HttpMove pc pc' es) (he : .responded n ∈ es) :
    isTrigger n = false ∨ pc = .respondLate n := by
  cases h with
  | responds c cnt htrig =>
    obtain rfl : n = cnt := by simpa using he
    exact Or.inl htrig
  | respondsLate cnt =>
    obtain rfl : n = cnt := by simpa using he
    exact Or.inr rfl
  | starts cnt e htrig => cases htrig <;> simp at he
  | enters | leaves | receives | ends | counts | handles | finishes => simp at he

/-- Where the request is handled. -/
theorem of_handled (h : HttpMove pc pc' es) (he : .handled n ∈ es) :
    ∃ c, pc = .handle c n := by
  cases h with
  | handles c cnt =>
    obtain rfl : n = cnt := by simpa using he
    exact ⟨c, rfl⟩
  | starts cnt e htrig => cases htrig <;> simp at he
  | enters | leaves | receives | ends | counts | responds | respondsLate | finishes =>
    simp at he

/-- Where a flush is started. -/
theorem of_start {e : HttpEvent} (hn : Triggers n e) (h : HttpMove pc pc' es) (he : e ∈ es) :
    pc = .start n := by
  cases h with
  | starts cnt e' hcnt =>
    rw [(hn.eq_iff hcnt).mp (List.mem_singleton.mp he).symm]
  | enters | leaves | ends => exact absurd he List.not_mem_nil
  | receives | counts | responds | handles | respondsLate | finishes =>
    rw [List.mem_singleton.mp he] at hn
    cases hn

/-- Where the request is counted as done. -/
theorem of_finished (h : HttpMove pc pc' es) (he : .finished n ∈ es) : pc = .finish n := by
  cases h with
  | finishes cnt =>
    obtain rfl : n = cnt := by simpa using he
    rfl
  | starts cnt e htrig => cases htrig <;> simp at he
  | enters | leaves | receives | ends | counts | responds | handles | respondsLate => simp at he

end HttpMove

/-- **What comes first in a request.** Every request is answered and handled before it is
counted as done. A request that triggers a flush is handled, starts the flush and is
answered then; any other is answered and handled after that. -/
structure Sequenced (n : UInt32) (tr : List HttpEvent) : Prop where
  respondedFirst : Precedes (.responded n) (.finished n) tr
  handledFirst : Precedes (.handled n) (.finished n) tr
  ordinary : isTrigger n = false → Precedes (.responded n) (.handled n) tr
  trigger : ∀ e, Triggers n e →
    Precedes (.handled n) e tr ∧ Precedes e (.responded n) tr
      ∧ Precedes (.handled n) (.responded n) tr

theorem Threaded.sequenced {α σ : Type*} {step : α → σ → Option (σ × List HttpEvent)}
    {s₀ t : σ} {pc : σ → ι → HttpPc} (hT : Threaded step s₀ pc) (h : Run step s₀ tr t)
    (n : UInt32) : Sequenced n tr := by
  have hfinish : (HttpPc.finish n).answered n = true ∧ (HttpPc.finish n).handled n = true :=
    ⟨decide_eq_true rfl, decide_eq_true rfl⟩
  have hlate : ∀ {e pc pc' es} (f : HttpPc → Bool), Triggers n e → HttpMove pc pc' es →
      f (.respondLate n) = true → .responded n ∈ es → f pc = true := by
    intro e pc pc' es f hn hm hf he
    rcases hm.of_responded he with htrig | rfl
    · exact absurd (htrig.symm.trans hn.isTrigger) Bool.false_ne_true
    · exact hf
  refine ⟨?_, ?_, fun htrig => ?_, fun e hn => ⟨?_, ?_, ?_⟩⟩
  · exact hT.precedes (HttpPc.answered n) rfl (fun _ _ _ hm => hm.answered)
      (fun _ _ _ hm he => by rw [hm.of_finished he]; exact hfinish.1) h
  · exact hT.precedes (HttpPc.handled n) rfl (fun _ _ _ hm => hm.handled)
      (fun _ _ _ hm he => by rw [hm.of_finished he]; exact hfinish.2) h
  · refine hT.precedes (HttpPc.answered n) rfl (fun _ _ _ hm => hm.answered)
      (fun _ _ _ hm he => ?_) h
    obtain ⟨c, rfl⟩ := hm.of_handled he
    show (decide (n = n) && !isTrigger n) = true
    rw [htrig, decide_eq_true rfl]
    rfl
  · exact hT.precedes (HttpPc.handled n) rfl (fun _ _ _ hm => hm.handled)
      (fun _ _ _ hm he => by rw [hm.of_start hn he]; exact decide_eq_true rfl) h
  · exact hT.precedes (HttpPc.pastStart n) rfl (fun _ _ _ hm => hm.started hn)
      (fun _ _ _ hm => hlate _ hn hm (decide_eq_true rfl)) h
  · exact hT.precedes (HttpPc.handled n) rfl (fun _ _ _ hm => hm.handled)
      (fun _ _ _ hm => hlate _ hn hm (decide_eq_true rfl)) h

/-- The events each request is to bring about. -/
inductive Due (n : UInt32) : HttpEvent → Prop
  | responded : Due n (.responded n)
  | handled : Due n (.handled n)
  | finished : Due n (.finished n)

/-- **What a request goes through**: its number is drawn once at the most; the request is
answered, handled and counted as done no more often, and as often when no thread has it
at hand any more; and these come in the order of `Sequenced`. -/
structure Protocol (n : UInt32) (tr : List HttpEvent) (pcs : ι → HttpPc) : Prop where
  numbered : tr.count (.numbered n) ≤ 1
  due : ∀ e, Due n e → tr.count e ≤ tr.count (.numbered n)
  served : (∀ i, (pcs i).holds n = false) → ∀ e, Due n e →
    tr.count e = tr.count (.numbered n)
  sequenced : Sequenced n tr

/-- A number that is drawn once makes a request of that kind. -/
theorem Threaded.protocol [Fintype ι] {α σ : Type*}
    {step : α → σ → Option (σ × List HttpEvent)} {s₀ t : σ} {pc : σ → ι → HttpPc}
    (hT : Threaded step s₀ pc) (h : Run step s₀ tr t) {n : UInt32}
    (hone : tr.count (.numbered n) ≤ 1) : Protocol n tr (pc t) := by
  -- an event stands against the threads at which it is due
  have hdue : ∀ e, Due n e → ∃ f : HttpPc → Bool,
      (∀ pc, HttpPc.holds n pc = false → f pc = false)
        ∧ tr.count e + ∑ j, (f (pc t j)).toNat = tr.count (.numbered n) := by
    intro e he
    cases he with
    | responded =>
      exact ⟨HttpPc.toAnswer n, fun _ => HttpPc.toAnswer_of_holds,
        hT.balance rfl (fun _ _ _ hm => hm.toAnswer_balance) h⟩
    | handled =>
      exact ⟨HttpPc.toHandle n, fun _ => HttpPc.toHandle_of_holds,
        hT.balance rfl (fun _ _ _ hm => hm.toHandle_balance) h⟩
    | finished =>
      exact ⟨HttpPc.holds n, fun _ hpc => hpc,
        hT.balance rfl (fun _ _ _ hm => hm.holds_balance) h⟩
  refine ⟨hone, fun e he => ?_, fun hnone e he => ?_, hT.sequenced h n⟩
  · obtain ⟨f, -, hsum⟩ := hdue e he
    omega
  · obtain ⟨f, hf, hsum⟩ := hdue e he
    have hzero : ∑ j, (f (pc t j)).toNat = 0 :=
      Finset.sum_eq_zero fun j _ => by rw [hf _ (hnone j)]; rfl
    omega

/-- With at most `2^32 - REQ_TOTAL_CNT` connections the server draws a number once at the
most. -/
theorem ServerRun.count_numbered_le_one [Fintype ι]
    (hT : Fintype.card ι ≤ 2 ^ 32 - reqTotalCnt) (h : ServerRun m db tr s) (n : UInt32) :
    tr.count (.numbered n) ≤ 1 := by
  have hT' : Fintype.card ι + reqTotalCnt ≤ 2 ^ 32 := by
    have : reqTotalCnt ≤ 2 ^ 32 := by decide
    omega
  have hlt : drawn tr < 2 ^ 32 := by
    have := h.drawn_le hT'
    have hpos : 1 ≤ reqTotalCnt := by decide
    omega
  rw [h.count_numbered hlt]
  split
  · exact le_rfl
  · exact Nat.zero_le 1

/-! ## What the requests leave in memory -/

/-- The chunks at hand, one for each thread that has one. -/
def Server.atHand [Fintype ι] (s : Server ι) : Multiset Chunk :=
  ∑ i, ((s.pc i).chunk?.toList : Multiset Chunk)

/-- **The chunks that have been handled**, in order: they and those at hand are the
chunks received, and `handle_request`, executed on them one after another, leaves the
memory image. -/
structure Handled [Fintype ι] (m : Mem) (tr : List HttpEvent) (s : Server ι)
    (cs : List Chunk) : Prop where
  mem : handleChunks cs m = .ok s.mem
  chunks : (cs : Multiset Chunk) + s.atHand = (chunksOf tr : Multiset Chunk)

section Handled

variable [Fintype ι]

omit [Fintype ι] in
/-- A thread that goes on with its chunk, or without one, keeps what is at hand. -/
theorem toList_chunk?_afterCount (c : Chunk) (cnt : UInt32) :
    (afterCount c cnt).chunk? = some c := by
  unfold afterCount
  split <;> rfl

theorem chunk?_afterHandle (cnt : UInt32) : (afterHandle cnt).chunk? = none := by
  unfold afterHandle
  split <;> rfl

/-- **A step handles a chunk at hand, or none.** -/
theorem Handled.step (hH : Handled m tr s cs) (h : ServerStep s a s' es) :
    ∃ rest, Handled m (tr ++ es) s' (cs ++ rest) := by
  have hupdate := fun (i : ι) (pc : HttpPc) =>
    sum_update (fun pc : HttpPc => (pc.chunk?.toList : Multiset Chunk)) s.pc i pc
  -- no chunk comes or goes
  have hsame : ∀ (i : ι) (pc : HttpPc), pc.chunk? = (s.pc i).chunk? →
      s'.pc = Function.update s.pc i pc → s'.mem = s.mem → chunksOf es = [] →
      ∃ rest, Handled m (tr ++ es) s' (cs ++ rest) := by
    intro i pc hchunk hpc hmem hes
    have hsum := hupdate i pc
    rw [hchunk] at hsum
    refine ⟨[], ?_, ?_⟩
    · rw [List.append_nil, hmem]
      exact hH.mem
    · rw [List.append_nil, chunksOf_append, hes, List.append_nil, ← hH.chunks, Server.atHand,
        Server.atHand, hpc, add_right_cancel hsum]
  cases h with
  | receives i hpc c =>
    have hsum := hupdate i (.count c)
    rw [hpc] at hsum
    refine ⟨[], ?_, ?_⟩
    · rw [List.append_nil]
      exact hH.mem
    · have hsum' : Server.atHand (s.goto i (.count c)) = s.atHand + {c} :=
        (add_zero _).symm.trans hsum
      rw [List.append_nil, chunksOf_append, hsum', ← add_assoc, hH.chunks]
      rfl
  | handles i c cnt hpc m' hm =>
    have hsum := hupdate i (afterHandle cnt)
    rw [hpc, chunk?_afterHandle] at hsum
    have hsum' : Server.atHand ({ s with mem := m' }.goto i (afterHandle cnt)) + {c}
        = s.atHand := hsum.trans (add_zero _)
    refine ⟨[c], handleChunks_concat hH.mem hm, ?_⟩
    rw [chunksOf_append, show chunksOf [HttpEvent.handled cnt] = [] from rfl, List.append_nil,
      ← hH.chunks, ← hsum', ← Multiset.coe_add, add_assoc, add_comm _ ({c} : Multiset Chunk)]
    rfl
  | counts i c hpc =>
    exact hsame i _ (by rw [hpc, toList_chunk?_afterCount]; rfl) rfl rfl rfl
  | enters i hpc | leaves i hpc | ends i hpc | responds i _ _ hpc | startsToCollect i _ hpc
  | startsTotal i _ hpc | respondsLate i _ hpc | finishes i _ hpc =>
    exact hsame i _ (by rw [hpc]; rfl) rfl rfl rfl
  | scansRecord | beginsTotal | scansTotal =>
    refine ⟨[], ?_, ?_⟩
    · rw [List.append_nil]
      exact hH.mem
    · rw [List.append_nil, List.append_nil]
      exact hH.chunks

omit [DecidableEq ι] in
theorem handled_start : Handled m [] (Server.start m db : Server ι) [] := by
  refine ⟨rfl, ?_⟩
  show (0 : Multiset Chunk) + ∑ _i : ι, 0 = 0
  simp

/-- In every reachable state the chunks handled have an order. -/
theorem ServerRun.exists_handled (h : ServerRun m db tr s) : ∃ cs, Handled m tr s cs :=
  Run.invariant (I := fun tr (s : Server ι) => ∃ cs, Handled m tr s cs) ⟨[], handled_start⟩
    (fun _ _ _ _ _ _ ⟨_, hH⟩ hs => (hH.step (serverStep_cases hs)).imp' _ fun _ h => h) h

end Handled

end GreenFinal
