import Mathlib.Algebra.BigOperators.Group.Finset.Basic
import Mathlib.Data.Fintype.Basic
import Mathlib.Logic.Function.Basic

/-!
# Interleaved runs

A concurrent program is read here as a partial step function: an *action*
names who moves and what the environment hands over, `step a s` is the
state after that one atomic step together with the events it emits, and
`none` says that the action is not possible in `s` – the thread is
blocked, has ended, or its next operation is undefined. A run is any
finite sequence of possible actions, so quantifying over runs is
quantifying over all interleavings.

A few rules carry the arguments about runs. `Run.invariant` turns a fact
about one step into a fact about every reachable state. `Run.simulates`
is the linearization rule: if every concrete step is matched by nothing
or by one operation of a sequential object, then every reachable state is
matched by the sequential execution of some list of operations.
`Run.forward` matches the steps of one system with those of another,
`Run.expand` takes a step apart into several, and `Run.project` forgets a part of
the system. `Descends` bounds the runs of a
system in which every step uses something up. `Path` is a run that remembers
the states it has been in. `Precedes` is the order of events along a trace,
and `Run.precedes` the rule that derives it from the states. `only` keeps the steps that
satisfy a condition: what holds along its runs holds wherever every step taken
satisfied it.
-/

namespace Interleave

variable {α σ ε β κ : Type*}

/-- **A run**: the states reachable from `s₀`, each with the trace of the
events emitted on the way. -/
inductive Run (step : α → σ → Option (σ × List ε)) (s₀ : σ) : List ε → σ → Prop
  /-- Nothing has happened yet. -/
  | init : Run step s₀ [] s₀
  /-- One more atomic step, of any action possible in the state reached. -/
  | next {tr es : List ε} {s s' : σ} {a : α} :
      Run step s₀ tr s → step a s = some (s', es) → Run step s₀ (tr ++ es) s'

namespace Run

variable {step : α → σ → Option (σ × List ε)} {s₀ s s' : σ} {tr tr' es : List ε}

/-- **The invariant rule**: what holds at the start and is kept by every
step holds in every reachable state, for the trace that led there. -/
theorem invariant {I : List ε → σ → Prop} (h₀ : I [] s₀)
    (hstep : ∀ tr s a s' es, Run step s₀ tr s → I tr s →
      step a s = some (s', es) → I (tr ++ es) s')
    (h : Run step s₀ tr s) : I tr s := by
  induction h with
  | init => exact h₀
  | next hr hs ih => exact hstep _ _ _ _ _ hr ih hs

/-- Runs compose, and so do their traces. -/
theorem append (h : Run step s₀ tr s) (h' : Run step s tr' s') :
    Run step s₀ (tr ++ tr') s' := by
  induction h' with
  | init => rw [List.append_nil]; exact h
  | next _ hs ih => rw [← List.append_assoc]; exact .next ih hs

/-- A single step is a run. -/
theorem single {a : α} (h : step a s = some (s', es)) : Run step s es s' :=
  .next .init h

/-- The state and the trace after a list of actions, if each is possible when
its turn comes. -/
def exec (step : α → σ → Option (σ × List ε)) : List α → σ → Option (σ × List ε)
  | [], s => some (s, [])
  | a :: as, s =>
    (step a s).bind fun p => (exec step as p.1).map fun q => (q.1, p.2 ++ q.2)

/-- Executing a list of actions is a run. -/
theorem of_exec {as : List α} (h : exec step as s = some (s', tr)) : Run step s tr s' := by
  induction as generalizing s tr with
  | nil =>
    obtain ⟨rfl, rfl⟩ := Prod.mk.inj (Option.some.inj h)
    exact .init
  | cons a as ih =>
    obtain ⟨⟨s₁, es⟩, hstep, hrest⟩ := Option.bind_eq_some_iff.mp h
    obtain ⟨⟨s₂, tr'⟩, hexec, heq⟩ := Option.map_eq_some_iff.mp hrest
    obtain ⟨rfl, rfl⟩ := Prod.mk.inj heq
    exact (single hstep).append (ih hexec)

/-- **The linearization rule.** `R tr s order b` relates a reachable state
of the concurrent system to a state of a sequential object on which the
operations `order` have been executed. If every step either keeps the
relation or is the point where one more operation takes effect, then every
reachable state is related to the sequential execution of a list of
operations. -/
theorem simulates (op : β → κ → β) {b₀ : β} {R : List ε → σ → List κ → β → Prop}
    (h₀ : R [] s₀ [] b₀)
    (hstep : ∀ tr s a s' es order b, R tr s order b → step a s = some (s', es) →
      R (tr ++ es) s' order b
        ∨ ∃ k, R (tr ++ es) s' (order ++ [k]) (op b k))
    (h : Run step s₀ tr s) : ∃ order, R tr s order (order.foldl op b₀) := by
  induction h with
  | init => exact ⟨[], h₀⟩
  | next _ hs ih =>
    obtain ⟨order, hR⟩ := ih
    rcases hstep _ _ _ _ _ _ _ hR hs with hR' | ⟨k, hR'⟩
    · exact ⟨order, hR'⟩
    · refine ⟨order ++ [k], ?_⟩
      rw [List.foldl_append]
      exact hR'

/-- **The projection rule.** If every step of one system is, seen through `f`, nothing
or a step of another, then every run is a run of the other. -/
theorem project {α' σ' ε' : Type*} {step' : α' → σ' → Option (σ' × List ε')} (f : σ → σ')
    (hstep : ∀ a s s' es, step a s = some (s', es) →
      f s' = f s ∨ ∃ a' es', step' a' (f s) = some (f s', es'))
    (h : Run step s₀ tr s) : ∃ tr', Run step' (f s₀) tr' (f s) := by
  induction h with
  | init => exact ⟨[], .init⟩
  | next _ hs ih =>
    obtain ⟨tr', hr⟩ := ih
    rcases hstep _ _ _ _ hs with heq | ⟨a', es', hs'⟩
    · rw [heq]
      exact ⟨tr', hr⟩
    · exact ⟨tr' ++ es', hr.next hs'⟩

/-- **The expansion rule.** If every step of one system is, seen through `f`, a run of
another, then every run is. -/
theorem expand {α' σ' : Type*} {step' : α' → σ' → Option (σ' × List ε)} (f : σ → σ')
    (hstep : ∀ a s s' es, step a s = some (s', es) → Run step' (f s) es (f s'))
    (h : Run step s₀ tr s) : Run step' (f s₀) tr (f s) := by
  induction h with
  | init => exact .init
  | next _ hs ih => exact ih.append (hstep _ _ _ _ hs)

/-- **The simulation rule.** If every step of one system is matched by nothing or by a
step of another, with `R` between what the two have done and where they are, then
every run is matched by a run of the other. -/
theorem forward {α' σ' ε' : Type*} {step' : α' → σ' → Option (σ' × List ε')} {t₀ : σ'}
    {R : List ε → σ → List ε' → σ' → Prop} (h₀ : R [] s₀ [] t₀)
    (hstep : ∀ tr s tr' t a s' es, Run step' t₀ tr' t → R tr s tr' t →
      step a s = some (s', es) →
        R (tr ++ es) s' tr' t
          ∨ ∃ a' t' es', step' a' t = some (t', es') ∧ R (tr ++ es) s' (tr' ++ es') t')
    (h : Run step s₀ tr s) : ∃ tr' t, Run step' t₀ tr' t ∧ R tr s tr' t := by
  induction h with
  | init => exact ⟨[], t₀, .init, h₀⟩
  | next _ hs ih =>
    obtain ⟨tr', t, hr, hR⟩ := ih
    rcases hstep _ _ _ _ _ _ _ hr hR hs with hR' | ⟨a', t', es', hs', hR'⟩
    · exact ⟨tr', t, hr, hR'⟩
    · exact ⟨tr' ++ es', t', hr.next hs', hR'⟩

end Run

/-! ## Runs that end -/

/-- Nothing more can happen. -/
def Quiet (step : α → σ → Option (σ × List ε)) (s : σ) : Prop := ∀ a, step a s = none

/-- **A measure that every step lowers**, as long as an invariant holds that every step
keeps. -/
structure Descends (step : α → σ → Option (σ × List ε)) (I : σ → Prop) (μ : σ → ℕ) :
    Prop where
  keeps : ∀ {a s s' es}, I s → step a s = some (s', es) → I s'
  lowers : ∀ {a s s' es}, I s → step a s = some (s', es) → μ s' < μ s

namespace Descends

variable {step : α → σ → Option (σ × List ε)} {I : σ → Prop} {μ : σ → ℕ} {s s' : σ}
  {tr : List ε}

theorem invariant (h : Descends step I μ) (hI : I s) (hr : Run step s tr s') : I s' := by
  induction hr with
  | init => exact hI
  | next _ hs ih => exact h.keeps ih hs

/-- The measure bounds the number of steps. -/
theorem length_le (h : Descends step I μ) (hI : I s) {as : List α}
    (hexec : Run.exec step as s = some (s', tr)) : as.length + μ s' ≤ μ s := by
  induction as generalizing s tr with
  | nil =>
    obtain ⟨rfl, -⟩ := Prod.mk.inj (Option.some.inj hexec)
    exact (Nat.zero_add _).le
  | cons a as ih =>
    obtain ⟨⟨s₁, es⟩, hstep, hrest⟩ := Option.bind_eq_some_iff.mp hexec
    obtain ⟨⟨s₂, tr'⟩, hexec', heq⟩ := Option.map_eq_some_iff.mp hrest
    obtain ⟨rfl, -⟩ := Prod.mk.inj heq
    have hlt := h.lowers hI hstep
    have hle := ih (h.keeps hI hstep) hexec'
    rw [List.length_cons]
    omega

/-- **Every run can be carried on to a state in which nothing more can happen.** -/
theorem exists_quiet (h : Descends step I μ) (hI : I s) :
    ∃ tr s', Run step s tr s' ∧ Quiet step s' := by
  induction hn : μ s using Nat.strong_induction_on generalizing s with
  | h n ih =>
    by_cases hq : Quiet step s
    · exact ⟨[], s, .init, hq⟩
    · obtain ⟨a, ha⟩ := not_forall.mp hq
      obtain ⟨⟨s₁, es⟩, hstep⟩ := Option.ne_none_iff_exists'.mp ha
      obtain ⟨tr, s', hr, hq'⟩ := ih (μ s₁) (hn ▸ h.lowers hI hstep) (h.keeps hI hstep) rfl
      exact ⟨es ++ tr, s', (Run.single hstep).append hr, hq'⟩

end Descends

/-! ## The states on the way -/

/-- **A path**: a run with the states it has been in, from the first to the last. -/
inductive Path (step : α → σ → Option (σ × List ε)) (s₀ : σ) : List σ → List ε → σ → Prop
  /-- Nothing has happened yet. -/
  | init : Path step s₀ [s₀] [] s₀
  /-- One more atomic step, of any action possible in the state reached. -/
  | next {vs : List σ} {tr es : List ε} {s s' : σ} {a : α} :
      Path step s₀ vs tr s → step a s = some (s', es) →
        Path step s₀ (vs ++ [s']) (tr ++ es) s'

namespace Path

variable {step : α → σ → Option (σ × List ε)} {s₀ s v : σ} {vs : List σ} {tr : List ε}

/-- What holds at the start and is kept by every step holds of every path. -/
theorem invariant {I : List σ → List ε → σ → Prop} (h₀ : I [s₀] [] s₀)
    (hstep : ∀ vs tr s a s' es, Path step s₀ vs tr s → I vs tr s →
      step a s = some (s', es) → I (vs ++ [s']) (tr ++ es) s')
    (h : Path step s₀ vs tr s) : I vs tr s := by
  induction h with
  | init => exact h₀
  | next hp hs ih => exact hstep _ _ _ _ _ _ hp ih hs

/-- A path is a run. -/
theorem run (h : Path step s₀ vs tr s) : Run step s₀ tr s := by
  induction h with
  | init => exact .init
  | next _ hs ih => exact .next ih hs

/-- A run has been somewhere. -/
theorem exists_of_run (h : Run step s₀ tr s) : ∃ vs, Path step s₀ vs tr s := by
  induction h with
  | init => exact ⟨_, .init⟩
  | next _ hs ih =>
    obtain ⟨vs, hp⟩ := ih
    exact ⟨_, .next hp hs⟩

/-- A path has been where it is. -/
theorem mem_last (h : Path step s₀ vs tr s) : s ∈ vs := by
  cases h with
  | init => exact List.mem_singleton_self _
  | next => exact List.mem_append_right _ (List.mem_singleton_self _)

/-- A path goes on along a run. -/
theorem append {tr' : List ε} {s' : σ} (h : Path step s₀ vs tr s) (h' : Run step s tr' s') :
    ∃ vs', Path step s₀ (vs ++ vs') (tr ++ tr') s' := by
  induction h' with
  | init => exact ⟨[], by rwa [List.append_nil, List.append_nil]⟩
  | next _ hs ih =>
    obtain ⟨vs', hp⟩ := ih
    exact ⟨_, by simpa using hp.next hs⟩

/-- The states on the way are reached from the start, and the end from them. -/
theorem runs_of_mem (h : Path step s₀ vs tr s) (hv : v ∈ vs) :
    (∃ tr₁, Run step s₀ tr₁ v) ∧ ∃ tr₂, Run step v tr₂ s := by
  induction h with
  | init =>
    obtain rfl := List.mem_singleton.mp hv
    exact ⟨⟨[], .init⟩, [], .init⟩
  | next hp hs ih =>
    rcases List.mem_append.mp hv with hv | hv
    · obtain ⟨hfrom, tr₂, hto⟩ := ih hv
      exact ⟨hfrom, _, hto.next hs⟩
    · obtain rfl := List.mem_singleton.mp hv
      exact ⟨⟨_, hp.run.next hs⟩, [], .init⟩

end Path

/-! ## Runs under a condition -/

/-- The steps that a condition on the state before them admits. -/
def only (p : α → σ → Bool) (step : α → σ → Option (σ × List ε)) (a : α) (s : σ) :
    Option (σ × List ε) :=
  if p a s then step a s else none

section Only

variable {p : α → σ → Bool} {step : α → σ → Option (σ × List ε)} {s₀ s s' : σ}
  {tr es : List ε} {a : α}

theorem only_eq_some :
    only p step a s = some (s', es) ↔ p a s = true ∧ step a s = some (s', es) := by
  unfold only
  by_cases h : p a s = true
  · rw [if_pos h]
    exact (and_iff_right h).symm
  · rw [if_neg h]
    exact ⟨fun h' => absurd h'.symm (Option.some_ne_none _), fun h' => absurd h'.1 h⟩

/-- No condition is one that always holds. -/
theorem only_true : only (fun _ _ => true) step = step := by
  funext a s
  exact if_pos rfl

/-- A run under a condition is a run. -/
theorem Run.of_only (h : Run (only p step) s₀ tr s) : Run step s₀ tr s := by
  induction h with
  | init => exact .init
  | next _ hs ih => exact .next ih (only_eq_some.mp hs).2

/-- A weaker condition admits more runs. -/
theorem Run.only_mono {q : α → σ → Bool} (h : Run (only p step) s₀ tr s)
    (hpq : ∀ a s, p a s = true → q a s = true) : Run (only q step) s₀ tr s := by
  induction h with
  | init => exact .init
  | next _ hs ih =>
    obtain ⟨hp, hs⟩ := only_eq_some.mp hs
    exact .next ih (only_eq_some.mpr ⟨hpq _ _ hp, hs⟩)

/-- A path under a condition is a path. -/
theorem Path.of_only {vs : List σ} (h : Path (only p step) s₀ vs tr s) :
    Path step s₀ vs tr s := by
  induction h with
  | init => exact .init
  | next _ hs ih => exact .next ih (only_eq_some.mp hs).2

end Only

/-! ## The order of events in a trace -/

/-- Every occurrence of `b` in the trace has an `a` before it. -/
def Precedes (a b : ε) (tr : List ε) : Prop :=
  ∀ pre post, tr = pre ++ b :: post → a ∈ pre

theorem Precedes.nil (a b : ε) : Precedes a b [] :=
  fun _ _ h => absurd h.symm (List.append_ne_nil_of_right_ne_nil _ (List.cons_ne_nil _ _))

theorem Precedes.mem {a b : ε} {tr : List ε} (h : Precedes a b tr) (hb : b ∈ tr) : a ∈ tr := by
  obtain ⟨pre, post, rfl⟩ := List.append_of_mem hb
  exact List.mem_append_left _ (h pre post rfl)

theorem Precedes.trans {a b c : ε} {tr : List ε} (h : Precedes a b tr) (h' : Precedes b c tr) :
    Precedes a c tr := by
  rintro pre post rfl
  obtain ⟨pre', post', rfl⟩ := List.append_of_mem (h' pre post rfl)
  refine List.mem_append_left _ (h pre' (post' ++ c :: post) ?_)
  rw [List.append_assoc, List.cons_append]

/-- More events keep the order, if the later of the two is not among them or the
earlier has happened. -/
theorem Precedes.append {a b : ε} {tr es : List ε} (h : Precedes a b tr)
    (he : b ∈ es → a ∈ tr) : Precedes a b (tr ++ es) := by
  intro pre post heq
  rcases List.append_eq_append_iff.mp heq with ⟨w, rfl, hw⟩ | ⟨w, rfl, hw⟩
  · exact List.mem_append_left _ (he (hw ▸ List.mem_append_right _ List.mem_cons_self))
  · cases w with
    | nil =>
      rw [List.append_nil] at he
      rw [List.nil_append] at hw
      exact he (hw ▸ List.mem_cons_self)
    | cons c w =>
      obtain ⟨rfl, -⟩ := List.cons.inj hw
      exact h pre w rfl

/-- One more event keeps the order, if it is not the later of the two or the
earlier has happened. -/
theorem Precedes.concat {a b e : ε} {tr : List ε} (h : Precedes a b tr)
    (he : e = b → a ∈ tr) : Precedes a b (tr ++ [e]) :=
  h.append fun hb => he (List.mem_singleton.mp hb).symm

/-- **The precedence rule.** If the states are `past` something only after `a`, and `b`
happens only there, then `a` comes before `b` along every run. -/
theorem Run.precedes {step : α → σ → Option (σ × List ε)} {s₀ s : σ} {tr : List ε} {a b : ε}
    (past : σ → Prop) (h₀ : ¬ past s₀)
    (hpast : ∀ tr s x s' es, Run step s₀ tr s → step x s = some (s', es) → past s' →
      past s ∨ a ∈ es)
    (hlater : ∀ tr s x s' es, Run step s₀ tr s → step x s = some (s', es) → b ∈ es → past s)
    (h : Run step s₀ tr s) : Precedes a b tr := by
  refine (Run.invariant (I := fun tr s => Precedes a b tr ∧ (past s → a ∈ tr))
    ⟨Precedes.nil a b, fun hp => absurd hp h₀⟩ (fun tr s x s' es hr ⟨hI, hp⟩ hs =>
      ⟨hI.append fun hb => hp (hlater _ _ _ _ _ hr hs hb), fun hp' => ?_⟩) h).1
  rcases hpast _ _ _ _ _ hr hs hp' with hp' | ha
  · exact List.mem_append_left _ (hp hp')
  · exact List.mem_append_right _ ha

/-- What is in a first part of the trace comes before what is not. -/
theorem Precedes.of_prefix {a b : ε} {pre tr : List ε} (h : pre <+: tr) (ha : a ∈ pre)
    (hb : b ∉ pre) : Precedes a b tr := by
  rintro p q rfl
  rcases List.prefix_or_prefix_of_prefix h (List.prefix_append p (b :: q)) with hp | ⟨w, hw⟩
  · exact hp.subset ha
  · -- the first part ends before `b`, or `b` would be in it
    cases w with
    | nil =>
      rw [← hw, List.append_nil] at ha
      exact ha
    | cons c w =>
      rw [← hw, List.prefix_append_right_inj, List.cons_prefix_cons] at h
      exact absurd (hw ▸ List.mem_append_right p (h.1 ▸ List.mem_cons_self)) hb

/-! ## Sums over the threads -/

/-- Changing one thread's local state changes a sum over the threads by that
thread's summand. -/
theorem sum_update {ι τ M : Type*} [Fintype ι] [DecidableEq ι] [AddCommMonoid M] (g : τ → M)
    (f : ι → τ) (i : ι) (x : τ) :
    ∑ j, g (Function.update f i x j) + g (f i) = ∑ j, g (f j) + g x := by
  have hrest : ∑ j ∈ Finset.univ.erase i, g (Function.update f i x j)
      = ∑ j ∈ Finset.univ.erase i, g (f j) :=
    Finset.sum_congr rfl (fun j hj => by
      rw [Function.update_of_ne (Finset.ne_of_mem_erase hj)])
  rw [← Finset.add_sum_erase _ _ (Finset.mem_univ i), hrest, Function.update_self,
    ← Finset.add_sum_erase Finset.univ (fun j => g (f j)) (Finset.mem_univ i)]
  ac_rfl

end Interleave
