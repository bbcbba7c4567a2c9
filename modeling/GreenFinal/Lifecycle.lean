import GreenFinal.Ledger

/-!
# The life of a record

A loaded record is untouched, then perhaps shared in by one user who is not
its owner, then emptied by its owner – and whenever nobody holds its mutex it
is in one of these stages with everything that belongs to the stage: the
status, the energy left, and the credits made from it (`Stage`). This is the
settlement of the record read off a concurrent run: the run is matched by a
sequential execution, in which the record sees the users that ask for it, and
what a record makes of a list of askers is its settlement.
-/

open CLib Interleave

namespace GreenFinal

/-- **A stage in the life of a record** with owner `o` and loaded energy `e`: what
belongs to its status, with the energy left and the credits made. -/
def Stage (o : CString) (e : ℕ) (rest : ℕ) (cs : List (CString × ℕ)) : Status → Prop
  | .empty => rest = e ∧ cs = []
  | .collectedByOther =>
      3 < e ∧ rest = e - 3 * e / 10 ∧ 1 ≤ 3 * e / 10 ∧ ∃ v, v ≠ o ∧ cs = [(v, 3 * e / 10)]
  | .allCollected =>
      rest = 0 ∧ (cs = [(o, e)]
        ∨ ∃ v n n', v ≠ o ∧ n + n' = e ∧ cs = [(v, n), (o, n')])

/-- A settlement is at the stage its status says. -/
theorem stage_settle (o : CString) (e : ℕ) (asks : List CString) :
    Stage o e (settle o e asks).rest (settle o e asks).credits (settle o e asks).status := by
  rcases settle_cases o e asks with ⟨hs, hr, hc⟩ | ⟨hs, he, hr, v, hv, hc⟩ | ⟨hs, hr, hc⟩
  · rw [hs, hr, hc]
    exact ⟨rfl, rfl⟩
  · rw [hs, hr, hc]
    exact ⟨he, rfl, share_pos he, v, hv, rfl⟩
  · rw [hs, hr]
    refine ⟨rfl, hc.imp_right ?_⟩
    rintro ⟨v, hv, he, hc⟩
    exact ⟨v, share e, e - share e, hv, Nat.add_sub_cancel' (share_le e), hc⟩

variable {ι : Type*} [DecidableEq ι] {call : ι → Call} {m : Mem} {tr : List (Event ι)}
  {s : Shared ι}

/-- A record whose mutex is free is at the stage its status says. -/
theorem CallRun.stage (h : CallRun call m tr s) {id : RecordId} {r₀ r : MemToCollect}
    (hr₀ : m.memToCollects id = some r₀) (hfresh : r₀.status = .empty)
    (hr : s.slot id = some r) (hfree : s.mutex id = none) :
    Stage r₀.userId r₀.toCollectEnergy.toNat r.toCollectEnergy.toNat
      (creditsFrom id (creditsOf tr)) r.status := by
  obtain ⟨order, hR⟩ := h.linearized
  have hled : credits (order.map fun i => (call i).request) m = creditsOf tr := hR.ledger
  obtain ⟨r', hr', hmark⟩ := hR.exists_slot ((Shared.view_of_free hfree).trans hr)
  change (collectAll m _).memToCollects id = some r' at hr'
  rw [memToCollects_collectAll, hr₀, Option.map_some] at hr'
  obtain ⟨hs, he, hc⟩ := MemToCollect.nexts_settle hfresh
    (askers id (order.map fun i => (call i).request))
  rw [Option.some.inj hr'] at hs he
  have hstatus : r'.mark.status = r.mark.status := by rw [hmark]
  have henergy : r'.mark.toCollectEnergy = r.mark.toCollectEnergy := by rw [hmark]
  change r'.status = r.status at hstatus
  change r'.toCollectEnergy = r.toCollectEnergy at henergy
  rw [← hled, creditsFrom_credits hr₀, hc, ← hstatus, ← henergy, hs, he]
  exact stage_settle _ _ _

/-- **The life of a record.** In every state that concurrent calls can reach from
a loaded one, a record whose mutex is free is untouched, shared in once by a
user other than its owner, or emptied by its owner, with the energy and the
credits of that stage; and its status never moves backwards. -/
theorem lifecycle {db : Database} (hload : loadInMem db = .ok m) {id : RecordId}
    {r₀ : MemToCollect} (hr₀ : m.memToCollects id = some r₀) (h : CallRun call m tr s) :
    ∃ r, s.slot id = some r
      ∧ (s.mutex id = none → Stage r₀.userId r₀.toCollectEnergy.toNat
        r.toCollectEnergy.toNat (creditsFrom id (creditsOf tr)) r.status)
      ∧ ∀ tr' s', Run (microStep call) s tr' s' →
        ∃ r', s'.slot id = some r' ∧ r.status.toNat ≤ r'.status.toNat := by
  obtain ⟨r, hr, -⟩ := (h.slotEvolves id).exists_right hr₀
  refine ⟨r, hr, fun hfree => h.stage hr₀ ((loaded_of_loadInMem hload).fresh hr₀).1 hr hfree,
    fun tr' s' h' => ?_⟩
  obtain ⟨r', hr', he⟩ := (h.locked.slotEvolves_run h' id).exists_right hr
  exact ⟨r', hr', he.status⟩

/-- The life of the record in the race for it: whoever asked first, the owner has
emptied it in the end. -/
theorem lifecycle_raceCalls :
    ∃ m tr s r₀ r, loadInMem tenUnitsDb = .ok m ∧ m.memToCollects 1 = some r₀
      ∧ CallRun raceCalls m tr s ∧ s.slot 1 = some r ∧ r.status = .allCollected
      ∧ Stage r₀.userId r₀.toCollectEnergy.toNat r.toCollectEnergy.toNat
        (creditsFrom 1 (creditsOf tr)) r.status := by
  have hexec : (loadInMem tenUnitsDb).toOption.bind (fun m =>
      (m.memToCollects 1).bind fun r₀ =>
        (Run.exec (microStep raceCalls) raceSchedule (Shared.start m)).map fun p =>
          ((p.1.slot 1).map MemToCollect.status, p.1.mutex 1))
      = some (some .allCollected, none) := by
    decide +kernel
  obtain ⟨m, hm, hexec⟩ := Option.bind_eq_some_iff.mp hexec
  obtain ⟨r₀, hr₀, hexec⟩ := Option.bind_eq_some_iff.mp hexec
  obtain ⟨⟨s, tr⟩, hrun, hend⟩ := Option.map_eq_some_iff.mp hexec
  obtain ⟨hstatus, hfree⟩ := Prod.mk.inj hend
  have hload : loadInMem tenUnitsDb = .ok m := eq_ok_of_toOption hm
  have hrun' : CallRun raceCalls m tr s := Run.of_exec hrun
  obtain ⟨r, hr, hstage, -⟩ := lifecycle hload hr₀ hrun'
  rw [hr] at hstatus
  exact ⟨m, tr, s, r₀, r, hload, hr₀, hrun', hr, Option.some.inj hstatus, hstage hfree⟩

end GreenFinal
