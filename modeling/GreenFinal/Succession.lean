import GreenFinal.FlushRace
import GreenFinal.Linearization

/-!
# One call after another

`GreenFinal.Linearization` relates a run to the sequential execution of its calls for
a family of calls that is fixed from the first. The threads of the process come with
one call after another. For these the relation has to allow that a call that has not
begun is exchanged for another (`Linearized.congr`), and that one that has ended is
forgotten (`Linearized.retire`).

The flags have to be related otherwise, too: not to those that were loaded but to those
of the sequential side at the same time. A flag is set there at the instant of the call
and here before it, so that the two differ only while a call is on its way from the one
to the other (`Flagged`); where no call for a record is under way the record is the same
on both sides (`Flagged.slot_eq`).
-/

open CLib Interleave

namespace GreenFinal

/-! ## The calls -/

/-- Inside a call, with the record still to be dealt with or to be given back. -/
def Pc.underWay : Pc → Bool
  | .check | .skipped | .returned _ => false
  | _ => true

/-- Between the write of the flag and the instant of the call. -/
def Pc.marking : Pc → Bool
  | .lock | .recheck | .credit => true
  | _ => false

theorem Pc.finish_of_ended {pc : Pc} (h : pc.ended = true) (u : CString) :
    pc.finish u = Pc.check.finish u := by
  cases pc <;> first | rfl | cases h

theorem Pc.underWay_of_inside {pc : Pc} (h : pc.inside = true) : pc.underWay = true := by
  cases pc <;> first | rfl | cases h

theorem Pc.underWay_of_marking {pc : Pc} (h : pc.marking = true) : pc.underWay = true := by
  cases pc <;> first | rfl | cases h

theorem Pc.ne_check_of_underWay {pc : Pc} (h : pc.underWay = true) : pc ≠ .check := by
  rintro rfl
  exact Bool.false_ne_true h

variable {ι : Type*} [DecidableEq ι]

section Calls

variable {call call' : ι → Call} {ctr es : List (Event ι)} {sh sh' : Shared ι} {i : ι}
  {order : List ι} {b : Mem × List Credit} {m : Mem}

/-- Only of the call that steps it matters what it asks for. -/
theorem microStep_congr (h : call' i = call i) :
    microStep call' i sh = microStep call i sh := by
  unfold microStep
  rw [h]

omit [DecidableEq ι] in
/-- **Calls that have not begun can be exchanged for others.** -/
theorem Linearized.congr (hR : Linearized call ctr sh order b)
    (h : ∀ i, sh.pc i ≠ .check → call' i = call i) : Linearized call' ctr sh order b where
  locked := by
    refine ⟨fun id i => ?_, fun i => ?_⟩
    · rw [hR.locked.mutex_iff]
      refine and_congr_right fun hin => ?_
      rw [h i (Pc.ne_check_of_underWay (Pc.underWay_of_inside hin))]
    · by_cases hpc : sh.pc i = .check
      · rw [hpc]
        trivial
      · rw [h i hpc]
        exact hR.locked.knows i
  nodup := hR.nodup
  mem_iff := hR.mem_iff
  totals := hR.totals
  slots := fun id => by
    rw [hR.slots]
    cases hm : sh.mutex id with
    | none => rw [Shared.view_of_free hm, Shared.view_of_free hm]
    | some j =>
      have hin := ((hR.locked.mutex_iff id j).mp hm).1
      rw [Shared.view_of_held hm, Shared.view_of_held hm,
        h j (Pc.ne_check_of_underWay (Pc.underWay_of_inside hin))]
  ledger := hR.ledger

/-- **A call that has ended can be forgotten.** -/
theorem Linearized.retire (hR : Linearized call ctr sh order b)
    (hend : (sh.pc i).ended = true) :
    Linearized call ctr (sh.goto i .check) (order.erase i) b where
  locked := by
    have hout : Pc.check.inside = (sh.pc i).inside := (Pc.inside_of_ended hend).symm
    refine ⟨fun id j => hR.locked.mutex_iff_update hout id j, fun j => ?_⟩
    by_cases hj : j = i
    · rw [hj, Shared.pc_goto_self]
      trivial
    · rw [show (sh.goto i .check).pc j = sh.pc j from Function.update_of_ne hj ..]
      exact hR.locked.knows j
  nodup := hR.nodup.erase i
  mem_iff := fun j => by
    rw [hR.nodup.mem_erase_iff, hR.mem_iff]
    by_cases hj : j = i
    · rw [hj, Shared.pc_goto_self]
      exact ⟨fun h => absurd rfl h.1, fun h => absurd h Bool.false_ne_true⟩
    · rw [show (sh.goto i .check).pc j = sh.pc j from Function.update_of_ne hj ..]
      exact and_iff_right hj
  totals := hR.totals
  slots := fun id => by
    have hfin : ∀ j u, ((sh.goto i .check).pc j).finish u = (sh.pc j).finish u := by
      intro j u
      by_cases hj : j = i
      · rw [hj, Shared.pc_goto_self, Pc.finish_of_ended hend]
      · rw [show (sh.goto i .check).pc j = sh.pc j from Function.update_of_ne hj ..]
    rw [hR.slots]
    unfold Shared.view
    simp only [hfin]
    rfl
  ledger := hR.ledger

omit [DecidableEq ι] in
/-- Where the call returns without the lock the sequential one does. -/
theorem Linearized.returnsUnlocked (hR : Linearized call ctr sh order b) {id : RecordId}
    (h : returnsUnlocked (sh.slot id) = true) :
    GreenFinal.returnsUnlocked (b.1.memToCollects id) = true := by
  have hslot := hR.slots id
  cases hr : sh.slot id with
  | none =>
    rw [Shared.view, hr, Option.map_none, Option.map_none] at hslot
    rw [Option.map_eq_none_iff.mp hslot]
    rfl
  | some r =>
    rw [hr] at h
    have ha : r.status = .allCollected := of_decide_eq_true h
    obtain ⟨r', hr', hmark⟩ := hR.exists_slot (hR.locked.view_of_allCollected hr ha)
    have hs : r'.mark.status = r.mark.status := by rw [hmark]
    rw [hr']
    exact decide_eq_true (hs.trans ha)

omit [DecidableEq ι] in
/-- The records of the sequential side are there if they are on this side. -/
theorem Linearized.isSome_slot (hR : Linearized call ctr sh order b) {id : RecordId}
    {r : MemToCollect} (hr : sh.slot id = some r) :
    ∃ r', b.1.memToCollects id = some r' := by
  have hview : ∃ v, sh.view call id = some v := by
    rw [Shared.view, hr]
    exact ⟨_, rfl⟩
  obtain ⟨v, hv⟩ := hview
  obtain ⟨r', hr', -⟩ := hR.exists_slot hv
  exact ⟨r', hr'⟩

/-! ## The flags -/

/-- A record is changed by its own request only. -/
theorem exists_of_memToCollects_collectEnergy {q : Request} {id : RecordId}
    {r' : MemToCollect} (h : (collectEnergy q m).memToCollects id = some r') :
    (id ≠ q.id ∧ m.memToCollects id = some r')
      ∨ id = q.id ∧ ∃ r₀, m.memToCollects id = some r₀ ∧ r₀.next q.userId = r' := by
  rw [memToCollects_collectEnergy] at h
  by_cases hid : id = q.id
  · subst hid
    rw [Function.update_self] at h
    exact Or.inr ⟨rfl, Option.map_eq_some_iff.mp h⟩
  · rw [Function.update_of_ne hid] at h
    exact Or.inl ⟨hid, h⟩

/-- **The flags in memory and on the sequential side.** -/
structure Flagged (call : ι → Call) (sh : Shared ι) (m : Mem) : Prop where
  /-- What has been taken from is marked. -/
  taken : ∀ id r', m.memToCollects id = some r' → r'.status ≠ .empty → r'.modified = true
  /-- What is marked on the sequential side is marked in memory. -/
  made : ∀ id r r', sh.slot id = some r → m.memToCollects id = some r' →
    r'.modified = true → r.modified = true
  /-- What is marked in memory is marked on the sequential side, or will be at the
  instant of a call under way. -/
  due : ∀ id r r', sh.slot id = some r → m.memToCollects id = some r' →
    r.modified = true → r'.modified = true
      ∨ ∃ i, (sh.pc i).marking = true ∧ (call i).request.id = id

namespace Flagged

omit [DecidableEq ι] in
theorem congr (hF : Flagged call sh m) (h : ∀ i, sh.pc i ≠ .check → call' i = call i) :
    Flagged call' sh m :=
  ⟨hF.taken, hF.made, fun id r r' hr hr' hm => (hF.due id r r' hr hr' hm).imp_right
    fun ⟨i, hi, hid⟩ => ⟨i, hi, by
      rw [h i (Pc.ne_check_of_underWay (Pc.underWay_of_marking hi))]
      exact hid⟩⟩

omit [DecidableEq ι] in
/-- A step that leaves the flags alone, and nobody's instant. -/
theorem of_slots (hF : Flagged call sh m)
    (hslot : ∀ id r, sh'.slot id = some r →
      ∃ r₀, sh.slot id = some r₀ ∧ r₀.modified = r.modified)
    (hpc : ∀ j, (sh.pc j).marking = true → (sh'.pc j).marking = true) :
    Flagged call sh' m := by
  refine ⟨hF.taken, fun id r r' hr hr' hm => ?_, fun id r r' hr hr' hm => ?_⟩
  · obtain ⟨r₀, hr₀, heq⟩ := hslot id r hr
    exact heq ▸ hF.made id r₀ r' hr₀ hr' hm
  · obtain ⟨r₀, hr₀, heq⟩ := hslot id r hr
    exact (hF.due id r₀ r' hr₀ hr' (heq.trans hm)).imp_right
      fun ⟨j, hj, hid⟩ => ⟨j, hpc j hj, hid⟩

/-- A step that is nobody's instant. -/
theorem silent (hF : Flagged call sh m) (h : StepOf call i sh sh' es)
    (heff : (sh'.pc i).effective = (sh.pc i).effective) : Flagged call sh' m := by
  have hmarking : ((sh.pc i).marking = true → (sh'.pc i).marking = true) →
      ∀ j, (sh.pc j).marking = true → (sh'.pc j).marking = true := by
    intro hi j hj
    by_cases hji : j = i
    · rw [hji] at hj ⊢
      exact hi hj
    · rw [h.pc_of_ne hji]
      exact hj
  have hwrite : ∀ (r r₁ : MemToCollect) (pc : Pc), sh.slot (call i).request.id = some r →
      r.modified = r₁.modified → ∀ id r',
      ((sh.setRecord (call i).request.id r₁).goto i pc).slot id = some r' →
      ∃ r₀, sh.slot id = some r₀ ∧ r₀.modified = r'.modified := by
    intro r r₁ pc hr heq id r' hr'
    by_cases hid : id = (call i).request.id
    · subst hid
      rw [Shared.slot_setRecord_goto] at hr'
      obtain rfl := Option.some.inj hr'
      exact ⟨r, hr, heq⟩
    · have hsame : ((sh.setRecord (call i).request.id r₁).goto i pc).slot id = sh.slot id :=
        Function.update_of_ne hid ..
      exact ⟨r', hsame ▸ hr', rfl⟩
  cases h with
  | returns hpc | rejects hpc | credits hpc =>
    -- these are the instants
    rw [Shared.pc_goto_self, hpc] at heff
    exact absurd heff.symm Bool.false_ne_true
  | checks hpc | locks hpc | accepts hpc | unlocks _ hpc =>
    refine hF.of_slots (fun id r hr => ⟨r, hr, rfl⟩) (hmarking fun hi => ?_)
    rw [hpc] at hi
    rw [Shared.pc_goto_self]
    first | rfl | exact absurd hi Bool.false_ne_true
  | debits n hpc r hr =>
    refine hF.of_slots (hwrite r _ _ hr rfl) (hmarking fun hi => ?_)
    rw [hpc] at hi
    exact absurd hi Bool.false_ne_true
  | closes hpc r hr =>
    refine hF.of_slots (hwrite r _ _ hr rfl) (hmarking fun hi => ?_)
    rw [hpc] at hi
    exact absurd hi Bool.false_ne_true
  | marks hpc r hr =>
    have hpc' : ((sh.setRecord (call i).request.id r.mark).goto i .lock).pc i = .lock :=
      Shared.pc_goto_self ..
    refine ⟨hF.taken, fun id r₁ r' hr₁ hr' hm => ?_, fun id r₁ r' hr₁ hr' hm => ?_⟩
    · by_cases hid : id = (call i).request.id
      · subst hid
        rw [Shared.slot_setRecord_goto] at hr₁
        rw [← Option.some.inj hr₁]
        rfl
      · have hsame := Function.update_of_ne hid (some r.mark) sh.mem.memToCollects
        exact hF.made id r₁ r' (hsame.symm.trans hr₁) hr' hm
    · by_cases hid : id = (call i).request.id
      · exact Or.inr ⟨i, by rw [hpc']; rfl, hid.symm⟩
      · have hsame := Function.update_of_ne hid (some r.mark) sh.mem.memToCollects
        refine (hF.due id r₁ r' (hsame.symm.trans hr₁) hr' hm).imp_right
          fun ⟨j, hj, hj'⟩ => ⟨j, hmarking (fun hi => ?_) j hj, hj'⟩
        rw [hpc] at hi
        exact absurd hi Bool.false_ne_true

/-- A step of a call for a record that is marked in memory marks it on the sequential
side, too. -/
theorem mark (hF : Flagged call sh m) (h : StepOf call i sh sh' es) {r : MemToCollect}
    (hr : sh.slot (call i).request.id = some r) (hm : r.modified = true)
    (hmem : sh'.mem.memToCollects = sh.mem.memToCollects) :
    Flagged call sh' (collectEnergy (call i).request m) := by
  -- whoever is still to have its instant, and asks for another record, is not `i`
  have hother : ∀ id, id ≠ (call i).request.id → (∃ j, (sh.pc j).marking = true
      ∧ (call j).request.id = id) → ∃ j, (sh'.pc j).marking = true ∧ (call j).request.id = id := by
    rintro id hid ⟨j, hj, hj'⟩
    refine ⟨j, ?_, hj'⟩
    rw [h.pc_of_ne fun hji => hid (hji ▸ hj'.symm)]
    exact hj
  refine ⟨fun id r' hr' hs => ?_, fun id r₁ r' hr₁ hr' hm' => ?_, fun id r₁ r' hr₁ hr' hm' => ?_⟩
  · rcases exists_of_memToCollects_collectEnergy hr' with ⟨-, hr'⟩ | ⟨-, r₀, hr₀, rfl⟩
    · exact hF.taken id r' hr' hs
    · exact MemToCollect.modified_next (hF.taken id r₀ hr₀) hs
  · have hr₁' : sh.slot id = some r₁ := (congrFun hmem id).symm.trans hr₁
    rcases exists_of_memToCollects_collectEnergy hr' with ⟨-, hr'⟩ | ⟨rfl, -⟩
    · exact hF.made id r₁ r' hr₁' hr' hm'
    · rw [← Option.some.inj (hr.symm.trans hr₁')]
      exact hm
  · have hr₁' : sh.slot id = some r₁ := (congrFun hmem id).symm.trans hr₁
    rcases exists_of_memToCollects_collectEnergy hr' with ⟨hid, hr'⟩ | ⟨rfl, r₀, hr₀, rfl⟩
    · exact (hF.due id r₁ r' hr₁' hr' hm').imp_right (hother id hid)
    · refine Or.inl ?_
      by_cases ha : r₀.status = .allCollected
      · rw [MemToCollect.next_of_allCollected ha]
        exact hF.taken _ r₀ hr₀ (by rw [ha]; exact Status.noConfusion)
      · have hone := MemToCollect.modified_nexts ha [(call i).request.userId]
        rw [List.isEmpty_cons, Bool.not_false, Bool.or_true] at hone
        exact hone

/-- **The instant of a call** marks its record on the sequential side too, if there is
anything left of it. -/
theorem instant {cs : List Credit} (hF : Flagged call sh m)
    (hR : Linearized call ctr sh order (m, cs)) (h : StepOf call i sh sh' es)
    (heff : (sh.pc i).effective = false) (heff' : (sh'.pc i).effective = true) :
    Flagged call sh' (collectEnergy (call i).request m) := by
  have hk := hR.locked.knows i
  cases h with
  | checks hpc | marks hpc | locks hpc | accepts hpc =>
    rw [Shared.pc_goto_self] at heff'
    exact absurd heff' Bool.false_ne_true
  | debits _ hpc | closes hpc | unlocks _ hpc =>
    rw [hpc] at heff
    exact absurd heff.symm Bool.false_ne_true
  | rejects hpc r hr hrej =>
    rw [hpc] at hk
    obtain ⟨r₁, hr₁, hm⟩ := hk
    exact hF.mark (.rejects hpc r hr hrej) hr₁ hm rfl
  | credits hpc r hr =>
    rw [hpc] at hk
    obtain ⟨r₁, hr₁, hm, -⟩ := hk
    exact hF.mark (.credits hpc r hr) hr₁ hm rfl
  | returns hpc hun =>
    -- nothing is there to be marked
    rw [collectEnergy_of_returnsUnlocked (hR.returnsUnlocked hun)]
    refine hF.of_slots (fun id r hr => ⟨r, hr, rfl⟩) fun j hj => ?_
    have hji : j ≠ i := by
      rintro rfl
      rw [hpc] at hj
      exact Bool.false_ne_true hj
    rw [show (sh.goto i .skipped).pc j = sh.pc j from Function.update_of_ne hji ..]
    exact hj

omit [DecidableEq ι] in
/-- **Where no call for a record is under way, its two sides are the same.** -/
theorem slot_eq {cs : List Credit} (hF : Flagged call sh m)
    (hR : Linearized call ctr sh order (m, cs)) {id : RecordId}
    (hfree : ∀ j, (call j).request.id = id → (sh.pc j).underWay = false) :
    sh.slot id = m.memToCollects id := by
  have hmutex : sh.mutex id = none := by
    refine Option.eq_none_iff_forall_ne_some.mpr fun j hj => ?_
    obtain ⟨hin, hid⟩ := (hR.locked.mutex_iff id j).mp hj
    exact absurd ((Pc.underWay_of_inside hin).symm.trans (hfree j hid)) Bool.noConfusion
  have hslot := hR.slots id
  rw [Shared.view_of_free hmutex] at hslot
  cases hr : sh.slot id with
  | none =>
    rw [hr, Option.map_none] at hslot
    exact (Option.map_eq_none_iff.mp hslot).symm
  | some r =>
    rw [hr, Option.map_some] at hslot
    obtain ⟨r', hr', hmark⟩ := Option.map_eq_some_iff.mp hslot
    have hflag : r.modified = r'.modified := by
      refine Bool.eq_iff_iff.mpr ⟨fun hm => ?_, hF.made id r r' hr hr'⟩
      refine (hF.due id r r' hr hr' hm).resolve_right ?_
      rintro ⟨j, hj, hid⟩
      exact absurd ((Pc.underWay_of_marking hj).symm.trans (hfree j hid)) Bool.noConfusion
    rw [show m.memToCollects id = some r' from hr', MemToCollect.eq_of_mark_eq hmark.symm hflag]

end Flagged

end Calls

end GreenFinal
