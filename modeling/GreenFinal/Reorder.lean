import GreenFinal.Conservation

/-!
# Requests in another order

What a sequence of requests leaves in memory, when its requests come in another
order, or when some of them come again.

Requests for different records can change places: a record sees the users that
ask for it and nothing else, and a user's total is a sum. So the memory image
after a sequence of requests depends only on who asks for each record, in
order (`collectAll_eq_of_askers`) – not because neighbours commute, but because
the two sequences make the same credits from every record, and hence the same
credits but for the order (`perm_credits`).

Requests for one record cannot: who comes first gets the share. But the record
itself does not remember it. Its final state has a closed form in which the
order of the requests does not occur (`MemToCollect.nexts_settled`), and so
the tables of two permuted sequences differ at most in how the totals are
split between the users.

A request that has been made once can be made again: from then on its record
turns it away (`MemToCollect.Closed`), whatever comes in between.
-/

open CLib

namespace GreenFinal

/-- Lists that agree on the sublist of every key are permutations of each other. -/
theorem perm_of_filter_eq {α κ : Type*} [DecidableEq α] [DecidableEq κ] {f : α → κ}
    {l l' : List α} (h : ∀ k, l.filter (fun a => f a = k) = l'.filter (fun a => f a = k)) :
    l.Perm l' := by
  have hcount : ∀ (a : α) (l : List α), (l.filter (fun b => f b = f a)).count a = l.count a :=
    fun a l => List.count_filter (decide_eq_true rfl)
  refine List.perm_iff_count.mpr (fun a => ?_)
  rw [← hcount a l, h, hcount a l']

/-! ## Requests for different records -/

section Askers

variable {m : Mem} {qs qs' : List Request}

/-- The credits made from a record, from their users and amounts. -/
theorem filter_eq_creditsFrom (id : RecordId) (cs : List Credit) :
    cs.filter (fun c => c.id = id)
      = (creditsFrom id cs).map fun p => ⟨id, p.1, UInt32.ofNat p.2⟩ := by
  rw [creditsFrom, List.map_map, List.map_congr_left, List.map_id']
  intro c hc
  have hid : c.id = id := of_decide_eq_true (List.mem_filter.mp hc).2
  subst hid
  show (⟨c.id, c.userId, UInt32.ofNat c.amount.toNat⟩ : Credit) = c
  rw [UInt32.ofNat_toNat]

/-- **Who asks for each record decides the credits**, but for their order. -/
theorem perm_credits (m : Mem) (h : ∀ id, askers id qs = askers id qs') :
    (credits qs m).Perm (credits qs' m) := by
  refine perm_of_filter_eq (f := Credit.id) (fun id => ?_)
  have hfrom : creditsFrom id (credits qs m) = creditsFrom id (credits qs' m) := by
    cases hr : m.memToCollects id with
    | none => rw [creditsFrom_credits_of_none hr, creditsFrom_credits_of_none hr]
    | some r => rw [creditsFrom_credits hr, creditsFrom_credits hr, h]
  rw [filter_eq_creditsFrom, hfrom, ← filter_eq_creditsFrom]

theorem creditedTo_of_perm {cs cs' : List Credit} (h : cs.Perm cs') (u : CString) :
    creditedTo u cs = creditedTo u cs' :=
  ((h.filter _).map _).sum_eq

/-- **The memory image depends only on who asks for each record**, in order. -/
theorem collectAll_eq_of_askers (m : Mem) (h : ∀ id, askers id qs = askers id qs') :
    collectAll m qs = collectAll m qs' := by
  have hperm := perm_credits m h
  refine Mem.ext (funext fun id => ?_) (TotalEnergyMap.ext ?_ (funext fun u => ?_))
  · rw [memToCollects_collectAll, memToCollects_collectAll, h]
  · rw [keys_collectAll, keys_collectAll, List.toFinset_eq_of_perm _ _ (hperm.map _)]
  · refine UInt32.toNat_inj.mp ?_
    rw [val_collectAll, val_collectAll, creditedTo_of_perm hperm]

end Askers

/-- **Requests for different records are independent.** Two sequences of calls with
the same requests for every record, in the same order, leave the same memory
image: the records with their flags, and the entries of the totals. -/
theorem records_independent (m : Mem) {cs cs' : List Call}
    (h : ∀ id : RecordId, (cs.map Call.request).filter (fun q => q.id = id)
      = (cs'.map Call.request).filter (fun q => q.id = id)) :
    ∃ m', handleRequests cs m = .ok m' ∧ handleRequests cs' m = .ok m' := by
  have haskers : ∀ id, askers id (cs.map Call.request) = askers id (cs'.map Call.request) :=
    fun id => congrArg (List.map Request.userId) (h id)
  refine ⟨_, handleRequests_eq cs m, ?_⟩
  rw [handleRequests_eq, collectAll_eq_of_askers m haskers]

theorem one_le_two : 1 ≤ ((2 : RecordId) : ℕ) := by decide

/-- A request of another user for another record. -/
def secondCall : Call := HttpRequest.plainCall bob bob_length bob_clean 2 one_le_two

/-- Two requests for two records can change places. -/
theorem records_independent_secondCall :
    ∃ m m', loadInMem annsDb = .ok m
      ∧ handleRequests [raceCalls 0, secondCall, raceCalls 1] m = .ok m'
      ∧ handleRequests [raceCalls 0, raceCalls 1, secondCall] m = .ok m' := by
  have hne : (raceCalls 1).request.id ≠ secondCall.request.id := by decide
  have hsame : ∀ id : RecordId,
      ([raceCalls 0, secondCall, raceCalls 1].map Call.request).filter (fun q => q.id = id)
        = ([raceCalls 0, raceCalls 1, secondCall].map Call.request).filter
          (fun q => q.id = id) := by
    intro id
    by_cases h : (raceCalls 1).request.id = id
    · have h' : secondCall.request.id ≠ id := fun h' => hne (h.trans h'.symm)
      simp [List.filter_cons, h, h']
    · simp [List.filter_cons, h]
  obtain ⟨m, hm⟩ := exists_loadInMem_annsDb
  obtain ⟨m', h, h'⟩ := records_independent m hsame
  exact ⟨m, m', hm, h, h'⟩

/-! ## The same requests in any order -/

/-- **Where a record ends up**, whatever the order of its askers. -/
theorem MemToCollect.nexts_settled {r : MemToCollect} (h : r.status = .empty)
    (us : List CString) :
    ((r.nexts us).status, (r.nexts us).toCollectEnergy.toNat)
      = settled r.userId r.toCollectEnergy.toNat us := by
  obtain ⟨hs, hrest, -⟩ := nexts_settle h us
  rw [hs, hrest, settle_eq_settled]

/-- A fresh record does not remember the order of its askers. -/
theorem MemToCollect.nexts_of_perm {r : MemToCollect} (h : r.status = .empty)
    {us us' : List CString} (hperm : us.Perm us') : r.nexts us = r.nexts us' := by
  have hsettled : ((r.nexts us).status, (r.nexts us).toCollectEnergy.toNat)
      = ((r.nexts us').status, (r.nexts us').toCollectEnergy.toNat) := by
    rw [nexts_settled h, nexts_settled h, settled_of_perm _ _ hperm]
  have hna : r.status ≠ .allCollected := by
    rw [h]
    exact Status.noConfusion
  have hmod : (r.nexts us).modified = (r.nexts us').modified := by
    rw [modified_nexts hna, modified_nexts hna, hperm.isEmpty_eq]
  have hstatus := congrArg Prod.fst hsettled
  have henergy := UInt32.toNat_inj.mp (congrArg Prod.snd hsettled)
  have huser : (r.nexts us).userId = (r.nexts us').userId := by
    rw [userId_nexts, userId_nexts]
  cases hn : r.nexts us
  cases hn' : r.nexts us'
  rw [hn, hn'] at hmod hstatus henergy huser
  cases hmod
  cases hstatus
  cases henergy
  cases huser
  rfl

theorem askers_perm {qs qs' : List Request} (h : qs.Perm qs') (id : RecordId) :
    (askers id qs).Perm (askers id qs') := (h.filter _).map _

/-- **The records do not depend on the order of the requests.** After a load, two
sequences of calls with the same requests, in any order, end with the same
records and the same sum of the totals modulo `2^32`; a record ends in the
state its owner, its energy and its askers settle. -/
theorem records_of_perm {db : Database} {m : Mem} (hload : loadInMem db = .ok m)
    {cs cs' : List Call} (h : (cs.map Call.request).Perm (cs'.map Call.request)) :
    ∃ m₁ m₂, handleRequests cs m = .ok m₁ ∧ handleRequests cs' m = .ok m₂
      ∧ m₁.memToCollects = m₂.memToCollects
      ∧ m₁.memTotalEnergyMap.energy ≡ m₂.memTotalEnergyMap.energy [MOD 2 ^ 32]
      ∧ ∀ id r, m.memToCollects id = some r → ∃ r', m₁.memToCollects id = some r'
        ∧ r'.userId = r.userId
        ∧ (r'.status, r'.toCollectEnergy.toNat)
          = settled r.userId r.toCollectEnergy.toNat (askers id (cs.map Call.request)) := by
  have hl := loaded_of_loadInMem hload
  have hrecords : (collectAll m (cs.map Call.request)).memToCollects
      = (collectAll m (cs'.map Call.request)).memToCollects := by
    funext id
    rw [memToCollects_collectAll, memToCollects_collectAll]
    cases hr : m.memToCollects id with
    | none => rfl
    | some r =>
      exact congrArg some (MemToCollect.nexts_of_perm (hl.fresh hr).1 (askers_perm h id))
  refine ⟨_, _, handleRequests_eq cs m, handleRequests_eq cs' m, hrecords, ?_, ?_⟩
  · -- the records are left with the same energy, so the credits add up to the same
    have henergy : (collectAll m (cs.map Call.request)).recordEnergy
        = (collectAll m (cs'.map Call.request)).recordEnergy := by
      unfold Mem.recordEnergy Mem.slotEnergy
      rw [hrecords]
    have hsum := recordEnergy_collectAll m (cs.map Call.request)
    have hsum' := recordEnergy_collectAll m (cs'.map Call.request)
    have hcredits : creditTotal (credits (cs.map Call.request) m)
        = creditTotal (credits (cs'.map Call.request) m) := by omega
    have hmod := energy_totals_collectAll m (cs.map Call.request)
    rw [hcredits] at hmod
    exact hmod.trans (energy_totals_collectAll m (cs'.map Call.request)).symm
  · intro id r hr
    refine ⟨r.nexts (askers id (cs.map Call.request)), ?_, MemToCollect.userId_nexts _ _,
      MemToCollect.nexts_settled (hl.fresh hr).1 _⟩
    rw [memToCollects_collectAll, hr]
    rfl

/-- The owner and another user ask for one record, in either order: the record ends
up the same, the totals do not. -/
theorem records_of_perm_raceCalls :
    ∃ m m₁ m₂, loadInMem tenUnitsDb = .ok m
      ∧ handleRequests [raceCalls 0, raceCalls 1] m = .ok m₁
      ∧ handleRequests [raceCalls 1, raceCalls 0] m = .ok m₂
      ∧ m₁.memToCollects = m₂.memToCollects
      ∧ m₁.memTotalEnergyMap ≠ m₂.memTotalEnergyMap := by
  have hexec : (loadInMem tenUnitsDb).toOption.map (fun m =>
      decide ((collectAll m ([raceCalls 0, raceCalls 1].map Call.request)).memTotalEnergyMap.val bob
        ≠ (collectAll m ([raceCalls 1, raceCalls 0].map Call.request)).memTotalEnergyMap.val bob))
      = some true := by
    decide +kernel
  obtain ⟨m, hm, hval⟩ := Option.map_eq_some_iff.mp hexec
  have hload : loadInMem tenUnitsDb = .ok m := eq_ok_of_toOption hm
  have hperm : ([raceCalls 0, raceCalls 1].map Call.request).Perm
      ([raceCalls 1, raceCalls 0].map Call.request) := List.Perm.swap _ _ _
  obtain ⟨m₁, m₂, h₁, h₂, hrecords, -⟩ := records_of_perm hload hperm
  refine ⟨m, m₁, m₂, hload, h₁, h₂, hrecords, fun htotals => ?_⟩
  rw [handleRequests_eq] at h₁ h₂
  rw [Except.ok.inj h₁, Except.ok.inj h₂, htotals] at hval
  exact of_decide_eq_true hval rfl

/-! ## The same request again -/

namespace MemToCollect

/-- **The record turns the user away**, and has been marked unless everything is
taken: a call by the user leaves it as it is. -/
def Closed (r : MemToCollect) (u : CString) : Prop :=
  r.status = .allCollected ∨ (r.modified = true ∧ r.rejects u = true)

/-- The record after a call that takes something is closed to everybody but the
owner, and after the owner's to everybody. -/
theorem closed_next_of_accepts {r : MemToCollect} {u v : CString} (h : r.rejects v = false)
    (hu : r.userId = v ∨ r.userId ≠ u) : (r.next v).Closed u := by
  rw [next_of_accepts h]
  by_cases hv : r.userId = v
  · exact Or.inl (if_pos hv)
  · have hstatus : ((r.mark.debit v (r.amount v)).close v).status = .collectedByOther :=
      if_neg hv
    refine Or.inr ⟨rfl, rejects_of_other (hu.resolve_left hv) fun h => ?_⟩
    exact Status.noConfusion (hstatus.symm.trans h.1)

/-- **A call leaves its record closed to its user.** -/
theorem closed_next (r : MemToCollect) (u : CString) : (r.next u).Closed u := by
  by_cases ha : r.status = .allCollected
  · rw [next_of_allCollected ha]
    exact Or.inl ha
  · cases h : r.rejects u with
    | true =>
      rw [next_of_rejects ha h]
      exact Or.inr ⟨rfl, h⟩
    | false => exact closed_next_of_accepts h (em _)

/-- … and it stays closed, whoever asks. -/
theorem Closed.next {r : MemToCollect} {u : CString} (h : r.Closed u) (v : CString) :
    (r.next v).Closed u := by
  by_cases ha : r.status = .allCollected
  · rw [next_of_allCollected ha]
    exact h
  · have hrej := (h.resolve_left ha).2
    cases hv : r.rejects v with
    | true =>
      rw [next_of_rejects ha hv]
      exact Or.inr ⟨rfl, hrej⟩
    | false =>
      -- the owner is never turned away from a record that holds something
      refine closed_next_of_accepts hv (Or.inr fun hu => ?_)
      have hacc : r.rejects u = false := rejects_eq_false_iff.mpr ⟨ha, Or.inl hu⟩
      exact Bool.false_ne_true (hacc.symm.trans hrej)

/-- A call by the user does nothing to it. -/
theorem Closed.next_eq {r : MemToCollect} {u : CString} (h : r.Closed u) :
    r.next u = r ∧ r.credit? u = none := by
  rcases h with ha | ⟨hm, hrej⟩
  · exact ⟨next_of_allCollected ha u, credit?_of_rejects (rejects_of_allCollected ha u)⟩
  · refine ⟨?_, credit?_of_rejects hrej⟩
    by_cases ha : r.status = .allCollected
    · exact next_of_allCollected ha u
    · rw [next_of_rejects ha hrej]
      cases r
      cases hm
      rfl

theorem Closed.nexts {r : MemToCollect} {u : CString} (h : r.Closed u) (us : List CString) :
    (r.nexts us).Closed u := by
  induction us generalizing r with
  | nil => exact h
  | cons v us ih => exact ih (h.next v)

end MemToCollect

/-- A request whose record is closed to its user changes nothing. -/
theorem collectEnergy_of_closed {q : Request} {m : Mem}
    (h : ∀ r, m.memToCollects q.id = some r → r.Closed q.userId) : collectEnergy q m = m := by
  cases hr : m.memToCollects q.id with
  | none => exact collectEnergy_of_none hr
  | some r =>
    obtain ⟨hnext, hcred⟩ := (h r hr).next_eq
    rw [collectEnergy_of_some hr, hnext, hcred]
    refine Mem.ext ?_ rfl
    show Function.update m.memToCollects q.id (some r) = _
    rw [← hr, Function.update_eq_self]

theorem collectAll_append (m : Mem) (qs qs' : List Request) :
    collectAll m (qs ++ qs') = collectAll (collectAll m qs) qs' := List.foldl_append ..

/-- **A request that has been made can be made again.** -/
theorem collectAll_again (m : Mem) (q : Request) (qs qs' : List Request) :
    collectAll m (q :: qs ++ q :: qs') = collectAll m (q :: qs ++ qs') := by
  have hclosed : ∀ r, (collectAll m (q :: qs)).memToCollects q.id = some r →
      r.Closed q.userId := by
    intro r hr
    rw [memToCollects_collectAll, askers_cons, if_pos rfl] at hr
    obtain ⟨r₀, -, rfl⟩ := Option.map_eq_some_iff.mp hr
    exact (r₀.closed_next q.userId).nexts _
  rw [collectAll_append, collectAll_append, collectAll_cons, collectEnergy_of_closed hclosed]

/-- **Retries are harmless.** A call that asks for what an earlier call of the
sequence has asked for changes nothing in what the sequence leaves in memory,
wherever it comes after that call. -/
theorem retries_harmless (m : Mem) {c c' : Call} (h : c'.request = c.request)
    (before between after : List Call) :
    ∃ m', handleRequests (before ++ c :: between ++ after) m = .ok m'
      ∧ handleRequests (before ++ c :: between ++ c' :: after) m = .ok m' := by
  refine ⟨_, handleRequests_eq _ m, ?_⟩
  rw [handleRequests_eq]
  simp only [List.map_append, List.map_cons, h]
  rw [List.append_assoc, List.append_assoc, collectAll_append, collectAll_again,
    ← collectAll_append]

/-- Another user asks, then the owner, and then the other user again. -/
theorem retries_harmless_raceCalls :
    ∃ m', handleRequests [raceCalls 1, raceCalls 0] tenUnitsMem = .ok m'
      ∧ handleRequests [raceCalls 1, raceCalls 0, raceCalls 1] tenUnitsMem = .ok m' :=
  retries_harmless tenUnitsMem (c := raceCalls 1) rfl [] [raceCalls 0] []

end GreenFinal
