import GreenFinal.Collect

/-!
# What a record is for

A record holds energy that its owner may take whole, at any time, and that
one other user may take three tenths of – the first to ask, if more than
three units are there and the owner has not been before. This module says
that once, over any type of users and without words, locks or flags: the
`Settlement` of a record with owner `o` and energy `e`, after the users of a
list have asked for it in order, is a closed form of the list.

The code refines it. `MemToCollect.nexts` runs the calls one by one on the
record; from a record nobody has taken from, its status, its energy and the
amounts credited are those of the settlement
(`MemToCollect.nexts_settle`). The flag `modified_` is the one thing the
settlement does not speak of: it is set by the first request for a record,
whatever comes of it (`MemToCollect.modified_nexts`).
-/

open CLib

namespace GreenFinal

section Abstract

variable {υ : Type*} [DecidableEq υ]

/-- Three tenths, rounded down. -/
def share (e : ℕ) : ℕ := 3 * e / 10

/-- **What becomes of a record**: how far it has been taken, what is left in
it, and who has been credited how much, in order. -/
structure Settlement (υ : Type*) where
  /-- How far the record has been taken. -/
  status : Status
  /-- The energy left. -/
  rest : ℕ
  /-- The credits made from the record, in order. -/
  credits : List (υ × ℕ)

/-- The share taken by somebody else: by the first to ask, unless that is the
owner or there is too little to share. -/
def sharedOut (owner : υ) (e : ℕ) (asks : List υ) : List (υ × ℕ) :=
  (asks.head?.filter (fun v => v ≠ owner ∧ 3 < e)).toList.map (fun v => (v, share e))

/-- **The settlement of a record** with the given owner and energy, after the
users of a list have asked for it in order. -/
def settle (owner : υ) (e : ℕ) (asks : List υ) : Settlement υ :=
  let shared := sharedOut owner e asks
  let left := e - (shared.map Prod.snd).sum
  if owner ∈ asks then ⟨.allCollected, 0, shared ++ [(owner, left)]⟩
  else ⟨if shared = [] then .empty else .collectedByOther, left, shared⟩

theorem share_le (e : ℕ) : share e ≤ e := by
  unfold share
  omega

theorem share_pos {e : ℕ} (h : 3 < e) : 0 < share e := by
  unfold share
  omega

theorem share_lt {e : ℕ} (h : 3 < e) : share e < e := by
  unfold share
  omega

@[simp] theorem sharedOut_nil (owner : υ) (e : ℕ) : sharedOut owner e [] = [] := rfl

theorem sharedOut_cons_self (owner : υ) (e : ℕ) (us : List υ) :
    sharedOut owner e (owner :: us) = [] := by
  simp [sharedOut]

theorem sharedOut_cons_of_le {owner : υ} {e : ℕ} (he : e ≤ 3) (asks : List υ) :
    sharedOut owner e asks = [] := by
  have : ¬ 3 < e := by omega
  cases asks <;> simp [sharedOut, this]

theorem sharedOut_cons {owner v : υ} {e : ℕ} (hv : v ≠ owner) (he : 3 < e)
    (us : List υ) : sharedOut owner e (v :: us) = [(v, share e)] := by
  simp [sharedOut, hv, he]

/-- Nobody shares in the record, or one user other than the owner does. -/
theorem sharedOut_cases (owner : υ) (e : ℕ) (asks : List υ) :
    sharedOut owner e asks = []
      ∨ ∃ v, v ≠ owner ∧ v ∈ asks ∧ 3 < e ∧ sharedOut owner e asks = [(v, share e)] := by
  cases asks with
  | nil => exact Or.inl rfl
  | cons v us =>
    by_cases hv : v = owner
    · subst hv
      exact Or.inl (sharedOut_cons_self v e us)
    · by_cases he : 3 < e
      · exact Or.inr ⟨v, hv, List.mem_cons_self, he, sharedOut_cons hv he us⟩
      · exact Or.inl (sharedOut_cons_of_le (by omega) _)

/-- **The three ways a settlement can stand**, each with everything that is
known there. -/
theorem settle_cases (owner : υ) (e : ℕ) (asks : List υ) :
    ((settle owner e asks).status = .empty ∧ (settle owner e asks).rest = e
        ∧ (settle owner e asks).credits = [])
      ∨ ((settle owner e asks).status = .collectedByOther ∧ 3 < e
        ∧ (settle owner e asks).rest = e - share e
        ∧ ∃ v, v ≠ owner ∧ (settle owner e asks).credits = [(v, share e)])
      ∨ ((settle owner e asks).status = .allCollected
        ∧ (settle owner e asks).rest = 0
        ∧ ((settle owner e asks).credits = [(owner, e)]
          ∨ ∃ v, v ≠ owner ∧ 3 < e
            ∧ (settle owner e asks).credits = [(v, share e), (owner, e - share e)])) := by
  unfold settle
  rcases sharedOut_cases owner e asks with h | ⟨v, hv, -, he, h⟩ <;>
    by_cases ho : owner ∈ asks
  · refine Or.inr (Or.inr ?_)
    simp [h, ho]
  · refine Or.inl ?_
    simp [h, ho]
  · refine Or.inr (Or.inr ?_)
    simp [h, ho, hv, he]
  · refine Or.inr (Or.inl ?_)
    simp [h, ho, hv, he]

/-- Where there is too little to share, the record is untouched until its
owner asks. -/
theorem settle_status_of_le {owner : υ} {e : ℕ} (he : e ≤ 3) (asks : List υ) :
    (settle owner e asks).status = if owner ∈ asks then .allCollected else .empty := by
  unfold settle
  rw [sharedOut_cons_of_le he]
  by_cases ho : owner ∈ asks
  · simp [ho]
  · simp [ho]

/-- Where there is enough to share, the first request takes something. -/
theorem settle_status_of_lt {owner : υ} {e : ℕ} (he : 3 < e) {asks : List υ}
    (hne : asks ≠ []) :
    (settle owner e asks).status
      = if owner ∈ asks then .allCollected else .collectedByOther := by
  cases asks with
  | nil => exact absurd rfl hne
  | cons v us =>
    unfold settle
    by_cases ho : owner ∈ v :: us
    · simp only [if_pos ho]
    · have hv : v ≠ owner := fun h => ho (h ▸ List.mem_cons_self)
      rw [sharedOut_cons hv he, if_neg ho, if_neg ho]
      simp

/-- **The state a record ends in**, from who asks for it and in no order: its owner,
somebody else while there is enough to share, or nobody that could take
anything. -/
def settled (owner : υ) (e : ℕ) (asks : List υ) : Status × ℕ :=
  if owner ∈ asks then (.allCollected, 0)
  else if (∃ v ∈ asks, v ≠ owner) ∧ 3 < e then (.collectedByOther, e - share e)
  else (.empty, e)

/-- The settlement ends in it. -/
theorem settle_eq_settled (owner : υ) (e : ℕ) (asks : List υ) :
    ((settle owner e asks).status, (settle owner e asks).rest) = settled owner e asks := by
  unfold settle settled
  by_cases ho : owner ∈ asks
  · simp only [if_pos ho]
  simp only [if_neg ho]
  cases asks with
  | nil => simp
  | cons v us =>
    have hv : v ≠ owner := fun h => ho (h ▸ List.mem_cons_self)
    by_cases he : 3 < e
    · have hother : ∃ w ∈ v :: us, w ≠ owner := ⟨v, List.mem_cons_self, hv⟩
      rw [sharedOut_cons hv he,
        if_pos (show (∃ w ∈ v :: us, w ≠ owner) ∧ 3 < e from ⟨hother, he⟩)]
      simp
    · rw [sharedOut_cons_of_le (Nat.le_of_not_lt he),
        if_neg (show ¬ ((∃ w ∈ v :: us, w ≠ owner) ∧ 3 < e) from fun h => he h.2)]
      simp

/-- The order of the askers does not matter to it. -/
theorem settled_of_perm (owner : υ) (e : ℕ) {asks asks' : List υ} (h : asks.Perm asks') :
    settled owner e asks = settled owner e asks' := by
  have hother : (∃ v ∈ asks, v ≠ owner) ↔ ∃ v ∈ asks', v ≠ owner :=
    exists_congr (fun v => and_congr_left' h.mem_iff)
  unfold settled
  simp only [hother, h.mem_iff (a := owner)]

end Abstract

/-! ## The code refines it -/

namespace MemToCollect

/-- Everything has been taken. -/
def emptied (r : MemToCollect) : MemToCollect :=
  { r with toCollectEnergy := 0, status := .allCollected }

theorem nexts_of_allCollected {r : MemToCollect} (h : r.status = .allCollected)
    (us : List CString) : r.nexts us = r ∧ r.creditList us = [] := by
  induction us with
  | nil => exact ⟨rfl, rfl⟩
  | cons u us ih =>
    rw [nexts_cons, creditList, next_of_allCollected h,
      credit?_of_rejects (rejects_of_allCollected h u)]
    exact ih

theorem next_owner {r : MemToCollect} (h : r.status ≠ .allCollected) :
    r.next r.userId = r.mark.emptied ∧ r.credit? r.userId = some r.toCollectEnergy := by
  have hacc : r.rejects r.userId = false := rejects_eq_false_iff.mpr ⟨h, Or.inl rfl⟩
  rw [next_of_accepts hacc, credit?_of_accepts hacc]
  unfold debit close amount emptied mark
  simp

theorem next_other {r : MemToCollect} {u : CString} (hu : r.userId ≠ u)
    (hs : r.status = .empty) (he : 3 < r.toCollectEnergy) :
    (r.next u).status = .collectedByOther
      ∧ (r.next u).toCollectEnergy.toNat
        = r.toCollectEnergy.toNat - share r.toCollectEnergy.toNat
      ∧ (r.next u).modified = true
      ∧ (r.credit? u).map UInt32.toNat = some (share r.toCollectEnergy.toNat) := by
  have hacc : r.rejects u = false :=
    rejects_eq_false_iff.mpr ⟨by rw [hs]; decide, Or.inr ⟨hs, he⟩⟩
  have hsum := r.toNat_next_add_credit u
  have hamt : (r.amount u).toNat = share r.toCollectEnergy.toNat := toNat_amount_other hu
  rw [credit?_of_accepts hacc] at hsum ⊢
  refine ⟨?_, ?_, ?_, ?_⟩
  · rw [next_of_accepts hacc]
    exact if_neg hu
  · change _ + (r.amount u).toNat = _ at hsum
    omega
  · rw [next_of_accepts hacc]
    rfl
  · rw [Option.map_some, hamt]

/-- A record only its owner can take from waits for the owner. -/
theorem nexts_of_closed {r : MemToCollect} (hm : r.modified = true)
    (ha : r.status ≠ .allCollected)
    (hc : r.status ≠ .empty ∨ ¬ 3 < r.toCollectEnergy) (us : List CString) :
    r.nexts us = (if r.userId ∈ us then r.emptied else r)
      ∧ r.creditList us
        = if r.userId ∈ us then [(r.userId, r.toCollectEnergy.toNat)] else [] := by
  have hmark : r.mark = r := by
    cases r
    cases hm
    rfl
  induction us with
  | nil => exact ⟨rfl, rfl⟩
  | cons u us ih =>
    rw [nexts_cons, creditList]
    by_cases hu : r.userId = u
    · subst hu
      obtain ⟨hnext, hcred⟩ := next_owner ha
      obtain ⟨h₁, h₂⟩ := nexts_of_allCollected (r := r.mark.emptied) rfl us
      rw [hnext, hcred, h₁, h₂, hmark]
      simp
    · have hrej : r.rejects u = true :=
        rejects_of_other hu fun h => hc.elim (fun hs => hs h.1) (fun he => he h.2)
      rw [next_of_rejects ha hrej, credit?_of_rejects hrej, hmark, ih.1, ih.2]
      simp [hu]

@[simp] theorem userId_nexts (r : MemToCollect) (us : List CString) :
    (r.nexts us).userId = r.userId := by
  induction us generalizing r with
  | nil => rfl
  | cons u us ih => rw [nexts_cons, ih, userId_next]

/-- **The code refines the settlement.** From a record nobody has taken from,
the status, the energy and the credits after any sequence of askers are
those of the settlement. -/
theorem nexts_settle {r : MemToCollect} (h : r.status = .empty) (us : List CString) :
    (r.nexts us).status = (settle r.userId r.toCollectEnergy.toNat us).status
      ∧ (r.nexts us).toCollectEnergy.toNat
        = (settle r.userId r.toCollectEnergy.toNat us).rest
      ∧ r.creditList us = (settle r.userId r.toCollectEnergy.toNat us).credits := by
  have hna : r.status ≠ .allCollected := by rw [h]; decide
  cases us with
  | nil => simp [settle, nexts, creditList, h]
  | cons u us =>
    rw [nexts_cons, creditList]
    by_cases hu : r.userId = u
    · -- the owner is first: everything goes, and nothing follows
      subst hu
      obtain ⟨hnext, hcred⟩ := next_owner hna
      obtain ⟨h₁, h₂⟩ := nexts_of_allCollected (r := r.mark.emptied) rfl us
      rw [hnext, hcred, h₁, h₂]
      simp [settle, sharedOut_cons_self, emptied]
    · by_cases he : 3 < r.toCollectEnergy
      · -- another user is first and takes the share; then only the owner can
        obtain ⟨hs, hrest, hmod, hcred⟩ := next_other hu h he
        have he' : 3 < r.toCollectEnergy.toNat := UInt32.lt_iff_toNat_lt.mp he
        obtain ⟨n, hn, hn'⟩ := Option.map_eq_some_iff.mp hcred
        obtain ⟨h₁, h₂⟩ := nexts_of_closed hmod (by rw [hs]; decide)
          (Or.inl (by rw [hs]; decide)) us
        rw [userId_next] at h₁ h₂
        rw [h₁, h₂, hn]
        unfold settle
        rw [sharedOut_cons (Ne.symm hu) he']
        by_cases ho : r.userId ∈ us
        · simp [ho, hn', hrest, emptied]
        · simp [ho, hu, hn', hrest, hs]
      · -- too little to share: the request only leaves its mark
        have he' : r.toCollectEnergy.toNat ≤ 3 :=
          Nat.not_lt.mp (fun hlt => he (UInt32.lt_iff_toNat_lt.mpr hlt))
        have hrej : r.rejects u = true := rejects_of_other hu fun h' => he h'.2
        rw [next_of_rejects hna hrej, credit?_of_rejects hrej]
        obtain ⟨h₁, h₂⟩ := nexts_of_closed (r := r.mark) rfl hna (Or.inr he) us
        rw [h₁, h₂]
        unfold settle
        rw [sharedOut_cons_of_le he']
        show (if r.userId ∈ us then _ else _ : MemToCollect).status = _ ∧ _
        by_cases ho : r.userId ∈ us
        · simp [ho, emptied, mark]
        · simp [ho, hu, mark, h]

/-- A mark stays. -/
theorem modified_nexts_of_modified {r : MemToCollect} (h : r.modified = true)
    (us : List CString) : (r.nexts us).modified = true := by
  induction us generalizing r with
  | nil => exact h
  | cons u us ih =>
    refine ih ?_
    unfold next
    split
    · exact h
    · split <;> rfl

/-- **The first request for a record marks it**, whoever makes it, unless
everything is taken. -/
theorem modified_nexts {r : MemToCollect} (h : r.status ≠ .allCollected)
    (us : List CString) : (r.nexts us).modified = (r.modified || !us.isEmpty) := by
  cases us with
  | nil => simp
  | cons u us =>
    have hfirst : (r.next u).modified = true := by
      unfold next
      rw [if_neg h]
      split <;> rfl
    rw [nexts_cons, modified_nexts_of_modified hfirst]
    simp

/-- A record without a mark is as it was. -/
theorem nexts_of_not_modified {r : MemToCollect} {us : List CString}
    (ha : r.status ≠ .allCollected) (h : (r.nexts us).modified = false) :
    r.nexts us = r := by
  rw [modified_nexts ha, Bool.or_eq_false_iff] at h
  have hus : us = [] := by simpa using h.2
  rw [hus, nexts_nil]

end MemToCollect

/-- A request for a record nobody has asked for does not leave the image as it is. -/
theorem collectEnergy_ne {q : Request} {m : Mem} {r : MemToCollect}
    (hr : m.memToCollects q.id = some r) (hs : r.status ≠ .allCollected)
    (hmod : r.modified = false) : collectEnergy q m ≠ m := by
  intro h
  have hslot := congrArg (fun m : Mem => m.memToCollects q.id) h
  rw [memToCollects_collectEnergy, Function.update_self, hr] at hslot
  have hnext : r.nexts [q.userId] = r := Option.some.inj hslot
  have hmark := MemToCollect.modified_nexts hs [q.userId]
  rw [hnext, hmod] at hmark
  exact absurd hmark Bool.false_ne_true

end GreenFinal
