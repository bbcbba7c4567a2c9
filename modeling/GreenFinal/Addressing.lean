import GreenFinal.Bounds
import GreenFinal.Conservation

/-!
# Which record a number addresses

The number of a target is read into a `long`, saturated there, cut to an `int` and
used as an index of `memToCollects` without a check. As long as it is at most
`REQ_TOTAL_CNT` this is the identity. A larger one may fall on any index and on
none: `2^32 + 1` is cut to 1, `REQ_TOTAL_CNT + 1` is one past the end of the array,
and everything from `2^63 - 1` on is cut to `-1`.

`AddressesSoundly` is what the number of a request should do: address the record
with that id, if there is one, and nothing otherwise. Among the numbers beyond the
array the multiples of `2^32` do so by chance: they are cut to 0, and slot 0 is
always null (`addressesSoundly_iff`).
-/

open CLib

namespace GreenFinal

/-- **A call with the number `d` addresses what it names**: it returns, with every
index inside `memToCollects`; if there is a record with that id, no other changes,
and if there is none, nothing does. -/
def Addresses (c : Chunk) (d : List UInt8) (m : Mem) : Prop :=
  ∃ m', handleRequest c.line c.len m = .ok m'
    ∧ (∀ id : RecordId, (id : ℕ) = decimalValue d → (m.memToCollects id).isSome = true →
        ∀ id' ≠ id, m'.memToCollects id' = m.memToCollects id')
    ∧ ((∀ id : RecordId, (id : ℕ) = decimalValue d → m.memToCollects id = none) → m' = m)

/-- It does so from every loaded state, and from every state that calls lead to from
there. -/
def AddressesSoundly (c : Chunk) (d : List UInt8) : Prop :=
  ∀ db m, loadInMem db = .ok m → ∀ qs, Addresses c d (collectAll m qs)

/-- **The numbers that are safe**: those of the array, and those that are cut to 0. -/
def SafeNumber (d : List UInt8) : Prop :=
  decimalValue d ≤ reqTotalCnt ∨ (decimalValue d < 2 ^ 63 ∧ 2 ^ 32 ∣ decimalValue d)

/-- Which numbers are cut to 0: the saturated ones are not. -/
theorem targetId_eq_zero_iff {d : List UInt8} :
    targetId d = 0 ↔ decimalValue d < 2 ^ 63 ∧ 2 ^ 32 ∣ decimalValue d := by
  unfold targetId
  rw [← Int.dvd_iff_bmod_eq_zero]
  by_cases hlt : decimalValue d < 2 ^ 63
  · have hclamp : clampLong (decimalValue d) = (decimalValue d : ℤ) := by
      unfold clampLong
      omega
    rw [hclamp, and_iff_right hlt]
    exact Int.natCast_dvd_natCast
  · have hclamp : clampLong (decimalValue d) = 2 ^ 63 - 1 := by
      unfold clampLong
      omega
    rw [hclamp]
    exact iff_of_false (by decide) (fun h => hlt h.1)

section WellFormed

variable {c : Chunk} {u d : List UInt8} {m : Mem}

/-- A number of the array addresses its record, whatever is in memory. -/
theorem addresses_of_le (h : IsTarget c.target u d) (hnul : (0 : UInt8) ∉ u)
    (hlen : u.length < userIdSize) (hfit : c.target.length + 5 < lineSize)
    (hle : decimalValue d ≤ reqTotalCnt) : Addresses c d m := by
  have hindex : recordIndex? (targetId d)
      = some ⟨decimalValue d, Nat.lt_succ_of_le hle⟩ := by
    rw [targetId_of_le hle]
    exact recordIndex?_natCast ⟨decimalValue d, Nat.lt_succ_of_le hle⟩
  refine ⟨_, handleRequest_of_recordIndex? h hnul hlen hfit hindex m, ?_, fun hnone => ?_⟩
  · intro id hid _ id' hne
    have heq : id = ⟨decimalValue d, Nat.lt_succ_of_le hle⟩ := Fin.ext hid
    rw [memToCollects_collectEnergy, Function.update_of_ne (heq ▸ hne)]
  · exact collectEnergy_of_none (hnone ⟨decimalValue d, Nat.lt_succ_of_le hle⟩ rfl)

/-- A number that is cut to 0 addresses nothing, since slot 0 is null. -/
theorem addresses_of_targetId_eq_zero (h : IsTarget c.target u d) (hnul : (0 : UInt8) ∉ u)
    (hlen : u.length < userIdSize) (hfit : c.target.length + 5 < lineSize)
    (hzero : targetId d = 0) (hm : m.memToCollects 0 = none) : Addresses c d m := by
  have hindex : recordIndex? (targetId d) = some 0 := by
    rw [hzero]
    exact recordIndex?_zero
  have hcall := handleRequest_of_recordIndex? h hnul hlen hfit hindex m
  rw [collectEnergy_of_none hm] at hcall
  exact ⟨m, hcall, fun _ _ _ _ _ => rfl, fun _ => rfl⟩

/-- **A number beyond the array that falls on a record changes it.** -/
theorem not_addressesSoundly_of_index (h : IsTarget c.target u d) (hnul : (0 : UInt8) ∉ u)
    (hlen : u.length < userIdSize) (hfit : c.target.length + 5 < lineSize)
    (hlarge : reqTotalCnt < decimalValue d) {id : RecordId}
    (hid : recordIndex? (targetId d) = some id) (hpos : 1 ≤ (id : ℕ)) :
    ¬ AddressesSoundly c d := by
  intro hsound
  obtain ⟨m, hm⟩ := exists_loadInMem_annsDb
  obtain ⟨m', hm', -, hsame⟩ := hsound annsDb m hm []
  have heq : m' = m := hsame fun id' hid' =>
    absurd hid' (Nat.lt_of_lt_of_le id'.isLt hlarge).ne
  rw [collectAll_nil, handleRequest_of_recordIndex? h hnul hlen hfit hid m, heq] at hm'
  have hr := slot_uniformDb hm hpos
  obtain ⟨hs, hmod⟩ := (loaded_of_loadInMem hm).fresh hr
  refine collectEnergy_ne (q := ⟨⟨u, hnul⟩, id⟩) hr ?_ hmod (Except.ok.inj hm')
  rw [hs]
  exact nofun

/-- A call that leaves its arrays addresses nothing. -/
theorem not_addressesSoundly_of_error {e : Fault}
    (h : ∀ m, handleRequest c.line c.len m = .error e) : ¬ AddressesSoundly c d := by
  intro hsound
  obtain ⟨m, hm⟩ := exists_loadInMem_annsDb
  obtain ⟨m', hm', -⟩ := hsound annsDb m hm []
  rw [h] at hm'
  cases hm'

/-- A number that falls outside the array has the call read there. -/
theorem handleRequest_of_badIndex (h : IsTarget c.target u d) (hlen : u.length < userIdSize)
    (hfit : c.target.length + 5 < lineSize) (hid : recordIndex? (targetId d) = none) (m : Mem) :
    handleRequest c.line c.len m = .error .badIndex := by
  have hparse := parseRequest_of_isTarget h
  rw [if_pos hlen.le, if_pos hfit] at hparse
  unfold handleRequest
  rw [hparse]
  dsimp only
  rw [hid]

/-- A target that fills the buffer leaves `strtol` nothing to stop at. -/
theorem handleRequest_of_full (h : IsTarget c.target u d) (hlen : u.length < userIdSize)
    (hfit : ¬ c.target.length + 5 < lineSize) (m : Mem) :
    handleRequest c.line c.len m = .error .lineOverread := by
  have hparse := parseRequest_of_isTarget h
  rw [if_pos hlen.le, if_neg hfit] at hparse
  unfold handleRequest
  rw [hparse]

/-- **Exactly the safe numbers are addressed soundly**, in a target that ends before
the buffer does. -/
theorem addressesSoundly_iff (h : IsTarget c.target u d) (hnul : (0 : UInt8) ∉ u)
    (hlen : u.length < userIdSize) :
    AddressesSoundly c d ↔ SafeNumber d ∧ c.target.length + 5 < lineSize := by
  constructor
  · intro hsound
    by_cases hfit : c.target.length + 5 < lineSize
    · refine ⟨?_, hfit⟩
      by_cases hle : decimalValue d ≤ reqTotalCnt
      · exact Or.inl hle
      · cases hid : recordIndex? (targetId d) with
        | none =>
          exact absurd hsound
            (not_addressesSoundly_of_error (handleRequest_of_badIndex h hlen hfit hid))
        | some id =>
          rcases Nat.eq_zero_or_pos (id : ℕ) with hzero | hpos
          · have htarget := recordIndex?_eq_some.mp hid
            rw [hzero] at htarget
            exact Or.inr (targetId_eq_zero_iff.mp htarget)
          · exact absurd hsound (not_addressesSoundly_of_index h hnul hlen hfit
              (Nat.lt_of_not_le hle) hid hpos)
    · exact absurd hsound (not_addressesSoundly_of_error (handleRequest_of_full h hlen hfit))
  · rintro ⟨hsafe, hfit⟩ db m hload qs
    rcases hsafe with hle | hzero
    · exact addresses_of_le h hnul hlen hfit hle
    · exact addresses_of_targetId_eq_zero h hnul hlen hfit (targetId_eq_zero_iff.mpr hzero)
        (memToCollects_zero hload qs)

end WellFormed

/-- A request of a user for record 1 addresses soundly. -/
theorem addressesSoundly_annsCall :
    AddressesSoundly annsCall.chunk (decimal 1) ∧ SafeNumber (decimal 1) := by
  have htarget := (HttpRequest.plain ann ann_length ann_clean 1 one_le_one).target_of_data_eq
    (c := annsCall.chunk) rfl
  have hsound : AddressesSoundly annsCall.chunk (decimal 1)
      ↔ SafeNumber (decimal 1) ∧ annsCall.chunk.target.length + 5 < lineSize :=
    addressesSoundly_iff
      (htarget ▸ (HttpRequest.plain ann ann_length ann_clean 1 one_le_one).isTarget)
      ann.nulFree ann_length.2
  have hsafe : SafeNumber (decimal 1) := by
    refine Or.inl ?_
    rw [decimalValue_decimal]
    decide
  refine ⟨hsound.mpr ⟨hsafe, ?_⟩, hsafe⟩
  rw [htarget]
  exact HttpRequest.length_target_lt _

/-- A request for a number that no record has. -/
def aliasCall : Chunk where
  data := ascii "POST /collect_energy/ann/4294967297 HTTP/1.1\r\n\r\n"
  data_ne_nil := by decide
  length_le := by decide

/-- A request for the number behind the last record. -/
def pastEndCall : Chunk where
  data := ascii "POST /collect_energy/ann/1000001 HTTP/1.1\r\n\r\n"
  data_ne_nil := by decide
  length_le := by decide

/-- **The number `2^32 + 1` collects record 1**, and `REQ_TOTAL_CNT + 1` is read
behind the array. -/
theorem aliasCall_not_addressesSoundly :
    (∀ m, handleRequest aliasCall.line aliasCall.len m = .ok (collectEnergy ⟨ann, 1⟩ m))
      ∧ handleRequest pastEndCall.line pastEndCall.len fullMem = .error .badIndex
      ∧ ¬ AddressesSoundly aliasCall (ascii "4294967297")
      ∧ ¬ AddressesSoundly pastEndCall (ascii "1000001") := by
  have halias : IsTarget aliasCall.target (ascii "ann") (ascii "4294967297") :=
    ⟨by decide +kernel, by decide, by decide, forall_mem_of_all (by decide)⟩
  have hpast : IsTarget pastEndCall.target (ascii "ann") (ascii "1000001") :=
    ⟨by decide +kernel, by decide, by decide, forall_mem_of_all (by decide)⟩
  have hone : recordIndex? (targetId (ascii "4294967297")) = some 1 := by decide +kernel
  have hnone : recordIndex? (targetId (ascii "1000001")) = none := by decide +kernel
  have hbad : ∀ m, handleRequest pastEndCall.line pastEndCall.len m = .error .badIndex :=
    handleRequest_of_badIndex hpast ann_length.2 (by decide +kernel) hnone
  have hfit : aliasCall.target.length + 5 < lineSize := by decide +kernel
  exact ⟨handleRequest_of_recordIndex? halias ann.nulFree ann_length.2 hfit hone,
    hbad fullMem,
    not_addressesSoundly_of_index halias ann.nulFree ann_length.2 hfit (by decide +kernel) hone
      one_le_one,
    not_addressesSoundly_of_error hbad⟩

end GreenFinal
