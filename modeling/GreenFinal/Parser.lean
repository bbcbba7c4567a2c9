import GreenFinal.Call
import GreenFinal.Settlement

/-!
# What the parser lets through

A request should take effect exactly as its target says: a well-formed
target collects for the user and the record it names, any other text
changes nothing, and nothing behind the target plays a part. This is
`ParsesSoundly`, for one received chunk and every memory image.

It fails. The search for the second slash is bounded by the number of bytes
received, not by the NUL that ends the target: in `/collect_energy/abc`
followed by `HTTP/1.1` it finds the slash of the version, and the call
collects record 1 for `abc` (`missingSlash`). `strtol` takes `+5`, `5abc` and
a leading tab for numbers, the cast to `int` wraps large ones onto other
records, and a long user segment leaves `user_id`.

`parsesSoundly_iff` says exactly where it holds, as a condition on the target:
another path, or a well-formed target whose user segment is a C string that
fits its array, whose number is an index of `memToCollects`, and which does
not fill the buffer to its last byte.
-/

open CLib

namespace GreenFinal

/-- The change a well-formed target asks for: that of a collect request for
its user segment and its number. Where there is no such user or record,
nothing is to change. -/
def askedFor (u d : List UInt8) (m : Mem) : Mem :=
  if h : (0 : UInt8) ∉ u ∧ decimalValue d < reqTotalCnt + 1 then
    collectEnergy ⟨⟨u, h.1⟩, ⟨decimalValue d, h.2⟩⟩ m
  else m

/-- **A chunk is taken apart soundly**: whatever is in memory, the call returns,
and if it changes anything then the target is well formed and the change is
the one it asks for. -/
def ParsesSoundly (c : Chunk) : Prop :=
  ∀ m, ∃ m', handleRequest c.line c.len m = .ok m'
    ∧ (m' ≠ m → ∃ u d, IsTarget c.target u d ∧ m' = askedFor u d m)

/-- **The targets that are safe**: those of another path, and the well-formed
ones that fit the locals and the array. -/
def SafeTarget (t : List UInt8) : Prop :=
  ¬ collectEnergyPath <+: t
    ∨ ∃ u d, IsTarget t u d ∧ (0 : UInt8) ∉ u ∧ u.length < userIdSize
        ∧ decimalValue d < reqTotalCnt + 1 ∧ t.length + 5 < lineSize

/-- Another path is left alone. -/
theorem handleRequest_of_path_ne {c : Chunk}
    (h : ¬ collectEnergyPath <+: c.target) (m : Mem) :
    handleRequest c.line c.len m = .ok m := by
  have hpath : c.body.take 16 ≠ collectEnergyPath := fun he => h (c.take_body_iff.mp he)
  have hparse : parseRequest c.line c.len = .ok none := if_pos hpath
  unfold handleRequest
  rw [hparse]

/-- The call a well-formed target becomes where it fits and its number, as it is read,
is an index. -/
theorem handleRequest_of_recordIndex? {c : Chunk} {u d : List UInt8}
    (h : IsTarget c.target u d) (hnul : (0 : UInt8) ∉ u)
    (hlen : u.length < userIdSize) (hfit : c.target.length + 5 < lineSize)
    {id : RecordId} (hid : recordIndex? (targetId d) = some id) (m : Mem) :
    handleRequest c.line c.len m = .ok (collectEnergy ⟨⟨u, hnul⟩, id⟩ m) := by
  have hparse := parseRequest_of_isTarget h
  rw [if_pos hlen.le, if_pos hfit] at hparse
  exact Call.handleRequest_eq
    ⟨c, ⟨⟨u, hnul⟩, id⟩, ⟨_, hparse, ofBuffer?_userId hnul hlen, hid⟩⟩ m

/-- **A safe well-formed target does what it asks for.** -/
theorem handleRequest_of_isTarget {c : Chunk} {u d : List UInt8}
    (h : IsTarget c.target u d) (hnul : (0 : UInt8) ∉ u)
    (hlen : u.length < userIdSize) (hid : decimalValue d < reqTotalCnt + 1)
    (hfit : c.target.length + 5 < lineSize) (m : Mem) :
    handleRequest c.line c.len m = .ok (askedFor u d m) := by
  have hindex : recordIndex? (targetId d) = some ⟨decimalValue d, hid⟩ := by
    rw [targetId_of_le (Nat.lt_succ_iff.mp hid)]
    exact recordIndex?_natCast ⟨decimalValue d, hid⟩
  rw [askedFor, dif_pos ⟨hnul, hid⟩]
  exact handleRequest_of_recordIndex? h hnul hlen hfit hindex m

theorem parsesSoundly_of_safeTarget {c : Chunk} (h : SafeTarget c.target) :
    ParsesSoundly c := by
  intro m
  rcases h with h | ⟨u, d, ht, hnul, hlen, hid, hfit⟩
  · exact ⟨m, handleRequest_of_path_ne h m, fun hne => absurd rfl hne⟩
  · exact ⟨_, handleRequest_of_isTarget ht hnul hlen hid hfit m, fun _ => ⟨u, d, ht, rfl⟩⟩

/-- A record that anybody can take from. -/
def openRecord : MemToCollect := { userId := ⟨[], by simp⟩, toCollectEnergy := 10 }

/-- A memory image in which every slot holds such a record. -/
def fullMem : Mem := ⟨fun _ => some openRecord, .empty⟩

/-- No request leaves the full image as it is: at the least it marks its
record. -/
theorem collectEnergy_fullMem_ne (q : Request) : collectEnergy q fullMem ≠ fullMem :=
  collectEnergy_ne (r := openRecord) rfl nofun rfl

/-- On the full image, a call that returns and took the path for its own has
parsed a user and a record. -/
theorem exists_request_of_ok {c : Chunk} (hpre : collectEnergyPath <+: c.target)
    {m' : Mem} (h : handleRequest c.line c.len fullMem = .ok m') :
    ∃ t u id, parseRequest c.line c.len = .ok (some t)
      ∧ CString.ofBuffer? t.userId = some u ∧ recordIndex? t.id = some id
      ∧ m' = collectEnergy ⟨u, id⟩ fullMem := by
  have hsome : parseRequest c.line c.len ≠ .ok none := by
    have hpath := c.take_body_iff.mpr hpre
    unfold parseRequest
    change (if c.body.take 16 ≠ collectEnergyPath then Except.ok none else _) ≠ _
    rw [if_neg (not_not.mpr hpath)]
    intro h
    split at h
    · cases h
    · split at h <;> cases h
  unfold handleRequest at h
  cases hp : parseRequest c.line c.len with
  | error e =>
    rw [hp] at h
    cases h
  | ok o =>
    cases o with
    | none => exact absurd hp hsome
    | some t =>
      rw [hp] at h
      dsimp only at h
      cases hid : recordIndex? t.id with
      | none =>
        rw [hid] at h
        cases h
      | some id =>
        rw [hid] at h
        dsimp only at h
        change (if false = true then _ else _) = _ at h
        rw [if_neg Bool.false_ne_true] at h
        cases hu : CString.ofBuffer? t.userId with
        | none =>
          rw [hu] at h
          cases h
        | some u =>
          rw [hu] at h
          exact ⟨t, u, id, rfl, hu, hid, (Except.ok.inj h).symm⟩

theorem safeTarget_of_parsesSoundly {c : Chunk} (h : ParsesSoundly c) :
    SafeTarget c.target := by
  by_cases hpre : collectEnergyPath <+: c.target
  · obtain ⟨m', hm', hchange⟩ := h fullMem
    obtain ⟨t, v, id, hparse, hbuf, -, rfl⟩ := exists_request_of_ok hpre hm'
    obtain ⟨u, d, ht, heq⟩ := hchange (collectEnergy_fullMem_ne _)
    -- the change is not nothing, so user and record exist …
    have hasked : (0 : UInt8) ∉ u ∧ decimalValue d < reqTotalCnt + 1 := by
      by_contra hn
      rw [askedFor, dif_neg hn] at heq
      exact collectEnergy_fullMem_ne _ heq
    -- … and the target was read to its end without leaving an array
    rw [parseRequest_of_isTarget ht] at hparse
    by_cases hu : u.length ≤ userIdSize
    · rw [if_pos hu] at hparse
      by_cases hfit : c.target.length + 5 < lineSize
      · rw [if_pos hfit] at hparse
        have hbuf' : CString.ofBuffer? (u ++ List.replicate (userIdSize - u.length) 0)
            = some v := by
          rw [← hbuf]
          exact congrArg (fun t : Target => CString.ofBuffer? t.userId)
            (Option.some.inj (Except.ok.inj hparse))
        have hlt : u.length < userIdSize := by
          refine Nat.lt_of_le_of_ne hu (fun he => ?_)
          rw [he, Nat.sub_self, List.replicate_zero, List.append_nil,
            CString.ofBuffer?_of_notMem hasked.1] at hbuf'
          cases hbuf'
        exact Or.inr ⟨u, d, ht, hasked.1, hlt, hasked.2, hfit⟩
      · rw [if_neg hfit] at hparse
        cases hparse
    · rw [if_neg hu] at hparse
      cases hparse
  · exact Or.inl hpre

/-- **Exactly the safe targets are taken apart soundly**, and the result of a
call with a safe target depends on the target alone. -/
theorem parsesSoundly_iff (c : Chunk) :
    (ParsesSoundly c ↔ SafeTarget c.target)
      ∧ (SafeTarget c.target → ∀ c' : Chunk, c'.target = c.target →
        ∀ m, handleRequest c'.line c'.len m = handleRequest c.line c.len m) := by
  refine ⟨⟨safeTarget_of_parsesSoundly, parsesSoundly_of_safeTarget⟩, ?_⟩
  intro h c' heq m
  rcases h with h | ⟨u, d, ht, hnul, hlen, hid, hfit⟩
  · rw [handleRequest_of_path_ne h, handleRequest_of_path_ne (heq ▸ h)]
  · rw [handleRequest_of_isTarget ht hnul hlen hid hfit,
      handleRequest_of_isTarget (heq ▸ ht) hnul hlen hid (heq ▸ hfit)]

/-- A request whose target has no second slash. -/
def missingSlash : Chunk where
  data := ascii "POST /collect_energy/abc HTTP/1.1\r\n\r\n"
  data_ne_nil := by decide
  length_le := by decide

/-- **A target without a record collects record 1**, for the user it names: the
slash found is that of `HTTP/1.1`. -/
theorem missingSlash_not_parsesSoundly :
    (∃ t, parseRequest missingSlash.line missingSlash.len = .ok (some t)
      ∧ CString.ofBuffer? t.userId = some ⟨ascii "abc", by decide⟩ ∧ t.id = 1)
      ∧ ¬ ParsesSoundly missingSlash := by
  have hparse : parseRequest missingSlash.line missingSlash.len
      = .ok (some ⟨ascii "abc" ++ 0 :: (ascii "HTTP" ++ List.replicate 56 0), 1⟩) := by
    decide +kernel
  refine ⟨⟨_, hparse, CString.ofBuffer?_append_nul _ _ (by decide), rfl⟩, fun h => ?_⟩
  have htarget : missingSlash.target = collectEnergyPath ++ ascii "abc" := by decide
  obtain ⟨m', hm', hchange⟩ := h fullMem
  obtain ⟨t, v, id, -, -, -, rfl⟩ :=
    exists_request_of_ok (by rw [htarget]; exact List.prefix_append _ _) hm'
  obtain ⟨u, d, ht, -⟩ := hchange (collectEnergy_fullMem_ne _)
  have habc : ascii "abc" = u ++ slash :: d :=
    List.append_cancel_left (htarget.symm.trans ht.eq)
  have hmem : slash ∈ ascii "abc" := by
    rw [habc]
    simp
  exact absurd hmem (by decide)

end GreenFinal
