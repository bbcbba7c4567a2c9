import GreenFinal.Parser
import GreenFinal.Tables

/-!
# Inside the arrays

The accesses of `handle_request` to its two character arrays, index by index:
the search for the delimiter and the NUL it writes, the comparison with the
path, the search for the slash with the copy into `user_id`, the byte at which
the number starts (`scanAccesses`), and what `strtol` reads from there on
(`numberAccesses`). The list stops at the first access outside its array, since
nothing can be said of what follows. Whether one of them is outside depends on
where the bytes sought are found; none of the loops is bounded by the size of an
array.

The faults of `parseRequest` are these accesses (`accesses_inBounds_iff`), so a
call that returns has stayed inside – in particular on every request as a client
sends it, whatever its user, its record, its method and its tail
(`decodes_encoded`).

On arbitrary bytes it need not. The loop that copies the user segment stops at a
slash or after `len` bytes, whichever comes first, and `user_id` has room for 64
bytes, or for 63 and the NUL that `strcmp` looks for. A user name that fills its
column of 64 characters is one too long, and what the number behind it reads as hardly
matters: only with a number that is cut to 0 is the call sure to return before it looks at
the name. `staysInside_iff` says which buffers are safe.
-/

open CLib

namespace GreenFinal

/-- An access to one of the arrays of `handle_request`. -/
inductive Access where
  /-- Byte `i` of `line` is read or written. -/
  | line (i : ℕ)
  /-- Byte `i` of `user_id` is written. -/
  | userId (i : ℕ)
  deriving DecidableEq

/-- The access is to the array, and not to what lies behind it. -/
def Access.inBounds : Access → Bool
  | .line i => i < lineSize
  | .userId i => i < userIdSize

/-! ## The accesses of the loops -/

/-- The first loop, from index `i` on. -/
def terminateAccesses : ℕ → ℕ → List UInt8 → List Access
  | 0, _, _ => []
  | _ + 1, i, [] => [.line i]
  | n + 1, i, b :: bs =>
      .line i :: if isDelimiter b then [.line i] else terminateAccesses n (i + 1) bs

/-- The second loop, from index `i` of `line` and index `k` of `user_id` on. -/
def copyAccesses : ℕ → ℕ → ℕ → List UInt8 → List Access
  | 0, _, _, _ => []
  | _ + 1, i, _, [] => [.line i]
  | n + 1, i, k, b :: bs =>
      .line i :: if b = slash then []
        else .userId k :: if k < userIdSize then copyAccesses n (i + 1) (k + 1) bs else []

/-- **What `handle_request` itself touches** of `line` and `user_id` while it takes the
request apart, up to the byte it gives `strtol` to start from. -/
def scanAccesses (line : List UInt8) (len : ℕ) : List Access :=
  let body := terminateTarget (len - 5) (line.drop 5)
  terminateAccesses (len - 5) 5 (line.drop 5)
    ++ (List.range' 5 16).map .line
    ++ if body.take 16 ≠ collectEnergyPath then []
      else copyAccesses len 21 0 (body.drop 16)
        ++ match copyUserId len (body.drop 16) userIdSize with
          | .error _ => []
          | .ok (u, _) => [.line (22 + u.length)]

/-- What `strtol` reads, where it is called. -/
def numberAccesses (line : List UInt8) (len : ℕ) : List Access :=
  let body := terminateTarget (len - 5) (line.drop 5)
  if body.take 16 ≠ collectEnergyPath then []
  else
    match copyUserId len (body.drop 16) userIdSize with
    | .error _ => []
    | .ok (u, rest) => (List.range' (22 + u.length) (strtolReads (rest.drop 1))).map .line

/-- **Everything that is touched** of `line` and `user_id` in taking a request apart. -/
def accesses (line : List UInt8) (len : ℕ) : List Access :=
  scanAccesses line len ++ numberAccesses line len

theorem error_ne_ok {ε α : Type*} (e : ε) : ¬ ∃ a : α, (.error e : Except ε α) = .ok a :=
  fun ⟨_, h⟩ => nomatch h

/-- The search for the delimiter is bounded by `len`. -/
theorem inBounds_terminateAccesses {n i : ℕ} (h : i + n ≤ lineSize) (bs : List UInt8) :
    ∀ a ∈ terminateAccesses n i bs, a.inBounds = true := by
  induction n generalizing i bs with
  | zero => exact fun a ha => absurd ha List.not_mem_nil
  | succ n ih =>
    have hi : (Access.line i).inBounds = true :=
      decide_eq_true (Nat.lt_of_lt_of_le (by omega) h)
    intro a ha
    cases bs with
    | nil => rw [List.mem_singleton.mp ha]; exact hi
    | cons b bs =>
      rw [terminateAccesses, List.mem_cons] at ha
      rcases ha with rfl | ha
      · exact hi
      · split at ha
        · rw [List.mem_singleton.mp ha]
          exact hi
        · exact ih (by omega) bs a ha

/-- **The copy stays inside exactly if it meets no fault.** -/
theorem inBounds_copyAccesses {n i k : ℕ} {bs : List UInt8} (hi : i + bs.length = lineSize)
    (hk : k ≤ userIdSize) :
    (∀ a ∈ copyAccesses n i k bs, a.inBounds = true)
      ↔ ∃ p, copyUserId n bs (userIdSize - k) = .ok p := by
  induction n generalizing i k bs with
  | zero => exact iff_of_true (fun a ha => absurd ha List.not_mem_nil) ⟨_, rfl⟩
  | succ n ih =>
    cases bs with
    | nil =>
      refine iff_of_false (fun h => ?_) (error_ne_ok _)
      have hline := of_decide_eq_true (h (.line i) (List.mem_singleton_self _))
      rw [List.length_nil, Nat.add_zero] at hi
      exact absurd hi hline.ne
    | cons b bs =>
      rw [List.length_cons] at hi
      have hline : (Access.line i).inBounds = true := decide_eq_true (by omega)
      rw [copyAccesses, copyUserId, List.forall_mem_cons, and_iff_right hline]
      by_cases hb : b = slash
      · rw [if_pos hb, if_pos hb]
        exact iff_of_true (fun a ha => absurd ha List.not_mem_nil) ⟨_, rfl⟩
      · rw [if_neg hb, if_neg hb, List.forall_mem_cons]
        by_cases hroom : k < userIdSize
        · have hsub : userIdSize - k - 1 = userIdSize - (k + 1) := by omega
          rw [if_pos hroom, if_neg (by omega), ih (i := i + 1) (by omega) hroom, hsub]
          refine (and_iff_right (decide_eq_true hroom)).trans ?_
          cases copyUserId n bs (userIdSize - (k + 1)) with
          | error e => exact iff_of_false (error_ne_ok e) (error_ne_ok e)
          | ok p => exact iff_of_true ⟨p, rfl⟩ ⟨_, rfl⟩
        · have hfull : userIdSize - k = 0 := by omega
          rw [if_pos hfull]
          exact iff_of_false (fun h => hroom (of_decide_eq_true h.1)) (error_ne_ok _)

/-- **What the second loop copies**, where the bytes outlast the room for them: up to
the slash or to the `n`-th byte, if that fits. -/
theorem copyUserId_eq (n : ℕ) {bs : List UInt8} {room : ℕ} (h : room < bs.length) :
    copyUserId n bs room
      = if ((bs.take n).takeWhile (· ≠ slash)).length ≤ room then
          .ok ((bs.take n).takeWhile (· ≠ slash),
            bs.drop ((bs.take n).takeWhile (· ≠ slash)).length)
        else .error .userIdOverflow := by
  induction n generalizing bs room with
  | zero => exact (if_pos (Nat.zero_le room)).symm
  | succ n ih =>
    cases bs with
    | nil => exact absurd h (Nat.not_lt_zero room)
    | cons b bs =>
      rw [List.take_succ_cons, copyUserId]
      by_cases hb : b = slash
      · rw [if_pos hb, List.takeWhile_cons_of_neg (by simpa using hb)]
        exact (if_pos (Nat.zero_le room)).symm
      · rw [if_neg hb, List.takeWhile_cons_of_pos (by simpa using hb), List.length_cons]
        cases room with
        | zero => rfl
        | succ room =>
          rw [if_neg (Nat.succ_ne_zero room), Nat.add_sub_cancel,
            ih (Nat.lt_of_succ_lt_succ h), List.drop_succ_cons]
          by_cases hlen : ((bs.take n).takeWhile (· ≠ slash)).length ≤ room
          · rw [if_pos hlen, if_pos (Nat.succ_le_succ hlen)]
          · rw [if_neg hlen, if_neg (fun h => hlen (Nat.le_of_succ_le_succ h))]

/-! ## Accesses and faults -/

section Buffer

variable {line : List UInt8} {len : ℕ}

/-- The buffer from offset 5, once the target has been terminated. -/
def terminated (line : List UInt8) (len : ℕ) : List UInt8 :=
  terminateTarget (len - 5) (line.drop 5)

/-- **The user segment as it is copied**: from offset 21 to the first slash, `len` bytes
at the most. -/
def userSegment (line : List UInt8) (len : ℕ) : List UInt8 :=
  (((terminated line len).drop 16).take len).takeWhile (· ≠ slash)

/-- Where `strtol` starts: behind the byte that ends the segment. -/
def numberText (line : List UInt8) (len : ℕ) : List UInt8 :=
  (terminated line len).drop (17 + (userSegment line len).length)

theorem length_terminated (hline : line.length = lineSize) :
    (terminated line len).length = lineSize - 5 := by
  rw [terminated, length_terminateTarget, List.length_drop, hline]

theorem copyUserId_terminated (hline : line.length = lineSize) :
    copyUserId len ((terminated line len).drop 16) userIdSize
      = if (userSegment line len).length ≤ userIdSize then
          .ok (userSegment line len,
            (terminated line len).drop (16 + (userSegment line len).length))
        else .error .userIdOverflow := by
  have hroom : userIdSize < ((terminated line len).drop 16).length := by
    rw [List.length_drop, length_terminated hline]
    decide
  rw [copyUserId_eq len hroom, List.drop_drop]
  rfl

theorem drop_terminated (line : List UInt8) (len : ℕ) :
    ((terminated line len).drop (16 + (userSegment line len).length)).drop 1
      = numberText line len := by
  rw [List.drop_drop, numberText]
  congr 1
  omega

/-- **What the first half of `handle_request` makes of a buffer.** -/
theorem parseRequest_eq (hline : line.length = lineSize) :
    parseRequest line len
      = if (terminated line len).take 16 ≠ collectEnergyPath then .ok none
        else if (userSegment line len).length ≤ userIdSize then
          (strtol (numberText line len)).elim (.error .lineOverread) fun n =>
            .ok (some ⟨userSegment line len
              ++ List.replicate (userIdSize - (userSegment line len).length) 0,
              n.bmod (2 ^ 32)⟩)
        else .error .userIdOverflow := by
  have hbody : terminateTarget (len - 5) (line.drop 5) = terminated line len := rfl
  unfold parseRequest
  dsimp only
  rw [hbody, copyUserId_terminated hline]
  by_cases hpath : (terminated line len).take 16 ≠ collectEnergyPath
  · rw [if_pos hpath, if_pos hpath]
  · rw [if_neg hpath, if_neg hpath]
    by_cases hu : (userSegment line len).length ≤ userIdSize
    · rw [if_pos hu, if_pos hu]
      dsimp only
      rw [drop_terminated]
      cases strtol (numberText line len) <;> rfl
    · rw [if_neg hu, if_neg hu]

theorem strtolReads_pos (s : List UInt8) : 0 < strtolReads s := by
  unfold strtolReads digitReads
  cases s.dropWhile isSpace with
  | nil => exact Nat.succ_pos _
  | cons b bs =>
    refine Nat.add_pos_right _ ?_
    dsimp only
    split <;> exact Nat.succ_pos _

/-- A run of reads stays inside exactly if its last one does. -/
theorem inBounds_range' {i n : ℕ} (hn : 0 < n) :
    (∀ a ∈ (List.range' i n).map Access.line, a.inBounds = true) ↔ i + n ≤ lineSize := by
  constructor
  · intro h
    have hlast : i + n - 1 ∈ List.range' i n := List.mem_range'_1.mpr (by omega)
    have hlt : i + n - 1 < lineSize := of_decide_eq_true (h _ (List.mem_map_of_mem hlast))
    omega
  · intro h a ha
    obtain ⟨j, hj, rfl⟩ := List.mem_map.mp ha
    exact decide_eq_true ((List.mem_range'_1.mp hj).2.trans_le h)

/-- **The scans stay inside exactly if the segment fits `user_id`.** -/
theorem scanAccesses_inBounds_iff (hline : line.length = lineSize) (hlen : len ≤ lineSize) :
    (∀ a ∈ scanAccesses line len, a.inBounds = true)
      ↔ (terminated line len).take 16 ≠ collectEnergyPath
        ∨ (userSegment line len).length ≤ userIdSize := by
  have hbody : (terminated line len).length = lineSize - 5 := length_terminated hline
  have hscan : ∀ a ∈ terminateAccesses (len - 5) 5 (line.drop 5), a.inBounds = true := by
    refine inBounds_terminateAccesses ?_ _
    unfold lineSize at hlen ⊢
    omega
  have hpath : ∀ a ∈ (List.range' 5 16).map Access.line, a.inBounds = true :=
    (inBounds_range' (by decide)).mpr (by decide)
  have hrest : 21 + ((terminated line len).drop 16).length = lineSize := by
    rw [List.length_drop, hbody]
    decide
  have hcopy := inBounds_copyAccesses (n := len) hrest (Nat.zero_le _)
  have hterm : terminateTarget (len - 5) (line.drop 5) = terminated line len := rfl
  rw [Nat.sub_zero] at hcopy
  unfold scanAccesses
  dsimp only
  rw [List.forall_mem_append, List.forall_mem_append, and_iff_right hscan,
    and_iff_right hpath, hterm]
  by_cases hne : (terminated line len).take 16 ≠ collectEnergyPath
  · rw [if_pos hne]
    exact iff_of_true (fun a ha => absurd ha List.not_mem_nil) (Or.inl hne)
  · rw [if_neg hne, List.forall_mem_append, hcopy, copyUserId_terminated hline, or_iff_right hne]
    by_cases hu : (userSegment line len).length ≤ userIdSize
    · rw [if_pos hu]
      refine iff_of_true ⟨⟨_, rfl⟩, fun a ha => ?_⟩ hu
      rw [List.mem_singleton.mp ha]
      refine decide_eq_true ?_
      unfold userIdSize at hu
      unfold lineSize
      omega
    · rw [if_neg hu]
      exact iff_of_false (fun h => error_ne_ok _ h.1) hu

/-- … and `strtol`, once the segment has fitted, exactly if the number ends in the
buffer. -/
theorem numberAccesses_inBounds_iff (hline : line.length = lineSize)
    (hfit : (terminated line len).take 16 ≠ collectEnergyPath
      ∨ (userSegment line len).length ≤ userIdSize) :
    (∀ a ∈ numberAccesses line len, a.inBounds = true)
      ↔ (terminated line len).take 16 ≠ collectEnergyPath
        ∨ (strtol (numberText line len)).isSome = true := by
  have hbody : (terminated line len).length = lineSize - 5 := length_terminated hline
  have hterm : terminateTarget (len - 5) (line.drop 5) = terminated line len := rfl
  unfold numberAccesses
  dsimp only
  rw [hterm]
  by_cases hne : (terminated line len).take 16 ≠ collectEnergyPath
  · rw [if_pos hne]
    exact iff_of_true (fun a ha => absurd ha List.not_mem_nil) (Or.inl hne)
  · have hu : (userSegment line len).length ≤ userIdSize := hfit.resolve_left hne
    have hnumber : 22 + (userSegment line len).length
          + strtolReads (numberText line len) ≤ lineSize
        ↔ strtolReads (numberText line len) ≤ (numberText line len).length := by
      rw [numberText, List.length_drop, hbody]
      unfold userIdSize at hu
      unfold lineSize
      omega
    rw [if_neg hne, copyUserId_terminated hline, if_pos hu, or_iff_right hne]
    dsimp only
    rw [drop_terminated, inBounds_range' (strtolReads_pos _), hnumber, strtolReads_le_iff]

/-- **The faults are the accesses outside an array**, as long as no more than the
buffer is said to have been received. -/
theorem accesses_inBounds_iff (hline : line.length = lineSize) (hlen : len ≤ lineSize) :
    (∀ a ∈ accesses line len, a.inBounds = true) ↔ ∃ o, parseRequest line len = .ok o := by
  rw [accesses, List.forall_mem_append, scanAccesses_inBounds_iff hline hlen,
    parseRequest_eq hline]
  by_cases hne : (terminated line len).take 16 ≠ collectEnergyPath
  · rw [if_pos hne]
    exact iff_of_true
      ⟨Or.inl hne, (numberAccesses_inBounds_iff hline (Or.inl hne)).mpr (Or.inl hne)⟩ ⟨_, rfl⟩
  · rw [if_neg hne]
    by_cases hu : (userSegment line len).length ≤ userIdSize
    · rw [if_pos hu, numberAccesses_inBounds_iff hline (Or.inr hu), or_iff_right hne,
        or_iff_right hne, and_iff_right hu]
      cases strtol (numberText line len) with
      | none => exact iff_of_false Bool.false_ne_true (error_ne_ok _)
      | some n => exact iff_of_true rfl ⟨_, rfl⟩
    · rw [if_neg hu]
      exact iff_of_false (fun h => h.1.elim hne hu) (error_ne_ok _)

/-! ## The buffers that are safe -/

/-- **The array `user_id` once the segment is copied**, if there is a copy and it has
stayed inside. -/
def userIdArray (line : List UInt8) (len : ℕ) : Option (List UInt8) :=
  let body := terminateTarget (len - 5) (line.drop 5)
  if body.take 16 ≠ collectEnergyPath then none
  else
    match copyUserId len (body.drop 16) userIdSize with
    | .error _ => none
    | .ok (u, _) => some (u ++ List.replicate (userIdSize - u.length) 0)

/-- **The call returns before it reads `user_id`**: its number ends inside the buffer and is
an index of `memToCollects`, and the slot there passes for the check before the lock. -/
def ReturnsUnread (line : List UInt8) (len : ℕ) (m : Mem) : Prop :=
  ∃ t id, parseRequest line len = .ok (some t) ∧ recordIndex? t.id = some id
    ∧ returnsUnlocked (m.memToCollects id) = true

/-- **A call stays inside its arrays**: every access to `line` and `user_id` is to the
array, and in every loaded state, and every state that calls lead to from there, `user_id`
holds a NUL unless the call returns before it reads it as a string. An access that has left
another array by then does not end the call, and the string is still read. -/
structure StaysInside (line : List UInt8) (len : ℕ) : Prop where
  accesses : ∀ a ∈ scanAccesses line len, a.inBounds = true
  terminated : ∀ db m, loadInMem db = .ok m → ∀ qs array, userIdArray line len = some array →
    (0 : UInt8) ∈ array ∨ ReturnsUnread line len (collectAll m qs)

/-- **The buffers that are safe**: those with another path, and those whose user
segment leaves room for a NUL in `user_id`, or fills it and either holds a NUL or comes
with a number that ends inside the buffer and is cut to 0. -/
def SafeBuffer (line : List UInt8) (len : ℕ) : Prop :=
  (terminated line len).take 16 ≠ collectEnergyPath
    ∨ (userSegment line len).length < userIdSize
    ∨ ((userSegment line len).length = userIdSize
      ∧ ((0 : UInt8) ∈ userSegment line len
        ∨ ∃ n, strtol (numberText line len) = some n ∧ n.bmod (2 ^ 32) = 0))

/-- The number, where one is read, ends inside the buffer. -/
def NumberEnds (line : List UInt8) (len : ℕ) : Prop :=
  (terminated line len).take 16 ≠ collectEnergyPath
    ∨ (strtol (numberText line len)).isSome = true

theorem SafeBuffer.fits (h : SafeBuffer line len) :
    (terminated line len).take 16 ≠ collectEnergyPath
      ∨ (userSegment line len).length ≤ userIdSize :=
  h.imp_right fun h => h.elim le_of_lt fun h => h.1.le

/-- The array holds the segment and the NULs it was filled with. -/
theorem userIdArray_eq (hline : line.length = lineSize) :
    userIdArray line len
      = if (terminated line len).take 16 ≠ collectEnergyPath then none
        else if (userSegment line len).length ≤ userIdSize then
          some (userSegment line len
            ++ List.replicate (userIdSize - (userSegment line len).length) 0)
        else none := by
  have hbody : terminateTarget (len - 5) (line.drop 5) = terminated line len := rfl
  unfold userIdArray
  dsimp only
  rw [hbody, copyUserId_terminated hline]
  by_cases hpath : (terminated line len).take 16 ≠ collectEnergyPath
  · rw [if_pos hpath, if_pos hpath]
  · rw [if_neg hpath, if_neg hpath]
    by_cases hu : (userSegment line len).length ≤ userIdSize
    · rw [if_pos hu, if_pos hu]
    · rw [if_neg hu, if_neg hu]

/-- There is a NUL among them unless the segment has none and fills the array. -/
theorem nul_mem_userId {u : List UInt8} :
    (0 : UInt8) ∈ u ++ List.replicate (userIdSize - u.length) 0
      ↔ (0 : UInt8) ∈ u ∨ u.length < userIdSize := by
  rw [List.mem_append, List.mem_replicate]
  refine or_congr_right ⟨fun h => by omega, fun h => ⟨by omega, rfl⟩⟩

/-- When a call returns before it reads the array. -/
theorem returnsUnread_iff (hline : line.length = lineSize) {m : Mem}
    (hpath : ¬ (terminated line len).take 16 ≠ collectEnergyPath)
    (hu : (userSegment line len).length ≤ userIdSize) :
    ReturnsUnread line len m
      ↔ ∃ n id, strtol (numberText line len) = some n ∧ recordIndex? (n.bmod (2 ^ 32)) = some id
        ∧ returnsUnlocked (m.memToCollects id) = true := by
  have hparse := @parseRequest_eq line len hline
  rw [if_neg hpath, if_pos hu] at hparse
  unfold ReturnsUnread
  rw [hparse]
  cases strtol (numberText line len) with
  | none =>
    rw [Option.elim_none]
    exact iff_of_false (fun ⟨_, _, h, _⟩ => nomatch h) (fun ⟨_, _, h, _⟩ => nomatch h)
  | some n =>
    rw [Option.elim_some]
    constructor
    · rintro ⟨t, id, ht, hid, hret⟩
      obtain rfl := Option.some.inj (Except.ok.inj ht)
      exact ⟨n, id, rfl, hid, hret⟩
    · rintro ⟨n', id, hn, hid, hret⟩
      obtain rfl := Option.some.inj hn
      exact ⟨_, id, rfl, hid, hret⟩

theorem staysInside_of_safeBuffer (hline : line.length = lineSize) (hlen : len ≤ lineSize)
    (h : SafeBuffer line len) : StaysInside line len := by
  refine ⟨(scanAccesses_inBounds_iff hline hlen).mpr h.fits, fun db m hload qs array harray => ?_⟩
  rw [userIdArray_eq hline] at harray
  by_cases hpath : (terminated line len).take 16 ≠ collectEnergyPath
  · rw [if_pos hpath] at harray
    cases harray
  · have hu := h.fits.resolve_left hpath
    rw [if_neg hpath, if_pos hu] at harray
    obtain rfl := Option.some.inj harray
    rcases h.resolve_left hpath with hlt | ⟨-, hmem | ⟨n, hn, hzero⟩⟩
    · exact Or.inl (nul_mem_userId.mpr (Or.inr hlt))
    · exact Or.inl (nul_mem_userId.mpr (Or.inl hmem))
    · -- slot 0 is null, whatever was loaded and called
      refine Or.inr ((returnsUnread_iff hline hpath hu).mpr ⟨n, 0, hn, ?_, ?_⟩)
      · rw [hzero]
        exact recordIndex?_zero
      · rw [memToCollects_zero hload]
        rfl

theorem safeBuffer_of_staysInside (hline : line.length = lineSize) (hlen : len ≤ lineSize)
    (h : StaysInside line len) : SafeBuffer line len := by
  by_cases hpath : (terminated line len).take 16 ≠ collectEnergyPath
  · exact Or.inl hpath
  have hu : (userSegment line len).length ≤ userIdSize :=
    ((scanAccesses_inBounds_iff hline hlen).mp h.accesses).resolve_left hpath
  refine Or.inr ((lt_or_eq_of_le hu).imp_right fun heq => ⟨heq, ?_⟩)
  have harray := @userIdArray_eq line len hline
  rw [if_neg hpath, if_pos hu] at harray
  -- loaded with all ids, every record but that of slot 0 is open
  obtain ⟨m, hm⟩ : ∃ m, loadInMem threeUnitsDb = .ok m :=
    exists_loadInMem_uniformDb
  rcases h.terminated _ m hm [] _ harray with hmem | hret
  · exact Or.inl ((nul_mem_userId.mp hmem).resolve_right heq.not_lt)
  · obtain ⟨n, id, hn, hid, hret⟩ := (returnsUnread_iff hline hpath hu).mp hret
    refine Or.inr ⟨n, hn, ?_⟩
    rw [recordIndex?_eq_some.mp hid]
    by_contra hne
    rw [collectAll_nil, slot_uniformDb hm (by omega)] at hret
    cases hret

/-- **Which buffers are safe.** On any content of the 1024 bytes, of which any number
is said to have been received; and on a safe one `strtol` stays inside too, exactly if
the number ends there. -/
theorem staysInside_iff (hline : line.length = lineSize) (hlen : len ≤ lineSize) :
    (StaysInside line len ↔ SafeBuffer line len)
      ∧ (StaysInside line len →
        ((∀ a ∈ numberAccesses line len, a.inBounds = true) ↔ NumberEnds line len)) := by
  refine ⟨⟨safeBuffer_of_staysInside hline hlen, staysInside_of_safeBuffer hline hlen⟩,
    fun h => numberAccesses_inBounds_iff hline ?_⟩
  exact (scanAccesses_inBounds_iff hline hlen).mp h.accesses

/-- A name that fills the array and holds no NUL is read past its end, unless its number is
cut to 0. -/
theorem not_staysInside_of_full (hline : line.length = lineSize) (hlen : len ≤ lineSize)
    (hpath : (terminated line len).take 16 = collectEnergyPath)
    (hfull : (userSegment line len).length = userIdSize) (hnul : (0 : UInt8) ∉ userSegment line len)
    (hnumber : ∀ n, strtol (numberText line len) = some n → n.bmod (2 ^ 32) ≠ 0) :
    ¬ StaysInside line len := by
  intro h
  rcases safeBuffer_of_staysInside hline hlen h with hne | hlt | ⟨-, hmem | ⟨n, hn, hzero⟩⟩
  · exact hne hpath
  · exact hlt.ne hfull
  · exact hnul hmem
  · exact hnumber n hn hzero

end Buffer

/-- A request for record 1. -/
def annsCall : Call := HttpRequest.plainCall ann ann_length ann_clean 1 one_le_one

/-- Its buffer is safe, and its number ends there. -/
theorem staysInside_annsCall :
    StaysInside annsCall.chunk.line annsCall.chunk.len
      ∧ ∀ a ∈ numberAccesses annsCall.chunk.line annsCall.chunk.len, a.inBounds = true := by
  obtain ⟨hsafe, hnumber⟩ := staysInside_iff annsCall.chunk.length_line annsCall.chunk.length_le
  have hstays : StaysInside annsCall.chunk.line annsCall.chunk.len :=
    hsafe.mpr (Or.inr (Or.inl (by decide +kernel)))
  exact ⟨hstays, (hnumber hstays).mpr (Or.inr (by decide +kernel))⟩

/-- A request whose name has `n` letters, for the record `number`. -/
def longName (n : ℕ) (number : String) : List UInt8 :=
  ascii "POST /collect_energy/" ++ (List.replicate n 97 ++ ascii "/" ++ ascii number
    ++ ascii " HTTP/1.1\r\n\r\n")

/-- It names a user of 64 letters, as many as the column holds. -/
def fullName : Chunk := ⟨longName 64 "1", by decide, by decide⟩

/-- The same user asks for a record that is not there. -/
def fullNameFar : Chunk := ⟨longName 64 "1000001", by decide, by decide⟩

/-- It names a user of 65 letters. -/
def overlongName : Chunk := ⟨longName 65 "1", by decide, by decide⟩

/-- **A name that fills `user_id` leaves no room for its NUL**, whether or not the record
is there, and a longer one is written past its end. -/
theorem fullName_not_staysInside :
    (∃ db m, loadInMem db = .ok m
      ∧ handleRequest fullName.line fullName.len m = .error .userIdUnterminated)
      ∧ ¬ StaysInside fullName.line fullName.len
      ∧ (∀ m, handleRequest fullNameFar.line fullNameFar.len m = .error .badIndex)
      ∧ ¬ StaysInside fullNameFar.line fullNameFar.len
      ∧ parseRequest overlongName.line overlongName.len = .error .userIdOverflow
      ∧ ¬ StaysInside overlongName.line overlongName.len := by
  have hfull : parseRequest fullName.line fullName.len
      = .ok (some ⟨List.replicate 64 97, 1⟩) := by decide +kernel
  have hfar : parseRequest fullNameFar.line fullNameFar.len
      = .ok (some ⟨List.replicate 64 97, 1000001⟩) := by decide +kernel
  refine ⟨?_, ?_, fun m => ?_, ?_, by decide +kernel,
    fun h => absurd h.accesses (by decide +kernel)⟩
  · obtain ⟨m, hm⟩ : ∃ m, loadInMem threeUnitsDb = .ok m :=
      exists_loadInMem_uniformDb
    refine ⟨_, m, hm, ?_⟩
    have hslot : returnsUnlocked (m.memToCollects 1) = false := by
      rw [slot_uniformDb hm one_le_one]
      rfl
    unfold handleRequest
    rw [hfull]
    dsimp only
    rw [show recordIndex? 1 = some 1 from recordIndex?_natCast 1]
    dsimp only
    rw [hslot, if_neg Bool.false_ne_true, CString.ofBuffer?_of_notMem (by decide)]
  · have hnumber : strtol (numberText fullName.line fullName.len) = some 1 := by decide +kernel
    refine not_staysInside_of_full fullName.length_line fullName.length_le (by decide +kernel)
      (by decide +kernel) (by decide +kernel) fun n hn => ?_
    obtain rfl := Option.some.inj (hnumber.symm.trans hn)
    decide
  · unfold handleRequest
    rw [hfar]
    dsimp only
    rw [show recordIndex? 1000001 = none from recordIndex?_eq_none.mpr (Or.inr (by decide))]
  · have hnumber : strtol (numberText fullNameFar.line fullNameFar.len) = some 1000001 := by
      decide +kernel
    refine not_staysInside_of_full fullNameFar.length_line fullNameFar.length_le
      (by decide +kernel) (by decide +kernel) (by decide +kernel) fun n hn => ?_
    obtain rfl := Option.some.inj (hnumber.symm.trans hn)
    decide

/-! ## Requests as a client sends them -/

/-- **Parsing undoes sending.** A request that arrives in one chunk is taken apart
into exactly its user and its record, inside the arrays, and collects for them –
whatever its method and its tail. -/
theorem decodes_encoded (r : HttpRequest) {c : Chunk} (h : c.data = r.bytes) :
    parseRequest c.line c.len
        = .ok (some ⟨r.userId.bytes ++ List.replicate (userIdSize - r.userId.bytes.length) 0,
          ((r.id : ℕ) : ℤ)⟩)
      ∧ CString.ofBuffer? (r.userId.bytes
        ++ List.replicate (userIdSize - r.userId.bytes.length) 0) = some r.userId
      ∧ recordIndex? ((r.id : ℕ) : ℤ) = some r.id
      ∧ (∀ a ∈ accesses c.line c.len, a.inBounds = true)
      ∧ ∀ m, handleRequest c.line c.len m = .ok (collectEnergy ⟨r.userId, r.id⟩ m) := by
  have hparse := r.parseRequest_eq h
  exact ⟨hparse, ofBuffer?_userId r.userId.nulFree r.length_userId.2, recordIndex?_natCast r.id,
    (accesses_inBounds_iff c.length_line c.length_le).mpr ⟨_, hparse⟩,
    (Call.ofHttp r c h).handleRequest_eq⟩

theorem decodes_encoded_annsCall :
    (∀ a ∈ accesses annsCall.chunk.line annsCall.chunk.len, a.inBounds = true)
      ∧ handleRequest annsCall.chunk.line annsCall.chunk.len fullMem
        = .ok (collectEnergy ⟨ann, 1⟩ fullMem) := by
  obtain ⟨-, -, -, hacc, hcall⟩ := decodes_encoded
    (HttpRequest.plain ann ann_length ann_clean 1 one_le_one) (c := annsCall.chunk) rfl
  exact ⟨hacc, hcall fullMem⟩

end GreenFinal
