import GreenFinal.HandleRequest

/-!
# Well-formed targets and calls

A request target is well formed when it is `/collect_energy/`, a user
segment without a slash, a slash and a decimal number: `IsTarget t u d`.
`parseRequest_of_isTarget` says what `handle_request` makes of such a
target, for every segment and every number: it depends on the target alone,
except that a target running to the last byte of a full buffer leaves
`strtol` nothing to stop at.

A `Call` packages a received chunk with the request it is taken apart into,
so that later modules can speak of the request and still be speaking of
`handle_request` (`Call.handleRequest_eq`). `HttpRequest` is the other
direction, the text a client sends, and `Call.ofHttp` the call it becomes
when it arrives in one chunk.
-/

open CLib

namespace GreenFinal

/-- **A well-formed target**, with its user segment and its number. -/
structure IsTarget (t u d : List UInt8) : Prop where
  /-- The target is the path, the user segment, a slash and the number. -/
  eq : t = collectEnergyPath ++ (u ++ slash :: d)
  /-- The user segment holds no slash. -/
  noSlash : slash ∉ u
  /-- The number is not missing. -/
  ne_nil : d ≠ []
  /-- The number is made of digits. -/
  digits : ∀ b ∈ d, isDigit b = true

namespace IsTarget

variable {t u d : List UInt8}

theorem length_eq (h : IsTarget t u d) : t.length = 17 + u.length + d.length := by
  rw [h.eq, List.length_append, List.length_append, List.length_cons,
    length_collectEnergyPath]
  omega

theorem prefix_target (h : IsTarget t u d) : collectEnergyPath <+: t := by
  rw [h.eq]
  exact List.prefix_append _ _

end IsTarget

theorem length_terminateTarget (n : ℕ) (bs : List UInt8) :
    (terminateTarget n bs).length = bs.length := by
  induction n generalizing bs with
  | zero => rfl
  | succ n ih =>
    cases bs with
    | nil => rfl
    | cons b bs =>
      rw [terminateTarget]
      split
      · rfl
      · rw [List.length_cons, List.length_cons, ih]

theorem Chunk.length_body (c : Chunk) : c.body.length = lineSize - 5 := by
  rw [body, length_terminateTarget, List.length_drop, c.length_line]

theorem Chunk.length_target_le (c : Chunk) : c.target.length ≤ c.len - 5 := by
  refine (List.takeWhile_sublist _).length_le.trans ?_
  rw [List.length_drop]
  rfl

/-- The record number of a target, as `strtol` and the cast leave it. -/
def targetId (d : List UInt8) : ℤ := (clampLong (decimalValue d)).bmod (2 ^ 32)

/-- Once the user segment is copied, `strtol` decides. -/
theorem Chunk.parseRequest_of_copy {c : Chunk} {u rest : List UInt8}
    (hpath : c.body.take 16 = collectEnergyPath)
    (h : copyUserId c.len (c.body.drop 16) userIdSize = .ok (u, rest)) :
    parseRequest c.line c.len
      = (strtol (rest.drop 1)).elim (.error .lineOverread) fun n =>
          .ok (some ⟨u ++ List.replicate (userIdSize - u.length) 0, n.bmod (2 ^ 32)⟩) := by
  have hbody : terminateTarget (c.len - 5) (c.line.drop 5) = c.body := rfl
  unfold parseRequest
  dsimp only
  rw [hbody, if_neg (not_not.mpr hpath), h]
  dsimp only
  cases strtol (rest.drop 1) <;> rfl

theorem Chunk.parseRequest_of_overflow {c : Chunk} {e : Fault}
    (hpath : c.body.take 16 = collectEnergyPath)
    (h : copyUserId c.len (c.body.drop 16) userIdSize = .error e) :
    parseRequest c.line c.len = .error e := by
  have hbody : terminateTarget (c.len - 5) (c.line.drop 5) = c.body := rfl
  unfold parseRequest
  dsimp only
  rw [hbody, if_neg (not_not.mpr hpath), h]

/-- **How a well-formed target is taken apart.** The user segment has to fit
its array; the number has to be followed by something in the buffer. -/
theorem parseRequest_of_isTarget {c : Chunk} {u d : List UInt8}
    (h : IsTarget c.target u d) :
    parseRequest c.line c.len
      = if u.length ≤ userIdSize then
          if c.target.length + 5 < lineSize then
            .ok (some ⟨u ++ List.replicate (userIdSize - u.length) 0, targetId d⟩)
          else .error .lineOverread
        else .error .userIdOverflow := by
  have hpath : c.body.take 16 = collectEnergyPath := c.take_body_iff.mpr h.prefix_target
  have hlen : u.length < c.len := by
    have h₁ := h.length_eq
    have h₂ := c.length_target_le
    omega
  have hscan : ∀ rest : List UInt8, c.body = c.target ++ rest →
      copyUserId c.len (c.body.drop 16) userIdSize
        = if u.length ≤ userIdSize then .ok (u, slash :: (d ++ rest))
          else .error .userIdOverflow := by
    intro rest hrest
    have hdrop : c.body.drop 16 = u ++ slash :: (d ++ rest) := by
      rw [hrest, h.eq, List.append_assoc, List.drop_append_of_le_length
        length_collectEnergyPath.ge, ← length_collectEnergyPath, List.drop_length,
        List.nil_append, List.append_assoc, List.cons_append]
    rw [hdrop, copyUserId_append_slash h.noSlash hlen]
  -- the target ends at the NUL, or it runs on to the end of the buffer and
  -- `strtol` past it
  rcases c.body_eq with ⟨rest, hb⟩ | ⟨hb, hfull⟩
  · have hshort : c.target.length + 5 < lineSize := by
      have hl := c.length_body
      rw [hb, List.length_append, List.length_cons] at hl
      unfold lineSize at hl ⊢
      omega
    have hcopy := hscan (0 :: rest) hb
    by_cases hu : u.length ≤ userIdSize
    · rw [if_pos hu] at hcopy ⊢
      rw [Chunk.parseRequest_of_copy hpath hcopy, if_pos hshort, List.drop_one, List.tail_cons,
        strtol_digits h.ne_nil h.digits rfl]
      rfl
    · rw [if_neg hu] at hcopy ⊢
      exact Chunk.parseRequest_of_overflow hpath hcopy
  · have hcopy := hscan [] (by rw [List.append_nil]; exact hb)
    by_cases hu : u.length ≤ userIdSize
    · rw [if_pos hu] at hcopy ⊢
      rw [Chunk.parseRequest_of_copy hpath hcopy, if_neg (by omega), List.drop_one, List.tail_cons,
        List.append_nil, strtol_digits_eq_none h.digits]
      rfl
    · rw [if_neg hu] at hcopy ⊢
      exact Chunk.parseRequest_of_overflow hpath hcopy

/-- A number in the range of the array is read as itself. -/
theorem targetId_of_le {d : List UInt8} (h : decimalValue d ≤ reqTotalCnt) :
    targetId d = (decimalValue d : ℤ) := by
  have hclamp : clampLong (decimalValue d) = (decimalValue d : ℤ) := by
    unfold clampLong reqTotalCnt at *
    omega
  unfold targetId
  rw [hclamp]
  unfold reqTotalCnt at h
  refine Int.bmod_eq_of_le ?_ ?_
  · omega
  · omega

/-! ## Calls -/

/-- **A call of `handle_request` on a request for a record in the array**: the
chunk received, and the request it is taken apart into. -/
structure Call where
  /-- The chunk received. -/
  chunk : Chunk
  /-- What it asks for. -/
  request : Request
  /-- `handle_request` takes the chunk apart into the request. -/
  parses : ∃ t, parseRequest chunk.line chunk.len = .ok (some t)
    ∧ CString.ofBuffer? t.userId = some request.userId
    ∧ recordIndex? t.id = some request.id

theorem collectEnergy_of_returnsUnlocked {q : Request} {m : Mem}
    (h : returnsUnlocked (m.memToCollects q.id) = true) : collectEnergy q m = m := by
  unfold collectEnergy
  cases hr : m.memToCollects q.id with
  | none => rfl
  | some r =>
    rw [hr] at h
    exact if_pos (of_decide_eq_true h)

/-- **`handle_request` collects what its chunk asks for.** -/
theorem Call.handleRequest_eq (c : Call) (m : Mem) :
    handleRequest c.chunk.line c.chunk.len m = .ok (collectEnergy c.request m) := by
  obtain ⟨t, ht, hu, hid⟩ := c.parses
  have hcollect : handleRequest c.chunk.line c.chunk.len m
      = if returnsUnlocked (m.memToCollects c.request.id) then .ok m
        else .ok (collectEnergy c.request m) := by
    unfold handleRequest
    rw [ht]
    dsimp only
    rw [hid]
    dsimp only
    rw [hu]
  rw [hcollect]
  by_cases h : returnsUnlocked (m.memToCollects c.request.id) = true
  · rw [if_pos h, collectEnergy_of_returnsUnlocked h]
  · rw [if_neg h]

/-- `handle_request` on the chunks of a list, one call after another. -/
def handleRequests : List Call → Mem → Except Fault Mem
  | [], m => .ok m
  | c :: cs, m =>
    match handleRequest c.chunk.line c.chunk.len m with
    | .error e => .error e
    | .ok m' => handleRequests cs m'

theorem handleRequests_eq (cs : List Call) (m : Mem) :
    handleRequests cs m = .ok (collectAll m (cs.map Call.request)) := by
  induction cs generalizing m with
  | nil => rfl
  | cons c cs ih =>
    rw [handleRequests, c.handleRequest_eq]
    exact ih _

/-! ## Requests as a client sends them -/

/-- What holds of the bytes of a text can be checked byte by byte. -/
theorem forall_mem_of_all {p : UInt8 → Prop} [DecidablePred p] {bs : List UInt8}
    (h : bs.all (fun b => decide (p b)) = true) : ∀ b ∈ bs, p b :=
  fun b hb => of_decide_eq_true (List.all_eq_true.mp h b hb)

/-- **A collect request on the wire**: five bytes of method, the target, and a
tail – version, headers, body – that starts with a delimiter. -/
structure HttpRequest where
  /-- The method and the space after it; `handle_request` skips five bytes
  without looking at them. -/
  method : List UInt8
  length_method : method.length = 5
  /-- The user. -/
  userId : CString
  /-- The name fits `user_id` with its NUL, and is not empty. -/
  length_userId : 1 ≤ userId.bytes.length ∧ userId.bytes.length < userIdSize
  /-- The name holds nothing that ends it early. -/
  userId_clean : ∀ b ∈ userId.bytes, b ≠ slash ∧ isDelimiter b = false
  /-- The record. -/
  id : RecordId
  /-- The table's keys start at one. -/
  id_pos : 1 ≤ (id : ℕ)
  /-- What follows the target. -/
  tail : List UInt8
  /-- The target is followed by a delimiter or by nothing. -/
  tail_delimiter : ∀ b ∈ tail.head?, isDelimiter b = true

namespace HttpRequest

/-- The request target. -/
def target (r : HttpRequest) : List UInt8 :=
  collectEnergyPath ++ (r.userId.bytes ++ slash :: decimal r.id)

/-- The text of the request. -/
def bytes (r : HttpRequest) : List UInt8 := r.method ++ r.target ++ r.tail

/-- What the request asks for. -/
def request (r : HttpRequest) : Request := ⟨r.userId, r.id⟩

theorem isTarget (r : HttpRequest) : IsTarget r.target r.userId.bytes (decimal r.id) where
  eq := rfl
  noSlash := fun h => (r.userId_clean slash h).1 rfl
  ne_nil := decimal_ne_nil (Nat.one_le_iff_ne_zero.mp r.id_pos)
  digits := fun _ h => isDigit_of_mem_decimal h

/-- A digit does not end a target. -/
theorem isDelimiter_of_isDigit {b : UInt8} (h : isDigit b = true) :
    isDelimiter b = false := by
  obtain ⟨hsp, -, -, -⟩ := isDigit_facts h
  unfold isSpace at hsp
  unfold isDelimiter
  rw [Bool.or_eq_false_iff] at hsp ⊢
  have hne : ∀ c : UInt8, (9 ≤ c && c ≤ 13) = true → b ≠ c :=
    fun c hc hbc => by rw [hbc, hc] at hsp; exact absurd hsp.2 (by decide)
  rw [Bool.or_eq_false_iff]
  exact ⟨⟨hsp.1, decide_eq_false (hne 13 (by decide))⟩,
    decide_eq_false (hne 10 (by decide))⟩

theorem target_clean (r : HttpRequest) : ∀ b ∈ r.target, isDelimiter b = false := by
  intro b hb
  rw [target, List.mem_append, List.mem_append, List.mem_cons] at hb
  rcases hb with hb | hb | rfl | hb
  · exact forall_mem_of_all (show collectEnergyPath.all
      (fun b => decide (isDelimiter b = false)) = true by decide) b hb
  · exact (r.userId_clean b hb).2
  · rfl
  · exact isDelimiter_of_isDigit (isDigit_of_mem_decimal hb)

theorem bytes_ne_nil (r : HttpRequest) : r.bytes ≠ [] := by
  intro h
  have := congrArg List.length h
  rw [bytes, List.length_append, List.length_append, r.length_method] at this
  simp at this

/-- A request that arrives whole has its target where `handle_request` looks
for it. -/
theorem target_of_data_eq (r : HttpRequest) {c : Chunk} (h : c.data = r.bytes) :
    c.target = r.target := by
  have hdrop : c.data.drop 5 = r.target ++ r.tail := by
    rw [h, bytes, List.append_assoc, ← r.length_method, List.drop_left]
  rw [Chunk.target, hdrop, List.takeWhile_append_of_pos (fun b hb => by
    rw [r.target_clean b hb]; rfl)]
  cases ht : r.tail with
  | nil => rw [List.takeWhile_nil, List.append_nil]
  | cons b rest =>
    have hb := r.tail_delimiter b (by rw [ht]; rfl)
    rw [List.takeWhile_cons_of_neg (by rw [hb]; exact Bool.false_ne_true), List.append_nil]

/-- The number of a record has seven digits at the most. -/
theorem length_decimal_le (id : RecordId) : (decimal id).length ≤ 7 := by
  rw [decimal, List.length_map, List.length_reverse]
  refine Nat.digits_length_le_iff (by decide) _ |>.mpr ?_
  have := id.isLt
  unfold reqTotalCnt at this
  omega

/-- A target of a user and a record is short. -/
theorem length_target_lt (r : HttpRequest) : r.target.length + 5 < lineSize := by
  have hlen := r.isTarget.length_eq
  have hu := r.length_userId
  have hd := length_decimal_le r.id
  unfold lineSize userIdSize at *
  omega

end HttpRequest

/-- A name that leaves room for its NUL is read back from `user_id`. -/
theorem ofBuffer?_userId {u : List UInt8} (hnul : (0 : UInt8) ∉ u) (hlen : u.length < userIdSize) :
    CString.ofBuffer? (u ++ List.replicate (userIdSize - u.length) 0) = some ⟨u, hnul⟩ := by
  have hsucc : userIdSize - u.length = (userIdSize - u.length - 1) + 1 := by omega
  rw [hsucc, List.replicate_succ, CString.ofBuffer?_append_nul _ _ hnul]

/-- **Decoding undoes encoding**: the arrays a request is taken apart into hold its
user and its record, whatever its method and its tail. -/
theorem HttpRequest.parseRequest_eq (r : HttpRequest) {c : Chunk} (h : c.data = r.bytes) :
    parseRequest c.line c.len
      = .ok (some ⟨r.userId.bytes ++ List.replicate (userIdSize - r.userId.bytes.length) 0,
        ((r.id : ℕ) : ℤ)⟩) := by
  have htarget := r.target_of_data_eq h
  have hid : decimalValue (decimal r.id) = r.id := decimalValue_decimal _
  have hle : decimalValue (decimal r.id) ≤ reqTotalCnt := by
    rw [hid]
    exact Nat.lt_succ_iff.mp r.id.isLt
  have hparse := parseRequest_of_isTarget (c := c) (htarget ▸ r.isTarget)
  rw [if_pos r.length_userId.2.le, htarget, if_pos r.length_target_lt, targetId_of_le hle,
    hid] at hparse
  exact hparse

/-- The call a request becomes when it arrives in one chunk. -/
def Call.ofHttp (r : HttpRequest) (c : Chunk) (h : c.data = r.bytes) : Call where
  chunk := c
  request := r.request
  parses := ⟨_, r.parseRequest_eq h, ofBuffer?_userId r.userId.nulFree r.length_userId.2,
    recordIndex?_natCast r.id⟩

/-- The call of a request that fits the buffer and arrives in one chunk. -/
def HttpRequest.call (r : HttpRequest) (h : r.bytes.length ≤ lineSize) : Call :=
  Call.ofHttp r ⟨r.bytes, r.bytes_ne_nil, h⟩ rfl

/-- The plainest request for a record: no headers, no body. -/
def HttpRequest.plain (u : CString) (hlen : 1 ≤ u.bytes.length ∧ u.bytes.length < userIdSize)
    (hclean : ∀ b ∈ u.bytes, b ≠ slash ∧ isDelimiter b = false) (id : RecordId)
    (hid : 1 ≤ (id : ℕ)) : HttpRequest where
  method := ascii "POST "
  length_method := rfl
  userId := u
  length_userId := hlen
  userId_clean := hclean
  id := id
  id_pos := hid
  tail := ascii " HTTP/1.1\r\n\r\n"
  tail_delimiter := fun b hb => by
    obtain rfl : 32 = b := Option.some.inj hb
    rfl

/-- It fits the buffer. -/
theorem HttpRequest.length_plain_le (u : CString)
    (hlen : 1 ≤ u.bytes.length ∧ u.bytes.length < userIdSize)
    (hclean : ∀ b ∈ u.bytes, b ≠ slash ∧ isDelimiter b = false) (id : RecordId)
    (hid : 1 ≤ (id : ℕ)) : (plain u hlen hclean id hid).bytes.length ≤ lineSize := by
  have htarget := (plain u hlen hclean id hid).isTarget.length_eq
  have hd := length_decimal_le id
  have hbytes : (plain u hlen hclean id hid).bytes.length
      = 5 + (plain u hlen hclean id hid).target.length + 13 := by
    rw [bytes, List.length_append, List.length_append]
    rfl
  change _ = 17 + u.bytes.length + (decimal id).length at htarget
  unfold userIdSize at hlen
  unfold lineSize
  omega

/-- The call of such a request. -/
def HttpRequest.plainCall (u : CString)
    (hlen : 1 ≤ u.bytes.length ∧ u.bytes.length < userIdSize)
    (hclean : ∀ b ∈ u.bytes, b ≠ slash ∧ isDelimiter b = false) (id : RecordId)
    (hid : 1 ≤ (id : ℕ)) : Call :=
  (plain u hlen hclean id hid).call (length_plain_le u hlen hclean id hid)

/-- Two users to try things with. -/
def ann : CString := ⟨ascii "ann", by decide⟩

@[inherit_doc ann]
def bob : CString := ⟨ascii "bob", by decide⟩

theorem ann_length : 1 ≤ ann.bytes.length ∧ ann.bytes.length < userIdSize := by decide

theorem bob_length : 1 ≤ bob.bytes.length ∧ bob.bytes.length < userIdSize := by decide

theorem ann_clean : ∀ b ∈ ann.bytes, b ≠ slash ∧ isDelimiter b = false :=
  forall_mem_of_all (by decide)

theorem bob_clean : ∀ b ∈ bob.bytes, b ≠ slash ∧ isDelimiter b = false :=
  forall_mem_of_all (by decide)

/-! ## The share of another user -/

/-- **What a call leaves of a record that another user takes the share of.** -/
theorem Call.handleRequest_of_other {c : Call} {m : Mem} {r : MemToCollect}
    (hr : m.memToCollects c.request.id = some r) (hu : r.userId ≠ c.request.userId)
    (hs : r.status = .empty) (he : 3 < r.toCollectEnergy) :
    handleRequest c.chunk.line c.chunk.len m
      = .ok ((m.credit c.request.userId
          (toCollectEnergyCount r.toCollectEnergy).toUInt32).setRecord c.request.id
            { r with
              status := .collectedByOther
              toCollectEnergy := r.toCollectEnergy
                - (toCollectEnergyCount r.toCollectEnergy).toUInt32
              modified := true }) := by
  have hacc : r.rejects c.request.userId = false :=
    MemToCollect.rejects_eq_false_iff.mpr ⟨by rw [hs]; exact nofun, Or.inr ⟨hs, he⟩⟩
  have hamt : r.amount c.request.userId
      = (toCollectEnergyCount r.toCollectEnergy).toUInt32 := if_neg hu
  have hnext : (r.mark.debit c.request.userId (r.amount c.request.userId)).close
      c.request.userId
      = { r with
          status := .collectedByOther
          toCollectEnergy := r.toCollectEnergy
            - (toCollectEnergyCount r.toCollectEnergy).toUInt32
          modified := true } := by
    unfold MemToCollect.close MemToCollect.debit MemToCollect.mark
    dsimp only
    rw [if_neg hu, if_neg hu, hamt]
  rw [c.handleRequest_eq, collectEnergy_of_some hr, MemToCollect.credit?_of_accepts hacc,
    MemToCollect.next_of_accepts hacc, hnext, hamt, Option.elim_some]

/-- **The thirty percent are exact.** The rounded product has the integer part of
three tenths for every energy, and it is an `int`; so a call by another user than the
owner, where it takes the share, takes at least one unit and not all, the subtraction
does not wrap, and the owner is left exactly the rest. -/
theorem thirtyPercent_exact (e : UInt32) :
    Binary64.mulFloor e.toNat threeTenths 54 = 3 * e.toNat / 10
      ∧ 3 * e.toNat / 10 < 2 ^ 31
      ∧ (toCollectEnergyCount e).toInt = ((3 * e.toNat / 10 : ℕ) : ℤ)
      ∧ ∀ (c : Call) (m : Mem) (r : MemToCollect), m.memToCollects c.request.id = some r →
        r.toCollectEnergy = e → r.userId ≠ c.request.userId → r.status = .empty → 3 < e →
          ∃ s : UInt32, handleRequest c.chunk.line c.chunk.len m
              = .ok ((m.credit c.request.userId s).setRecord c.request.id
                { r with
                  status := .collectedByOther
                  toCollectEnergy := e - s
                  modified := true })
            ∧ s.toNat = 3 * e.toNat / 10 ∧ 1 ≤ s ∧ s < e
            ∧ (e - s).toNat = e.toNat - 3 * e.toNat / 10 := by
  have hlt : e.toNat < 2 ^ 32 := e.toNat_lt
  have hshare := toNat_toCollectEnergyCount e
  refine ⟨mulFloor_threeTenths hlt, by omega, toInt_toCollectEnergyCount e, ?_⟩
  rintro c m r hr rfl hu hs he
  have he' : 3 < r.toCollectEnergy.toNat := UInt32.lt_iff_toNat_lt.mp he
  have hle : (toCollectEnergyCount r.toCollectEnergy).toUInt32 ≤ r.toCollectEnergy :=
    UInt32.le_iff_toNat_le.mpr (by omega)
  refine ⟨_, Call.handleRequest_of_other hr hu hs he, hshare, ?_, ?_, ?_⟩
  · rw [UInt32.le_iff_toNat_le, hshare]
    show 1 ≤ _
    omega
  · rw [UInt32.lt_iff_toNat_lt, hshare]
    omega
  · rw [UInt32.toNat_sub_of_le _ _ hle, hshare]

/-- A record of ten units, and another user's call for it. -/
theorem thirtyPercent_exact_ten :
    ∃ s : UInt32, handleRequest
        (HttpRequest.plainCall bob bob_length bob_clean 1 one_le_one).chunk.line
        (HttpRequest.plainCall bob bob_length bob_clean 1 one_le_one).chunk.len
        ⟨fun _ => some { userId := ann, toCollectEnergy := 10 }, .empty⟩
      = .ok ((Mem.credit ⟨fun _ => some { userId := ann, toCollectEnergy := 10 }, .empty⟩
          bob s).setRecord 1 ⟨ann, .collectedByOther, 10 - s, true⟩)
        ∧ s.toNat = 3 := by
  obtain ⟨s, hcall, hs, -⟩ := (thirtyPercent_exact 10).2.2.2
    (HttpRequest.plainCall bob bob_length bob_clean 1 one_le_one)
    ⟨fun _ => some { userId := ann, toCollectEnergy := 10 }, .empty⟩
    { userId := ann, toCollectEnergy := 10 } rfl rfl (by decide) rfl (by decide)
  exact ⟨s, hcall, hs⟩

end GreenFinal
