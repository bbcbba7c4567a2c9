import GreenFinal.Collect

/-!
# Taking a request apart

`handle_request` is handed the receive buffer and the number of bytes
received. It terminates the request target in place, compares the path
with `/collect_energy/`, copies the user segment up to the next slash into
a local array, reads the record number with `strtol`, and goes on to
collect. The three scanners have three stop rules, and the translation
keeps them apart: the search for the end of the target is bounded by
`len`; the search for the slash is bounded by `len` too, counted from
offset 21, and *not* by the NUL just written; `strtol` stops at the first
byte that is not a digit.

None of the accesses is checked in the source. An access outside `line`,
`user_id` or `memToCollects` is undefined there; here it ends the call with
a `Fault`, so that a theorem saying what a call returns says in particular
that it stays inside its arrays.

`Chunk` is what one successful `recv` delivers into the zeroed buffer, and
`Call` a chunk together with the request it is taken apart into: the calls
of `handle_request` on a well-formed request for a record in the array.
-/

open CLib

namespace GreenFinal

/-- The undefined operations a run can reach. -/
inductive Fault where
  /-- A read of `line` past its 1024 bytes. -/
  | lineOverread
  /-- A write to `user_id` past its 64 bytes. -/
  | userIdOverflow
  /-- A use of `user_id` as a string while it holds no NUL. -/
  | userIdUnterminated
  /-- An index outside `memToCollects`. -/
  | badIndex
  /-- A null slot of `memToCollects` read through. -/
  | nullRecord
  deriving DecidableEq, Repr

/-- The bytes of an ASCII text. -/
def ascii (s : String) : List UInt8 := s.toList.map (fun c => c.toNat.toUInt8)

/-- `sizeof(line)`. -/
def lineSize : ℕ := 1024

/-- `sizeof(user_id)`. -/
def userIdSize : ℕ := 64

/-- `"/collect_energy/"`. -/
def collectEnergyPath : List UInt8 := ascii "/collect_energy/"

/-- The bytes that end the request target: space, CR and LF. -/
def isDelimiter (b : UInt8) : Bool := b = 32 || b = 13 || b = 10

/-- `'/'`. -/
def slash : UInt8 := 47

/-- The first loop, over at most `n` bytes: the first delimiter becomes a
NUL. -/
def terminateTarget : ℕ → List UInt8 → List UInt8
  | 0, bs => bs
  | _ + 1, [] => []
  | n + 1, b :: bs =>
      if isDelimiter b then 0 :: bs else b :: terminateTarget n bs

/-- The second loop, over at most `n` bytes of `line` and into the `room`
bytes left of `user_id`: the bytes copied, and `line` from where the loop
stopped. -/
def copyUserId : ℕ → List UInt8 → ℕ → Except Fault (List UInt8 × List UInt8)
  | 0, bs, _ => .ok ([], bs)
  | _ + 1, [], _ => .error .lineOverread
  | n + 1, b :: bs, room =>
      if b = slash then .ok ([], b :: bs)
      else if room = 0 then .error .userIdOverflow
      else
        match copyUserId n bs (room - 1) with
        | .error e => .error e
        | .ok (u, rest) => .ok (b :: u, rest)

/-- The two locals a request is taken apart into. -/
structure Target where
  /-- The array `user_id`. -/
  userId : List UInt8
  /-- `to_collect_energy_id` -/
  id : ℤ
  deriving DecidableEq

/-- **The first half of `handle_request`**: `none` where the path is another
one. The number goes through `long` and is cut to an `int`. -/
def parseRequest (line : List UInt8) (len : ℕ) : Except Fault (Option Target) :=
  let body := terminateTarget (len - 5) (line.drop 5)
  if body.take 16 ≠ collectEnergyPath then .ok none
  else
    match copyUserId len (body.drop 16) userIdSize with
    | .error e => .error e
    | .ok (u, rest) =>
      match strtol (rest.drop 1) with
      | none => .error .lineOverread
      | some n =>
        .ok (some ⟨u ++ List.replicate (userIdSize - u.length) 0, n.bmod (2 ^ 32)⟩)

/-- **`handle_request`**. The array `user_id` is first read as a string under
the lock, so an unterminated one does no harm to a call that returns on the
unlocked check. -/
def handleRequest (line : List UInt8) (len : ℕ) (m : Mem) : Except Fault Mem :=
  match parseRequest line len with
  | .error e => .error e
  | .ok none => .ok m
  | .ok (some t) =>
    match recordIndex? t.id with
    | none => .error .badIndex
    | some id =>
      if returnsUnlocked (m.memToCollects id) then .ok m
      else
        match CString.ofBuffer? t.userId with
        | none => .error .userIdUnterminated
        | some u => .ok (collectEnergy ⟨u, id⟩ m)

/-! ## Received chunks -/

/-- **What one `recv` delivers**: between one byte and a full buffer. -/
structure Chunk where
  /-- The bytes received. -/
  data : List UInt8
  /-- `len > 0`: the connection is not at its end. -/
  data_ne_nil : data ≠ []
  /-- `recv` is given the size of the buffer. -/
  length_le : data.length ≤ lineSize
  deriving DecidableEq

namespace Chunk

/-- `len`. -/
def len (c : Chunk) : ℕ := c.data.length

/-- The buffer after `recv`, zeroed before. -/
def line (c : Chunk) : List UInt8 :=
  c.data ++ List.replicate (lineSize - c.data.length) 0

/-- **The request target**: the bytes from offset 5 to the first delimiter,
or to the end. -/
def target (c : Chunk) : List UInt8 :=
  (c.data.drop 5).takeWhile (fun b => !isDelimiter b)

/-- The buffer from offset 5, once the target has been terminated. -/
def body (c : Chunk) : List UInt8 := terminateTarget (c.len - 5) (c.line.drop 5)

theorem length_line (c : Chunk) : c.line.length = lineSize := by
  rw [line, List.length_append, List.length_replicate]
  exact Nat.add_sub_cancel' c.length_le

theorem take_drop_line (c : Chunk) : (c.line.drop 5).take (c.len - 5) = c.data.drop 5 := by
  rw [line, List.drop_append, List.take_append, List.length_drop, len,
    List.take_of_length_le (by rw [List.length_drop]), Nat.sub_self, List.take_zero,
    List.append_nil]

end Chunk

/-- The first loop keeps the bytes before the delimiter; where it meets one,
a NUL follows them. -/
theorem terminateTarget_eq (n : ℕ) (bs : List UInt8) :
    (∃ rest, terminateTarget n bs
        = (bs.take n).takeWhile (fun b => !isDelimiter b) ++ 0 :: rest)
      ∨ ((bs.take n).takeWhile (fun b => !isDelimiter b) = bs.take n
        ∧ terminateTarget n bs = bs) := by
  induction n generalizing bs with
  | zero => exact Or.inr ⟨by rw [List.take_zero]; rfl, rfl⟩
  | succ n ih =>
    cases bs with
    | nil => exact Or.inr ⟨rfl, rfl⟩
    | cons b bs =>
      rw [List.take_succ_cons, terminateTarget]
      cases hb : isDelimiter b with
      | true =>
        refine Or.inl ⟨bs, ?_⟩
        rw [List.takeWhile_cons_of_neg (by simp [hb])]
        rfl
      | false =>
        rw [List.takeWhile_cons_of_pos (by simp [hb])]
        rcases ih bs with ⟨rest, h⟩ | ⟨h₁, h₂⟩
        · exact Or.inl ⟨rest, congrArg (List.cons b) h⟩
        · exact Or.inr ⟨congrArg (List.cons b) h₁, congrArg (List.cons b) h₂⟩

/-- **What `handle_request` scans**: the target and then a NUL – the one it
wrote or one of the zeros the buffer was filled with – unless the target
runs to the last byte of a full buffer. -/
theorem Chunk.body_eq (c : Chunk) :
    (∃ rest, c.body = c.target ++ 0 :: rest)
      ∨ (c.body = c.target ∧ c.target.length + 5 = lineSize) := by
  have htake := c.take_drop_line
  rcases terminateTarget_eq (c.len - 5) (c.line.drop 5) with ⟨rest, h⟩ | ⟨h₁, h₂⟩
  · refine Or.inl ⟨rest, ?_⟩
    rw [body, h, htake]
    rfl
  · rw [htake] at h₁
    have hbody : c.body = c.line.drop 5 := h₂
    have htgt : c.target = c.data.drop 5 := h₁
    have hlen : c.data.length ≤ lineSize := c.length_le
    rcases Nat.lt_or_ge c.data.length lineSize with hlt | hge
    · refine Or.inl ⟨List.replicate (lineSize - c.data.length - 1 - (5 - c.data.length)) 0, ?_⟩
      rw [hbody, htgt, line, List.drop_append, ← List.replicate_succ, List.drop_replicate]
      unfold lineSize at hlt ⊢
      congr 2
      omega
    · refine Or.inr ⟨?_, ?_⟩
      · rw [hbody, htgt, line, Nat.sub_eq_zero_of_le hge, List.replicate_zero, List.append_nil]
      · rw [htgt, List.length_drop]
        unfold lineSize at hlen hge ⊢
        omega

theorem nul_notMem_collectEnergyPath : (0 : UInt8) ∉ collectEnergyPath := by decide

theorem length_collectEnergyPath : collectEnergyPath.length = 16 := by decide

/-- **The path is compared with the start of the target**, and with nothing
behind it. -/
theorem Chunk.take_body_iff (c : Chunk) :
    c.body.take 16 = collectEnergyPath ↔ collectEnergyPath <+: c.target := by
  have hpre : ∀ l : List UInt8, l.take 16 = collectEnergyPath ↔ collectEnergyPath <+: l := by
    intro l
    rw [List.prefix_iff_eq_take, length_collectEnergyPath]
    exact eq_comm
  rw [hpre]
  rcases c.body_eq with ⟨rest, h⟩ | ⟨h, -⟩
  · rw [h]
    constructor
    · intro hp
      rcases List.prefix_or_prefix_of_prefix hp (List.prefix_append _ _) with h' | ⟨w, hw⟩
      · exact h'
      · -- a path longer than the target would have to contain the NUL
        cases w with
        | nil => rw [← hw, List.append_nil]
        | cons b w =>
          rw [← hw, List.prefix_append_right_inj, List.cons_prefix_cons] at hp
          refine absurd ?_ nul_notMem_collectEnergyPath
          rw [← hw, ← hp.1]
          simp
    · exact fun hp => hp.trans (List.prefix_append _ _)
  · rw [h]

/-- The second loop copies a segment that fits and stops at its slash. -/
theorem copyUserId_append_slash {u bs : List UInt8} (hu : slash ∉ u) {n : ℕ}
    (hn : u.length < n) (room : ℕ) :
    copyUserId n (u ++ slash :: bs) room
      = if u.length ≤ room then .ok (u, slash :: bs) else .error .userIdOverflow := by
  induction u generalizing n room with
  | nil =>
    cases n with
    | zero => exact absurd hn (Nat.lt_irrefl 0)
    | succ n =>
      rw [List.nil_append, copyUserId, if_pos rfl]
      exact (if_pos (Nat.zero_le room)).symm
  | cons b u ih =>
    cases n with
    | zero => exact absurd hn (Nat.not_lt_zero _)
    | succ n =>
      have hb : b ≠ slash := fun h => hu (h ▸ List.mem_cons_self)
      rw [List.cons_append, copyUserId, if_neg hb]
      cases room with
      | zero => rfl
      | succ room =>
        rw [if_neg (Nat.succ_ne_zero room), Nat.add_sub_cancel,
          ih (fun h => hu (List.mem_cons_of_mem b h)) (Nat.lt_of_succ_lt_succ hn),
          List.length_cons]
        by_cases hr : u.length ≤ room
        · rw [if_pos hr, if_pos (Nat.succ_le_succ hr)]
        · rw [if_neg hr, if_neg (fun h => hr (Nat.le_of_succ_le_succ h))]

end GreenFinal
