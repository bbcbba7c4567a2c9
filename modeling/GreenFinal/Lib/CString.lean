import Mathlib.Data.Nat.Digits.Lemmas
import Mathlib.Data.List.TakeWhile
import Mathlib.Tactic.IntervalCases

/-!
# C strings

The part of the C library a program meets when it takes text apart in
place: NUL-terminated strings in buffers of known size, and `strtol` in
base ten.

A `CString` is a byte string without a NUL, so that `strcmp` returning
zero is equality. `CString.ofBuffer?` reads one out of a character array
and fails where the array holds no NUL: the C functions would run past its
end. `strtol` fails in the same way, since it stops only at a byte that is
not a digit; otherwise it follows the standard – white space, one sign, the
longest run of digits, no conversion giving zero, and saturation at the
ends of `long`.
-/

namespace CLib

/-- **A C string**: the bytes before the terminating NUL. -/
structure CString where
  /-- The bytes, without the terminator. -/
  bytes : List UInt8
  /-- No byte before the terminator is a NUL. -/
  nulFree : (0 : UInt8) ∉ bytes
  deriving DecidableEq

namespace CString

theorem ext_bytes {u v : CString} (h : u.bytes = v.bytes) : u = v := by
  cases u
  cases v
  subst h
  rfl

/-- Read a string object through its `c_str()`: everything up to the first
NUL, the object itself supplying one at its end. -/
def ofBytes (s : List UInt8) : CString :=
  ⟨s.takeWhile (· ≠ 0), fun h => by simpa using List.mem_takeWhile_imp h⟩

/-- Read a character array as a string; `none` where it is not terminated. -/
def ofBuffer? (buf : List UInt8) : Option CString :=
  if (0 : UInt8) ∈ buf then some (ofBytes buf) else none

/-- A string survives being stored and read back. -/
@[simp] theorem ofBytes_bytes (u : CString) : ofBytes u.bytes = u :=
  ext_bytes (List.takeWhile_eq_self_iff.mpr (fun b hb => by
    simpa using fun h : b = 0 => u.nulFree (h ▸ hb)))

theorem ofBytes_append_nul (s : List UInt8) (rest : List UInt8)
    (h : (0 : UInt8) ∉ s) : ofBytes (s ++ 0 :: rest) = ⟨s, h⟩ := by
  refine ext_bytes ?_
  show (s ++ 0 :: rest).takeWhile (· ≠ 0) = s
  rw [List.takeWhile_append_of_pos (fun b hb => by
    simpa using fun hb0 : b = 0 => h (hb0 ▸ hb))]
  simp

/-- An array that holds a string and then a NUL is read as that string. -/
theorem ofBuffer?_append_nul (s rest : List UInt8) (h : (0 : UInt8) ∉ s) :
    ofBuffer? (s ++ 0 :: rest) = some ⟨s, h⟩ := by
  rw [ofBuffer?, if_pos (by simp), ofBytes_append_nul s rest h]

theorem ofBuffer?_of_notMem {buf : List UInt8} (h : (0 : UInt8) ∉ buf) :
    ofBuffer? buf = none := if_neg h

end CString

/-! ## Decimal numbers -/

/-- `isdigit`. -/
def isDigit (b : UInt8) : Bool := 48 ≤ b && b ≤ 57

/-- `isspace` in the C locale. -/
def isSpace (b : UInt8) : Bool := b = 32 || (9 ≤ b && b ≤ 13)

/-- The value of a digit. -/
def digitValue (b : UInt8) : ℕ := b.toNat - 48

/-- The value a run of digits denotes, continuing from `acc`. -/
def decimalValueFrom (acc : ℕ) (ds : List UInt8) : ℕ :=
  ds.foldl (fun acc b => 10 * acc + digitValue b) acc

/-- The value a run of digits denotes. -/
def decimalValue (ds : List UInt8) : ℕ := decimalValueFrom 0 ds

/-- The digits of a positive number, most significant first. -/
def decimal (n : ℕ) : List UInt8 :=
  (Nat.digits 10 n).reverse.map (fun d => UInt8.ofNat (48 + d))

/-- The loop of `strtol` over the digits; `none` where it runs off the end of
the array without meeting a byte that stops it. -/
def scanDigits : ℕ → List UInt8 → Option ℕ
  | _, [] => none
  | acc, b :: bs =>
      if isDigit b then scanDigits (10 * acc + digitValue b) bs else some acc

/-- Saturation at `LONG_MIN` and `LONG_MAX`, for a 64-bit `long`. -/
def clampLong (z : ℤ) : ℤ := max (-2 ^ 63) (min (2 ^ 63 - 1) z)

/-- **`strtol(s, nullptr, 10)`**, on the array from `s` to its end. -/
def strtol (s : List UInt8) : Option ℤ :=
  match s.dropWhile isSpace with
  | [] => none
  | b :: bs =>
      if b = 45 then (scanDigits 0 bs).map (fun n => clampLong (-n))
      else if b = 43 then (scanDigits 0 bs).map (fun n => clampLong n)
      else (scanDigits 0 (b :: bs)).map (fun n => clampLong n)

theorem scanDigits_append_stop {ds rest : List UInt8} {b : UInt8} (acc : ℕ)
    (hds : ∀ d ∈ ds, isDigit d = true) (hb : isDigit b = false) :
    scanDigits acc (ds ++ b :: rest) = some (decimalValueFrom acc ds) := by
  induction ds generalizing acc with
  | nil => simp [scanDigits, decimalValueFrom, hb]
  | cons d ds ih =>
    rw [List.cons_append, scanDigits, if_pos (hds d List.mem_cons_self),
      ih _ (fun x hx => hds x (List.mem_cons_of_mem d hx))]
    rfl

/-- A run of digits up to the end of the array is not stopped by anything. -/
theorem scanDigits_eq_none {ds : List UInt8} (acc : ℕ)
    (hds : ∀ d ∈ ds, isDigit d = true) : scanDigits acc ds = none := by
  induction ds generalizing acc with
  | nil => rfl
  | cons d ds ih =>
    rw [scanDigits, if_pos (hds d List.mem_cons_self)]
    exact ih _ (fun x hx => hds x (List.mem_cons_of_mem d hx))

/-- A digit is neither white space nor a sign. -/
theorem isDigit_facts {b : UInt8} (h : isDigit b = true) :
    isSpace b = false ∧ b ≠ 45 ∧ b ≠ 43 ∧ b ≠ 0 := by
  have h' : 48 ≤ b.toNat ∧ b.toNat ≤ 57 := by
    simpa [isDigit, UInt8.le_iff_toNat_le] using h
  have hne : ∀ c : UInt8, c.toNat < 48 → b ≠ c := fun c hc hbc => by
    subst hbc
    omega
  refine ⟨?_, hne 45 (by decide), hne 43 (by decide), hne 0 (by decide)⟩
  rw [isSpace, decide_eq_false (hne 32 (by decide)), Bool.false_or,
    Bool.and_eq_false_iff]
  refine Or.inr (decide_eq_false (fun hle => ?_))
  have : b.toNat ≤ 13 := UInt8.le_iff_toNat_le.mp hle
  omega

/-- **A plain number is read as its value**, saturated, when a byte that is
not a digit follows. -/
theorem strtol_digits {ds rest : List UInt8} {b : UInt8} (hne : ds ≠ [])
    (hds : ∀ d ∈ ds, isDigit d = true) (hb : isDigit b = false) :
    strtol (ds ++ b :: rest) = some (clampLong (decimalValue ds)) := by
  cases ds with
  | nil => exact absurd rfl hne
  | cons d ds =>
    obtain ⟨hsp, hminus, hplus, -⟩ := isDigit_facts (hds d List.mem_cons_self)
    have hdrop : ((d :: ds) ++ b :: rest).dropWhile isSpace
        = d :: (ds ++ b :: rest) := by
      rw [List.cons_append, List.dropWhile_cons_of_neg (by rw [hsp]; exact Bool.false_ne_true)]
    unfold strtol
    rw [hdrop]
    show (if d = 45 then _ else if d = 43 then _ else _) = _
    rw [if_neg hminus, if_neg hplus, ← List.cons_append,
      scanDigits_append_stop 0 hds hb]
    rfl

/-- … and where the digits run up to the end of the array, the scan leaves
it. -/
theorem strtol_digits_eq_none {ds : List UInt8}
    (hds : ∀ d ∈ ds, isDigit d = true) : strtol ds = none := by
  cases ds with
  | nil => rfl
  | cons d ds =>
    obtain ⟨hsp, hminus, hplus, -⟩ := isDigit_facts (hds d List.mem_cons_self)
    unfold strtol
    rw [List.dropWhile_cons_of_neg (by rw [hsp]; exact Bool.false_ne_true)]
    show (if d = 45 then _ else if d = 43 then _ else _) = _
    rw [if_neg hminus, if_neg hplus, scanDigits_eq_none 0 hds]
    rfl

/-! ## How far `strtol` reads -/

/-- The bytes the loop over the digits reads: the digits, and one more. -/
def digitReads (s : List UInt8) : ℕ := (s.takeWhile isDigit).length + 1

/-- **The bytes `strtol` reads**: white space, a sign, the digits, and the byte that
ends them, even where the array holds no such byte. -/
def strtolReads (s : List UInt8) : ℕ :=
  (s.takeWhile isSpace).length + match s.dropWhile isSpace with
    | [] => 1
    | b :: bs => if b = 45 ∨ b = 43 then digitReads bs + 1 else digitReads (b :: bs)

theorem digitReads_le_iff (acc : ℕ) (s : List UInt8) :
    digitReads s ≤ s.length ↔ (scanDigits acc s).isSome = true := by
  induction s generalizing acc with
  | nil => exact iff_of_false (Nat.not_succ_le_zero 0) Bool.false_ne_true
  | cons b s ih =>
    rw [scanDigits]
    cases hb : isDigit b with
    | true =>
      rw [if_pos rfl, ← ih, digitReads, digitReads, List.takeWhile_cons_of_pos hb,
        List.length_cons, List.length_cons, Nat.succ_le_succ_iff]
    | false =>
      rw [if_neg Bool.false_ne_true, digitReads,
        List.takeWhile_cons_of_neg (by rw [hb]; exact Bool.false_ne_true), List.length_cons]
      exact iff_of_true (Nat.succ_le_succ (Nat.zero_le _)) rfl

/-- **`strtol` returns exactly if it reads inside the array.** -/
theorem strtolReads_le_iff (s : List UInt8) :
    strtolReads s ≤ s.length ↔ (strtol s).isSome = true := by
  have hlen : (s.takeWhile isSpace).length + (s.dropWhile isSpace).length = s.length := by
    rw [← List.length_append, List.takeWhile_append_dropWhile]
  unfold strtolReads strtol
  rw [← hlen, Nat.add_le_add_iff_left]
  cases s.dropWhile isSpace with
  | nil => exact iff_of_false (Nat.not_succ_le_zero 0) Bool.false_ne_true
  | cons b bs =>
    dsimp only
    by_cases hminus : b = 45
    · rw [if_pos (Or.inl hminus), if_pos hminus, List.length_cons, Nat.succ_le_succ_iff,
        digitReads_le_iff 0]
      cases scanDigits 0 bs <;> exact Iff.rfl
    · by_cases hplus : b = 43
      · rw [if_pos (Or.inr hplus), if_neg hminus, if_pos hplus, List.length_cons,
          Nat.succ_le_succ_iff, digitReads_le_iff 0]
        cases scanDigits 0 bs <;> exact Iff.rfl
      · rw [if_neg (not_or.mpr ⟨hminus, hplus⟩), if_neg hminus, if_neg hplus,
          digitReads_le_iff 0]
        cases scanDigits 0 (b :: bs) <;> exact Iff.rfl

theorem isDigit_ofNat {d : ℕ} (h : d < 10) : isDigit (UInt8.ofNat (48 + d)) = true := by
  interval_cases d <;> rfl

theorem digitValue_ofNat {d : ℕ} (h : d < 10) : digitValue (UInt8.ofNat (48 + d)) = d := by
  interval_cases d <;> rfl

theorem isDigit_of_mem_decimal {n : ℕ} {b : UInt8} (h : b ∈ decimal n) :
    isDigit b = true := by
  obtain ⟨d, hd, rfl⟩ := List.mem_map.mp h
  exact isDigit_ofNat (Nat.digits_lt_base (by decide) (List.mem_reverse.mp hd))

theorem decimal_ne_nil {n : ℕ} (h : n ≠ 0) : decimal n ≠ [] := by
  rw [decimal, Ne, List.map_eq_nil_iff, List.reverse_eq_nil_iff]
  exact Nat.digits_ne_nil_iff_ne_zero.mpr h

/-- Decoding undoes encoding. -/
theorem decimalValue_decimal (n : ℕ) : decimalValue (decimal n) = n := by
  have key : ∀ ds : List ℕ, (∀ d ∈ ds, d < 10) →
      decimalValue (ds.reverse.map (fun d => UInt8.ofNat (48 + d)))
        = Nat.ofDigits 10 ds := by
    intro ds hds
    induction ds with
    | nil => rfl
    | cons d ds ih =>
      have ih' := ih (fun x hx => hds x (List.mem_cons_of_mem d hx))
      rw [decimalValue, decimalValueFrom] at ih' ⊢
      rw [List.reverse_cons, List.map_append, List.foldl_append, ih',
        Nat.ofDigits_cons]
      show 10 * Nat.ofDigits 10 ds + digitValue (UInt8.ofNat (48 + d)) = _
      rw [digitValue_ofNat (hds d List.mem_cons_self)]
      exact Nat.add_comm _ _
  rw [decimal, key _ (fun d hd => Nat.digits_lt_base (by decide) hd)]
  exact Nat.ofDigits_digits 10 n

end CLib
