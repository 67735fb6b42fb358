/-
MagicblockLedger/Counter.lean

The entry counter of `ledger_column.rs`: every `LedgerColumn` caches its row count in
an `AtomicI64`, with `DIRTY_COUNT` meaning "unknown, recount by a scan".

Rust's `i64` and `u64` are both 64-bit patterns, so both are `BitVec 64` here: the
cast `by as i64` keeps the bits, `+` and `-` wrap (the release profile), and the
signed test `new >= 0` reads the pattern as an integer, `0 ≤ new.toInt`.

A call of `try_increase_entry_counter` or `try_decrease_entry_counter` loads `prev`,
returns if it is `DIRTY_COUNT`, and otherwise tries to swap in a value computed from
`prev` alone (`Op.target`).  Run alone, the swap succeeds at once, so the call is the
function `Op.apply`; `CasLoop.lean` shows the loop does exactly this also under
interference.  The last section is the law of a sequence of calls: for amounts below
`2^63` the counter is the exact sum of the deltas until a prefix goes negative, and
`DIRTY_COUNT` from then on (`runCalls_exactOrDirty`); at `by = u64::MAX` the cast turns
a decrease into an increase (`decrease_u64_max_breaks_exactOrDirty`).
-/
import Mathlib.Data.BitVec

namespace MagicblockLedger

/-- Rust's `i64`, as its two's-complement bit pattern. -/
abbrev I64 := BitVec 64

/-- Rust's `u64`. -/
abbrev U64 := BitVec 64

/-- `DIRTY_COUNT` (declared in `columns.rs`); the comment on `entry_counter` gives its
value: "`-1` indicates that they are dirty". -/
def dirtyCount : I64 := -1

/-- `i64::MAX`. -/
def i64Max : I64 := BitVec.ofNat 64 (2 ^ 63 - 1)

/-- `u64::MAX`. -/
def u64Max : U64 := BitVec.ofNat 64 (2 ^ 64 - 1)

/-- `by as i64`: the same 64 bits, read as signed. -/
def asI64 (amount : U64) : I64 := amount

@[simp] theorem toInt_dirtyCount : dirtyCount.toInt = -1 := by decide

/-- A value whose pattern is below `2^63` reads as itself. -/
theorem toInt_of_toNat_lt {x : I64} (h : x.toNat < 2 ^ 63) : x.toInt = x.toNat := by
  rw [BitVec.toInt_eq_toNat_cond]; split <;> omega

theorem toInt_of_le_toNat {x : I64} (h : 2 ^ 63 ≤ x.toNat) : x.toInt = x.toNat - 2 ^ 64 := by
  rw [BitVec.toInt_eq_toNat_cond]; split <;> omega

theorem toNat_lt_of_toInt_nonneg {x : I64} (h : 0 ≤ x.toInt) : x.toNat < 2 ^ 63 := by
  rw [BitVec.toInt_eq_toNat_cond] at h; split at h <;> omega

theorem ne_dirtyCount_of_toInt_nonneg {x : I64} (h : 0 ≤ x.toInt) : x ≠ dirtyCount := by
  rintro rfl; simp at h

/-! ### One call -/

/-- The value `try_increase_entry_counter` hands to `compare_exchange` once it has
loaded `prev`. -/
def increaseTarget (prev : I64) (amount : U64) : I64 := prev + asI64 amount

/-- The value `try_decrease_entry_counter` hands to `compare_exchange` once it has
loaded `prev`: `new = prev - by as i64` if `new >= 0`, else `DIRTY_COUNT`. -/
def decreaseTarget (prev : I64) (amount : U64) : I64 :=
  let new := prev - asI64 amount
  if 0 ≤ new.toInt then new else dirtyCount

/-- A call on the counter: `try_increase_entry_counter(by)` or
`try_decrease_entry_counter(by)` (`amount` is the source's `by`). -/
inductive Op
  | increase (amount : U64)
  | decrease (amount : U64)
  deriving DecidableEq, Repr

/-- The amount a call reports. -/
def Op.amount : Op → U64
  | .increase amount => amount
  | .decrease amount => amount

/-- The value a call swaps in after loading `prev ≠ DIRTY_COUNT`. -/
def Op.target : Op → I64 → I64
  | .increase amount, prev => increaseTarget prev amount
  | .decrease amount, prev => decreaseTarget prev amount

/-- A whole call, as one atomic step: nothing if the counter is `DIRTY_COUNT`,
otherwise the swap to `Op.target`. -/
def Op.apply (op : Op) (c : I64) : I64 :=
  if c = dirtyCount then c else op.target c

/-- `try_increase_entry_counter` run alone. -/
def tryIncreaseEntryCounter (entryCounter : I64) (amount : U64) : I64 :=
  (Op.increase amount).apply entryCounter

/-- `try_decrease_entry_counter` run alone. -/
def tryDecreaseEntryCounter (entryCounter : I64) (amount : U64) : I64 :=
  (Op.decrease amount).apply entryCounter

@[simp] theorem apply_dirtyCount (op : Op) : op.apply dirtyCount = dirtyCount := by
  simp [Op.apply]

theorem apply_of_ne {op : Op} {c : I64} (h : c ≠ dirtyCount) : op.apply c = op.target c := by
  simp [Op.apply, h]

/-! ### A full scan's count as an `i64` -/

/-- The conversion in `count_column_using_cache`: a count above `i64::MAX` is clamped
to `i64::MAX`, any other is `val as i64`. -/
def countToI64 (val : Nat) : I64 :=
  if val > 2 ^ 63 - 1 then i64Max else BitVec.ofNat 64 val

theorem toInt_countToI64 {val : Nat} (h : val ≤ 2 ^ 63 - 1) : (countToI64 val).toInt = val := by
  have hv : val < 2 ^ 64 := by omega
  simp only [countToI64, show ¬ val > 2 ^ 63 - 1 by omega, if_false]
  rw [toInt_of_toNat_lt] <;> simp <;> omega

theorem toInt_countToI64_nonneg (val : Nat) : 0 ≤ (countToI64 val).toInt := by
  by_cases h : val ≤ 2 ^ 63 - 1
  · rw [toInt_countToI64 h]; omega
  · simp only [countToI64, show val > 2 ^ 63 - 1 by omega, if_true]; decide

/-! ### Sequences of calls -/

/-- The signed number of rows a call reports, as an integer. -/
def Op.delta : Op → Int
  | .increase amount => amount.toNat
  | .decrease amount => -(amount.toNat : Int)

/-- Calls executed one after another, each as it behaves alone. -/
def runCalls (c : I64) (ops : List Op) : I64 := ops.foldl (fun c op => op.apply c) c

/-- The mathematical counter after each call of `ops`, starting from `v`. -/
def partialSums (v : Int) : List Op → List Int
  | [] => []
  | op :: ops => (v + op.delta) :: partialSums (v + op.delta) ops

/-- The counter's law over a sequence of calls from `c`: the exact sum while every
prefix is non-negative, `DIRTY_COUNT` once one is negative. -/
def ExactOrDirty (c : I64) (ops : List Op) : Prop :=
  ((∀ x ∈ partialSums c.toInt ops, 0 ≤ x) →
      (runCalls c ops).toInt = c.toInt + (ops.map Op.delta).sum) ∧
    ((∃ x ∈ partialSums c.toInt ops, x < 0) → runCalls c ops = dirtyCount)

instance (c : I64) (ops : List Op) : Decidable (ExactOrDirty c ops) :=
  inferInstanceAs (Decidable (_ ∧ _))

@[simp] theorem runCalls_nil (c : I64) : runCalls c [] = c := rfl

@[simp] theorem runCalls_cons (c : I64) (op : Op) (ops : List Op) :
    runCalls c (op :: ops) = runCalls (op.apply c) ops := rfl

/-- Once dirty, the counter stays dirty under any calls. -/
@[simp] theorem runCalls_dirtyCount (ops : List Op) : runCalls dirtyCount ops = dirtyCount := by
  induction ops with
  | nil => rfl
  | cons op ops ih => simpa using ih

/-- One call from a non-negative count, with an amount below `2^63` and no result
above `i64::MAX`: the exact result if it is non-negative, `DIRTY_COUNT` otherwise. -/
theorem apply_exact {op : Op} {c : I64} (hc : 0 ≤ c.toInt) (ha : op.amount.toNat < 2 ^ 63)
    (hmax : c.toInt + op.delta ≤ 2 ^ 63 - 1) :
    (0 ≤ c.toInt + op.delta → (op.apply c).toInt = c.toInt + op.delta) ∧
      (c.toInt + op.delta < 0 → op.apply c = dirtyCount) := by
  have hcn := toNat_lt_of_toInt_nonneg hc
  rw [apply_of_ne (ne_dirtyCount_of_toInt_nonneg hc), toInt_of_toNat_lt hcn] at *
  cases op with
  | increase amount =>
    simp only [Op.amount, Op.delta, Op.target, increaseTarget, asI64] at *
    have hs : (c + amount).toNat < 2 ^ 63 := by simp [BitVec.toNat_add]; omega
    refine ⟨fun _ => ?_, fun h => by omega⟩
    rw [toInt_of_toNat_lt hs]; simp [BitVec.toNat_add]; omega
  | decrease amount =>
    simp only [Op.amount, Op.delta, Op.target, decreaseTarget, asI64] at *
    by_cases hle : amount.toNat ≤ c.toNat
    · have hs : (c - amount).toNat = c.toNat - amount.toNat := by
        simp [BitVec.toNat_sub]; omega
      have hnn : 0 ≤ (c - amount).toInt := by rw [toInt_of_toNat_lt (by omega)]; omega
      refine ⟨fun _ => ?_, fun h => by omega⟩
      rw [if_pos hnn, toInt_of_toNat_lt (by omega), hs]; omega
    · have hs : 2 ^ 63 ≤ (c - amount).toNat := by simp [BitVec.toNat_sub]; omega
      have hneg : ¬ 0 ≤ (c - amount).toInt := by
        rw [toInt_of_le_toNat hs]; simp [BitVec.toNat_sub]; omega
      exact ⟨fun h => by omega, fun _ => if_neg hneg⟩

/-- **The counter law for amounts below `2^63`.**  From a non-negative count, a
sequence of calls whose mathematical prefixes never exceed `i64::MAX` ends at the exact
sum if every prefix is non-negative, and at `DIRTY_COUNT` as soon as one is negative. -/
theorem runCalls_exactOrDirty (c : I64) (ops : List Op) (hc : 0 ≤ c.toInt)
    (hmax : ∀ x ∈ partialSums c.toInt ops, x ≤ 2 ^ 63 - 1)
    (hsmall : ∀ op ∈ ops, op.amount.toNat < 2 ^ 63) : ExactOrDirty c ops := by
  induction ops generalizing c with
  | nil => simp [ExactOrDirty, partialSums]
  | cons op ops ih =>
    simp only [partialSums, List.mem_cons, forall_eq_or_imp] at hmax hsmall
    obtain ⟨hexact, hdirty⟩ := apply_exact hc hsmall.1 hmax.1
    by_cases hneg : c.toInt + op.delta < 0
    · refine ⟨fun h => absurd (h _ (List.mem_cons_self _ _)) (by omega), fun _ => ?_⟩
      simp [hdirty hneg]
    · have happ := hexact (by omega)
      obtain ⟨ih₁, ih₂⟩ := ih (op.apply c) (by omega) (by rw [happ]; exact hmax.2) hsmall.2
      rw [happ] at ih₁ ih₂
      refine ⟨fun h => ?_, fun ⟨x, hx, hx0⟩ => ?_⟩
      · simp only [partialSums, List.mem_cons, forall_eq_or_imp] at h
        rw [runCalls_cons, ih₁ h.2, List.map_cons, List.sum_cons]; omega
      · simp only [partialSums, List.mem_cons] at hx
        rcases hx with rfl | hx
        · omega
        · exact ih₂ ⟨x, hx, hx0⟩

theorem runCalls_exactOrDirty_three : ExactOrDirty 0 [.increase 2, .decrease 3, .increase 1] :=
  runCalls_exactOrDirty 0 _ (by decide) (by decide) (by decide)

/-- At `by = u64::MAX` the cast `by as i64` is `-1`: a decrease from `0`, whose
mathematical result is `-(2^64 - 1)`, stores `1` instead of `DIRTY_COUNT`. -/
theorem decrease_u64_max_breaks_exactOrDirty :
    0 ≤ (0 : I64).toInt ∧ partialSums (0 : I64).toInt [.decrease u64Max] = [-(2 ^ 64 - 1)] ∧
      tryDecreaseEntryCounter 0 u64Max = 1 ∧ ¬ ExactOrDirty 0 [.decrease u64Max] := by
  decide

end MagicblockLedger
