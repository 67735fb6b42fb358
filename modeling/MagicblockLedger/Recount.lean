/-
MagicblockLedger/Recount.lean

One column with its rows and its entry counter, changed by writers and read by
`count_column_using_cache`, all interleaved.

A writer first adds or removes `amount` rows in the backend (`change`), then reports
the same amount through the counter's `loop`; its report steps are `callStep` of
`CasLoop.lean`.  A recount loads the counter, returns it if it is not `DIRTY_COUNT`,
and otherwise scans the column (the rows at one instant, clamped by `countToI64`) and
stores the count with a plain `store`.  The ghost list `inflight` holds the writers that
have changed the rows and not yet reached their linearization point (`Event.lin`).
Run alone, a recount computes `countColumnUsingCache` of `Column.lean`
(`Col.recountAlone_eq_countColumnUsingCache`).

Every column run, with the counter events its own steps record, is seen by the counter
as a run of `CasLoop.lean`'s system: each report step is the call's step and each
recount's store an external store (`Col.step_counterView`), so the writers' reports are
linearizable over that history (`ColTrace.counterView_linearizable`).

The cache is not exact in general: a recount that loaded `DIRTY_COUNT` and scanned can
store its count after a writer changed the rows and skipped its report on the dirty
counter, leaving a stale count behind (`cacheExact_fails`).  It is exact when no recount
is under way while a writer is (`quiescent_cacheExact`): the invariant `ColInv` keeps the
counter `DIRTY_COUNT` or equal, in `i64` arithmetic, to the rows less the deltas in
flight.
-/
import Mathlib.Algebra.BigOperators.Group.List
import Mathlib.Tactic.Abel
import MagicblockLedger.CasLoop
import MagicblockLedger.Column

namespace MagicblockLedger

/-- The rows after a writer's change: `amount` rows added, or removed when there are
that many. -/
def change : Op → Nat → Option Nat
  | .increase amount, rows => some (rows + amount.toNat)
  | .decrease amount, rows => if amount.toNat ≤ rows then some (rows - amount.toNat) else none

/-- A report as an `i64` delta. -/
def Op.signed : Op → I64
  | .increase amount => asI64 amount
  | .decrease amount => -asI64 amount

/-- Where a writer stands: before its change, or reporting it through the counter. -/
inductive WriterPc
  | idle
  | report (pc : Pc)
  deriving DecidableEq

/-- Where a `count_column_using_cache` call stands. -/
inductive RecountPc
  | load
  | scan
  | store (updated : I64)
  | done (result : I64)
  deriving DecidableEq

/-- A writer between its change and its return. -/
def WriterPc.busy : WriterPc → Bool
  | .report .done | .idle => false
  | .report _ => true

/-- A recount between its load of `DIRTY_COUNT` and its store. -/
def RecountPc.busy : RecountPc → Bool
  | .scan | .store _ => true
  | _ => false

/-- The column: its rows, its counter, the writers, the recounts, and the ghost list of
writers in flight. -/
structure Col (ι κ : Type) where
  rows : Nat
  entryCounter : I64
  writer : ι → WriterPc
  recount : κ → RecountPc
  inflight : List ι

/-- An atomic step: of writer `i`, or of recount `k`. -/
inductive ColAct (ι κ : Type)
  | write (i : ι)
  | recount (k : κ)

variable {ι κ : Type}

section Writer

variable [DecidableEq ι] (s : Col ι κ) (i : ι)

/-- Writer `i` has changed the rows to `rows` and starts its report. -/
def Col.changed (rows : Nat) : Col ι κ :=
  { s with rows := rows, writer := Function.update s.writer i (.report .load),
           inflight := i :: s.inflight }

/-- Writer `i` took report step `e` to counter `c` and `pc` `p'`; at its linearization
point it leaves `inflight`. -/
def Col.reported (c : I64) (p' : Pc) (e : Event ι) : Col ι κ :=
  { s with entryCounter := c, writer := Function.update s.writer i (.report p'),
           inflight := if e.lin = some (.call i) then s.inflight.erase i else s.inflight }

@[simp] theorem Col.changed_rows (rows : Nat) : (s.changed i rows).rows = rows := rfl
@[simp] theorem Col.changed_entryCounter (rows : Nat) :
    (s.changed i rows).entryCounter = s.entryCounter := rfl
@[simp] theorem Col.changed_writer (rows : Nat) :
    (s.changed i rows).writer = Function.update s.writer i (.report .load) := rfl
@[simp] theorem Col.changed_recount (rows : Nat) : (s.changed i rows).recount = s.recount := rfl
@[simp] theorem Col.changed_inflight (rows : Nat) :
    (s.changed i rows).inflight = i :: s.inflight := rfl

variable (c : I64) (p' : Pc) (e : Event ι)

@[simp] theorem Col.reported_rows : (s.reported i c p' e).rows = s.rows := rfl
@[simp] theorem Col.reported_entryCounter : (s.reported i c p' e).entryCounter = c := rfl
@[simp] theorem Col.reported_writer :
    (s.reported i c p' e).writer = Function.update s.writer i (.report p') := rfl
@[simp] theorem Col.reported_recount : (s.reported i c p' e).recount = s.recount := rfl
@[simp] theorem Col.reported_inflight : (s.reported i c p' e).inflight =
    if e.lin = some (.call i) then s.inflight.erase i else s.inflight := rfl

end Writer

section Recounter

variable [DecidableEq κ] (s : Col ι κ) (k : κ)

/-- Recount `k` moves to `r`. -/
def Col.setRecount (r : RecountPc) : Col ι κ :=
  { s with recount := Function.update s.recount k r }

variable (r : RecountPc)

@[simp] theorem Col.setRecount_rows : (s.setRecount k r).rows = s.rows := rfl
@[simp] theorem Col.setRecount_entryCounter :
    (s.setRecount k r).entryCounter = s.entryCounter := rfl
@[simp] theorem Col.setRecount_writer : (s.setRecount k r).writer = s.writer := rfl
@[simp] theorem Col.setRecount_recount :
    (s.setRecount k r).recount = Function.update s.recount k r := rfl
@[simp] theorem Col.setRecount_inflight : (s.setRecount k r).inflight = s.inflight := rfl

end Recounter

variable [DecidableEq ι] [DecidableEq κ]

/-- The interleaving semantics; writer `i` reports `ops i`. -/
def Col.step (ops : ι → Op) (s : Col ι κ) : ColAct ι κ → Option (Col ι κ)
  | .write i =>
    match s.writer i with
    | .idle => (change (ops i) s.rows).map (s.changed i)
    | .report p => (callStep (ops i) i s.entryCounter p).map fun (c, p', e) => s.reported i c p' e
  | .recount k =>
    match s.recount k with
    | .load =>
      let cached := s.entryCounter
      some (s.setRecount k (if cached ≠ dirtyCount then .done cached else .scan))
    | .scan => some (s.setRecount k (.store (countToI64 s.rows)))
    | .store updated => some ({ s with entryCounter := updated }.setRecount k (.done updated))
    | .done _ => none

/-- The start: `rows₀` rows, counter `c₀`, nobody under way. -/
def Col.init (rows₀ : Nat) (c₀ : I64) : Col ι κ := ⟨rows₀, c₀, fun _ => .idle, fun _ => .load, []⟩

/-- The states of the runs from `Col.init rows₀ c₀` whose every state satisfies `P`
(`P := fun _ => True` for all runs). -/
inductive ColRun (ops : ι → Op) (rows₀ : Nat) (c₀ : I64) (P : Col ι κ → Prop) : Col ι κ → Prop
  | init : P (Col.init rows₀ c₀) → ColRun ops rows₀ c₀ P (Col.init rows₀ c₀)
  | step {s s' : Col ι κ} (a : ColAct ι κ) : ColRun ops rows₀ c₀ P s → s.step ops a = some s' →
      P s' → ColRun ops rows₀ c₀ P s'

/-- No call is under way. -/
def Quiescent (s : Col ι κ) : Prop :=
  (∀ i, (s.writer i).busy = false) ∧ ∀ k, (s.recount k).busy = false

/-- No recount is under way while a writer is. -/
def NoOverlap (s : Col ι κ) : Prop :=
  (∃ k, (s.recount k).busy = true) → ∀ i, (s.writer i).busy = false

/-- The cache is exact: `DIRTY_COUNT`, or the number of rows. -/
def CacheExact (s : Col ι κ) : Prop :=
  s.entryCounter = dirtyCount ∨ s.entryCounter.toInt = s.rows

/-- The steps of a list, in order, as long as every state reached passes `p`. -/
def Col.runWhile (ops : ι → Op) (p : Col ι κ → Bool) : Col ι κ → List (ColAct ι κ) → Option (Col ι κ)
  | s, [] => some s
  | s, a :: as => (s.step ops a).bind fun s' => if p s' then s'.runWhile ops p as else none

/-- A checked run stays among the runs whose states pass `p`. -/
theorem ColRun.runWhile {ops : ι → Op} {rows₀ : Nat} {c₀ : I64} {p : Col ι κ → Bool} :
    ∀ {s s' : Col ι κ} {as : List (ColAct ι κ)}, ColRun ops rows₀ c₀ (fun s => p s) s →
      s.runWhile ops p as = some s' → ColRun ops rows₀ c₀ (fun s => p s) s'
  | _, _, [], hs, h => by cases h; exact hs
  | s, _, a :: as, hs, h => by
    simp only [Col.runWhile, Option.bind_eq_some] at h
    obtain ⟨s₁, h₁, h⟩ := h
    split at h
    · exact ColRun.runWhile (.step a hs h₁ ‹_›) h
    · cases h

theorem ColRun.mono {ops : ι → Op} {rows₀ : Nat} {c₀ : I64} {P Q : Col ι κ → Prop}
    (hPQ : ∀ s, P s → Q s) {s : Col ι κ} (hs : ColRun ops rows₀ c₀ P s) :
    ColRun ops rows₀ c₀ Q s := by
  induction hs with
  | init h => exact .init (hPQ _ h)
  | step a _ h hP ih => exact .step a ih h (hPQ _ hP)

theorem ColRun.guard {ops : ι → Op} {rows₀ : Nat} {c₀ : I64} {P : Col ι κ → Prop}
    {s : Col ι κ} (hs : ColRun ops rows₀ c₀ P s) : P s := by
  cases hs <;> assumption

/-! ### A recount run alone -/

/-- Recount `k` run with no other actor, for at most `fuel` steps; `none` when the fuel
runs out first. -/
def Col.recountAlone (ops : ι → Op) (k : κ) (fuel : Nat) (s : Col ι κ) : Option (Col ι κ) :=
  match fuel, s.recount k with
  | _, .done _ => some s
  | 0, _ => none
  | fuel + 1, _ => (s.step ops (.recount k)).bind (Col.recountAlone ops k fuel)

/-- **Run alone, a recount is `count_column_using_cache`**: from its start, over a scan
that sees the column's rows, it returns within three steps the answer of
`countColumnUsingCache` and leaves the counter it leaves. -/
theorem Col.recountAlone_eq_countColumnUsingCache {Index Value B E : Type}
    (C : TypedColumn Index Value B E) {ops : ι → Op} {s : Col ι κ} {k : κ}
    (hk : s.recount k = .load) {iteration : List (Except E (Bytes × Bytes))}
    {items : List (Index × Bytes)} (hiter : iter C iteration = some items)
    (hrows : items.length = s.rows) :
    (s.recountAlone ops k 3).map (fun s' => (s'.recount k, s'.entryCounter)) =
      (countColumnUsingCache C s.entryCounter iteration).map fun r => (.done r.1, r.2) := by
  by_cases hd : s.entryCounter = dirtyCount
  · simp [Col.recountAlone, Col.step, hk, hd, countColumnUsingCache, hiter, hrows]
  · simp [Col.recountAlone, Col.step, hk, hd, countColumnUsingCache]

/-! ### The counter's view of a column run -/

/-- Where the counter's `loop` of a writer stands: at the top until it changed the rows. -/
def WriterPc.pc : WriterPc → Pc
  | .idle => .load
  | .report p => p

@[simp] theorem WriterPc.pc_idle : WriterPc.idle.pc = .load := rfl
@[simp] theorem WriterPc.pc_report (p : Pc) : (WriterPc.report p).pc = p := rfl

theorem WriterPc.pc_update (w : ι → WriterPc) (i : ι) (x : WriterPc) :
    (fun j => (Function.update w i x j).pc) = Function.update (fun j => (w j).pc) i x.pc :=
  Function.comp_update WriterPc.pc w i x

/-- What the counter system of `CasLoop.lean` sees of a column state, with history
`hist`. -/
def Col.counterView (s : Col ι κ) (hist : List (Event ι)) : Sys ι :=
  ⟨s.entryCounter, fun i => (s.writer i).pc, hist⟩

/-- What a column step does to the counter: a writer's report step is its call's step, a
recount's store is an external store, and the other steps leave the counter alone. -/
def Col.counterEvent (ops : ι → Op) (s : Col ι κ) : ColAct ι κ → Option (Event ι)
  | .write i =>
    match s.writer i with
    | .idle => none
    | .report p => (callStep (ops i) i s.entryCounter p).map fun (_, _, e) => e
  | .recount k =>
    match s.recount k with
    | .store updated => some (.store s.entryCounter updated)
    | _ => none

/-- The column runs with the counter history their own steps record, newest first. -/
inductive ColTrace (ops : ι → Op) (rows₀ : Nat) (c₀ : I64) (P : Col ι κ → Prop) :
    Col ι κ → List (Event ι) → Prop
  | init : P (Col.init rows₀ c₀) → ColTrace ops rows₀ c₀ P (Col.init rows₀ c₀) []
  | step {s s' : Col ι κ} {hist : List (Event ι)} (a : ColAct ι κ) :
      ColTrace ops rows₀ c₀ P s hist → s.step ops a = some s' → P s' →
      ColTrace ops rows₀ c₀ P s' ((s.counterEvent ops a).toList ++ hist)

/-- Every column run has its history. -/
theorem colRun_iff_colTrace {ops : ι → Op} {rows₀ : Nat} {c₀ : I64} {P : Col ι κ → Prop}
    {s : Col ι κ} : ColRun ops rows₀ c₀ P s ↔ ∃ hist, ColTrace ops rows₀ c₀ P s hist := by
  constructor
  · intro hs
    induction hs with
    | init h => exact ⟨[], .init h⟩
    | step a _ h hP ih => obtain ⟨hist, ht⟩ := ih; exact ⟨_, .step a ht h hP⟩
  · rintro ⟨hist, hs⟩
    induction hs with
    | init h => exact .init h
    | step a _ h hP ih => exact .step a ih h hP

/-- **One column step is one step of the counter system, or none.**  A step with a
counter event is the system's step that records it; a step without one leaves the
counter's view alone. -/
theorem Col.step_counterView {ops : ι → Op} {s s' : Col ι κ} {a : ColAct ι κ}
    (h : s.step ops a = some s') (hist : List (Event ι)) :
    (s.counterEvent ops a = none ∧ s'.counterView hist = s.counterView hist) ∨
      ∃ e b, s.counterEvent ops a = some e ∧
        (s.counterView hist).step ops b = some (s'.counterView (e :: hist)) := by
  cases a with
  | write i =>
    simp only [Col.step] at h
    split at h
    · rename_i hw
      obtain ⟨rows, -, rfl⟩ := Option.map_eq_some'.mp h
      refine .inl ⟨by simp only [Col.counterEvent, hw], ?_⟩
      simp [Col.counterView, WriterPc.pc_update, hw]
    · rename_i p hw
      obtain ⟨⟨c, p', e⟩, hc, rfl⟩ := Option.map_eq_some'.mp h
      refine .inr ⟨e, .call i, by simp only [Col.counterEvent, hw, hc, Option.map_some'], ?_⟩
      simp only [Sys.step, Col.counterView, hw, WriterPc.pc_report, hc, Option.map_some',
        Col.reported_entryCounter, Col.reported_writer, WriterPc.pc_update]
  | recount k =>
    simp only [Col.step] at h
    split at h <;> rename_i hk <;> cases h
    · -- a load
      exact .inl ⟨by simp only [Col.counterEvent, hk], rfl⟩
    · -- a scan
      exact .inl ⟨by simp only [Col.counterEvent, hk], rfl⟩
    · -- a store: an external store of the counter system
      exact .inr ⟨.store s.entryCounter _, .store _,
        by simp only [Col.counterEvent, hk, Col.setRecount_entryCounter], rfl⟩

/-- The counter's view of a column run with its history is a reachable state of the
counter system. -/
theorem ColTrace.reachable {ops : ι → Op} {rows₀ : Nat} {c₀ : I64} {P : Col ι κ → Prop}
    {s : Col ι κ} {hist : List (Event ι)} (hs : ColTrace ops rows₀ c₀ P s hist) :
    Reachable ops c₀ (s.counterView hist) := by
  induction hs with
  | init => simpa [Col.counterView, Col.init] using Reachable.init
  | step a _ h _ ih =>
    rcases Col.step_counterView h _ with ⟨he, hv⟩ | ⟨e, b, he, hb⟩
    · rw [he, Option.toList_none, List.nil_append, hv]; exact ih
    · rw [he, Option.toList_some, List.singleton_append]; exact .step b ih hb

/-- **The writers' reports are linearizable in every column run**, over the history the
run's own steps record: every returned writer swapped once or found `DIRTY_COUNT`, the
counter is the reports and the recounts' stores applied in the order of that history,
and each returned writer occurs in it once. -/
theorem ColTrace.counterView_linearizable {ops : ι → Op} {rows₀ : Nat} {c₀ : I64}
    {P : Col ι κ → Prop} {s : Col ι κ} {hist : List (Event ι)}
    (hs : ColTrace ops rows₀ c₀ P s hist) : Linearizable ops c₀ (s.counterView hist) :=
  hs.reachable.inv.linearizable

/-- A recount stores the count `0` over `DIRTY_COUNT`; a writer then adds a row, loads
`0` and swaps in `1`. -/
theorem counterView_linearizable_after_recount :
    ∃ s : Col Bool Unit, ColTrace (fun _ => .increase 1) 0 dirtyCount (fun _ => True) s
        [.swap true 0 1, .load true 0, .store dirtyCount 0] ∧
      s.rows = 1 ∧ s.entryCounter = 1 ∧
      Linearizable (fun _ => .increase 1) dirtyCount
        (s.counterView [.swap true 0 1, .load true 0, .store dirtyCount 0]) :=
  have hs : ColTrace (fun _ : Bool => Op.increase 1) 0 dirtyCount (fun _ => True) _ _ :=
    .step (.write true) (.step (.write true) (.step (.write true) (.step (.recount ())
      (.step (.recount ()) (.step (.recount ()) (.init trivial) rfl trivial) rfl trivial)
      rfl trivial) rfl trivial) rfl trivial) rfl trivial
  ⟨_, hs, rfl, rfl, ColTrace.counterView_linearizable hs⟩

/-! ### A stale count -/

/-- The trace: a recount loads `DIRTY_COUNT` and scans `0` rows; a writer adds a row and
skips its report on the dirty counter; the recount stores `0`. -/
def staleTrace : List (ColAct Unit Unit) :=
  [.recount (), .recount (), .write (), .write (), .recount ()]

theorem cacheExact_fails :
    ¬ ∀ s : Col Unit Unit, ColRun (fun _ => .increase 1) 0 dirtyCount (fun _ => True) s →
      Quiescent s → CacheExact s := by
  intro h
  have hr : ((Col.init 0 dirtyCount : Col Unit Unit).runWhile (fun _ => .increase 1)
      (fun _ => true) staleTrace).map
      (fun s => (s.rows, s.entryCounter, (s.writer ()).busy, (s.recount ()).busy)) =
      some (1, 0, false, false) := rfl
  obtain ⟨s, hrun, hs⟩ := Option.map_eq_some'.mp hr
  simp only [Prod.mk.injEq] at hs
  obtain ⟨hrows, hc, hw, hk⟩ := hs
  have := h s ((ColRun.runWhile (.init rfl) hrun).mono fun _ _ => trivial) ⟨fun _ => hw, fun _ => hk⟩
  rw [CacheExact, hrows, hc] at this
  revert this; decide

/-! ### Arithmetic of a report -/

omit [DecidableEq ι] [DecidableEq κ] in
theorem change_ofNat {op : Op} {rows rows' : Nat} (h : change op rows = some rows') :
    BitVec.ofNat 64 rows' = BitVec.ofNat 64 rows + op.signed := by
  cases op with
  | increase amount =>
    simp only [change, Option.some.injEq] at h
    subst h
    apply BitVec.eq_of_toNat_eq
    simp [Op.signed, asI64, BitVec.toNat_add]
  | decrease amount =>
    simp only [change] at h
    split at h
    · cases h
      apply BitVec.eq_of_toNat_eq
      simp [Op.signed, asI64, BitVec.toNat_add, BitVec.toNat_neg]
      omega
    · cases h

omit [DecidableEq ι] [DecidableEq κ] in
/-- A swap stores `DIRTY_COUNT` or adds the signed report. -/
theorem target_eq_or_dirty (op : Op) (prev : I64) :
    op.target prev = dirtyCount ∨ op.target prev = prev + op.signed := by
  cases op with
  | increase amount => exact .inr rfl
  | decrease amount =>
    by_cases h : 0 ≤ (prev - asI64 amount).toInt
    · exact .inr (by rw [Op.signed, ← sub_eq_add_neg]; exact if_pos h)
    · exact .inl (by simp only [Op.target, decreaseTarget, if_neg h])

omit [DecidableEq ι] [DecidableEq κ] in
/-- A call reaches its linearization point exactly when it returns. -/
theorem callStep_lin_iff {op : Op} {i : ι} {c c' : I64} {p p' : Pc} {e : Event ι}
    (h : callStep op i c p = some (c', p', e)) : e.lin = some (.call i) ↔ p' = .done := by
  rcases callStep_cases h with ⟨-, -, rfl, rfl⟩ | ⟨-, -, rfl, rfl⟩ | ⟨_, -, -, -, rfl, rfl⟩
  · by_cases hc : c = dirtyCount <;> simp [Event.lin, hc]
  all_goals simp [Event.lin]

theorem countToI64_of_le {n : Nat} (h : n ≤ 2 ^ 63 - 1) : countToI64 n = BitVec.ofNat 64 n := by
  unfold countToI64; rw [if_neg (by omega)]

theorem toInt_ofNat_of_le {n : Nat} (h : n ≤ 2 ^ 63 - 1) : (BitVec.ofNat 64 n).toInt = n := by
  rw [← countToI64_of_le h, toInt_countToI64 h]

theorem eq_ofNat_of_toInt {x : I64} {n : Nat} (h : x.toInt = n) : x = BitVec.ofNat 64 n := by
  have hx := toNat_lt_of_toInt_nonneg (x := x) (by omega)
  rw [toInt_of_toNat_lt hx] at h
  apply BitVec.eq_of_toNat_eq
  simp only [BitVec.toNat_ofNat]
  omega

/-! ### The invariant of runs without overlap -/

/-- The `i64` sum of the reports in flight. -/
def inflightSum (ops : ι → Op) (s : Col ι κ) : I64 := (s.inflight.map fun i => (ops i).signed).sum

/-- `inflight` lists, once each, the writers under way; a writer about to swap holds a
non-dirty `prev`; a recount about to store holds the clamped row count; and the counter
is `DIRTY_COUNT` or, with the reports in flight added, the row count in `i64`
arithmetic. -/
structure ColInv (ops : ι → Op) (s : Col ι κ) : Prop where
  nodup : s.inflight.Nodup
  inflight_iff : ∀ i, i ∈ s.inflight ↔ (s.writer i).busy = true
  cas_ne : ∀ i prev, s.writer i = .report (.cas prev) → prev ≠ dirtyCount
  scanned : ∀ k n, s.recount k = .store n → n = countToI64 s.rows
  counter : s.entryCounter = dirtyCount ∨ s.entryCounter + inflightSum ops s = BitVec.ofNat 64 s.rows

section Inv

variable {ops : ι → Op} {s : Col ι κ}

omit [DecidableEq ι] [DecidableEq κ] in
theorem ColInv.inflight_eq_nil (hi : ColInv ops s) (h : ∀ i, (s.writer i).busy = false) :
    s.inflight = [] :=
  List.eq_nil_iff_forall_not_mem.mpr fun i hm => by
    exact absurd ((hi.inflight_iff i).mp hm) (by simp [h i])

omit [DecidableEq ι] [DecidableEq κ] in
theorem ColInv.init {rows₀ : Nat} {c₀ : I64} (h₀ : c₀ = dirtyCount ∨ c₀.toInt = rows₀) :
    ColInv ops (Col.init rows₀ c₀ : Col ι κ) := by
  refine ⟨List.nodup_nil, fun i => by simp [Col.init, WriterPc.busy], fun i prev => by
    simp [Col.init], fun k n => by simp [Col.init], ?_⟩
  rcases h₀ with h | h
  · exact .inl h
  · exact .inr (by simpa [inflightSum, Col.init] using eq_ofNat_of_toInt h)

omit [DecidableEq κ] in
/-- A writer's change puts it in flight. -/
theorem ColInv.write_idle {i : ι} {rows : Nat} (hi : ColInv ops s) (hw : s.writer i = .idle)
    (hc : change (ops i) s.rows = some rows) (hP : NoOverlap (s.changed i rows)) :
    ColInv ops (s.changed i rows) := by
  have hni : i ∉ s.inflight := fun hm => by
    simpa [hw, WriterPc.busy] using (hi.inflight_iff i).mp hm
  refine ⟨List.nodup_cons.mpr ⟨hni, hi.nodup⟩, fun j => ?_, fun j prev => ?_, fun k n hk => ?_, ?_⟩
  · by_cases hj : j = i
    · subst hj; simp [WriterPc.busy]
    · simp [Function.update_noteq hj, hj, hi.inflight_iff j]
  · by_cases hj : j = i
    · subst hj; simp
    · simpa [Function.update_noteq hj] using hi.cas_ne j prev
  · have := hP ⟨k, by simp_all [RecountPc.busy]⟩ i
    simp [WriterPc.busy] at this
  · refine hi.counter.imp id fun h => ?_
    simp only [inflightSum, Col.changed_entryCounter, Col.changed_inflight, Col.changed_rows,
      List.map_cons, List.sum_cons] at h ⊢
    rw [change_ofNat hc, ← h]; abel

omit [DecidableEq κ] in
/-- A writer's report step keeps the invariant; at its linearization point it leaves
`inflight`, with its delta now in the counter. -/
theorem ColInv.write_report {i : ι} {p p' : Pc} {c : I64} {e : Event ι} (hi : ColInv ops s)
    (hw : s.writer i = .report p) (hc : callStep (ops i) i s.entryCounter p = some (c, p', e)) :
    ColInv ops (s.reported i c p' e) := by
  have hmem : i ∈ s.inflight := (hi.inflight_iff i).mpr (by
    cases p <;> simp_all [WriterPc.busy, callStep])
  have hcas : ∀ j prev, (s.reported i c p' e).writer j = .report (.cas prev) →
      prev ≠ dirtyCount := fun j prev => by
    by_cases hj : j = i
    · subst hj
      simp only [Col.reported_writer, Function.update_same, WriterPc.report.injEq]
      rintro rfl
      exact (callStep_eq_cas hc).2.2.1
    · simpa [Function.update_noteq hj] using hi.cas_ne j prev
  by_cases hd : p' = .done
  · -- the linearization point: the writer leaves `inflight`
    have hl : e.lin = some (.call i) := (callStep_lin_iff hc).mpr hd
    have hsum := List.sum_map_erase (fun j => (ops j).signed) hmem
    refine ⟨by simpa [hl] using hi.nodup.erase i, fun j => ?_, hcas, by simpa using hi.scanned, ?_⟩
    · by_cases hj : j = i
      · subst hj; simp [hl, hd, WriterPc.busy, hi.nodup.not_mem_erase]
      · simp [hl, Function.update_noteq hj, List.mem_erase_of_ne hj, hi.inflight_iff j]
    · simp only [inflightSum, Col.reported_entryCounter, Col.reported_inflight, if_pos hl,
        Col.reported_rows]
      rcases callStep_cases hc with ⟨-, rfl, hp', -⟩ | ⟨rfl, rfl, -, -⟩ | ⟨_, -, -, -, h, -⟩
      · -- a load of `DIRTY_COUNT`
        left
        rw [hd] at hp'
        split at hp'
        · assumption
        · cases hp'
      · -- a swap
        rcases target_eq_or_dirty (ops i) s.entryCounter with h | h
        · exact .inl h
        · right
          have hc' := hi.counter.resolve_left (hi.cas_ne i _ hw)
          simp only [inflightSum] at hc'
          rw [h, ← hc', ← hsum]; abel
      · exact absurd (h.symm.trans hd) (by simp)
  · -- before it: nothing moves
    have hl : ¬ e.lin = some (.call i) := fun h => hd ((callStep_lin_iff hc).mp h)
    refine ⟨by simpa [hl] using hi.nodup, fun j => ?_, hcas, by simpa using hi.scanned, ?_⟩
    · by_cases hj : j = i
      · subst hj; cases p' <;> simp_all [WriterPc.busy]
      · simp [hl, Function.update_noteq hj, hi.inflight_iff j]
    · simp only [inflightSum, Col.reported_entryCounter, Col.reported_inflight, if_neg hl,
        Col.reported_rows]
      rcases callStep_cases hc with ⟨-, rfl, -, -⟩ | ⟨-, -, h, -⟩ | ⟨_, -, -, rfl, -, -⟩
      · exact hi.counter
      · exact absurd h hd
      · exact hi.counter

omit [DecidableEq ι] in
/-- A recount's load or scan moves only its own `pc`. -/
theorem ColInv.setRecount {k : κ} {r : RecountPc} (hi : ColInv ops s)
    (hr : ∀ n, r = .store n → n = countToI64 s.rows) : ColInv ops (s.setRecount k r) := by
  refine ⟨by simpa using hi.nodup, by simpa using hi.inflight_iff, by simpa using hi.cas_ne,
    fun k' n h => ?_, by simpa [inflightSum] using hi.counter⟩
  by_cases hk : k' = k
  · subst hk; simp only [Col.setRecount_recount, Function.update_same] at h
    simpa using hr n h
  · simpa using hi.scanned k' n (by simpa [Function.update_noteq hk] using h)

omit [DecidableEq ι] in
/-- A recount's store writes the row count over a counter no writer is changing. -/
theorem ColInv.store {k : κ} {n : I64} (hi : ColInv ops s) (hk : s.recount k = .store n)
    (hP : NoOverlap s) (hmax : s.rows ≤ 2 ^ 63 - 1) :
    ColInv ops ({ s with entryCounter := n }.setRecount k (.done n)) := by
  have hnil := hi.inflight_eq_nil (hP ⟨k, by simp [hk, RecountPc.busy]⟩)
  refine ⟨by simpa using hi.nodup, by simpa using hi.inflight_iff, by simpa using hi.cas_ne,
    fun k' n' h => ?_, .inr ?_⟩
  · by_cases hk' : k' = k
    · subst hk'; simp at h
    · simpa using hi.scanned k' n' (by simpa [Function.update_noteq hk'] using h)
  · simp [inflightSum, hnil, hi.scanned k n hk, countToI64_of_le hmax]

end Inv

/-- The runs the cache is exact for: no recount under way while a writer is, and never
more than `i64::MAX` rows. -/
def Separated (s : Col ι κ) : Prop := NoOverlap s ∧ s.rows ≤ 2 ^ 63 - 1

instance [Fintype ι] [Fintype κ] (s : Col ι κ) : Decidable (Separated s) :=
  inferInstanceAs (Decidable ((_ → ∀ i, (s.writer i).busy = false) ∧ _))

theorem ColInv.step {ops : ι → Op} {s s' : Col ι κ} {a : ColAct ι κ} (hi : ColInv ops s)
    (hP : Separated s) (h : s.step ops a = some s') (hP' : Separated s') : ColInv ops s' := by
  cases a with
  | write i =>
    simp only [Col.step] at h
    split at h
    · obtain ⟨rows, hc, rfl⟩ := Option.map_eq_some'.mp h
      exact hi.write_idle ‹_› hc hP'.1
    · obtain ⟨⟨c, p', e⟩, hc, rfl⟩ := Option.map_eq_some'.mp h
      exact hi.write_report ‹_› hc
  | recount k =>
    simp only [Col.step] at h
    split at h <;> cases h
    · exact hi.setRecount fun n h => by split at h <;> cases h
    · exact hi.setRecount fun n h => by cases h; rfl
    · exact hi.store ‹_› hP.1 hP.2

theorem ColRun.inv {ops : ι → Op} {rows₀ : Nat} {c₀ : I64} {s : Col ι κ}
    (h₀ : c₀ = dirtyCount ∨ c₀.toInt = rows₀) (hs : ColRun ops rows₀ c₀ Separated s) :
    ColInv ops s := by
  induction hs with
  | init => exact ColInv.init h₀
  | step _ hs h hP ih => exact ih.step hs.guard h hP

/-- **The cache is exact when recounts and writers do not overlap.**  From a counter
that is `DIRTY_COUNT` or the row count, in every run where no recount is under way
while a writer is and the rows never exceed `i64::MAX`, a state with no call under way
has the counter `DIRTY_COUNT` or equal to the row count. -/
theorem quiescent_cacheExact {ops : ι → Op} {rows₀ : Nat} {c₀ : I64} {s : Col ι κ}
    (h₀ : c₀ = dirtyCount ∨ c₀.toInt = rows₀) (hs : ColRun ops rows₀ c₀ Separated s)
    (hq : Quiescent s) : CacheExact s := by
  have hi := hs.inv h₀
  refine hi.counter.imp id fun h => ?_
  simp only [inflightSum, hi.inflight_eq_nil hq.1, List.map_nil, List.sum_nil, add_zero] at h
  rw [h, toInt_ofNat_of_le hs.guard.2]

/-- From `DIRTY_COUNT`: writer `true` adds a row and skips its report on the dirty
counter; a recount scans and stores `1`; writer `false` adds a row and swaps `1` for
`2`. -/
def separateTrace : List (ColAct Bool Unit) :=
  [.write true, .write true, .recount (), .recount (), .recount (), .write false, .write false,
    .write false]

theorem quiescent_cacheExact_separate :
    ∃ s : Col Bool Unit, ColRun (fun _ => .increase 1) 0 dirtyCount Separated s ∧ Quiescent s ∧
      s.rows = 2 ∧ s.entryCounter = 2 ∧ CacheExact s := by
  have hr : ((Col.init 0 dirtyCount : Col Bool Unit).runWhile (fun _ => .increase 1)
      (fun s => decide (Separated s)) separateTrace).map
      (fun s => (s.rows, s.entryCounter, (s.writer true).busy, (s.writer false).busy,
        (s.recount ()).busy)) = some (2, 2, false, false, false) := by
    decide
  obtain ⟨s, hrun, hs⟩ := Option.map_eq_some'.mp hr
  simp only [Prod.mk.injEq] at hs
  obtain ⟨hrows, hc, ht, hf, hk⟩ := hs
  have hs' : ColRun (fun _ => .increase 1) 0 dirtyCount Separated s :=
    (ColRun.runWhile (.init (by decide)) hrun).mono fun _ h => of_decide_eq_true h
  have hq : Quiescent s := ⟨fun i => by cases i <;> assumption, fun _ => hk⟩
  exact ⟨s, hs', hq, hrows, hc, quiescent_cacheExact (.inl rfl) hs' hq⟩

end MagicblockLedger
