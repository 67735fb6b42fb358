/-
MagicblockLedger/CasLoop.lean

The `loop` of `try_increase_entry_counter` and `try_decrease_entry_counter`, at the
granularity of its atomic steps, run by any number of calls at once and interleaved
with stores to the counter by other actors (`count_column_using_cache`, or anything
that marks it dirty).

A call is at `Pc.load` (top of the loop), at `Pc.cas prev` (it loaded `prev ≠
DIRTY_COUNT` and is about to `compare_exchange(prev, target)`) or at `Pc.done`.
`callStep` is one atomic step of one call, read off the source; `Sys.step` interleaves
them with external stores and records each step in a ghost history `hist`, newest
first, so that step order is real-time order.

Main result (`reachable_linearizable`): in every reachable state

* every returned call either wrote the counter exactly once, swapping the value
  `v ≠ DIRTY_COUNT` it found for `Op.target v`, or wrote nothing and read
  `DIRTY_COUNT` at its last load;
* the counter equals the atomic operations of the linearization applied in order, and
  each returned call occurs there exactly once, each running call not at all;
* no step of a call moves the counter away from `DIRTY_COUNT`.

Run alone, the loop returns after two steps with the effect `Op.apply`
(`runAlone_load`), which is the sequential semantics of `Counter.lean`.  A swap that
misses follows, since the call's load, the linearization point of another operation that
changed the counter (`cas_miss_after_other_write`): every retry is paid for by progress
elsewhere.
-/
import MagicblockLedger.Counter

namespace MagicblockLedger

/-- Where a call stands in its `loop`. -/
inductive Pc
  | load
  | cas (prev : I64)
  | done
  deriving DecidableEq, Repr

/-- One atomic step of the counter, as the ghost history records it. -/
inductive Event (ι : Type)
  /-- call `i` loaded `seen` -/
  | load (i : ι) (seen : I64)
  /-- call `i`'s `compare_exchange` succeeded, replacing `old` by `new` -/
  | swap (i : ι) (old new : I64)
  /-- call `i`'s `compare_exchange` failed: the counter held `seen` -/
  | miss (i : ι) (seen : I64)
  /-- another actor stored `new` over `old` -/
  | store (old new : I64)
  deriving DecidableEq, Repr

variable {ι : Type}

/-- One atomic step of call `i` running `op`, at `pc`, on counter value `c`: the new
counter, the new `pc` and the event.  A returned call takes no step. -/
def callStep (op : Op) (i : ι) (c : I64) : Pc → Option (I64 × Pc × Event ι)
  | .load => some (c, if c = dirtyCount then .done else .cas c, .load i c)
  | .cas prev =>
      if c = prev then some (op.target prev, .done, .swap i c (op.target prev))
      else some (c, .load, .miss i c)
  | .done => none

/-- What one step of a call can do: load, swap, or miss. -/
theorem callStep_cases {op : Op} {i : ι} {c c' : I64} {p p' : Pc} {e : Event ι}
    (h : callStep op i c p = some (c', p', e)) :
    (p = .load ∧ c' = c ∧ p' = (if c = dirtyCount then .done else .cas c) ∧ e = .load i c) ∨
      (p = .cas c ∧ c' = op.target c ∧ p' = .done ∧ e = .swap i c (op.target c)) ∨
      (∃ prev, p = .cas prev ∧ c ≠ prev ∧ c' = c ∧ p' = .load ∧ e = .miss i c) := by
  cases p with
  | load =>
    simp only [callStep, Option.some.injEq, Prod.mk.injEq] at h
    obtain ⟨rfl, rfl, rfl⟩ := h
    exact .inl ⟨rfl, rfl, rfl, rfl⟩
  | cas prev =>
    simp only [callStep] at h
    split at h <;> simp only [Option.some.injEq, Prod.mk.injEq] at h <;> obtain ⟨rfl, rfl, rfl⟩ := h
    · subst_vars; exact .inr (.inl ⟨rfl, rfl, rfl, rfl⟩)
    · exact .inr (.inr ⟨prev, rfl, ‹_›, rfl, rfl, rfl⟩)
  | done => cases h

/-- A call moves to `Pc.cas prev` only from its load, having read `prev ≠ DIRTY_COUNT`. -/
theorem callStep_eq_cas {op : Op} {i : ι} {c c' prev : I64} {p : Pc} {e : Event ι}
    (h : callStep op i c p = some (c', .cas prev, e)) :
    p = .load ∧ c = prev ∧ prev ≠ dirtyCount ∧ e = .load i prev := by
  rcases callStep_cases h with ⟨rfl, -, hp, rfl⟩ | ⟨-, -, hp, -⟩ | ⟨_, -, -, -, hp, -⟩
  · by_cases hc : c = dirtyCount <;> simp only [hc, if_true, if_false] at hp
    · cases hp
    · cases hp; exact ⟨rfl, rfl, hc, rfl⟩
  · cases hp
  · cases hp

/-- A call run with no other actor, for at most `fuel` steps; `none` when the fuel
runs out first. -/
def runAlone (op : Op) (i : ι) : Nat → I64 → Pc → Option I64
  | _, c, .done => some c
  | 0, _, _ => none
  | fuel + 1, c, p => (callStep op i c p).bind fun (c', p', _) => runAlone op i fuel c' p'

/-- **Run alone, the loop is `Op.apply`**: from the top of the loop it returns within
two steps, leaving `op.apply c`. -/
theorem runAlone_load (op : Op) (i : ι) (c : I64) :
    runAlone op i 2 c .load = some (op.apply c) := by
  by_cases h : c = dirtyCount
  · simp [runAlone, callStep, h]
  · simp [runAlone, callStep, h, apply_of_ne h]

/-! ### Reading the history -/

/-- The call an event belongs to; `none` for an external store. -/
def Event.actor : Event ι → Option ι
  | .load i _ | .swap i _ _ | .miss i _ => some i
  | .store _ _ => none

/-- The counter value an event found. -/
def Event.pre : Event ι → I64
  | .load _ seen | .miss _ seen => seen
  | .swap _ old _ | .store old _ => old

/-- The counter value an event left. -/
def Event.post : Event ι → I64
  | .load _ seen | .miss _ seen => seen
  | .swap _ _ new | .store _ new => new

/-- The history is a run of the counter from `c₀` to `c`: each event found what the
one before it left. -/
def Logged (c₀ : I64) : List (Event ι) → I64 → Prop
  | [], c => c = c₀
  | e :: hist, c => e.post = c ∧ Logged c₀ hist e.pre

/-- An atomic operation of the linearization: a whole call, or an external store. -/
inductive Lin (ι : Type)
  | call (i : ι)
  | store (v : I64)
  deriving DecidableEq

/-- The atomic effect of a linearized operation. -/
def Lin.apply (ops : ι → Op) : Lin ι → I64 → I64
  | .call i, c => (ops i).apply c
  | .store v, _ => v

/-- Linearization points: a call takes effect at its successful swap, or at the load
that found `DIRTY_COUNT`; a store at itself. -/
def Event.lin : Event ι → Option (Lin ι)
  | .load i seen => if seen = dirtyCount then some (.call i) else none
  | .swap i _ _ => some (.call i)
  | .miss _ _ => none
  | .store _ new => some (.store new)

/-- The linearization of a history, newest first. -/
def linearization (hist : List (Event ι)) : List (Lin ι) := hist.filterMap Event.lin

theorem foldr_linearization_cons (ops : ι → Op) (c₀ : I64) (e : Event ι)
    (hist : List (Event ι)) :
    (linearization (e :: hist)).foldr (Lin.apply ops) c₀ =
      match e.lin with
      | some l => l.apply ops ((linearization hist).foldr (Lin.apply ops) c₀)
      | none => (linearization hist).foldr (Lin.apply ops) c₀ := by
  cases h : e.lin <;> simp [linearization, List.filterMap_cons, h]

theorem callStep_actor {op : Op} {i : ι} {c c' : I64} {p p' : Pc} {e : Event ι}
    (h : callStep op i c p = some (c', p', e)) : e.actor = some i := by
  rcases callStep_cases h with ⟨-, -, -, rfl⟩ | ⟨-, -, -, rfl⟩ | ⟨_, -, -, -, -, rfl⟩ <;> rfl

theorem callStep_pre_post {op : Op} {i : ι} {c c' : I64} {p p' : Pc} {e : Event ι}
    (h : callStep op i c p = some (c', p', e)) : e.pre = c ∧ e.post = c' := by
  rcases callStep_cases h with ⟨-, rfl, -, rfl⟩ | ⟨-, rfl, -, rfl⟩ | ⟨_, -, -, rfl, -, rfl⟩ <;>
    exact ⟨rfl, rfl⟩

/-- A step of a call either is its linearization point, where it has the effect of the
whole call, or leaves the counter alone.  Needs that a call never waits to swap out
`DIRTY_COUNT`. -/
theorem callStep_lin {op : Op} {i : ι} {c c' : I64} {p p' : Pc} {e : Event ι}
    (h : callStep op i c p = some (c', p', e)) (hp : ∀ prev, p = .cas prev → prev ≠ dirtyCount) :
    (e.lin = some (.call i) ∧ c' = op.apply c) ∨ (e.lin = none ∧ c' = c) := by
  rcases callStep_cases h with ⟨-, hc', -, rfl⟩ | ⟨rfl, rfl, -, rfl⟩ | ⟨_, -, -, rfl, -, rfl⟩
  · rw [hc']
    by_cases hc : c = dirtyCount <;> simp [Event.lin, hc]
  · exact .inl ⟨rfl, (apply_of_ne (hp c rfl)).symm⟩
  · exact .inr ⟨rfl, rfl⟩

variable [DecidableEq ι]

/-- The write of call `i` an event records. -/
def Event.writeOf (i : ι) : Event ι → Option (I64 × I64)
  | .swap j old new => if j = i then some (old, new) else none
  | _ => none

/-- The value call `i` loaded in an event. -/
def Event.loadOf (i : ι) : Event ι → Option I64
  | .load j seen => if j = i then some seen else none
  | _ => none

/-- Call `i`'s writes to the counter, newest first. -/
def writes (i : ι) (hist : List (Event ι)) : List (I64 × I64) := hist.filterMap (Event.writeOf i)

/-- The value call `i` read at its last load. -/
def lastLoad (i : ι) (hist : List (Event ι)) : Option I64 := hist.findSome? (Event.loadOf i)

/-- How often call `i` occurs in the linearization. -/
def linCount (i : ι) (hist : List (Event ι)) : Nat := (linearization hist).count (.call i)

@[simp] theorem writes_nil (i : ι) : writes i ([] : List (Event ι)) = [] := rfl

theorem writes_cons_of_none {e : Event ι} {i : ι} (hist : List (Event ι))
    (h : e.writeOf i = none) : writes i (e :: hist) = writes i hist := by
  simp [writes, List.filterMap_cons, h]

theorem writes_cons_of_some {e : Event ι} {i : ι} {w : I64 × I64} (hist : List (Event ι))
    (h : e.writeOf i = some w) : writes i (e :: hist) = w :: writes i hist := by
  simp [writes, List.filterMap_cons, h]

theorem lastLoad_cons_of_none {e : Event ι} {i : ι} (hist : List (Event ι))
    (h : e.loadOf i = none) : lastLoad i (e :: hist) = lastLoad i hist := by
  simp [lastLoad, List.findSome?_cons, h]

theorem lastLoad_cons_of_some {e : Event ι} {i : ι} {v : I64} (hist : List (Event ι))
    (h : e.loadOf i = some v) : lastLoad i (e :: hist) = some v := by
  simp [lastLoad, List.findSome?_cons, h]

@[simp] theorem linCount_nil (i : ι) : linCount i ([] : List (Event ι)) = 0 := rfl

@[simp] theorem linCount_cons (i : ι) (e : Event ι) (hist : List (Event ι)) :
    linCount i (e :: hist) = linCount i hist + if e.lin = some (.call i) then 1 else 0 := by
  cases h : e.lin <;> simp [linCount, linearization, List.filterMap_cons, h, List.count_cons]

/-- An event of another actor says nothing about call `i`. -/
theorem Event.of_actor_ne {e : Event ι} {i : ι} (h : e.actor ≠ some i) :
    e.writeOf i = none ∧ e.loadOf i = none ∧ e.lin ≠ some (.call i) := by
  cases e <;> simp_all [Event.actor, Event.writeOf, Event.loadOf, Event.lin]

/-! ### The interleaved system -/

/-- The counter, the calls, and the ghost history (newest first). -/
structure Sys (ι : Type) where
  counter : I64
  pc : ι → Pc
  hist : List (Event ι)

/-- An atomic step: of call `i`, or a store of `v` by another actor. -/
inductive Act (ι : Type)
  | call (i : ι)
  | store (v : I64)

/-- The interleaving semantics; `ops i` is the call `i` runs. -/
def Sys.step (ops : ι → Op) (s : Sys ι) : Act ι → Option (Sys ι)
  | .call i => (callStep (ops i) i s.counter (s.pc i)).map fun (c, p, e) =>
      ⟨c, Function.update s.pc i p, e :: s.hist⟩
  | .store v => some ⟨v, s.pc, .store s.counter v :: s.hist⟩

/-- The states reached from counter `c₀` with every call at the top of its loop. -/
inductive Reachable (ops : ι → Op) (c₀ : I64) : Sys ι → Prop
  | init : Reachable ops c₀ ⟨c₀, fun _ => .load, []⟩
  | step {s s' : Sys ι} (a : Act ι) : Reachable ops c₀ s → s.step ops a = some s' →
      Reachable ops c₀ s'

theorem step_call_inv {ops : ι → Op} {s s' : Sys ι} {i : ι}
    (h : s.step ops (.call i) = some s') :
    ∃ c p e, callStep (ops i) i s.counter (s.pc i) = some (c, p, e) ∧
      s' = ⟨c, Function.update s.pc i p, e :: s.hist⟩ := by
  simp only [Sys.step, Option.map_eq_some'] at h
  obtain ⟨⟨c, p, e⟩, hc, rfl⟩ := h
  exact ⟨c, p, e, hc, rfl⟩

/-! ### The invariant -/

/-- What the history says of call `i` at `pc`: a running call has neither written nor
taken effect, and waits to swap out only a non-dirty value; a returned call has taken
effect once, by one swap of a non-dirty value or by loading `DIRTY_COUNT`. -/
def CallInv (op : Op) (i : ι) : Pc → List (Event ι) → Prop
  | .load, hist => writes i hist = [] ∧ linCount i hist = 0
  | .cas prev, hist => prev ≠ dirtyCount ∧ writes i hist = [] ∧ linCount i hist = 0
  | .done, hist => linCount i hist = 1 ∧
      ((∃ v, v ≠ dirtyCount ∧ writes i hist = [(v, op.target v)]) ∨
        (writes i hist = [] ∧ lastLoad i hist = some dirtyCount))

/-- The invariant of reachable states: the history logs the counter's run, the counter is
the linearization's result, and every call is as `CallInv` says. -/
structure Inv (ops : ι → Op) (c₀ : I64) (s : Sys ι) : Prop where
  logged : Logged c₀ s.hist s.counter
  linearized : s.counter = (linearization s.hist).foldr (Lin.apply ops) c₀
  calls : ∀ i, CallInv (ops i) i (s.pc i) s.hist

theorem CallInv.cas_ne {op : Op} {i : ι} {p : Pc} {hist : List (Event ι)}
    (h : CallInv op i p hist) : ∀ prev, p = .cas prev → prev ≠ dirtyCount := by
  rintro prev rfl; exact h.1

theorem CallInv.cons_of_actor_ne {op : Op} {i : ι} {p : Pc} {hist : List (Event ι)}
    {e : Event ι} (h : CallInv op i p hist) (he : e.actor ≠ some i) :
    CallInv op i p (e :: hist) := by
  obtain ⟨hw, hl, hlin⟩ := Event.of_actor_ne he
  cases p <;>
    simpa only [CallInv, writes_cons_of_none _ hw, lastLoad_cons_of_none _ hl, linCount_cons,
      if_neg hlin, add_zero] using h

/-- The own step of a call keeps `CallInv`. -/
theorem CallInv.callStep {op : Op} {i : ι} {c c' : I64} {p p' : Pc} {e : Event ι}
    {hist : List (Event ι)} (h : callStep op i c p = some (c', p', e))
    (hi : CallInv op i p hist) : CallInv op i p' (e :: hist) := by
  rcases callStep_cases h with ⟨rfl, -, rfl, rfl⟩ | ⟨rfl, -, rfl, rfl⟩ | ⟨_, rfl, -, -, rfl, rfl⟩
  · have hw := writes_cons_of_none (e := .load i c) (i := i) hist (by simp [Event.writeOf])
    have hl := lastLoad_cons_of_some (e := .load i c) (i := i) (v := c) hist (by simp [Event.loadOf])
    by_cases hc : c = dirtyCount
    · subst hc; simp_all [CallInv, Event.lin]
    · simp_all [CallInv, Event.lin]
  · have hw := writes_cons_of_some (e := .swap i c (op.target c)) (i := i) (w := (c, op.target c)) hist
      (by simp [Event.writeOf])
    obtain ⟨hne, hw₀, hl₀⟩ := hi
    exact ⟨by simp [hl₀, Event.lin], .inl ⟨c, hne, by rw [hw, hw₀]⟩⟩
  · have hw := writes_cons_of_none (e := .miss i c) (i := i) hist (by simp [Event.writeOf])
    exact ⟨hw.trans hi.2.1, by simp [hi.2.2, Event.lin]⟩

theorem Inv.init (ops : ι → Op) (c₀ : I64) : Inv ops c₀ ⟨c₀, fun _ => .load, []⟩ :=
  ⟨rfl, rfl, fun _ => ⟨rfl, rfl⟩⟩

theorem Inv.step {ops : ι → Op} {c₀ : I64} {s s' : Sys ι} {a : Act ι} (hi : Inv ops c₀ s)
    (h : s.step ops a = some s') : Inv ops c₀ s' := by
  cases a with
  | store v =>
    simp only [Sys.step, Option.some.injEq] at h
    subst h
    refine ⟨⟨rfl, hi.logged⟩, ?_, fun i => (hi.calls i).cons_of_actor_ne (by simp [Event.actor])⟩
    simp [foldr_linearization_cons, Event.lin, Lin.apply]
  | call i =>
    obtain ⟨c, p, e, hc, rfl⟩ := step_call_inv h
    obtain ⟨hpre, hpost⟩ := callStep_pre_post hc
    refine ⟨⟨hpost, hpre ▸ hi.logged⟩, ?_, fun j => ?_⟩
    · rw [foldr_linearization_cons, ← hi.linearized]
      rcases callStep_lin hc (hi.calls i).cas_ne with ⟨hl, rfl⟩ | ⟨hl, rfl⟩ <;>
        simp [hl, Lin.apply]
    · by_cases hj : j = i
      · subst hj; simpa using (hi.calls j).callStep hc
      · simpa only [Function.update_noteq hj] using
          (hi.calls j).cons_of_actor_ne (by simp [callStep_actor hc, Ne.symm hj])

theorem Reachable.inv {ops : ι → Op} {c₀ : I64} {s : Sys ι} (hs : Reachable ops c₀ s) :
    Inv ops c₀ s := by
  induction hs with
  | init => exact Inv.init ops c₀
  | step _ _ h ih => exact ih.step h

/-! ### Linearizability -/

/-- The counter's `loop` is linearizable in state `s`: the history is the counter's own
run from `c₀`; a returned call swapped a non-dirty `v` for `Op.target v` exactly once, or
wrote nothing and loaded `DIRTY_COUNT` last; a running call has not written; the counter
is the linearization applied in order to `c₀`, with each returned call in it once and
each running call not at all; and no step of a call moves the counter away from
`DIRTY_COUNT`. -/
structure Linearizable (ops : ι → Op) (c₀ : I64) (s : Sys ι) : Prop where
  logged : Logged c₀ s.hist s.counter
  returned : ∀ i, s.pc i = .done →
    (∃ v, v ≠ dirtyCount ∧ writes i s.hist = [(v, (ops i).target v)]) ∨
      (writes i s.hist = [] ∧ lastLoad i s.hist = some dirtyCount)
  running : ∀ i, s.pc i ≠ .done → writes i s.hist = []
  linearized : s.counter = (linearization s.hist).foldr (Lin.apply ops) c₀
  once : ∀ i, linCount i s.hist = if s.pc i = .done then 1 else 0
  dirty_stays : ∀ i s', s.step ops (.call i) = some s' → s.counter = dirtyCount →
    s'.counter = dirtyCount

theorem Inv.dirty_stays {ops : ι → Op} {c₀ : I64} {s s' : Sys ι} {i : ι} (hi : Inv ops c₀ s)
    (h : s.step ops (.call i) = some s') (hd : s.counter = dirtyCount) :
    s'.counter = dirtyCount := by
  obtain ⟨c, p, e, hc, rfl⟩ := step_call_inv h
  rcases callStep_lin hc (hi.calls i).cas_ne with ⟨-, rfl⟩ | ⟨-, rfl⟩ <;> simp [hd]

/-- The invariant gives every clause of `Linearizable`: the per-call clauses read off
`CallInv` at the call's `pc`. -/
theorem Inv.linearizable {ops : ι → Op} {c₀ : I64} {s : Sys ι} (hi : Inv ops c₀ s) :
    Linearizable ops c₀ s := by
  refine ⟨hi.logged, fun i hd => ?_, fun i hd => ?_, hi.linearized, fun i => ?_,
    fun i s' h => hi.dirty_stays h⟩
  · have h := hi.calls i; rw [hd] at h; exact h.2
  · have h := hi.calls i
    generalize s.pc i = p at h hd
    cases p <;> simp_all [CallInv]
  · have h := hi.calls i
    generalize s.pc i = p at h ⊢
    cases p <;> simp_all [CallInv]

omit [DecidableEq ι] in
/-- An event that changes the counter is the linearization point of an operation: a
call's swap or an external store. -/
theorem Event.lin_isSome_of_pre_ne_post {e : Event ι} (h : e.pre ≠ e.post) : e.lin.isSome := by
  cases e <;> simp_all [Event.pre, Event.post, Event.lin]

omit [DecidableEq ι] in
/-- If no event after `e` changed the counter, the counter is still what `e` left. -/
theorem Logged.eq_post {c₀ c : I64} {e : Event ι} {rest : List (Event ι)} :
    ∀ {mid : List (Event ι)}, Logged c₀ (mid ++ e :: rest) c → (∀ x ∈ mid, x.pre = x.post) →
      c = e.post
  | [], h, _ => h.1.symm
  | x :: mid, h, hmid => by
    rw [← h.1, ← hmid x (List.mem_cons_self _ _)]
    exact Logged.eq_post h.2 fun y hy => hmid y (List.mem_cons_of_mem _ hy)

/-- A call waiting to swap out `prev` loaded `prev` last, and only other actors have
acted since. -/
theorem Reachable.loadedAt {ops : ι → Op} {c₀ : I64} {s : Sys ι} (hs : Reachable ops c₀ s) :
    ∀ i prev, s.pc i = .cas prev →
      ∃ mid rest, s.hist = mid ++ .load i prev :: rest ∧ ∀ e ∈ mid, e.actor ≠ some i := by
  induction hs with
  | init => intro i prev h; cases h
  | step a _ h ih =>
    intro i prev hp
    cases a with
    | store v =>
      simp only [Sys.step, Option.some.injEq] at h
      subst h
      obtain ⟨mid, rest, hh, hmid⟩ := ih i prev hp
      refine ⟨.store _ v :: mid, rest, by rw [hh]; rfl, ?_⟩
      simpa [Event.actor] using hmid
    | call j =>
      obtain ⟨c, p, e, hc, rfl⟩ := step_call_inv h
      by_cases hij : i = j
      · subst hij
        simp only [Function.update_same] at hp
        subst hp
        obtain ⟨-, rfl, -, rfl⟩ := callStep_eq_cas hc
        exact ⟨[], _, rfl, by simp⟩
      · simp only [Function.update_noteq hij] at hp
        obtain ⟨mid, rest, hh, hmid⟩ := ih i prev hp
        refine ⟨e :: mid, rest, by rw [hh]; rfl, ?_⟩
        simpa [callStep_actor hc, Ne.symm hij] using hmid

/-- **A failed `compare_exchange` is paid for by another operation.**  When call `i`
waits to swap out `prev` and the counter no longer holds it, then since `i` loaded
`prev` only other actors have acted, and one of them changed the counter at its
linearization point: every retry of the `loop` follows another call's swap or an
external store, so the calls as a whole never stop making progress. -/
theorem cas_miss_after_other_write {ops : ι → Op} {c₀ : I64} {s : Sys ι} {i : ι} {prev : I64}
    (hs : Reachable ops c₀ s) (hp : s.pc i = .cas prev) (hne : s.counter ≠ prev) :
    ∃ mid rest, s.hist = mid ++ .load i prev :: rest ∧ (∀ e ∈ mid, e.actor ≠ some i) ∧
      ∃ e ∈ mid, e.pre ≠ e.post ∧ e.lin.isSome := by
  obtain ⟨mid, rest, hh, hmid⟩ := hs.loadedAt i prev hp
  refine ⟨mid, rest, hh, hmid, ?_⟩
  by_contra hall
  push_neg at hall
  have hlog := hs.inv.logged
  rw [hh] at hlog
  exact hne (hlog.eq_post fun x hx => by
    by_contra hx'
    exact absurd (Event.lin_isSome_of_pre_ne_post hx') (by simpa using hall x hx hx'))


/-- A call loads `0` and another actor marks the counter dirty: the call's swap is due to
miss, and the store it follows changed the counter. -/
theorem cas_miss_after_dirty_store :
    ∃ mid rest, [Event.store 0 dirtyCount, .load () 0] = mid ++ .load () (0 : I64) :: rest ∧
      (∀ e ∈ mid, e.actor ≠ some ()) ∧ ∃ e ∈ mid, e.pre ≠ e.post ∧ e.lin.isSome :=
  @cas_miss_after_other_write Unit _ (fun _ => Op.increase 1) 0
    ⟨dirtyCount, Function.update (fun _ => .load) () (.cas 0), [.store 0 dirtyCount, .load () 0]⟩
    () 0 (.step (.store dirtyCount) (.step (.call ()) .init rfl) rfl) rfl (by decide)

end MagicblockLedger
