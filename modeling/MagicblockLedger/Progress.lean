/-
MagicblockLedger/Progress.lean

How long a call of the counter's `loop` runs.  A call goes round again only after a
failed `compare_exchange`, and that fails only when the counter no longer holds the
value the call loaded; the counter changes only by a write.  A failed swap therefore
costs the call two steps and is paid for by a write of another actor that changed the
counter.

Main result (`call_returns_within`): in every reachable state a call that has not
returned can take its next step, and each call has taken at most `2 m + 2` atomic steps,
fewer while it runs, where `m` counts the events of other actors so far that changed the
counter.  So a call is never blocked, and it has returned by its `2 m + 2`-th step: one
that is scheduled returns unless the others keep changing the counter.
-/
import MagicblockLedger.CasLoop

namespace MagicblockLedger

variable {ι : Type} [DecidableEq ι]

/-- The atomic steps of call `i` in a history. -/
def ownSteps (i : ι) (hist : List (Event ι)) : Nat := hist.countP fun e => e.actor = some i

/-- Whether an event is a failed `compare_exchange` of call `i`. -/
def Event.isMissOf (i : ι) : Event ι → Bool
  | .miss j _ => j = i
  | _ => false

/-- The failed `compare_exchange`s of call `i`. -/
def missCount (i : ι) (hist : List (Event ι)) : Nat := hist.countP (Event.isMissOf i)

/-- The events of other actors that changed the counter. -/
def interference (i : ι) (hist : List (Event ι)) : Nat :=
  hist.countP fun e => e.actor ≠ some i ∧ e.pre ≠ e.post

/-- The steps left in the current round of the loop, at most. -/
def Pc.budget : Pc → Nat
  | .load => 2
  | .cas _ => 1
  | .done => 0

/-- What a call at `pc` owes on counter value `c`: a failed swap when it waits to swap
out a value the counter no longer holds. -/
def Pc.due (c : I64) : Pc → Nat
  | .cas prev => if c = prev then 0 else 1
  | _ => 0

theorem Pc.one_le_budget {p : Pc} (h : p ≠ .done) : 1 ≤ p.budget := by
  cases p <;> simp_all [Pc.budget]

theorem Pc.due_le_one (c : I64) (p : Pc) : p.due c ≤ 1 := by
  cases p with
  | cas prev => simp only [Pc.due]; split_ifs <;> omega
  | _ => simp [Pc.due]

@[simp] theorem ownSteps_cons (i : ι) (e : Event ι) (hist : List (Event ι)) :
    ownSteps i (e :: hist) = ownSteps i hist + if e.actor = some i then 1 else 0 := by
  simp [ownSteps, List.countP_cons]

@[simp] theorem missCount_cons (i : ι) (e : Event ι) (hist : List (Event ι)) :
    missCount i (e :: hist) = missCount i hist + if e.isMissOf i then 1 else 0 := by
  simp [missCount, List.countP_cons]

@[simp] theorem interference_cons (i : ι) (e : Event ι) (hist : List (Event ι)) :
    interference i (e :: hist) =
      interference i hist + if e.actor ≠ some i ∧ e.pre ≠ e.post then 1 else 0 := by
  simp [interference, List.countP_cons]

theorem Event.isMissOf_of_actor_ne {e : Event ι} {i : ι} (h : e.actor ≠ some i) :
    e.isMissOf i = false := by
  cases e <;> simp_all [Event.actor, Event.isMissOf]

/-! ### The invariant -/

/-- Call `i` has taken at most two steps per failed swap and two more, and its failed
swaps, with the one now due, are at most the other actors' changes of the counter. -/
structure RetryInv (s : Sys ι) (i : ι) : Prop where
  steps : ownSteps i s.hist + (s.pc i).budget ≤ 2 * missCount i s.hist + 2
  misses : missCount i s.hist + (s.pc i).due s.counter ≤ interference i s.hist

theorem RetryInv.init (c₀ : I64) (i : ι) : RetryInv (⟨c₀, fun _ => .load, []⟩ : Sys ι) i :=
  ⟨by simp [ownSteps, missCount, Pc.budget], by simp [Pc.due, missCount, interference]⟩

/-- A step of another actor leaves call `i` where it is; if it changes the counter, it
counts as interference. -/
theorem RetryInv.frame {s s' : Sys ι} {i : ι} (hi : RetryInv s i) (hpc : s'.pc i = s.pc i)
    (hown : ownSteps i s'.hist = ownSteps i s.hist) (hmiss : missCount i s'.hist = missCount i s.hist)
    (hint : (s'.counter = s.counter ∧ interference i s'.hist = interference i s.hist) ∨
      interference i s'.hist = interference i s.hist + 1) : RetryInv s' i := by
  refine ⟨by rw [hpc, hown, hmiss]; exact hi.steps, ?_⟩
  have hm := hi.misses
  rcases hint with ⟨hc, hI⟩ | hI
  · rwa [hmiss, hpc, hc, hI]
  · have := (s'.pc i).due_le_one s'.counter
    rw [hmiss, hI]; omega

theorem RetryInv.store {s : Sys ι} {i : ι} (hi : RetryInv s i) (v : I64) :
    RetryInv ⟨v, s.pc, .store s.counter v :: s.hist⟩ i := by
  refine hi.frame rfl (by simp [Event.actor]) (by simp [Event.isMissOf]) ?_
  by_cases hv : v = s.counter
  · exact .inl ⟨hv, by simp [Event.actor, Event.pre, Event.post, hv]⟩
  · exact .inr (by simp [Event.actor, Event.pre, Event.post, Ne.symm hv])

theorem RetryInv.other {ops : ι → Op} {s : Sys ι} {i j : ι} {c : I64} {p : Pc} {e : Event ι}
    (hi : RetryInv s i) (hj : j ≠ i) (hc : callStep (ops j) j s.counter (s.pc j) = some (c, p, e)) :
    RetryInv ⟨c, Function.update s.pc j p, e :: s.hist⟩ i := by
  have ha : e.actor ≠ some i := by simp [callStep_actor hc, hj]
  obtain ⟨hpre, hpost⟩ := callStep_pre_post hc
  refine hi.frame (Function.update_noteq (Ne.symm hj) _ _) (by simp [ha])
    (by simp [Event.isMissOf_of_actor_ne ha]) ?_
  by_cases hv : c = s.counter
  · exact .inl ⟨hv, by simp [ha, hpre, hpost, hv]⟩
  · exact .inr (by simp [ha, hpre, hpost, Ne.symm hv])

/-- Call `i`'s own step: a load or a swap spends a step of the round; a miss spends the
round and the failure that was due. -/
theorem RetryInv.own {ops : ι → Op} {s : Sys ι} {i : ι} {c : I64} {p : Pc} {e : Event ι}
    (hi : RetryInv s i) (hc : callStep (ops i) i s.counter (s.pc i) = some (c, p, e)) :
    RetryInv ⟨c, Function.update s.pc i p, e :: s.hist⟩ i := by
  obtain ⟨hs, hm⟩ := hi
  rcases callStep_cases hc with ⟨hp, rfl, rfl, rfl⟩ | ⟨hp, rfl, rfl, rfl⟩ |
    ⟨prev, hp, hne, rfl, rfl, rfl⟩
  · -- a load: a step of the round, after which nothing is due
    rw [hp] at hs hm
    simp only [Pc.budget, Pc.due] at hs hm
    by_cases hd : s.counter = dirtyCount <;>
      constructor <;> simp [hd, Event.actor, Event.isMissOf, Pc.budget, Pc.due] <;> omega
  · -- a swap: the last step of the round
    rw [hp] at hs hm
    simp [Pc.budget, Pc.due] at hs hm
    constructor <;> simp [Event.actor, Event.isMissOf, Pc.budget, Pc.due] <;> omega
  · -- a miss: the round is spent, and so is the failure that was due
    rw [hp] at hs hm
    simp [Pc.budget, Pc.due, hne] at hs hm
    constructor <;> simp [Event.actor, Event.isMissOf, Pc.budget, Pc.due] <;> omega

theorem RetryInv.step {ops : ι → Op} {s s' : Sys ι} {a : Act ι} {i : ι} (hi : RetryInv s i)
    (h : s.step ops a = some s') : RetryInv s' i := by
  cases a with
  | store v =>
    simp only [Sys.step, Option.some.injEq] at h
    subst h
    exact hi.store v
  | call j =>
    obtain ⟨c, p, e, hc, rfl⟩ := step_call_inv h
    by_cases hj : j = i
    · subst hj; exact hi.own hc
    · exact hi.other hj hc

theorem Reachable.retryInv {ops : ι → Op} {c₀ : I64} {s : Sys ι} (hs : Reachable ops c₀ s)
    (i : ι) : RetryInv s i := by
  induction hs with
  | init => exact RetryInv.init c₀ i
  | step _ _ h ih => exact ih.step h

/-- A call that has not returned can take its next step. -/
theorem Sys.step_call_of_ne_done {ops : ι → Op} {s : Sys ι} {i : ι} (h : s.pc i ≠ .done) :
    ∃ s', s.step ops (.call i) = some s' := by
  have hc : ∃ r, callStep (ops i) i s.counter (s.pc i) = some r := by
    cases hp : s.pc i with
    | load => exact ⟨_, rfl⟩
    | cas prev => simp only [callStep]; split_ifs <;> exact ⟨_, rfl⟩
    | done => exact absurd hp h
  obtain ⟨r, hc⟩ := hc
  rw [Sys.step, hc]
  exact ⟨_, rfl⟩

/-- **A call returns within `2 m + 2` of its own steps.**  Under any interleaving of the
calls with external stores, in every reachable state each call has taken at most
`2 m + 2` atomic steps, `m` the number of events of other actors so far that changed
the counter; one that has not returned can take its next step and has taken fewer. -/
theorem call_returns_within {ops : ι → Op} {c₀ : I64} {s : Sys ι} (hs : Reachable ops c₀ s)
    (i : ι) :
    ownSteps i s.hist ≤ 2 * interference i s.hist + 2 ∧
      (s.pc i ≠ .done → (∃ s', s.step ops (.call i) = some s') ∧
        ownSteps i s.hist < 2 * interference i s.hist + 2) := by
  obtain ⟨hsteps, hmiss⟩ := hs.retryInv i
  refine ⟨by omega, fun hd => ⟨Sys.step_call_of_ne_done hd, ?_⟩⟩
  have := Pc.one_le_budget hd
  omega

/-- A call loads `0` and another actor marks the counter dirty: the call, about to
swap, has taken one step of the four it may, and can take its next. -/
theorem call_returns_within_after_store :
    ∃ s : Sys Unit, Reachable (fun _ => Op.increase 1) 0 s ∧
      s.hist = [.store 0 dirtyCount, .load () 0] ∧ s.pc () = .cas 0 ∧
      (ownSteps () s.hist ≤ 2 * interference () s.hist + 2 ∧
        (s.pc () ≠ .done → (∃ s', s.step (fun _ => Op.increase 1) (.call ()) = some s') ∧
          ownSteps () s.hist < 2 * interference () s.hist + 2)) :=
  have hs : Reachable (fun _ : Unit => Op.increase 1) 0 _ :=
    .step (.store dirtyCount) (.step (.call ()) .init rfl) rfl
  ⟨_, hs, rfl, rfl, call_returns_within hs ()⟩

end MagicblockLedger
