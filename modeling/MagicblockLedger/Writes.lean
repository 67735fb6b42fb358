/-
MagicblockLedger/Writes.lean

Writes through one `LedgerColumn<C>`: `put`, `put_bytes` and `delete` on the column
family's ordered contents `Cf`, and sequences of them run as a caller's `?` runs them,
the first error ending the sequence.

`Cf.write` is the method on the backend's contents: the `putVia`, `putBytes` and
`delete` of `Column.lean` with `Cf`'s `put_cf` and `delete_cf`.  A read after any
successful sequence sees the last write to its encoded key (`get_writeAll`): typed keys
whose encodings coincide share one entry, whichever of them was written.
-/
import MagicblockLedger.Backend

namespace MagicblockLedger

/-- A write through `LedgerColumn<C>`. -/
inductive Write (Index Value : Type)
  | put (key : Index) (value : Value)
  | putBytes (key : Index) (value : Bytes)
  | delete (key : Index)

variable {Index Value B E : Type} (C : TypedColumn Index Value B E)

/-- The key a write names. -/
def Write.key : Write Index Value → Index
  | .put key _ | .putBytes key _ | .delete key => key

/-- One write on the column family, as the method makes it. -/
def Cf.write (cf : Cf Bytes Bytes) : Write Index Value → Except E (Cf Bytes Bytes)
  | .put key value => putVia C Cf.putCf cf key value
  | .putBytes key value => .ok (putBytes C Cf.putCf cf key value)
  | .delete key => .ok (delete C Cf.deleteCf cf key)

/-- Writes one after another; the first error is returned. -/
def Cf.writeAll (cf : Cf Bytes Bytes) : List (Write Index Value) → Except E (Cf Bytes Bytes)
  | [] => .ok cf
  | w :: ws => (cf.write C w).bind fun cf' => cf'.writeAll ws

/-! ### Reading back -/

/-- What `get` reads after write `w` to its key. -/
def Write.readBack : Write Index Value → Except E (Option Value)
  | .put _ value => .ok (some value)
  | .putBytes _ bytes => multiGetSlot C (.ok (some bytes))
  | .delete _ => .ok none

/-- The last write of `ws` to encoded key `k`. -/
def lastWriteTo (k : Bytes) : List (Write Index Value) → Option (Write Index Value)
  | [] => none
  | w :: ws => (lastWriteTo k ws).or (if C.key w.key = k then some w else none)

theorem get_toStore_rocks (cf : Cf Bytes Bytes) (i : Index) :
    get C (cf.toStore.rocks (E := E)) i = multiGetSlot C (.ok (cf.get (C.key i))) :=
  getRaw_eq_multiGetSlot C _ _

variable {C}

/-- One write: its own encoded key reads it back, every other key is untouched. -/
theorem get_write (hcodec : ∀ v bytes, C.serialize v = .ok bytes → C.deserialize bytes = .ok v)
    {cf cf' : Cf Bytes Bytes} {w : Write Index Value} (h : cf.write C w = .ok cf') (i : Index) :
    get C (cf'.toStore.rocks (E := E)) i =
      if C.key w.key = C.key i then w.readBack C else get C (cf.toStore.rocks (E := E)) i := by
  have hput : ∀ key bytes, cf' = cf.putCf (C.key key) bytes →
      get C (cf'.toStore.rocks (E := E)) i = if C.key key = C.key i
        then multiGetSlot C (.ok (some bytes)) else get C (cf.toStore.rocks (E := E)) i := by
    rintro key bytes rfl
    simp only [get_toStore_rocks]
    by_cases hk : C.key key = C.key i
    · rw [if_pos hk, ← hk, Cf.get_putCf_self]
    · rw [if_neg hk, Cf.get_putCf_ne _ _ (Ne.symm hk)]
  cases w with
  | put key value =>
    obtain ⟨bytes, hs, rfl⟩ := putVia_ok C h
    rw [hput key bytes rfl]
    simp [Write.key, Write.readBack, multiGetSlot, hcodec _ _ hs]
  | putBytes key value => cases h; exact hput key value rfl
  | delete key =>
    cases h
    simp only [get_toStore_rocks, Write.key, Write.readBack, delete]
    by_cases hk : C.key key = C.key i
    · rw [if_pos hk, ← hk, Cf.get_deleteCf_self]; rfl
    · rw [if_neg hk, Cf.get_deleteCf_ne _ (Ne.symm hk)]

/-- **A read sees the last write to its encoded key.**  After any sequence of `put`,
`put_bytes` and `delete` calls that succeeds, `get(i)` returns what the last write to
`C::key(i)` left (the value put, the decoded bytes, or `None`), and what it returned
before when no write names that key; for a bincode codec that reads back what it
writes. -/
theorem get_writeAll (hcodec : ∀ v bytes, C.serialize v = .ok bytes → C.deserialize bytes = .ok v)
    {cf cf' : Cf Bytes Bytes} {ws : List (Write Index Value)} (h : cf.writeAll C ws = .ok cf')
    (i : Index) :
    get C (cf'.toStore.rocks (E := E)) i =
      ((lastWriteTo C (C.key i) ws).map (Write.readBack C)).getD
        (get C (cf.toStore.rocks (E := E)) i) := by
  induction ws generalizing cf with
  | nil => cases h; rfl
  | cons w ws ih =>
    obtain ⟨cf₁, h₁, h₂⟩ : ∃ cf₁, cf.write C w = .ok cf₁ ∧ cf₁.writeAll C ws = .ok cf' := by
      simp only [Cf.writeAll] at h
      cases hw : cf.write C w with
      | error e => rw [hw] at h; cases h
      | ok cf₁ => rw [hw] at h; exact ⟨cf₁, rfl, h⟩
    rw [ih h₂, get_write hcodec h₁, lastWriteTo]
    cases lastWriteTo C (C.key i) ws with
    | some x => rfl
    | none => by_cases hk : C.key w.key = C.key i <;> simp [hk]

/-- Two rows under the keys `[1]` and `[2]`. -/
def twoRows : Cf Bytes Bytes := ⟨[([1], [7]), ([2], [8])], by unfold KeySorted; decide⟩

theorem get_writeAll_twoRows :
    get rawColumn (((twoRows.putCf [1] [9]).deleteCf [2]).toStore.rocks (E := Unit)) [2] =
      ((lastWriteTo rawColumn (rawColumn.key [2]) [Write.put [1] [9], .delete [2]]).map
        (Write.readBack rawColumn)).getD (get rawColumn (twoRows.toStore.rocks (E := Unit)) [2]) :=
  get_writeAll (fun _ _ h => h.symm)
    (rfl : twoRows.writeAll rawColumn [Write.put [1] [9], .delete [2]] =
      .ok ((twoRows.putCf [1] [9]).deleteCf [2])) [2]

end MagicblockLedger
