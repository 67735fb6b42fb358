/-
MagicblockLedger/Backend.lean

What the backend holds for one column family, and what `LedgerColumn` reads of it by
iteration.

RocksDB keeps a column family's entries in key order, one value per key; its default
comparator orders keys bytewise.  `Cf` is that list of entries with the order as a
field, so that unordered or duplicated contents cannot be built.  `put_cf` inserts in
place or replaces, `delete_cf` removes.  The point reads see `Cf` as the map `Store` of
`Column.lean` (`Cf.toStore`); what the map cannot say is the order and the number of
entries, which the scans read.

Main result (`iterProtobuf_agrees_getProtobuf`): over a column family holding only
encoded keys, `iter_protobuf` yields one item per entry, in key order, and agrees with
`get_protobuf` item by item, errors included.
-/
import Mathlib.Data.List.Lex
import Mathlib.Data.List.Forall2
import MagicblockLedger.Column

namespace MagicblockLedger

/-- RocksDB's default comparator: bytes compare unsigned, keys lexicographically
(Mathlib's order on lists). -/
instance bytewiseOrder : LinearOrder UInt8 :=
  LinearOrder.lift' UInt8.toNat fun _ _ h => UInt8.eq_of_val_eq (Fin.ext h)

variable {K V : Type} [LinearOrder K]

/-! ### Ordered entries -/

/-- `put_cf` on the ordered entries: a new key goes in its place, the value of an
existing key is replaced. -/
def insertSorted (k : K) (v : V) : List (K × V) → List (K × V)
  | [] => [(k, v)]
  | (k', v') :: rest =>
    if k < k' then (k, v) :: (k', v') :: rest
    else if k = k' then (k, v) :: rest
    else (k', v') :: insertSorted k v rest

/-- Keys in strictly ascending order. -/
def KeySorted (l : List (K × V)) : Prop := l.Pairwise fun a b => a.1 < b.1

theorem lookup_cons_of_ne {k k' : K} (v : V) (l : List (K × V)) (h : k ≠ k') :
    ((k', v) :: l).lookup k = l.lookup k := by
  rw [List.lookup_cons, beq_eq_false_iff_ne.mpr h]

theorem lookup_insertSorted_self (k : K) (v : V) (l : List (K × V)) :
    (insertSorted k v l).lookup k = some v := by
  induction l with
  | nil => simp [insertSorted]
  | cons e rest ih =>
    obtain ⟨k', v'⟩ := e
    simp only [insertSorted]
    split_ifs with h₁ h₂
    · simp
    · simp
    · rw [lookup_cons_of_ne _ _ h₂, ih]

theorem lookup_insertSorted_ne {k k' : K} (v : V) (l : List (K × V)) (h : k' ≠ k) :
    (insertSorted k v l).lookup k' = l.lookup k' := by
  induction l with
  | nil => exact lookup_cons_of_ne _ _ h
  | cons e rest ih =>
    obtain ⟨k'', v''⟩ := e
    simp only [insertSorted]
    split_ifs with h₁ h₂
    · exact lookup_cons_of_ne _ _ h
    · subst h₂; rw [lookup_cons_of_ne _ _ h, lookup_cons_of_ne _ _ h]
    · by_cases hk : k' = k''
      · subst hk; simp
      · rw [lookup_cons_of_ne _ _ hk, lookup_cons_of_ne _ _ hk, ih]

theorem mem_insertSorted {k : K} {v : V} {a : K × V} {l : List (K × V)}
    (h : a ∈ insertSorted k v l) : a = (k, v) ∨ a ∈ l := by
  induction l with
  | nil => simpa [insertSorted] using h
  | cons e rest ih =>
    obtain ⟨k', v'⟩ := e
    simp only [insertSorted] at h
    split_ifs at h
    · simpa using h
    · rcases List.mem_cons.mp h with h | h
      · exact .inl h
      · exact .inr (List.mem_cons_of_mem _ h)
    · rcases List.mem_cons.mp h with h | h
      · exact .inr (h ▸ List.mem_cons_self _ _)
      · exact (ih h).imp_right (List.mem_cons_of_mem _)

theorem KeySorted.insertSorted {l : List (K × V)} (h : KeySorted l) (k : K) (v : V) :
    KeySorted (insertSorted k v l) := by
  induction l with
  | nil => exact List.pairwise_singleton _ _
  | cons e rest ih =>
    obtain ⟨k', v'⟩ := e
    rw [KeySorted, List.pairwise_cons] at h
    simp only [MagicblockLedger.insertSorted]
    split_ifs with h₁ h₂
    · refine List.Pairwise.cons (fun a ha => ?_) (List.pairwise_cons.mpr h)
      rcases List.mem_cons.mp ha with rfl | ha
      · exact h₁
      · exact h₁.trans (h.1 a ha)
    · subst h₂; exact List.Pairwise.cons h.1 h.2
    · refine List.Pairwise.cons (fun a ha => ?_) (ih h.2)
      rcases mem_insertSorted ha with rfl | ha
      · exact lt_of_le_of_ne (not_lt.mp h₁) (Ne.symm h₂)
      · exact h.1 a ha

theorem lookup_filter_self (k : K) (l : List (K × V)) :
    (l.filter fun e => e.1 ≠ k).lookup k = none := by
  induction l with
  | nil => rfl
  | cons e rest ih =>
    obtain ⟨k', v'⟩ := e
    by_cases he : k' = k
    · subst he
      simpa only [List.filter_cons, ne_eq, not_true_eq_false, decide_False, Bool.false_eq_true,
        if_false] using ih
    · simp only [List.filter_cons, ne_eq, he, not_false_eq_true, decide_True, if_true]
      rw [lookup_cons_of_ne _ _ (Ne.symm he), ih]

theorem lookup_filter_ne {k k' : K} (l : List (K × V)) (h : k' ≠ k) :
    (l.filter fun e => e.1 ≠ k).lookup k' = l.lookup k' := by
  induction l with
  | nil => rfl
  | cons e rest ih =>
    obtain ⟨k'', v''⟩ := e
    by_cases he : k'' = k
    · subst he
      simp only [List.filter_cons, ne_eq, not_true_eq_false, decide_False, Bool.false_eq_true,
        if_false]
      rw [lookup_cons_of_ne _ _ h, ih]
    · simp only [List.filter_cons, ne_eq, he, not_false_eq_true, decide_True, if_true]
      by_cases hk : k' = k''
      · subst hk; simp
      · rw [lookup_cons_of_ne _ _ hk, lookup_cons_of_ne _ _ hk, ih]

/-- In ordered entries, a key's lookup finds exactly its entry. -/
theorem KeySorted.lookup_eq_some_iff {l : List (K × V)} (h : KeySorted l) {k : K} {v : V} :
    l.lookup k = some v ↔ (k, v) ∈ l := by
  induction l with
  | nil => simp
  | cons e rest ih =>
    obtain ⟨k', v'⟩ := e
    rw [KeySorted, List.pairwise_cons] at h
    by_cases hk : k = k'
    · subst hk
      simp only [List.lookup_cons_self, Option.some.injEq, List.mem_cons, Prod.mk.injEq, true_and]
      exact ⟨fun h' => .inl h'.symm, fun h' => h'.elim Eq.symm fun hm => absurd (h.1 _ hm) (lt_irrefl _)⟩
    · rw [lookup_cons_of_ne _ _ hk, ih h.2, List.mem_cons]
      simp [hk]

/-! ### The column family -/

/-- A column family's contents in the backend: its entries, keys strictly ascending. -/
structure Cf (K V : Type) [LinearOrder K] where
  entries : List (K × V)
  sorted : KeySorted entries

/-- The value under a key. -/
def Cf.get (cf : Cf K V) (k : K) : Option V := cf.entries.lookup k

/-- `put_cf`. -/
def Cf.putCf (cf : Cf K V) (k : K) (v : V) : Cf K V :=
  ⟨insertSorted k v cf.entries, cf.sorted.insertSorted k v⟩

/-- `delete_cf`. -/
def Cf.deleteCf (cf : Cf K V) (k : K) : Cf K V :=
  ⟨cf.entries.filter fun e => e.1 ≠ k, cf.sorted.sublist (List.filter_sublist _)⟩

/-- What `iterator_cf` yields from `IteratorMode::Start` on a backend whose reads
succeed: every entry, in key order. -/
def Cf.iteration (cf : Cf K V) : List (Except E (K × V)) := cf.entries.map .ok

@[simp] theorem Cf.get_putCf_self (cf : Cf K V) (k : K) (v : V) : (cf.putCf k v).get k = some v :=
  lookup_insertSorted_self k v _

theorem Cf.get_putCf_ne (cf : Cf K V) {k k' : K} (v : V) (h : k' ≠ k) :
    (cf.putCf k v).get k' = cf.get k' :=
  lookup_insertSorted_ne v _ h

@[simp] theorem Cf.get_deleteCf_self (cf : Cf K V) (k : K) : (cf.deleteCf k).get k = none :=
  lookup_filter_self k _

theorem Cf.get_deleteCf_ne (cf : Cf K V) {k k' : K} (h : k' ≠ k) :
    (cf.deleteCf k).get k' = cf.get k' :=
  lookup_filter_ne _ h

theorem Cf.mem_entries_iff (cf : Cf K V) {k : K} {v : V} : (k, v) ∈ cf.entries ↔ cf.get k = some v :=
  cf.sorted.lookup_eq_some_iff.symm

/-- The contents as the map `Store` of `Column.lean`. -/
def Cf.toStore (cf : Cf Bytes Bytes) : Store := cf.get

section ScanProtobuf

variable {Index Value PE PD E : Type} (P : ProtobufColumn Index Value PE PD E)

/-- **The typed iteration agrees with `get_protobuf`, item by item.**  Over a column
family holding only encoded keys, `iter_protobuf` yields one item per entry, in key order;
each is the entry's index with the value `get_protobuf` reads there, or the error
`get_protobuf` fails with, so a value that does not decode fails its own item and no
other. -/
theorem iterProtobuf_agrees_getProtobuf (index : Bytes → Index) (cf : Cf Bytes Bytes)
    (henc : ∀ k v, (k, v) ∈ cf.entries → P.key (index k) = k) :
    List.Forall₂ (fun item (e : Bytes × Bytes) =>
        item.map (fun x => (x.1, some x.2)) =
          (getProtobuf P (cf.toStore.rocks (E := E)) (index e.1)).map fun r => (index e.1, r))
      (iterProtobuf P index cf.iteration) cf.entries := by
  rw [iterProtobuf, Cf.iteration, List.map_map, List.forall₂_map_left_iff, List.forall₂_same]
  rintro ⟨k, v⟩ hm
  simp only [Function.comp, getProtobuf, Store.rocks, Cf.toStore, henc k v hm,
    cf.mem_entries_iff.mp hm]
  rcases P.decode v with e | x <;> rfl

end ScanProtobuf

/-- An entry `[1]` and an empty value under `[2]`, which `strictProtobuf` rejects. -/
def rowsWithEmpty : Cf Bytes Bytes := ⟨[([1], [7]), ([2], [])], by unfold KeySorted; decide⟩

/-- The undecodable entry fails its own item, as `get_protobuf` fails at its key. -/
theorem iterProtobuf_agrees_getProtobuf_withEmpty :
    iterProtobuf strictProtobuf id (rowsWithEmpty.iteration (E := Unit)) =
        [.ok ([1], [7]), .error ()] ∧
      List.Forall₂ (fun item (e : Bytes × Bytes) =>
          item.map (fun x => (x.1, some x.2)) =
            (getProtobuf strictProtobuf (rowsWithEmpty.toStore.rocks (E := Unit)) (id e.1)).map
              fun r => (id e.1, r))
        (iterProtobuf strictProtobuf id rowsWithEmpty.iteration) rowsWithEmpty.entries :=
  ⟨rfl, iterProtobuf_agrees_getProtobuf strictProtobuf id rowsWithEmpty fun _ _ _ => rfl⟩

end MagicblockLedger
