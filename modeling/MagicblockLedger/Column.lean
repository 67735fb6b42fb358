/-
MagicblockLedger/Column.lean

The typed column handle `LedgerColumn<C>` over one column family of the backend.

The backend (`Rocks`, in `rocks_db.rs`) and the column traits (`columns.rs`) are not
part of this file's source, so both are parameters: `Rocks` is what one backend state
answers to the reads `LedgerColumn` makes, each of which may fail with a `LedgerError`;
`TypedColumn` and `ProtobufColumn` are the key encoding and the value codecs of `C`,
with the `From` conversions that `?` applies to their errors.

The batched reads `multi_get` and `multi_get_bytes` are written in the source apart from
the single-key ones, each with its own decoding and error conversion.  On a backend
whose `multi_get_cf` answers key by key as `get_pinned_cf` and `get_cf` do, they agree
position by position (`multiGet_agrees`).  The writes `put`, `put_bytes` and `delete`
are stated once for any backend contents given its `put_cf` and `delete_cf`; `Store` is
the contents of a column family whose reads succeed, as a map.  Over it schema-encoded
values read back through `get_protobuf` and `get_protobuf_or_bincode`
(`get_putProtobuf`), and a value of the legacy bincode column reads back through the
fallback exactly when the schema codec rejects its bytes
(`getProtobufOrBincode_put_legacy`).
-/
import MagicblockLedger.Counter

namespace MagicblockLedger

/-- Keys and values as the backend sees them. -/
abbrev Bytes := List UInt8

/-- The reads `LedgerColumn` makes on `Rocks` for its column family, in one backend
state; `E` is `LedgerError`. -/
structure Rocks (E : Type) where
  getCf : Bytes → Except E (Option Bytes)
  getPinnedCf : Bytes → Except E (Option Bytes)
  multiGetCf : List Bytes → List (Except E (Option Bytes))

/-- What `LedgerColumn<C>` uses of `C : TypedColumn`: `C::key`, `C::index`, bincode on
`C::Type` with error type `B`, and `From<bincode::Error> for LedgerError`. -/
structure TypedColumn (Index Value B E : Type) where
  key : Index → Bytes
  index : Bytes → Index
  serialize : Value → Except B Bytes
  deserialize : Bytes → Except B Value
  fromBincode : B → E

variable {Index Value B E : Type} (C : TypedColumn Index Value B E)

/-! ### Point and batched reads -/

/-- `get_bytes`. -/
def getBytes (b : Rocks E) (key : Index) : Except E (Option Bytes) := b.getCf (C.key key)

/-- `multi_get_bytes`: `multi_get_cf` on the encoded keys, each slice copied out. -/
def multiGetBytes (b : Rocks E) (keys : List Index) : List (Except E (Option Bytes)) :=
  (b.multiGetCf (keys.map C.key)).map fun r =>
    match r with
    | .ok (some slice) => .ok (some slice)
    | .ok none => .ok none
    | .error e => .error e

/-- `get_raw`: `get_pinned_cf`, then bincode on the slice; `?` converts its error. -/
def getRaw (b : Rocks E) (key : Bytes) : Except E (Option Value) :=
  match b.getPinnedCf key with
  | .error e => .error e
  | .ok none => .ok none
  | .ok (some slice) =>
    match C.deserialize slice with
    | .ok value => .ok (some value)
    | .error e => .error (C.fromBincode e)

/-- `get`. -/
def get (b : Rocks E) (key : Index) : Except E (Option Value) := getRaw C b (C.key key)

/-- The closure `multi_get` maps over the results of `multi_get_cf`. -/
def multiGetSlot (r : Except E (Option Bytes)) : Except E (Option Value) :=
  match r with
  | .ok (some slice) =>
    match C.deserialize slice with
    | .ok value => .ok (some value)
    | .error e => .error (C.fromBincode e)
  | .ok none => .ok none
  | .error e => .error e

/-- `multi_get`. -/
def multiGet (b : Rocks E) (keys : List Index) : List (Except E (Option Value)) :=
  (b.multiGetCf (keys.map C.key)).map (multiGetSlot C)

/-- The two decoding paths agree on every backend answer. -/
theorem getRaw_eq_multiGetSlot (b : Rocks E) (key : Bytes) :
    getRaw C b key = multiGetSlot C (b.getPinnedCf key) := by
  unfold getRaw multiGetSlot
  rcases b.getPinnedCf key with e | _ | slice <;> rfl

theorem multiGet_eq_map_get {b : Rocks E} {keys : List Index}
    (h : b.multiGetCf (keys.map C.key) = (keys.map C.key).map b.getPinnedCf) :
    multiGet C b keys = keys.map (get C b) := by
  simp only [multiGet, h, List.map_map]
  congr 1; funext key
  exact (getRaw_eq_multiGetSlot C b (C.key key)).symm

theorem multiGetBytes_eq_map_getBytes {b : Rocks E} {keys : List Index}
    (h : b.multiGetCf (keys.map C.key) = (keys.map C.key).map b.getCf) :
    multiGetBytes C b keys = keys.map (getBytes C b) := by
  simp only [multiGetBytes, h, List.map_map]
  congr 1; funext key
  simp only [Function.comp, getBytes]
  rcases b.getCf (C.key key) with e | _ | slice <;> rfl

/-- **Batched reads agree with single reads, position by position.**  On a backend
whose `multi_get_cf` answers each key as `get_pinned_cf` and `get_cf` do, `multi_get`
and `multi_get_bytes` return one result per key, the one `get` and `get_bytes` give:
an error or an undecodable value at one key touches no other position. -/
theorem multiGet_agrees (b : Rocks E) (keys : List Index)
    (hp : b.multiGetCf (keys.map C.key) = (keys.map C.key).map b.getPinnedCf)
    (hc : b.multiGetCf (keys.map C.key) = (keys.map C.key).map b.getCf) :
    (multiGet C b keys).length = keys.length ∧
      (∀ i (hi : i < keys.length), (multiGet C b keys)[i]? = some (get C b keys[i])) ∧
      (multiGetBytes C b keys).length = keys.length ∧
      (∀ i (hi : i < keys.length), (multiGetBytes C b keys)[i]? = some (getBytes C b keys[i])) := by
  rw [multiGet_eq_map_get C hp, multiGetBytes_eq_map_getBytes C hc]
  exact ⟨List.length_map _ _, fun i hi => by simp [hi], List.length_map _ _,
    fun i hi => by simp [hi]⟩

/-- A raw-bytes column: keys and values stored as they are. -/
def rawColumn : TypedColumn Bytes Bytes Unit Unit := ⟨id, id, .ok, .ok, id⟩

/-- A raw-bytes column whose bincode rejects the empty value. -/
def strictColumn : TypedColumn Bytes Bytes Unit Unit :=
  ⟨id, id, .ok, fun bytes => if bytes = [] then .error () else .ok bytes, id⟩

/-- A backend read that fails at key `[1]` and finds the empty value under `[2]`. -/
def faultyRead (k : Bytes) : Except Unit (Option Bytes) :=
  if k = [1] then .error () else if k = [2] then .ok (some []) else .ok (some k)

/-- A backend whose reads all answer as `faultyRead`. -/
def faultyRocks : Rocks Unit := ⟨faultyRead, faultyRead, List.map faultyRead⟩

/-- A read error at `[1]` and an undecodable value at `[2]` fail their own positions
only. -/
theorem multiGet_agrees_faulty :
    multiGet strictColumn faultyRocks [[1], [2], [3]] = [.error (), .error (), .ok (some [3])] ∧
      ((multiGet strictColumn faultyRocks [[1], [2], [3]]).length = [[1], [2], [3]].length ∧
      (∀ i (hi : i < [[1], [2], [3]].length),
        (multiGet strictColumn faultyRocks [[1], [2], [3]])[i]? =
          some (get strictColumn faultyRocks [[1], [2], [3]][i])) ∧
      (multiGetBytes strictColumn faultyRocks [[1], [2], [3]]).length = [[1], [2], [3]].length ∧
      (∀ i (hi : i < [[1], [2], [3]].length),
        (multiGetBytes strictColumn faultyRocks [[1], [2], [3]])[i]? =
          some (getBytes strictColumn faultyRocks [[1], [2], [3]][i]))) :=
  ⟨rfl, multiGet_agrees strictColumn faultyRocks [[1], [2], [3]] rfl rfl⟩

/-! ### A column family whose reads and writes succeed -/

/-- The contents of a column family: the value under each key. -/
def Store := Bytes → Option Bytes

/-- `put_cf`. -/
def Store.putCf (st : Store) (k v : Bytes) : Store := Function.update st k (some v)

/-- The reads of a backend holding `st`: every read succeeds. -/
def Store.rocks (st : Store) : Rocks E where
  getCf k := .ok (st k)
  getPinnedCf k := .ok (st k)
  multiGetCf ks := ks.map fun k => .ok (st k)

@[simp] theorem Store.putCf_self (st : Store) (k v : Bytes) : st.putCf k v k = some v := by
  simp [Store.putCf]

/-! ### Writes

The writes are stated over any backend contents `S`, given its `put_cf` or `delete_cf`,
so that the map `Store` and the ordered `Cf` of `Backend.lean` share them. -/

section Writes

variable {S : Type}

/-- `put` on a backend whose `put_cf` is `putCf`: bincode, then `put_cf`; a
serialization error returns before the write. -/
def putVia (putCf : S → Bytes → Bytes → S) (st : S) (key : Index) (value : Value) :
    Except E S :=
  match C.serialize value with
  | .ok bytes => .ok (putCf st (C.key key) bytes)
  | .error e => .error (C.fromBincode e)

/-- `put_bytes`, on a backend whose `put_cf` is `putCf`. -/
def putBytes (putCf : S → Bytes → Bytes → S) (st : S) (key : Index) (value : Bytes) : S :=
  putCf st (C.key key) value

/-- `delete`, on a backend whose `delete_cf` is `deleteCf`. -/
def delete (deleteCf : S → Bytes → S) (st : S) (key : Index) : S := deleteCf st (C.key key)

/-- A successful `put` wrote the serialized value under the encoded key. -/
theorem putVia_ok {putCf : S → Bytes → Bytes → S} {st st' : S} {key : Index} {value : Value}
    (h : putVia C putCf st key value = .ok st') :
    ∃ bytes, C.serialize value = .ok bytes ∧ st' = putCf st (C.key key) bytes := by
  unfold putVia at h
  split at h
  · rename_i bytes hs; cases h; exact ⟨bytes, hs, rfl⟩
  · cases h

end Writes

/-- `put` on a `Store`. -/
def put (st : Store) (key : Index) (value : Value) : Except E Store :=
  putVia C Store.putCf st key value

/-! ### Schema-encoded columns with a legacy fallback -/

/-- What `LedgerColumn<C>` uses of `C : ProtobufColumn`: `C::key`, prost's `encode` and
`decode` on `C::Type` with error types `PE` and `PD`, and their conversions into
`LedgerError`. -/
structure ProtobufColumn (Index Value PE PD E : Type) where
  key : Index → Bytes
  encode : Value → Except PE Bytes
  decode : Bytes → Except PD Value
  fromEncode : PE → E
  fromDecode : PD → E

section Protobuf

variable {PE PD T : Type} (P : ProtobufColumn Index Value PE PD E)
  (L : TypedColumn Index T B E) (into : T → Value)

/-- `get_raw_protobuf_or_bincode::<T>`: the schema codec first; if it fails, bincode for
the legacy type `T` (the column's old `TypedColumn` `L`), converted by `into`. -/
def getRawProtobufOrBincode (b : Rocks E) (key : Bytes) : Except E (Option Value) :=
  match b.getPinnedCf key with
  | .error e => .error e
  | .ok none => .ok none
  | .ok (some slice) =>
    match P.decode slice with
    | .ok value => .ok (some value)
    | .error _ =>
      match L.deserialize slice with
      | .ok legacy => .ok (some (into legacy))
      | .error e => .error (L.fromBincode e)

/-- `get_protobuf_or_bincode::<T>`. -/
def getProtobufOrBincode (b : Rocks E) (key : Index) : Except E (Option Value) :=
  getRawProtobufOrBincode P L into b (P.key key)

/-- `get_protobuf`: the schema codec alone. -/
def getProtobuf (b : Rocks E) (key : Index) : Except E (Option Value) :=
  match b.getPinnedCf (P.key key) with
  | .error e => .error e
  | .ok none => .ok none
  | .ok (some slice) =>
    match P.decode slice with
    | .ok value => .ok (some value)
    | .error e => .error (P.fromDecode e)

/-- `put_protobuf`: encode, then `put_cf`; an encoding error returns before the write. -/
def putProtobuf (st : Store) (key : Index) (value : Value) : Except E Store :=
  match P.encode value with
  | .ok buf => .ok (st.putCf (P.key key) buf)
  | .error e => .error (P.fromEncode e)

theorem putProtobuf_ok {st st' : Store} {key : Index} {value : Value}
    (h : putProtobuf P st key value = .ok st') :
    ∃ buf, P.encode value = .ok buf ∧ st' = st.putCf (P.key key) buf := by
  unfold putProtobuf at h
  split at h
  · rename_i buf hs; cases h; exact ⟨buf, hs, rfl⟩
  · cases h

/-- **Schema-encoded values read back through both reads**, for a prost codec that
decodes what it encodes. -/
theorem get_putProtobuf {st st' : Store} {key : Index} {value : Value}
    (hcodec : ∀ v buf, P.encode v = .ok buf → P.decode buf = .ok v)
    (h : putProtobuf P st key value = .ok st') :
    getProtobuf P (st'.rocks (E := E)) key = .ok (some value) ∧
      getProtobufOrBincode P L into (st'.rocks (E := E)) key = .ok (some value) := by
  obtain ⟨buf, hs, rfl⟩ := putProtobuf_ok P h
  simp [getProtobuf, getProtobufOrBincode, getRawProtobufOrBincode, Store.rocks, hcodec _ _ hs]

/-- A schema codec that stores bytes as they are. -/
def rawProtobuf : ProtobufColumn Bytes Bytes Unit Unit Unit := ⟨id, .ok, .ok, id, id⟩

theorem get_putProtobuf_raw :
    getProtobuf rawProtobuf (Store.rocks (E := Unit) (Store.putCf (fun _ => none) [1] [7])) [1] =
        .ok (some [7]) ∧
      getProtobufOrBincode rawProtobuf rawColumn id
        (Store.rocks (E := Unit) (Store.putCf (fun _ => none) [1] [7])) [1] = .ok (some [7]) :=
  get_putProtobuf rawProtobuf rawColumn id (fun _ _ h => h.symm)
    (rfl : putProtobuf rawProtobuf (fun _ => none) [1] [7] =
      .ok (Store.putCf (fun _ => none) [1] [7]))

/-- **A legacy value is read back through the fallback exactly when the schema codec
rejects its bytes**: a value written by the old bincode column reads as `into` of it if
`decode` fails on its bytes, and as whatever `decode` returns otherwise. -/
theorem getProtobufOrBincode_put_legacy {st st' : Store} {key : Index} {legacy : T}
    (hkey : L.key = P.key)
    (hcodec : ∀ v bytes, L.serialize v = .ok bytes → L.deserialize bytes = .ok v)
    (h : put L st key legacy = .ok st') :
    ∃ bytes, L.serialize legacy = .ok bytes ∧
      getProtobufOrBincode P L into (st'.rocks (E := E)) key =
        .ok (some (match P.decode bytes with
          | .ok value => value
          | .error _ => into legacy)) := by
  obtain ⟨bytes, hs, rfl⟩ := putVia_ok L h
  refine ⟨bytes, hs, ?_⟩
  simp only [getProtobufOrBincode, getRawProtobufOrBincode, Store.rocks, ← hkey,
    Store.putCf_self]
  rcases P.decode bytes with _ | _ <;> simp [hcodec _ _ hs]

/-- A schema codec that stores bytes as they are and rejects the empty value. -/
def strictProtobuf : ProtobufColumn Bytes Bytes Unit Unit Unit :=
  ⟨id, .ok, fun bytes => if bytes = [] then .error () else .ok bytes, id, id⟩

/-- A legacy empty value: the schema codec rejects its bytes, and the read falls back to
bincode, which reads it back. -/
theorem getProtobufOrBincode_put_legacy_strict :
    strictProtobuf.decode [] = .error () ∧
      getProtobufOrBincode strictProtobuf rawColumn id
        (Store.rocks (E := Unit) (Store.putCf (fun _ => none) [1] [])) [1] = .ok (some []) := by
  have h : put rawColumn (fun _ => none) [1] [] = .ok (Store.putCf (fun _ => none) [1] []) := rfl
  obtain ⟨bytes, hs, hr⟩ :=
    getProtobufOrBincode_put_legacy strictProtobuf rawColumn id rfl (fun _ _ h => h.symm) h
  obtain rfl : bytes = [] := (Except.ok.inj hs).symm
  exact ⟨rfl, hr⟩

/-- `iter_protobuf` over the backend's iteration: each item's key decoded by `C::index`,
its value by the schema codec; an error of the backend or of `decode` stays in its item. -/
def iterProtobuf (index : Bytes → Index) (iteration : List (Except E (Bytes × Bytes))) :
    List (Except E (Index × Value)) :=
  iteration.map fun pair =>
    match pair with
    | .error e => .error e
    | .ok (key, value) =>
      match P.decode value with
      | .ok decoded => .ok (index key, decoded)
      | .error e => .error (P.fromDecode e)

end Protobuf

/-! ### Iteration and the cached count -/

/-- `iter` over the backend's iteration `iterator_cf` (in the requested mode): each key
decoded by `C::index`.  Its `unwrap` panics at a failed item; consumed in full, as by a
count, that is `none`. -/
def iter (iteration : List (Except E (Bytes × Bytes))) : Option (List (Index × Bytes)) :=
  iteration.mapM fun pair =>
    match pair with
    | .ok (key, value) => some (C.index key, value)
    | .error _ => none

/-- `count_column_using_cache` run alone over the iteration from `IteratorMode::Start`:
the answer and the counter after it.  A non-dirty counter is the answer; otherwise the
scan is counted, clamped to `i64::MAX`, stored and returned; `none` if the scan panics. -/
def countColumnUsingCache (entryCounter : I64) (iteration : List (Except E (Bytes × Bytes))) :
    Option (I64 × I64) :=
  let cached := entryCounter
  if cached ≠ dirtyCount then some (cached, entryCounter)
  else (iter C iteration).map fun items =>
    let updated := countToI64 items.length
    (updated, updated)

end MagicblockLedger
