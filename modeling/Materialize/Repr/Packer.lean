import Mathlib
import Materialize.Lib.Buffer
import Materialize.Repr.Row

/-!
# Building a row in place

The model of the `RowPacker` methods that write a list or a map whose contents a closure pushes
(`repr/src/row.rs`). `push_list_with` cannot know the length of the list before the closure has
run: it writes a `ListTiny` tag and a one-byte length, lets the closure append the list's datums,
and then patches the tag and the length in place. A list of 256 bytes or more needs a wider length,
so `long_list` moves the datums right with a `copy_within` to make room for it. `push_dict_with`
always writes an eight-byte length and patches it after the closure.

The closure is any function of the buffer; the lemmas ask that it only appends, as every packer
method the source allows it to call does.

In the order the module lands them:
* the widening writes what `push_datum` would have written, had the length been known
  (`longListInner_widen`, `longList_widen`), through the buffer lemmas of `Lib.Buffer`;
* so `push_list_with` and `push_dict_with` append exactly the bytes of a list or a map datum of
  what the closure appended (`pushListWith_eq`, `pushDictWith_eq`);
* `push_list` and `push_dict` append one datum whose contents are the datums they were given
  (`pushList_eq`, `pushDict_eq`), and that datum reads back with those contents
  (`pushList_readDatum`, `pushDict_readDatum`).

A panic (an index past the end, the `unreachable!` of `long_list`) is `none`, as in `Repr.Row`.
-/

namespace Materialize.Row

open Bytes

/-! ## The packer -/

/-- `RowPacker::push`: a datum appended to the row's bytes. -/
def push (data : List UInt8) (d : Datum) : Option (List UInt8) :=
  (pushDatum d).map (data ++ ·)

/-- `RowPacker::extend`: the datums pushed one after another. -/
def extend (data : List UInt8) (ds : List Datum) : Option (List UInt8) :=
  ds.foldlM push data

/-- `long_list_inner`, the closure of `long_list`: make room for a length of `lenLen` bytes in
place of the one-byte length at `start + 1`, by moving the `len` bytes of the list right, then
write the length there. -/
def longListInner (data : List UInt8) (start len lenLen : Nat) : Option (List UInt8) := do
  -- `ZEROS[0..len_len - 1]`; `len_len` is 2, 4 or 8 at every call
  let data := data ++ List.replicate (lenLen - 1) 0
  let data ← Buffer.copyWithin? data (start + 1 + 1) (start + 1 + 1 + len) (start + 1 + lenLen)
  Buffer.copyFromSlice? data (start + 1) ((leBytes len 8).take lenLen)

/-- `long_list`: the tag and the length of a list of `len` bytes that a one-byte length does not
hold. -/
def longList (data : List UInt8) (start len : Nat) : Option (List UInt8) :=
  if len < TINY then none
  else if len < SHORT then
    (Buffer.set? data start Tag.listShort.toU8).bind (longListInner · start len 2)
  else if len < LONG then
    (Buffer.set? data start Tag.listLong.toU8).bind (longListInner · start len 4)
  else
    (Buffer.set? data start Tag.listHuge.toU8).bind (longListInner · start len 8)

/-- `RowPacker::push_list_with`: a `ListTiny` tag and a dummy length, the closure `f`, then the
tag and the length fixed up for what `f` appended. The closure returns the buffer it leaves and
its own result, or `none` where it panics. -/
def pushListWith {R : Type} (f : List UInt8 → Option (List UInt8 × R)) (data : List UInt8) :
    Option (List UInt8 × R) := do
  let start := data.length
  let (data, out) ← f (data ++ [Tag.listTiny.toU8, 0])
  -- the `- 1 - 1` is for the tag and the length
  let len := data.length - start - 1 - 1
  let data ← if len < TINY then Buffer.set? data (start + 1) (UInt8.ofNat len)
    else longList data start len
  pure (data, out)

/-- `RowPacker::push_dict_with`: a `Dict` tag and a dummy eight-byte length, the closure `f`,
then the length fixed up. -/
def pushDictWith {R : Type} (f : List UInt8 → Option (List UInt8 × R)) (data : List UInt8) :
    Option (List UInt8 × R) := do
  let data := data ++ [Tag.dict.toU8]
  let start := data.length
  let (data, res) ← f (data ++ List.replicate 8 0)
  let len := data.length - start - 8
  let data ← Buffer.copyFromSlice? data start (leBytes len 8)
  pure (data, res)

/-- `RowPacker::push_list`: a list of the datums, pushed by the closure. -/
def pushList (data : List UInt8) (ds : List Datum) : Option (List UInt8) :=
  (pushListWith (fun packer => (extend packer ds).map (·, ())) data).map Prod.fst

/-- The closure of `RowPacker::push_dict`: each key as a string, then its value. -/
def pushEntries (data : List UInt8) (entries : List (List UInt8 × Datum)) : Option (List UInt8) :=
  entries.foldlM (fun packer kv => (push packer (.string kv.1)).bind (push · kv.2)) data

/-- `RowPacker::push_dict`: a map of the entries, a key's string given as its UTF-8 bytes. -/
def pushDict (data : List UInt8) (entries : List (List UInt8 × Datum)) : Option (List UInt8) :=
  (pushDictWith (fun packer => (pushEntries packer entries).map (·, ())) data).map Prod.fst

/-! ## Pushing datums -/

/-- `extend` appends what `Row::pack` writes for the datums. -/
theorem extend_eq (data : List UInt8) (ds : List Datum) :
    extend data ds = (pack ds).map (data ++ ·) := by
  induction ds generalizing data with
  | nil => simp [extend, pack]
  | cons d ds ih =>
    rw [extend, List.foldlM_cons, push, pack]
    cases pushDatum d with
    | none => rfl
    | some bytes =>
      simp only [Option.map_some, Option.bind_eq_bind, Option.bind_some]
      rw [← extend, ih, Option.map_map]
      simp only [Function.comp_def, List.append_assoc]

/-! ## Widening the length of a list -/

/-- Widening a one-byte length to `lenLen` bytes in place writes the new length where the old one
was and keeps the list's bytes after it. -/
theorem longListInner_widen (pre inner : List UInt8) (t : UInt8) {lenLen : Nat}
    (h1 : 1 ≤ lenLen) (h8 : lenLen ≤ 8) :
    longListInner (pre ++ t :: 0 :: inner) pre.length inner.length lenLen =
      some (pre ++ t :: ((leBytes inner.length 8).take lenLen ++ inner)) := by
  set pad : List UInt8 := List.replicate (lenLen - 1) 0 with hpad
  -- the list's bytes start after the tag and the old one-byte length
  have hbuf : pre ++ t :: 0 :: inner ++ pad = pre ++ [t, 0] ++ inner ++ pad := by simp
  have hsrc : pre.length + 1 + 1 = (pre ++ [t, 0]).length := by simp
  have hdest : pre.length + 1 + lenLen = (pre ++ [t, 0]).length + pad.length := by
    simp [hpad]; omega
  -- after the move, the slot of the new length holds the old length and the first bytes moved
  have hslot : pre ++ [t, 0] ++ (inner ++ pad).take pad.length ++ inner =
      pre ++ [t] ++ 0 :: (inner ++ pad).take pad.length ++ inner := by simp
  have hwidth : (0 :: (inner ++ pad).take pad.length).length =
      ((leBytes inner.length 8).take lenLen).length := by
    simp [hpad]; omega
  have hstart : pre.length + 1 = (pre ++ [t]).length := by simp
  rw [longListInner, hbuf, hsrc, hdest, Buffer.copyWithin?_shift]
  simp only [Option.bind_eq_bind, Option.bind_some]
  rw [hslot, hstart, Buffer.copyFromSlice?_append _ _ _ _ hwidth]
  simp

/-- `long_list` writes the tag and the length that `push_datum` picks for a list of that length. -/
theorem longList_widen (pre inner : List UInt8) (h : TINY ≤ inner.length) :
    longList (pre ++ Tag.listTiny.toU8 :: 0 :: inner) pre.length inner.length =
      (pushDatum (.list inner)).map (pre ++ ·) := by
  have hset : ∀ t : Tag, Buffer.set? (pre ++ Tag.listTiny.toU8 :: 0 :: inner) pre.length t.toU8 =
      some (pre ++ t.toU8 :: 0 :: inner) := fun t => Buffer.set?_append _ _ _ _
  have hpush : pushDatum (.list inner) = (pushLengthedBytes inner (lengthTag .listTiny .listShort
      .listLong .listHuge inner.length)).map ((lengthTag .listTiny .listShort .listLong .listHuge
      inner.length).toU8 :: ·) := rfl
  rw [hpush, longList, lengthTag]
  split_ifs with htiny hshort hlong
  · omega
  all_goals
    rw [hset, Option.bind_some, longListInner_widen _ _ _ (by norm_num) (by norm_num)]
    rfl

/-! ## What the closures leave -/

/-- Where the closure appends `inner`, `push_list_with` appends exactly the bytes of the list datum
of `inner`: the tag and the length it fixes up are those `push_datum` writes. -/
theorem pushListWith_eq {R : Type} {f : List UInt8 → Option (List UInt8 × R)}
    {data inner : List UInt8} {r : R}
    (hf : f (data ++ [Tag.listTiny.toU8, 0]) = some (data ++ [Tag.listTiny.toU8, 0] ++ inner, r)) :
    pushListWith f data = (pushDatum (.list inner)).map fun bytes => (data ++ bytes, r) := by
  have hlen : (data ++ [Tag.listTiny.toU8, 0] ++ inner).length - data.length - 1 - 1 =
      inner.length := by
    simp
  have hbuf : data ++ [Tag.listTiny.toU8, 0] ++ inner = data ++ Tag.listTiny.toU8 :: 0 :: inner := by
    simp
  simp only [pushListWith, hf, Option.bind_eq_bind, Option.bind_some, hlen]
  rw [hbuf]
  split_ifs with htiny
  · -- the one-byte length is patched in place
    have hset : Buffer.set? (data ++ Tag.listTiny.toU8 :: 0 :: inner) (data.length + 1)
        (UInt8.ofNat inner.length) =
          some (data ++ Tag.listTiny.toU8 :: UInt8.ofNat inner.length :: inner) := by
      simpa using Buffer.set?_append (data ++ [Tag.listTiny.toU8]) inner 0 (UInt8.ofNat inner.length)
    have hpush : pushDatum (.list inner) =
        some (Tag.listTiny.toU8 :: UInt8.ofNat inner.length :: inner) := by
      simp only [pushDatum, lengthTag, if_pos htiny]
      rfl
    rw [hset, hpush]
    rfl
  · rw [longList_widen _ _ (not_lt.mp htiny)]
    cases pushDatum (.list inner) <;> rfl

/-- Where the closure appends `inner`, `push_dict_with` appends exactly the bytes of the map datum
of `inner`. -/
theorem pushDictWith_eq {R : Type} {f : List UInt8 → Option (List UInt8 × R)}
    {data inner : List UInt8} {r : R}
    (hf : f (data ++ [Tag.dict.toU8] ++ List.replicate 8 0) =
      some (data ++ [Tag.dict.toU8] ++ List.replicate 8 0 ++ inner, r)) :
    pushDictWith f data = (pushDatum (.map inner)).map fun bytes => (data ++ bytes, r) := by
  have hlen : (data ++ [Tag.dict.toU8] ++ List.replicate 8 0 ++ inner).length -
      (data ++ [Tag.dict.toU8]).length - 8 = inner.length := by
    simp; omega
  have hcopy : Buffer.copyFromSlice? (data ++ [Tag.dict.toU8] ++ List.replicate 8 0 ++ inner)
      (data ++ [Tag.dict.toU8]).length (leBytes inner.length 8) =
        some (data ++ [Tag.dict.toU8] ++ leBytes inner.length 8 ++ inner) :=
    Buffer.copyFromSlice?_append _ _ _ _ (by simp)
  simp only [pushDictWith, hf, Option.bind_eq_bind, Option.bind_some, hlen, hcopy]
  simp [pushDatum, pushUntaggedBytes]

/-! ## Lists and maps of datums -/

/-- `push_list` appends the list datum whose bytes are the row of its datums. -/
theorem pushList_eq (data : List UInt8) (ds : List Datum) :
    pushList data ds = (pack ds).bind fun inner => (pushDatum (.list inner)).map (data ++ ·) := by
  unfold pushList
  cases hpack : pack ds with
  | none => simp [pushListWith, extend_eq, hpack]
  | some inner =>
    rw [@pushListWith_eq Unit _ data inner () (by simp [extend_eq, hpack]), Option.bind_some]
    cases pushDatum (.list inner) <;> rfl

/-- The closure of `push_dict` pushes the keys and the values in turn. -/
theorem pushEntries_eq_extend (data : List UInt8) (entries : List (List UInt8 × Datum)) :
    pushEntries data entries = extend data (entries.flatMap fun kv => [.string kv.1, kv.2]) := by
  induction entries generalizing data with
  | nil => rfl
  | cons kv entries ih =>
    simp only [pushEntries, extend] at ih ⊢
    simp [Option.bind_assoc, ih]

/-- `push_dict` appends the map datum whose bytes are the row of its keys and values in turn. -/
theorem pushDict_eq (data : List UInt8) (entries : List (List UInt8 × Datum)) :
    pushDict data entries = (pack (entries.flatMap fun kv => [.string kv.1, kv.2])).bind
      fun inner => (pushDatum (.map inner)).map (data ++ ·) := by
  unfold pushDict
  cases hpack : pack (entries.flatMap fun kv => [.string kv.1, kv.2]) with
  | none => simp [pushDictWith, pushEntries_eq_extend, extend_eq, hpack]
  | some inner =>
    rw [@pushDictWith_eq Unit _ data inner ()
      (by simp [pushEntries_eq_extend, extend_eq, hpack]), Option.bind_some]
    cases pushDatum (.map inner) <;> rfl

/-- The bytes a row of datums that fit is packed to unpack to those datums. -/
theorem unpack_of_pack {ds : List Datum} (hds : ∀ d ∈ ds, d.Fits) {bytes : List UInt8}
    (hpack : pack ds = some bytes) : unpack bytes = some ds := by
  obtain ⟨bytes', hpack', hunpack⟩ := unpack_pack hds
  rwa [← Option.some.inj (hpack'.symm.trans hpack)]

/-- What `push_list` appends reads back as one list datum, and its bytes unpack to the datums
pushed. -/
theorem pushList_readDatum {data : List UInt8} {ds : List Datum} (hds : ∀ d ∈ ds, d.Fits)
    {inner : List UInt8} (hpack : pack ds = some inner) (hlen : inner.length < 2 ^ 64) :
    ∃ bytes, pushList data ds = some (data ++ bytes) ∧
      (∀ rest, readDatum (bytes ++ rest) = some (.list inner, rest)) ∧ unpack inner = some ds := by
  obtain ⟨bytes, hpush, hread⟩ := readDatum_pushDatum (.list inner) hlen
  refine ⟨bytes, ?_, hread, unpack_of_pack hds hpack⟩
  rw [pushList_eq, hpack, Option.bind_some, hpush, Option.map_some]

/-- What `push_dict` appends reads back as one map datum, and its bytes unpack to the keys and the
values in turn. -/
theorem pushDict_readDatum {data : List UInt8} {entries : List (List UInt8 × Datum)}
    (hentries : ∀ kv ∈ entries, kv.1.length < 2 ^ 64 ∧ kv.2.Fits) {inner : List UInt8}
    (hpack : pack (entries.flatMap fun kv => [.string kv.1, kv.2]) = some inner)
    (hlen : inner.length < 2 ^ 64) :
    ∃ bytes, pushDict data entries = some (data ++ bytes) ∧
      (∀ rest, readDatum (bytes ++ rest) = some (.map inner, rest)) ∧
      unpack inner = some (entries.flatMap fun kv => [.string kv.1, kv.2]) := by
  have hfits : ∀ d ∈ entries.flatMap (fun kv => [Datum.string kv.1, kv.2]), d.Fits := by
    intro d hd
    obtain ⟨kv, hkv, hd⟩ := List.mem_flatMap.1 hd
    rcases List.mem_pair.1 hd with rfl | rfl
    · exact (hentries kv hkv).1
    · exact (hentries kv hkv).2
  obtain ⟨bytes, hpush, hread⟩ := readDatum_pushDatum (.map inner) hlen
  refine ⟨bytes, ?_, hread, unpack_of_pack hfits hpack⟩
  rw [pushDict_eq, hpack, Option.bind_some, hpush, Option.map_some]

end Materialize.Row
