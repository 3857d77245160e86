import Prolly.NodeRoundTrip

/-!
# Prolly.ReadNode

The zero-copy node reader (`ReadNode` in `node.rs`): offsets into the encoded bytes
in place of copies, one arena for the keys of the prefix-compressed layout, and a
binary search over eight-byte order words behind the keys' common prefix.

It parses the same layouts as `Node::from_bytes` with code of its own. For every
layout the two loops are related entry by entry: an entry of the reader points to
the key and value of the decoded row (`Points`). Offsets are `u32`. For input below
`2^32` bytes every offset into the input fits; an offset into the arena does not
have to, since prefix compression lets the keys be longer than the input.
-/

namespace Prolly

open PrefixCode (ofBigEndian)
open List

/-- `ReadEntryMeta`. -/
structure ReadEntryMeta where
  keyStart : Nat
  keyLen : Nat
  valueStart : Nat
  valueLen : Nat
  childCount : Nat
  keyOrder : Nat := 0
  deriving DecidableEq, Repr

/-- `ReadNode`. -/
structure ReadNode where
  bytes : Bytes
  prefixKeys : Option Bytes
  entries : List ReadEntryMeta
  commonPrefixLen : Nat
  leaf : Bool
  level : Nat
  format : TreeFormat
  deriving DecidableEq

namespace ReadNode

open Node (readVarint readBytes readChildCount compactError DecodedRow OffsetRow)

/-! ### Reading -/

/-- `compact_u32`. -/
def compactU32 (value : Nat) (field : String) : Result Nat :=
  if value < 2 ^ 32 then .ok value else .error (compactError (field ++ " exceeds u32"))

/-- `read_slice`. -/
def readSlice (bytes : Bytes) (start len : Nat) : Option Bytes :=
  if start + len ≤ bytes.length then some ((bytes.drop start).take len) else none

/-- The entry pushed at the end of an iteration. -/
def entryMeta (keyStart keyLen valueStart valueLen childCount : Nat) : Result ReadEntryMeta := do
  let keyStart ← compactU32 keyStart "key offset"
  let keyLen ← compactU32 keyLen "key length"
  let valueStart ← compactU32 valueStart "value offset"
  let valueLen ← compactU32 valueLen "value length"
  return { keyStart, keyLen, valueStart, valueLen, childCount }

/-- `checked_add` on `usize`. -/
def checkedAdd (a b : Nat) (field : String) : Result Nat :=
  if a + b < 2 ^ 64 then .ok (a + b) else .error (compactError (field ++ " overflow"))

/-- The entries of the `PrefixCompressed` layout and the arena of their keys. -/
def readPrefixCompressed (data : Bytes) (leaf : Bool) :
    Nat → Bytes → Nat → Nat → Bytes → Result (List ReadEntryMeta × Bytes × Bytes)
  | 0, arena, _, _, cursor => .ok ([], arena, cursor)
  | count + 1, arena, previousStart, previousLen, cursor => do
      let (shared, cursor) ← readVarint cursor
      if shared > previousLen then
        .error (compactError "shared key prefix exceeds previous key")
      else do
        let (suffixLen, cursor) ← readVarint cursor
        let keyStart := arena.length
        -- `extend_from_within`
        let arena := arena ++ (arena.drop previousStart).take shared
        let (suffix, cursor) ← readBytes data suffixLen cursor
        let arena := arena ++ suffix
        let keyLen ← checkedAdd shared suffixLen "key length"
        let (valueLen, cursor) ← readVarint cursor
        let valueStart := position data cursor
        let (_, cursor) ← readBytes data valueLen cursor
        let (childCount, cursor) ← readChildCount leaf cursor
        let entry ← entryMeta keyStart keyLen valueStart valueLen childCount
        let (entries, arena, cursor) ← readPrefixCompressed data leaf count arena keyStart
          keyLen cursor
        return (entry :: entries, arena, cursor)

/-- The entries of the `Plain` layout. -/
def readPlain (data : Bytes) (leaf : Bool) : Nat → Bytes → Result (List ReadEntryMeta × Bytes)
  | 0, cursor => .ok ([], cursor)
  | count + 1, cursor => do
      let (keyLen, cursor) ← readVarint cursor
      let keyStart := position data cursor
      let (_, cursor) ← readBytes data keyLen cursor
      let (valueLen, cursor) ← readVarint cursor
      let valueStart := position data cursor
      let (_, cursor) ← readBytes data valueLen cursor
      let (childCount, cursor) ← readChildCount leaf cursor
      let entry ← entryMeta keyStart keyLen valueStart valueLen childCount
      let (entries, cursor) ← readPlain data leaf count cursor
      return (entry :: entries, cursor)

/-- The loop over the offsets of the `OffsetTable` layout. -/
def resolveEntries (payloadStart : Nat) (payload : Bytes) :
    List OffsetRow → Result (List ReadEntryMeta)
  | [] => .ok []
  | row :: rows => do
      let _ ← Node.slicePayload payload row.keyOffset row.keyLen "key"
      let _ ← Node.slicePayload payload row.valueOffset row.valueLen "value"
      let keyStart ← checkedAdd payloadStart row.keyOffset "key offset"
      let valueStart ← checkedAdd payloadStart row.valueOffset "value offset"
      let entry ← entryMeta keyStart row.keyLen valueStart row.valueLen row.childCount
      let entries ← resolveEntries payloadStart payload rows
      return entry :: entries

/-- The entries of a node in its layout, and the arena if the layout has one. -/
def readEntries (layout : NodeLayoutSpec) (data : Bytes) (leaf : Bool) (count : Nat)
    (cursor : Bytes) : Result (List ReadEntryMeta × Option Bytes × Bytes) :=
  match layout with
  | .prefixCompressed => do
      let (entries, arena, cursor) ← readPrefixCompressed data leaf count [] 0 0 cursor
      return (entries, some arena, cursor)
  | .plain => do
      let (entries, cursor) ← readPlain data leaf count cursor
      return (entries, none, cursor)
  | .offsetTable => do
      let (offsets, cursor) ← Node.decodeOffsets leaf count cursor
      let (payloadLen, cursor) ← readVarint cursor
      let payloadStart := position data cursor
      let (payload, cursor) ← readBytes data payloadLen cursor
      return (← resolveEntries payloadStart payload offsets, none, cursor)
  | .custom id _ => .error (.invalidFormat ("node layout '" ++ id ++ "' has no registered codec"))

/-- `key_order_word`: the next eight bytes behind the prefix, padded with zeros. -/
def keyOrderWord (key : Bytes) (prefixLen : Nat) : Nat :=
  let copied := (key.drop prefixLen).take 8
  ofBigEndian (copied ++ replicate (8 - copied.length) 0)

/-- The common prefix of the first and the last key. -/
def commonPrefix (source : Bytes) (entries : List ReadEntryMeta) : Result Nat :=
  match entries.head?, entries.getLast? with
  | some first, some last =>
    match readSlice source first.keyStart first.keyLen,
      readSlice source last.keyStart last.keyLen with
    | some first, some last => .ok (Node.commonPrefixLen first last)
    | _, _ => .error .invalidNode
  | _, _ => .ok 0

/-- The loop that checks the order of the keys and sets their order words. -/
def orderEntries (source : Bytes) (prefixLen : Nat) :
    Option Bytes → List ReadEntryMeta → Result (List ReadEntryMeta)
  | _, [] => .ok []
  | previous, entry :: entries =>
    match readSlice source entry.keyStart entry.keyLen with
    | none => .error .invalidNode
    | some key => do
        Node.checkOrder previous key
        let entries ← orderEntries source prefixLen (some key) entries
        return { entry with keyOrder := keyOrderWord key prefixLen } :: entries

/-- `ReadNode::from_shared`. -/
def fromShared (data : Bytes) : Result ReadNode :=
  if data.take 4 ≠ Node.compactMagic then .error (compactError "missing compact node magic")
  else do
    let (version, cursor) ← readVarint (data.drop 4)
    if version ≠ Node.compactVersion then
      .error (compactError ("unsupported compact node version " ++ toString version))
    else do
      let (format, cursor) ← Node.readFormat data cursor
      let (leaf, cursor) ← Node.readLeafFlag cursor
      let (level, cursor) ← Node.readU8Varint "level" cursor
      let (count, cursor) ← readVarint cursor
      let (entries, prefixKeys, cursor) ← readEntries format.nodeLayout data leaf count cursor
      if cursor ≠ [] then .error (compactError "trailing bytes in compact node")
      else do
        let source := prefixKeys.getD data
        let prefixLen ← commonPrefix source entries
        if !leaf && entries.isEmpty then .error .invalidNode
        else do
          let entries ← orderEntries source prefixLen none entries
          let commonPrefixLen ← compactU32 prefixLen "common key prefix length"
          return ⟨data, prefixKeys, entries, commonPrefixLen, leaf, level, format⟩

/-! ### Access -/

def source (n : ReadNode) : Bytes := n.prefixKeys.getD n.bytes

def len (n : ReadNode) : Nat := n.entries.length

def key (n : ReadNode) (index : Nat) : Option Bytes :=
  n.entries[index]?.bind fun entry => readSlice n.source entry.keyStart entry.keyLen

def value (n : ReadNode) (index : Nat) : Option Bytes :=
  n.entries[index]?.bind fun entry => readSlice n.bytes entry.valueStart entry.valueLen

def childCount (n : ReadNode) (index : Nat) : Option Nat :=
  if n.leaf then none else n.entries[index]?.map (·.childCount)

/-- The loop of `search`. The indices it visits are below the length, which the
source relies on with `get_unchecked`. -/
def searchLoop (source : Bytes) (entries : List ReadEntryMeta) (key : Bytes) (queryOrder : Nat) :
    Nat → Nat → Nat → Except Nat Nat
  | 0, left, _ => .error left
  | fuel + 1, left, right =>
    if left < right then
      let mid := left + (right - left) / 2
      match entries[mid]? with
      | none => .error left
      | some entry =>
        if entry.keyOrder < queryOrder then
          searchLoop source entries key queryOrder fuel (mid + 1) right
        else if queryOrder < entry.keyOrder then
          searchLoop source entries key queryOrder fuel left mid
        else
          let candidate := (source.drop entry.keyStart).take entry.keyLen
          if candidate < key then
            searchLoop source entries key queryOrder fuel (mid + 1) right
          else if key < candidate then searchLoop source entries key queryOrder fuel left mid
          else .ok mid
    else .error left

/-- `ReadNode::search`. -/
def search (n : ReadNode) (key : Bytes) : Except Nat Nat :=
  let prefixLen := n.commonPrefixLen
  let first := (n.entries.head?.map (·.keyStart)).getD 0
  let common := (n.source.drop first).take prefixLen
  let shared := min key.length prefixLen
  let loop := searchLoop n.source n.entries key (keyOrderWord key prefixLen) n.len 0 n.len
  if 0 < prefixLen then
    if key.take shared < common.take shared then .error 0
    else if common.take shared < key.take shared then .error n.len
    else if key.length < prefixLen then .error 0
    else loop
  else loop

/-! ### Cursors -/

variable {n : Nat} {cursor rest bytes data : Bytes} {field : String}

theorem readVarintLoop_suffix {rounds shift value : Nat}
    (h : Node.readVarintLoop rounds shift value cursor = .ok (n, rest)) : rest <:+ cursor := by
  induction rounds generalizing shift value cursor with
  | zero => cases h
  | succ rounds ih =>
    cases cursor with
    | nil => cases h
    | cons byte cursor =>
      simp only [Node.readVarintLoop] at h
      split at h
      · cases h
      split at h
      · cases h
        exact suffix_cons _ _
      · exact (ih h).trans (suffix_cons _ _)

theorem readVarint_suffix (h : readVarint cursor = .ok (n, rest)) :
    rest <:+ cursor := readVarintLoop_suffix h

theorem readBytes_eq_ok {len : Nat} :
    readBytes data len cursor = .ok (bytes, rest) ↔ bytes.length = len ∧
        cursor = bytes ++ rest := by
  constructor
  · intro h
    rw [readBytes] at h
    split at h
    · next hlen =>
      cases h
      exact ⟨by rw [length_take]; omega, (take_append_drop len cursor).symm⟩
    · split at h <;> cases h
  · rintro ⟨hlen, rfl⟩
    exact Node.readBytes_append hlen

theorem readBytes_suffix {len : Nat} (h : readBytes data len cursor = .ok (bytes, rest)) :
    rest <:+ cursor :=
  ⟨bytes, (readBytes_eq_ok.mp h).2.symm⟩

theorem readChildCount_suffix {leaf : Bool} (h : readChildCount leaf cursor = .ok (n, rest)) :
    rest <:+ cursor := by
  rw [readChildCount] at h
  split at h
  · cases h
    exact suffix_refl _
  · obtain ⟨⟨count, cursor'⟩, hread, h⟩ := of_bind h
    dsimp only at h
    split at h
    · cases h
    · cases h
      exact readVarint_suffix hread

theorem readSlice_middle (before slice after : Bytes) :
    readSlice (before ++ slice ++ after) before.length slice.length = some slice := by
  rw [readSlice, if_pos (by simp), append_assoc, drop_left, take_left]

/-- The bytes just read are at the position the cursor had. -/
theorem readBytes_at {len : Nat} (hcursor : cursor <:+ data)
    (h : readBytes data len cursor = .ok (bytes, rest)) :
    ∃ before, data = before ++ bytes ++ rest ∧ position data cursor = before.length := by
  obtain ⟨before, rfl⟩ := hcursor
  obtain ⟨-, rfl⟩ := readBytes_eq_ok.mp h
  exact ⟨before, by rw [append_assoc], by rw [position, length_append, Nat.add_sub_cancel]⟩

/-- A block, its length before its bytes. -/
theorem readBlock_at {len : Nat} {cursor' : Bytes} (hcursor : cursor <:+ data)
    (hlen : readVarint cursor = .ok (len, cursor'))
    (h : readBytes data len cursor' = .ok (bytes, rest)) :
    rest <:+ data ∧ readSlice data (position data cursor') len = some bytes ∧
      position data cursor' + len ≤ data.length := by
  obtain ⟨before, hdata, hpos⟩ := readBytes_at ((readVarint_suffix hlen).trans hcursor) h
  obtain ⟨rfl, -⟩ := readBytes_eq_ok.mp h
  rw [hpos, hdata]
  exact ⟨suffix_append _ _, readSlice_middle before bytes rest, by simp only [length_append]; omega⟩

theorem ite_eq_ok {condition : Prop} [Decidable condition] {value : Nat} {error : Error} :
    (if condition then .ok value else .error error : Result Nat) = .ok n ↔
      condition ∧ n = value := by
  split
  · next h => exact ⟨fun h' => ⟨h, (Except.ok.inj h').symm⟩, fun h' => by rw [h'.2]⟩
  · next h => exact ⟨fun h' => (by cases h'), fun h' => absurd h'.1 h⟩

theorem compactU32_eq_ok {value : Nat} :
    compactU32 value field = .ok n ↔ value < 2 ^ 32 ∧ n = value := ite_eq_ok

theorem checkedAdd_eq_ok {a b : Nat} :
    checkedAdd a b field = .ok n ↔ a + b < 2 ^ 64 ∧ n = a + b := ite_eq_ok

theorem entryMeta_eq_ok {ks kl vs vl c : Nat} {entry : ReadEntryMeta} :
    entryMeta ks kl vs vl c = .ok entry ↔
      (ks < 2 ^ 32 ∧ kl < 2 ^ 32 ∧ vs < 2 ^ 32 ∧ vl < 2 ^ 32) ∧ entry = ⟨ks, kl, vs, vl, c, 0⟩ := by
  simp only [entryMeta, bind_eq_ok, compactU32_eq_ok, pure_eq, Except.ok.injEq]
  constructor
  · rintro ⟨_, ⟨h1, rfl⟩, _, ⟨h2, rfl⟩, _, ⟨h3, rfl⟩, _, ⟨h4, rfl⟩, rfl⟩
    exact ⟨⟨h1, h2, h3, h4⟩, rfl⟩
  · rintro ⟨⟨h1, h2, h3, h4⟩, rfl⟩
    exact ⟨_, ⟨h1, rfl⟩, _, ⟨h2, rfl⟩, _, ⟨h3, rfl⟩, _, ⟨h4, rfl⟩, rfl⟩

theorem entryMeta_ok {ks kl vs vl c : Nat}
    (h : ks < 2 ^ 32 ∧ kl < 2 ^ 32 ∧ vs < 2 ^ 32 ∧ vl < 2 ^ 32) :
    entryMeta ks kl vs vl c = .ok ⟨ks, kl, vs, vl, c, 0⟩ := entryMeta_eq_ok.mpr ⟨h, rfl⟩

/-! ### Entries and rows -/

structure Points (source data : Bytes) (entry : ReadEntryMeta) (row : DecodedRow) : Prop where
  key : readSlice source entry.keyStart entry.keyLen = some row.key
  val : readSlice data entry.valueStart entry.valueLen = some row.val
  childCount : entry.childCount = row.childCount
  keyLen : entry.keyLen < 2 ^ 32

/-- The keys pass the order checks of the decoder. -/
def OrderedFrom : Option Bytes → List DecodedRow → Prop
  | _, [] => True
  | previous, row :: rows =>
    Node.checkOrder previous row.key = .ok () ∧ OrderedFrom (some row.key) rows

variable {leaf : Bool} {count start offset : Nat} {previous : Option Bytes} {rows : List DecodedRow}
  {entries : List ReadEntryMeta} {arena payload slice before : Bytes} {offsets : List OffsetRow}
  {layout : NodeLayoutSpec}

theorem readPlain_of_decodePlain (hdata : data.length < 2 ^ 32) (hcursor : cursor <:+ data)
    (h : Node.decodePlain data leaf count previous cursor = .ok (rows, rest)) :
    ∃ entries, readPlain data leaf count cursor = .ok (entries, rest) ∧
      Forall₂ (Points data data) entries rows ∧ OrderedFrom previous rows := by
  induction count generalizing previous cursor rows with
  | zero =>
    cases h
    exact ⟨[], rfl, .nil, trivial⟩
  | succ count ih =>
    simp only [Node.decodePlain, Node.readBlock, bind_eq_ok, pure_eq,
      Except.ok.injEq, Prod.mk.injEq] at h
    obtain ⟨⟨key, c2⟩, ⟨⟨keyLen, c1⟩, hkeyLen, hkey⟩, _, horder, ⟨val, c4⟩,
      ⟨⟨valLen, c3⟩, hvalLen, hval⟩, ⟨childCount, c5⟩, hcount, ⟨tail, c6⟩, htail, rfl, rfl⟩ := h
    dsimp only at hkey hvalLen hval hcount htail
    obtain ⟨hc2, hkeyAt, hkeyEnd⟩ := readBlock_at hcursor hkeyLen hkey
    obtain ⟨hc4, hvalAt, hvalEnd⟩ := readBlock_at hc2 hvalLen hval
    obtain ⟨entries, hentries, hpoints, hordered⟩ :=
      ih ((readChildCount_suffix hcount).trans hc4) htail
    have hentry := @entryMeta_ok (position data c1) keyLen (position data c3) valLen childCount
      ⟨by omega, by omega, by omega, by omega⟩
    refine ⟨⟨position data c1, keyLen, position data c3, _, _, 0⟩ :: entries, ?_,
      .cons ⟨hkeyAt, hvalAt, rfl, ?_⟩ hpoints, horder, hordered⟩
    · simp only [readPlain, hkeyLen, ok_bind, hkey, hvalLen, hval, hcount, hentry,
        hentries, pure_eq]
    · dsimp only
      omega

theorem decodePlain_of_readPlain (hcursor : cursor <:+ data)
    (h : readPlain data leaf count cursor = .ok (entries, rest)) :
    ∃ rows, Forall₂ (Points data data) entries rows ∧ ∀ previous, OrderedFrom previous rows →
      Node.decodePlain data leaf count previous cursor = .ok (rows, rest) := by
  induction count generalizing cursor entries with
  | zero =>
    cases h
    exact ⟨[], .nil, fun _ _ => rfl⟩
  | succ count ih =>
    simp only [readPlain, bind_eq_ok, entryMeta_eq_ok, pure_eq, Except.ok.injEq, Prod.mk.injEq] at h
    obtain ⟨⟨keyLen, c1⟩, hkeyLen, ⟨key, c2⟩, hkey, ⟨valLen, c3⟩, hvalLen, ⟨val, c4⟩, hval,
      ⟨childCount, c5⟩, hcount, _, ⟨hsmall, rfl⟩, ⟨tail, c6⟩, htail, rfl, rfl⟩ := h
    dsimp only at hkey hvalLen hval hcount htail
    obtain ⟨hc2, hkeyAt, -⟩ := readBlock_at hcursor hkeyLen hkey
    obtain ⟨hc4, hvalAt, -⟩ := readBlock_at hc2 hvalLen hval
    obtain ⟨rows, hpoints, hdecode⟩ := ih ((readChildCount_suffix hcount).trans hc4) htail
    refine ⟨⟨key, val, childCount⟩ :: rows, .cons ⟨hkeyAt, hvalAt, rfl, hsmall.2.1⟩ hpoints,
      fun previous hordered => ?_⟩
    simp only [Node.decodePlain, Node.readBlock, hkeyLen, ok_bind, hkey, hordered.1,
      hvalLen, hval, hcount, hdecode _ hordered.2, pure_eq]

/-! ### The arena -/

/-- Every key's offset in the arena fits. -/
def StartsFit : Nat → List DecodedRow → Prop
  | _, [] => True
  | start, row :: rows => start < 2 ^ 32 ∧ StartsFit (start + row.key.length) rows

theorem startsFit_iff :
    StartsFit start rows ↔
      (rows ≠ [] → start + ((rows.map DecodedRow.key).dropLast.map length).sum < 2 ^ 32) := by
  induction rows generalizing start with
  | nil => simp [StartsFit]
  | cons row rows ih =>
    rw [StartsFit, ih]
    cases rows with
    | nil => simp
    | cons next rows =>
      simp only [ne_eq, reduceCtorEq, not_false_eq_true, forall_const, map_cons,
        dropLast_cons_cons, sum_cons]
      omega

/-- The last key of the arena is the decoder's previous key. -/
structure ArenaAt (previous : Option Bytes) (arena : Bytes) (start len : Nat) : Prop where
  key : (arena.drop start).take len = previous.getD []
  length : (previous.getD []).length = len

theorem ArenaAt.empty : ArenaAt none [] 0 0 := ⟨rfl, rfl⟩

theorem ArenaAt.shared {len shared : Nat} (h : ArenaAt previous arena start len)
    (hshared : shared ≤ len) : (arena.drop start).take shared = (previous.getD []).take shared := by
  rw [← h.key, take_take, Nat.min_eq_left hshared]

theorem ArenaAt.push (arena key : Bytes) :
    ArenaAt (some key) (arena ++ key) arena.length key.length :=
  ⟨by rw [drop_left, take_length]; rfl, rfl⟩

theorem readPrefixCompressed_of_decode (hdata : data.length < 2 ^ 32) {len : Nat}
    (hcursor : cursor <:+ data) (harena : ArenaAt previous arena start len)
    (hlen : len + cursor.length ≤ data.length) (hfit : StartsFit arena.length rows)
    (h : Node.decodePrefixCompressed data leaf count previous cursor = .ok (rows, rest)) :
    ∃ entries, readPrefixCompressed data leaf count arena start len cursor
        = .ok (entries, arena ++ (rows.map DecodedRow.key).flatten, rest) ∧
      Forall₂ (Points (arena ++ (rows.map DecodedRow.key).flatten) data) entries rows ∧
      OrderedFrom previous rows := by
  induction count generalizing previous arena start len cursor rows with
  | zero =>
    cases h
    exact ⟨[], by simp [readPrefixCompressed], .nil, trivial⟩
  | succ count ih =>
    simp only [Node.decodePrefixCompressed, bind_eq_ok] at h
    obtain ⟨⟨shared, c1⟩, hshared, h⟩ := h
    split at h
    · cases h
    next hle =>
    rw [harena.length] at hle
    simp only [Node.readBlock, bind_eq_ok, pure_eq, Except.ok.injEq, Prod.mk.injEq] at h
    obtain ⟨⟨suffix, c3⟩, ⟨⟨suffixLen, c2⟩, hsuffixLen, hsuffix⟩, _, horder, ⟨val, c5⟩,
      ⟨⟨valLen, c4⟩, hvalLen, hval⟩, ⟨childCount, c6⟩, hcount, ⟨tail, c7⟩, htail, rfl, rfl⟩ := h
    dsimp only at hle hsuffixLen hsuffix horder hvalLen hval hcount htail hfit
    have hc1 := (readVarint_suffix hshared).trans hcursor
    obtain ⟨hc3, -, -⟩ := readBlock_at hc1 hsuffixLen hsuffix
    obtain ⟨hc5, hvalAt, hvalEnd⟩ := readBlock_at hc3 hvalLen hval
    have hc6 := (readChildCount_suffix hcount).trans hc5
    obtain ⟨hsuf, hc2eq⟩ := readBytes_eq_ok.mp hsuffix
    -- a key is no longer than the input read for it and before it
    have hbound : shared + suffixLen + c6.length ≤ data.length := by
      have h1 := (readVarint_suffix hshared).length_le
      have h2 := (readVarint_suffix hsuffixLen).length_le
      have h3 := congrArg length hc2eq
      have h4 := (readVarint_suffix hvalLen).length_le
      have h5 := (readBytes_suffix hval).length_le
      have h6 := (readChildCount_suffix hcount).length_le
      rw [length_append] at h3
      omega
    have hkeyLen : ((previous.getD []).take shared ++ suffix).length = shared + suffixLen := by
      rw [length_append, length_take, harena.length, hsuf]
      omega
    have harena' := ArenaAt.push arena ((previous.getD []).take shared ++ suffix)
    rw [hkeyLen] at harena'
    have hfit' : StartsFit (arena ++ ((previous.getD []).take shared ++ suffix)).length tail := by
      rw [length_append]
      exact hfit.2
    obtain ⟨entries, hentries, hpoints, hordered⟩ := ih hc6 harena' hbound hfit' htail
    have hentry := @entryMeta_ok arena.length (shared + suffixLen) (position data c4) valLen
      childCount ⟨hfit.1, by omega, by omega, by omega⟩
    have hadd : checkedAdd shared suffixLen "key length" = .ok (shared + suffixLen) :=
      checkedAdd_eq_ok.mpr ⟨by omega, rfl⟩
    have hwhole : arena ++ ((previous.getD []).take shared ++ suffix)
          ++ (tail.map DecodedRow.key).flatten
        = arena ++ ((⟨(previous.getD []).take shared ++ suffix, val, childCount⟩ :: tail).map
          DecodedRow.key).flatten := by
      simp
    rw [hwhole] at hentries hpoints
    refine ⟨⟨arena.length, shared + suffixLen, position data c4, _, _, 0⟩ :: entries, ?_,
      .cons ⟨?_, hvalAt, rfl, ?_⟩ hpoints, horder, hordered⟩
    · simp only [readPrefixCompressed, hshared, ok_bind, if_neg hle, hsuffixLen,
        harena.shared (not_lt.mp hle), hsuffix, hadd, hvalLen, hval, hcount, hentry,
        append_assoc, pure_eq]
      rw [hentries]
      rfl
    · rw [← hwhole]
      dsimp only
      rw [← hkeyLen]
      exact readSlice_middle _ _ _
    · dsimp only
      omega

theorem decode_of_readPrefixCompressed {len : Nat} {arena' : Bytes} (hcursor : cursor <:+ data)
    (harena : ArenaAt previous arena start len)
    (h : readPrefixCompressed data leaf count arena start len cursor =
      .ok (entries, arena', rest)) :
    ∃ rows, arena' = arena ++ (rows.map DecodedRow.key).flatten ∧
      Forall₂ (Points arena' data) entries rows ∧ StartsFit arena.length rows ∧
      (OrderedFrom previous rows →
        Node.decodePrefixCompressed data leaf count previous cursor = .ok (rows, rest)) := by
  induction count generalizing previous arena start len cursor entries with
  | zero =>
    cases h
    exact ⟨[], by simp, .nil, trivial, fun _ => rfl⟩
  | succ count ih =>
    simp only [readPrefixCompressed, bind_eq_ok] at h
    obtain ⟨⟨shared, c1⟩, hshared, h⟩ := h
    split at h
    · cases h
    next hle =>
    simp only [bind_eq_ok, entryMeta_eq_ok, checkedAdd_eq_ok, pure_eq,
      Except.ok.injEq, Prod.mk.injEq] at h
    obtain ⟨⟨suffixLen, c2⟩, hsuffixLen, ⟨suffix, c3⟩, hsuffix, _, ⟨-, rfl⟩, ⟨valLen, c4⟩,
      hvalLen, ⟨val, c5⟩, hval, ⟨childCount, c6⟩, hcount, _, ⟨⟨hstart, hsmall, -⟩, rfl⟩,
      ⟨tail, arena'', c7⟩, htail, rfl, rfl, rfl⟩ := h
    dsimp only at hle hsuffixLen hsuffix hvalLen hval hcount htail
    have hc1 := (readVarint_suffix hshared).trans hcursor
    obtain ⟨hc3, -, -⟩ := readBlock_at hc1 hsuffixLen hsuffix
    obtain ⟨hc5, hvalAt, -⟩ := readBlock_at hc3 hvalLen hval
    have hc6 := (readChildCount_suffix hcount).trans hc5
    have hkeyLen : ((previous.getD []).take shared ++ suffix).length = shared + suffixLen := by
      rw [length_append, length_take, harena.length, (readBytes_eq_ok.mp hsuffix).1]
      omega
    rw [harena.shared (not_lt.mp hle), append_assoc] at htail
    have harena' := ArenaAt.push arena ((previous.getD []).take shared ++ suffix)
    rw [hkeyLen] at harena'
    obtain ⟨rows, harena'', hpoints, hfit, hdecode⟩ := ih hc6 harena' htail
    dsimp only at harena'' hpoints
    rw [length_append] at hfit
    refine ⟨⟨(previous.getD []).take shared ++ suffix, val, childCount⟩ :: rows, ?_,
      .cons ⟨?_, hvalAt, rfl, hsmall⟩ hpoints, ⟨hstart, hfit⟩, fun hordered => ?_⟩
    · rw [harena'']
      simp
    · rw [harena'', ← hkeyLen]
      exact readSlice_middle _ _ _
    · have hle' : ¬ shared > (previous.getD []).length := by rw [harena.length]; exact hle
      simp only [Node.decodePrefixCompressed, Node.readBlock, hshared, ok_bind,
        if_neg hle', hsuffixLen, hsuffix, hordered.1, hvalLen, hval, hcount,
        hdecode hordered.2, pure_eq]

/-! ### The offset table -/

theorem slicePayload_eq_ok {len : Nat} :
    Node.slicePayload payload offset len field = .ok slice ↔
      offset + len < 2 ^ 64 ∧ readSlice payload offset len = some slice := by
  rw [Node.slicePayload, readSlice]
  split
  · next h =>
    constructor
    · intro h'; cases h'
    · rintro ⟨h', -⟩; omega
  · next h =>
    split
    · next hle =>
      simp only [Except.ok.injEq, Option.some.injEq]
      exact ⟨fun h' => ⟨by omega, h'⟩, fun h' => h'.2⟩
    · next hle => simp

theorem readSlice_within {after : Bytes} {len : Nat}
    (h : readSlice payload offset len = some slice) :
    readSlice (before ++ payload ++ after) (before.length + offset) len = some slice := by
  rw [readSlice] at h
  split at h
  · next hle =>
    obtain rfl := Option.some.inj h
    rw [readSlice, if_pos (by simp only [length_append]; omega), append_assoc,
      drop_length_add_append, drop_append_of_le_length (by omega),
      take_append_of_le_length (by rw [length_drop]; omega)]
  · cases h

theorem readSlice_length {len : Nat} (h : readSlice bytes start len = some slice) :
    start + len ≤ bytes.length ∧ slice.length = len := by
  rw [readSlice] at h
  split at h
  · next hle =>
    rw [← Option.some.inj h, length_take, length_drop]
    omega
  · cases h

theorem resolveEntries_of_resolveOffsets {after : Bytes}
    (hdata : (before ++ payload ++ after).length < 2 ^ 32)
    (h : Node.resolveOffsets payload previous offsets = .ok rows) :
    ∃ entries, resolveEntries before.length payload offsets = .ok entries ∧
      Forall₂ (Points (before ++ payload ++ after) (before ++ payload ++ after))
        entries rows ∧ OrderedFrom previous rows := by
  induction offsets generalizing previous rows with
  | nil =>
    cases h
    exact ⟨[], rfl, .nil, trivial⟩
  | cons offset offsets ih =>
    simp only [Node.resolveOffsets, bind_eq_ok, pure_eq, Except.ok.injEq] at h
    obtain ⟨key, hkey, _, horder, val, hval, tail, htail, rfl⟩ := h
    obtain ⟨entries, hentries, hpoints, hordered⟩ := ih htail
    have hkey' := (slicePayload_eq_ok.mp hkey).2
    have hval' := (slicePayload_eq_ok.mp hval).2
    have hkeyEnd := (readSlice_length hkey').1
    have hvalEnd := (readSlice_length hval').1
    simp only [length_append] at hdata
    have haddk : checkedAdd before.length offset.keyOffset "key offset"
        = .ok (before.length + offset.keyOffset) := checkedAdd_eq_ok.mpr ⟨by omega, rfl⟩
    have haddv : checkedAdd before.length offset.valueOffset "value offset"
        = .ok (before.length + offset.valueOffset) := checkedAdd_eq_ok.mpr ⟨by omega, rfl⟩
    have hentry := @entryMeta_ok (before.length + offset.keyOffset) offset.keyLen
      (before.length + offset.valueOffset) offset.valueLen offset.childCount
      ⟨by omega, by omega, by omega, by omega⟩
    refine ⟨⟨_, offset.keyLen, _, _, _, 0⟩ :: entries, ?_,
      .cons ⟨readSlice_within hkey', readSlice_within hval', rfl, ?_⟩ hpoints, horder, hordered⟩
    · simp only [resolveEntries, hkey, ok_bind, hval, haddk, haddv, hentry, hentries, pure_eq]
    · dsimp only
      omega

theorem resolveOffsets_of_resolveEntries (after : Bytes)
    (h : resolveEntries before.length payload offsets = .ok entries) :
    ∃ rows, Forall₂ (Points (before ++ payload ++ after) (before ++ payload ++ after))
        entries rows ∧ ∀ previous, OrderedFrom previous rows →
      Node.resolveOffsets payload previous offsets = .ok rows := by
  induction offsets generalizing entries with
  | nil =>
    cases h
    exact ⟨[], .nil, fun _ _ => rfl⟩
  | cons offset offsets ih =>
    simp only [resolveEntries, bind_eq_ok, entryMeta_eq_ok, checkedAdd_eq_ok,
      pure_eq, Except.ok.injEq] at h
    obtain ⟨key, hkey, val, hval, _, ⟨-, rfl⟩, _, ⟨-, rfl⟩, _, ⟨hsmall, rfl⟩, tail, htail, rfl⟩ := h
    obtain ⟨rows, hpoints, hresolve⟩ := ih htail
    refine ⟨⟨key, val, offset.childCount⟩ :: rows,
      .cons ⟨readSlice_within (slicePayload_eq_ok.mp hkey).2,
        readSlice_within (slicePayload_eq_ok.mp hval).2, rfl, hsmall.2.1⟩ hpoints,
      fun previous hordered => ?_⟩
    simp only [Node.resolveOffsets, hkey, ok_bind, hordered.1, hval, hresolve _ hordered.2, pure_eq]

theorem decodeOffsets_suffix (h : Node.decodeOffsets leaf count cursor = .ok (offsets, rest)) :
    rest <:+ cursor := by
  induction count generalizing cursor offsets with
  | zero =>
    cases h
    exact suffix_refl _
  | succ count ih =>
    simp only [Node.decodeOffsets, bind_eq_ok, pure_eq, Except.ok.injEq, Prod.mk.injEq] at h
    obtain ⟨⟨_, c1⟩, h1, ⟨_, c2⟩, h2, ⟨_, c3⟩, h3, ⟨_, c4⟩, h4, ⟨_, c5⟩, h5, ⟨_, c6⟩, h6, -,
      rfl⟩ := h
    exact (ih h6).trans ((readChildCount_suffix h5).trans ((readVarint_suffix h4).trans
      ((readVarint_suffix h3).trans ((readVarint_suffix h2).trans (readVarint_suffix h1)))))

/-! ### All layouts -/

theorem readEntries_of_decodeRows (hdata : data.length < 2 ^ 32) (hcursor : cursor <:+ data)
    (hfit : layout = .prefixCompressed → StartsFit 0 rows)
    (h : Node.decodeRows data layout leaf count cursor = .ok (rows, rest)) :
    ∃ entries keys, readEntries layout data leaf count cursor = .ok (entries, keys, rest) ∧
      Forall₂ (Points (keys.getD data) data) entries rows ∧ OrderedFrom none rows := by
  cases layout with
  | prefixCompressed =>
    have hlen : 0 + cursor.length ≤ data.length := by simpa using hcursor.length_le
    obtain ⟨entries, hentries, hpoints, hordered⟩ :=
      readPrefixCompressed_of_decode hdata hcursor ArenaAt.empty hlen (hfit rfl) h
    refine ⟨entries, some _, ?_, hpoints, hordered⟩
    simp only [readEntries, hentries, ok_bind, pure_eq]
  | plain =>
    obtain ⟨entries, hentries, hpoints, hordered⟩ := readPlain_of_decodePlain hdata hcursor h
    exact ⟨entries, none, by simp only [readEntries, hentries, ok_bind, pure_eq], hpoints, hordered⟩
  | offsetTable =>
    simp only [Node.decodeRows, Node.readBlock, bind_eq_ok, pure_eq,
      Except.ok.injEq, Prod.mk.injEq] at h
    obtain ⟨⟨offsets, c1⟩, hoffsets, ⟨payload, c3⟩, ⟨⟨payloadLen, c2⟩, hlen, hpayload⟩, rows',
      hrows, rfl, rfl⟩ := h
    dsimp only at hlen hpayload hrows
    have hc2 := (readVarint_suffix hlen).trans ((decodeOffsets_suffix hoffsets).trans hcursor)
    obtain ⟨before, hdata', hposition⟩ := readBytes_at hc2 hpayload
    rw [hdata'] at hdata
    obtain ⟨entries, hentries, hpoints, hordered⟩ := resolveEntries_of_resolveOffsets hdata hrows
    rw [← hdata'] at hpoints
    refine ⟨entries, none, ?_, hpoints, hordered⟩
    simp only [readEntries, hoffsets, ok_bind, hlen, hpayload, hposition, hentries, pure_eq]
  | custom id parameters => cases h

theorem decodeRows_of_readEntries {keys : Option Bytes} (hcursor : cursor <:+ data)
    (h : readEntries layout data leaf count cursor = .ok (entries, keys, rest)) :
    ∃ rows, Forall₂ (Points (keys.getD data) data) entries rows ∧
      (layout = .prefixCompressed → StartsFit 0 rows) ∧
      (OrderedFrom none rows → Node.decodeRows data layout leaf count cursor =
          .ok (rows, rest)) := by
  cases layout with
  | prefixCompressed =>
    simp only [readEntries, bind_eq_ok, pure_eq, Except.ok.injEq, Prod.mk.injEq] at h
    obtain ⟨⟨entries', arena, c⟩, hread, rfl, rfl, rfl⟩ := h
    obtain ⟨rows, -, hpoints, hfit, hdecode⟩ :=
      decode_of_readPrefixCompressed hcursor ArenaAt.empty hread
    exact ⟨rows, hpoints, fun _ => hfit, hdecode⟩
  | plain =>
    simp only [readEntries, bind_eq_ok, pure_eq, Except.ok.injEq, Prod.mk.injEq] at h
    obtain ⟨⟨entries', c⟩, hread, rfl, rfl, rfl⟩ := h
    obtain ⟨rows, hpoints, hdecode⟩ := decodePlain_of_readPlain hcursor hread
    exact ⟨rows, hpoints, fun h => (by cases h), hdecode none⟩
  | offsetTable =>
    simp only [readEntries, bind_eq_ok, pure_eq, Except.ok.injEq, Prod.mk.injEq] at h
    obtain ⟨⟨offsets, c1⟩, hoffsets, ⟨payloadLen, c2⟩, hlen, ⟨payload, c3⟩, hpayload, entries',
      hread, rfl, rfl, rfl⟩ := h
    dsimp only at hlen hpayload hread
    have hc2 := (readVarint_suffix hlen).trans ((decodeOffsets_suffix hoffsets).trans hcursor)
    obtain ⟨before, hdata', hposition⟩ := readBytes_at hc2 hpayload
    rw [hposition] at hread
    obtain ⟨rows, hpoints, hresolve⟩ := resolveOffsets_of_resolveEntries c3 hread
    rw [← hdata'] at hpoints
    refine ⟨rows, hpoints, fun h => (by cases h), fun hordered => ?_⟩
    simp only [Node.decodeRows, Node.readBlock, hoffsets, ok_bind, hlen, hpayload,
      hresolve none hordered, pure_eq]
  | custom id parameters => cases h

/-! ### Order words and whole nodes -/

/-- The common prefix of the first and the last row's key. -/
def rowsPrefix (rows : List DecodedRow) : Nat :=
  match rows.head?, rows.getLast? with
  | some first, some last => Node.commonPrefixLen first.key last.key
  | _, _ => 0

/-- An entry of a finished node: it points to the row and has its order word. -/
def Placed (source data : Bytes) (prefixLen : Nat) (entry : ReadEntryMeta) (row : DecodedRow) :
    Prop :=
  Points source data entry row ∧ entry.keyOrder = keyOrderWord row.key prefixLen

variable {source : Bytes} {format : TreeFormat} {level : Nat}

theorem forall₂_getLast? {α β : Type} {R : α → β → Prop} {x : α} {y : β} {xs : List α}
    {ys : List β} (h : Forall₂ R (x :: xs) (y :: ys)) :
    ∃ a b, (x :: xs).getLast? = some a ∧ (y :: ys).getLast? = some b ∧ R a b := by
  induction xs generalizing x y ys with
  | nil =>
    obtain ⟨hxy, htail⟩ := forall₂_cons.mp h
    cases htail
    exact ⟨x, y, rfl, rfl, hxy⟩
  | cons x' xs ih =>
    obtain ⟨-, htail⟩ := forall₂_cons.mp h
    cases ys with
    | nil => cases htail
    | cons y' ys =>
      obtain ⟨a, b, ha, hb, hab⟩ := ih htail
      exact ⟨a, b, by rw [getLast?_cons_cons, ha], by rw [getLast?_cons_cons, hb], hab⟩

theorem commonPrefix_eq (h : Forall₂ (Points source data) entries rows) :
    commonPrefix source entries = .ok (rowsPrefix rows) := by
  cases h with
  | nil => rfl
  | @cons entry row entries rows hhead htail =>
    obtain ⟨last, lastRow, hlast, hlastRow, hpoints⟩ := forall₂_getLast? (.cons hhead htail)
    simp only [commonPrefix, rowsPrefix, head?_cons, hlast, hlastRow, hhead.key, hpoints.key]

theorem orderEntries_of_ordered (prefixLen : Nat)
    (h : Forall₂ (Points source data) entries rows) (hordered : OrderedFrom previous rows) :
    ∃ entries', orderEntries source prefixLen previous entries = .ok entries' ∧
      Forall₂ (Placed source data prefixLen) entries' rows := by
  induction h generalizing previous with
  | nil => exact ⟨[], rfl, .nil⟩
  | @cons entry row entries rows hhead _ ih =>
    obtain ⟨entries', hentries, hplaced⟩ := ih hordered.2
    refine ⟨{ entry with keyOrder := keyOrderWord row.key prefixLen } :: entries', ?_,
      .cons ⟨⟨hhead.key, hhead.val, hhead.childCount, hhead.keyLen⟩, rfl⟩ hplaced⟩
    simp only [orderEntries, hhead.key, hordered.1, ok_bind, hentries, pure_eq]

theorem ordered_of_orderEntries {prefixLen : Nat} {entries' : List ReadEntryMeta}
    (h : Forall₂ (Points source data) entries rows)
    (horder : orderEntries source prefixLen previous entries = .ok entries') :
    OrderedFrom previous rows := by
  induction h generalizing previous entries' with
  | nil => trivial
  | @cons entry row entries rows hhead _ ih =>
    simp only [orderEntries, hhead.key, bind_eq_ok] at horder
    obtain ⟨_, hcheck, tail, htail, -⟩ := horder
    exact ⟨hcheck, ih htail⟩

theorem rowsPrefix_lt (h : Forall₂ (Points source data) entries rows) :
    rowsPrefix rows < 2 ^ 32 := by
  cases h with
  | nil => decide
  | @cons entry row entries rows hhead htail =>
    obtain ⟨last, lastRow, -, hlastRow, -⟩ := forall₂_getLast? (.cons hhead htail)
    have hlen := (readSlice_length hhead.key).2
    simp only [rowsPrefix, head?_cons, hlastRow]
    have := (Node.commonPrefixLen_le row.key lastRow.key).2
    have := hhead.keyLen
    omega

/-- The keys of the node but the last have together fewer bytes than a `u32` counts, if
they are prefix compressed. -/
def ArenaFits (n : Node) : Prop :=
  n.format.nodeLayout = .prefixCompressed → (n.keys.dropLast.map length).sum < 2 ^ 32

theorem arenaFits_nodeOf :
    ArenaFits (Node.nodeOf format leaf level rows) ↔
      (format.nodeLayout = .prefixCompressed → StartsFit 0 rows) := by
  simp only [ArenaFits, Node.nodeOf, startsFit_iff, Nat.zero_add]
  constructor
  · exact fun h hlayout _ => h hlayout
  · intro h hlayout
    cases rows with
    | nil => simp
    | cons row rows => exact h hlayout (by simp)

/-- What the reader of a node's bytes holds. -/
structure Reads (r : ReadNode) (n : Node) : Prop where
  leaf : r.leaf = n.leaf
  level : r.level = n.level
  format : r.format = n.format
  rows : ∃ rows, n = Node.nodeOf n.format n.leaf n.level rows ∧
    r.commonPrefixLen = rowsPrefix rows ∧
    Forall₂ (Placed r.source r.bytes r.commonPrefixLen) r.entries rows

theorem suffix_of_header {c1 c2 c3 c4 c5 : Bytes} {version : Nat}
    (hversion : readVarint (data.drop 4) = .ok (version, c1))
    (hformat : Node.readFormat data c1 = .ok (format, c2))
    (hleaf : Node.readLeafFlag c2 = .ok (leaf, c3))
    (hlevel : Node.readU8Varint "level" c3 = .ok (level, c4))
    (hcount : readVarint c4 = .ok (count, c5)) : c5 <:+ data := by
  have hc2 : c2 <:+ c1 := by
    simp only [Node.readFormat, Node.readBlock, bind_eq_ok, pure_eq,
      Except.ok.injEq, Prod.mk.injEq] at hformat
    obtain ⟨⟨fb, c⟩, ⟨⟨len, c'⟩, hlen, hbytes⟩, _, -, _, -, -, rfl⟩ := hformat
    exact (readBytes_suffix hbytes).trans (readVarint_suffix hlen)
  have hc3 : c3 <:+ c2 := by
    simp only [Node.readLeafFlag, bind_eq_ok] at hleaf
    obtain ⟨⟨flag, c⟩, hflag, hleaf⟩ := hleaf
    dsimp only at hleaf
    split at hleaf
    · cases hleaf
      exact readVarint_suffix hflag
    · cases hleaf
      exact readVarint_suffix hflag
    · cases hleaf
  have hc4 : c4 <:+ c3 := by
    simp only [Node.readU8Varint, bind_eq_ok] at hlevel
    obtain ⟨⟨value, c⟩, hvalue, hlevel⟩ := hlevel
    split at hlevel
    · cases hlevel
      exact readVarint_suffix hvalue
    · cases hlevel
  exact (readVarint_suffix hcount).trans (hc4.trans (hc3.trans (hc2.trans
    ((readVarint_suffix hversion).trans (drop_suffix 4 data)))))

/-- What the decoder accepts the reader accepts, if the arena fits. -/
theorem fromShared_of_fromBytes {n : Node} (hdata : data.length < 2 ^ 32)
    (h : Node.fromBytes data = .ok n) (hfits : ArenaFits n) :
    ∃ r, fromShared data = .ok r ∧ r.bytes = data ∧ Reads r n := by
  obtain ⟨hmagic, format, leaf, level, count, rows, c1, c2, c3, c4, c5, hversion, hformat, hleaf,
    hlevel, hcount, hempty, hrows, rfl⟩ := Node.fromBytes_eq_ok.mp h
  have hc5 := suffix_of_header hversion hformat hleaf hlevel hcount
  obtain ⟨entries, keys, hentries, hpoints, hordered⟩ :=
    readEntries_of_decodeRows hdata hc5 (arenaFits_nodeOf.mp hfits) hrows
  obtain ⟨entries', hentries', hplaced⟩ :=
    orderEntries_of_ordered (rowsPrefix rows) hpoints hordered
  have hsome : (!leaf && entries.isEmpty) = false := by
    cases hl : leaf with
    | true => rfl
    | false =>
      have hlen : entries.length = count :=
        hpoints.length_eq.trans (Node.decodeRows_decoded hrows).length
      cases entries with
      | nil => exact absurd hlen.symm (hempty hl)
      | cons entry entries => rfl
  have hpre : compactU32 (rowsPrefix rows) "common key prefix length" = .ok (rowsPrefix rows) :=
    compactU32_eq_ok.mpr ⟨rowsPrefix_lt hpoints, rfl⟩
  refine ⟨⟨data, keys, entries', rowsPrefix rows, leaf, level, format⟩, ?_, rfl, rfl, rfl, rfl,
    rows, rfl, rfl, hplaced⟩
  simp only [fromShared, hmagic, ne_eq, not_true_eq_false, if_false, hversion, ok_bind,
    hformat, hleaf, hlevel, hcount, hentries, commonPrefix_eq hpoints, hsome, Bool.false_eq_true,
    hentries', hpre, pure_eq]

/-- What the reader accepts the decoder accepts, and the arena fits. -/
theorem fromBytes_of_fromShared {r : ReadNode} (h : fromShared data = .ok r) :
    ∃ n, Node.fromBytes data = .ok n ∧ ArenaFits n ∧ r.bytes = data ∧ Reads r n := by
  rw [fromShared] at h
  split at h
  · cases h
  next hmagic =>
  simp only [bind_eq_ok] at h
  obtain ⟨⟨version, c1⟩, hversion, h⟩ := h
  split at h
  · cases h
  next hv =>
  simp only [bind_eq_ok] at h
  obtain ⟨⟨format, c2⟩, hformat, ⟨leaf, c3⟩, hleaf, ⟨level, c4⟩, hlevel, ⟨count, c5⟩, hcount,
    ⟨entries, keys, c6⟩, hentries, h⟩ := h
  split at h
  · cases h
  next hdone =>
  simp only [bind_eq_ok] at h
  obtain ⟨prefixLen, hpre, h⟩ := h
  split at h
  · cases h
  next hempty =>
  simp only [bind_eq_ok, pure_eq, Except.ok.injEq] at h
  obtain ⟨entries', hentries', _, hsmall, rfl⟩ := h
  simp only [ne_eq, not_not] at hmagic hv hdone
  subst hdone hv
  dsimp only at hformat hleaf hlevel hcount hentries hpre hempty hentries' hsmall
  have hc5 := suffix_of_header hversion hformat hleaf hlevel hcount
  obtain ⟨rows, hpoints, hfit, hdecode⟩ := decodeRows_of_readEntries hc5 hentries
  have hordered := ordered_of_orderEntries hpoints hentries'
  have hrows := hdecode hordered
  obtain rfl : prefixLen = rowsPrefix rows :=
    Except.ok.inj (hpre.symm.trans (commonPrefix_eq hpoints))
  obtain ⟨-, rfl⟩ := compactU32_eq_ok.mp hsmall
  obtain ⟨entries'', hentries'', hplaced⟩ :=
    orderEntries_of_ordered (rowsPrefix rows) hpoints hordered
  obtain rfl := Except.ok.inj (hentries'.symm.trans hentries'')
  have hsome : leaf = false → count ≠ 0 := by
    rintro rfl rfl
    have hlen : entries.length = 0 := hpoints.length_eq.trans (Node.decodeRows_decoded hrows).length
    exact hempty (by simp [length_eq_zero_iff.mp hlen])
  exact ⟨Node.nodeOf format leaf level rows,
    Node.fromBytes_eq_ok.mpr ⟨hmagic, format, leaf, level, count, rows, c1, c2, c3, c4, c5,
      hversion, hformat, hleaf, hlevel, hcount, hsome, hrows, rfl⟩,
    arenaFits_nodeOf.mpr hfit, rfl, rfl, rfl, rfl, rows, rfl, rfl, hplaced⟩

end ReadNode

end Prolly
