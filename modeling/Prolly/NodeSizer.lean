import Prolly.NodeRoundTrip
import Prolly.NodeSize

/-!
# Prolly.NodeSizer

The incremental size of a node (`EncodedNodeSizer`) is the length of its encoding. A sizer that has
been pushed rows since it was made or last reset carries their number, the length of their payload
and `Node::encoded_len` of the node that holds them (`EncodedNodeSizer.Exact`). One more row widens
the entry count, the payload length of an offset table and the body by what the encoder writes for
it, whatever rows came before.
-/

namespace Prolly

open List Option

theorem varintLen_mono {a b : Nat} (h : a ≤ b) : varintLen a ≤ varintLen b :=
  (varintLen_le_iff (varintLen_pos b)).mpr
    (h.trans_lt ((varintLen_le_iff (varintLen_pos b)).mp le_rfl))

namespace Node

/-! ### The length of a node made of rows -/

/-- The length of what precedes the entries. -/
def headerLen (formatBytes : Bytes) (leaf : Bool) (level count : Nat) : Nat :=
  compactMagic.length + varintLen compactVersion + varintLen formatBytes.length
    + formatBytes.length + varintLen (if leaf then 1 else 0) + varintLen level + varintLen count

/-- The length of the entries in a built-in layout. -/
def bodyLen (layout : NodeLayoutSpec) (leaf : Bool) (rs : List Row) : Nat :=
  match layout with
  | .prefixCompressed => prefixCompressedLen leaf [] rs 0
  | .plain => plainLen leaf rs 0
  | .offsetTable => offsetTableLen leaf 0 rs 0
  | .custom _ _ => 0

/-- The row as a node of its kind has it. -/
def Row.kept (leaf : Bool) (row : Row) : Row := { row with count := if leaf then 0 else row.count }

/-- What the encoder visits of a node made of rows. -/
theorem rows_ofRows (format : TreeFormat) (leaf : Bool) (level : Nat) (rs : List Row) :
    rows (ofRows format leaf level rs).keys (ofRows format leaf level rs).vals
      (ofRows format leaf level rs).childCounts = rs.map (Row.kept leaf) := by
  induction rs with
  | nil => rfl
  | cons r rs ih =>
    cases leaf with
    | false => exact congrArg (r :: ·) ih
    | true => exact congrArg (⟨r.key, r.val, 0⟩ :: ·) ih

variable (leaf : Bool)

theorem countLen_kept (row : Row) :
    countLen leaf (row.kept leaf).count = countLen leaf row.count := by
  cases leaf <;> rfl

theorem prefixCompressedLen_add (previous : Bytes) (rs : List Row) (len : Nat) :
    prefixCompressedLen leaf previous (rs.map (Row.kept leaf)) len =
      len + prefixCompressedLen leaf previous rs 0 := by
  rw [prefixCompressedLen_eq leaf rs, Nat.zero_add, ← prefixCompressedLen_eq]
  induction rs generalizing previous len with
  | nil => rfl
  | cons r rs ih =>
    rw [map_cons, prefixCompressedLen, prefixCompressedLen, countLen_kept]
    exact ih _ _

theorem plainLen_add (rs : List Row) (len : Nat) :
    plainLen leaf (rs.map (Row.kept leaf)) len = len + plainLen leaf rs 0 := by
  rw [plainLen_eq leaf rs, Nat.zero_add, ← plainLen_eq]
  induction rs generalizing len with
  | nil => rfl
  | cons r rs ih =>
    rw [map_cons, plainLen, plainLen, countLen_kept]
    exact ih _

theorem offsetTableLen_add (payload : Nat) (rs : List Row) (len : Nat) :
    offsetTableLen leaf payload (rs.map (Row.kept leaf)) len =
      len + offsetTableLen leaf payload rs 0 := by
  have hlen : ∀ (rs : List Row) (payload len : Nat),
      offsetTableLen leaf payload rs len = len + offsetTableLen leaf payload rs 0 := by
    intro rs
    induction rs with
    | nil => exact fun payload len => by simp [offsetTableLen]
    | cons r rs ih =>
      intro payload len
      rw [offsetTableLen, ih, offsetTableLen, ih _ (0 + _ + _)]
      omega
  rw [hlen]
  congr 1
  induction rs generalizing payload with
  | nil => rfl
  | cons r rs ih =>
    rw [map_cons, offsetTableLen, offsetTableLen, countLen_kept, hlen, hlen rs]
    exact congrArg _ (ih _)

theorem tryEncodedLen_ofRows {format : TreeFormat} {formatBytes : Bytes}
    (hlayout : format.nodeLayout.BuiltIn) (hbytes : Node.formatBytes format = .ok formatBytes)
    (leaf : Bool) (level : Nat) (rs : List Row) :
    (ofRows format leaf level rs).tryEncodedLen =
      .ok (headerLen formatBytes leaf level rs.length + bodyLen format.nodeLayout leaf rs) := by
  have hcount : (ofRows format leaf level rs).keys.length = rs.length := length_map ..
  unfold tryEncodedLen
  rw [rows_ofRows, hcount]
  show (Node.formatBytes format).bind _ = _
  rw [hbytes]
  show (match format.nodeLayout with
    | .prefixCompressed => Except.ok (prefixCompressedLen leaf [] _ (headerLen _ _ _ _))
    | .plain => Except.ok (plainLen leaf _ (headerLen _ _ _ _))
    | .offsetTable => Except.ok (offsetTableLen leaf 0 _ (headerLen _ _ _ _))
    | .custom id _ => Except.error (noCodec id)) = _
  cases hformat : format.nodeLayout with
  | prefixCompressed => exact congrArg _ (prefixCompressedLen_add ..)
  | plain => exact congrArg _ (plainLen_add ..)
  | offsetTable => exact congrArg _ (offsetTableLen_add ..)
  | custom id parameters =>
    rw [hformat] at hlayout
    exact hlayout.elim

/-! ### One more row -/

/-- The bytes of the keys and values. -/
def payloadLen (rs : List Row) : Nat := (rs.map fun r => r.key.length + r.val.length).sum

theorem payloadLen_cons (r : Row) (rs : List Row) :
    payloadLen (r :: rs) = r.key.length + r.val.length + payloadLen rs := by
  simp [payloadLen]

theorem payloadLen_concat (rs : List Row) (row : Row) :
    payloadLen (rs ++ [row]) = payloadLen rs + row.key.length + row.val.length := by
  simp [payloadLen, Nat.add_assoc]

/-- What a row adds to the entries of a node, behind entries that end with the key `previous` and
have a payload of `payload` bytes. -/
def entryLen (layout : NodeLayoutSpec) (leaf : Bool) (previous : Option Bytes) (payload : Nat)
    (row : Row) : Nat :=
  match layout with
  | .prefixCompressed =>
    let shared := (previous.map fun previous => commonPrefixLen previous row.key).getD 0
    varintLen shared + varintLen (row.key.length - shared) + (row.key.length - shared)
      + varintLen row.val.length + row.val.length + countLen leaf row.count
  | .plain =>
    varintLen row.key.length + row.key.length + varintLen row.val.length + row.val.length
      + countLen leaf row.count
  | .offsetTable =>
    varintLen payload + varintLen row.key.length + varintLen (payload + row.key.length)
      + varintLen row.val.length + countLen leaf row.count
      + (varintLen (payload + row.key.length + row.val.length) - varintLen payload)
      + row.key.length + row.val.length
  | .custom _ _ => 0

theorem prefixCompressedLen_concat (previous : Bytes) (rs : List Row) (row : Row) (len : Nat) :
    prefixCompressedLen leaf previous (rs ++ [row]) len = prefixCompressedLen leaf previous rs len +
      entryLen .prefixCompressed leaf (some (((rs.map Row.key).getLast?).getD previous)) 0 row := by
  induction rs generalizing previous len with
  | nil =>
    simp only [nil_append, prefixCompressedLen, entryLen, map_nil, List.getLast?_nil,
      getD_none, map_some, getD_some]
    omega
  | cons r rs ih =>
    rw [cons_append, prefixCompressedLen, ih, prefixCompressedLen, map_cons,
      List.getLast?_cons, getD_some]

theorem plainLen_concat (rs : List Row) (row : Row) (len : Nat) :
    plainLen leaf (rs ++ [row]) len = plainLen leaf rs len + entryLen .plain leaf none 0 row := by
  induction rs generalizing len with
  | nil =>
    simp only [nil_append, plainLen, entryLen]
    omega
  | cons r rs ih => rw [cons_append, plainLen, ih, plainLen]

theorem offsetTableLen_concat (payload : Nat) (rs : List Row) (row : Row) (len : Nat)
    (hmax : payload + payloadLen (rs ++ [row]) ≤ u64Max) :
    offsetTableLen leaf payload (rs ++ [row]) len = offsetTableLen leaf payload rs len +
      entryLen .offsetTable leaf none (payload + payloadLen rs) row := by
  induction rs generalizing payload len with
  | nil =>
    have hzero : payloadLen [] = 0 := rfl
    rw [payloadLen_concat, hzero] at hmax
    have hkey : saturatingAdd payload row.key.length = payload + row.key.length :=
      saturatingAdd_eq (by omega)
    have hval : saturatingAdd (payload + row.key.length) row.val.length =
        payload + row.key.length + row.val.length := saturatingAdd_eq (by omega)
    have hmono : varintLen payload ≤ varintLen (payload + row.key.length + row.val.length) :=
      varintLen_mono (by omega)
    simp only [nil_append, offsetTableLen, entryLen, hzero, Nat.add_zero, hkey, hval]
    omega
  | cons r rs ih =>
    rw [cons_append, payloadLen_cons] at hmax
    have hkey : saturatingAdd payload r.key.length = payload + r.key.length :=
      saturatingAdd_eq (by omega)
    have hval : saturatingAdd (payload + r.key.length) r.val.length =
        payload + r.key.length + r.val.length := saturatingAdd_eq (by omega)
    rw [cons_append, offsetTableLen, offsetTableLen, hkey, hval, ih _ _ (by omega), payloadLen_cons]
    simp only [Nat.add_assoc]

theorem lt_offsetTableLen (payload : Nat) (rs : List Row) (len : Nat) :
    saturatingAdd payload (payloadLen rs) < offsetTableLen leaf payload rs len := by
  induction rs generalizing payload len with
  | nil =>
    have hpos := varintLen_pos payload
    have hle := saturatingAdd_le payload 0
    simp only [offsetTableLen, payloadLen, map_nil, sum_nil]
    omega
  | cons r rs ih =>
    rw [offsetTableLen]
    refine lt_of_le_of_lt ?_ (ih _ _)
    rw [payloadLen_cons]
    simp only [saturatingAdd]
    omega

/-- The entries with one more, as long as the payload of an offset table is counted in 64 bits. -/
theorem bodyLen_concat {layout : NodeLayoutSpec} (hlayout : layout.BuiltIn) (leaf : Bool)
    (rs : List Row) (row : Row)
    (hmax : layout = .offsetTable → payloadLen (rs ++ [row]) ≤ u64Max) :
    bodyLen layout leaf (rs ++ [row]) = bodyLen layout leaf rs +
      entryLen layout leaf (rs.map Row.key).getLast? (payloadLen rs) row := by
  cases layout with
  | prefixCompressed =>
    refine (prefixCompressedLen_concat leaf [] rs row 0).trans ?_
    cases (rs.map Row.key).getLast? <;> rfl
  | plain => exact plainLen_concat leaf rs row 0
  | offsetTable =>
    have hconcat := offsetTableLen_concat leaf 0 rs row 0 (by simpa using hmax rfl)
    rw [Nat.zero_add] at hconcat
    exact hconcat
  | custom id parameters => exact hlayout.elim

/-- The payload of an offset table is part of the entries. -/
theorem payloadLen_le_of_bodyLen {leaf : Bool} {rs : List Row}
    (h : bodyLen .offsetTable leaf rs ≤ u64Max) : payloadLen rs ≤ u64Max := by
  have hlt := (lt_offsetTableLen leaf 0 rs 0).trans_le h
  unfold saturatingAdd at hlt
  omega

end Node

namespace EncodedNodeSizer

open Node (bodyLen ofRows headerLen entryLen payloadLen)

/-! ### A sizer that has been pushed rows -/

/-- What is done to a sizer. -/
inductive Op where
  | push (row : Node.Row)
  | reset

/-- `size_after` and `push_sized` for one more row of a node, or `reset`. The previous key is that
of the row before. -/
def perform : EncodedNodeSizer × List Node.Row → Op → Result (EncodedNodeSizer × List Node.Row)
  | (s, rows), .push row => do
      let size ← s.sizeAfter (rows.map Node.Row.key).getLast? row.key row.val
        (if s.leaf then none else some row.count)
      return (s.pushSized row.key row.val size, rows ++ [row])
  | (s, _), .reset => .ok (s.reset, [])

variable {s : EncodedNodeSizer} {format : TreeFormat} {formatBytes : Bytes} {leaf : Bool}
  {level : Nat} {rows : List Node.Row} {row : Node.Row} {s' : EncodedNodeSizer}
  {rows' : List Node.Row}

theorem sizeAfter_eq (hlayout : s.format.nodeLayout.BuiltIn) (previous : Option Bytes)
    (row : Node.Row) :
    s.sizeAfter previous row.key row.val (if s.leaf then none else some row.count) =
      if s.leaf = true ∨ 0 < row.count then
        checkedU64 (s.size + (varintLen (s.count + 1) - varintLen s.count)
          + entryLen s.format.nodeLayout s.leaf previous s.payloadLen row)
      else .error .invalidNode := by
  unfold sizeAfter
  cases hleaf : s.leaf with
  | true =>
    simp only [if_true, validateChildCount, ok_bind, true_or, map_none, getD_none]
    cases hformat : s.format.nodeLayout with
    | custom id parameters =>
      rw [hformat] at hlayout
      exact hlayout.elim
    | prefixCompressed | plain | offsetTable => rfl
  | false =>
    simp only [Bool.false_eq_true, if_false, false_or]
    cases hcount : row.count with
    | zero => rfl
    | succ n =>
      simp only [validateChildCount, ok_bind, Nat.succ_pos, if_true, map_some, getD_some]
      cases hformat : s.format.nodeLayout with
      | custom id parameters =>
        rw [hformat] at hlayout
        exact hlayout.elim
      | prefixCompressed | plain | offsetTable =>
        simp only [entryLen, Node.countLen, hcount, Bool.false_eq_true, if_false]

/-- The sizer is the one of a node that holds the rows. -/
structure Exact (format : TreeFormat) (formatBytes : Bytes) (leaf : Bool) (level : Nat)
    (s : EncodedNodeSizer) (rows : List Node.Row) : Prop where
  format_eq : s.format = format
  leaf_eq : s.leaf = leaf
  builtIn : format.nodeLayout.BuiltIn
  bytes : Node.formatBytes format = .ok formatBytes
  count : s.count = rows.length
  payload : s.payloadLen = Node.payloadLen rows
  size : s.size = Node.headerLen formatBytes leaf level rows.length +
    Node.bodyLen format.nodeLayout leaf rows
  empty : s.emptySize = Node.headerLen formatBytes leaf level 0 +
    Node.bodyLen format.nodeLayout leaf []

/-- A sizer starts with the length of the empty node. -/
theorem new_eq_empty (hvalid : format.validate = .ok ()) (hlayout : format.nodeLayout.BuiltIn)
    (hbytes : Node.formatBytes format = .ok formatBytes) :
    new format leaf level = (checkedU64 (headerLen formatBytes leaf level 0 +
      bodyLen format.nodeLayout leaf [])).map fun size =>
        { format, leaf, level, size, emptySize := size } := by
  have hmap : ∀ (x : Result Nat) (f : Nat → EncodedNodeSizer),
      (x.bind fun size => .ok (f size)) = x.map f := by
    intro x f
    cases x <;> rfl
  rw [new, hvalid, ok_bind]
  cases hformat : format.nodeLayout with
  | custom id parameters =>
    rw [hformat] at hlayout
    exact hlayout.elim
  | prefixCompressed | plain | offsetTable =>
    rw [hbytes]
    exact hmap _ _

theorem exact_new (h : new format leaf level = .ok s) :
    ∃ formatBytes, s.Exact format formatBytes leaf level [] := by
  obtain ⟨_, hvalid, hnew⟩ := of_bind h
  have hlayout : format.nodeLayout.BuiltIn := by
    cases hformat : format.nodeLayout with
    | custom id parameters =>
      rw [hformat] at hnew
      cases hnew
    | _ => trivial
  obtain ⟨bytes, hbytes⟩ := Node.formatBytes_ok hvalid
  rw [new_eq_empty hvalid hlayout hbytes] at h
  obtain ⟨size, hsize, rfl⟩ := map_eq_ok.mp h
  obtain ⟨rfl, -⟩ := checkedU64_eq_ok.mp hsize
  exact ⟨bytes, rfl, rfl, hlayout, hbytes, rfl, rfl, rfl, rfl⟩

section Exact

variable (h : s.Exact format formatBytes leaf level rows)
include h

theorem Exact.encodedLen : (ofRows format leaf level rows).tryEncodedLen = .ok s.size := by
  rw [Node.tryEncodedLen_ofRows h.builtIn h.bytes, h.size]

theorem Exact.reset : s.reset.Exact format formatBytes leaf level [] where
  format_eq := h.format_eq
  leaf_eq := h.leaf_eq
  builtIn := h.builtIn
  bytes := h.bytes
  count := rfl
  payload := rfl
  size := h.empty
  empty := h.empty

/-- The size with one more row is the length of the node that holds it too, if that is a `u64`. -/
theorem Exact.sizeAfter (size : Nat) :
    s.sizeAfter (rows.map Node.Row.key).getLast? row.key row.val
        (if s.leaf then none else some row.count) = .ok size ↔
      (leaf = true ∨ 0 < row.count) ∧ size ≤ u64Max ∧
        (ofRows format leaf level (rows ++ [row])).tryEncodedLen = .ok size := by
  have hwidth : varintLen rows.length ≤ varintLen (rows.length + 1) := varintLen_mono (by omega)
  rw [sizeAfter_eq (h.format_eq ▸ h.builtIn), h.format_eq, h.leaf_eq, h.count, h.payload, h.size,
    Node.tryEncodedLen_ofRows h.builtIn h.bytes, length_append, length_singleton]
  -- both sides count the same, unless the payload of an offset table saturates
  have hconcat : ∀ size ≤ u64Max,
      headerLen formatBytes leaf level rows.length + bodyLen format.nodeLayout leaf rows
          + (varintLen (rows.length + 1) - varintLen rows.length)
          + entryLen format.nodeLayout leaf (rows.map Node.Row.key).getLast?
            (Node.payloadLen rows) row = size ↔
        Node.headerLen formatBytes leaf level (rows.length + 1)
          + Node.bodyLen format.nodeLayout leaf (rows ++ [row]) = size := by
    intro size hsize
    by_cases hmax : format.nodeLayout = .offsetTable → Node.payloadLen (rows ++ [row]) ≤ u64Max
    · rw [Node.bodyLen_concat h.builtIn leaf rows row hmax]
      unfold Node.headerLen
      omega
    · obtain ⟨hlayout, hlarge⟩ := Classical.not_imp.mp hmax
      have hbody : ¬ bodyLen .offsetTable leaf (rows ++ [row]) ≤ u64Max :=
        fun hbody => hlarge (Node.payloadLen_le_of_bodyLen hbody)
      rw [Node.payloadLen_concat] at hlarge
      rw [hlayout]
      have hentry : bodyLen .offsetTable leaf rows ≤ u64Max →
          Node.payloadLen rows + row.key.length + row.val.length ≤
            Node.bodyLen .offsetTable leaf rows + Node.entryLen .offsetTable leaf
              (rows.map Node.Row.key).getLast? (Node.payloadLen rows) row := by
        intro hrows
        have hlt := Node.lt_offsetTableLen leaf 0 rows 0
        have hle := Node.payloadLen_le_of_bodyLen hrows
        unfold saturatingAdd at hlt
        simp only [entryLen, bodyLen]
        omega
      omega
  by_cases hvalid : leaf = true ∨ 0 < row.count
  · rw [if_pos hvalid, checkedU64_eq_ok]
    constructor
    · rintro ⟨rfl, hmax⟩
      exact ⟨hvalid, hmax, congrArg _ ((hconcat _ hmax).mp rfl)⟩
    · rintro ⟨-, hmax, heq⟩
      have htotal := (hconcat size hmax).mpr (Except.ok.inj heq)
      exact ⟨htotal, htotal ▸ hmax⟩
  · rw [if_neg hvalid]
    constructor
    · intro herror
      cases herror
    · rintro ⟨h, -⟩
      exact absurd h hvalid

theorem Exact.pushSized {size : Nat}
    (hsize : (ofRows format leaf level (rows ++ [row])).tryEncodedLen = .ok size) :
    (s.pushSized row.key row.val size).Exact format formatBytes leaf level (rows ++ [row]) where
  format_eq := h.format_eq
  leaf_eq := h.leaf_eq
  builtIn := h.builtIn
  bytes := h.bytes
  count := by
    rw [length_append, length_singleton, ← h.count]
    rfl
  payload := by
    rw [Node.payloadLen_concat, ← h.payload]
    rfl
  size := by
    rw [Node.tryEncodedLen_ofRows h.builtIn h.bytes] at hsize
    exact (Except.ok.inj hsize).symm
  empty := h.empty

/-- One operation. -/
theorem Exact.perform {op : Op}
    (hop : perform (s, rows) op = .ok (s', rows')) :
    s'.Exact format formatBytes leaf level rows' := by
  cases op with
  | push row =>
    obtain ⟨size, hsize, hop⟩ := of_bind hop
    cases hop
    exact h.pushSized ((h.sizeAfter size).mp hsize).2.2
  | reset =>
    cases hop
    exact h.reset

/-- Any number of operations. -/
theorem Exact.performAll {ops : List Op}
    (hops : ops.foldlM EncodedNodeSizer.perform (s, rows) = .ok (s', rows')) :
    s'.Exact format formatBytes leaf level rows' := by
  induction ops generalizing s rows with
  | nil =>
    cases hops
    exact h
  | cons op ops ih =>
    rw [foldlM_cons] at hops
    obtain ⟨⟨s1, rows1⟩, hop, hops⟩ := of_bind hops
    exact ih (h.perform hop) hops

end Exact

/-- A sizer reports the encoded length of the node that holds what has been pushed since it was made
or last reset. It accepts one more entry exactly when the length with it is a `u64` (and a child is
not empty), and then reports that length. -/
theorem size_eq_encodedLen {s0 : EncodedNodeSizer} (hnew : new format leaf level = .ok s0)
    {ops : List Op} (hops : ops.foldlM perform (s0, []) = .ok (s, rows)) :
    (ofRows format leaf level rows).tryEncodedLen = .ok s.size ∧
      ∀ row size, s.sizeAfter (rows.map Node.Row.key).getLast? row.key row.val
          (if leaf then none else some row.count) = .ok size ↔
        (leaf = true ∨ 0 < row.count) ∧ size ≤ u64Max ∧
          (ofRows format leaf level (rows ++ [row])).tryEncodedLen = .ok size := by
  obtain ⟨formatBytes, hexact⟩ := exact_new hnew
  have hexact := hexact.performAll hops
  obtain rfl := hexact.leaf_eq
  exact ⟨hexact.encodedLen, fun row size => hexact.sizeAfter size⟩

/-- Two rows of the default format behind a reset, the second one sharing a byte with the first. -/
theorem size_eq_encodedLen_reset :
    (ofRows {} true 0 [⟨[1], [7], 0⟩, ⟨[1, 2], [], 0⟩]).tryEncodedLen = .ok 18 := by
  have hnew : new {} true 0 =
      .ok { format := {}, leaf := true, level := 0, size := 9, emptySize := 9 } := by decide +kernel
  have hops : [Op.push ⟨[9], [], 0⟩, .reset, .push ⟨[1], [7], 0⟩, .push ⟨[1, 2], [], 0⟩].foldlM
      perform ({ format := {}, leaf := true, level := 0, size := 9, emptySize := 9 }, []) =
      .ok ({ format := {}, leaf := true, level := 0, count := 2, size := 18, emptySize := 9,
             payloadLen := 4 }, [⟨[1], [7], 0⟩, ⟨[1, 2], [], 0⟩]) := rfl
  exact (size_eq_encodedLen hnew hops).1

end EncodedNodeSizer

end Prolly
