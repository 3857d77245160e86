import Mathlib.Data.List.Forall2
import Prolly.Node

/-!
# Prolly.NodeCodec

The compact node encoding is injective on well-shaped nodes of built-in layouts:
two such nodes with the same bytes are the same node. Every field is written by a
prefix code, so the two encodings are cancelled field by field; the format
descriptor comes first and fixes the layout in which the entries are read.

Together with a collision-free digest this makes content identifiers identify
nodes (`Digests.CollisionFree.eq_of_cid`).
-/

namespace Prolly

open PrefixCode
open List

/-! ### The format descriptor -/

variable {r s : Bytes} {a : TreeFormat}

theorem beBytes_append_inj {w m n : Nat} (hm : m < 256 ^ w) (hn : n < 256 ^ w)
    (h : beBytes w m ++ r = beBytes w n ++ s) : m = n ∧ r = s := by
  obtain ⟨h1, h2⟩ := append_inj h (by simp)
  exact ⟨bigEndian_inj hm hn h1, h2⟩

theorem be64_append_inj {m n : UInt64} (h : beBytes 8 m.toNat ++ r = beBytes 8 n.toNat ++ s) :
    m = n ∧ r = s := by
  obtain ⟨h1, h2⟩ := beBytes_append_inj (by simpa using m.toNat_lt) (by simpa using n.toNat_lt) h
  exact ⟨UInt64.toNat_inj.mp h1, h2⟩

theorem encodeRule_prefixCode : IsPrefixCode encodeRule := by
  intro a b r s h
  cases a <;> cases b <;> simp only [encodeRule, cons_append, cons.injEq] at h
  case hashThreshold.hashThreshold m n =>
    obtain ⟨h1, h2⟩ := beBytes_append_inj (by simpa using m.toNat_lt)
      (by simpa using n.toNat_lt) h.2
    exact ⟨by rw [UInt32.toNat_inj.mp h1], h2⟩
  case weibull.weibull m n =>
    obtain ⟨h1, h2⟩ := beBytes_append_inj (by simpa using m.toNat_lt)
      (by simpa using n.toNat_lt) h.2
    exact ⟨by rw [UInt32.toNat_inj.mp h1], h2⟩
  case rollingBuzHash.rollingBuzHash m n =>
    obtain ⟨h1, h2⟩ := beBytes_append_inj (by simpa using m.toNat_lt)
      (by simpa using n.toNat_lt) h.2
    exact ⟨by rw [UInt16.toNat_inj.mp h1], h2⟩
  all_goals exact absurd h.1 (by decide)

theorem encodeMeasure_injective : Function.Injective encodeMeasure := by
  intro a b h; revert h; cases a <;> cases b <;> decide

theorem encodeInput_injective : Function.Injective encodeInput := by
  intro a b h; revert h; cases a <;> cases b <;> decide

theorem encodeChunking_prefixCode : IsPrefixCode encodeChunking := by
  intro a b r s h
  simp only [encodeChunking, append_assoc, cons_append, nil_append, cons.injEq] at h
  obtain ⟨hmeasure, hinput, -, h⟩ := h
  obtain ⟨hrule, h⟩ := encodeRule_prefixCode _ _ _ _ h
  obtain ⟨hmin, h⟩ := be64_append_inj h
  obtain ⟨htarget, h⟩ := be64_append_inj h
  obtain ⟨hmax, h⟩ := be64_append_inj h
  obtain ⟨hseed, h⟩ := be64_append_inj h
  obtain ⟨hsalt, h⟩ := cons.inj h
  obtain ⟨hhard, h⟩ := be64_append_inj h
  refine ⟨?_, h⟩
  have hsalt' : a.levelSalt = b.levelSalt := by
    cases ha : a.levelSalt <;> cases hb : b.levelSalt <;> simp_all
  cases a; cases b
  simp_all [encodeMeasure_injective.eq_iff, encodeInput_injective.eq_iff]

theorem encodeLayout_append_inj {a b : NodeLayoutSpec} (ha : a.BuiltIn) (hb : b.BuiltIn)
    (h : encodeLayout a ++ r = encodeLayout b ++ s) : a = b ∧ r = s := by
  cases a <;> cases b <;> simp_all [encodeLayout, NodeLayoutSpec.BuiltIn]

theorem encodeValueEncoding_injective : Function.Injective encodeValueEncoding := by
  intro a b h
  cases a <;> cases b <;> simp_all [encodeValueEncoding]
  case custom.custom m n =>
    -- the descriptor ends here, so the name is what follows the eight length bytes
    exact strBytes_injective (append_inj h (by simp)).2

/-- A canonical descriptor determines its (built-in) format. -/
theorem canonicalBytes_inj {b : TreeFormat} {bytes : Bytes} (hla : a.nodeLayout.BuiltIn)
    (hlb : b.nodeLayout.BuiltIn) (ha : a.canonicalBytes = .ok bytes)
    (hb : b.canonicalBytes = .ok bytes) : a = b := by
  obtain ⟨-, -, ha⟩ := of_bind ha
  obtain ⟨-, -, hb⟩ := of_bind hb
  have h := (Except.ok.inj ha).trans (Except.ok.inj hb).symm
  simp only [append_assoc, append_cancel_left_eq] at h
  obtain ⟨hchunk, h⟩ := encodeChunking_prefixCode _ _ _ _ h
  obtain ⟨hlayout, h⟩ := encodeLayout_append_inj hla hlb h
  cases a; cases b
  simp_all [encodeValueEncoding_injective.eq_iff]

theorem canonicalBytes_ne_nil : a.canonicalBytes ≠ .ok [] := by
  intro h
  obtain ⟨-, -, h⟩ := of_bind h
  have := Except.ok.inj h
  simp [formatMagic] at this

namespace Node

variable {bytes : Bytes} {leaf : Bool} {xs ys : List Row} {layout : NodeLayoutSpec}
  {ks vs : List Bytes} {cs : List Nat} {n : Node}

theorem formatBytes_inj {a b : TreeFormat} (hla : a.nodeLayout.BuiltIn) (hlb : b.nodeLayout.BuiltIn)
    (ha : formatBytes a = .ok bytes) (hb : formatBytes b = .ok bytes) : a = b := by
  unfold formatBytes at ha hb
  split at ha <;> split at hb
  · simp_all
  · cases ha; exact absurd hb canonicalBytes_ne_nil
  · cases hb; exact absurd ha canonicalBytes_ne_nil
  · exact canonicalBytes_inj hla hlb ha hb

/-! ### Entries -/

theorem writeVarint_prefixCode : IsPrefixCode writeVarint := leb128_prefixCode

theorem writeBlock_prefixCode : IsPrefixCode writeBlock := leb128_prefixCode.length_prefixed

theorem writeCount_append_inj {m n : Nat} {r s : Bytes}
    (h : writeCount leaf m ++ r = writeCount leaf n ++ s) : (leaf = false → m = n) ∧ r = s := by
  cases leaf with
  | true => exact ⟨by simp, by simpa [writeCount] using h⟩
  | false =>
    obtain ⟨h1, h2⟩ := writeVarint_prefixCode _ _ _ _ h
    exact ⟨fun _ => h1, h2⟩

/-- Two encoded rows agree on everything a node of this kind stores. -/
def Row.Agree (leaf : Bool) (a b : Row) : Prop :=
  a.key = b.key ∧ a.val = b.val ∧ (leaf = false → a.count = b.count)

theorem take_commonPrefixLen (a b : Bytes) :
    b.take (commonPrefixLen a b) = a.take (commonPrefixLen a b) := by
  induction a generalizing b with
  | nil => simp [commonPrefixLen]
  | cons x a ih =>
    cases b with
    | nil => simp [commonPrefixLen]
    | cons y b =>
      by_cases h : x = y
      · subst h; simp [commonPrefixLen, ih]
      · simp [commonPrefixLen, h]

/-- With the previous key known, the shared length and the suffix give the key. -/
theorem key_eq_of_shared {previous k k' : Bytes}
    (hshared : commonPrefixLen previous k = commonPrefixLen previous k')
    (hsuffix : k.drop (commonPrefixLen previous k) = k'.drop (commonPrefixLen previous k')) :
    k = k' := by
  rw [← take_append_drop (commonPrefixLen previous k) k, hsuffix,
    take_commonPrefixLen, hshared, ← take_commonPrefixLen, take_append_drop]

theorem encodePrefixCompressed_inj (leaf : Bool) : ∀ (previous : Bytes) (xs ys : List Row),
    xs.length = ys.length →
    encodePrefixCompressed leaf previous xs = encodePrefixCompressed leaf previous ys →
    Forall₂ (Row.Agree leaf) xs ys
  | _, [], [], _, _ => .nil
  | previous, x :: xs, y :: ys, hlen, h => by
    simp only [encodePrefixCompressed, append_assoc] at h
    obtain ⟨hshared, h⟩ := writeVarint_prefixCode _ _ _ _ h
    obtain ⟨hsuffix, h⟩ := writeBlock_prefixCode _ _ _ _ h
    obtain ⟨hval, h⟩ := writeBlock_prefixCode _ _ _ _ h
    obtain ⟨hcount, h⟩ := writeCount_append_inj h
    have hkey := key_eq_of_shared hshared hsuffix
    rw [hkey] at h
    exact .cons ⟨hkey, hval, hcount⟩
      (encodePrefixCompressed_inj leaf _ xs ys (by simpa using hlen) h)

theorem encodePlain_inj (leaf : Bool) : ∀ (xs ys : List Row), xs.length = ys.length →
    encodePlain leaf xs = encodePlain leaf ys → Forall₂ (Row.Agree leaf) xs ys
  | [], [], _, _ => .nil
  | x :: xs, y :: ys, hlen, h => by
    simp only [encodePlain, append_assoc] at h
    obtain ⟨hkey, h⟩ := writeBlock_prefixCode _ _ _ _ h
    obtain ⟨hval, h⟩ := writeBlock_prefixCode _ _ _ _ h
    obtain ⟨hcount, h⟩ := writeCount_append_inj h
    exact .cons ⟨hkey, hval, hcount⟩ (encodePlain_inj leaf xs ys (by simpa using hlen) h)

/-- The payload is the concatenation of all keys and values. -/
theorem encodeOffsetTable_payload (leaf : Bool) (payload : Bytes) (xs : List Row) :
    (encodeOffsetTable leaf payload xs).2 = payload ++ xs.flatMap fun x => x.key ++ x.val := by
  induction xs generalizing payload with
  | nil => simp [encodeOffsetTable]
  | cons x xs ih => simp [encodeOffsetTable, ih]

/-- What the table alone says about two rows. -/
def Row.SameLengths (leaf : Bool) (a b : Row) : Prop :=
  a.key.length = b.key.length ∧ a.val.length = b.val.length ∧ (leaf = false → a.count = b.count)

theorem encodeOffsetTable_table_inj (leaf : Bool) :
    ∀ (p q : Bytes) (xs ys : List Row) (r s : Bytes), xs.length = ys.length →
      (encodeOffsetTable leaf p xs).1 ++ r = (encodeOffsetTable leaf q ys).1 ++ s →
      Forall₂ (Row.SameLengths leaf) xs ys ∧ r = s
  | _, _, [], [], _, _, _, h => ⟨.nil, by simpa [encodeOffsetTable] using h⟩
  | _, _, x :: xs, y :: ys, r, s, hlen, h => by
    simp only [encodeOffsetTable, append_assoc] at h
    obtain ⟨-, h⟩ := writeVarint_prefixCode _ _ _ _ h
    obtain ⟨hkey, h⟩ := writeVarint_prefixCode _ _ _ _ h
    obtain ⟨-, h⟩ := writeVarint_prefixCode _ _ _ _ h
    obtain ⟨hval, h⟩ := writeVarint_prefixCode _ _ _ _ h
    obtain ⟨hcount, h⟩ := writeCount_append_inj h
    obtain ⟨hrest, hrs⟩ := encodeOffsetTable_table_inj leaf _ _ xs ys r s (by simpa using hlen) h
    exact ⟨.cons ⟨hkey, hval, hcount⟩ hrest, hrs⟩

/-- A payload is cut along the lengths of the table. -/
theorem agree_of_payload (hlen : Forall₂ (Row.SameLengths leaf) xs ys)
    (h : (xs.flatMap fun x => x.key ++ x.val) = ys.flatMap fun y => y.key ++ y.val) :
    Forall₂ (Row.Agree leaf) xs ys := by
  induction hlen with
  | nil => exact .nil
  | cons hxy _ ih =>
    simp only [flatMap_cons, append_assoc] at h
    obtain ⟨hkey, h⟩ := append_inj h hxy.1
    obtain ⟨hval, h⟩ := append_inj h hxy.2.1
    exact .cons ⟨hkey, hval, hxy.2.2⟩ (ih h)

/-- Entries of one kind and number, encoded in one layout, are determined by their bytes. -/
theorem encodeRows_inj (hlen : xs.length = ys.length) (hx : encodeRows layout leaf xs = .ok bytes)
    (hy : encodeRows layout leaf ys = .ok bytes) : Forall₂ (Row.Agree leaf) xs ys := by
  cases layout with
  | prefixCompressed =>
    exact encodePrefixCompressed_inj leaf [] xs ys hlen
      (Except.ok.inj (hx.trans hy.symm))
  | plain => exact encodePlain_inj leaf xs ys hlen (Except.ok.inj (hx.trans hy.symm))
  | offsetTable =>
    have h := Except.ok.inj (hx.trans hy.symm)
    obtain ⟨hlens, hpay⟩ := encodeOffsetTable_table_inj leaf [] [] xs ys _ _ hlen h
    have hpay := writeBlock_prefixCode.injective hpay
    rw [encodeOffsetTable_payload, encodeOffsetTable_payload] at hpay
    exact agree_of_payload hlens (by simpa using hpay)
  | custom id parameters => cases hx

/-! ### Whole nodes -/

/-- The shape `from_bytes` enforces and every built node has: one value per key, and
one count per child of an internal node. -/
structure WellShaped (n : Node) : Prop where
  vals_length : n.vals.length = n.keys.length
  leaf_counts : n.leaf = true → n.childCounts = []
  internal_counts : n.leaf = false → n.childCounts.length = n.keys.length

theorem rows_length (h : vs.length = ks.length) : (rows ks vs cs).length = ks.length := by
  induction ks generalizing vs cs with
  | nil => simp [rows]
  | cons k ks ih =>
    cases vs with
    | nil => simp at h
    | cons v vs => simp [rows, ih (by simpa using h)]

theorem rows_keys_vals {ks' vs' : List Bytes} {cs' : List Nat} (hv : vs.length = ks.length)
    (hv' : vs'.length = ks'.length)
    (h : Forall₂ (Row.Agree leaf) (rows ks vs cs) (rows ks' vs' cs')) :
    ks = ks' ∧ vs = vs' ∧
      (leaf = false → cs.length = ks.length → cs'.length = ks'.length → cs = cs') := by
  induction ks generalizing ks' vs vs' cs cs' with
  | nil =>
    have hlen := h.length_eq
    rw [rows_length hv, rows_length hv'] at hlen
    obtain rfl : ks' = [] := length_eq_zero_iff.mp hlen.symm
    simp_all
  | cons k ks ih =>
    have hlen := h.length_eq
    rw [rows_length hv, rows_length hv'] at hlen
    cases ks' with
    | nil => simp at hlen
    | cons k' ks' =>
      cases vs with
      | nil => simp at hv
      | cons v vs =>
        cases vs' with
        | nil => simp at hv'
        | cons v' vs' =>
          simp only [rows, forall₂_cons, Row.Agree] at h
          obtain ⟨⟨rfl, rfl, hc⟩, h⟩ := h
          obtain ⟨rfl, rfl, hcs⟩ := ih (by simpa using hv) (by simpa using hv') h
          refine ⟨rfl, rfl, fun hl hcl hcl' => ?_⟩
          cases cs <;> cases cs' <;> simp_all

theorem tryToBytes_eq_ok :
    n.tryToBytes = .ok bytes ↔ ∃ fb body, formatBytes n.format = .ok fb ∧
      encodeRows n.format.nodeLayout n.leaf (rows n.keys n.vals n.childCounts) = .ok body ∧
      bytes = compactMagic ++ writeVarint compactVersion ++ writeBlock fb
        ++ writeVarint (if n.leaf then 1 else 0) ++ writeVarint n.level
        ++ writeVarint n.keys.length ++ body := by
  simp only [tryToBytes, bind_eq_ok, pure_eq, Except.ok.injEq]
  constructor
  · rintro ⟨fb, hfb, body, hbody, rfl⟩
    exact ⟨fb, body, hfb, hbody, rfl⟩
  · rintro ⟨fb, body, hfb, hbody, rfl⟩
    exact ⟨fb, hfb, body, hbody, rfl⟩

theorem builtIn_of_encodeRows (h : encodeRows layout leaf xs = .ok bytes) : layout.BuiltIn := by
  cases layout <;> simp_all [encodeRows, NodeLayoutSpec.BuiltIn]

/-- A node of a valid format with a built-in layout can be encoded. -/
theorem tryToBytes_ok (hformat : n.format.validate = .ok ())
    (hlayout : n.format.nodeLayout.BuiltIn) : ∃ bytes, n.tryToBytes = .ok bytes := by
  have hbytes : ∃ fb, formatBytes n.format = .ok fb := by
    rw [formatBytes]
    split
    · exact ⟨[], rfl⟩
    · simp [TreeFormat.canonicalBytes, hformat]
  have hrows : ∃ body, encodeRows n.format.nodeLayout n.leaf
      (rows n.keys n.vals n.childCounts) = .ok body := by
    cases hl : n.format.nodeLayout with
    | custom id parameters => rw [hl] at hlayout; exact hlayout.elim
    | _ => exact ⟨_, rfl⟩
  obtain ⟨fb, hfb⟩ := hbytes
  obtain ⟨body, hbody⟩ := hrows
  exact ⟨_, tryToBytes_eq_ok.mpr ⟨fb, body, hfb, hbody, rfl⟩⟩

/-- Equal bytes, equal nodes. -/
theorem tryToBytes_inj {m : Node} (hn : n.WellShaped) (hm : m.WellShaped)
    (h : n.tryToBytes = .ok bytes) (h' : m.tryToBytes = .ok bytes) : n = m := by
  obtain ⟨fb, body, hfb, hbody, rfl⟩ := tryToBytes_eq_ok.mp h
  obtain ⟨fb', body', hfb', hbody', heq⟩ := tryToBytes_eq_ok.mp h'
  simp only [append_assoc, append_cancel_left_eq] at heq
  obtain ⟨hfmt, heq⟩ := writeBlock_prefixCode _ _ _ _ heq
  obtain ⟨hleaf, heq⟩ := writeVarint_prefixCode _ _ _ _ heq
  obtain ⟨hlevel, heq⟩ := writeVarint_prefixCode _ _ _ _ heq
  obtain ⟨hlen, hbodies⟩ := writeVarint_prefixCode _ _ _ _ heq
  have hformat := formatBytes_inj (builtIn_of_encodeRows hbody) (builtIn_of_encodeRows hbody')
    hfb (hfmt ▸ hfb')
  have hleaf' : n.leaf = m.leaf := by
    cases hn' : n.leaf <;> cases hm' : m.leaf <;> simp_all
  rw [← hformat, ← hleaf', ← hbodies] at hbody'
  have hrows :=
    encodeRows_inj (by rw [rows_length hn.vals_length, rows_length hm.vals_length, hlen])
    hbody hbody'
  obtain ⟨hkeys, hvals, hcounts⟩ := rows_keys_vals hn.vals_length hm.vals_length hrows
  have hcounts' : n.childCounts = m.childCounts := by
    cases hl : n.leaf with
    | true => rw [hn.leaf_counts hl, hm.leaf_counts (hleaf' ▸ hl)]
    | false => exact hcounts hl (hn.internal_counts hl) (hm.internal_counts (hleaf' ▸ hl))
  cases n; cases m
  simp_all

end Node

end Prolly
