import Prolly.NodeSize
import Prolly.ReadNode

/-!
# Prolly.ReadSearch

Searching a `ReadNode`, and the agreement of the two node decoders.

All keys of a node share the common prefix of the first and the last one, since
they lie between them. Behind it the next eight bytes, padded with zeros, are
compared first: a smaller order word means a smaller key (`lt_of_keyOrderWord_lt`),
whatever zeros the keys contain; equal words say nothing and the keys are compared.
-/

namespace Prolly

open PrefixCode (ofBigEndian ofBigEndian_cons ofBigEndian_lt)
open List

/-! ### Order words -/

variable {x y : Bytes} (width : Nat)

theorem cons_le_cons {a b : UInt8} : a :: x ≤ b :: y ↔ a < b ∨ a = b ∧ x ≤ y := by
  rw [← not_lt, cons_lt_cons_iff, ← not_lt]
  push Not
  constructor
  · rintro ⟨hab, himp⟩
    rcases hab.lt_or_eq with hlt | rfl
    · exact .inl hlt
    · exact .inr ⟨rfl, himp rfl⟩
  · rintro (hlt | ⟨rfl, hle⟩)
    · exact ⟨hlt.le, fun h => absurd h hlt.ne'⟩
    · exact ⟨le_rfl, fun _ => hle⟩

/-- The first `width` bytes, padded with zeros. -/
def padded (width : Nat) (bytes : Bytes) : Bytes :=
  bytes.take width ++ replicate (width - (bytes.take width).length) 0

theorem padded_cons (b : UInt8) (bytes : Bytes) :
    padded (width + 1) (b :: bytes) = b :: padded width bytes := by
  simp [padded]

theorem length_padded (bytes : Bytes) : (padded width bytes).length = width := by
  simp [padded]

theorem ofBigEndian_padded_nil : ofBigEndian (padded width []) = 0 := by
  induction width with
  | zero => rfl
  | succ width ih =>
    have hpad : padded (width + 1) [] = 0 :: padded width [] := by
      simp [padded, replicate_succ]
    rw [hpad, ofBigEndian_cons, ih]
    simp

/-- Padding keeps the order, weakly: a shorter string may end where the other has
zeros. -/
theorem ofBigEndian_padded_mono (h : x ≤ y) :
    ofBigEndian (padded width x) ≤ ofBigEndian (padded width y) := by
  induction width generalizing x y with
  | zero => simp [padded]
  | succ width ih =>
    cases x with
    | nil => rw [ofBigEndian_padded_nil]; exact Nat.zero_le _
    | cons a x =>
      cases y with
      | nil => exact absurd h (by simp)
      | cons b y =>
        rw [padded_cons, padded_cons, ofBigEndian_cons, ofBigEndian_cons, length_padded,
          length_padded]
        rcases cons_le_cons.mp h with hlt | ⟨rfl, hle⟩
        · have hx := ofBigEndian_lt (padded width x)
          rw [length_padded] at hx
          have hbytes : a.toNat + 1 ≤ b.toNat := UInt8.lt_iff_toNat_lt.mp hlt
          have := Nat.mul_le_mul_left (256 ^ width) hbytes
          rw [Nat.mul_add] at this
          omega
        · exact Nat.add_le_add_left (ih hle) _

namespace ReadNode

variable {a b k key : Bytes} {prefixLen : Nat} {keys : List Bytes} {n : Node}

/-- Behind a common prefix, a smaller order word means a smaller key. -/
theorem lt_of_keyOrderWord_lt (hcommon : a.take prefixLen = b.take prefixLen)
    (h : keyOrderWord a prefixLen < keyOrderWord b prefixLen) : a < b := by
  have hdrop : a.drop prefixLen < b.drop prefixLen := by
    by_contra hle
    exact absurd (ofBigEndian_padded_mono 8 (not_lt.mp hle)) (not_le.mpr h)
  rw [← take_append_drop prefixLen a, ← take_append_drop prefixLen b, hcommon]
  exact append_left_lt hdrop

/-! ### The common prefix -/

theorem take_commonPrefixLen_between (hak : a ≤ k) (hkb : k ≤ b) :
    k.take (Node.commonPrefixLen a b) = a.take (Node.commonPrefixLen a b) := by
  induction a generalizing b k with
  | nil => simp [Node.commonPrefixLen]
  | cons x a ih =>
    cases b with
    | nil => simp [Node.commonPrefixLen]
    | cons y b =>
      by_cases hxy : x = y
      · subst hxy
        cases k with
        | nil => exact absurd hak (by simp)
        | cons z k =>
          rcases cons_le_cons.mp hak with hlt | ⟨rfl, htail⟩
          · rcases cons_le_cons.mp hkb with hlt' | ⟨rfl, -⟩
            · exact absurd (lt_trans hlt hlt') (lt_irrefl _)
            · exact absurd hlt (lt_irrefl _)
          · rcases cons_le_cons.mp hkb with hlt' | ⟨-, hkb⟩
            · exact absurd hlt' (lt_irrefl _)
            · simp [Node.commonPrefixLen, ih htail hkb]
      · simp [Node.commonPrefixLen, hxy]

/-! ### What a search returns -/

/-- The position of the key, or the position where it would be inserted. -/
def Finds (keys : List Bytes) (key : Bytes) : Except Nat Nat → Prop
  | .ok index => keys[index]? = some key
  | .error index => index ≤ keys.length ∧ (∀ k ∈ keys.take index, k < key) ∧
      ∀ k ∈ keys.drop index, key < k

/-- Sorted keys leave one answer. -/
theorem Finds.unique {a b : Except Nat Nat} (hsorted : keys.Pairwise (· < ·))
    (ha : Finds keys key a) (hb : Finds keys key b) : a = b := by
  have hmissing : ∀ {i j : Nat}, keys[i]? = some key → Finds keys key (.error j) → False := by
    intro i j hi hj
    have hmem : key ∈ keys.take j ++ keys.drop j := by
      rw [take_append_drop]
      exact mem_of_getElem? hi
    rcases mem_append.mp hmem with h | h
    · exact absurd (hj.2.1 key h) (lt_irrefl _)
    · exact absurd (hj.2.2 key h) (lt_irrefl _)
  have hpoints : ∀ {i j : Nat}, Finds keys key (.error i) → Finds keys key (.error j) → i ≤ j := by
    intro i j hi hj
    by_contra hlt
    have hbound : j < keys.length := by have := hi.1; omega
    have hbelow : keys[j] < key := hi.2.1 _ (mem_take_iff_getElem.mpr ⟨j, by omega, rfl⟩)
    have habove : key < keys[j] := by
      refine hj.2.2 _ ?_
      rw [drop_eq_getElem_cons hbound]
      exact mem_cons_self
    exact absurd (hbelow.trans habove) (lt_irrefl _)
  cases a with
  | ok i =>
    cases b with
    | ok j =>
      obtain ⟨hi, hgi⟩ := List.getElem?_eq_some_iff.mp ha
      obtain ⟨hj, hgj⟩ := List.getElem?_eq_some_iff.mp hb
      have hnodup : keys.Nodup := hsorted.imp fun h => ne_of_lt h
      rw [(hnodup.getElem_inj_iff).mp (hgi.trans hgj.symm)]
    | error j => exact (hmissing ha hb).elim
  | error i =>
    cases b with
    | ok j => exact (hmissing hb ha).elim
    | error j => rw [le_antisymm (hpoints ha hb) (hpoints hb ha)]

theorem search_finds (hsorted : n.keys.Pairwise (· < ·)) (key : Bytes) :
    Finds n.keys key (n.search key) := by
  obtain ⟨below, rest, hkeys, htake, hbelow, hrest⟩ : ∃ below rest, n.keys = below ++ rest ∧
      n.keys.takeWhile (· < key) = below ∧ (∀ k ∈ below, k < key) ∧
      ∀ k ∈ rest.head?, ¬ k < key := by
    refine ⟨n.keys.takeWhile (· < key), n.keys.dropWhile (· < key),
      takeWhile_append_dropWhile.symm, rfl, fun k hk => ?_, fun k hk => ?_⟩
    · simpa using mem_takeWhile_imp hk
    · have := head?_dropWhile_not (fun k => decide (k < key)) n.keys
      rw [Option.mem_def.mp hk] at this
      simpa using this
  have habove : ∀ k ∈ rest.tail, key < k := by
    intro k hk
    cases rest with
    | nil => cases hk
    | cons first rest =>
      rw [hkeys] at hsorted
      have hfirst := (pairwise_cons.mp (pairwise_append.mp hsorted).2.1).1 k hk
      exact lt_of_le_of_lt (not_lt.mp (hrest first rfl)) hfirst
  simp only [Node.search, htake]
  have hat : n.keys[below.length]? = rest.head? := by
    rw [hkeys, getElem?_append_right le_rfl, Nat.sub_self, head?_eq_getElem?]
  split
  · next hfound => exact hfound
  · next hmissing =>
    refine ⟨by rw [hkeys, length_append]; omega, ?_, ?_⟩
    · rw [hkeys, take_left]
      exact hbelow
    · rw [hkeys, drop_left]
      rw [hat] at hmissing
      intro k hk
      cases rest with
      | nil => cases hk
      | cons first rest =>
        rcases mem_cons.mp hk with rfl | hk
        · exact lt_of_le_of_ne (not_lt.mp (hrest k rfl)) fun h => hmissing (by rw [h]; rfl)
        · exact habove k hk

/-! ### The binary search -/

variable {source data : Bytes} {entries : List ReadEntryMeta} {rows : List Node.DecodedRow}
  {mid : Nat} {first : Node.DecodedRow} {r : ReadNode} (len count : Nat)

abbrev keysOf (rows : List Node.DecodedRow) : List Bytes := rows.map Node.DecodedRow.key

theorem placed_at (h : Forall₂ (Placed source data prefixLen) entries rows)
    (hmid : mid < rows.length) :
    ∃ entry row, entries[mid]? = some entry ∧ rows[mid]? = some row ∧
      Placed source data prefixLen entry row := by
  have hmid' : mid < entries.length := by rw [h.length_eq]; exact hmid
  exact ⟨entries[mid], rows[mid], getElem?_eq_getElem hmid', getElem?_eq_getElem hmid,
    (forall₂_iff_get.mp h).2 mid hmid' hmid⟩

/-- A key at an index, in a sorted list, has the ones before below it. -/
theorem lt_take_of_lt (hsorted : keys.Pairwise (· < ·)) (hk : keys[mid]? = some k) (hlt : k < key) :
    ∀ x ∈ keys.take (mid + 1), x < key := by
  obtain ⟨hmid, rfl⟩ := List.getElem?_eq_some_iff.mp hk
  intro x hx
  obtain ⟨i, hi, rfl⟩ := mem_take_iff_getElem.mp hx
  rcases Nat.lt_or_ge i mid with him | him
  · exact (pairwise_iff_getElem.mp hsorted i mid _ _ him).trans hlt
  · obtain rfl : i = mid := by omega
    exact hlt

theorem lt_drop_of_lt (hsorted : keys.Pairwise (· < ·)) (hk : keys[mid]? = some k) (hlt : key < k) :
    ∀ x ∈ keys.drop mid, key < x := by
  obtain ⟨hmid, rfl⟩ := List.getElem?_eq_some_iff.mp hk
  intro x hx
  rw [drop_eq_getElem_cons hmid] at hx
  rcases mem_cons.mp hx with rfl | hx
  · exact hlt
  · obtain ⟨i, hi, rfl⟩ := mem_drop_iff_getElem.mp hx
    exact hlt.trans (pairwise_iff_getElem.mp hsorted mid _ _ _ (by omega))

/-- The loop keeps smaller keys before `left` and larger ones from `right` on. -/
theorem searchLoop_finds {fuel left right : Nat}
    (hplaced : Forall₂ (Placed source data prefixLen) entries rows)
    (hsorted : (keysOf rows).Pairwise (· < ·))
    (hcommon : ∀ k ∈ keysOf rows, k.take prefixLen = key.take prefixLen)
    (hfuel : right - left ≤ fuel) (hle : left ≤ right) (hright : right ≤ rows.length)
    (hbelow : ∀ k ∈ (keysOf rows).take left, k < key)
    (habove : ∀ k ∈ (keysOf rows).drop right, key < k) :
    Finds (keysOf rows) key
      (searchLoop source entries key (keyOrderWord key prefixLen) fuel left right) := by
  induction fuel generalizing left right with
  | zero =>
    obtain rfl : left = right := by omega
    exact ⟨by simpa using hright, hbelow, habove⟩
  | succ fuel ih =>
    rw [searchLoop]
    split
    · next hlt =>
      have hmid : left + (right - left) / 2 < rows.length := by omega
      obtain ⟨entry, row, hentry, hrow, hpoints, horder⟩ := placed_at hplaced hmid
      have hkey : (keysOf rows)[left + (right - left) / 2]? = some row.key := by
        rw [getElem?_map, hrow]
        rfl
      have hrowKey := hcommon row.key (mem_of_getElem? hkey)
      have hslice : (source.drop entry.keyStart).take entry.keyLen = row.key := by
        have := hpoints.key
        rw [readSlice] at this
        split at this
        · exact Option.some.inj this
        · cases this
      -- one half is dropped, on either side of the key at `mid`
      have hupper : row.key < key → Finds (keysOf rows) key (searchLoop source entries key
          (keyOrderWord key prefixLen) fuel (left + (right - left) / 2 + 1) right) := fun h =>
        ih (by omega) (by omega) hright (lt_take_of_lt hsorted hkey h) habove
      have hlower : key < row.key → Finds (keysOf rows) key (searchLoop source entries key
          (keyOrderWord key prefixLen) fuel left (left + (right - left) / 2)) := fun h =>
        ih (by omega) (by omega) (by omega) hbelow (lt_drop_of_lt hsorted hkey h)
      simp only [hentry, horder, hslice]
      split
      · next h => exact hupper (lt_of_keyOrderWord_lt hrowKey h)
      split
      · next h => exact hlower (lt_of_keyOrderWord_lt hrowKey.symm h)
      split
      · next h => exact hupper h
      split
      · next h => exact hlower h
      · next h h' =>
        rw [Finds, hkey, le_antisymm (not_lt.mp h') (not_lt.mp h)]
    · next hge =>
      obtain rfl : left = right := by omega
      exact ⟨by simpa using hright, hbelow, habove⟩

/-- Every key begins with the common prefix. -/
theorem take_rowsPrefix (hsorted : (keysOf rows).Pairwise (· < ·))
    (hfirst : rows.head? = some first) :
    ∀ k ∈ keysOf rows, k.take (rowsPrefix rows) = first.key.take (rowsPrefix rows) := by
  intro k hk
  obtain ⟨rest, rfl⟩ : ∃ rest, rows = first :: rest := by
    cases rows with
    | nil => cases hfirst
    | cons row rows => exact ⟨rows, by rw [Option.some.inj hfirst]⟩
  have hlast : (first :: rest).getLast? = some ((first :: rest).getLast (by simp)) :=
    getLast?_eq_getLast_of_ne_nil _
  simp only [rowsPrefix, head?_cons, hlast]
  refine take_commonPrefixLen_between ?_ ?_
  · rcases mem_cons.mp hk with rfl | hk
    · exact le_rfl
    · exact ((pairwise_cons.mp hsorted).1 k hk).le
  · have hsplit : (first :: rest).dropLast ++ [(first :: rest).getLast (by simp)]
        = first :: rest := dropLast_append_getLast _
    have hkeys : keysOf (first :: rest)
        = keysOf (first :: rest).dropLast ++ [((first :: rest).getLast (by simp)).key] := by
      conv_lhs => rw [← hsplit]
      simp only [keysOf, map_append, map_cons, map_nil]
    rw [hkeys] at hk hsorted
    rcases mem_append.mp hk with hk | hk
    · exact ((pairwise_append.mp hsorted).2.2 k hk _ (by simp)).le
    · exact (mem_singleton.mp hk).le

/-- A difference within the first bytes decides. -/
theorem lt_of_take_lt {n : Nat} (h : a.take n < b.take n) : a < b := by
  induction n generalizing a b with
  | zero => exact absurd h (by simp)
  | succ n ih =>
    cases b with
    | nil => exact absurd h (by simp)
    | cons y b =>
      cases a with
      | nil => exact nil_lt_cons y b
      | cons x a =>
        rw [take_succ_cons, take_succ_cons] at h
        rcases cons_lt_cons_iff.mp h with hlt | ⟨rfl, htail⟩
        · exact cons_lt_cons_iff.mpr (.inl hlt)
        · exact cons_lt_cons_iff.mpr (.inr ⟨rfl, ih htail⟩)

/-- A proper beginning of a key is below it. -/
theorem take_lt {n : Nat} (h : n < k.length) : k.take n < k := by
  have hrest : ([] : Bytes) < k.drop n := by
    cases hk : k.drop n with
    | nil => exact absurd (drop_eq_nil_iff.mp hk) (by omega)
    | cons x xs => exact nil_lt_cons x xs
  have hlt : k.take n ++ [] < k.take n ++ k.drop n := append_left_lt hrest
  rwa [append_nil, take_append_drop] at hlt

theorem finds_first (h : ∀ k ∈ keys, key < k) : Finds keys key (.error 0) :=
  ⟨Nat.zero_le _, by simp, by simpa using h⟩

theorem finds_last (h : ∀ k ∈ keys, k < key) : Finds keys key (.error keys.length) :=
  ⟨le_rfl, by simpa using h, by simp⟩

/-- The bytes the search takes for the common prefix. -/
theorem common_eq (hplaced : Forall₂ (Placed source data prefixLen) entries rows)
    (hfirst : rows.head? = some first) (hlen : prefixLen ≤ first.key.length) :
    (source.drop ((entries.head?.map (·.keyStart)).getD 0)).take prefixLen
      = first.key.take prefixLen := by
  cases hplaced with
  | nil => cases hfirst
  | @cons entry row entries rows hhead htail =>
    obtain rfl := Option.some.inj hfirst
    have hkey := hhead.1.key
    have hkeyLen := (readSlice_length hkey).2
    rw [readSlice] at hkey
    split at hkey
    · rw [head?_cons, Option.map_some, Option.getD_some, ← Option.some.inj hkey,
        take_take, Nat.min_eq_left (by omega)]
    · cases hkey

theorem rowsPrefix_le (hfirst : rows.head? = some first) : rowsPrefix rows ≤ first.key.length := by
  unfold rowsPrefix
  rw [hfirst]
  cases rows.getLast? with
  | none => exact Nat.zero_le _
  | some last => exact (Node.commonPrefixLen_le _ _).2

theorem search_reads (h : Reads r n) (hsorted : n.keys.Pairwise (· < ·)) (key : Bytes) :
    r.search key = n.search key := by
  obtain ⟨rows, hn, hpre, hplaced⟩ := h.rows
  have hkeys : n.keys = keysOf rows := by rw [hn]; rfl
  rw [hkeys] at hsorted
  have hlen : r.len = rows.length := hplaced.length_eq
  have hloop : (∀ k ∈ keysOf rows, k.take r.commonPrefixLen = key.take r.commonPrefixLen) →
      Finds (keysOf rows) key (searchLoop r.source r.entries key
        (keyOrderWord key r.commonPrefixLen) r.len 0 r.len) := fun hcommon =>
    searchLoop_finds hplaced hsorted hcommon (by omega) (Nat.zero_le _) (by omega) (by simp)
      (by rw [drop_of_length_le (by simp [keysOf, hlen])]; simp)
  have hfinds : Finds (keysOf rows) key (r.search key) := by
    rw [search]
    split
    · next hpos =>
      obtain ⟨first, hfirst⟩ : ∃ first, rows.head? = some first := by
        cases rows with
        | nil => rw [hpre] at hpos; exact absurd hpos (by simp [rowsPrefix])
        | cons first rest => exact ⟨first, rfl⟩
      have hfirstLen : r.commonPrefixLen ≤ first.key.length := hpre ▸ rowsPrefix_le hfirst
      have hall : ∀ k ∈ keysOf rows, k.take r.commonPrefixLen
          = first.key.take r.commonPrefixLen := by
        rw [hpre]
        exact take_rowsPrefix hsorted hfirst
      rw [common_eq hplaced hfirst hfirstLen]
      have hshort : ∀ k ∈ keysOf rows, k.take (min key.length r.commonPrefixLen)
          = (first.key.take r.commonPrefixLen).take (min key.length r.commonPrefixLen) := by
        intro k hk
        rw [← hall k hk, take_take, Nat.min_eq_left (Nat.min_le_right _ _)]
      split
      · next hlt => exact finds_first fun k hk => lt_of_take_lt (hshort k hk ▸ hlt)
      split
      · next hlt =>
        rw [hlen, show rows.length = (keysOf rows).length from (length_map _).symm]
        exact finds_last fun k hk => lt_of_take_lt (hshort k hk ▸ hlt)
      next hge hle =>
      have hequal := le_antisymm (not_lt.mp hle) (not_lt.mp hge)
      split
      · next hless =>
        refine finds_first fun k hk => ?_
        have hkshort := hshort k hk
        rw [← hequal, Nat.min_eq_left hless.le, take_length] at hkshort
        have hklen : r.commonPrefixLen ≤ k.length := by
          have := congrArg length (hall k hk)
          rw [length_take, length_take] at this
          omega
        rw [← hkshort]
        exact take_lt (by omega)
      · next hmore =>
        refine hloop fun k hk => ?_
        rw [Nat.min_eq_right (not_lt.mp hmore), take_take, Nat.min_self] at hequal
        rw [hall k hk, hequal]
    · next hzero =>
      refine hloop fun k _ => ?_
      obtain h0 : r.commonPrefixLen = 0 := by omega
      rw [h0, take_zero, take_zero]
  rw [← hkeys] at hfinds hsorted
  exact hfinds.unique hsorted (search_finds hsorted key)

/-! ### The two decoders -/

/-- The reader and the decoder accept the same, read the same, and search alike. -/
structure Agree (data : Bytes) : Prop where
  succeeds : (∃ r, fromShared data = .ok r) ↔ ∃ n, Node.fromBytes data = .ok n
  same : ∀ r n, fromShared data = .ok r → Node.fromBytes data = .ok n →
    r.level = n.level ∧ r.leaf = n.leaf ∧ r.len = n.len ∧ (∀ i, r.key i = n.keys[i]?) ∧
      (∀ i, r.value i = n.vals[i]?) ∧ (∀ i, r.childCount i = n.childCounts[i]?)
  search : ∀ r n, fromShared data = .ok r → Node.fromBytes data = .ok n →
    ∀ key, r.search key = n.search key ∧ Finds n.keys key (n.search key)

theorem forall₂_bind {α β γ : Type} {R : α → β → Prop} {f : α → Option γ} {g : β → γ}
    {xs : List α} {ys : List β} (h : Forall₂ R xs ys) (hfg : ∀ x y, R x y → f x = some (g y))
    (i : Nat) : xs[i]?.bind f = (ys.map g)[i]? := by
  induction h generalizing i with
  | nil => rfl
  | cons hxy _ ih =>
    cases i with
    | zero => simpa using hfg _ _ hxy
    | succ i => simpa using ih i

theorem Reads.same (h : Reads r n) :
    r.level = n.level ∧ r.leaf = n.leaf ∧ r.len = n.len ∧ (∀ i, r.key i = n.keys[i]?) ∧
      (∀ i, r.value i = n.vals[i]?) ∧ (∀ i, r.childCount i = n.childCounts[i]?) := by
  obtain ⟨rows, hn, -, hplaced⟩ := h.rows
  have hkeys : n.keys = rows.map Node.DecodedRow.key := by rw [hn]; rfl
  have hvals : n.vals = rows.map Node.DecodedRow.val := by rw [hn]; rfl
  have hcounts : n.childCounts = if n.leaf then [] else rows.map Node.DecodedRow.childCount := by
    conv_lhs => rw [hn]
    rfl
  refine ⟨h.level, h.leaf, ?_, fun i => ?_, fun i => ?_, fun i => ?_⟩
  · rw [Node.len, hkeys, length_map]
    exact hplaced.length_eq
  · rw [hkeys]
    exact forall₂_bind hplaced (fun _ _ hxy => hxy.1.key) i
  · rw [hvals]
    exact forall₂_bind hplaced (fun _ _ hxy => hxy.1.val) i
  · rw [hcounts, childCount, h.leaf]
    cases n.leaf with
    | true => rfl
    | false =>
      rw [if_neg (by simp), if_neg (by simp), Option.map_eq_bind]
      exact forall₂_bind hplaced (fun _ _ hxy => congrArg some hxy.1.childCount) i

/-- Exactly when the decoders agree on an input below `2^32` bytes: the prefix-compressed
keys it spells, but the last, fit the arena's offsets. -/
theorem decoders_agree_iff {data : Bytes} (hdata : data.length < 2 ^ 32) :
    Agree data ↔ ∀ n, Node.fromBytes data = .ok n → ArenaFits n := by
  constructor
  · intro h n hn
    obtain ⟨r, hr⟩ := h.succeeds.mpr ⟨n, hn⟩
    obtain ⟨n', hn', hfits, -, -⟩ := fromBytes_of_fromShared hr
    cases hn.symm.trans hn'
    exact hfits
  · intro hfits
    have hreads : ∀ r n, fromShared data = .ok r → Node.fromBytes data = .ok n → Reads r n := by
      intro r n hr hn
      obtain ⟨n', hn', -, -, hreads⟩ := fromBytes_of_fromShared hr
      cases hn.symm.trans hn'
      exact hreads
    refine ⟨⟨fun ⟨r, hr⟩ => ?_, fun ⟨n, hn⟩ => ?_⟩, fun r n hr hn => (hreads r n hr hn).same,
      fun r n hr hn key => ?_⟩
    · obtain ⟨n, hn, -⟩ := fromBytes_of_fromShared hr
      exact ⟨n, hn⟩
    · obtain ⟨r, hr, -⟩ := fromShared_of_fromBytes hdata hn (hfits n hn)
      exact ⟨r, hr⟩
    · have hsorted := (Node.fromBytes_valid hn).sorted
      exact ⟨search_reads (hreads r n hr hn) hsorted key, search_finds hsorted key⟩

/-- A leaf with two keys. -/
theorem decoders_agree_leaf :
    Agree [67, 82, 65, 66, 2, 0, 1, 0, 2, 0, 1, 1, 1, 7, 1, 1, 2, 0] :=
  (decoders_agree_iff (by decide)).mpr fun n hn => by
    have hread : Node.fromBytes [67, 82, 65, 66, 2, 0, 1, 0, 2, 0, 1, 1, 1, 7, 1, 1, 2, 0]
        = .ok { keys := [[1], [1, 2]], vals := [[7], []] } := by decide
    cases hread.symm.trans hn
    exact fun _ => by decide

/-! ### Keys longer than the input -/

/-- Keys of zeros, each one byte longer than the one before. -/
def zeroKeys (len count : Nat) : List Bytes :=
  (range' len count).map fun len => replicate len 0

/-- A leaf with these keys and empty values. -/
def zeroLeaf (len count : Nat) : Node :=
  { keys := zeroKeys len count, vals := replicate count [] }

theorem commonPrefixLen_zeros (a b : Nat) :
    Node.commonPrefixLen (replicate a 0) (replicate b 0) = min a b := by
  induction a generalizing b with
  | zero => simp [Node.commonPrefixLen]
  | succ a ih =>
    cases b with
    | zero => simp [Node.commonPrefixLen]
    | succ b =>
      rw [replicate_succ, replicate_succ, Node.commonPrefixLen, if_pos rfl, ih]
      omega

theorem zeroKeys_succ :
    zeroKeys len (count + 1) = replicate len 0 :: zeroKeys (len + 1) count := by
  rw [zeroKeys, range'_succ, map_cons, zeroKeys]

theorem map_length_zeroKeys : (zeroKeys len count).map length = range' len count := by
  rw [zeroKeys, map_map]
  exact map_id'' (fun n => length_replicate) _

/-- Behind the first key every entry takes a few bytes. -/
theorem length_encode_zeros {len count : Nat} (h : len + count ≤ u64Max) :
    (Node.encodePrefixCompressed true (replicate len 0)
      (Node.rows (zeroKeys (len + 1) count) (replicate count []) [])).length
      ≤ 13 * count := by
  induction count generalizing len with
  | zero => simp [zeroKeys, Node.rows, Node.encodePrefixCompressed]
  | succ count ih =>
    have hrest := @ih (len + 1) (by omega)
    have hshared : varintLen len ≤ 10 := varintLen_le_ten (by omega)
    have hone : varintLen 1 = 1 := by decide
    have hzero : varintLen 0 = 1 := by decide
    simp only [zeroKeys_succ, replicate_succ (n := count), Node.rows, tail_nil,
      Node.encodePrefixCompressed, commonPrefixLen_zeros, Nat.min_eq_left (Nat.le_succ len),
      length_append, Node.length_writeVarint, Node.length_writeBlock, Node.length_writeCount,
      Node.countLen, if_true, length_drop, length_replicate, length_nil,
      Nat.add_sub_cancel_left, hone, hzero]
    omega

theorem le_sum_range' : count * len ≤ (range' len count).sum := by
  induction count generalizing len with
  | zero => simp
  | succ count ih =>
    have hrest := ih (len + 1)
    rw [Nat.mul_succ] at hrest
    rw [range'_succ, sum_cons, Nat.succ_mul]
    omega

theorem sum_range'_le : (range' len count).sum ≤ count * (len + count) := by
  induction count generalizing len with
  | zero => simp
  | succ count ih =>
    have hrest := ih (len + 1)
    rw [range'_succ, sum_cons, Nat.succ_mul]
    rw [show len + 1 + count = len + (count + 1) by ring] at hrest
    omega

theorem zeroLeaf_valid : (zeroLeaf len count).Valid where
  format := rfl
  vals_length := by simp [zeroLeaf, zeroKeys]
  sorted := by
    refine pairwise_map.mpr ((pairwise_lt_range').imp fun {a b} hab => ?_)
    have htake : replicate a (0 : UInt8) = (replicate b 0).take a := by
      rw [take_replicate, Nat.min_eq_left hab.le]
    rw [htake]
    exact take_lt (by rw [length_replicate]; exact hab)
  leaf_counts := fun _ => rfl
  nonempty := fun h => by cases h
  counts_length := fun h => by cases h
  counts_pos := fun h => by cases h

theorem zeroLeaf_sized {len count : Nat} (h : count * (len + count) < 2 ^ 64)
    (hcount : count < 2 ^ 64) : (zeroLeaf len count).Sized where
  level := Nat.zero_lt_succ 255
  counts := by simp [zeroLeaf]
  len := by simpa [zeroLeaf, zeroKeys] using hcount
  total := by
    have hvals : (replicate count ([] : Bytes)).flatten = [] := by simp
    have hsum := sum_range'_le len count
    simp only [zeroLeaf, hvals, append_nil, length_flatten]
    rw [map_length_zeroKeys]
    omega
  format := fun bytes hbytes => by
    obtain rfl := Except.ok.inj hbytes
    exact Nat.two_pow_pos 64

/-- The bytes of such a leaf hold one key and a few bytes for each other. -/
theorem length_zeroLeaf {len count : Nat} {data : Bytes} (h : len + count < u64Max)
    (hdata : (zeroLeaf len (count + 1)).tryToBytes = .ok data) :
    data.length ≤ 64 + len + 13 * count := by
  obtain ⟨fb, body, hfb, hbody, rfl⟩ := Node.tryToBytes_eq_ok.mp hdata
  obtain rfl : fb = [] := (Except.ok.inj hfb).symm
  obtain rfl := Except.ok.inj hbody
  have hrest := @length_encode_zeros len count (by omega)
  have hlen : varintLen len ≤ 10 := varintLen_le_ten (by omega)
  have hcount : varintLen (count + 1) ≤ 10 := varintLen_le_ten (by omega)
  have hsmall : varintLen 0 = 1 ∧ varintLen 1 = 1 ∧ varintLen Node.compactVersion = 1 := by decide
  have hkeys : (zeroKeys (len + 1) count).length = count := by simp [zeroKeys]
  simp only [zeroLeaf, zeroKeys_succ, replicate_succ (n := count), Node.rows,
    tail_nil, Node.encodePrefixCompressed, Node.commonPrefixLen, drop_zero,
    length_append, Node.length_writeVarint, Node.length_writeBlock, Node.length_writeCount,
    Node.countLen, if_true, length_replicate, length_nil, Node.compactMagic,
    length_cons, hkeys, hsmall]
  omega

theorem zeroLeaf_not_fits {len count : Nat} (h : 2 ^ 32 ≤ count * len) :
    ¬ ArenaFits (zeroLeaf len (count + 1)) := by
  intro hfits
  have hlens : (zeroLeaf len (count + 1)).keys.dropLast.map length
      = range' len count := by
    rw [map_dropLast, zeroLeaf, map_length_zeroKeys, range'_concat, dropLast_concat]
  have hsum := hfits rfl
  rw [hlens] at hsum
  have := le_sum_range' len count
  omega

/-- A mebibyte of zeros and 4097 longer keys: an input of little more than a mebibyte
that only the decoder accepts. -/
theorem decoders_disagree : ∃ data : Bytes, data.length < 2 ^ 32 ∧ ¬ Agree data := by
  have hvalid := zeroLeaf_valid 1048576 (4097 + 1)
  obtain ⟨data, hdata⟩ := Node.tryToBytes_ok hvalid.format trivial
  have hread := Node.fromBytes_tryToBytes hvalid (zeroLeaf_sized (by omega) (by omega)) hdata
  refine ⟨data, ?_, fun hagree => ?_⟩
  · have := length_zeroLeaf (by rw [u64Max]; omega) hdata
    omega
  · obtain ⟨r, hr⟩ := hagree.succeeds.mpr ⟨_, hread⟩
    obtain ⟨n, hn, hfits, -, -⟩ := fromBytes_of_fromShared hr
    cases hread.symm.trans hn
    exact zeroLeaf_not_fits (by omega) hfits

end ReadNode

end Prolly
