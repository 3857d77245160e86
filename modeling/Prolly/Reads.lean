import Prolly.Store
import Prolly.Lib.StackLoop

/-!
# Prolly.Reads

Point reads agree with the map a tree holds: `get`, `get_many_with` and
`last_entry_with` return what the sorted entries say, for every fuel above the
height of the tree.
-/

namespace Prolly

open SortedAssoc
open List hiding lookup lookup_append lookup_cons

/-! ### Searching separators -/

variable {n : Node} {x key : Bytes} {ks1 ks2 : List Bytes} {kids : List Child} {c : Child}
  {level : Nat}

/-- A search finds a key that is there. -/
theorem Node.search_found (hkeys : n.keys = ks1 ++ x :: ks2) (h1 : ∀ y ∈ ks1, y < x) :
    n.search x = .ok ks1.length := by
  have hlt : ∀ y ∈ ks1, decide (y < x) = true := fun y hy => by simpa using h1 y hy
  unfold Node.search
  simp [hkeys, takeWhile_append_of_pos hlt]

/-- A search for a key that is not there ends behind the keys below it. -/
theorem Node.search_missing (hkeys : n.keys = ks1 ++ ks2) (h1 : ∀ y ∈ ks1, y < key)
    (h2 : ∀ y ∈ ks2, key < y) : n.search key = .error ks1.length := by
  have hlt : ∀ y ∈ ks1, decide (y < key) = true := fun y hy => by simpa using h1 y hy
  unfold Node.search
  rw [hkeys, takeWhile_append_of_pos hlt]
  cases ks2 with
  | nil => simp
  | cons y ks2 =>
    have hy := h2 y mem_cons_self
    simp [hy.not_gt, hy.ne']

theorem Node.search_between (hkeys : n.keys = ks1 ++ x :: ks2) (h1 : ∀ y ∈ ks1, y < x)
    (hx : x < key) (h2 : ∀ y ∈ ks2, key < y) : n.search key = .error (ks1.length + 1) := by
  have hsplit : n.keys = (ks1 ++ [x]) ++ ks2 := by simp [hkeys]
  have hbelow : ∀ y ∈ ks1 ++ [x], y < key := by
    simpa [or_imp, forall_and, hx] using fun y hy => (h1 y hy).trans hx
  simpa using Node.search_missing hsplit hbelow h2

/-- With the keys split around the last one at or below `key`, a descent goes on there. -/
theorem Manager.childIndex_split (hkeys : n.keys = ks1 ++ x :: ks2) (h1 : ∀ y ∈ ks1, y < x)
    (hx : x ≤ key) (h2 : ∀ y ∈ ks2, key < y) :
    Manager.childIndex n key = ks1.length ∧ n.search key ≠ .error 0 := by
  rcases hx.eq_or_lt with rfl | hx
  · simp [Manager.childIndex, Node.search_found hkeys h1]
  · simp [Manager.childIndex, Node.search_between hkeys h1 hx h2]

/-- Below every key the search ends before the first one. -/
theorem Manager.search_below (h : ∀ y ∈ n.keys, key < y) : n.search key = .error 0 :=
  Node.search_missing (nil_append _).symm (forall_mem_nil _) h

theorem Child.firstKey_all (hne : c.entries ≠ []) :
    firstKey (Child.all (c :: kids)) = firstKey c.entries :=
  firstKey_append hne _

/-- First keys of children are strictly increasing. -/
theorem Child.firstKeys_sorted (hs : Sorted (Child.all kids)) (hne : ∀ c ∈ kids, c.entries ≠ []) :
    kids.Pairwise fun c d => firstKey c.entries < firstKey d.entries := by
  induction kids with
  | nil => exact .nil
  | cons c kids ih =>
    obtain ⟨-, hs', hlt⟩ := sorted_append.mp hs
    refine pairwise_cons.mpr
      ⟨fun d hd => ?_, ih hs' fun d hd => hne d (.tail _ hd)⟩
    obtain ⟨x, hx, hxk⟩ := exists_mem_firstKey (hne c mem_cons_self)
    obtain ⟨y, hy, hyk⟩ := exists_mem_firstKey (hne d (.tail _ hd))
    rw [← hxk, ← hyk]
    exact hlt x hx y (mem_flatMap.mpr ⟨d, hd, hy⟩)

/-- Only the child a descent goes to can hold the key. -/
theorem Child.lookup_split {pre post : List Child} (hs : Sorted (Child.all (pre ++ c :: post)))
    (hne : ∀ d ∈ pre ++ c :: post, d.entries ≠ []) (hc : firstKey c.entries ≤ key)
    (hpost : ∀ d ∈ post, key < firstKey d.entries) :
    lookup (Child.all (pre ++ c :: post)) key = lookup c.entries key := by
  have hall : Child.all (pre ++ c :: post) = Child.all pre ++ c.entries ++ Child.all post := by
    simp [append_assoc]
  rw [hall] at hs ⊢
  refine lookup_middle hs (hne c (by simp)) hc fun hpost' => ?_
  cases post with
  | nil => exact absurd rfl hpost'
  | cons d post =>
    rw [Child.firstKey_all (hne d (by simp))]
    exact hpost d mem_cons_self

theorem Child.lookup_below (h : ∀ c ∈ kids, key < firstKey c.entries)
    (hs : ∀ c ∈ kids, Sorted c.entries) : lookup (Child.all kids) key = none := by
  refine lookup_eq_none.mpr fun e he => ?_
  obtain ⟨c, hc, hec⟩ := mem_flatMap.mp he
  exact ((h c hc).trans_le ((hs c hc).firstKey_le hec)).ne'

/-- The two outcomes of one step of a descent through an internal node. -/
theorem Node.IsInternal.route (hn : n.IsInternal level kids) (hne : ∀ c ∈ kids, c.entries ≠ [])
    (key : Bytes) :
    (n.search key = .error 0 ∧ ∀ c ∈ kids, key < firstKey c.entries) ∨
      ∃ c ∈ kids, n.search key ≠ .error 0 ∧ n.childCid (Manager.childIndex n key) = .ok c.cid ∧
        lookup (Child.all kids) key = lookup c.entries key := by
  rcases split_last_le (fun c : Child => firstKey c.entries) key kids with
    hall | ⟨pre, c, post, rfl, hc, hpost⟩
  · refine .inl ⟨Manager.search_below ?_, hall⟩
    rw [hn.keys]
    simpa using hall
  · have hsorted := Child.firstKeys_sorted hn.sorted hne
    obtain ⟨-, -, hpre⟩ := pairwise_append.mp hsorted
    have hkeys : n.keys = pre.map (fun c => firstKey c.entries) ++ firstKey c.entries ::
        post.map fun c => firstKey c.entries := by rw [hn.keys]; simp
    obtain ⟨hindex, hfound⟩ := Manager.childIndex_split hkeys
      (by simpa using fun d hd => hpre d hd c mem_cons_self) hc (by simpa using hpost)
    refine .inr ⟨c, by simp, hfound, ?_, Child.lookup_split hn.sorted hne hc hpost⟩
    simp [Node.childCid, hn.vals, hindex]

/-- `partition_point` on a list that the predicate cuts in two. -/
def partitionPoint {α : Type} (pred : α → Bool) (xs : List α) : Nat := (xs.takeWhile pred).length

/-- The index of the child a key belongs to: the last separator at or below it, or the
first child. -/
def Node.childFor (n : Node) (key : Bytes) : Nat :=
  partitionPoint (fun k => decide (k ≤ key)) n.keys - 1

/-- The keys below a key: a search ends behind them. -/
theorem Node.partitionPoint_lt (n : Node) (key : Bytes) :
    partitionPoint (fun k => decide (k < key)) n.keys =
      match n.search key with
      | .ok index => index
      | .error index => index := by
  by_cases hfound : n.keys[(n.keys.takeWhile (· < key)).length]? = some key
  · simp [partitionPoint, Node.search, hfound]
  · simp [partitionPoint, Node.search, hfound]

/-- The keys at or below a key: those below it, and the key itself where it is found. -/
theorem Node.partitionPoint_le (h : n.keys.Pairwise (· < ·)) (key : Bytes) :
    partitionPoint (fun k => decide (k ≤ key)) n.keys =
      match n.search key with
      | .ok index => index + 1
      | .error index => index := by
  rcases split_last_le id key n.keys with hall | ⟨pre, x, post, hkeys, hx, hpost⟩
  · rw [Manager.search_below hall, partitionPoint]
    cases hk : n.keys with
    | nil => rfl
    | cons y ys =>
      have hy : key < y := hall y (hk ▸ mem_cons_self)
      simp [hy]
  · rw [hkeys] at h
    obtain ⟨-, -, hpre⟩ := pairwise_append.mp h
    have hpre : ∀ y ∈ pre, y < x := fun y hy => hpre y hy x mem_cons_self
    have hx : x ≤ key := hx
    have hcount : partitionPoint (fun k => decide (k ≤ key)) n.keys = pre.length + 1 := by
      rw [partitionPoint, hkeys,
        takeWhile_append_of_pos fun y hy => by simpa using (hpre y hy).le.trans hx]
      cases post with
      | nil => simp [hx]
      | cons y ys =>
        have hy : key < y := hpost y mem_cons_self
        simp [hx, hy]
    rw [hcount]
    rcases hx.eq_or_lt with rfl | hx
    · rw [Node.search_found hkeys hpre]
    · rw [Node.search_between hkeys hpre hx hpost]

/-- A search ends where the last separator at or below the key is. -/
theorem Manager.childIndex_eq_childFor (h : n.keys.Pairwise (· < ·)) (key : Bytes) :
    Manager.childIndex n key = n.childFor key := by
  rw [Node.childFor, Node.partitionPoint_le h, childIndex]
  cases n.search key <;> rfl

/-- Everything before the child of a key is below the key. -/
theorem Manager.childIndex_le (n : Node) (key : Bytes) :
    Manager.childIndex n key ≤ partitionPoint (fun k => decide (k < key)) n.keys := by
  rw [Node.partitionPoint_lt, childIndex]
  cases n.search key with
  | ok index => exact le_rfl
  | error index => exact Nat.sub_le index 1

theorem Manager.childIndex_lt (h : n.keys.Pairwise (· < ·)) (hne : n.keys ≠ []) (key : Bytes) :
    Manager.childIndex n key < n.keys.length := by
  have hpos := length_pos_of_ne_nil hne
  have hle := (takeWhile_sublist (fun k => decide (k ≤ key)) (l := n.keys)).length_le
  rw [Manager.childIndex_eq_childFor h, Node.childFor, partitionPoint]
  omega

/-- The child a key belongs to, and what lies on either side of it. -/
theorem Node.IsInternal.focus (h : n.IsInternal level kids) (hne : ∀ c ∈ kids, c.entries ≠ [])
    (key : Bytes) :
    ∃ pre c post, kids = pre ++ c :: post ∧ n.childFor key = pre.length ∧
      (∀ e ∈ Child.all pre, e.1 < key) ∧ ∀ e ∈ Child.all post, key < e.1 := by
  have hcount : ∀ {pre post : List Child}, kids = pre ++ post →
      (∀ d ∈ pre, firstKey d.entries ≤ key) →
      (∀ d ∈ post, key < firstKey d.entries) →
      partitionPoint (fun k => decide (k ≤ key)) n.keys = pre.length := by
    intro pre post hkids hpre hpost
    rw [partitionPoint, h.keys, hkids, map_append, takeWhile_append_of_pos (by simpa using hpre)]
    cases post with
    | nil => simp
    | cons d post =>
      rw [map_cons, takeWhile_cons_of_neg (by simpa using hpost d mem_cons_self)]
      simp
  have hafter : ∀ {post : List Child}, post <:+ kids →
      (∀ d ∈ post, key < firstKey d.entries) → ∀ e ∈ Child.all post, key < e.1 := by
    intro post hsuffix hpost e he
    obtain ⟨d, hd, hed⟩ := mem_flatMap.mp he
    have hs : Sorted d.entries := h.sorted.sublist
      (sublist_flatten_of_mem (mem_map_of_mem (hsuffix.subset hd)))
    exact (hpost d hd).trans_le (hs.firstKey_le hed)
  rcases split_last_le (fun c : Child => firstKey c.entries) key kids with
    hall | ⟨pre, c, post, rfl, hc, hpost⟩
  · obtain ⟨c, post, rfl⟩ : ∃ c post, kids = c :: post := exists_cons_of_ne_nil h.nonempty
    refine ⟨[], c, post, rfl, ?_, by simp, hafter (suffix_cons c post)
      fun d hd => hall d (.tail _ hd)⟩
    rw [Node.childFor, hcount (nil_append _).symm (by simp) hall]
    rfl
  · obtain ⟨-, -, hpre⟩ := pairwise_append.mp (Child.firstKeys_sorted h.sorted hne)
    refine ⟨pre, c, post, rfl, ?_, ?_, hafter ?_ hpost⟩
    · rw [Node.childFor, hcount (append_cons pre c post) ?_ hpost]
      · simp
      · intro d hd
        rcases mem_append.mp hd with hd | hd
        · exact (hpre d hd c mem_cons_self).le.trans hc
        · rw [mem_singleton.mp hd]
          exact hc
    · intro e he
      obtain ⟨x, hx, hxk⟩ := exists_mem_firstKey (hne c (by simp))
      have hs := h.sorted
      rw [Child.all_append] at hs
      have hlt := (sorted_append.mp hs).2.2 e he x (by simp [hx])
      exact (hxk ▸ hlt).trans_le hc
    · exact (suffix_cons c post).trans (suffix_append pre _)

theorem Node.IsInternal.childCid {n : Node} {level : Nat} {pre post : List Child} {c : Child}
    (h : n.IsInternal level (pre ++ c :: post)) :
    n.childCid pre.length = .ok c.cid := by
  simp [Node.childCid, h.vals]

/-! ### Reads -/

theorem Node.IsLeaf.entries_eq {es : List Entry} (h : n.IsLeaf es) : n.entries = es := by
  rw [Node.entries, h.keys, h.vals, zip_fst_snd]

namespace Manager

variable {es : List Entry}

/-- A search in a leaf ends at the entry of the key, if there is one. -/
theorem leaf_search {n : Node} (h : n.IsLeaf es) (key : Bytes) :
    (if n.search key = .error 0 then none else leafValue n (childIndex n key) key) =
      lookup es key := by
  rcases split_last_le (fun e : Entry => e.1) key es with
    hall | ⟨pre, ⟨x, v⟩, post, rfl, hx, hpost⟩
  · rw [if_pos (search_below (by rw [h.keys]; simpa using fun a b hab => hall (a, b) hab))]
    exact (lookup_eq_none.mpr fun e he => (hall e he).ne').symm
  · obtain ⟨hpre, hxs, hlt⟩ := sorted_append.mp h.sorted
    have hkeys : n.keys = pre.map Prod.fst ++ x :: post.map Prod.fst := by rw [h.keys]; simp
    obtain ⟨hindex, hfound⟩ := childIndex_split hkeys
      (by simpa using fun a b hab => hlt (a, b) hab (x, v) mem_cons_self) hx
      (by simpa using fun a b hab => hpost (a, b) hab)
    have hpre' : lookup pre key = none := lookup_eq_none_of_below fun e he =>
      (hlt e he (x, v) mem_cons_self).trans_le hx
    have hpost' : lookup post key = none := lookup_eq_none.mpr fun e he => (hpost e he).ne'
    rw [if_neg hfound, hindex, leafValue, h.keys, h.vals, lookup_append, hpre', lookup_cons]
    simp [hpost']

variable {p : Manager} {level fuel : Nat} {cid : Cid}

theorem getFrom_eq (h : Subtree p level cid es) (hfuel : level < fuel) (key : Bytes) :
    getFrom p fuel cid key = .ok (lookup es key) := by
  obtain _ | fuel := fuel
  · omega
  induction level generalizing fuel cid es with
  | zero =>
    obtain ⟨n, hn, hleaf⟩ := h
    rw [getFrom, hn, ← leaf_search hleaf key]
    simp only [ok_bind, hleaf.leaf, if_true]
    split <;> rfl
  | succ level ih =>
    obtain ⟨n, kids, hn, hint, hes, hkids⟩ := h
    obtain _ | fuel := fuel
    · omega
    rw [getFrom, hn, ok_bind, hes]
    rcases hint.route (fun c hc => (hkids c hc).nonempty) key with
      ⟨hsearch, hall⟩ | ⟨c, hc, hsearch, hchild, hlookup⟩
    · rw [Child.lookup_below hall fun c hc => (hkids c hc).sorted]
      simp [hsearch]
    · simp only [hsearch, if_false, hint.leaf, hchild, hlookup, ok_bind, Bool.false_eq_true]
      exact ih (hkids c hc) fuel (by omega)

/-- `get` returns what the map holds. -/
theorem get_eq {tree : Tree} (h : Holds p tree.root es) (key : Bytes) :
    Enough fun fuel => p.get fuel tree key = .ok (lookup es key) := by
  unfold get
  cases hroot : tree.root with
  | none =>
    rw [hroot] at h
    exact ⟨0, fun fuel _ => by rw [show es = [] from h]; rfl⟩
  | some cid =>
    rw [hroot] at h
    obtain ⟨level, h⟩ := h
    exact ⟨level + 1, fun fuel hfuel => getFrom_eq h hfuel key⟩

theorem readFrom_eq (h : Subtree p level cid es) (hfuel : level < fuel) (key : Bytes) :
    readFrom p fuel cid key = .ok (lookup es key) := by
  obtain _ | fuel := fuel
  · omega
  induction level generalizing fuel cid es with
  | zero =>
    obtain ⟨n, hn, hleaf⟩ := h
    simp [readFrom, hn, hleaf.leaf, hleaf.entries_eq]
  | succ level ih =>
    obtain ⟨n, kids, hn, hint, hes, hkids⟩ := h
    obtain _ | fuel := fuel
    · omega
    rw [readFrom, hn, ok_bind, hes]
    rcases hint.route (fun c hc => (hkids c hc).nonempty) key with
      ⟨hsearch, hall⟩ | ⟨c, hc, -, hchild, hlookup⟩
    · -- a key below every separator is read from the first child, and is not there
      obtain ⟨c, rest, rfl⟩ : ∃ c rest, kids = c :: rest := exists_cons_of_ne_nil hint.nonempty
      have hchild : n.childCid (childIndex n key) = .ok c.cid := by
        simp [childIndex, hsearch, Node.childCid, hint.vals]
      have hc := hkids c mem_cons_self
      rw [Child.lookup_below hall fun c hc => (hkids c hc).sorted]
      simp only [hint.leaf, hchild, ok_bind, Bool.false_eq_true, if_false]
      rw [ih hc fuel (by omega), lookup_eq_none_of_lt_firstKey hc.sorted (hall c mem_cons_self)]
    · simp only [hint.leaf, hchild, hlookup, ok_bind, Bool.false_eq_true, if_false]
      exact ih (hkids c hc) fuel (by omega)

/-- `get_many_with` visits each key with what the map holds there. -/
theorem getMany_eq {tree : Tree} (h : Holds p tree.root es) :
    Enough fun fuel => ∀ keys, p.getMany fuel tree keys = .ok (keys.map (lookup es)) := by
  unfold getMany
  cases hroot : tree.root with
  | none =>
    rw [hroot] at h
    refine ⟨0, fun fuel _ keys => ?_⟩
    rw [show es = [] from h]
    rfl
  | some cid =>
    rw [hroot] at h
    obtain ⟨level, h⟩ := h
    refine ⟨level + 1, fun fuel hfuel keys => ?_⟩
    dsimp only
    induction keys with
    | nil => rfl
    | cons key keys ih =>
      rw [mapM_cons, readFrom_eq h hfuel key, ok_bind, ih]
      rfl

theorem lastFrom_eq (h : Subtree p level cid es) (hfuel : level < fuel) :
    lastFrom p fuel cid = .ok es.getLast? := by
  obtain _ | fuel := fuel
  · omega
  induction level generalizing fuel cid es with
  | zero =>
    obtain ⟨n, hn, hleaf⟩ := h
    simp [lastFrom, hn, hleaf.leaf, hleaf.entries_eq]
  | succ level ih =>
    obtain ⟨n, kids, hn, hint, hes, hkids⟩ := h
    obtain _ | fuel := fuel
    · omega
    obtain ⟨pre, c, rfl⟩ : ∃ pre c, kids = pre ++ [c] :=
      ⟨_, _, (dropLast_append_getLast hint.nonempty).symm⟩
    have hchild : n.childCid (n.len - 1) = .ok c.cid := by
      simp [Node.childCid, Node.len, hint.vals, hint.keys]
    have hc := hkids c (by simp)
    rw [lastFrom, hn, ok_bind]
    simp only [hint.leaf, hchild, ok_bind, Bool.false_eq_true, if_false]
    rw [ih hc fuel (by omega), hes]
    simp only [Child.all_append, Child.all_cons, Child.all_nil, append_nil]
    rw [List.getLast?_append_of_ne_nil _ hc.nonempty]

/-- `last_entry_with` visits the greatest entry. -/
theorem lastEntry_eq {tree : Tree} (h : Holds p tree.root es) :
    Enough fun fuel => p.lastEntry fuel tree = .ok es.getLast? := by
  unfold lastEntry
  cases hroot : tree.root with
  | none =>
    rw [hroot] at h
    exact ⟨0, fun fuel _ => by rw [show es = [] from h]; rfl⟩
  | some cid =>
    rw [hroot] at h
    obtain ⟨level, h⟩ := h
    exact ⟨level + 1, fun fuel hfuel => lastFrom_eq h hfuel⟩

end Manager

end Prolly
