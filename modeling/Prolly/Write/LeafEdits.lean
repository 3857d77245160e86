import Prolly.Lib.SortedMap
import Prolly.Reads

/-!
# Prolly.Write.LeafEdits

The algorithms that apply sorted mutations to one leaf (`batch.rs`): a binary search for each
mutation, changes in place where every key is there already, and a merge of entries and mutations
that copies the leaf only once something differs. Counts of entries and mutations choose between
them.

A leaf is read as a sorted map. Each algorithm takes it, one change after the other, through the
maps that `SortedMap.set` gives, so all of them end with the same node (`leafEdits_agree`).
-/

/-! ### Changes of a sorted map in its list -/

namespace SortedMap

open SortedAssoc

variable {K V : Type} [LinearOrder K] (m : SortedMap K V) {k : K}

/-- The entries of a map before a key, at it and behind it. -/
theorem exists_split (k : K) : ∃ before at_k behind, m.entries = before ++ at_k ++ behind ∧
    (∀ e ∈ before, e.1 < k) ∧ (at_k = [] ∨ ∃ v, at_k = [(k, v)]) ∧ ∀ e ∈ behind, k < e.1 := by
  obtain hall | ⟨before, ⟨k', v⟩, behind, hes, hle, hbehind⟩ := split_last_le Prod.fst k m.entries
  · exact ⟨[], [], m.entries, rfl, by simp, .inl rfl, hall⟩
  · have hbefore : ∀ e ∈ before, e.1 < k' := fun e he =>
      (sorted_append.mp (hes ▸ m.sorted)).2.2 e he _ List.mem_cons_self
    rcases hle.eq_or_lt with rfl | hlt
    · exact ⟨before, [(k', v)], behind, by simp [hes], hbefore, .inr ⟨v, rfl⟩, hbehind⟩
    · refine ⟨before ++ [(k', v)], [], behind, by simp [hes], ?_, .inl rfl, hbehind⟩
      rw [List.forall_mem_append]
      exact ⟨fun e he => (hbefore e he).trans hlt, by simpa using hlt⟩

/-- A change leaves what lies before and behind its key. -/
theorem entries_set {before at_k behind : List (K × V)} (hes : m.entries = before ++ at_k ++ behind)
    (hbefore : ∀ e ∈ before, e.1 < k) (hat : ∀ e ∈ at_k, e.1 = k) (hbehind : ∀ e ∈ behind, k < e.1)
    (v : Option V) :
    (m.set k v).entries = before ++ (v.map fun v => (k, v)).toList ++ behind := by
  cases v with
  | some v =>
    have hlow : m.entries.filter (fun e => e.1 < k) = before := by
      simp only [hes, List.filter_append]
      rw [List.filter_eq_self.mpr (by simpa using hbefore),
        List.filter_eq_nil_iff.mpr (by simpa using fun e he => (hat e he).ge),
        List.filter_eq_nil_iff.mpr (by simpa using fun e he => (hbehind e he).le)]
      simp
    have hhigh : m.entries.filter (fun e => k < e.1) = behind := by
      simp only [hes, List.filter_append]
      rw [List.filter_eq_nil_iff.mpr (by simpa using fun e he => (hbefore e he).le),
        List.filter_eq_nil_iff.mpr (by simpa using fun e he => (hat e he).le),
        List.filter_eq_self.mpr (by simpa using hbehind)]
      simp
    simp [set, insert, hlow, hhigh]
  | none =>
    simp only [set, erase, hes, List.filter_append]
    rw [List.filter_eq_self.mpr (by simpa using fun e he => (hbefore e he).ne),
      List.filter_eq_nil_iff.mpr (by simpa using hat),
      List.filter_eq_self.mpr (by simpa using fun e he => (hbehind e he).ne')]
    rfl

/-- The entries around an index, before and after a change of the key there. -/
theorem exists_split_of_getElem? {i : Nat} {w : V} (h : m.entries[i]? = some (k, w)) :
    ∃ before behind, before.length = i ∧ m.entries = before ++ [(k, w)] ++ behind ∧
      ∀ v, (m.set k v).entries = before ++ (v.map fun v => (k, v)).toList ++ behind := by
  obtain ⟨hlt, hentry⟩ := getElem?_eq_some_iff.mp h
  have hes : m.entries = m.entries.take i ++ [(k, w)] ++ m.entries.drop (i + 1) := by
    rw [← hentry, List.take_append_getElem, List.take_append_drop]
  obtain ⟨hbefore, -, hbehind⟩ := sorted_append.mp (hes ▸ m.sorted)
  refine ⟨_, _, List.length_take_of_le hlt.le, hes, m.entries_set hes ?_ (by simp) ?_⟩
  · exact fun e he => (sorted_append.mp hbefore).2.2 e he _ List.mem_cons_self
  · exact hbehind (k, w) (by simp)

/-- Changes of different keys may be made in any order. -/
theorem setAll_reverse {updates : List (K × Option V)} (hs : Sorted updates) :
    m.setAll updates.reverse = m.setAll updates := by
  ext1 k
  rw [m.get?_setAll updates hs k]
  refine m.get?_setAll_of_forall (fun u hu hk => ?_) ?_
  · rw [← hk, hs.lookup_eq_some.mpr (List.mem_reverse.mp hu)]
    rfl
  · cases hlookup : lookup updates k with
    | none => exact .inl rfl
    | some v => exact .inr ⟨(k, v), List.mem_reverse.mpr (mem_of_lookup hlookup), rfl⟩

end SortedMap

namespace Prolly

open SortedAssoc
open Option
open List hiding lookup

/-! ### Model -/

namespace LeafEdits

/-- The entry at an index gets a value, unless it has it, or is removed; and whether anything has
changed so far. -/
def changeAt (index : Nat) (value : Option Bytes) (state : Node × Bool) : Node × Bool :=
  let leaf := state.1
  match value with
  | some val =>
    if leaf.vals[index]? ≠ some val then ({ leaf with vals := leaf.vals.set index val }, true)
    else state
  | none =>
    ({ leaf with keys := leaf.keys.eraseIdx index, vals := leaf.vals.eraseIdx index }, true)

/-- An iteration of `apply_mutations_to_leaf_binary_search_with_change`. -/
def binarySearchStep (state : Node × Bool) (mutation : Mutation) : Node × Bool :=
  let leaf := state.1
  match leaf.search mutation.key, mutation.value with
  | .ok index, value => changeAt index value state
  | .error index, some val =>
    ({ leaf with
        keys := leaf.keys.insertIdx index mutation.key
        vals := leaf.vals.insertIdx index val }, true)
  | .error _, none => state

variable (leaf : Node) (mutations : List Mutation)

/-- `apply_mutations_to_leaf_binary_search_with_change`. -/
def applyMutationsToLeafBinarySearchWithChange : Node × Bool :=
  mutations.foldl binarySearchStep (leaf, false)

/-- `ExistingKeyMutationChanges`: an index and the value it gets, or nothing. -/
abbrev ExistingKeyMutationChanges := List (Nat × Option Bytes)

/-- `existing_key_mutation_changes_binary`, behind a previous key. -/
def existingKeyMutationChangesBinary (leaf : Node) :
    Option Bytes → List Mutation → Option ExistingKeyMutationChanges
  | _, [] => some []
  | previousKey, mutation :: mutations =>
    if previousKey.any (mutation.key ≤ ·) then none
    else
      match leaf.search mutation.key with
      | .error _ => none
      | .ok index =>
        (existingKeyMutationChangesBinary leaf (some mutation.key) mutations).map
          ((index, mutation.value) :: ·)

/-- `existing_key_mutation_changes_linear`, from an index and behind a previous key. -/
def existingKeyMutationChangesLinear (leaf : Node) :
    Nat → Option Bytes → List Mutation → Option ExistingKeyMutationChanges
  | _, _, [] => some []
  | leafIndex, previousKey, mutation :: mutations =>
    if previousKey.any (mutation.key ≤ ·) then none
    else
      let leafIndex := leafIndex + ((leaf.keys.drop leafIndex).takeWhile (· < mutation.key)).length
      if leaf.keys[leafIndex]? ≠ some mutation.key then none
      else
        (existingKeyMutationChangesLinear leaf leafIndex (some mutation.key) mutations).map
          ((leafIndex, mutation.value) :: ·)

/-- `should_scan_existing_key_mutations_linearly`. -/
def shouldScanExistingKeyMutationsLinearly : Bool :=
  16 ≤ mutations.length && leaf.keys.length ≤ mutations.length * 4

/-- `existing_key_mutation_changes`. -/
def existingKeyMutationChanges : Option ExistingKeyMutationChanges :=
  if leaf.keys = [] then none
  else if shouldScanExistingKeyMutationsLinearly leaf mutations then
    existingKeyMutationChangesLinear leaf 0 none mutations
  else existingKeyMutationChangesBinary leaf none mutations

/-- `apply_existing_key_mutations_in_place`. -/
def applyExistingKeyMutationsInPlace (changes : ExistingKeyMutationChanges) : Node × Bool :=
  changes.reverse.foldl (fun state change => changeAt change.1 change.2 state) (leaf, false)

/-- `LeafMergeBuffers`. -/
structure LeafMergeBuffers where
  keys : List Bytes
  vals : List Bytes

/-- `push_existing` and `push_upsert`. -/
def LeafMergeBuffers.push (buffers : LeafMergeBuffers) (entry : Entry) : LeafMergeBuffers :=
  ⟨buffers.keys ++ [entry.1], buffers.vals ++ [entry.2]⟩

/-- `leaf_merge_result`, with `LeafMergeBuffers::from_prefix`. -/
def leafMergeResult (result : Option LeafMergeBuffers) (leaf : Node) (prefixLen : Nat) :
    LeafMergeBuffers :=
  result.getD ⟨leaf.keys.take prefixLen, leaf.vals.take prefixLen⟩

/-- The loop of `apply_mutations_to_leaf_with_change`, with the entries from `old_idx` on and the
mutations from `mut_idx` on. -/
def mergeLoop (leaf : Node) : Option LeafMergeBuffers → Bool → Nat → List Entry → List Mutation →
    Option LeafMergeBuffers × Bool
  | result, changed, _, [], [] => (result, changed)
  | result, changed, oldIdx, old :: olds, [] =>
    mergeLoop leaf (result.map (·.push old)) changed (oldIdx + 1) olds []
  | result, changed, oldIdx, [], mutation :: mutations =>
    match mutation.value with
    | some val =>
      mergeLoop leaf (some ((leafMergeResult result leaf oldIdx).push (mutation.key, val))) true
        oldIdx [] mutations
    | none => mergeLoop leaf result changed oldIdx [] mutations
  | result, changed, oldIdx, old :: olds, mutation :: mutations =>
    if old.1 < mutation.key then
      mergeLoop leaf (result.map (·.push old)) changed (oldIdx + 1) olds (mutation :: mutations)
    else if old.1 = mutation.key then
      match mutation.value with
      | some val =>
        if old.2 ≠ val then
          mergeLoop leaf (some ((leafMergeResult result leaf oldIdx).push (mutation.key, val))) true
            (oldIdx + 1) olds mutations
        else mergeLoop leaf (result.map (·.push old)) changed (oldIdx + 1) olds mutations
      | none =>
        mergeLoop leaf (some (leafMergeResult result leaf oldIdx)) true (oldIdx + 1) olds mutations
    else
      match mutation.value with
      | some val =>
        mergeLoop leaf (some ((leafMergeResult result leaf oldIdx).push (mutation.key, val))) true
          oldIdx (old :: olds) mutations
      | none => mergeLoop leaf result changed oldIdx (old :: olds) mutations
termination_by _ _ _ olds mutations => olds.length + mutations.length

/-- The entry that a mutation leaves at its key. -/
def entryOf (mutation : Mutation) : Option Entry :=
  mutation.value.map fun val => (mutation.key, val)

/-- The part of `apply_mutations_to_leaf_with_change` behind the changes in place. The buffers of a
leaf that changed are there, which the source relies on with `expect`. -/
def mergeMutations : Node × Bool :=
  if leaf.keys = [] then
    let upserts := mutations.filterMap entryOf
    ({ leaf with keys := upserts.map Prod.fst, vals := upserts.map Prod.snd }, !upserts.isEmpty)
  else
    match mergeLoop leaf none false 0 leaf.entries mutations with
    | (some result, true) => ({ leaf with keys := result.keys, vals := result.vals }, true)
    | _ => (leaf, false)

/-- `apply_mutations_to_leaf_with_change`. -/
def applyMutationsToLeafWithChange : Node × Bool :=
  if mutations = [] then (leaf, false)
  else
    match existingKeyMutationChanges leaf mutations with
    | some changes => applyExistingKeyMutationsInPlace leaf changes
    | none => mergeMutations leaf mutations

/-- `should_use_sparse_leaf_apply`. -/
def shouldUseSparseLeafApply : Bool :=
  !mutations.isEmpty && !leaf.keys.isEmpty && mutations.length ≤ 8 &&
    mutations.length * 8 ≤ leaf.len

/-- `apply_leaf_mutations_with_change`. -/
def applyLeafMutationsWithChange (useOptimizedMerge : Bool) : Node × Bool × Bool :=
  let useSparseLeafApply := useOptimizedMerge && shouldUseSparseLeafApply leaf mutations
  if !useOptimizedMerge || useSparseLeafApply then
    let modified := applyMutationsToLeafBinarySearchWithChange leaf mutations
    (modified.1, modified.2, useSparseLeafApply)
  else
    let modified := applyMutationsToLeafWithChange leaf mutations
    (modified.1, modified.2, false)

end LeafEdits

/-! ### One change -/

/-- The leaf with the entries of a map. -/
def Node.withEntries (n : Node) (m : SortedMap Bytes Bytes) : Node :=
  { n with keys := m.entries.map Prod.fst, vals := m.entries.map Prod.snd }

namespace LeafEdits

variable {leaf : Node} {m : SortedMap Bytes Bytes} {key : Bytes} {index : Nat}

/-- A change of the entry at an index is a change of its key. -/
theorem changeAt_withEntries {val : Bytes} (hindex : m.entries[index]? = some (key, val))
    (value : Option Bytes) (changed : Bool) :
    (changeAt index value (leaf.withEntries m, changed)).1 =
      leaf.withEntries (m.set key value) := by
  obtain ⟨before, behind, rfl, hes, hset⟩ := m.exists_split_of_getElem? hindex
  cases value with
  | none => simp [changeAt, Node.withEntries, hset, hes, eraseIdx_append_of_length_le]
  | some v =>
    by_cases hv : val = v
    · subst hv
      simp [changeAt, Node.withEntries, hset, hes]
    · simp [changeAt, Node.withEntries, hset, hes, hv]

theorem insertIdx_map_append {α β : Type} (f : α → β) (xs : List α) (ys : List β) (y : β) :
    (xs.map f ++ ys).insertIdx xs.length y = xs.map f ++ y :: ys := by
  induction xs with
  | nil => rfl
  | cons x xs ih => simp [ih]

variable (leaf m) in
theorem binarySearchStep_withEntries (mutation : Mutation) (changed : Bool) :
    (binarySearchStep (leaf.withEntries m, changed) mutation).1 =
      leaf.withEntries (m.set mutation.key mutation.value) := by
  obtain ⟨before, atKey, behind, hes, hbefore, hat, hbehind⟩ := m.exists_split mutation.key
  have hbefore' : ∀ y ∈ before.map Prod.fst, y < mutation.key := forall_mem_map.mpr hbefore
  rcases hat with rfl | ⟨val, rfl⟩
  · have hsearch : (leaf.withEntries m).search mutation.key = .error before.length := by
      rw [← length_map Prod.fst]
      exact Node.search_missing (by simp [Node.withEntries, hes]) hbefore'
        (forall_mem_map.mpr hbehind)
    have hset := m.entries_set hes hbefore (by simp) hbehind mutation.value
    unfold binarySearchStep
    dsimp only
    rw [hsearch]
    cases hvalue : mutation.value with
    | none =>
      rw [hvalue] at hset
      simp [Node.withEntries, hset, hes]
    | some val =>
      rw [hvalue] at hset
      simp [Node.withEntries, hset, hes, insertIdx_map_append]
  · have hkeys : (leaf.withEntries m).keys =
        before.map Prod.fst ++ mutation.key :: behind.map Prod.fst := by
      simp [Node.withEntries, hes]
    unfold binarySearchStep
    dsimp only
    rw [Node.search_found hkeys hbefore', length_map]
    have hindex : m.entries[before.length]? = some (mutation.key, val) := by simp [hes]
    exact changeAt_withEntries hindex mutation.value changed

/-- A mutation as an update of the map. -/
def update (mutation : Mutation) : Bytes × Option Bytes := (mutation.key, mutation.value)

variable (leaf m) in
theorem binarySearch_withEntries (mutations : List Mutation) :
    (applyMutationsToLeafBinarySearchWithChange (leaf.withEntries m) mutations).1 =
      leaf.withEntries (m.setAll (mutations.map update)) := by
  have hfold : ∀ (m : SortedMap Bytes Bytes) (changed : Bool),
      (mutations.foldl binarySearchStep (leaf.withEntries m, changed)).1 =
        leaf.withEntries (m.setAll (mutations.map update)) := by
    induction mutations with
    | nil => exact fun _ _ => rfl
    | cons mutation mutations ih =>
      intro m changed
      have hstep := binarySearchStep_withEntries leaf m mutation changed
      rw [foldl_cons, ← Prod.mk.eta (p := binarySearchStep _ mutation), hstep, ih]
      rfl
  exact hfold m false

/-! ### Changes in place -/

/-- A change is that of a mutation at the index of its key. -/
def Locates (leaf : Node) (mutation : Mutation) (change : Nat × Option Bytes) : Prop :=
  leaf.keys[change.1]? = some mutation.key ∧ change.2 = mutation.value

variable {mutations : List Mutation} {changes : ExistingKeyMutationChanges}

theorem existingKeyMutationChangesBinary_locates {previousKey : Option Bytes}
    (h : existingKeyMutationChangesBinary leaf previousKey mutations = some changes) :
    Forall₂ (Locates leaf) mutations changes := by
  induction mutations generalizing previousKey changes with
  | nil =>
    cases h
    exact .nil
  | cons mutation mutations ih =>
    rw [existingKeyMutationChangesBinary] at h
    split at h
    · cases h
    · split at h
      · cases h
      · next index hsearch =>
        obtain ⟨rest, hrest, rfl⟩ := map_eq_some_iff.mp h
        refine .cons ⟨?_, rfl⟩ (ih hrest)
        unfold Node.search at hsearch
        dsimp only at hsearch
        split at hsearch
        · next hkey =>
          cases hsearch
          exact hkey
        · cases hsearch

theorem existingKeyMutationChangesLinear_locates {leafIndex : Nat} {previousKey : Option Bytes}
    (h : existingKeyMutationChangesLinear leaf leafIndex previousKey mutations = some changes) :
    Forall₂ (Locates leaf) mutations changes := by
  induction mutations generalizing leafIndex previousKey changes with
  | nil =>
    cases h
    exact .nil
  | cons mutation mutations ih =>
    rw [existingKeyMutationChangesLinear] at h
    dsimp only at h
    split at h
    · cases h
    · split at h
      · cases h
      · next hkey =>
        obtain ⟨rest, hrest, rfl⟩ := map_eq_some_iff.mp h
        exact .cons ⟨not_ne_iff.mp hkey, rfl⟩ (ih hrest)

/-- Mutations in increasing key order. -/
abbrev Increasing (mutations : List Mutation) : Prop := mutations.Pairwise (·.key < ·.key)

theorem lt_of_getElem? {i j : Nat} {e e' : Entry} (hi : m.entries[i]? = some e)
    (hj : m.entries[j]? = some e') (hlt : e.1 < e'.1) : i < j := by
  obtain ⟨hi', rfl⟩ := List.getElem?_eq_some_iff.mp hi
  obtain ⟨hj', rfl⟩ := List.getElem?_eq_some_iff.mp hj
  by_contra hle
  rcases (not_lt.mp hle).eq_or_lt with rfl | hji
  · exact hlt.false
  · exact (pairwise_iff_getElem.mp m.sorted j i hj' hi' hji).asymm hlt

/-- From the last change on, an index means the same entry until its own change is made. -/
theorem inPlace_withEntries (hs : Increasing mutations)
    (h : Forall₂ (Locates (leaf.withEntries m)) mutations changes) :
    (applyExistingKeyMutationsInPlace (leaf.withEntries m) changes).1 =
      leaf.withEntries (m.setAll (mutations.map update)) := by
  have hsorted : Sorted (mutations.map update) := pairwise_map.mpr hs
  rw [← m.setAll_reverse hsorted, SortedMap.setAll, foldl_reverse,
    applyExistingKeyMutationsInPlace, foldl_reverse]
  -- an entry below all keys that have been changed is still at its index
  suffices hfold : ∀ edited : SortedMap Bytes Bytes,
      edited = (mutations.map update).foldr (fun u m => m.set u.1 u.2) m →
      (changes.foldr (fun c state => changeAt c.1 c.2 state) (leaf.withEntries m, false)).1 =
        leaf.withEntries edited ∧
      ∀ (i : Nat) (e : Entry), m.entries[i]? = some e →
        (∀ mutation ∈ mutations, e.1 < mutation.key) → edited.entries[i]? = some e from
          (hfold _ rfl).1
  clear hsorted
  induction h with
  | nil =>
    rintro _ rfl
    exact ⟨rfl, fun _ _ he _ => he⟩
  | @cons mutation change mutations changes hlocates _ ih =>
    rintro _ rfl
    obtain ⟨hlt, hs⟩ := pairwise_cons.mp hs
    obtain ⟨hnode, hkept⟩ := ih hs _ rfl
    rw [map_cons, foldr_cons, foldr_cons]
    generalize (mutations.map update).foldr (fun u m => m.set u.1 u.2) m = edited at hnode hkept ⊢
    obtain ⟨hkey, hvalue⟩ := hlocates
    rw [Node.withEntries, getElem?_map] at hkey
    obtain ⟨entry, hentry, hkey⟩ := map_eq_some_iff.mp hkey
    have hindex : edited.entries[change.1]? = some (mutation.key, entry.2) := by
      rw [← hkey]
      exact hkept change.1 entry hentry (hkey ▸ hlt)
    refine ⟨?_, fun i e he hbelow => ?_⟩
    · rw [← Prod.mk.eta (p := changes.foldr _ _), hnode, hvalue]
      exact changeAt_withEntries hindex _ _
    · obtain ⟨hfirst, hbelow⟩ := forall_mem_cons.mp hbelow
      have hi := hkept i e he hbelow
      have hlen := lt_of_getElem? hi hindex hfirst
      obtain ⟨before, behind, hbefore, hes, hset⟩ := edited.exists_split_of_getElem? hindex
      rw [hes, append_assoc, getElem?_append_left (by omega)] at hi
      show (edited.set mutation.key mutation.value).entries[i]? = _
      rw [hset, append_assoc, getElem?_append_left (by omega), hi]

/-! ### The merge -/

/-- What the loop has read and written: the entries up to `old_idx`, or those in the buffers if
there are any, are done; with the rest they are the map so far. -/
structure Merging (leaf : Node) (es : List Entry) (m : SortedMap Bytes Bytes)
    (result : Option LeafMergeBuffers) (changed : Bool) (oldIdx : Nat) (done olds : List Entry) :
    Prop where
  rest : es.drop oldIdx = olds
  buffers : leafMergeResult result leaf oldIdx = ⟨done.map Prod.fst, done.map Prod.snd⟩
  changed : result.isSome = changed
  entries : m.entries = done ++ olds

variable {es : List Entry} {result : Option LeafMergeBuffers} {changed : Bool} {oldIdx : Nat}
  {done olds : List Entry} {old : Entry}

/-- An entry is kept. -/
theorem Merging.keep (hkeys : leaf.keys = es.map Prod.fst) (hvals : leaf.vals = es.map Prod.snd)
    (h : Merging leaf es m result changed oldIdx done (old :: olds)) :
    Merging leaf es m (result.map (·.push old)) changed (oldIdx + 1) (done ++ [old]) olds where
  rest := by rw [← drop_drop, h.rest]; rfl
  buffers := by
    have hbuffers := h.buffers
    cases result with
    | some buffers =>
      obtain rfl : buffers = _ := hbuffers
      simp [leafMergeResult, LeafMergeBuffers.push]
    | none =>
      have htake : es.take (oldIdx + 1) = es.take oldIdx ++ [old] := by
        rw [take_add, h.rest]
        rfl
      simp only [leafMergeResult, getD_none, map_none, hkeys, hvals,
        ← map_take, LeafMergeBuffers.mk.injEq] at hbuffers ⊢
      simp only [htake, map_append, hbuffers, and_self]
  changed := by rw [isSome_map, h.changed]
  entries := by rw [h.entries, append_cons]

/-- The buffers get what a mutation leaves at its key, and the loop goes on behind the old entry of
the key. -/
theorem Merging.write {mutation : Mutation} (atKey : List Entry)
    (h : Merging leaf es m result changed oldIdx done (atKey ++ olds))
    (hdone : ∀ e ∈ done, e.1 < mutation.key) (hat : ∀ e ∈ atKey, e.1 = mutation.key)
    (hbehind : ∀ e ∈ olds, mutation.key < e.1) {buffers : LeafMergeBuffers}
    (hbuffers : (entryOf mutation).toList.foldl .push (leafMergeResult result leaf oldIdx) =
      buffers) :
    Merging leaf es (m.set mutation.key mutation.value) (some buffers) true
      (oldIdx + atKey.length) (done ++ (entryOf mutation).toList) olds where
  rest := by rw [← drop_drop, h.rest, drop_left]
  buffers := by
    rw [← hbuffers, h.buffers]
    cases entryOf mutation with
    | none => simp [leafMergeResult]
    | some entry => simp [leafMergeResult, LeafMergeBuffers.push]
  changed := rfl
  entries := m.entries_set (by rw [h.entries, append_assoc]) hdone hat hbehind mutation.value

/-- A mutation that changes nothing. -/
theorem Merging.skip {mutation : Mutation}
    (h : Merging leaf es m result changed oldIdx done olds)
    (hget : m.get? mutation.key = mutation.value) :
    Merging leaf es (m.set mutation.key mutation.value) result changed oldIdx done olds := by
  have hset : m.set mutation.key mutation.value = m := by
    ext1 k
    rw [m.get?_set]
    split
    · next hk => rw [← hk, hget]
    · rfl
  rwa [hset]

/-- A deletion between the entries done and the rest changes nothing. -/
theorem Merging.absent (h : Merging leaf es m result changed oldIdx done olds)
    (hdone : ∀ e ∈ done, e.1 < key) (hbehind : ∀ e ∈ olds, key < e.1) : m.get? key = none := by
  rw [SortedMap.get?, h.entries, lookup_eq_none, forall_mem_append]
  exact ⟨fun e he => (hdone e he).ne, fun e he => (hbehind e he).ne'⟩

theorem Merging.behind (h : Merging leaf es m result changed oldIdx done (old :: olds)) :
    ∀ e ∈ olds, old.1 < e.1 :=
  (sorted_cons.mp (sorted_append.mp (h.entries ▸ m.sorted)).2.1).1

/-- What a mutation leaves lies before the mutations behind it. -/
theorem below_later {mutation : Mutation} (hs : Increasing (mutation :: mutations))
    (hdone : ∀ e ∈ done, ∀ later ∈ mutation :: mutations, e.1 < later.key) {kept : List Entry}
    (hkept : ∀ e ∈ kept, e.1 = mutation.key) :
    ∀ e ∈ done ++ kept, ∀ later ∈ mutations, e.1 < later.key := by
  intro e he later hlater
  rcases mem_append.mp he with he | he
  · exact hdone e he later (.tail _ hlater)
  · rw [hkept e he]
    exact (pairwise_cons.mp hs).1 later hlater

theorem key_entryOf (mutation : Mutation) :
    ∀ e ∈ (entryOf mutation).toList, e.1 = mutation.key := by
  intro e he
  obtain ⟨val, -, rfl⟩ := map_eq_some_iff.mp (mem_toList.mp he)
  rfl

theorem mergeLoop_merges (hkeys : leaf.keys = es.map Prod.fst) (hvals : leaf.vals = es.map Prod.snd)
    (hs : Increasing mutations) (h : Merging leaf es m result changed oldIdx done olds)
    (hdone : ∀ e ∈ done, ∀ mutation ∈ mutations, e.1 < mutation.key) :
    ∃ last, Merging leaf es (m.setAll (mutations.map update))
      (mergeLoop leaf result changed oldIdx olds mutations).1
      (mergeLoop leaf result changed oldIdx olds mutations).2 last
      (m.setAll (mutations.map update)).entries [] := by
  fun_induction mergeLoop leaf result changed oldIdx olds mutations generalizing m done with
  | case1 result changed oldIdx =>
    refine ⟨oldIdx, ?_⟩
    have hentries := h.entries
    rw [append_nil] at hentries
    exact hentries ▸ h
  | case2 result changed oldIdx old olds ih => exact ih hs (h.keep hkeys hvals) (by simp)
  | case3 result changed oldIdx mutation mutations val hvalue ih =>
    refine ih hs.tail (h.write [] (fun e he => hdone e he _ mem_cons_self) (by simp)
      (by simp) ?_) (below_later hs hdone (key_entryOf mutation))
    rw [entryOf, hvalue]
    rfl
  | case4 result changed oldIdx mutation mutations hvalue ih =>
    have hget := h.absent (fun e he => hdone e he _ mem_cons_self) (by simp)
    exact ih hs.tail (h.skip (hget.trans hvalue.symm))
      fun e he later hlater => hdone e he later (.tail _ hlater)
  | case5 result changed oldIdx old olds mutation mutations hlt ih =>
    refine ih hs (h.keep hkeys hvals) ?_
    -- the kept entry lies below the first mutation, so below all of them
    rw [forall_mem_append, forall_mem_singleton, forall_mem_cons]
    exact ⟨hdone, hlt, fun later hlater => hlt.trans ((pairwise_cons.mp hs).1 later hlater)⟩
  | case6 result changed oldIdx old olds mutation mutations _ heq val hvalue hne ih =>
    refine ih hs.tail (h.write [old] (fun e he => hdone e he _ mem_cons_self)
      (by simpa using heq) (heq ▸ h.behind) ?_) (below_later hs hdone (key_entryOf mutation))
    rw [entryOf, hvalue]
    rfl
  | case7 result changed oldIdx old olds mutation mutations _ heq val hvalue hval ih =>
    have hget : m.get? mutation.key = mutation.value := by
      rw [hvalue, ← not_ne_iff.mp hval, ← heq, ← m.mem_entries, h.entries]
      simp
    exact ih hs.tail ((h.keep hkeys hvals).skip hget)
      (below_later hs hdone (by simpa using heq))
  | case8 result changed oldIdx old olds mutation mutations _ heq hvalue ih =>
    refine ih hs.tail (h.write [old] (fun e he => hdone e he _ mem_cons_self)
      (by simpa using heq) (heq ▸ h.behind) ?_) (below_later hs hdone (key_entryOf mutation))
    rw [entryOf, hvalue]
    rfl
  | case9 result changed oldIdx old olds mutation mutations hle hne val hvalue ih =>
    have hlt := lt_of_le_of_ne (not_lt.mp hle) (Ne.symm hne)
    refine ih hs.tail (h.write [] (fun e he => hdone e he _ mem_cons_self) (by simp)
      ?_ ?_) (below_later hs hdone (key_entryOf mutation))
    · exact forall_mem_cons.mpr ⟨hlt, fun e he => hlt.trans (h.behind e he)⟩
    · rw [entryOf, hvalue]
      rfl
  | case10 result changed oldIdx old olds mutation mutations hle hne hvalue ih =>
    have hlt := lt_of_le_of_ne (not_lt.mp hle) (Ne.symm hne)
    have hget := h.absent (fun e he => hdone e he _ mem_cons_self)
      (forall_mem_cons.mpr ⟨hlt, fun e he => hlt.trans (h.behind e he)⟩)
    exact ih hs.tail (h.skip (hget.trans hvalue.symm))
      fun e he later hlater => hdone e he later (.tail _ hlater)

/-- Mutations behind all entries of a map. -/
theorem entries_setAll (hs : Increasing mutations)
    (hm : ∀ e ∈ m.entries, ∀ mutation ∈ mutations, e.1 < mutation.key) :
    (m.setAll (mutations.map update)).entries = m.entries ++ mutations.filterMap entryOf := by
  induction mutations generalizing m with
  | nil => simp [SortedMap.setAll]
  | cons mutation mutations ih =>
    have hset : (m.set mutation.key mutation.value).entries =
        m.entries ++ (entryOf mutation).toList := by
      have hes : m.entries = m.entries ++ [] ++ [] := by simp
      simpa [entryOf] using m.entries_set hes (fun e he => hm e he mutation mem_cons_self)
        (by simp) (by simp) mutation.value
    have hrest := ih (m := m.set mutation.key mutation.value) hs.tail
      (hset ▸ below_later hs hm (key_entryOf mutation))
    rw [hset] at hrest
    refine hrest.trans ?_
    cases hentry : entryOf mutation with
    | none => simp [hentry]
    | some entry => simp [hentry]

variable (leaf m) in
theorem mergeMutations_withEntries (hs : Increasing mutations) :
    (mergeMutations (leaf.withEntries m) mutations).1 =
      leaf.withEntries (m.setAll (mutations.map update)) := by
  unfold mergeMutations
  split
  · next hempty =>
    have hes : m.entries = [] := map_eq_nil_iff.mp hempty
    have hset := entries_setAll (m := m) hs (by simp [hes])
    simp [Node.withEntries, hset, hes]
  · have hes : (leaf.withEntries m).entries = m.entries := zip_fst_snd m.entries
    have hstart : Merging (leaf.withEntries m) m.entries m none false 0 [] m.entries :=
      ⟨rfl, by simp [leafMergeResult], rfl, rfl⟩
    obtain ⟨last, hend⟩ := mergeLoop_merges rfl rfl hs hstart (by simp)
    rw [hes]
    generalize mergeLoop _ _ _ _ _ _ = merged at hend
    obtain ⟨result, changed⟩ := merged
    obtain ⟨hrest, hbuffers, hchanged, -⟩ := hend
    obtain rfl : result.isSome = changed := hchanged
    cases result with
    | some buffers =>
      obtain rfl : buffers = _ := hbuffers
      rfl
    | none =>
      -- nothing was written, so the loop has passed over all entries
      have hall : m.entries.take last = m.entries := take_of_length_le (drop_eq_nil_iff.mp hrest)
      simp only [leafMergeResult, getD_none, Node.withEntries, ← map_take, hall,
        LeafMergeBuffers.mk.injEq] at hbuffers
      simp [Node.withEntries, hbuffers]

theorem existingKeyMutationChanges_locates
    (h : existingKeyMutationChanges leaf mutations = some changes) :
    Forall₂ (Locates leaf) mutations changes := by
  unfold existingKeyMutationChanges at h
  split at h
  · cases h
  · split at h
    · exact existingKeyMutationChangesLinear_locates h
    · exact existingKeyMutationChangesBinary_locates h

variable (leaf m) in
theorem applyMutationsToLeaf_withEntries (hs : Increasing mutations) :
    (applyMutationsToLeafWithChange (leaf.withEntries m) mutations).1 =
      leaf.withEntries (m.setAll (mutations.map update)) := by
  unfold applyMutationsToLeafWithChange
  split
  · next hempty =>
    subst hempty
    rfl
  · split
    · next hchanges => exact inPlace_withEntries hs (existingKeyMutationChanges_locates hchanges)
    · exact mergeMutations_withEntries leaf m hs

variable (leaf m) in
theorem applyLeafMutations_withEntries (hs : Increasing mutations) (useOptimizedMerge : Bool) :
    (applyLeafMutationsWithChange (leaf.withEntries m) mutations useOptimizedMerge).1 =
      leaf.withEntries (m.setAll (mutations.map update)) := by
  unfold applyLeafMutationsWithChange
  dsimp only
  split
  · exact binarySearch_withEntries leaf m mutations
  · exact applyMutationsToLeaf_withEntries leaf m hs

/-- **Every algorithm makes the same leaf.** For a leaf with keys in increasing order and mutations
in increasing key order there is one map, that of the leaf with the mutations applied, whose entries
the leaf has afterwards: by a search for each mutation, by the changes in place wherever a scan
finds all keys, by the merge, and by what the counts choose. -/
theorem leafEdits_agree (leaf : Node) (mutations : List Mutation)
    (hkeys : leaf.keys.Pairwise (· < ·)) (hvals : leaf.vals.length = leaf.keys.length)
    (hs : Increasing mutations) :
    ∃ edited : SortedMap Bytes Bytes,
      (∀ k, edited.get? k = (lookup (mutations.map update) k).getD (lookup leaf.entries k)) ∧
      (applyMutationsToLeafBinarySearchWithChange leaf mutations).1 = leaf.withEntries edited ∧
      (∀ changes, existingKeyMutationChangesBinary leaf none mutations = some changes ∨
        existingKeyMutationChangesLinear leaf 0 none mutations = some changes →
        (applyExistingKeyMutationsInPlace leaf changes).1 = leaf.withEntries edited) ∧
      (mergeMutations leaf mutations).1 = leaf.withEntries edited ∧
      (applyMutationsToLeafWithChange leaf mutations).1 = leaf.withEntries edited ∧
      ∀ useOptimizedMerge,
        (applyLeafMutationsWithChange leaf mutations useOptimizedMerge).1 =
          leaf.withEntries edited := by
  have hfst : leaf.entries.map Prod.fst = leaf.keys := map_fst_zip hvals.ge
  have hsnd : leaf.entries.map Prod.snd = leaf.vals := map_snd_zip hvals.le
  have hsorted : Sorted leaf.entries := sorted_iff_keys.mpr (hfst ▸ hkeys)
  obtain ⟨m, hm⟩ : ∃ m : SortedMap Bytes Bytes, m.entries = leaf.entries := ⟨⟨_, hsorted⟩, rfl⟩
  have hleaf : leaf.withEntries m = leaf := by rw [Node.withEntries, hm, hfst, hsnd]
  refine ⟨m.setAll (mutations.map update), fun k => ?_, ?_, fun changes hchanges => ?_, ?_, ?_, ?_⟩
  · rw [m.get?_setAll _ (pairwise_map.mpr hs), SortedMap.get?, hm]
  · simpa only [hleaf] using binarySearch_withEntries leaf m mutations
  · have hlocates := hchanges.elim existingKeyMutationChangesBinary_locates
      existingKeyMutationChangesLinear_locates
    rw [← hleaf] at hlocates
    simpa only [hleaf] using inPlace_withEntries hs hlocates
  · simpa only [hleaf] using mergeMutations_withEntries leaf m hs
  · simpa only [hleaf] using applyMutationsToLeaf_withEntries leaf m hs
  · intro useOptimizedMerge
    simpa only [hleaf] using
      applyLeafMutations_withEntries leaf m hs useOptimizedMerge

/-- A leaf that loses an entry and gets one, by a search for each mutation and by the merge. -/
theorem leafEdits_agree_sample :
    (applyMutationsToLeafBinarySearchWithChange { keys := [[1], [3]], vals := [[10], [30]] }
      [.delete [1], .upsert [2] [20], .delete [5]]).1 =
    (mergeMutations { keys := [[1], [3]], vals := [[10], [30]] }
      [.delete [1], .upsert [2] [20], .delete [5]]).1 := by
  obtain ⟨edited, -, hsearch, -, hmerge, -⟩ :=
    leafEdits_agree { keys := [[1], [3]], vals := [[10], [30]] }
      [.delete [1], .upsert [2] [20], .delete [5]] (by decide) rfl (by decide)
  exact hsearch.trans hmerge.symm

end LeafEdits

end Prolly
