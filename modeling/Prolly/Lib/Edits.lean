import Mathlib.Data.List.Induction
import Mathlib.Data.List.Sort
import Mathlib.Logic.Function.Basic
import Prolly.Lib.SortedAssoc

/-!
# Edit scripts on finite maps

An edit names a key and the value it leaves there (`none` removes the key).
`apply` runs a script on a map from left to right. Only the last edit of a key
counts (`apply_eq`), so a script may be sorted by key with a stable sort and
reduced to the last edit of each run of equal keys without changing its meaning
(`apply_normalize`); the reduced script is strictly sorted (`normalize_sorted`).

Scripts are lists over an arbitrary type of edits, with projections `key` and
`val`.
-/

namespace Edits

open List

variable {K V M : Type*} [LinearOrder K] (key : M → K) (val : M → Option V) (f : K → Option V)
  {es : List M} {e : M}

/-- Run an edit script on a map. -/
def apply (f : K → Option V) (es : List M) : K → Option V :=
  es.foldl (fun f e => Function.update f (key e) (val e)) f

@[simp] theorem apply_nil : apply key val f [] = f := rfl

@[simp] theorem apply_cons (e : M) (es : List M) :
    apply key val f (e :: es) = apply key val (Function.update f (key e) (val e)) es := rfl

theorem apply_append (es es' : List M) :
    apply key val f (es ++ es') = apply key val (apply key val f es) es' := by
  simp [apply, foldl_append]

/-- The value a script leaves at a key is that of the key's last edit. -/
theorem apply_eq (es : List M) (k : K) :
    apply key val f es k = ((es.filter fun e => key e = k).getLast?.map val).getD (f k) := by
  induction es using List.reverseRecOn with
  | nil => simp
  | append_singleton es e ih =>
    rw [apply_append, apply_cons, apply_nil]
    by_cases h : key e = k
    · subst h; simp [filter_append]
    · simp [filter_append, h, Function.update_of_ne (Ne.symm h), ih]

theorem apply_of_forall_ne {f : K → Option V} {k : K} (h : ∀ e ∈ es, key e ≠ k) :
    apply key val f es k = f k := by
  rw [apply_eq, filter_eq_nil_iff.mpr (by simpa using h)]
  rfl

/-- In a script with distinct keys every edit takes effect. -/
theorem apply_of_mem {f : K → Option V} (hs : es.Pairwise fun a b => key a < key b) (he : e ∈ es) :
    apply key val f es (key e) = val e := by
  have hfilter : es.filter (fun e' => key e' = key e) = [e] := by
    induction es with
    | nil => simp at he
    | cons a es ih =>
      obtain ⟨ha, hs⟩ := pairwise_cons.mp hs
      rcases mem_cons.mp he with rfl | he
      · rw [filter_cons_of_pos (by simp), filter_eq_nil_iff.mpr]
        intro b hb
        simpa using (ha b hb).ne'
      · rw [filter_cons_of_neg (by simpa using (ha e he).ne), ih hs he]
  rw [apply_eq, hfilter]
  rfl

/-- Two scripts with the same edits of every key mean the same. -/
theorem apply_congr {es' : List M}
    (h : ∀ k, es.filter (fun e => key e = k) = es'.filter fun e => key e = k) (f : K → Option V) :
    apply key val f es = apply key val f es' := by
  funext k
  rw [apply_eq, apply_eq, h]

/-! ### Normal form -/

/-- Stable sort by key. -/
def sortByKey (es : List M) : List M := es.insertionSort fun a b => key a ≤ key b

theorem filter_orderedInsert (e : M) (es : List M) (k : K) :
    (es.orderedInsert (fun a b => key a ≤ key b) e).filter (fun e => key e = k) =
      (e :: es).filter fun e => key e = k := by
  induction es with
  | nil => rfl
  | cons a es ih =>
    rw [orderedInsert_cons]
    split
    · rfl
    · next h =>
        have hlt := not_le.mp h
        by_cases ha : key a = k
        · have he : key e ≠ k := fun he => hlt.ne (ha.trans he.symm)
          rw [filter_cons_of_pos (by simpa using ha), ih, filter_cons_of_neg (by simpa using he),
            filter_cons_of_neg (by simpa using he), filter_cons_of_pos (by simpa using ha)]
        · rw [filter_cons_of_neg (by simpa using ha), ih]
          by_cases he : key e = k
          · rw [filter_cons_of_pos (by simpa using he), filter_cons_of_pos (by simpa using he),
              filter_cons_of_neg (by simpa using ha)]
          · rw [filter_cons_of_neg (by simpa using he), filter_cons_of_neg (by simpa using he),
              filter_cons_of_neg (by simpa using ha)]

/-- Sorting keeps the edits of each key and their order. -/
theorem filter_sortByKey (es : List M) (k : K) :
    (sortByKey key es).filter (fun e => key e = k) = es.filter fun e => key e = k := by
  induction es with
  | nil => rfl
  | cons e es ih =>
    have hstep : sortByKey key (e :: es) =
        (sortByKey key es).orderedInsert (fun a b => key a ≤ key b) e := rfl
    rw [hstep, filter_orderedInsert, filter_cons, filter_cons, ih]

theorem sortByKey_sorted (es : List M) :
    (sortByKey key es).Pairwise fun a b => key a ≤ key b :=
  haveI : Std.Total (fun a b : M => key a ≤ key b) := ⟨fun a b => le_total (key a) (key b)⟩
  haveI : IsTrans M (fun a b => key a ≤ key b) := ⟨fun _ _ _ => le_trans⟩
  pairwise_insertionSort _ es

/-- Keep the last edit of each run of equal keys. -/
def keepLast : List M → List M
  | [] => []
  | [e] => [e]
  | a :: b :: es => if key a = key b then keepLast (b :: es) else a :: keepLast (b :: es)

/-- The edits in key order, the last one of each key. -/
def normalize (es : List M) : List M := keepLast key (sortByKey key es)

theorem mem_of_mem_keepLast (h : e ∈ keepLast key es) : e ∈ es := by
  induction es using keepLast.induct key with
  | case1 => simp [keepLast] at h
  | case2 a => simpa [keepLast] using h
  | case3 a b es hab ih =>
    rw [keepLast, if_pos hab] at h
    exact .tail _ (ih h)
  | case4 a b es hab ih =>
    rw [keepLast, if_neg hab] at h
    rcases mem_cons.mp h with rfl | h
    · exact mem_cons_self
    · exact .tail _ (ih h)

theorem keepLast_sorted (h : es.Pairwise fun a b => key a ≤ key b) :
    (keepLast key es).Pairwise fun a b => key a < key b := by
  induction es using keepLast.induct key with
  | case1 => exact List.Pairwise.nil
  | case2 a => exact pairwise_singleton _ _
  | case3 a b es hab ih =>
    rw [keepLast, if_pos hab]
    exact ih (pairwise_cons.mp h).2
  | case4 a b es hab ih =>
    rw [keepLast, if_neg hab]
    obtain ⟨ha, h⟩ := pairwise_cons.mp h
    refine pairwise_cons.mpr ⟨fun e he => ?_, ih h⟩
    have hlt : key a < key b := lt_of_le_of_ne (ha b mem_cons_self) hab
    rcases mem_cons.mp (mem_of_mem_keepLast key he) with rfl | he
    · exact hlt
    · exact hlt.trans_le ((pairwise_cons.mp h).1 e he)

theorem apply_keepLast (es : List M) : apply key val f (keepLast key es) = apply key val f es := by
  induction es using keepLast.induct key generalizing f with
  | case1 => rfl
  | case2 a => rfl
  | case3 a b es hab ih =>
    rw [keepLast, if_pos hab, ih]
    simp [hab]
  | case4 a b es hab ih =>
    rw [keepLast, if_neg hab]
    simp only [apply_cons, ih]

/-- Normalizing a script does not change what it does. -/
theorem apply_normalize (es : List M) :
    apply key val f (normalize key es) = apply key val f es := by
  rw [normalize, apply_keepLast]
  exact apply_congr key val (filter_sortByKey key es) f

theorem normalize_sorted (es : List M) :
    (normalize key es).Pairwise fun a b => key a < key b :=
  keepLast_sorted key (sortByKey_sorted key es)

end Edits
