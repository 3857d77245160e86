import Prolly.Lib.Patch

/-!
# Differences of sorted association lists

`diff` merges two sorted lists with two pointers and records where they differ.
Its meaning is `IsDiff`, a statement about the two finite maps only:
`mem_diff` says that the list holds exactly the differences and `diff_sorted`
that it holds them in strictly increasing key order, which together determine it
(`diff_unique`).

The merge is compositional: two pairs of lists separated by a key are merged
part by part (`diff_append`), and restricting both lists to a set of keys
restricts the differences (`diff_filter`). Traversals that split the key space
are proved with these two rules.
-/

namespace SortedAssoc

open List

variable {K V : Type*} (k : K) {f g : K → Option V}

/-- One difference between two finite maps. -/
inductive Diff (K V : Type*) where
  | added (key : K) (val : V)
  | removed (key : K) (val : V)
  | changed (key : K) (old new : V)
  deriving DecidableEq, Repr

/-- The key a difference is about. -/
def Diff.key : Diff K V → K
  | .added k _ => k
  | .removed k _ => k
  | .changed k _ _ => k

@[simp] theorem Diff.key_added (v : V) : (Diff.added k v).key = k := rfl
@[simp] theorem Diff.key_removed (v : V) : (Diff.removed k v).key = k := rfl
@[simp] theorem Diff.key_changed (o n : V) : (Diff.changed k o n).key = k := rfl

/-- `d` is a difference between the maps `f` (before) and `g` (after). -/
def IsDiff (f g : K → Option V) : Diff K V → Prop
  | .added k v => f k = none ∧ g k = some v
  | .removed k v => f k = some v ∧ g k = none
  | .changed k o n => f k = some o ∧ g k = some n ∧ o ≠ n

/-- There is a difference at a key exactly where the two maps disagree. -/
theorem exists_isDiff_iff {k : K} : (∃ d, IsDiff f g d ∧ d.key = k) ↔ f k ≠ g k := by
  constructor
  · rintro ⟨d, hd, rfl⟩
    cases d with
    | added k v => simp [hd.1, hd.2]
    | removed k v => simp [hd.1, hd.2]
    | changed k o n => simpa [hd.1, hd.2.1] using hd.2.2
  · intro h
    cases hf : f k with
    | none =>
      cases hg : g k with
      | none => simp [hf, hg] at h
      | some v => exact ⟨.added k v, ⟨hf, hg⟩, rfl⟩
    | some o =>
      cases hg : g k with
      | none => exact ⟨.removed k o, ⟨hf, hg⟩, rfl⟩
      | some n => exact ⟨.changed k o n, ⟨hf, hg, by simpa [hf, hg] using h⟩, rfl⟩

variable [LinearOrder K] [DecidableEq V] (os bs : List (K × V)) {d : Diff K V}

/-- One run of the outer pointer: the head `(k, v)` of the base list is held while
the other list is consumed; `rest` merges the tail of the base list. -/
def diffStep (k : K) (v : V) (bs : List (K × V)) (rest : List (K × V) → List (Diff K V)) :
    List (K × V) → List (Diff K V)
  | [] => .removed k v :: bs.map fun e => .removed e.1 e.2
  | (k', v') :: os =>
    if k < k' then .removed k v :: rest ((k', v') :: os)
    else if k' < k then .added k' v' :: diffStep k v bs rest os
    else if v = v' then rest os
    else .changed k v v' :: rest os

/-- Two-pointer merge of sorted lists, recording the differences. -/
def diff : List (K × V) → List (K × V) → List (Diff K V)
  | [], os => os.map fun e => .added e.1 e.2
  | (k, v) :: bs, os => diffStep k v bs (diff bs) os

theorem diff_nil_left : diff [] os = os.map fun e => .added e.1 e.2 := rfl

theorem diff_nil_right : diff bs [] = bs.map fun e => .removed e.1 e.2 := by
  cases bs with
  | nil => rfl
  | cons b bs => rfl

theorem diff_cons_cons (k k' : K) (v v' : V) (bs os : List (K × V)) :
    diff ((k, v) :: bs) ((k', v') :: os) =
      if k < k' then .removed k v :: diff bs ((k', v') :: os)
      else if k' < k then .added k' v' :: diff ((k, v) :: bs) os
      else if v = v' then diff bs os
      else .changed k v v' :: diff bs os := rfl

omit [DecidableEq V] in
/-- The two-pointer induction: one list is exhausted, or one or both heads go. -/
theorem diff_induction {motive : List (K × V) → List (K × V) → Prop}
    (nil_left : ∀ os, motive [] os) (nil_right : ∀ bs, motive bs [])
    (lt : ∀ k v bs k' v' os, k < k' → motive bs ((k', v') :: os) →
      motive ((k, v) :: bs) ((k', v') :: os))
    (gt : ∀ k v bs k' v' os, k' < k → motive ((k, v) :: bs) os →
      motive ((k, v) :: bs) ((k', v') :: os))
    (eq : ∀ k v bs v' os, motive bs os → motive ((k, v) :: bs) ((k, v') :: os)) :
    ∀ bs os, motive bs os := by
  intro bs
  induction bs with
  | nil => exact nil_left
  | cons b bs ihb =>
    intro os
    induction os with
    | nil => exact nil_right _
    | cons o os iho =>
      obtain ⟨k, v⟩ := b
      obtain ⟨k', v'⟩ := o
      rcases lt_trichotomy k k' with h | h | h
      · exact lt k v bs k' v' os h (ihb _)
      · subst h; exact eq k v bs v' os (ihb _)
      · exact gt k v bs k' v' os h iho

@[simp] theorem diff_self (es : List (K × V)) : diff es es = [] := by
  induction es with
  | nil => rfl
  | cons e es ih =>
    obtain ⟨k, v⟩ := e
    simp [diff_cons_cons, ih]

/-- A common prefix does not differ. -/
theorem diff_append_left (cs bs os : List (K × V)) : diff (cs ++ bs) (cs ++ os) = diff bs os := by
  induction cs with
  | nil => rfl
  | cons c cs ih =>
    obtain ⟨k, v⟩ := c
    simp [diff_cons_cons, ih]

/-- Every difference is at a key of one of the lists. -/
theorem key_of_mem_diff (hd : d ∈ diff bs os) :
    (∃ e ∈ bs, e.1 = d.key) ∨ ∃ e ∈ os, e.1 = d.key := by
  induction bs, os using diff_induction with
  | nil_left os =>
    simp only [diff_nil_left, mem_map] at hd
    obtain ⟨e, he, rfl⟩ := hd
    exact .inr ⟨e, he, rfl⟩
  | nil_right bs =>
    simp only [diff_nil_right, mem_map] at hd
    obtain ⟨e, he, rfl⟩ := hd
    exact .inl ⟨e, he, rfl⟩
  | lt k v bs k' v' os h ih =>
    rw [diff_cons_cons, if_pos h] at hd
    rcases mem_cons.mp hd with rfl | hd
    · simp
    · rcases ih hd with ⟨e, he, hk⟩ | h'
      · exact .inl ⟨e, .tail _ he, hk⟩
      · exact .inr h'
  | gt k v bs k' v' os h ih =>
    rw [diff_cons_cons, if_neg h.not_gt, if_pos h] at hd
    rcases mem_cons.mp hd with rfl | hd
    · simp
    · rcases ih hd with h' | ⟨e, he, hk⟩
      · exact .inl h'
      · exact .inr ⟨e, .tail _ he, hk⟩
  | eq k v bs v' os ih =>
    rw [diff_cons_cons, if_neg (lt_irrefl _), if_neg (lt_irrefl _)] at hd
    have hd' : d = .changed k v v' ∨ d ∈ diff bs os := by
      split at hd
      · exact .inr hd
      · exact mem_cons.mp hd
    rcases hd' with rfl | hd'
    · simp
    · rcases ih hd' with ⟨e, he, hk⟩ | ⟨e, he, hk⟩
      · exact .inl ⟨e, .tail _ he, hk⟩
      · exact .inr ⟨e, .tail _ he, hk⟩

/-- The differences come out in strictly increasing key order. -/
theorem diff_sorted {bs os : List (K × V)} (hb : Sorted bs) (ho : Sorted os) :
    (diff bs os).Pairwise fun d d' => d.key < d'.key := by
  induction bs, os using diff_induction with
  | nil_left os => simpa [diff_nil_left, pairwise_map, Sorted] using ho
  | nil_right bs => simpa [diff_nil_right, pairwise_map, Sorted] using hb
  | lt k v bs k' v' os h ih =>
    rw [diff_cons_cons, if_pos h, pairwise_cons]
    obtain ⟨hk, hb⟩ := sorted_cons.mp hb
    refine ⟨fun d hd => ?_, ih hb ho⟩
    rcases key_of_mem_diff _ _ hd with ⟨e, he, hd⟩ | ⟨e, he, hd⟩
    · exact hd ▸ hk e he
    · rcases mem_cons.mp he with rfl | he
      · exact hd ▸ h
      · exact hd ▸ h.trans ((sorted_cons.mp ho).1 e he)
  | gt k v bs k' v' os h ih =>
    rw [diff_cons_cons, if_neg h.not_gt, if_pos h, pairwise_cons]
    obtain ⟨hk, ho⟩ := sorted_cons.mp ho
    refine ⟨fun d hd => ?_, ih hb ho⟩
    rcases key_of_mem_diff _ _ hd with ⟨e, he, hd⟩ | ⟨e, he, hd⟩
    · rcases mem_cons.mp he with rfl | he
      · exact hd ▸ h
      · exact hd ▸ h.trans ((sorted_cons.mp hb).1 e he)
    · exact hd ▸ hk e he
  | eq k v bs v' os ih =>
    obtain ⟨hkb, hb⟩ := sorted_cons.mp hb
    obtain ⟨hko, ho⟩ := sorted_cons.mp ho
    rw [diff_cons_cons, if_neg (lt_irrefl _), if_neg (lt_irrefl _)]
    split
    · exact ih hb ho
    · refine pairwise_cons.mpr ⟨fun d hd => ?_, ih hb ho⟩
      rcases key_of_mem_diff _ _ hd with ⟨e, he, hd⟩ | ⟨e, he, hd⟩
      · exact hd ▸ hkb e he
      · exact hd ▸ hko e he

omit [DecidableEq V] in
/-- Below both lists there is nothing to differ. -/
theorem lookup_none_of_head_lt {k k' : K} {v : V} {es : List (K × V)}
    (hs : Sorted ((k, v) :: es)) (h : k' < k) : lookup ((k, v) :: es) k' = none := by
  refine lookup_eq_none.mpr fun e he => ?_
  rcases mem_cons.mp he with rfl | he
  · exact h.ne'
  · exact (h.trans ((sorted_cons.mp hs).1 e he)).ne'

omit [LinearOrder K] [DecidableEq V] in
theorem isDiff_congr_of_key_ne {f' g' : K → Option V} {k : K} (hf : ∀ x, x ≠ k → f x = f' x)
    (hg : ∀ x, x ≠ k → g x = g' x) (hd : d.key ≠ k) : IsDiff f g d ↔ IsDiff f' g' d := by
  cases d <;> simp only [Diff.key] at hd <;> simp [IsDiff, hf _ hd, hg _ hd]

/-- The merge finds exactly the differences of the two maps. -/
theorem mem_diff {bs os : List (K × V)} (hb : Sorted bs) (ho : Sorted os) (d : Diff K V) :
    d ∈ diff bs os ↔ IsDiff (lookup bs) (lookup os) d := by
  induction bs, os using diff_induction with
  | nil_left os =>
    simp only [diff_nil_left, mem_map]
    cases d with
    | added k v => simp [IsDiff, ho.lookup_eq_some]
    | removed k v => simp [IsDiff]
    | changed k o n => simp [IsDiff]
  | nil_right bs =>
    simp only [diff_nil_right, mem_map]
    cases d with
    | added k v => simp [IsDiff]
    | removed k v => simp [IsDiff, hb.lookup_eq_some]
    | changed k o n => simp [IsDiff]
  | lt k v bs k' v' os h ih =>
    obtain ⟨hk, hb'⟩ := sorted_cons.mp hb
    rw [diff_cons_cons, if_pos h, mem_cons, ih hb' ho]
    have hnone := lookup_none_of_head_lt ho h
    have hnone' : lookup bs k = none := lookup_eq_none.mpr fun e he => (hk e he).ne'
    by_cases hdk : d.key = k
    · cases d <;> simp only [Diff.key] at hdk <;> subst hdk <;>
        simp [IsDiff, hnone, hnone', eq_comm]
    · have hne : d ≠ .removed k v := by rintro rfl; exact hdk rfl
      simp only [hne, false_or]
      exact isDiff_congr_of_key_ne (fun x hx => (lookup_cons_ne (Ne.symm hx) _ _).symm)
        (fun _ _ => rfl) hdk
  | gt k v bs k' v' os h ih =>
    obtain ⟨hk, ho'⟩ := sorted_cons.mp ho
    rw [diff_cons_cons, if_neg h.not_gt, if_pos h, mem_cons, ih hb ho']
    have hnone := lookup_none_of_head_lt hb h
    have hnone' : lookup os k' = none := lookup_eq_none.mpr fun e he => (hk e he).ne'
    by_cases hdk : d.key = k'
    · cases d <;> simp only [Diff.key] at hdk <;> subst hdk <;>
        simp [IsDiff, hnone, hnone', eq_comm]
    · have hne : d ≠ .added k' v' := by rintro rfl; exact hdk rfl
      simp only [hne, false_or]
      exact isDiff_congr_of_key_ne (fun _ _ => rfl)
        (fun x hx => (lookup_cons_ne (Ne.symm hx) _ _).symm) hdk
  | eq k v bs v' os ih =>
    obtain ⟨hkb, hb'⟩ := sorted_cons.mp hb
    obtain ⟨hko, ho'⟩ := sorted_cons.mp ho
    have hnb : lookup bs k = none := lookup_eq_none.mpr fun e he => (hkb e he).ne'
    have hno : lookup os k = none := lookup_eq_none.mpr fun e he => (hko e he).ne'
    have hmem : d ∈ diff ((k, v) :: bs) ((k, v') :: os) ↔
        (v ≠ v' ∧ d = .changed k v v') ∨ d ∈ diff bs os := by
      rw [diff_cons_cons, if_neg (lt_irrefl _), if_neg (lt_irrefl _)]
      split <;> simp_all
    rw [hmem, ih hb' ho']
    by_cases hdk : d.key = k
    · cases d <;> simp only [Diff.key] at hdk <;> subst hdk <;>
        simp [IsDiff, hnb, hno]
      grind
    · have hne : ¬ (v ≠ v' ∧ d = .changed k v v') := by rintro ⟨-, rfl⟩; exact hdk rfl
      simp only [hne, false_or]
      exact isDiff_congr_of_key_ne (fun x hx => (lookup_cons_ne (Ne.symm hx) _ _).symm)
        (fun x hx => (lookup_cons_ne (Ne.symm hx) _ _).symm) hdk

omit [DecidableEq V] in
/-- A strictly sorted list of differences is determined by its members. -/
theorem eq_of_mem_iff {ds ds' : List (Diff K V)}
    (hs : ds.Pairwise fun d d' => d.key < d'.key) (hs' : ds'.Pairwise fun d d' => d.key < d'.key)
    (h : ∀ d, d ∈ ds ↔ d ∈ ds') : ds = ds' := by
  have hperm : ds.Perm ds' :=
    (perm_ext_iff_of_nodup (hs.imp fun h => by rintro rfl; exact h.false)
      (hs'.imp fun h => by rintro rfl; exact h.false)).mpr h
  exact hperm.eq_of_pairwise (fun a b _ _ hab hba => absurd hab hba.not_gt) hs hs'

/-- Pairs of lists separated by a key are merged part by part. -/
theorem diff_append {b1 b2 o1 o2 : List (K × V)} (hb : Sorted (b1 ++ b2)) (ho : Sorted (o1 ++ o2))
    (hbo : ∀ x ∈ b1, ∀ y ∈ o2, x.1 < y.1) (hob : ∀ x ∈ o1, ∀ y ∈ b2, x.1 < y.1) :
    diff (b1 ++ b2) (o1 ++ o2) = diff b1 o1 ++ diff b2 o2 := by
  induction b1, o1 using diff_induction with
  | nil_left o1 =>
    simp only [nil_append, diff_nil_left]
    induction o1 with
    | nil => rfl
    | cons o o1 ih =>
      obtain ⟨k', v'⟩ := o
      rw [map_cons, cons_append, cons_append, ← ih ho.tail (fun x hx => hob x (.tail _ hx))]
      cases b2 with
      | nil => simp [diff_nil_left]
      | cons b b2 =>
        obtain ⟨k, v⟩ := b
        have hlt : k' < k := hob (k', v') (by simp) (k, v) (by simp)
        rw [diff_cons_cons, if_neg hlt.not_gt, if_pos hlt]
  | nil_right b1 =>
    simp only [nil_append, diff_nil_right]
    induction b1 with
    | nil => rfl
    | cons b b1 ih =>
      obtain ⟨k, v⟩ := b
      rw [map_cons, cons_append, cons_append, ← ih hb.tail (fun x hx => hbo x (.tail _ hx))]
      cases o2 with
      | nil => simp [diff_nil_right]
      | cons o o2 =>
        obtain ⟨k', v'⟩ := o
        have hlt : k < k' := hbo (k, v) (by simp) (k', v') (by simp)
        rw [diff_cons_cons, if_pos hlt]
  | lt k v b1 k' v' o1 h ih =>
    have := ih hb.tail ho (fun x hx => hbo x (.tail _ hx)) hob
    simp only [cons_append] at this ⊢
    rw [diff_cons_cons, diff_cons_cons, if_pos h, if_pos h, this, cons_append]
  | gt k v b1 k' v' o1 h ih =>
    have := ih hb ho.tail hbo (fun x hx => hob x (.tail _ hx))
    simp only [cons_append] at this ⊢
    rw [diff_cons_cons, diff_cons_cons, if_neg h.not_gt, if_neg h.not_gt, if_pos h, if_pos h,
      this, cons_append]
  | eq k v b1 v' o1 ih =>
    have := ih hb.tail ho.tail (fun x hx => hbo x (.tail _ hx))
      (fun x hx => hob x (.tail _ hx))
    simp only [cons_append]
    rw [diff_cons_cons, diff_cons_cons, if_neg (lt_irrefl _), if_neg (lt_irrefl _),
      if_neg (lt_irrefl _), if_neg (lt_irrefl _), this]
    split <;> rfl

/-- Restricting both lists to a set of keys restricts the differences to it. -/
theorem diff_filter {bs os : List (K × V)} (hb : Sorted bs) (ho : Sorted os) (p : K → Bool) :
    diff (bs.filter fun e => p e.1) (os.filter fun e => p e.1) =
      (diff bs os).filter fun d => p d.key := by
  refine eq_of_mem_iff (diff_sorted (hb.filter _) (ho.filter _)) ((diff_sorted hb ho).filter _) ?_
  intro d
  rw [mem_diff (hb.filter _) (ho.filter _), mem_filter, mem_diff hb ho]
  cases d <;> simp only [IsDiff, lookup_filter_keys, Diff.key] <;> split <;> simp_all

/-! ### Differences as edits -/

/-- What a difference leaves at its key. -/
def Diff.value : Diff K V → Option V
  | .added _ v => some v
  | .removed _ _ => none
  | .changed _ _ new => some new

def Diff.edit (d : Diff K V) : K × Option V := (d.key, d.value)

theorem diff_sortedEdits {bs os : List (K × V)} (hb : Sorted bs) (ho : Sorted os) :
    SortedEdits ((diff bs os).map Diff.edit) :=
  pairwise_map.mpr (diff_sorted hb ho)

/-- The differences lead from the one list to the other. -/
theorem patch_diff {bs os : List (K × V)} (hb : Sorted bs) (ho : Sorted os) :
    patch bs ((diff bs os).map Diff.edit) = os := by
  induction bs, os using diff_induction with
  | nil_left os => simp [diff_nil_left, patch_nil_left, flatMap_map, Diff.edit, Diff.value]
  | nil_right bs =>
    rw [diff_nil_right]
    induction bs with
    | nil => exact patch_nil_right []
    | cons b bs ih => exact (patch_cons_eq rfl _ _).trans (ih hb.tail)
  | lt k v bs k' v' os h ih =>
    rw [diff_cons_cons, if_pos h]
    exact (patch_cons_eq rfl _ _).trans (ih hb.tail ho)
  | gt k v bs k' v' os h ih =>
    rw [diff_cons_cons, if_neg h.not_gt, if_pos h]
    exact (patch_cons_lt h _ _).trans (congrArg _ (ih hb ho.tail))
  | eq k v bs v' os ih =>
    have ih := ih hb.tail ho.tail
    rw [diff_cons_cons, if_neg (lt_irrefl k), if_neg (lt_irrefl k)]
    split
    · next hv =>
      -- the common entry lies in front of every difference
      rw [← singleton_append, patch_append_skip, ih, hv]
      · rfl
      intro x hx m hm
      obtain rfl := mem_singleton.mp hx
      obtain ⟨d, hd, rfl⟩ := mem_map.mp hm
      rcases key_of_mem_diff _ _ hd with ⟨e, he, hk⟩ | ⟨e, he, hk⟩
      · exact ((sorted_cons.mp hb).1 e he).trans_eq hk
      · exact ((sorted_cons.mp ho).1 e he).trans_eq hk
    · exact (patch_cons_eq rfl _ _).trans (congrArg _ ih)

end SortedAssoc
