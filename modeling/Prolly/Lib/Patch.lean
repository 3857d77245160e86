import Prolly.Lib.Edits

/-!
# Patching a sorted association list

`patch es ms` is the sorted list `es` after the edits `ms`, themselves in
strictly increasing key order. It keeps the order (`Sorted.patch`) and can be
computed part by part wherever the entries and the edits are cut at the same key
(`patch_append`).

`absorbAll` is the streaming form: it runs over the entries once, consuming the
edits it passes, and hands back the edits past the last entry.
-/

namespace SortedAssoc

open List

variable {K V : Type*} (k : K)

/-- The entry an edit leaves behind, if any. -/
def kept (m : K × Option V) : List (K × V) := (m.2.map fun v => (m.1, v)).toList

@[simp] theorem kept_none : kept (k, (none : Option V)) = [] := rfl
@[simp] theorem kept_some (v : V) : kept (k, some v) = [(k, v)] := rfl

variable [LinearOrder K] (es : List (K × V)) {e : K × V} {m : K × Option V}
  {ms ns : List (K × Option V)} {xs ys : List (K × V)}

/-- The entries after the edits. -/
def patch : List (K × V) → List (K × Option V) → List (K × V)
  | es, [] => es
  | [], m :: ms => kept m ++ patch [] ms
  | e :: es, m :: ms =>
    if m.1 < e.1 then kept m ++ patch (e :: es) ms
    else if m.1 = e.1 then kept m ++ patch es ms
    else e :: patch es (m :: ms)
termination_by es ms => es.length + ms.length

@[simp] theorem patch_nil_right : patch es [] = es := by
  cases es <;> simp [patch]

theorem patch_nil_left (ms : List (K × Option V)) :
    patch ([] : List (K × V)) ms = ms.flatMap kept := by
  induction ms with
  | nil => simp
  | cons m ms ih => simp [patch, ih]

theorem patch_cons_lt (h : m.1 < e.1) (es : List (K × V)) (ms : List (K × Option V)) :
    patch (e :: es) (m :: ms) = kept m ++ patch (e :: es) ms := by
  rw [patch, if_pos h]

theorem patch_cons_eq (h : m.1 = e.1) (es : List (K × V)) (ms : List (K × Option V)) :
    patch (e :: es) (m :: ms) = kept m ++ patch es ms := by
  rw [patch, if_neg h.not_lt, if_pos h]

theorem patch_cons_gt (h : e.1 < m.1) (es : List (K × V)) (ms : List (K × Option V)) :
    patch (e :: es) (m :: ms) = e :: patch es (m :: ms) := by
  rw [patch, if_neg h.not_gt, if_neg h.ne']

/-- Case analysis along the recursion of `patch`. -/
theorem patch_induction {motive : List (K × V) → List (K × Option V) → Prop}
    (nil_right : ∀ es, motive es []) (nil_left : ∀ ms, motive [] ms)
    (lt : ∀ e es m ms, m.1 < e.1 → motive (e :: es) ms → motive (e :: es) (m :: ms))
    (eq : ∀ e es m ms, m.1 = e.1 → motive es ms → motive (e :: es) (m :: ms))
    (gt : ∀ e es m ms, e.1 < m.1 → motive es (m :: ms) → motive (e :: es) (m :: ms))
    (es : List (K × V)) (ms : List (K × Option V)) : motive es ms := by
  induction es generalizing ms with
  | nil => exact nil_left ms
  | cons e es ih =>
    induction ms with
    | nil => exact nil_right _
    | cons m ms ihm =>
      rcases lt_trichotomy m.1 e.1 with h | h | h
      · exact lt e es m ms h ihm
      · exact eq e es m ms h (ih ms)
      · exact gt e es m ms h (ih (m :: ms))

/-- Edits in strictly increasing key order. -/
abbrev SortedEdits (ms : List (K × Option V)) : Prop := ms.Pairwise fun a b => a.1 < b.1

/-! ### Patching part by part -/

/-- Edits past every entry are appended. -/
theorem patch_append_right {es : List (K × V)} (h : ∀ e ∈ es, ∀ n ∈ ns, e.1 < n.1) :
    patch es (ms ++ ns) = patch es ms ++ ns.flatMap kept := by
  induction es, ms using patch_induction with
  | nil_right es =>
    rw [nil_append, patch_nil_right]
    induction es with
    | nil => rw [patch_nil_left, nil_append]
    | cons e es ih =>
      cases ns with
      | nil => simp
      | cons n ns =>
        rw [patch_cons_gt (h e mem_cons_self n mem_cons_self),
          ih fun e' he' => h e' (.tail _ he'), cons_append]
  | nil_left ms => rw [patch_nil_left, patch_nil_left, flatMap_append]
  | lt e es m ms hlt ih =>
    rw [cons_append, patch_cons_lt hlt, patch_cons_lt hlt, ih h, append_assoc]
  | eq e es m ms heq ih =>
    rw [cons_append, patch_cons_eq heq, patch_cons_eq heq,
      ih fun e' he' => h e' (.tail _ he'), append_assoc]
  | gt e es m ms hgt ih =>
    rw [cons_append, patch_cons_gt hgt, patch_cons_gt hgt, ← cons_append,
      ih fun e' he' => h e' (.tail _ he'), cons_append]

/-- Edits in front of every entry are put there. -/
theorem patch_append_left {es : List (K × V)} (h : ∀ m ∈ ms, ∀ e ∈ es, m.1 < e.1) :
    patch es (ms ++ ns) = ms.flatMap kept ++ patch es ns := by
  induction ms with
  | nil => simp
  | cons m ms ih =>
    have hms := ih fun m' hm' => h m' (.tail _ hm')
    cases es with
    | nil => rw [patch_nil_left, patch_nil_left, flatMap_append]
    | cons e es =>
      rw [cons_append, patch_cons_lt (h m mem_cons_self e mem_cons_self), hms]
      simp

/-- Entries in front of every edit stay. -/
theorem patch_append_skip (h : ∀ x ∈ xs, ∀ m ∈ ms, x.1 < m.1) :
    patch (xs ++ ys) ms = xs ++ patch ys ms := by
  induction xs with
  | nil => rfl
  | cons x xs ih =>
    cases ms with
    | nil => simp
    | cons m ms =>
      rw [cons_append, patch_cons_gt (h x mem_cons_self m mem_cons_self),
        ih fun x' hx' => h x' (.tail _ hx'), cons_append]

/-- Entries and edits cut at the same key are patched one part after the other. -/
theorem patch_append (hxn : ∀ x ∈ xs, ∀ n ∈ ns, x.1 < n.1) (hmy : ∀ m ∈ ms, ∀ y ∈ ys, m.1 < y.1) :
    patch (xs ++ ys) (ms ++ ns) = patch xs ms ++ patch ys ns := by
  induction xs, ms using patch_induction with
  | nil_right xs => rw [nil_append, patch_nil_right, patch_append_skip hxn]
  | nil_left ms => rw [nil_append, patch_append_left hmy, patch_nil_left]
  | lt e es m ms hlt ih =>
    rw [cons_append, cons_append, patch_cons_lt hlt, patch_cons_lt hlt,
      ← cons_append, ih hxn fun m' hm' => hmy m' (.tail _ hm'), append_assoc]
  | eq e es m ms heq ih =>
    rw [cons_append, cons_append, patch_cons_eq heq, patch_cons_eq heq,
      ih (fun x hx => hxn x (.tail _ hx))
        fun m' hm' => hmy m' (.tail _ hm'), append_assoc]
  | gt e es m ms hgt ih =>
    rw [cons_append, cons_append, patch_cons_gt hgt, patch_cons_gt hgt,
      ← cons_append, ih (fun x hx => hxn x (.tail _ hx)) hmy, cons_append]

/-! ### What a patched list holds -/

section

variable {es : List (K × V)}

/-- The entries whose keys satisfy a condition are patched by the edits of such keys. -/
theorem filter_patch (P : K → Bool) (hs : Sorted es) (hms : SortedEdits ms) :
    (patch es ms).filter (fun e => P e.1) =
      patch (es.filter fun e => P e.1) (ms.filter fun m => P m.1) := by
  have hkept : ∀ m : K × Option V,
      (kept m).filter (fun e => P e.1) = ([m].filter fun m => P m.1).flatMap kept := by
    intro m
    obtain ⟨k, v⟩ := m
    cases v <;> cases h : P k <;> simp [h]
  induction es, ms using patch_induction with
  | nil_right es => simp
  | nil_left ms =>
    rw [filter_nil, patch_nil_left, patch_nil_left]
    induction ms with
    | nil => rfl
    | cons m ms ih =>
      rw [flatMap_cons, filter_append, ih (pairwise_cons.mp hms).2, hkept, ← flatMap_append,
        ← filter_append, singleton_append]
  | lt e es m ms hlt ih =>
    -- the edit is in front of every entry that is left, whether or not `e` is
    rw [patch_cons_lt hlt, filter_append, ih hs (pairwise_cons.mp hms).2, hkept,
      ← patch_append_left, ← filter_append, singleton_append]
    intro m' hm' e' he'
    grind [sorted_cons]
  | eq e es m ms heq ih =>
    rw [patch_cons_eq heq, filter_append, ih hs.tail (pairwise_cons.mp hms).2, hkept]
    have he : P e.1 = P m.1 := by rw [heq]
    cases h : P m.1 with
    | true => simp [h, he, patch_cons_eq heq]
    | false => simp [h, he]
  | gt e es m ms hgt ih =>
    rw [patch_cons_gt hgt, ← singleton_append, filter_append, ih hs.tail hms, ← patch_append_skip,
      ← filter_append]
    · rfl
    intro e' he' m' hm'
    grind [pairwise_cons]

theorem Sorted.filter_key (hs : Sorted es) (k : K) :
    es.filter (fun e => decide (e.1 = k)) = ((lookup es k).map fun v => (k, v)).toList := by
  refine (hs.filter _).ext ?_ fun k' => ?_
  · cases lookup es k <;> simp
  · rw [lookup_filter_keys fun k' => decide (k' = k)]
    by_cases h : k' = k
    · subst h
      cases lookup es k' <;> simp
    · cases lookup es k <;> simp [h, lookup_cons, Ne.symm h]

/-- An edited key has what its edit leaves, any other key what it had. -/
theorem lookup_patch (hs : Sorted es) (hms : SortedEdits ms) (k : K) :
    lookup (patch es ms) k = (lookup ms k).getD (lookup es k) := by
  have h : lookup (patch es ms) k = lookup ((patch es ms).filter fun e => decide (e.1 = k)) k := by
    simp [lookup_filter_keys fun k' => decide (k' = k)]
  rw [h, filter_patch (fun k' => decide (k' = k)) hs hms, hs.filter_key, Sorted.filter_key hms]
  rcases lookup es k with _ | v <;> rcases lookup ms k with _ | _ | v' <;>
    simp [patch_nil_left, patch_cons_eq]

end

/-! ### The streaming form -/

/-- Pass one entry: edits in front of it come first, an edit of its key replaces it. -/
def absorb (e : K × V) : List (K × Option V) → List (K × V) × List (K × Option V)
  | [] => ([e], [])
  | m :: ms =>
    if m.1 < e.1 then
      let rest := absorb e ms
      (kept m ++ rest.1, rest.2)
    else if m.1 = e.1 then (kept m, ms)
    else ([e], m :: ms)

/-- Pass the entries one after the other. -/
def absorbAll : List (K × V) → List (K × Option V) → List (K × V) × List (K × Option V)
  | [], ms => ([], ms)
  | e :: es, ms =>
    let first := absorb e ms
    let rest := absorbAll es first.2
    (first.1 ++ rest.1, rest.2)

theorem patch_cons_absorb (e : K × V) (es : List (K × V)) (ms : List (K × Option V)) :
    patch (e :: es) ms = (absorb e ms).1 ++ patch es (absorb e ms).2 := by
  induction ms with
  | nil => simp [absorb]
  | cons m ms ih =>
    rcases lt_trichotomy m.1 e.1 with h | h | h
    · rw [patch_cons_lt h, ih, absorb, if_pos h, append_assoc]
    · rw [patch_cons_eq h, absorb, if_neg h.not_lt, if_pos h]
    · rw [patch_cons_gt h, absorb, if_neg h.not_gt, if_neg h.ne', singleton_append]

/-- The stream, followed by the edits left over, is the patched list. -/
theorem absorbAll_patch (ms : List (K × Option V)) :
    (absorbAll es ms).1 ++ (absorbAll es ms).2.flatMap kept = patch es ms := by
  induction es generalizing ms with
  | nil => rw [absorbAll, patch_nil_left, nil_append]
  | cons e es ih => rw [patch_cons_absorb, absorbAll, append_assoc, ih]

theorem absorb_append (h : ∀ n ∈ ns, e.1 < n.1) :
    absorb e (ms ++ ns) = ((absorb e ms).1, (absorb e ms).2 ++ ns) := by
  induction ms with
  | nil =>
    cases ns with
    | nil => rfl
    | cons n ns =>
      have hn := h n mem_cons_self
      simp [absorb, hn.not_gt, hn.ne']
  | cons m ms ih =>
    rw [cons_append, absorb, absorb]
    split
    · rw [ih]
    · split
      · rfl
      · rfl

/-- Edits past every entry are left over as they are. -/
theorem absorbAll_append {es : List (K × V)} (h : ∀ e ∈ es, ∀ n ∈ ns, e.1 < n.1) :
    absorbAll es (ms ++ ns) = ((absorbAll es ms).1, (absorbAll es ms).2 ++ ns) := by
  induction es generalizing ms with
  | nil => rfl
  | cons e es ih =>
    rw [absorbAll, absorbAll, absorb_append (h e mem_cons_self)]
    simp only [ih fun e' he' => h e' (.tail _ he')]

theorem absorb_suffix (e : K × V) (ms : List (K × Option V)) : (absorb e ms).2 <:+ ms := by
  induction ms with
  | nil => exact suffix_refl _
  | cons m ms ih =>
    rw [absorb]
    split
    · exact ih.trans (suffix_cons m ms)
    · split
      · exact suffix_cons m ms
      · exact suffix_refl _

theorem absorbAll_suffix (ms : List (K × Option V)) : (absorbAll es ms).2 <:+ ms := by
  induction es generalizing ms with
  | nil => exact suffix_refl _
  | cons e es ih => exact (ih _).trans (absorb_suffix e ms)

end SortedAssoc
