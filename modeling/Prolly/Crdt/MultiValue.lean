import Prolly.Crdt.Model
import Prolly.Lib.Grouping

/-!
# Prolly.Crdt.MultiValue

What the multi-value strategy keeps and when it converges.

`resolve_mv` reads each side with `MultiValueSet.ofValue`. A side that parses as a
set without being the encoding of a non-empty one (`¬ Tagged`) is replaced by what
it parses as, so its own bytes are lost unless the other side has them.

The merge of several replicas against a fixed base compares intermediate results
with the base again. If the base is an encoded set, a group of replicas may merge
to exactly the base and then count as unchanged: the group vanishes
(`Vanishes`). Every grouping of the replicas gives the union of the replicas'
sets, except for the groups that vanish on the way (`Grouping.outcome`).
-/

namespace Prolly

open List

namespace MultiValueSet

/-! ### What one resolution keeps -/

/-- The bytes are what `to_bytes` gives for a non-empty set. -/
structure Encodes (bytes : Bytes) (s : MultiValueSet) : Prop where
  nonempty : s.values ≠ []
  toBytes_eq : s.toBytes = bytes

/-- The side's whole value is in the set, or all members of the set it encodes. -/
def HoldsSide (s : MultiValueSet) (side : Bytes) : Prop :=
  side ∈ s.values ∨ ∃ t, Encodes side t ∧ ∀ v ∈ t.values, v ∈ s.values

def FromSide (side v : Bytes) : Prop := v = side ∨ ∃ t, Encodes side t ∧ v ∈ t.values

/-- The resolution of two sides decodes, holds both sides and nothing else. -/
def Keeps (left right : Bytes) : Prop :=
  ∃ s, fromBytes (resolveMv left right) = some s ∧ s.HoldsSide left ∧ s.HoldsSide right ∧
    ∀ v ∈ s.values, FromSide left v ∨ FromSide right v

/-- A value that does not parse, or is the encoding of the non-empty set it parses as. -/
def Tagged (value : Bytes) : Prop :=
  ∀ s, fromBytes value = some s → s.values ≠ [] ∧ s.toBytes = value

/-- The side is told from a set, or the other side has it and what it parses as. -/
def Accounted (side other : Bytes) : Prop :=
  Tagged side ∨ (Tagged other ∧ side ∈ (ofValue other).values ∧
    ∀ v ∈ (ofValue side).values, v ∈ (ofValue other).values)

variable {bytes v value left right side other x y b : Bytes} {s u : MultiValueSet}
  {replicas xs ys leaves gone kept : List Bytes} {base : Option Bytes} {g : Grouping Bytes}

/-- Below `2^32` bytes no count or length is cut off. -/
theorem Encodes.fits (h : Encodes bytes s) (hlen : bytes.length < 2 ^ 32) : s.Fits := by
  have hbytes : bytes = beBytes 4 (fromValues s.values).values.length
      ++ encodeValues (fromValues s.values).values := h.toBytes_eq.symm
  have htotal : bytes.length = 4 + (encodeValues (fromValues s.values).values).length := by
    rw [hbytes]; simp
  constructor
  · have := length_encodeValues (fromValues s.values).values
    omega
  · intro v hv
    have := length_lt_encodeValues (mem_fromValues.mpr hv)
    omega

theorem Encodes.ofValue (h : Encodes bytes s) (hlen : bytes.length < 2 ^ 32) :
    v ∈ (ofValue bytes).values ↔ v ∈ s.values := by
  rw [← h.toBytes_eq, ofValue_toBytes (h.fits hlen), mem_fromValues]

theorem ofValue_of_none (h : fromBytes value = none) : ofValue value = single value := by
  rw [ofValue, h, Option.getD_none]

theorem ofValue_of_some (h : fromBytes value = some s) : ofValue value = s := by
  rw [ofValue, h, Option.getD_some]

/-- The members of a parsed set are shorter than its bytes. -/
theorem length_lt_of_fromBytes (h : fromBytes value = some s) (hv : v ∈ s.values) :
    v.length < value.length := by
  obtain ⟨values, hspells, rfl⟩ := fromBytes_eq_some.mp h
  exact hspells.length_lt (mem_fromValues.mp hv)

theorem length_le_of_ofValue (hv : v ∈ (ofValue value).values) : v.length ≤ value.length := by
  cases h : fromBytes value with
  | none =>
    rw [ofValue_of_none h] at hv
    exact le_of_eq (congrArg List.length (mem_singleton.mp hv))
  | some s =>
    rw [ofValue_of_some h] at hv
    exact le_of_lt (length_lt_of_fromBytes h hv)

/-- As many members as four-byte lengths fit. -/
theorem length_ofValue (hlen : value.length < 2 ^ 32) : (ofValue value).values.length ≤ 2 ^ 30 := by
  cases h : fromBytes value with
  | none => rw [ofValue_of_none h]; simp [single]
  | some s =>
    obtain ⟨values, hspells, rfl⟩ := fromBytes_eq_some.mp h
    have hcount := length_encodeValues values
    have hbytes := congrArg List.length hspells.bytes_eq
    have hle : (fromValues values).values.length ≤ values.length := by
      have hnodup : (fromValues values).values.Nodup :=
        (fromValues_canonical values).imp fun h => ne_of_lt h
      exact (subperm_of_subset hnodup fun v hv => mem_fromValues.mp hv).length_le
    rw [ofValue_of_some h]
    rw [length_append, PrefixCode.bigEndian_length] at hbytes
    omega

theorem merge_fits (hl : left.length < 2 ^ 32) (hr : right.length < 2 ^ 32) :
    ((ofValue left).merge (ofValue right)).Fits := by
  constructor
  · rw [(merge_canonical _ _).fromValues_eq]
    have hnodup : ((ofValue left).merge (ofValue right)).values.Nodup :=
      (merge_canonical _ _).imp fun h => ne_of_lt h
    have hsub : ((ofValue left).merge (ofValue right)).values
        ⊆ (ofValue left).values ++ (ofValue right).values := fun v hv => by simpa using hv
    have hle := (subperm_of_subset hnodup hsub).length_le
    rw [length_append] at hle
    have := length_ofValue hl
    have := length_ofValue hr
    omega
  · intro v hv
    rcases mem_merge.mp hv with h | h
    · exact lt_of_le_of_lt (length_le_of_ofValue h) hl
    · exact lt_of_le_of_lt (length_le_of_ofValue h) hr

theorem fromBytes_resolveMv (hl : left.length < 2 ^ 32) (hr : right.length < 2 ^ 32) :
    fromBytes (resolveMv left right) = some ((ofValue left).merge (ofValue right)) := by
  rw [resolveMv, fromBytes_toBytes (merge_fits hl hr), (merge_canonical _ _).fromValues_eq]

theorem Tagged.encodes (h : Tagged value) (hs : fromBytes value = some s) : Encodes value s :=
  ⟨(h s hs).1, (h s hs).2⟩

/-- What a tagged side is read as is there, so the side is held. -/
theorem Tagged.holdsSide (h : Tagged value) (hsub : ∀ v ∈ (ofValue value).values, v ∈ s.values) :
    s.HoldsSide value := by
  cases hvalue : fromBytes value with
  | none =>
    rw [ofValue_of_none hvalue] at hsub
    exact .inl (hsub value (mem_singleton_self _))
  | some t =>
    rw [ofValue_of_some hvalue] at hsub
    exact .inr ⟨t, h.encodes hvalue, hsub⟩

theorem Tagged.fromSide (h : Tagged value) (hv : v ∈ (ofValue value).values) :
    FromSide value v := by
  cases hvalue : fromBytes value with
  | none =>
    rw [ofValue_of_none hvalue] at hv
    exact .inl (mem_singleton.mp hv)
  | some t =>
    rw [ofValue_of_some hvalue] at hv
    exact .inr ⟨t, h.encodes hvalue, hv⟩

/-- A side that is read as something else parses, and encodes no set. -/
theorem not_tagged (hlen : value.length < 2 ^ 32) (h : ¬ Tagged value) :
    (∃ s, fromBytes value = some s) ∧ ∀ t, ¬ Encodes value t := by
  unfold Tagged at h
  push Not at h
  obtain ⟨s, hs, hbad⟩ := h
  refine ⟨⟨s, hs⟩, fun t ht => ?_⟩
  have hread : s = fromValues t.values := by
    have hback := fromBytes_toBytes (ht.fits hlen)
    rw [ht.toBytes_eq, hs] at hback
    exact Option.some.inj hback
  have hne : s.values ≠ [] := by
    obtain ⟨v, hv⟩ := exists_mem_of_ne_nil _ ht.nonempty
    intro hnil
    have : v ∈ s.values := by rw [hread]; exact mem_fromValues.mpr hv
    rw [hnil] at this
    cases this
  apply hbad hne
  rw [hread, ← ht.toBytes_eq, toBytes, toBytes, (fromValues_canonical _).fromValues_eq]

/-- A side that is not tagged is held only as a member of the other side. -/
theorem mem_other_of_holdsSide (hlen : side.length < 2 ^ 32) (h : ¬ Tagged side)
    (hs : ∀ v ∈ s.values, v ∈ (ofValue side).values ∨ v ∈ (ofValue other).values)
    (hheld : s.HoldsSide side) : side ∈ (ofValue other).values := by
  obtain ⟨⟨t, ht⟩, hnone⟩ := not_tagged hlen h
  rcases hheld with hmem | ⟨u, hu, -⟩
  · rcases hs side hmem with hself | hother
    · rw [ofValue_of_some ht] at hself
      exact absurd (length_lt_of_fromBytes ht hself) (lt_irrefl _)
    · exact hother
  · exact absurd hu (hnone u)

/-- A side that is not tagged accounts for none of what it is read as, so the other
side has to. -/
theorem accounted_of_keeps (hside : side.length < 2 ^ 32) (hother : other.length < 2 ^ 32)
    (hs : ∀ v, v ∈ s.values ↔ v ∈ (ofValue side).values ∨ v ∈ (ofValue other).values)
    (hheld : s.HoldsSide side) (hheld' : s.HoldsSide other)
    (honly : ∀ v ∈ s.values, FromSide side v ∨ FromSide other v) : Accounted side other := by
  by_cases h : Tagged side
  · exact .inl h
  obtain ⟨⟨t, ht⟩, hnone⟩ := not_tagged hside h
  have hmem := mem_other_of_holdsSide hside h (fun v => (hs v).mp) hheld
  have hshort := length_le_of_ofValue hmem
  -- both sides cannot be members of each other
  have htagged : Tagged other := by
    by_contra hnot
    have hback := mem_other_of_holdsSide hother hnot (fun v hv => ((hs v).mp hv).symm) hheld'
    rw [ofValue_of_some ht] at hback
    have := length_lt_of_fromBytes ht hback
    omega
  refine .inr ⟨htagged, hmem, fun v hv => ?_⟩
  have hlt : v.length < side.length := by
    rw [ofValue_of_some ht] at hv
    exact length_lt_of_fromBytes ht hv
  rcases honly v ((hs v).mpr (.inl hv)) with hfrom | hfrom
  · rcases hfrom with rfl | ⟨u, hu, -⟩
    · exact absurd hlt (lt_irrefl _)
    · exact absurd hu (hnone u)
  · rcases hfrom with rfl | ⟨u, hu, hvu⟩
    · omega
    · exact (hu.ofValue hother).mpr hvu

/-- What a side is read as comes from one of the sides, when each is accounted for. -/
theorem Accounted.fromSide (h : Accounted side other) (hv : v ∈ (ofValue side).values) :
    FromSide side v ∨ FromSide other v := by
  rcases h with h | ⟨htagged, -, hsub⟩
  · exact .inl (h.fromSide hv)
  · exact .inr (htagged.fromSide (hsub v hv))

theorem Accounted.holdsSide (h : Accounted side other)
    (hside : ∀ v ∈ (ofValue side).values, v ∈ s.values)
    (hother : ∀ v ∈ (ofValue other).values, v ∈ s.values) : s.HoldsSide side := by
  rcases h with h | ⟨-, hmem, -⟩
  · exact h.holdsSide hside
  · exact .inl (hother side hmem)

/-- Exactly when a resolution loses nothing and adds nothing: each side is told from
a set of values, or the other side has it and all it is read as. -/
theorem resolveMv_keeps_iff {left right : Bytes} (hl : left.length < 2 ^ 32)
    (hr : right.length < 2 ^ 32) :
    Keeps left right ↔ Accounted left right ∧ Accounted right left := by
  constructor
  · rintro ⟨s, hs, hleft, hright, honly⟩
    rw [fromBytes_resolveMv hl hr] at hs
    cases hs
    refine ⟨accounted_of_keeps hl hr (fun v => mem_merge) hleft hright honly,
      accounted_of_keeps hr hl (fun v => mem_merge.trans or_comm) hright hleft
        fun v hv => (honly v hv).symm⟩
  · rintro ⟨hleft, hright⟩
    have hin : ∀ v ∈ (ofValue left).values, v ∈ ((ofValue left).merge (ofValue right)).values :=
      fun v hv => mem_merge.mpr (.inl hv)
    have hin' : ∀ v ∈ (ofValue right).values, v ∈ ((ofValue left).merge (ofValue right)).values :=
      fun v hv => mem_merge.mpr (.inr hv)
    refine ⟨_, fromBytes_resolveMv hl hr, hleft.holdsSide hin hin', hright.holdsSide hin' hin, ?_⟩
    intro v hv
    rcases mem_merge.mp hv with h | h
    · exact hleft.fromSide h
    · exact (hright.fromSide h).symm

/-- An application value of four zero bytes parses as the empty set and is lost. -/
theorem resolveMv_zeros_lost : ¬ Keeps [0, 0, 0, 0] [1] := by
  rintro ⟨s, hs, hleft, -, -⟩
  have hread : fromBytes (resolveMv [0, 0, 0, 0] [1]) = some ⟨[[1]]⟩ := by decide
  rw [hread] at hs
  cases hs
  rcases hleft with hmem | ⟨t, ht, -⟩
  · revert hmem; decide
  · -- no non-empty set has these bytes
    have hfits := ht.fits (by decide)
    have hback := fromBytes_toBytes hfits
    rw [ht.toBytes_eq] at hback
    have hzero : fromBytes [0, 0, 0, 0] = some ⟨[]⟩ := by decide
    rw [hzero] at hback
    obtain ⟨v, hv⟩ := exists_mem_of_ne_nil _ ht.nonempty
    have : v ∈ (fromValues t.values).values := mem_fromValues.mpr hv
    rw [← Option.some.inj hback] at this
    cases this

theorem resolveMv_keeps_plain : Keeps [1] [2] := by
  have hplain : ∀ b : UInt8, Tagged [b] := by
    intro b s hs
    simp [fromBytes] at hs
  exact (resolveMv_keeps_iff (by decide) (by decide)).mpr ⟨.inl (hplain 1), .inl (hplain 2)⟩

/-! ### Merging replicas against one base -/

/-- The three-way rule for values under the multi-value strategy. -/
def mergeMv (base : Option Bytes) (left right : Bytes) : Bytes :=
  if some left = base then right
  else if some right = base then left
  else if left = right then left
  else resolveMv left right

/-- The set of values a grouping of the replicas leaves at the key. -/
def mergedSet (base : Option Bytes) (g : Grouping Bytes) : MultiValueSet :=
  ofValue (g.fold (mergeMv base))

/-- Every order and every grouping of the replicas gives the same set of values. -/
def Converges (base : Option Bytes) (replicas : List Bytes) : Prop :=
  ∀ g h : Grouping Bytes, g.leaves.Perm replicas → h.leaves.Perm replicas →
    mergedSet base g = mergedSet base h

def valuesOf (replicas : List Bytes) : MultiValueSet :=
  fromValues (replicas.flatMap fun x => (ofValue x).values)

def changed (base : Option Bytes) (replicas : List Bytes) : List Bytes :=
  replicas.filter fun x => decide (some x ≠ base)

/-- One value, repeated. -/
def Uniform (replicas : List Bytes) : Prop := ∀ x ∈ replicas, ∀ y ∈ replicas, x = y

/-- Replicas that can merge to the encoding of `u`: two groups with the values `u`
together, of which neither is that encoding by itself; and several such
collections side by side. -/
inductive Vanishes (u : MultiValueSet) : List Bytes → Prop
  | pair {xs ys : List Bytes} (hxs : xs ≠ []) (hys : ys ≠ []) (hvalues : valuesOf (xs ++ ys) = u)
      (hleft : valuesOf xs = u → Uniform xs) (hright : valuesOf ys = u → Uniform ys)
      (hmixed : ¬ Uniform (xs ++ ys)) : Vanishes u (xs ++ ys)
  | append {xs ys : List Bytes} (hxs : Vanishes u xs) (hys : Vanishes u ys) : Vanishes u (xs ++ ys)

/-- Whatever may merge to the base, the replicas that are left have the base's values. -/
def Settled (base : Option Bytes) (replicas : List Bytes) : Prop :=
  ∀ b u gone kept, base = some b → fromBytes b = some u → u.toBytes = b →
    (changed base replicas).Perm (gone ++ kept) → Vanishes u gone → kept ≠ [] →
      ∀ v ∈ u.values, v ∈ (valuesOf kept).values

@[simp] theorem mem_valuesOf :
    v ∈ (valuesOf replicas).values ↔ ∃ x ∈ replicas, v ∈ (ofValue x).values := by
  simp [valuesOf]

theorem valuesOf_canonical (replicas : List Bytes) : (valuesOf replicas).Canonical :=
  fromValues_canonical _

theorem valuesOf_congr (h : ∀ x, x ∈ xs ↔ x ∈ ys) : valuesOf xs = valuesOf ys :=
  (valuesOf_canonical xs).ext (valuesOf_canonical ys) fun v => by simp [h]

theorem Fits.valuesOf (h : (valuesOf ys).Fits) (hsub : ∀ x ∈ xs, x ∈ ys) : (valuesOf xs).Fits :=
  h.mono fun v hv => by
    obtain ⟨x, hx, hvx⟩ := mem_valuesOf.mp hv
    exact mem_valuesOf.mpr ⟨x, hsub x hx, hvx⟩

theorem valuesOf_uniform (hne : replicas ≠ []) (h : ∀ y ∈ replicas, y = x) :
    valuesOf replicas = ofValue x := by
  obtain ⟨y, hy⟩ := exists_mem_of_ne_nil _ hne
  have hx : x ∈ replicas := h y hy ▸ hy
  refine (valuesOf_canonical _).ext (ofValue_canonical x) fun v => ?_
  rw [mem_valuesOf]
  exact ⟨fun ⟨z, hz, hv⟩ => h z hz ▸ hv, fun hv => ⟨x, hx, hv⟩⟩

theorem resolveMv_valuesOf (hx : ofValue x = valuesOf xs) (hy : ofValue y = valuesOf ys) :
    resolveMv x y = (valuesOf (xs ++ ys)).toBytes := by
  have hmerge : (ofValue x).merge (ofValue y) = valuesOf (xs ++ ys) := by
    refine (merge_canonical _ _).ext (valuesOf_canonical _) fun v => ?_
    rw [mem_merge, hx, hy, mem_valuesOf, mem_valuesOf, mem_valuesOf]
    simp only [mem_append, or_and_right, exists_or]
  rw [resolveMv, hmerge]

/-- The result of merging the replicas of a list among which nothing vanished: the
value they all are, or the encoding of their values. -/
def Reduced (replicas : List Bytes) (value : Bytes) : Prop :=
  (∀ x ∈ replicas, x = value) ∨ value = (valuesOf replicas).toBytes

theorem Reduced.ofValue (h : Reduced replicas value) (hne : replicas ≠ [])
    (hfits : (valuesOf replicas).Fits) : ofValue value = valuesOf replicas := by
  rcases h with h | rfl
  · exact (valuesOf_uniform hne h).symm
  · rw [ofValue_toBytes hfits, (valuesOf_canonical _).fromValues_eq]

theorem valuesOf_append_eq (h : valuesOf ys = valuesOf xs) :
    valuesOf (xs ++ ys) = valuesOf xs := by
  refine (valuesOf_canonical _).ext (valuesOf_canonical _) fun v => ?_
  have hsame : v ∈ (valuesOf ys).values ↔ v ∈ (valuesOf xs).values := by rw [h]
  simp only [mem_valuesOf, mem_append, or_and_right, exists_or] at hsame ⊢
  rw [hsame, or_self]

theorem Vanishes.valuesOf_eq (h : Vanishes u replicas) : valuesOf replicas = u := by
  induction h with
  | pair _ _ hvalues _ _ _ => exact hvalues
  | append _ _ ihx ihy => rw [valuesOf_append_eq (ihy.trans ihx.symm), ihx]

theorem Vanishes.mixed (h : Vanishes u replicas) : ¬ Uniform replicas := by
  induction h with
  | pair _ _ _ _ _ hmixed => exact hmixed
  | append _ _ ihx _ =>
    exact fun hall => ihx fun x hx y hy =>
      hall x (mem_append_left _ hx) y (mem_append_left _ hy)

/-- Part of a uniform list has the values of all of it. -/
theorem valuesOf_congr_uniform (h : Uniform ys) (hne : xs ≠ []) (hsub : ∀ x ∈ xs, x ∈ ys) :
    valuesOf xs = valuesOf ys := by
  obtain ⟨x, hx⟩ := exists_mem_of_ne_nil _ hne
  have hys : ys ≠ [] := ne_nil_of_mem (hsub x hx)
  rw [valuesOf_uniform hne fun y hy => h y (hsub y hy) x (hsub x hx),
    valuesOf_uniform hys fun y hy => h y hy x (hsub x hx)]

/-- What became of the changed replicas of a grouping: the base swallowed some of
them, and the others make the result. -/
structure Outcome (base : Option Bytes) (leaves : List Bytes) (value : Bytes)
    (gone kept : List Bytes) : Prop where
  split : (changed base leaves).Perm (gone ++ kept)
  gone : gone = [] ∨ ∃ b u, base = some b ∧ fromBytes b = some u ∧ u.toBytes = b ∧ Vanishes u gone
  none_kept : kept = [] → some value = base
  kept : kept ≠ [] → some value ≠ base ∧ Reduced kept value

theorem changed_append : changed base (xs ++ ys) = changed base xs ++ changed base ys :=
  filter_append _ _

/-- Only changed replicas are ever encoded. -/
theorem Outcome.fits (h : Outcome base leaves value gone kept)
    (hfits : (valuesOf (changed base leaves)).Fits) : (valuesOf kept).Fits :=
  hfits.valuesOf fun _ hx => h.split.mem_iff.mpr (mem_append_right _ hx)

/-- Two groups that vanished, or one and nothing, vanish together. -/
theorem gone_append
    (hxs : xs = [] ∨ ∃ b u, base = some b ∧ fromBytes b = some u ∧ u.toBytes = b ∧ Vanishes u xs)
    (hys : ys = [] ∨ ∃ b u, base = some b ∧ fromBytes b = some u ∧ u.toBytes = b ∧ Vanishes u ys) :
    xs ++ ys = [] ∨
      ∃ b u, base = some b ∧ fromBytes b = some u ∧ u.toBytes = b ∧ Vanishes u (xs ++ ys) := by
  rcases hxs with rfl | ⟨b, u, hb, hu, hback, hx⟩
  · exact hys
  rcases hys with rfl | ⟨b', u', hb', hu', -, hy⟩
  · exact .inr ⟨b, u, hb, hu, hback, by simpa using hx⟩
  · cases hb.symm.trans hb'
    cases hu.symm.trans hu'
    exact .inr ⟨b, u, hb, hu, hback, hx.append hy⟩

theorem perm_append_four {α : Type} {xs ys as bs cs ds : List α} (hx : xs.Perm (as ++ bs))
    (hy : ys.Perm (cs ++ ds)) : (xs ++ ys).Perm ((as ++ cs) ++ (bs ++ ds)) := by
  refine (hx.append hy).trans ?_
  rw [append_assoc, append_assoc]
  refine List.Perm.append_left as ?_
  rw [← append_assoc, ← append_assoc]
  exact perm_append_comm.append_right ds

/-- One merge of two results. -/
theorem Outcome.merge {ls rs g1 k1 g2 k2 : List Bytes}
    (hfits : (valuesOf (changed base (ls ++ rs))).Fits)
    (hl : Outcome base ls x g1 k1) (hr : Outcome base rs y g2 k2) :
    ∃ gone kept, Outcome base (ls ++ rs) (mergeMv base x y) gone kept := by
  have hsplit : (changed base (ls ++ rs)).Perm ((g1 ++ g2) ++ (k1 ++ k2)) := by
    rw [changed_append]
    exact perm_append_four hl.split hr.split
  have hgone := gone_append hl.gone hr.gone
  -- a side without survivors is the base, and the merge is the other side
  by_cases hk1 : k1 = []
  · have hbase := hl.none_kept hk1
    refine ⟨g1 ++ g2, k1 ++ k2, hsplit, hgone, ?_, ?_⟩
    all_goals rw [mergeMv, if_pos hbase, hk1, nil_append]
    · exact hr.none_kept
    · exact hr.kept
  by_cases hk2 : k2 = []
  · have hbase := hr.none_kept hk2
    have hx := (hl.kept hk1).1
    refine ⟨g1 ++ g2, k1 ++ k2, hsplit, hgone, ?_, ?_⟩
    all_goals rw [mergeMv, if_neg hx, if_pos hbase, hk2, append_nil]
    · exact hl.none_kept
    · exact hl.kept
  obtain ⟨hx, hredx⟩ := hl.kept hk1
  obtain ⟨hy, hredy⟩ := hr.kept hk2
  have hfits' : (valuesOf (k1 ++ k2)).Fits := hfits.valuesOf fun z hz =>
    hsplit.mem_iff.mpr (mem_append_right _ hz)
  have hsetx := hredx.ofValue hk1 (hfits'.valuesOf fun z hz => mem_append_left _ hz)
  have hsety := hredy.ofValue hk2 (hfits'.valuesOf fun z hz => mem_append_right _ hz)
  have hne : k1 ++ k2 ≠ [] := by simp [hk1]
  by_cases heq : x = y
  · -- equal results stay as they are
    refine ⟨g1 ++ g2, k1 ++ k2, hsplit, hgone, fun h => absurd h hne, fun _ => ?_⟩
    rw [mergeMv, if_neg hx, if_neg hy, if_pos heq]
    refine ⟨hx, ?_⟩
    have hboth : valuesOf (k1 ++ k2) = valuesOf k1 :=
      valuesOf_append_eq (by rw [← hsety, ← hsetx, heq])
    rcases hredx with hall | henc
    · rcases hredy with hall' | henc'
      · refine .inl fun z hz => ?_
        rcases mem_append.mp hz with h | h
        · exact hall z h
        · exact (hall' z h).trans heq.symm
      · exact .inr (by rw [hboth, ← hsetx, heq, hsety, ← henc'])
    · exact .inr (by rw [hboth, ← henc])
  · have hres : mergeMv base x y = (valuesOf (k1 ++ k2)).toBytes := by
      rw [mergeMv, if_neg hx, if_neg hy, if_neg heq, resolveMv_valuesOf hsetx hsety]
    by_cases hback : some (mergeMv base x y) = base
    · -- the merge gave the base again: the survivors of both sides vanish
      have hnot : ∀ {k : List Bytes} {z : Bytes}, some z ≠ base → Reduced k z →
          valuesOf k = valuesOf (k1 ++ k2) → ∀ w ∈ k, w = z := by
        intro k z hz hred hvalues
        rcases hred with h | h
        · exact h
        · exact absurd (by rw [h, hvalues, ← hres, hback]) hz
      have hvanish : Vanishes (valuesOf (k1 ++ k2)) (k1 ++ k2) := by
        refine .pair hk1 hk2 rfl (fun h a ha b hb => ?_) (fun h a ha b hb => ?_) fun hall => ?_
        · rw [hnot hx hredx h a ha, hnot hx hredx h b hb]
        · rw [hnot hy hredy h a ha, hnot hy hredy h b hb]
        · obtain ⟨a, ha⟩ := exists_mem_of_ne_nil _ hk1
          obtain ⟨b, hb⟩ := exists_mem_of_ne_nil _ hk2
          have hx' := hnot hx hredx (valuesOf_congr_uniform hall hk1 fun z hz =>
            mem_append_left _ hz) a ha
          have hy' := hnot hy hredy (valuesOf_congr_uniform hall hk2 fun z hz =>
            mem_append_right _ hz) b hb
          exact heq (by
            rw [← hx', ← hy']
            exact hall a (mem_append_left _ ha) b (mem_append_right _ hb))
      refine ⟨(g1 ++ g2) ++ (k1 ++ k2), [], by simpa using hsplit,
        gone_append hgone (.inr ⟨_, _, hback.symm, ?_, hres.symm, hvanish⟩),
        fun _ => hback, fun h => absurd rfl h⟩
      rw [hres, fromBytes_toBytes hfits', (valuesOf_canonical _).fromValues_eq]
    · exact ⟨g1 ++ g2, k1 ++ k2, hsplit, hgone, fun h => absurd h hne, fun _ => ⟨hback, .inr hres⟩⟩

/-- Every grouping has an outcome: by induction over it, one merge at a node. -/
theorem outcome (base : Option Bytes) (g : Grouping Bytes)
    (hfits : (valuesOf (changed base g.leaves)).Fits) :
    ∃ gone kept, Outcome base g.leaves (g.fold (mergeMv base)) gone kept := by
  induction g with
  | leaf x =>
    by_cases hx : some x = base
    · exact ⟨[], [], by simp [changed, Grouping.leaves, hx], .inl rfl, fun _ => hx,
        fun h => absurd rfl h⟩
    · refine ⟨[], [x], by simp [changed, Grouping.leaves, hx], .inl rfl, by simp, fun _ => ?_⟩
      exact ⟨hx, .inl fun y hy => mem_singleton.mp hy⟩
  | node l r ihl ihr =>
    have hboth := hfits
    rw [Grouping.leaves, changed_append] at hboth
    obtain ⟨g1, k1, hl⟩ := ihl (hboth.valuesOf fun x hx => mem_append_left _ hx)
    obtain ⟨g2, k2, hr⟩ := ihr (hboth.valuesOf fun x hx => mem_append_right _ hx)
    exact hl.merge hfits hr

/-- The replicas the base did not swallow have the values of the result. -/
theorem Outcome.ofValue (h : Outcome base leaves value gone kept)
    (hfits : (valuesOf (changed base leaves)).Fits) (hkept : kept ≠ []) :
    MultiValueSet.ofValue value = valuesOf kept :=
  (h.kept hkept).2.ofValue hkept (h.fits hfits)

/-- A result has no values but those of the replicas. -/
theorem mem_of_mem_mergedSet (hfits : (valuesOf (changed base g.leaves)).Fits)
    (hv : v ∈ (mergedSet base g).values) :
    (∃ x ∈ changed base g.leaves, v ∈ (ofValue x).values) ∨ changed base g.leaves = [] := by
  obtain ⟨gone, kept, h⟩ := outcome base g hfits
  have hin : ∀ x ∈ gone ++ kept, x ∈ changed base g.leaves := fun x hx => h.split.mem_iff.mpr hx
  by_cases hkept : kept = []
  · rcases h.gone with hgone | ⟨b, u, hb, hu, -, hvanish⟩
    · exact .inr (perm_nil.mp (by simpa [hgone, hkept] using h.split))
    · have hvalue : g.fold (mergeMv base) = b := Option.some.inj ((h.none_kept hkept).trans hb)
      rw [mergedSet, hvalue, ofValue_of_some hu, ← hvanish.valuesOf_eq, mem_valuesOf] at hv
      obtain ⟨x, hx, hvx⟩ := hv
      exact .inl ⟨x, hin x (mem_append_left _ hx), hvx⟩
  · rw [mergedSet, h.ofValue hfits hkept, mem_valuesOf] at hv
    obtain ⟨x, hx, hvx⟩ := hv
    exact .inl ⟨x, hin x (mem_append_right _ hx), hvx⟩

/-! ### What can vanish does, for some grouping -/

/-- Replicas whose values are fewer than the base's, or that are all one value,
merge to something else than the base. -/
theorem reduced_of_not_vanishing (hu : fromBytes b = some u) (hg : g.leaves = xs) (hne : xs ≠ [])
    (hfits : (valuesOf xs).Fits) (hb : ∀ x ∈ xs, x ≠ b)
    (hsub : ∀ v ∈ (valuesOf xs).values, v ∈ u.values) (hall : valuesOf xs = u → Uniform xs) :
    g.fold (mergeMv (some b)) ≠ b ∧ Reduced xs (g.fold (mergeMv (some b))) := by
  subst hg
  have hchanged : changed (some b) g.leaves = g.leaves :=
    filter_eq_self.mpr fun x hx => by simpa using hb x hx
  obtain ⟨gone, kept, h⟩ := outcome (some b) g (by rwa [hchanged])
  have hsplit := h.split
  rw [hchanged] at hsplit
  have hgone : gone = [] := by
    rcases h.gone with hgone | ⟨b', u', hb', hu', -, hvanish⟩
    · exact hgone
    cases hb'
    cases hu.symm.trans hu'
    -- what vanishes has all values of the base, so all replicas have, so they are uniform
    have hin : ∀ x ∈ gone, x ∈ g.leaves := fun x hx =>
      hsplit.mem_iff.mpr (mem_append_left _ hx)
    have hvalues : valuesOf g.leaves = u := by
      refine (valuesOf_canonical _).ext (hvanish.valuesOf_eq ▸ valuesOf_canonical _) fun v => ?_
      refine ⟨hsub v, fun hv => ?_⟩
      rw [← hvanish.valuesOf_eq, mem_valuesOf] at hv
      obtain ⟨x, hx, hvx⟩ := hv
      exact mem_valuesOf.mpr ⟨x, hin x hx, hvx⟩
    exact absurd (fun x hx y hy => hall hvalues x (hin x hx) y (hin y hy)) hvanish.mixed
  rw [hgone, nil_append] at hsplit
  have hkept : kept ≠ [] := fun h => hne (perm_nil.mp (h ▸ hsplit))
  obtain ⟨hbase, hred⟩ := h.kept hkept
  refine ⟨fun h => hbase (congrArg some h), ?_⟩
  rcases hred with hred | hred
  · exact .inl fun x hx => hred x (hsplit.mem_iff.mp hx)
  · exact .inr (by rw [hred, valuesOf_congr fun x => hsplit.mem_iff.symm])

theorem Vanishes.exists_grouping (h : Vanishes u xs) (hu : fromBytes b = some u)
    (hback : u.toBytes = b) (hfits : (valuesOf xs).Fits) (hb : ∀ x ∈ xs, x ≠ b) :
    ∃ g : Grouping Bytes, g.leaves = xs ∧ g.fold (mergeMv (some b)) = b := by
  induction h with
  | @pair xs ys hxs hys hvalues hleft hright hmixed =>
    obtain ⟨g, hg⟩ := Grouping.exists_leaves hxs
    obtain ⟨k, hk⟩ := Grouping.exists_leaves hys
    have hinx : ∀ x ∈ xs, x ∈ xs ++ ys := fun x hx => mem_append_left _ hx
    have hiny : ∀ y ∈ ys, y ∈ xs ++ ys := fun y hy => mem_append_right _ hy
    have hsub : ∀ {zs : List Bytes}, (∀ z ∈ zs, z ∈ xs ++ ys) →
        ∀ v ∈ (valuesOf zs).values, v ∈ u.values := by
      intro zs hzs v hv
      obtain ⟨z, hz, hvz⟩ := mem_valuesOf.mp hv
      rw [← hvalues]
      exact mem_valuesOf.mpr ⟨z, hzs z hz, hvz⟩
    obtain ⟨hx, hredx⟩ := reduced_of_not_vanishing hu hg hxs (hfits.valuesOf hinx)
      (fun x h => hb x (hinx x h)) (hsub hinx) hleft
    obtain ⟨hy, hredy⟩ := reduced_of_not_vanishing hu hk hys (hfits.valuesOf hiny)
      (fun y h => hb y (hiny y h)) (hsub hiny) hright
    have hsetx := hredx.ofValue hxs (hfits.valuesOf hinx)
    have hsety := hredy.ofValue hys (hfits.valuesOf hiny)
    refine ⟨.node g k, by rw [Grouping.leaves, hg, hk], ?_⟩
    have hdiffer : g.fold (mergeMv (some b)) ≠ k.fold (mergeMv (some b)) := by
      intro heq
      have hsame : valuesOf xs = valuesOf ys := by rw [← hsetx, ← hsety, heq]
      have hboth : valuesOf xs = u := (valuesOf_append_eq hsame.symm).symm.trans hvalues
      apply hmixed
      have hone : ∀ {zs : List Bytes} {z : Bytes}, z ≠ b → Reduced zs z → valuesOf zs = u →
          ∀ w ∈ zs, w = z := by
        intro zs z hz hred hzs
        rcases hred with h | h
        · exact h
        · exact absurd (by rw [h, hzs, hback]) hz
      have hallx := hone hx hredx hboth
      have hally := hone hy hredy (hsame ▸ hboth)
      have hall : ∀ w ∈ xs ++ ys, w = g.fold (mergeMv (some b)) := by
        intro w hw
        rcases mem_append.mp hw with h | h
        · exact hallx w h
        · exact (hally w h).trans heq.symm
      exact fun v hv w hw => (hall v hv).trans (hall w hw).symm
    rw [Grouping.fold, mergeMv, if_neg (fun h => hx (Option.some.inj h)),
      if_neg (fun h => hy (Option.some.inj h)), if_neg hdiffer,
      resolveMv_valuesOf hsetx hsety, hvalues, hback]
  | @append xs ys _ _ ihx ihy =>
    obtain ⟨g, hg, hgb⟩ := ihx (hfits.valuesOf fun x hx => mem_append_left _ hx)
      fun x hx => hb x (mem_append_left _ hx)
    obtain ⟨k, hk, hkb⟩ := ihy (hfits.valuesOf fun x hx => mem_append_right _ hx)
      fun x hx => hb x (mem_append_right _ hx)
    exact ⟨.node g k, by rw [Grouping.leaves, hg, hk],
      by rw [Grouping.fold, hgb, mergeMv, if_pos rfl, hkb]⟩

/-! ### Convergence -/

/-- When what is left always has the base's values, every grouping gives the values
of all changed replicas. -/
theorem Settled.mergedSet (h : Settled base replicas)
    (hfits : (valuesOf (changed base replicas)).Fits)
    (hg : g.leaves.Perm replicas) (hne : changed base replicas ≠ []) :
    mergedSet base g = valuesOf (changed base replicas) := by
  have hchanged : (changed base g.leaves).Perm (changed base replicas) := hg.filter _
  have hfits' := hfits.valuesOf fun x hx => hchanged.mem_iff.mp hx
  obtain ⟨gone, kept, hout⟩ := outcome base g hfits'
  have hsplit : (changed base replicas).Perm (gone ++ kept) := hchanged.symm.trans hout.split
  have hunion : valuesOf (changed base replicas) = valuesOf (gone ++ kept) :=
    valuesOf_congr fun x => hsplit.mem_iff
  rw [hunion]
  by_cases hkept : kept = []
  · rcases hout.gone with hgone | ⟨b, u, hb, hu, -, hvanish⟩
    · exact absurd (perm_nil.mp (by simpa [hgone, hkept] using hsplit)) hne
    · have hvalue : g.fold (mergeMv base) = b := Option.some.inj ((hout.none_kept hkept).trans hb)
      rw [hkept, append_nil, hvanish.valuesOf_eq, MultiValueSet.mergedSet, hvalue,
        ofValue_of_some hu]
  · rw [MultiValueSet.mergedSet, hout.ofValue hfits' hkept]
    refine (valuesOf_canonical _).ext (valuesOf_canonical _) fun v => ?_
    rw [mem_valuesOf, mem_valuesOf]
    simp only [mem_append, or_and_right, exists_or]
    constructor
    · exact .inr
    · rintro (⟨x, hx, hvx⟩ | hmem)
      · rcases hout.gone with hgone | ⟨b, u, hb, hu, hback, hvanish⟩
        · rw [hgone] at hx; cases hx
        · have hv : v ∈ u.values := by
            rw [← hvanish.valuesOf_eq]
            exact mem_valuesOf.mpr ⟨x, hx, hvx⟩
          exact mem_valuesOf.mp (h b u gone kept hb hu hback hsplit hvanish hkept v hv)
      · exact hmem

/-- A grouping that merges one replica last keeps its values. -/
theorem mem_mergedSet_last {t : Bytes} (hfits : (valuesOf (changed base (g.leaves ++ [t]))).Fits)
    (ht : some t ≠ base) (hv : v ∈ (ofValue t).values) :
    v ∈ (mergedSet base (.node g (.leaf t))).values := by
  have hlast : changed base [t] = [t] := by simp [changed, ht]
  rw [changed_append, hlast] at hfits
  have hfits' := hfits.valuesOf fun x (hx : x ∈ changed base g.leaves) => mem_append_left _ hx
  rw [mergedSet, Grouping.fold, Grouping.fold, mergeMv]
  by_cases hg : some (g.fold (mergeMv base)) = base
  · rw [if_pos hg]
    exact hv
  rw [if_neg hg, if_neg ht]
  by_cases heq : g.fold (mergeMv base) = t
  · rw [if_pos heq, heq]
    exact hv
  obtain ⟨gone, kept, hout⟩ := outcome base g hfits'
  have hkept : kept ≠ [] := fun h => hg (hout.none_kept h)
  have hset := hout.ofValue hfits' hkept
  have hsingle : ofValue t = valuesOf [t] :=
    (valuesOf_uniform (by simp) fun y hy => mem_singleton.mp hy).symm
  have hfits'' : (valuesOf (kept ++ [t])).Fits := hfits.valuesOf fun x hx => by
    rcases mem_append.mp hx with h | h
    · exact mem_append_left _ (hout.split.mem_iff.mpr (mem_append_right _ h))
    · exact mem_append_right _ h
  rw [if_neg heq, resolveMv_valuesOf hset hsingle, ofValue_toBytes hfits'', mem_fromValues,
    mem_valuesOf]
  exact ⟨t, by simp, hv⟩

/-- Exactly when merging the replicas converges, if the counts and lengths of the values
that may be encoded fit: no replicas that may merge to the base leave others without the base's
values. -/
theorem multiValue_converges_iff (base : Option Bytes) (replicas : List Bytes)
    (hfits : (valuesOf (changed base replicas)).Fits) :
    Converges base replicas ↔ Settled base replicas := by
  constructor
  · intro hconv b u gone kept hb hu hback hsplit hvanish hkept v hv
    by_contra hmissing
    have hin : ∀ x ∈ gone ++ kept, x ∈ replicas ∧ some x ≠ base := fun x hx => by
      simpa [changed] using hsplit.mem_iff.mpr hx
    -- one grouping lets `gone` vanish first, and `v` with it
    have hfitsg : (valuesOf gone).Fits := hfits.valuesOf fun x hx =>
      hsplit.mem_iff.mpr (mem_append_left _ hx)
    obtain ⟨g, hg, hgb⟩ := hvanish.exists_grouping hu hback hfitsg fun x hx heq =>
      (hin x (mem_append_left _ hx)).2 (by rw [heq, hb])
    let same := replicas.filter fun x => !decide (some x ≠ base)
    have hall : (gone ++ (kept ++ same)).Perm replicas := by
      rw [← append_assoc]
      exact (hsplit.symm.append_right same).trans (filter_append_perm _ replicas)
    have hne : kept ++ same ≠ [] := by simp [hkept]
    obtain ⟨k, hk⟩ := Grouping.exists_leaves hne
    have hchanged : changed base k.leaves = kept := by
      have hsame : changed base same = [] := by
        simp [changed, same, filter_filter]
      have hkeep : changed base kept = kept := filter_eq_self.mpr fun x hx => by
        simpa using (hin x (mem_append_right _ hx)).2
      rw [hk, changed_append, hsame, hkeep, append_nil]
    have hfitsk : (valuesOf (changed base k.leaves)).Fits := hfits.valuesOf fun x hx =>
      hsplit.mem_iff.mpr (mem_append_right _ (hchanged ▸ hx))
    have hlost : v ∉ (mergedSet base (.node g k)).values := by
      have hvalue : mergedSet base (.node g k) = mergedSet base k := by
        rw [mergedSet, Grouping.fold, hb, hgb, mergeMv, if_pos rfl, mergedSet]
      rw [hvalue]
      intro hmem
      rcases mem_of_mem_mergedSet hfitsk hmem with ⟨x, hx, hvx⟩ | hnone
      · exact hmissing (mem_valuesOf.mpr ⟨x, hchanged ▸ hx, hvx⟩)
      · exact hkept (hchanged ▸ hnone)
    -- another merges last a replica that has `v`
    rw [← hvanish.valuesOf_eq, mem_valuesOf] at hv
    obtain ⟨t, ht, hvt⟩ := hv
    obtain ⟨htr, htb⟩ := hin t (mem_append_left _ ht)
    obtain ⟨x, hx⟩ := exists_mem_of_ne_nil _ hkept
    have hrest : replicas.erase t ≠ [] := by
      intro hnil
      have hone : replicas.Perm [t] := hnil ▸ perm_cons_erase htr
      have hlen := (hall.trans hone).length_eq
      have hpos := length_pos_of_mem ht
      have hpos' := length_pos_of_mem hx
      simp only [length_append, length_singleton] at hlen
      omega
    obtain ⟨k', hk'⟩ := Grouping.exists_leaves hrest
    have hperm : (k'.leaves ++ [t]).Perm replicas := by
      rw [hk']
      exact perm_append_comm.trans (perm_cons_erase htr).symm
    have hfound := mem_mergedSet_last
      (hfits.valuesOf fun x hx => (hperm.filter _).mem_iff.mp hx) htb hvt
    refine hlost ?_
    rw [hconv (.node g k) (.node k' (.leaf t)) (by rw [Grouping.leaves, hg, hk]; exact hall) hperm]
    exact hfound
  · intro h g k hg hk
    by_cases hne : changed base replicas = []
    · -- all replicas are the base
      have hbase : ∀ l : Grouping Bytes, l.leaves.Perm replicas →
          some (l.fold (mergeMv base)) = base := by
        intro l hl
        obtain ⟨gone, kept, hout⟩ :=
          outcome base l (hfits.valuesOf fun x hx => (hl.filter _).mem_iff.mp hx)
        have hnil := (hl.filter _).symm.trans hout.split
        rw [show replicas.filter _ = [] from hne] at hnil
        exact hout.none_kept (append_eq_nil_iff.mp (nil_perm.mp hnil)).2
      rw [mergedSet, mergedSet, Option.some.inj ((hbase g hg).trans (hbase k hk).symm)]
    · rw [h.mergedSet hfits hg hne, h.mergedSet hfits hk hne]

/-- The base holds two values and one replica each; a third replica's value wins or
joins them, by the grouping. -/
theorem multiValue_diverges :
    ¬ Converges (some (fromValues [[1], [2]]).toBytes) [[1], [2], [3]] := by
  intro h
  have heq := h (.node (.node (.leaf [1]) (.leaf [2])) (.leaf [3]))
    (.node (.leaf [1]) (.node (.leaf [2]) (.leaf [3]))) (List.Perm.refl _) (List.Perm.refl _)
  revert heq
  decide

/-- The base's values may vanish, but the third replica has them as well. -/
theorem settled_superset :
    Settled (some (fromValues [[1], [2]]).toBytes)
      [[1], [2], (fromValues [[1], [2], [3]]).toBytes] := by
  intro b u gone kept hb hu _ hsplit hvanish _ v hv
  cases hb
  have hmem := fun x => hsplit.mem_iff (a := x)
  -- the third replica did not vanish: its value 3 is not the base's
  have hgone : (fromValues [[1], [2], [3]]).toBytes ∉ gone := by
    intro hx
    have hthree : [3] ∈ u.values := by
      rw [← hvanish.valuesOf_eq]
      exact mem_valuesOf.mpr ⟨_, hx, by decide⟩
    cases hu
    revert hthree
    decide
  have hkept := (mem_append.mp ((hmem _).mp (by decide))).resolve_left hgone
  refine mem_valuesOf.mpr ⟨_, hkept, ?_⟩
  cases hu
  revert v
  decide

/-- Two of the replicas can merge to the base, and yet all groupings agree. -/
theorem multiValue_converges_superset :
    Vanishes (fromValues [[1], [2]]) [[1], [2]] ∧
      Converges (some (fromValues [[1], [2]]).toBytes)
        [[1], [2], (fromValues [[1], [2], [3]]).toBytes] := by
  refine ⟨?_, (multiValue_converges_iff _ _ (by decide)).mpr settled_superset⟩
  exact Vanishes.pair (by simp) (by simp) (by decide : valuesOf ([[1]] ++ [[2]]) = _)
    (by simp [Uniform]) (by simp [Uniform]) (by simp [Uniform])

end MultiValueSet

end Prolly
