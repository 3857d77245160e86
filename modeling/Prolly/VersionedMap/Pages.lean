import Prolly.Lib.Paging
import Prolly.VersionedMap.Runs

/-!
# Prolly.VersionedMap.Pages

Pages of named roots (`ManifestStoreScan::list_roots_page`) and of the versions of a map
(`versions_page`). The second asks for the names under the prefix of the map's versions and decodes
what it gets, so its walk is that of the first. A prefix belongs to one map only: the hexadecimal
text of an identifier ends at the first slash.
-/

namespace Prolly

open Paging
open List

/-! ### Model -/

/-- `ManifestStoreScan::list_roots_page`: the roots of the page and `next_after`. A page cannot hold
as many roots as would make `limit + 1` saturate. -/
def listRootsPage (roots : NamedRoots) (namePrefix : Bytes) (after : Option Bytes) (limit : Nat) :
    List (Bytes × RootManifest) × Option Bytes :=
  if limit = 0 then ([], none)
  else
    let found := (roots.entries.filter fun root =>
      namePrefix.isPrefixOf root.1 && after.all (· < root.1)).take (limit + 1)
    let hasMore := limit < found.length
    let page := if hasMore then found.dropLast else found
    (page, if hasMore then page.getLast?.map (·.1) else none)

/-- `MapVersionCursor`. -/
structure MapVersionCursor where
  scope : Cid
  after : Cid
  deriving DecidableEq

namespace VersionedMap

variable (map : VersionedMap)

/-- The identifier of `head`. -/
def headId (roots : NamedRoots) : Option Cid :=
  (roots.get? map.headName).map fun manifest => map.engine.versionId manifest.toTree

/-- `decode_cataloged_version`: as `versions` decodes a root, with an error for one that is not in
the catalog. -/
def decodeCatalogedVersion (headId : Option Cid) (named : Bytes × RootManifest) :
    Except MapError MapVersion :=
  (map.catalogEntry headId named).getD
    (.error (.invalidVersionedMap
      ("version root is outside prefix " ++ toString map.versionsPrefix)))

/-- `version_cursor_from_root_name`. -/
def versionCursorFromRootName (d : Digests) (name : Bytes) : Except MapError MapVersionCursor :=
  if map.versionsPrefix <+: name then
    let suffix := name.drop map.versionsPrefix.length
    match Cid.ofBytes suffix with
    | none => .error (.invalidVersionedMap
        ("map version identifier must be exactly 32 bytes, got " ++ toString suffix.length))
    | some after => .ok ⟨d.sha256 map.versionsPrefix, after⟩
  else .error (.invalidVersionedMap "version continuation escaped map prefix")

/-- `versions_page`. -/
def versionsPage (d : Digests) (roots : NamedRoots) (cursor : Option MapVersionCursor)
    (limit : Nat) : Except MapError (List MapVersion × Option MapVersionCursor) :=
  if limit = 0 then .error (.invalidVersionedMap "version page limit must be positive")
  else if cursor.any (·.scope ≠ d.sha256 map.versionsPrefix) then
    .error (.invalidVersionedMap "version cursor belongs to another map")
  else do
    let page := listRootsPage roots map.versionsPrefix
      (cursor.map fun cursor => map.versionName cursor.after) limit
    let versions ← page.1.mapM (map.decodeCatalogedVersion (map.headId roots))
    match page.2 with
    | none => return (versions, none)
    | some name => return (versions, some (← map.versionCursorFromRootName d name))

end VersionedMap

/-! ### Pages of roots -/

def rootsBehind (roots : NamedRoots) (namePrefix : Bytes) (after : Option Bytes) :
    List (Bytes × RootManifest) :=
  roots.entries.filter fun root => namePrefix.isPrefixOf root.1 && after.all (· < root.1)

variable {roots : NamedRoots} {namePrefix : Bytes} {after : Option Bytes} {limit : Nat}

/-- A page is the beginning of what lies behind its position. It names its last root when something
is left. -/
theorem listRootsPage_eq (hlimit : 0 < limit) :
    listRootsPage roots namePrefix after limit =
      ((rootsBehind roots namePrefix after).take limit,
        if limit < (rootsBehind roots namePrefix after).length then
          ((rootsBehind roots namePrefix after).take limit).getLast?.map (·.1)
        else none) := by
  unfold listRootsPage
  rw [if_neg hlimit.ne', ← rootsBehind]
  generalize rootsBehind roots namePrefix after = found
  by_cases hmore : limit < found.length
  · have hlen : (found.take (limit + 1)).length = limit + 1 := by
      rw [length_take]
      omega
    have hdrop : (found.take (limit + 1)).dropLast = found.take limit := by
      rw [dropLast_eq_take, hlen, take_take]
      simp
    simp [hmore, hlen, hdrop]
  · have htake : found.take (limit + 1) = found := take_of_length_le (by omega)
    simp [hmore, htake, take_of_length_le (not_lt.mp hmore)]

/-- Behind a root of a listing lies the listing that its name opens. -/
theorem rootsBehind_behind {before rest : List (Bytes × RootManifest)} {root : Bytes × RootManifest}
    (h : rootsBehind roots namePrefix after = before ++ root :: rest) :
    rootsBehind roots namePrefix (some root.1) = rest := by
  have hroot : root ∈ rootsBehind roots namePrefix after := by simp [h]
  have hafter : after.all (· < root.1) = true := by
    rw [rootsBehind, mem_filter, Bool.and_eq_true] at hroot
    exact hroot.2.2
  rw [← (filter_around roots.sorted h).1]
  refine filter_congr fun other _ => ?_
  rw [Bool.eq_iff_iff]
  simp only [Bool.and_eq_true, Option.all_some, decide_eq_true_eq, Option.all_eq_true] at hafter ⊢
  exact ⟨fun ⟨hunder, hlt⟩ => ⟨⟨hunder, fun a ha => (hafter a ha).trans hlt⟩, hlt⟩,
    fun ⟨⟨hunder, _⟩, hlt⟩ => ⟨hunder, hlt⟩⟩

/-- `list_roots_page` for a reader who follows `next_after`. -/
def rootsPage (roots : NamedRoots) (namePrefix : Bytes) (after : Option Bytes) (limit : Nat) :
    Except Unit (List (Bytes × RootManifest) × Option (Option Bytes)) :=
  let page := listRootsPage roots namePrefix after limit
  .ok (page.1, page.2.map some)

theorem readsAll_rootsPage (roots : NamedRoots) (namePrefix : Bytes) {limits : Nat → Nat}
    (hlimits : ∀ i, 0 < limits i) :
    ReadsAll (rootsPage roots namePrefix) limits none (rootsBehind roots namePrefix none) := by
  have hpage : ∀ after limit, 0 < limit → rootsPage roots namePrefix after limit =
      .ok ((rootsBehind roots namePrefix after).take limit,
        if limit < (rootsBehind roots namePrefix after).length ∨
            False ∧ limit = (rootsBehind roots namePrefix after).length then
          ((rootsBehind roots namePrefix after).take limit).getLast?.map fun root => some root.1
        else none) := by
    intro after limit hlimit
    rw [rootsPage, listRootsPage_eq hlimit]
    simp only [false_and, or_false]
    split
    · rw [Option.map_map]
      rfl
    · rfl
  obtain ⟨fuel, hfuel⟩ := readsAll_iff_of_windows (fun _ h => h) False
    (rootsBehind roots namePrefix) _
    none (fun after => ⟨0, fun _ _ => hpage after⟩) fun _ _ _ h => rootsBehind_behind h
  exact (hfuel fuel le_rfl limits hlimits).mpr nofun

/-! ### Names of maps -/

def hexValue (digit : UInt8) : UInt8 := if digit < 58 then digit - 48 else digit - 87

/-- The text of a byte is not a slash, and it determines the byte. -/
theorem hexDigits_byte (byte : UInt8) : hexDigit (byte >>> 4) ≠ 47 ∧
    hexValue (hexDigit (byte >>> 4)) * 16 + hexValue (hexDigit (byte &&& 15)) = byte := by
  have h : ∀ bits : BitVec 8, hexDigit (UInt8.ofBitVec bits >>> 4) ≠ 47 ∧
      hexValue (hexDigit (UInt8.ofBitVec bits >>> 4)) * 16 +
        hexValue (hexDigit (UInt8.ofBitVec bits &&& 15)) = UInt8.ofBitVec bits := by
    decide +kernel
  exact h byte.toBitVec

/-- The text of an identifier ends at the first slash. -/
theorem eq_of_hexBytes_prefix {id id' rest rest' : Bytes}
    (h : hexBytes id ++ 47 :: rest <+: hexBytes id' ++ 47 :: rest') : id = id' := by
  induction id generalizing id' with
  | nil =>
    cases id' with
    | nil => rfl
    | cons byte id' =>
      have hslash := (cons_prefix_cons.mp h).1
      exact absurd hslash.symm (hexDigits_byte byte).1
  | cons byte id ih =>
    cases id' with
    | nil => exact absurd (cons_prefix_cons.mp h).1 (hexDigits_byte byte).1
    | cons byte' id' =>
      obtain ⟨hhigh, h⟩ := cons_prefix_cons.mp h
      obtain ⟨hlow, h⟩ := cons_prefix_cons.mp h
      have hbyte : byte = byte' := by
        rw [← (hexDigits_byte byte).2, hhigh, hlow, (hexDigits_byte byte').2]
      rw [hbyte, ih h]

namespace VersionedMap

variable (map : VersionedMap)

/-- No name lies under the prefixes of two maps. -/
theorem id_eq_of_versionsPrefix {other : VersionedMap} {name : Bytes}
    (h : map.versionsPrefix <+: name) (hother : other.versionsPrefix <+: name) :
    map.id = other.id := by
  have hslash : asciiBytes "/versions/" = 47 :: asciiBytes "versions/" := rfl
  have key : ∀ {a b : VersionedMap}, a.versionsPrefix <+: b.versionsPrefix → a.id = b.id := by
    intro a b hab
    unfold versionsPrefix rootPrefix at hab
    rw [append_assoc, append_assoc, prefix_append_right_inj, hslash] at hab
    exact eq_of_hexBytes_prefix hab
  rcases prefix_or_prefix_of_prefix h hother with hab | hba
  · exact key hab
  · exact (key hba).symm

/-! ### Pages of versions -/

def versionOf (headId : Option Cid) (named : Bytes × RootManifest) : MapVersion :=
  map.mapVersion named.2.toTree named.2.createdAtMillis
    (headId = some (map.engine.versionId named.2.toTree))

theorem decodeCatalogedVersion_eq_ok (headId : Option Cid) (named : Bytes × RootManifest)
    (version : MapVersion) : map.decodeCatalogedVersion headId named = .ok version ↔
      named.1 = map.versionName (map.engine.versionId named.2.toTree) ∧
        version = map.versionOf headId named := by
  obtain ⟨name, manifest⟩ := named
  unfold decodeCatalogedVersion catalogEntry
  by_cases hunder : map.versionsPrefix <+: name
  · obtain ⟨suffix, rfl⟩ := hunder
    have hsize := (map.engine.versionId manifest.toTree).size
    simp only [prefix_append, if_true, drop_left, Option.getD_some, versionName,
      append_cancel_left_eq]
    split
    · next hlen =>
      refine ⟨nofun, fun ⟨hsuffix, _⟩ => absurd (hsuffix ▸ hsize) hlen⟩
    · split
      · next hne => exact ⟨nofun, fun ⟨hsuffix, _⟩ => absurd hsuffix.symm hne⟩
      · next heq =>
        rw [Except.ok.injEq, eq_comm]
        exact ⟨fun hversion => ⟨(not_ne_iff.mp heq).symm, hversion⟩, fun h => h.2⟩
  · have hne : name ≠ map.versionName (map.engine.versionId manifest.toTree) :=
      fun hname => hunder (hname ▸ prefix_append _ _)
    simp [hunder, hne]

theorem versionCursorFromRootName_versionName (d : Digests) (id : Cid) :
    map.versionCursorFromRootName d (map.versionName id) =
      .ok ⟨d.sha256 map.versionsPrefix, id⟩ := by
  simp [versionCursorFromRootName, versionName]

def VersionsLeft (d : Digests) (roots : NamedRoots) (cursor : Option MapVersionCursor)
    (rest : List (Bytes × RootManifest)) : Prop :=
  (∀ c ∈ cursor, c.scope = d.sha256 map.versionsPrefix) ∧
    rest = rootsBehind roots map.versionsPrefix (cursor.map fun c => map.versionName c.after)

/-- `versions_page` for a reader who follows `next_cursor`. -/
def versionPages (d : Digests) (roots : NamedRoots) (cursor : Option MapVersionCursor)
    (limit : Nat) : Except MapError (List MapVersion × Option (Option MapVersionCursor)) :=
  (map.versionsPage d roots cursor limit).map fun page => (page.1, page.2.map some)

/-- A page of versions decodes a page of roots. -/
theorem versionPages_decodesBy (d : Digests) (roots : NamedRoots) :
    DecodesBy (map.versionPages d roots) (map.VersionsLeft d roots)
      (map.decodeCatalogedVersion (map.headId roots)) := by
  rintro cursor rest limit ⟨hscope, rfl⟩ hlimit
  have hany : cursor.any (·.scope ≠ d.sha256 map.versionsPrefix) = false := by
    rw [Option.any_eq_false]
    simpa using hscope
  rw [versionPages, versionsPage, if_neg hlimit.ne', hany, if_neg Bool.false_ne_true,
    listRootsPage_eq hlimit]
  generalize hfound : rootsBehind roots map.versionsPrefix _ = found
  cases hitems : (found.take limit).mapM (map.decodeCatalogedVersion (map.headId roots)) with
  | error error => exact .inl ⟨error, rfl, by simp [hitems, Except.map]⟩
  | ok items =>
    right
    by_cases hmore : limit < found.length
    · -- the last root of the page names a version, so its name is a cursor
      obtain ⟨before, root, hbefore⟩ : ∃ before root, found.take limit = before ++ [root] := by
        have hne : found.take limit ≠ [] := ne_nil_of_length_pos (by rw [length_take]; omega)
        exact ⟨_, _, (dropLast_append_getLast hne).symm⟩
      obtain ⟨version, -, hversion⟩ := (of_mapM hitems).1 root (by simp [hbefore])
      have hname := ((map.decodeCatalogedVersion_eq_ok _ _ _).mp hversion).1
      have hsplit : found = before ++ root :: found.drop limit := by
        rw [append_cons, ← hbefore, take_append_drop]
      have hdrop : rootsBehind roots map.versionsPrefix (some root.1) = found.drop limit :=
        rootsBehind_behind (hfound.trans hsplit)
      refine ⟨items, some (some ⟨d.sha256 map.versionsPrefix, map.engine.versionId root.2.toTree⟩),
        rfl, ?_, by simp [hmore], ?_⟩
      · have hlast : (found.take limit).getLast? = some root := by simp [hbefore]
        simp [hitems, hmore, hlast, hname, versionCursorFromRootName_versionName, Except.map]
      · intro position hposition
        cases hposition
        refine ⟨by simp, ?_⟩
        rw [Option.map_some, ← hname, hdrop]
    · exact ⟨items, none, rfl, by simp [hitems, hmore, Except.map], by simp [hmore], nofun⟩

/-- The roots under the prefix of the map's versions. -/
def catalog (roots : NamedRoots) : List (Bytes × RootManifest) :=
  roots.entries.filter fun root => map.versionsPrefix.isPrefixOf root.1

/-- The catalog decodes when it names every tree by its identifier. -/
theorem catalog_decodes_iff (roots : NamedRoots) (versions : List MapVersion) :
    (map.catalog roots).mapM (map.decodeCatalogedVersion (map.headId roots)) = .ok versions ↔
      (∀ root ∈ map.catalog roots, root.1 = map.versionName (map.engine.versionId root.2.toTree)) ∧
        versions = (map.catalog roots).map (map.versionOf (map.headId roots)) := by
  have hdecode := map.decodeCatalogedVersion_eq_ok (map.headId roots)
  constructor
  · intro h
    have hnames : ∀ root ∈ map.catalog roots,
        root.1 = map.versionName (map.engine.versionId root.2.toTree) := by
      intro root hroot
      obtain ⟨version, -, hversion⟩ := (of_mapM h).1 root hroot
      exact ((hdecode root version).mp hversion).1
    rw [mapM_eq_ok fun root hroot => (hdecode root _).mpr ⟨hnames root hroot, rfl⟩] at h
    exact ⟨hnames, (Except.ok.inj h).symm⟩
  · rintro ⟨hnames, rfl⟩
    exact mapM_eq_ok fun root hroot => (hdecode root _).mpr ⟨hnames root hroot, rfl⟩

/-- Whatever the limits, the pages list the roots under a prefix, each once and in the order of
their names. Those of a map list its versions, unless a root in its catalog is not a version; the
catalogs of two maps have no root in common. -/
theorem rootPages_complete :
    (∀ (roots : NamedRoots) (namePrefix : Bytes) (limits : Nat → Nat), (∀ i, 0 < limits i) →
      ReadsAll (rootsPage roots namePrefix) limits none
        (roots.entries.filter fun root => namePrefix.isPrefixOf root.1)) ∧
    ∀ (map : VersionedMap) (d : Digests) (roots : NamedRoots) (limits : Nat → Nat),
      (∀ i, 0 < limits i) →
      (∃ fuel walk, pages (map.versionPages d roots) limits fuel 0 none = some walk ∧
        ∀ versions, walk.map (fun ps => (ps.map Prod.fst).flatten) = .ok versions ↔
          (∀ root ∈ map.catalog roots,
            root.1 = map.versionName (map.engine.versionId root.2.toTree)) ∧
          versions = (map.catalog roots).map (map.versionOf (map.headId roots))) ∧
      ∀ other : VersionedMap, other.id ≠ map.id →
        ∀ root ∈ map.catalog roots, ¬other.versionsPrefix <+: root.1 := by
  have hall : ∀ (roots : NamedRoots) (namePrefix : Bytes), rootsBehind roots namePrefix none =
      roots.entries.filter fun root => namePrefix.isPrefixOf root.1 := by simp [rootsBehind]
  refine ⟨fun roots namePrefix limits hlimits => ?_, fun map d roots limits hlimits => ⟨?_, ?_⟩⟩
  · rw [← hall]
    exact readsAll_rootsPage roots namePrefix hlimits
  · have hstart : map.VersionsLeft d roots none (map.catalog roots) := ⟨nofun, (hall _ _).symm⟩
    obtain ⟨walk, hwalk, hitems⟩ :=
      (map.versionPages_decodesBy d roots).exists_pages hlimits hstart (Nat.lt_succ_self _)
    refine ⟨_, walk, hwalk, fun versions => ?_⟩
    rw [hitems]
    exact map.catalog_decodes_iff roots versions
  · intro other hne root hroot hother
    have hunder := isPrefixOf_iff_prefix.mp (mem_filter.mp hroot).2
    exact hne (other.id_eq_of_versionsPrefix hother hunder)

/-- A map with one version, beside a map whose identifier extends its own. -/
def sampleRoots : NamedRoots :=
  ((∅ : NamedRoots).insert (sampleMap.versionName (sampleCid 0)) ⟨none, {}, some 1, none⟩).insert
    (VersionedMap.mk sampleEngine [109, 109]).headName ⟨none, {}, some 2, none⟩

theorem rootPages_complete_sample :
    ReadsAll (rootsPage sampleRoots (asciiBytes "maps/")) (fun _ => 1) none sampleRoots.entries ∧
    (∃ fuel walk, pages (sampleMap.versionPages ⟨fun _ => sampleCid 9, fun _ _ => 0⟩ sampleRoots)
        (fun _ => 1) fuel 0 none = some walk ∧
      walk.map (fun ps => (ps.map Prod.fst).flatten) =
        .ok [⟨sampleCid 0, ⟨none, {}⟩, some 1, false⟩]) ∧
    ∀ root ∈ sampleMap.catalog sampleRoots,
      ¬(VersionedMap.mk sampleEngine [109, 109]).versionsPrefix <+: root.1 := by
  obtain ⟨hroots, hversions⟩ := rootPages_complete
  obtain ⟨⟨fuel, walk, hwalk, hitems⟩, hother⟩ :=
    hversions sampleMap ⟨fun _ => sampleCid 9, fun _ _ => 0⟩ sampleRoots (fun _ => 1) fun _ =>
      Nat.one_pos
  refine ⟨hroots sampleRoots (asciiBytes "maps/") (fun _ => 1) fun _ => Nat.one_pos,
    ⟨fuel, walk, hwalk, (hitems _).mpr ⟨?_, ?_⟩⟩, hother _ (by decide)⟩
  · decide
  · rfl

end VersionedMap

end Prolly
