import Prolly.Boundary
import Prolly.Lib.SortedMap
import Prolly.Store

/-!
# Prolly.WriteSession

Write sessions (`write_session.rs`): mutations are collected in an overlay over an
immutable base tree and written out by `flush`. Each staged mutation leaves what it
replaced in a journal; a savepoint is a position in that journal, and `revert` undoes
the journal down to it.

A revert restores the overlay of the savepoint as long as the journal has not been cut
below the savepoint in the meantime. After such a cut the position no longer means what
it did, but a journal that has grown past it again is accepted
(`revert_restores_iff`).
-/

namespace Prolly

open List

/-- `PendingValue`. -/
inductive PendingValue where
  | value (val : Bytes)
  | deleted
  deriving DecidableEq

/-- `entry_bytes`. -/
def entryBytes (key : Bytes) : PendingValue → Nat
  | .value val => key.length + val.length
  | .deleted => key.length

/-- `overlay_bytes`. -/
def overlayBytes (overlay : SortedMap Bytes PendingValue) : Nat :=
  (overlay.entries.map fun entry => entryBytes entry.1 entry.2).sum

/-- `Savepoint`. -/
structure Savepoint where
  generation : Nat
  journalLen : Nat
  deriving DecidableEq

inductive SessionError where
  | bufferFull
  | invalidSavepoint
  | engine (error : Error)
  deriving DecidableEq

/-- What a staged mutation replaced. -/
abbrev Undo := Bytes × Option PendingValue

/-- `WriteSession`. The journal is listed newest first. -/
structure WriteSession where
  base : Tree
  overlay : SortedMap Bytes PendingValue := ∅
  maxBytes : Nat
  currentBytes : Nat := 0
  generation : Nat := 0
  journal : List Undo := []
  deriving DecidableEq

namespace WriteSession

/-- `WriteSession::get`, over the read of the base tree. -/
def get (s : WriteSession) (read : Tree → Bytes → Result (Option Bytes)) (key : Bytes) :
    Result (Option Bytes) :=
  match s.overlay.get? key with
  | some (.value val) => .ok (some val)
  | some .deleted => .ok none
  | none => read s.base key

variable (batch : Tree → List Mutation → Result Tree) (s : WriteSession) (key : Bytes)

/-- `stage`. -/
def stage (pending : PendingValue) : Except SessionError WriteSession :=
  let previous := s.overlay.get? key
  let priorBytes := (previous.map (entryBytes key)).getD 0
  let total := saturatingAdd (s.currentBytes - priorBytes) (entryBytes key pending)
  if s.maxBytes < total then .error .bufferFull
  else
    .ok { s with
      journal := (key, previous) :: s.journal
      overlay := s.overlay.insert key pending
      currentBytes := total }

/-- `put`. -/
def put (value : Bytes) : Except SessionError WriteSession :=
  s.stage key (.value value)

/-- `delete`. -/
def delete : Except SessionError WriteSession :=
  s.stage key .deleted

/-- `savepoint`. -/
def savepoint : Savepoint := ⟨s.generation, s.journal.length⟩

/-- The overlay before the mutations that left these entries in the journal. -/
def restore (overlay : SortedMap Bytes PendingValue) (undone : List Undo) :
    SortedMap Bytes PendingValue :=
  overlay.setAll undone

/-- `revert`. -/
def revert (savepoint : Savepoint) : Except SessionError WriteSession :=
  if savepoint.generation ≠ s.generation ∨ s.journal.length < savepoint.journalLen then
    .error .invalidSavepoint
  else
    let undone := s.journal.length - savepoint.journalLen
    let overlay := restore s.overlay (s.journal.take undone)
    .ok { s with
      journal := s.journal.drop undone
      overlay
      currentBytes := overlayBytes overlay }

/-- The mutations `flush` hands to the writer. -/
def mutations : List Mutation :=
  s.overlay.entries.map fun entry =>
    match entry.2 with
    | .value val => .upsert entry.1 val
    | .deleted => .delete entry.1

/-- `flush`, over the writer of the manager. -/
def flush : Except SessionError (Tree × WriteSession) :=
  match batch s.base s.mutations with
  | .error error => .error (.engine error)
  | .ok tree =>
    .ok (tree, { s with
      base := tree
      overlay := ∅
      journal := []
      currentBytes := 0
      generation := (s.generation + 1) % 2 ^ 64 })

/-! ### Runs -/

inductive Call where
  | put (key value : Bytes)
  | delete (key : Bytes)
  | savepoint
  | revert (savepoint : Savepoint)
  | flush

/-- The session after a call. A call that fails leaves it as it was. -/
def after : Call → WriteSession
  | .put key value => (s.put key value).toOption.getD s
  | .delete key => (s.delete key).toOption.getD s
  | .savepoint => s
  | .revert savepoint => (s.revert savepoint).toOption.getD s
  | .flush => ((s.flush batch).toOption.map Prod.snd).getD s

def run : WriteSession → List Call → WriteSession :=
  foldl (after batch)

def NoFlush (calls : List Call) : Prop :=
  ∀ earlier later, calls = earlier ++ .flush :: later →
    ∀ r, (run batch s earlier).flush batch ≠ .ok r

/-- No call of the run cuts the journal below the length it has at the start. -/
def KeepsJournal (calls : List Call) : Prop :=
  ∀ earlier later, calls = earlier ++ later →
    s.journal.length ≤ (run batch s earlier).journal.length

/-! ### What a revert restores -/

section Restore

variable {batch : Tree → List Mutation → Result Tree} {s s' t : WriteSession} {calls : List Call}
  {key : Bytes} {pending : PendingValue} {call : Call}

/-- What has happened since `s` is at the top of the journal, and undoing it gives back the
overlay of `s`. -/
def Since (s t : WriteSession) : Prop :=
  ∃ newer, t.journal = newer ++ s.journal ∧ restore t.overlay newer = s.overlay

theorem Since.refl (s : WriteSession) : s.Since s := ⟨[], rfl, rfl⟩

theorem restore_append (overlay : SortedMap Bytes PendingValue) (xs ys : List Undo) :
    restore overlay (xs ++ ys) = restore (restore overlay xs) ys :=
  foldl_append ..

theorem Since.stage (h : s.Since t) (hs : t.stage key pending = .ok s') : s.Since s' := by
  obtain ⟨newer, hjournal, hrestore⟩ := h
  simp only [WriteSession.stage] at hs
  split at hs
  · cases hs
  cases hs
  refine ⟨(key, t.overlay.get? key) :: newer, by rw [hjournal]; rfl, ?_⟩
  have hundo : (t.overlay.insert key pending).set key (t.overlay.get? key) = t.overlay := by
    ext1 k
    grind
  show restore ((t.overlay.insert key pending).set key (t.overlay.get? key)) newer = _
  rw [hundo, hrestore]

theorem revert_eq_ok {savepoint : Savepoint} (h : t.revert savepoint = .ok s') :
    savepoint.generation = t.generation ∧ savepoint.journalLen ≤ t.journal.length ∧
      s'.journal = t.journal.drop (t.journal.length - savepoint.journalLen) ∧
      s'.overlay = restore t.overlay (t.journal.take (t.journal.length - savepoint.journalLen)) ∧
      s'.base = t.base ∧ s'.generation = t.generation := by
  simp only [revert] at h
  split at h
  · cases h
  next haccepted =>
  cases h
  simp only [not_or, not_not, not_lt] at haccepted
  exact ⟨haccepted.1, haccepted.2, rfl, rfl, rfl, rfl⟩

/-- A revert that stays above `s` undoes only what is newer. -/
theorem Since.revert {savepoint : Savepoint} (h : s.Since t) (hr : t.revert savepoint = .ok s')
    (hlen : s.journal.length ≤ s'.journal.length) : s.Since s' := by
  obtain ⟨newer, hjournal, hrestore⟩ := h
  obtain ⟨-, -, hjournal', hoverlay, -, -⟩ := revert_eq_ok hr
  have hundone : t.journal.length - savepoint.journalLen ≤ t.journal.length := Nat.sub_le _ _
  generalize t.journal.length - savepoint.journalLen = undone at hundone hjournal' hoverlay
  have hshort : undone ≤ newer.length := by
    rw [hjournal', length_drop] at hlen
    have htotal := congrArg length hjournal
    rw [length_append] at htotal
    omega
  refine ⟨newer.drop undone, ?_, ?_⟩
  · rw [hjournal', hjournal, drop_append_of_le_length hshort]
  · rw [hoverlay, hjournal, take_append_of_le_length hshort, ← restore_append,
      take_append_drop, hrestore]

/-- A call that fails leaves the session as it was. -/
theorem getD_of {P : WriteSession → Prop} {r : Except SessionError WriteSession} (hfails : P t)
    (hok : ∀ s', r = .ok s' → P s') : P (r.toOption.getD t) := by
  cases r with
  | error e => exact hfails
  | ok s' => exact hok s' rfl

theorem after_flush (h : ∀ r, t.flush batch ≠ .ok r) : t.after batch .flush = t := by
  unfold after
  cases hf : t.flush batch with
  | error e => simp [Except.toOption]
  | ok r => exact absurd hf (h r)

theorem stage_base (h : t.stage key pending = .ok s') :
    s'.base = t.base ∧ s'.generation = t.generation := by
  simp only [WriteSession.stage] at h
  split at h
  · cases h
  · cases h
    exact ⟨rfl, rfl⟩

/-- Outside of `flush` the base tree and the generation stay. -/
theorem after_base (call : Call) (h : call = .flush → ∀ r, t.flush batch ≠ .ok r) :
    (t.after batch call).base = t.base ∧ (t.after batch call).generation = t.generation := by
  let P : WriteSession → Prop := fun u => u.base = t.base ∧ u.generation = t.generation
  have hkept : P t := ⟨rfl, rfl⟩
  cases call with
  | put key value => exact getD_of (P := P) hkept fun s' hs => stage_base hs
  | delete key => exact getD_of (P := P) hkept fun s' hs => stage_base hs
  | savepoint => exact hkept
  | revert savepoint => exact getD_of (P := P) hkept fun s' hr => (revert_eq_ok hr).2.2.2.2
  | flush =>
    rw [after_flush (h rfl)]
    exact hkept

/-- A call that leaves the journal above `s`. -/
theorem Since.after (h : s.Since t) (hflush : call = .flush → ∀ r, t.flush batch ≠ .ok r)
    (hlen : s.journal.length ≤ (t.after batch call).journal.length) :
    s.Since (t.after batch call) := by
  cases call with
  | put key value => exact getD_of h fun s' hs => h.stage hs
  | delete key => exact getD_of h fun s' hs => h.stage hs
  | savepoint => exact h
  | revert savepoint =>
    revert hlen
    exact getD_of (P := fun u => s.journal.length ≤ u.journal.length → s.Since u) (fun _ => h)
      fun s' hr hlen => h.revert hr hlen
  | flush =>
    rw [after_flush (hflush rfl)]
    exact h

theorem run_snoc (s : WriteSession) (calls : List Call) (call : Call) :
    run batch s (calls ++ [call]) = (run batch s calls).after batch call :=
  foldl_concat ..

theorem NoFlush.init (h : NoFlush batch s (calls ++ [call])) :
    NoFlush batch s calls ∧ (call = .flush → ∀ r, (run batch s calls).flush batch ≠ .ok r) := by
  refine ⟨fun earlier later heq => h earlier (later ++ [call]) (by simp [heq]), ?_⟩
  rintro rfl
  exact h calls [] rfl

theorem run_base (h : NoFlush batch s calls) :
    (run batch s calls).base = s.base ∧ (run batch s calls).generation = s.generation := by
  induction calls using reverseRecOn with
  | nil => exact ⟨rfl, rfl⟩
  | append_singleton calls call ih =>
    obtain ⟨hinit, hlast⟩ := h.init
    obtain ⟨hbase, hgeneration⟩ := ih hinit
    obtain ⟨hbase', hgeneration'⟩ := after_base call hlast
    rw [run_snoc]
    exact ⟨hbase'.trans hbase, hgeneration'.trans hgeneration⟩

theorem run_since (h : NoFlush batch s calls) (hkeeps : KeepsJournal batch s calls) :
    s.Since (run batch s calls) := by
  induction calls using reverseRecOn with
  | nil => exact .refl s
  | append_singleton calls call ih =>
    obtain ⟨hinit, hlast⟩ := h.init
    have hsince := ih hinit fun earlier later heq => hkeeps earlier (later ++ [call])
      (by simp [heq])
    have hlen := hkeeps (calls ++ [call]) [] (by simp)
    rw [run_snoc] at hlen ⊢
    exact hsince.after hlast hlen

end Restore

/-- A revert to a savepoint that was taken before the calls restores the overlay, and with it
every read, and no savepoint that was undone is accepted: exactly if the journal was never
cut below the savepoint, or is still shorter. -/
theorem revert_restores_iff (batch : Tree → List Mutation → Result Tree) (s : WriteSession)
    (calls : List Call) (hflush : NoFlush batch s calls) :
    ((∀ s', (run batch s calls).revert s.savepoint = .ok s' →
        s'.overlay = s.overlay ∧ ∀ read key, s'.get read key = s.get read key) ∧
      (¬ KeepsJournal batch s calls → ∀ s', (run batch s calls).revert s.savepoint ≠ .ok s')) ↔
    (KeepsJournal batch s calls ∨ (run batch s calls).journal.length < s.journal.length) := by
  obtain ⟨hbase, hgeneration⟩ := run_base hflush
  constructor
  · rintro ⟨-, hrejected⟩
    by_contra hcondition
    obtain ⟨hcut, hlong⟩ := not_or.mp hcondition
    have haccepted : ¬ (s.savepoint.generation ≠ (run batch s calls).generation ∨
        (run batch s calls).journal.length < s.savepoint.journalLen) := by
      rw [hgeneration]
      exact fun h => h.elim (fun hne => hne rfl) hlong
    have hreverts : ∃ s', (run batch s calls).revert s.savepoint = .ok s' := by
      unfold revert
      rw [if_neg haccepted]
      exact ⟨_, rfl⟩
    obtain ⟨s', hr⟩ := hreverts
    exact hrejected hcut s' hr
  · rintro (hkeeps | hshort)
    · refine ⟨fun s' hr => ?_, fun hcut => absurd hkeeps hcut⟩
      obtain ⟨newer, hjournal, hrestore⟩ := run_since hflush hkeeps
      obtain ⟨-, -, -, hoverlay, hbase', -⟩ := revert_eq_ok hr
      have hnewer : (run batch s calls).journal.length - s.savepoint.journalLen = newer.length := by
        rw [hjournal, length_append]
        exact Nat.add_sub_cancel ..
      rw [hnewer, hjournal, take_left, hrestore] at hoverlay
      refine ⟨hoverlay, fun read key => ?_⟩
      rw [get, get, hoverlay, hbase', hbase]
    · have hrejected : ∀ s', (run batch s calls).revert s.savepoint ≠ .ok s' := by
        intro s' hr
        exact absurd (revert_eq_ok hr).2.1 (not_le.mpr hshort)
      exact ⟨fun s' hr => absurd hr (hrejected s'), fun _ => hrejected⟩

/-- A session over the empty tree with `a` staged. -/
def staged : WriteSession :=
  run (fun _ _ => .error .invalidNode) { base := ⟨none, {}⟩, maxBytes := 64 } [.put [97] [1]]

/-- Staging `b` and reverting, with a flush between that fails, gives back `a` alone. -/
theorem revert_restores_staged :
    ∃ s', (run (fun _ _ => .error .invalidNode) staged [.put [98] [2], .flush]).revert
      staged.savepoint = .ok s' ∧ s'.overlay = staged.overlay := by
  have hflush : NoFlush (fun _ _ => .error .invalidNode) staged [.put [98] [2], .flush] := by
    intro earlier later _ r hok
    cases hok
  have hkeeps : KeepsJournal (fun _ _ => .error .invalidNode) staged [.put [98] [2], .flush] := by
    intro earlier later heq
    match earlier with
    | [] => decide
    | [_] => cases heq; decide
    | [_, _] => cases heq; decide
    | _ :: _ :: _ :: _ => simp at heq
  have hrestores := (revert_restores_iff _ staged [.put [98] [2], .flush] hflush).mpr (.inl hkeeps)
  exact ⟨_, rfl, (hrestores.1 _ rfl).1⟩

/-- The savepoint of `staged` is undone by a revert to the empty session; `b` takes the place
of `a` in the journal, and the savepoint is accepted with `b` in the overlay. -/
theorem revert_keeps_other :
    ∃ s', (run (fun _ _ => .error .invalidNode) staged [.revert ⟨0, 0⟩, .put [98] [2]]).revert
      staged.savepoint = .ok s' ∧ s'.overlay = SortedMap.empty.insert [98] (.value [2]) ∧
      s'.overlay ≠ staged.overlay := by
  exact ⟨_, rfl, by decide, by decide⟩

end WriteSession

end Prolly
