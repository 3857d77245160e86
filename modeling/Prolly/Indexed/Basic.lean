import Prolly.Basic
import Prolly.Boundary

/-!
# Prolly.Indexed.Basic

The vocabulary of secondary indexes: their errors and the budgets that bound a query,
a mutation or a maintenance run. `usize` is 64 bits wide.

Elapsed time is the one input of a call that is not an argument. A call that checks a
deadline takes the readings it will see as a function `clock` from the number of the
reading to the milliseconds elapsed.
-/

namespace Prolly

/-- `IndexProjection`: what an index stores with a term. -/
inductive IndexProjection where
  | keysOnly
  | included
  | all
  deriving DecidableEq, Repr

/-- The errors the functions of secondary indexes return. `engine` is an error of the
trees below. The two texts of `IndexCursorVersionMismatch` are left out. -/
inductive IndexError where
  | engine (error : Error)
  | store
  | deserialize (message : String)
  | invalidExecutionConfig (field : String) (value : Nat)
  | invalidVersionedMap (message : String)
  | invalidIndexDefinition (reason : String)
  | indexDefinitionMismatch (name : Bytes) (persisted runtime : Cid)
  | indexOperationUnsupported (operation : String)
  | indexUnavailableAtVersion (name : Bytes) (sourceVersion : Cid)
  | indexSnapshotMismatch (name : Bytes) (sourceVersion : Cid) (reason : String)
  | indexCursorVersionMismatch
  | indexResourceLimitExceeded (resource : String) (limit actual : Nat)
  deriving DecidableEq

/-- `Result<T, Error>` of the functions of secondary indexes. -/
abbrev IndexResult (α : Type) := Except IndexError α

/-- An error of the trees below is passed on. -/
def ofEngine {α : Type} : Result α → IndexResult α
  | .ok a => .ok a
  | .error e => .error (.engine e)

/-- A check made with `return Err`. -/
def ensure (condition : Bool) (error : IndexError) : IndexResult Unit :=
  if condition then .ok () else .error error

@[simp] theorem ensure_eq_ok {condition : Bool} {error : IndexError} {u : Unit} :
    ensure condition error = .ok u ↔ condition = true := by
  cases condition <;> simp [ensure]

/-- A loop of checks passes when each check does. -/
theorem Result.forM_eq_ok {ε α : Type} {f : α → Except ε Unit} {xs : List α} :
    xs.forM f = .ok () ↔ ∀ x ∈ xs, f x = .ok () := by
  induction xs with
  | nil => simp [List.forM]
  | cons x xs ih =>
    rw [List.forall_mem_cons, ← ih]
    show (f x >>= fun _ => xs.forM f) = .ok () ↔ _
    cases f x <;> simp

/-! ### Budgets -/

/-- `require_nonzero`: the first field that is zero is the error. -/
def requireNonzero (values : List (String × Nat)) : IndexResult Unit :=
  match values.find? fun value => value.2 == 0 with
  | some (field, value) => .error (.invalidExecutionConfig field value)
  | none => .ok ()

/-- `QueryBudget`. -/
structure QueryBudget where
  maxPageEntries : Nat := 4096
  maxReturnedEntries : Nat := 4096
  maxReturnedBytes : Nat := 64 * 1024 * 1024
  maxScannedEntries : Nat := 1000000
  maxSourceFetches : Nat := 4096
  maxAccountedMemoryBytes : Nat := 128 * 1024 * 1024
  maxElapsed : Nat := 30000

def QueryBudget.validate (budget : QueryBudget) : IndexResult Unit :=
  requireNonzero [
    ("query.max_page_entries", budget.maxPageEntries),
    ("query.max_returned_entries", budget.maxReturnedEntries),
    ("query.max_returned_bytes", budget.maxReturnedBytes),
    ("query.max_scanned_entries", budget.maxScannedEntries),
    ("query.max_source_fetches", budget.maxSourceFetches),
    ("query.max_accounted_memory_bytes", budget.maxAccountedMemoryBytes),
    ("query.max_elapsed_millis", budget.maxElapsed)]

/-- `BudgetCounter::charge`: the new total, unless it is over the limit. A sum that does
not fit a `usize` is over every limit and is reported as `usize::MAX`. -/
def charge (resource : String) (current additional limit : Nat) : IndexResult Nat :=
  if limit < current + additional then
    .error (.indexResourceLimitExceeded resource limit (min (current + additional) u64Max))
  else .ok (current + additional)

/-- `BudgetCounter::check_elapsed`, given the elapsed milliseconds it reads. -/
def checkElapsed (resource : String) (elapsed limit : Nat) : IndexResult Unit :=
  if limit < elapsed then
    .error (.indexResourceLimitExceeded resource (min limit u64Max) (min elapsed u64Max))
  else .ok ()

end Prolly
