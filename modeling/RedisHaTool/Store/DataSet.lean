import Mathlib.Data.Char
import Mathlib.Data.List.AList
import Mathlib.Data.List.Dedup
import Mathlib.Data.List.Sort
import Mathlib.Data.List.Lex
import RedisHaTool.Error

/-!
# The data set

`store/dataset.rs`: what the tool knows about the files it has written. The maps
are association lists, since all that is ever done with them is looking up one
run id and listing the keys; a file's path is its run id and its name, the base
directory being the same for all.
-/

namespace RedisHaTool.Store

open Lib

abbrev TextMap (β : Type) := AList fun _ : Text => β

/-- A path below the base directory. -/
structure Path where
  runId : Text
  name : Text
  deriving DecidableEq, Repr

structure DataSetRdb where
  path : Path
  offset : Int
  size : Int
  createdAt : Nat
  deriving DecidableEq, Repr

structure DataSetAof where
  path : Path
  offset : Int
  createdAt : Nat
  deriving DecidableEq, Repr

/-- `DataSet`, without its copy of the configuration. -/
structure DataSet where
  rdbFiles : TextMap (List DataSetRdb)
  aofSegments : TextMap (List DataSetAof)

def DataSet.new : DataSet := { rdbFiles := ∅, aofSegments := ∅ }

/-- The files listed for a run id, none if it is not a key. -/
def listed {α : Type} (m : TextMap (List α)) (runId : Text) : List α :=
  (m.lookup runId).getD []

/-- `entry(run_id).or_insert_with(Vec::new).push(x)`, and sorted by offset
again. The sort is stable. -/
def pushSorted {α : Type} (offset : α → Int) (m : TextMap (List α)) (runId : Text)
    (x : α) : TextMap (List α) :=
  m.insert runId
    ((listed m runId ++ [x]).insertionSort fun a b => offset a ≤ offset b)

def DataSet.addRdb (d : DataSet) (runId : Text) (rdb : DataSetRdb) : DataSet :=
  { d with rdbFiles := pushSorted DataSetRdb.offset d.rdbFiles runId rdb }

def DataSet.addAof (d : DataSet) (runId : Text) (aof : DataSetAof) : DataSet :=
  { d with aofSegments := pushSorted DataSetAof.offset d.aofSegments runId aof }

/-- The first RDB file of the run whose range holds the offset. -/
def DataSet.findRdb (d : DataSet) (runId : Text) (offset : Int) : Option DataSetRdb :=
  (listed d.rdbFiles runId).find? fun r =>
    r.offset ≤ offset ∧ offset < r.offset + r.size

/-- The last segment of the run that starts at or before the offset. -/
def DataSet.findAof (d : DataSet) (runId : Text) (offset : Int) : Option DataSetAof :=
  (listed d.aofSegments runId).reverse.find? fun a => a.offset ≤ offset

def DataSet.latestRdb (d : DataSet) (runId : Text) : Option DataSetRdb :=
  (listed d.rdbFiles runId).getLast?

def DataSet.latestAof (d : DataSet) (runId : Text) : Option DataSetAof :=
  (listed d.aofSegments runId).getLast?

/-- `run_ids`: the keys of both maps, sorted, and each once. Equal ones are next
to each other once sorted, so dropping repeats is dropping duplicates. -/
def DataSet.runIds (d : DataSet) : List Text :=
  ((d.rdbFiles.keys ++ d.aofSegments.keys).insertionSort (· ≤ ·)).dedup

/-! ## What is listed -/

@[simp] theorem listed_empty {α : Type} (runId : Text) :
    listed (∅ : TextMap (List α)) runId = [] := rfl

theorem listed_pushSorted_self {α : Type} (offset : α → Int) (m : TextMap (List α))
    (runId : Text) (x : α) :
    listed (pushSorted offset m runId x) runId
      = (listed m runId ++ [x]).insertionSort fun a b => offset a ≤ offset b := by
  simp [listed, pushSorted]

theorem listed_pushSorted_ne {α : Type} (offset : α → Int) (m : TextMap (List α))
    {runId other : Text} (h : other ≠ runId) (x : α) :
    listed (pushSorted offset m runId x) other = listed m other := by
  simp [listed, pushSorted, AList.lookup_insert_ne h]

/-- What is listed after a push is what was listed, and what was pushed under
its run id. -/
theorem mem_listed_pushSorted {α : Type} {offset : α → Int} {m : TextMap (List α)}
    {runId other : Text} {x y : α} :
    y ∈ listed (pushSorted offset m runId x) other ↔
      y ∈ listed m other ∨ other = runId ∧ y = x := by
  by_cases h : other = runId
  · subst h
    rw [listed_pushSorted_self, List.mem_insertionSort]
    simp
  · rw [listed_pushSorted_ne offset m h]
    simp [h]

theorem mem_keys_of_mem_listed {α : Type} {m : TextMap (List α)} {runId : Text}
    {x : α} (h : x ∈ listed m runId) : runId ∈ m.keys := by
  rw [← AList.mem_keys, ← AList.lookup_isSome]
  cases hm : m.lookup runId with
  | none => simp [listed, hm] at h
  | some l => rfl

theorem mem_runIds {d : DataSet} {runId : Text} :
    runId ∈ d.runIds ↔ runId ∈ d.rdbFiles.keys ∨ runId ∈ d.aofSegments.keys := by
  rw [DataSet.runIds, List.mem_dedup, List.mem_insertionSort, List.mem_append]

theorem findRdb_eq_some {d : DataSet} {runId : Text} {offset : Int} {r : DataSetRdb}
    (h : d.findRdb runId offset = some r) :
    r ∈ listed d.rdbFiles runId ∧ r.offset ≤ offset ∧ offset < r.offset + r.size := by
  refine ⟨List.mem_of_find?_eq_some h, ?_⟩
  simpa using List.find?_some h

/-- Past the end of every RDB file none is found. -/
theorem findRdb_eq_none {d : DataSet} {runId : Text} {start offset : Int}
    (hend : ∀ r ∈ listed d.rdbFiles runId, r.offset + r.size = start)
    (hle : start ≤ offset) : d.findRdb runId offset = none := by
  cases hfind : d.findRdb runId offset with
  | none => rfl
  | some r =>
      obtain ⟨hmem, -, hlt⟩ := findRdb_eq_some hfind
      have hr := hend r hmem
      omega

theorem findAof_eq_some {d : DataSet} {runId : Text} {offset : Int} {a : DataSetAof}
    (h : d.findAof runId offset = some a) :
    a ∈ listed d.aofSegments runId ∧ a.offset ≤ offset := by
  refine ⟨by simpa using List.mem_of_find?_eq_some h, ?_⟩
  simpa using List.find?_some h

end RedisHaTool.Store
