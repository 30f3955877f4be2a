import Mathlib.Tactic
import Batchalign.Lib.Runs

/- The two tiers of the result cache (`cache/{tiered,sqlite}.rs`). Each has one entry a key, which
   answers only for its own task and engine version. A call takes one step at a time: an operation of
   the hot map, which may drop entries, or a transaction of the cold store, which may fail. `D` is what
   JSON values are: the hot map keeps them, a row of the cold store keeps the text of one. -/
namespace Batchalign.Cache

/-- `serde_json::to_string` of a value and `serde_json::from_str`, which need not read back what was
written -/
class Json (D : Type) where
  toText : D → String
  fromText : String → Option D

variable {D : Type}

/-- `HotEntry`; with a text for the data, what of a row of `cache_entries` a lookup reads -/
structure Entry (D : Type) where
  task : String
  engineVersion : String
  data : D
deriving DecidableEq

def chunkSize : ℕ := 900

inductive Stage (D : Type) where
  /-- the keys to look up in the hot map, the hits and the misses so far -/
  | hotReads (rest : List String) (results : List (String × D)) (misses : List String)
  /-- the misses to look up in the cold store, the hot hits and the rows fetched so far -/
  | coldReads (rest : List String) (results fetched : List (String × D))
  /-- the rows to insert in the hot map, and the results -/
  | promotes (rest : List (String × D)) (results : List (String × D))
  | read (results : List (String × D))
  | coldWrite (entries : List (String × D))
  | hotWrites (rest : List (String × D))
  | written
  | invalidates (rest : List String)
  /-- the keys to delete from the cold store, and the rows deleted so far -/
  | coldDeletes (rest : List String) (count : ℕ)
  | deleted (count : ℕ)
  | failed

/-- A call under way; `afterDelete`: its keys a delete of which returned, with no put since. -/
structure Call (D : Type) where
  task : String
  engineVersion : String
  keys : List String
  stage : Stage D
  afterDelete : List String

def Call.forget (keys : List String) (c : Call D) : Call D :=
  { c with afterDelete := c.afterDelete.filter (fun key => key ∉ keys) }

structure Tiers (D : Type) where
  hot : String → Option (Entry D)
  cold : String → Option (Entry String)
  calls : List (Call D)
  /-- a delete of the key under the task returned; no put of it is under way, and none started since -/
  gone : String → String → Bool

/-- `TieredCacheBackend::new` over a store with these rows -/
def Tiers.new (rows : String → Option (Entry String)) : Tiers D :=
  ⟨fun _ => none, rows, [], fun _ _ => false⟩

/-- A call begins or goes on, or the hot map drops an entry. -/
inductive Event (D : Type) where
  | get (key task engineVersion : String)
  | getBatch (keys : List String) (task engineVersion : String)
  | put (key task engineVersion : String) (data : D)
  | putBatch (entries : List (String × D)) (task engineVersion : String)
  | deleteBatch (keys : List String) (task : String)
  /-- a call goes on: `ok` where a cold operation decides, `i` the place of the next row to
  promote -/
  | advances (k : ℕ) (ok : Bool) (i : ℕ)
  /-- the hot map drops an entry -/
  | evicts (key : String)

def extend (found more : List (String × D)) : List (String × D) :=
  found.filter (fun e => e.1 ∉ more.map Prod.fst) ++ more

namespace Stage

def ended : Stage D → Bool
  | .read _ | .written | .deleted _ | .failed => true
  | _ => false

def writes : Stage D → Bool
  | .coldWrite _ | .hotWrites _ => true
  | _ => false

def toInsert : Stage D → List String
  | .hotWrites rest => rest.map Prod.fst
  | _ => []

def afterHot (rest : List String) (results : List (String × D)) (misses : List String) : Stage D :=
  if rest ≠ [] then .hotReads rest results misses
  else if misses = [] then .read results
  else .coldReads misses results []

def afterCold (rest : List String) (results fetched : List (String × D)) : Stage D :=
  if rest ≠ [] then .coldReads rest results fetched
  else if fetched.isEmpty then .read results
  else .promotes fetched (extend results fetched)

def afterPromotion (rest results : List (String × D)) : Stage D :=
  if rest.isEmpty then .read results else .promotes rest results

def afterInsert (rest : List (String × D)) : Stage D :=
  if rest.isEmpty then .written else .hotWrites rest

/-- `cold.delete_batch` of no key deletes nothing. -/
def afterInvalidation (rest keys : List String) : Stage D :=
  if rest ≠ [] then .invalidates rest
  else if keys = [] then .deleted 0
  else .coldDeletes keys 0

end Stage

namespace Tiers

def matching (entry : Option (Entry D)) (task engineVersion : String) : Option D :=
  match entry with
  | some e => if e.task = task ∧ e.engineVersion = engineVersion then some e.data else none
  | none => none

/-- `SqliteBackend::get`: an error, `none`, where the text of a row of this version does not parse -/
def coldGet [Json D] (S : Tiers D) (key task engineVersion : String) : Option (Option D) :=
  match matching (S.cold key) task engineVersion with
  | some text => (Json.fromText text).map some
  | none => some none

/-- One chunk of `SqliteBackend::get_batch` -/
def coldGetChunk [Json D] (S : Tiers D) (chunk : List String) (task engineVersion : String) :
    Option (List (String × D)) :=
  let rows := chunk.dedup.filterMap (fun key =>
    (matching (S.cold key) task engineVersion).map (key, ·))
  rows.mapM (fun row => (Json.fromText row.2).map (row.1, ·))

/-- `SqliteBackend::put_batch`: `INSERT OR REPLACE`, entry by entry, in one transaction -/
def coldPut [Json D] (cold : String → Option (Entry String)) (task engineVersion : String)
    (entries : List (String × D)) : String → Option (Entry String) :=
  entries.foldl (fun rows e =>
    Function.update rows e.1 (some ⟨task, engineVersion, Json.toText e.2⟩)) cold

def coldHas (S : Tiers D) (task key : String) : Bool :=
  match S.cold key with
  | some row => row.task = task
  | none => false

/-- One chunk of `SqliteBackend::delete_batch` -/
def coldDeleteChunk (S : Tiers D) (chunk : List String) (task : String) :
    String → Option (Entry String) :=
  fun key => if key ∈ chunk ∧ S.coldHas task key then none else S.cold key

def writing (S : Tiers D) (key : String) : Bool :=
  S.calls.any (fun c => c.stage.writes && key ∈ c.keys)

/-- The call at place `k` goes on at `stage`. -/
def turn (S : Tiers D) (k : ℕ) (c : Call D) (stage : Stage D) : Tiers D :=
  { S with calls := S.calls.set k { c with stage := stage } }

/-- `hot.insert(key, HotEntry { task, engine_version, data })` -/
def insert (S : Tiers D) (c : Call D) (e : String × D) : Tiers D :=
  { S with hot := Function.update S.hot e.1 (some ⟨c.task, c.engineVersion, e.2⟩) }

/-- `hot.invalidate(key)` -/
def invalidate (S : Tiers D) (key : String) : Tiers D :=
  { S with hot := Function.update S.hot key none }

def reads (S : Tiers D) (keys : List String) (task engineVersion : String) : Tiers D :=
  { S with calls := S.calls ++ [⟨task, engineVersion, keys, .afterHot keys [] [],
      keys.filter (fun key => S.gone key task)⟩] }

def puts (S : Tiers D) (entries : List (String × D)) (task engineVersion : String) : Tiers D :=
  let keys := entries.map Prod.fst
  { S with
    calls := S.calls.map (Call.forget keys) ++
      [⟨task, engineVersion, keys, if entries.isEmpty then .written else .coldWrite entries, []⟩]
    gone := fun key t => S.gone key t && key ∉ keys }

/-- A delete has returned: its keys are gone, but for those that a put under way may bring
back. -/
def returns (S : Tiers D) (c : Call D) : Tiers D :=
  { S with gone := fun key t =>
      S.gone key t || (t = c.task && key ∈ c.keys && !S.writing key) }

def advance [Json D] (S : Tiers D) (k : ℕ) (c : Call D) (ok : Bool) (i : ℕ) : Option (Tiers D) :=
  match c.stage with
  | .hotReads (key :: rest) results misses =>
      some (S.turn k c (match matching (S.hot key) c.task c.engineVersion with
        | some data => .afterHot rest (extend results [(key, data)]) misses
        | none => .afterHot rest results (misses ++ [key])))
  | .coldReads keys results fetched =>
      if ok then
        some (S.turn k c (match S.coldGetChunk (keys.take chunkSize) c.task c.engineVersion with
          | some rows => .afterCold (keys.drop chunkSize) results (extend fetched rows)
          | none => .failed))
      else
        some (S.turn k c .failed)
  | .promotes rest results =>
      rest[i]?.map (fun e =>
        (S.insert c e).turn k c (.afterPromotion (rest.eraseIdx i) results))
  | .coldWrite entries =>
      if ok then
        some { S.turn k c (.hotWrites entries) with
          cold := coldPut S.cold c.task c.engineVersion entries }
      else
        some (S.turn k c .failed)
  | .hotWrites (e :: rest) => some ((S.insert c e).turn k c (.afterInsert rest))
  | .invalidates (key :: rest) =>
      some ((S.invalidate key).turn k c (.afterInvalidation rest c.keys))
  | .coldDeletes keys count =>
      if ok then
        let chunk := keys.take chunkSize
        let count := count + (chunk.dedup.filter (S.coldHas c.task)).length
        let S' : Tiers D := { S with cold := S.coldDeleteChunk chunk c.task }
        if keys.drop chunkSize = [] then
          some ((S'.returns c).turn k c (.deleted count))
        else
          some (S'.turn k c (.coldDeletes (keys.drop chunkSize) count))
      else
        some (S.turn k c .failed)
  | _ => none

def step [Json D] (S : Tiers D) : Event D → Option (Tiers D)
  | .get key task engineVersion => some (S.reads [key] task engineVersion)
  | .getBatch keys task engineVersion => some (S.reads keys task engineVersion)
  | .put key task engineVersion data => some (S.puts [(key, data)] task engineVersion)
  | .putBatch entries task engineVersion => some (S.puts entries task engineVersion)
  | .deleteBatch keys task =>
      some { S with calls := S.calls ++ [⟨task, "", keys, .afterInvalidation keys keys, []⟩] }
  | .advances k ok i => S.calls[k]?.bind (fun c => S.advance k c ok i)
  | .evicts key => some (S.invalidate key)

end Tiers

end Batchalign.Cache
