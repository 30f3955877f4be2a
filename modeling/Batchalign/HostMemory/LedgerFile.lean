import Batchalign.HostMemory.Holders

/- The ledger file under an interrupted update. `with_locked_ledger` takes the lock, reads, acts,
   empties the file and writes the new text over it byte by byte. The process may die between two steps,
   or a step fail; then a lease the call granted releases itself through the lock still held. Of the
   JSON writer and parser only this is assumed: a whole text is read back, and one cut short is not read
   at all (`LedgerJson.Writes`). -/
namespace HostMemory
open List

structure LedgerJson where
  toWriterPretty : LedgerFile → List UInt8
  fromStr : String → Option LedgerFile

inductive LedgerFileError where
  | io
  | corruptLedger
  deriving DecidableEq

def readToString (bytes : List UInt8) : Option String := String.fromUTF8? ⟨bytes.toArray⟩

/-- The white space of Unicode, as `trim` strips it. -/
def whiteSpaceCodes : List ℕ :=
  [0x09, 0x0A, 0x0B, 0x0C, 0x0D, 0x20, 0x85, 0xA0, 0x1680, 0x2000, 0x2001, 0x2002, 0x2003,
    0x2004, 0x2005, 0x2006, 0x2007, 0x2008, 0x2009, 0x200A, 0x2028, 0x2029, 0x202F, 0x205F,
    0x3000]

def isBlank (raw : String) : Bool := raw.toList.all (fun c => whiteSpaceCodes.contains c.toNat)

namespace LedgerJson

def readLedger (json : LedgerJson) (bytes : List UInt8) : Except LedgerFileError LedgerFile :=
  match readToString bytes with
  | none => .error .io
  | some raw =>
    if isBlank raw = true then .ok []
    else
      match json.fromStr raw with
      | some file => .ok file
      | none => .error .corruptLedger

structure Writes (json : LedgerJson) (file : LedgerFile) : Prop where
  whole : json.readLedger (json.toWriterPretty file) = .ok file
  lineEnd : json.readLedger (json.toWriterPretty file ++ [10]) = .ok file
  cut : ∀ n, 0 < n → n < (json.toWriterPretty file).length →
    (json.readLedger ((json.toWriterPretty file).take n)).toOption = none

end LedgerJson

inductive FileStep where
  | lock
  | read
  | act
  | setLen
  | seek
  | write (byte : UInt8)
  | syncAll
  deriving DecidableEq

structure OpenFile where
  bytes : List UInt8
  position : ℕ := 0
  locked : Bool := false

def OpenFile.apply (f : OpenFile) : FileStep → OpenFile
  | .lock => { f with locked := true }
  | .read => { f with position := f.bytes.length }
  | .act => f
  | .setLen => { f with bytes := [] }
  | .seek => { f with position := 0 }
  | .write byte =>
    { f with
      bytes := f.bytes.take f.position ++ List.replicate (f.position - f.bytes.length) 0 ++
        [byte] ++ f.bytes.drop (f.position + 1)
      position := f.position + 1 }
  | .syncAll => f

structure Update (α : Type) where
  host : Host
  action : Action α
  lease : α → Option HostMemoryLease

inductive Interruption where
  | dies
  | fails

def rewriteSteps (text : List UInt8) : List FileStep :=
  [.setLen, .seek] ++ text.map FileStep.write ++ [.write 10, .syncAll]

namespace Update

variable {α : Type} (json : LedgerJson) (u : Update α)

def after (before : LedgerFile) : LedgerFile := (withLockedLedger u.host before u.action).2

/-- The update writes: not unpruned, and not where its action refused and nothing was pruned. -/
def writesBack (before : LedgerFile) : Bool :=
  match pruneStaleLeases u.host (MemoryLedger.ofFile before) with
  | .error _ => false
  | .ok (pruned, ledger) =>
    match (u.action ledger).1, pruned with
    | .error _, .nothing => false
    | .error _, .some => true
    | .ok _, _ => true

def steps (before : LedgerFile) : List FileStep :=
  [.lock, .read, .act] ++
    (if u.writesBack before = true then rewriteSteps (json.toWriterPretty (u.after before))
    else [])

/-- The file once `k` of the steps were done. -/
def fileAt (before : LedgerFile) (raw : List UInt8) (k : ℕ) : OpenFile :=
  ((u.steps json before).take k).foldl OpenFile.apply { bytes := raw }

/-- The action grants a lease on the pruned ledger: its value holds one that was not
released. -/
def Grants (before : LedgerFile) : Prop :=
  ∃ pruned ledger value lease,
    pruneStaleLeases u.host (MemoryLedger.ofFile before) = .ok (pruned, ledger) ∧
      (u.action ledger).1 = .ok value ∧ u.lease value = some lease ∧ lease.released = false

def granted (before : LedgerFile) : Option HostMemoryLease :=
  match pruneStaleLeases u.host (MemoryLedger.ofFile before) with
  | .error _ => none
  | .ok (_, ledger) => ((u.action ledger).1.toOption.bind u.lease).filter fun lease => !lease.released

/-- The steps of the value's drop when step `k` fails: a lease granted releases itself, from the lock on. -/
def dropSteps (before : LedgerFile) (k : ℕ) : List FileStep :=
  if FileStep.act ∈ (u.steps json before).take k then
    (u.granted before).toList.flatMap fun _ => [.lock, .read, .act]
  else []

/-- A step fails, and the drop that follows takes the lock this call still holds. -/
def LocksTwice (before : LedgerFile) (raw : List UInt8) (k : ℕ) (how : Interruption) : Prop :=
  how = .fails ∧ k < (u.steps json before).length ∧ (u.fileAt json before raw k).locked = true ∧
    .lock ∈ u.dropSteps json before k

/-- The next process reads the ledger before the update or after it, and the call does not wait for itself. -/
structure Survives (before : LedgerFile) (raw : List UInt8) (k : ℕ) (how : Interruption) :
    Prop where
  reads : json.readLedger (u.fileAt json before raw k).bytes = .ok before ∨
    json.readLedger (u.fileAt json before raw k).bytes = .ok (u.after before)
  locksOnce : ¬ u.LocksTwice json before raw k how

/-- The file was not emptied yet, the new text is complete, or an empty ledger is one of the two. -/
def Untorn (before : LedgerFile) (k : ℕ) : Prop :=
  k ≤ 3 ∨ u.writesBack before = false ∨ 5 + (json.toWriterPretty (u.after before)).length ≤ k ∨
    (k ≤ 5 ∧ (before = [] ∨ u.after before = []))

end Update

theorem foldl_write (text : List UInt8) (f : OpenFile) (h : f.position = f.bytes.length) :
    (text.map FileStep.write).foldl OpenFile.apply f = { f with
      bytes := f.bytes ++ text, position := f.position + text.length } := by
  induction text generalizing f with
  | nil => simp
  | cons byte text ih =>
    have hwrite : f.apply (.write byte) = { f with
          bytes := f.bytes ++ [byte]
          position := f.position + 1 } := by
      simp [OpenFile.apply, h]
    rw [map_cons, foldl_cons, hwrite, ih]
    · simp only [append_assoc, singleton_append, length_cons]
      congr 1
      omega
    · simp [h]

def FileStep.Quiet : FileStep → Prop
  | .lock | .read | .act | .seek | .syncAll => True
  | .setLen | .write _ => False

theorem foldl_quiet {steps : List FileStep} (h : ∀ s ∈ steps, s.Quiet) (f : OpenFile) :
    (steps.foldl OpenFile.apply f).bytes = f.bytes := by
  induction steps generalizing f with
  | nil => rfl
  | cons s steps ih =>
    rw [foldl_cons, ih (fun t ht => h t (mem_cons_of_mem _ ht))]
    have hs := h s mem_cons_self
    cases s <;> first | rfl | cases hs

theorem foldl_locked (steps : List FileStep) {f : OpenFile} (h : f.locked = true) :
    (steps.foldl OpenFile.apply f).locked = true := by
  induction steps generalizing f with
  | nil => exact h
  | cons s steps ih =>
    apply ih
    cases s <;> first | rfl | exact h

variable {k : ℕ}

namespace Update

variable {α : Type} {json : LedgerJson} {u : Update α} {before : LedgerFile}
  {raw : List UInt8}

theorem fileAt_bytes_early (hk : k ≤ 3 ∨ u.writesBack before = false) :
    (u.fileAt json before raw k).bytes = raw := by
  apply foldl_quiet
  intro s hs
  have hs' : s ∈ ([.lock, .read, .act] : List FileStep) := by
    obtain hk | hno := hk
    · unfold steps at hs
      rw [take_append_of_le_length (by simpa using hk)] at hs
      exact mem_of_mem_take hs
    · unfold steps at hs
      rw [hno, if_neg (by simp), append_nil] at hs
      exact mem_of_mem_take hs
  simp only [mem_cons, not_mem_nil, or_false] at hs'
  obtain rfl | rfl | rfl := hs' <;> trivial

section
variable (hwrites : u.writesBack before = true)
include hwrites

theorem fileAt_late (n : ℕ) : u.fileAt json before raw (5 + n) =
      (((json.toWriterPretty (u.after before)).map FileStep.write ++
        [FileStep.write 10, FileStep.syncAll]).take n).foldl OpenFile.apply
          { bytes := [], position := 0, locked := true } := by
  unfold fileAt steps rewriteSteps
  rw [hwrites, if_pos rfl, add_comm]
  rfl

theorem fileAt_bytes_written {n : ℕ} (hn : n ≤ (json.toWriterPretty (u.after before)).length) :
    (u.fileAt json before raw (5 + n)).bytes = (json.toWriterPretty (u.after before)).take n := by
  rw [fileAt_late hwrites, take_append_of_le_length (by simpa using hn), ← map_take,
    foldl_write _ _ rfl]
  simp

theorem fileAt_bytes_done {n : ℕ} (hn : (json.toWriterPretty (u.after before)).length < n) :
    (u.fileAt json before raw (5 + n)).bytes = json.toWriterPretty (u.after before) ++ [10] := by
  have hmore : n = (json.toWriterPretty (u.after before)).length +
      (n - (json.toWriterPretty (u.after before)).length - 1 + 1) := by omega
  have hlast : ∀ s ∈ ([.syncAll] : List FileStep).take
      (n - (json.toWriterPretty (u.after before)).length - 1), s.Quiet := by
    intro s hs
    have hsync := mem_of_mem_take hs
    rw [mem_singleton] at hsync
    rw [hsync]
    trivial
  have hsteps : ((json.toWriterPretty (u.after before)).map FileStep.write ++
      [FileStep.write 10, FileStep.syncAll]).take n =
      (json.toWriterPretty (u.after before) ++ [10]).map FileStep.write ++
        ([.syncAll] : List FileStep).take
          (n - (json.toWriterPretty (u.after before)).length - 1) := by
    rw [hmore, take_append, length_map, take_of_length_le (by simp)]
    simp
  rw [fileAt_late hwrites, hsteps, foldl_append, foldl_quiet hlast, foldl_write _ _ rfl]
  simp

theorem fileAt_bytes_emptied : (u.fileAt json before raw 4).bytes = [] := by
  unfold fileAt steps rewriteSteps
  rw [hwrites, if_pos rfl]
  rfl

end

theorem fileAt_locked (hk : 0 < k) : (u.fileAt json before raw k).locked = true := by
  obtain ⟨n, rfl⟩ : ∃ n, k = n + 1 := ⟨k - 1, by omega⟩
  exact foldl_locked (((([.read, .act] : List FileStep) ++ _).take n)) rfl

theorem act_mem_iff : .act ∈ (u.steps json before).take k ↔ 3 ≤ k := by
  constructor
  · intro h
    by_contra hlt
    unfold steps at h
    obtain hk | hk | hk : k = 0 ∨ k = 1 ∨ k = 2 := by omega
    all_goals simp [hk] at h
  · intro hk
    have hin : FileStep.act ∈ (u.steps json before).take 3 := by
      unfold steps
      simp
    exact (take_sublist_take_left hk).subset hin

theorem grants_iff : u.Grants before ↔ ∃ lease, u.granted before = some lease := by
  unfold Grants granted
  cases pruneStaleLeases u.host (MemoryLedger.ofFile before) with
  | error e => simp
  | ok out => cases hvalue : (u.action out.2).1 <;> simp [Prod.ext_iff, hvalue, Option.filter_eq_some_iff, Except.toOption]

theorem lock_mem_dropSteps : .lock ∈ u.dropSteps json before k ↔ 3 ≤ k ∧ u.Grants before := by
  rw [grants_iff, dropSteps]
  split_ifs with hact
  · simp [act_mem_iff.mp hact]
  · have hearly : ¬ 3 ≤ k := fun hk => hact (act_mem_iff.mpr hk)
    simp [hearly]

theorem locksTwice_iff (raw : List UInt8) {how : Interruption} : u.LocksTwice json before raw k how ↔
      how = .fails ∧ k < (u.steps json before).length ∧ 3 ≤ k ∧ u.Grants before := by
  unfold LocksTwice
  rw [lock_mem_dropSteps]
  constructor
  · intro ⟨hfails, hlt, _, hk, hgrants⟩
    exact ⟨hfails, hlt, hk, hgrants⟩
  · intro ⟨hfails, hlt, hk, hgrants⟩
    exact ⟨hfails, hlt, fileAt_locked (by omega), hk, hgrants⟩

theorem readLedger_nil : json.readLedger [] = .ok [] := by
  rfl

theorem reads_iff (hraw : json.readLedger raw = .ok before) (hjson : json.Writes (u.after before)) :
    (json.readLedger (u.fileAt json before raw k).bytes = .ok before ∨
        json.readLedger (u.fileAt json before raw k).bytes = .ok (u.after before)) ↔
      u.Untorn json before k := by
  by_cases hearly : k ≤ 3 ∨ u.writesBack before = false
  · rw [fileAt_bytes_early hearly]
    constructor
    · intro _
      obtain hk | hno := hearly
      · exact .inl hk
      · exact .inr (.inl hno)
    · exact fun _ => .inl hraw
  rw [not_or, Bool.not_eq_false] at hearly
  obtain ⟨hk, hwrites⟩ := hearly
  by_cases hempty : k ≤ 5
  · -- nothing is written: the file reads as an empty ledger
    have hbytes : (u.fileAt json before raw k).bytes = [] := by
      obtain hk4 | hk5 : k = 4 ∨ k = 5 := by omega
      · rw [hk4, fileAt_bytes_emptied hwrites]
      · rw [hk5]
        exact (fileAt_bytes_written (n := 0) hwrites (by omega)).trans (take_zero)
    rw [hbytes, readLedger_nil, Except.ok.injEq, Except.ok.injEq]
    constructor
    · intro hnone
      exact .inr (.inr (.inr ⟨hempty, hnone.imp Eq.symm Eq.symm⟩))
    · intro h
      obtain hk3 | hno | hlong | ⟨_, hnone⟩ := h
      · exact absurd hk3 hk
      · rw [hwrites] at hno
        cases hno
      · -- a text of no bytes reads as an empty ledger
        have htext : json.toWriterPretty (u.after before) = [] := by
          apply length_eq_zero_iff.mp
          omega
        have hwhole := hjson.whole
        rw [htext, readLedger_nil, Except.ok.injEq] at hwhole
        exact .inr hwhole
      · exact hnone.imp Eq.symm Eq.symm
  · obtain ⟨n, rfl⟩ : ∃ n, k = 5 + n := ⟨k - 5, by omega⟩
    by_cases hwritten : n < (json.toWriterPretty (u.after before)).length
    · have hcut := hjson.cut n (by omega) hwritten
      rw [fileAt_bytes_written hwrites (by omega)]
      constructor
      · intro hread
        obtain hread | hread := hread <;>
        · rw [hread] at hcut
          cases hcut
      · intro h
        obtain hk3 | hno | hlong | ⟨hk5, _⟩ := h
        · omega
        · rw [hwrites] at hno
          cases hno
        · omega
        · omega
    · have hread : json.readLedger (u.fileAt json before raw (5 + n)).bytes =
          .ok (u.after before) := by
        by_cases hdone : (json.toWriterPretty (u.after before)).length < n
        · rw [fileAt_bytes_done hwrites hdone]
          exact hjson.lineEnd
        · rw [fileAt_bytes_written hwrites (by omega), take_of_length_le (by omega)]
          exact hjson.whole
      constructor
      · intro _
        exact .inr (.inr (.inl (by omega)))
      · exact fun _ => .inr hread

end Update

/-- An interrupted update does no harm exactly when it leaves the file untorn and is no failed step
after a grant. -/
theorem interrupted_update_iff {α : Type} (json : LedgerJson) (u : Update α)
    (before : LedgerFile) (raw : List UInt8) (k : ℕ) (how : Interruption)
    (hraw : json.readLedger raw = .ok before) (hjson : json.Writes (u.after before)) :
    u.Survives json before raw k how ↔ u.Untorn json before k ∧
        ¬ (how = .fails ∧ k < (u.steps json before).length ∧ 3 ≤ k ∧ u.Grants before) := by
  rw [← Update.reads_iff hraw hjson, ← Update.locksTwice_iff raw]
  exact ⟨fun h => ⟨h.reads, h.locksOnce⟩, fun h => ⟨h.1, h.2⟩⟩

def utf8Bytes (s : String) : List UInt8 := s.toUTF8.data.toList

theorem utf8Bytes_append (s t : String) : utf8Bytes (s ++ t) = utf8Bytes s ++ utf8Bytes t := by
  simp [utf8Bytes]

theorem readToString_utf8Bytes (s : String) : readToString (utf8Bytes s) = some s := by
  have hbytes : (⟨(utf8Bytes s).toArray⟩ : ByteArray) = s.toByteArray := by
    simp [utf8Bytes]
  unfold readToString String.fromUTF8?
  rw [dif_pos (hbytes ▸ s.isValidUTF8)]
  congr 1

theorem utf8Bytes_of_readToString {bytes : List UInt8} {s : String}
    (h : readToString bytes = some s) : utf8Bytes s = bytes := by
  unfold readToString String.fromUTF8? at h
  split_ifs at h
  cases h
  rfl

theorem isBlank_eq_false {s : String} (h : (utf8Bytes s).head? = some 123) : isBlank s = false := by
  have hspace : ∀ k ∈ whiteSpaceCodes, (utf8Bytes (String.ofList [Char.ofNat k])).head? ≠ some 123 ∧
        utf8Bytes (String.ofList [Char.ofNat k]) ≠ [] := by decide
  obtain ⟨cs, rfl⟩ := s.exists_eq_ofList
  cases cs with
  | nil => simp [utf8Bytes] at h
  | cons c cs =>
    by_contra hblank
    rw [Bool.not_eq_false, isBlank, String.toList_ofList, all_cons, Bool.and_eq_true,
      contains_iff_mem] at hblank
    obtain ⟨hhead, hne⟩ := hspace _ hblank.1
    rw [Char.ofNat_toNat] at hhead hne
    have hbytes : utf8Bytes (String.ofList (c :: cs)) =
        utf8Bytes (String.ofList [c]) ++ utf8Bytes (String.ofList cs) := by
      rw [← utf8Bytes_append, ← String.ofList_append]
      rfl
    rw [hbytes, head?_append_of_ne_nil _ hne] at h
    exact hhead h

def LedgerJson.ofText (file : LedgerFile) (text : String) : LedgerJson where
  toWriterPretty := fun file' => if file' = file then utf8Bytes text else []
  fromStr := fun raw => if raw = text ∨ raw = text ++ "\n" then some file else none

theorem LedgerJson.writes_ofText {f : LedgerFile} {text : String}
    (h : (utf8Bytes text).head? = some 123) : (LedgerJson.ofText f text).Writes f := by
  have hwriter : (LedgerJson.ofText f text).toWriterPretty f = utf8Bytes text := if_pos rfl
  have hread (raw : String) (hraw : (utf8Bytes raw).head? = some 123) :
      (LedgerJson.ofText f text).readLedger (utf8Bytes raw) =
        if raw = text ∨ raw = text ++ "\n" then .ok f else .error .corruptLedger := by
    unfold LedgerJson.readLedger LedgerJson.ofText
    rw [readToString_utf8Bytes]
    simp only [isBlank_eq_false hraw, Bool.false_eq_true, if_false]
    split_ifs <;> rfl
  have hlineEnd : utf8Bytes text ++ [10] = utf8Bytes (text ++ "\n") := by
    rfl
  refine ⟨?_, ?_, ?_⟩
  · rw [hwriter, hread text h, if_pos (.inl rfl)]
  · rw [hwriter, hlineEnd, hread, if_pos (.inr rfl)]
    rw [← hlineEnd, head?_append, h]
    rfl
  · intro n hpos hlt
    rw [hwriter] at hlt ⊢
    cases hraw : readToString ((utf8Bytes text).take n) with
    | none =>
      unfold LedgerJson.readLedger
      rw [hraw]
      rfl
    | some raw =>
      have hbytes := utf8Bytes_of_readToString hraw
      have hlength : (utf8Bytes raw).length = n := by
        rw [hbytes, length_take]
        omega
      have hhead : (utf8Bytes raw).head? = some 123 := by
        rw [hbytes, head?_take, if_neg (by omega), h]
      -- what was cut short is shorter than the text
      have hne : ¬ (raw = text ∨ raw = text ++ "\n") := by
        intro heq
        obtain rfl | rfl := heq
        · omega
        · rw [utf8Bytes_append, length_append] at hlength
          omega
      rw [← hbytes, hread raw hhead, if_neg hne]
      rfl

def jobLease : MemoryLeaseRecordWire := ⟨1, .jobExecution, 1, none, 3000, false, "job", 0⟩

def jobLeaseText : String :=
  "\x7b" ++ "\n  \"leases\": [\n    \x7b\n      \"id\": \"00000000-0000-4000-8000-000000000001\",\n" ++
  "      \"kind\": \"job_execution\",\n      \"owner_pid\": 1,\n      \"worker_pid\": null,\n" ++
  "      \"reserved_mb\": 3000,\n      \"startup_slot\": false,\n      \"label\": \"job\",\n" ++
  "      \"created_at_epoch_s\": 0\n    \x7d\n  ]\n\x7d"

theorem head_jobLeaseText : (utf8Bytes jobLeaseText).head? = some 123 := by
  rfl

def jobLeaseJson : LedgerJson := LedgerJson.ofText [jobLease] jobLeaseText

def snapshotUpdate : Update HostMemorySnapshot where
  host := laptop
  action := fun ledger => (.ok ⟨15989, 14000, 8000, effectiveReservedMb ledger.reservations,
    0, 1, 0⟩, ledger)
  lease := fun _ => none

theorem readLedger_jobLeaseText : jobLeaseJson.readLedger (utf8Bytes jobLeaseText) = .ok [jobLease] := by
  have h := (LedgerJson.writes_ofText (f := [jobLease]) head_jobLeaseText).whole
  exact h

/-- The snapshot's process dies before it empties the file: the lease stays. -/
theorem interrupted_update_iff_before_setLen :
    snapshotUpdate.Survives jobLeaseJson [jobLease] (utf8Bytes jobLeaseText) 3 .dies := by
  apply (interrupted_update_iff jobLeaseJson snapshotUpdate [jobLease] _ 3 .dies
    readLedger_jobLeaseText ?_).mpr
  · refine ⟨.inl (by decide), ?_⟩
    intro h
    cases h.1
  · exact LedgerJson.writes_ofText head_jobLeaseText

/-- The process dies once the file is emptied: the ledger reads as empty, and a live process's lease is gone.
  -/
theorem job_lease_lost_with_snapshot :
    ¬ snapshotUpdate.Survives jobLeaseJson [jobLease] (utf8Bytes jobLeaseText) 4 .dies := by
  intro h
  have hreads := h.reads
  obtain hreads | hreads := hreads <;>
  · cases hreads

end HostMemory
