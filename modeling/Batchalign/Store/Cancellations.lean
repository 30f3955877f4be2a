import Batchalign.Store.Registry

/- The cancellation audit (`store/queries/mod.rs`, `store/registry.rs`). A cancel stops the job in the
   registry, writes a row (which may fail), projects the row onto the job and persists the status.
   Between two of the steps anything may happen. -/

namespace Batchalign.Store
open List

variable {C X D : Type}

inductive CancelSource where
  | tui | cli | dashboard | staging | api | signal

def CancelSource.label : CancelSource → String
  | tui => "tui"
  | cli => "cli"
  | dashboard => "dashboard"
  | staging => "staging"
  | api => "api"
  | signal => "signal"

structure CancellationRequest where
  source : Option CancelSource
  host : Option String
  pid : Option Nat
  reason : Option String
  correlationId : Option String
  inFlightFilename : Option String

def nonEmpty (s : Option String) : Option String := s.filter (fun v => !v.isEmpty)

structure CancellationRow where
  jobId : String
  requestedAt : MachineTime
  source : String
  host : Option String
  pid : Option Nat
  reason : Option String
  correlationId : Option String
  inFlightFilename : Option String
  accepted : Bool

structure JobLastCancelInfo where
  at_ : MachineTime
  source : String
  host : Option String
  reason : Option String

def CancellationRow.lastCancel (row : CancellationRow) : JobLastCancelInfo :=
  ⟨row.requestedAt, row.source, row.host, row.reason⟩

namespace Registry

def get (r : Registry C X D) (jobId : String) : Option (RegisteredJob C X D) :=
  r.jobs.find? (fun j => j.jobId == jobId)

/-- The job told to stop: whether it is known, and when it was stopped, if it was. -/
def requestCancellation (r : Registry C X D) (jobId : String) (cancelledAt : MachineTime) :
    Registry C X D × Option (Option MachineTime) :=
  (r.updateJob jobId (fun job => (job.requestCancellation cancelledAt).1),
    (r.get jobId).map (fun j => (j.job.requestCancellation cancelledAt).2))

/-- Whether the operation starts a run: submitted, restarted, or brought back by a new server. -/
def begins (r : Registry C X D) (op : RegistryOp C X D) (jobId : String) : Bool :=
  match op with
  | .submit job => job.jobId == jobId && (findConflicts r.jobs job.toJobSource).isEmpty
  | .restart id policyAccepted =>
    r.jobs.any (fun j => j.jobId == id && j.job.restarts policyAccepted) && id == jobId
  | .startup .. => true
  | _ => false

def Active (r : Registry C X D) (jobId : String) : Prop :=
  ∃ j ∈ r.jobs, j.jobId = jobId ∧ j.isActive = true

end Registry

theorem Job.statusColumns_requestCancellation (job : Job X D) (now : MachineTime) :
    (job.requestCancellation now).1.statusColumns =
      if job.statusColumns.status.isActive then job.statusColumns.stopped .cancelled now
      else job.statusColumns := by
  have hcan : job.execution.status.canTransitionTo .cancelled .interrupt =
      job.execution.status.isActive := by
    simp [JobStatus.canTransitionTo, JobStatus.canCancel]
  cases hactive : job.execution.status.isActive <;>
    rw [hactive] at hcan <;>
    simp [Job.requestCancellation, Job.stop, Stop.status, Job.setStatus, hcan, hactive,
      Job.statusColumns, Job.adoptStatusColumns, JobStatusColumns.stopped]

namespace Registry

variable {jobId : String} {r : Registry C X D}

theorem get_eq_some {j : RegisteredJob C X D}
    (h : r.get jobId = some j) : j ∈ r.jobs ∧ j.jobId = jobId := by
  refine ⟨mem_of_find?_eq_some h, ?_⟩
  have hid := find?_some h
  exact beq_iff_eq.mp hid

theorem active_of_updateJob {f : Job X D → Job X D} {id : String}
    (hf : ∀ job, (f job).execution.status.isActive = true → job.execution.status.isActive = true)
    (h : (r.updateJob id f).Active jobId) : r.Active jobId := by
  obtain ⟨j', hj', hid, hactive⟩ := h
  obtain ⟨j, hj, rfl⟩ := mem_updateJob.mp hj'
  by_cases hsame : j.jobId = id
  · rw [if_pos hsame] at hid hactive
    exact ⟨j, hj, hid, hf j.job hactive⟩
  · rw [if_neg hsame] at hid hactive
    exact ⟨j, hj, hid, hactive⟩

theorem not_active_requestCancellation (r : Registry C X D) (jobId : String)
    (now : MachineTime) : ¬(r.requestCancellation jobId now).1.Active jobId := by
  rintro ⟨j', hj', hid, hactive⟩
  obtain ⟨j, -, rfl⟩ := mem_updateJob.mp hj'
  by_cases hsame : j.jobId = jobId
  · rw [if_pos hsame] at hactive
    have hcolumns := congrArg JobStatusColumns.status
      (j.job.statusColumns_requestCancellation now)
    change (j.job.requestCancellation now).1.execution.status = _ at hcolumns
    change (j.job.requestCancellation now).1.execution.status.isActive = true at hactive
    rw [hcolumns] at hactive
    split at hactive
    · cases hactive
    · next hstopped => exact hstopped hactive
  · rw [if_neg hsame] at hid
    exact hsame hid

theorem active_of_requestCancellation {id : String}
    {now : MachineTime} (h : (r.requestCancellation id now).1.Active jobId) : r.Active jobId :=
  active_of_updateJob (fun _ => Job.isActive_of_requestCancellation) h

theorem active_of_apply {op : RegistryOp C X D} (hbegins : r.begins op jobId = false) (h : (r.apply op).Active jobId) :
    r.Active jobId := by
  have hupdate : ∀ {id : String} {f : Job X D → Job X D}, op.onJob = some (id, f) →
      (∀ accepted, op ≠ .restart id accepted) → (r.updateJob id f).Active jobId →
      r.Active jobId := by
    intro id f hop hrestart
    exact active_of_updateJob (fun job => RegistryOp.isActive_of_onJob hop hrestart)
  cases op with
  | submit job =>
    cases hconflicts : (findConflicts r.jobs job.toJobSource).isEmpty
    · simpa [apply, insertChecked, hconflicts] using h
    · simp only [apply, insertChecked, hconflicts, if_true] at h
      obtain ⟨j, hj, hid, hactive⟩ := h
      simp only [Registry.insert, mem_append, mem_filter, mem_singleton] at hj
      obtain ⟨hj, -⟩ | rfl := hj
      · exact ⟨j, hj, hid, hactive⟩
      · simp [begins, hid, hconflicts] at hbegins
  | restart id policyAccepted =>
    obtain ⟨j', hj', hid, hactive⟩ := h
    obtain ⟨j, hj, rfl⟩ := mem_updateJob.mp hj'
    by_cases hsame : j.jobId = id
    · rw [if_pos hsame] at hid hactive
      refine ⟨j, hj, hid, ?_⟩
      -- a restart that is not accepted leaves the job as it was
      change ((OtherOp.restart policyAccepted).apply j.job).execution.status.isActive = true
        at hactive
      rw [Job.isActive_restart, Bool.or_eq_true] at hactive
      obtain hrestarts | hwas := hactive
      · have hany : r.jobs.any (fun j => j.jobId == id && j.job.restarts policyAccepted) =
            true := any_eq_true.mpr ⟨j, hj, by simp [hsame, hrestarts]⟩
        simp only [begins, hany, Bool.true_and, beq_eq_false_iff_ne] at hbegins
        exact absurd (hsame.symm.trans hid) hbegins
      · exact hwas
    · rw [if_neg hsame] at hid hactive
      exact ⟨j, hj, hid, hactive⟩
  | delete id =>
    obtain ⟨j, hj, hid, hactive⟩ := h
    exact ⟨j, (mem_filter.mp hj).1, hid, hactive⟩
  | interruptAllActive now =>
    obtain ⟨j', hj', -, hactive⟩ := h
    obtain ⟨j, -, rfl⟩ := mem_map.mp hj'
    rw [RegisteredJob.isActive, Job.not_isActive_interruptForShutdown] at hactive
    cases hactive
  | startup database ttlCutoff now => cases hbegins
  | cancel id now => exact hupdate rfl (fun _ => by simp) h
  | runner id op => exact hupdate rfl (fun _ => by simp) h
  | updateJobStatus id status error now => exact hupdate rfl (fun _ => by simp) h
  | beginRunner id => exact hupdate rfl (fun _ => by simp) h
  | releaseRunnerClaim id => exact hupdate rfl (fun _ => by simp) h

end Registry

/-- What the registry's step found and left; `run` counts the runs of the job that had begun. -/
structure Found where
  run : ℕ
  before : JobStatusColumns
  after : JobStatusColumns

/-- The step moved the job from an active status to `Cancelled`. -/
def Found.moved (f : Found) : Bool := f.before.status.isActive && f.after.status == .cancelled

/-- Where a call is; `found` is what its registry step found. One lost with its server before its row is
  `lost`. -/
inductive CancelPoint where
  | requesting
  | recording (found : Option Found) (accepted : Bool)
  | projecting (found : Option Found) (accepted : Bool)
  | done (found : Option Found)
  | lost

namespace CancelPoint

def found : CancelPoint → Option Found
  | recording found _ | projecting found _ | done found => found
  | requesting | lost => none

def isRecorded : CancelPoint → Bool
  | projecting .. | done _ => true
  | requesting | recording .. | lost => false

def dropped : CancelPoint → CancelPoint
  | requesting | recording .. | lost => lost
  | projecting found _ | done found => done found

end CancelPoint

structure CancelCall where
  jobId : String
  provenance : CancellationRequest
  now : MachineTime
  point : CancelPoint

def CancelCall.row (call : CancelCall) (accepted : Bool) : CancellationRow where
  jobId := call.jobId
  requestedAt := call.now
  source := (call.provenance.source.getD .api).label
  host := nonEmpty call.provenance.host
  pid := call.provenance.pid
  reason := nonEmpty call.provenance.reason
  correlationId := nonEmpty call.provenance.correlationId
  inFlightFilename := nonEmpty call.provenance.inFlightFilename
  accepted := accepted

/-- The registry, the calls, the rows written, each with its call, and each job's runs. -/
structure AuditedStore (C X D : Type) where
  registry : Registry C X D
  runs : String → ℕ
  calls : List CancelCall
  rows : List (ℕ × CancellationRow)
  lastCancel : String → Option JobLastCancelInfo

inductive AuditEvent (C X D : Type) where
  /-- an operation of the store other than a cancel -/
  | registry (op : RegistryOp C X D)
  | cancel (jobId : String) (provenance : CancellationRequest) (now : MachineTime)
  /-- a cancel that met a job already terminal at the route: a row, nothing else -/
  | recordTerminalCancel (jobId : String) (provenance : CancellationRequest)
      (now : MachineTime)
  /-- a shutdown's row for a job it is about to interrupt -/
  | recordCancellationAudit (jobId : String) (provenance : CancellationRequest)
      (now : MachineTime)
  /-- the next step of a call; `inserted` is whether the database takes its row -/
  | advance (i : ℕ) (inserted : Bool)

namespace AuditedStore

def start : AuditedStore C X D := ⟨Registry.empty, fun _ => 0, [], [], fun _ => none⟩

def setPoint (S : AuditedStore C X D) (i : ℕ) (call : CancelCall) (point : CancelPoint) :
    AuditedStore C X D :=
  { S with calls := S.calls.set i { call with point := point } }

/-- The next step of the call at place `i`. -/
def advance (S : AuditedStore C X D) (i : ℕ) (inserted : Bool) (call : CancelCall) :
    Option (AuditedStore C X D) :=
  match call.point with
  | .requesting =>
    let answer := S.registry.requestCancellation call.jobId call.now
    let found := (S.registry.get call.jobId).map (fun j =>
      ⟨S.runs call.jobId, j.job.statusColumns,
        (j.job.requestCancellation call.now).1.statusColumns⟩)
    -- the row says whether the registry knew the job, not whether it stopped it
    some { S.setPoint i call (.recording found answer.2.isSome) with registry := answer.1 }
  | .recording found accepted =>
    some { S.setPoint i call (.projecting found accepted) with
      rows := if inserted then S.rows ++ [(i, call.row accepted)] else S.rows }
  | .projecting found accepted =>
    some { S.setPoint i call (.done found) with
      lastCancel := fun jobId =>
        if jobId = call.jobId ∧ (S.registry.get jobId).isSome then
          some (call.row accepted).lastCancel
        else S.lastCancel jobId }
  | .done _ | .lost => none

def step (S : AuditedStore C X D) : AuditEvent C X D → Option (AuditedStore C X D)
  -- the registry's part of a cancel is a step of its call
  | .registry (.cancel ..) => none
  | .registry op => some { S with
      registry := S.registry.apply op
      runs := fun jobId => S.runs jobId + (S.registry.begins op jobId).toNat
      calls := match op with
        | .startup .. => S.calls.map (fun call => { call with point := call.point.dropped })
        | _ => S.calls }
  | .cancel jobId provenance now =>
    some { S with calls := S.calls ++ [⟨jobId, provenance, now, .requesting⟩] }
  | .recordTerminalCancel jobId provenance now =>
    some { S with calls := S.calls ++ [⟨jobId, provenance, now, .recording none false⟩] }
  | .recordCancellationAudit jobId provenance now =>
    some { S with calls := S.calls ++ [⟨jobId, provenance, now, .recording none true⟩] }
  | .advance i inserted => S.calls[i]?.bind (S.advance i inserted)

def rowsOf (S : AuditedStore C X D) (i : ℕ) : List CancellationRow :=
  (S.rows.filter (fun r => r.1 == i)).map Prod.snd

/-- The call at place `i` found its job known, in this run of it. -/
def FoundBy (S : AuditedStore C X D) (i : ℕ) (call : CancelCall) (found : Found) : Prop :=
  S.calls[i]? = some call ∧ call.point.found = some found

structure Audited (S : AuditedStore C X D) : Prop where
  /-- a call that has recorded wrote one row, which says whether it stopped the job -/
  recorded : ∀ i call found, S.FoundBy i call found → call.point.isRecorded = true →
    ∃ row, S.rowsOf i = [row] ∧ row.accepted = found.moved
  /-- of the calls of one run of a job one at most is recorded as accepted -/
  once : ∀ i call found j call' found', S.FoundBy i call found → S.FoundBy j call' found' →
    call.jobId = call'.jobId → found.run = found'.run →
    (∃ row ∈ S.rowsOf i, row.accepted = true) →
    (∃ row ∈ S.rowsOf j, row.accepted = true) → i = j
  /-- a job that had stopped keeps its status, completion time and error -/
  kept : ∀ i call found, S.FoundBy i call found → found.before.status.isTerminal = true →
    found.after = found.before

def Stops (S : AuditedStore C X D) : AuditEvent C X D → Prop
  | .advance i inserted => ∀ call found accepted, S.calls[i]? = some call →
      call.point = .recording (some found) accepted →
      inserted = true ∧ found.before.status.isActive = true
  | _ => True

structure Sound (S : AuditedStore C X D) : Prop where
  rowsFrom : ∀ r ∈ S.rows, ∃ call, S.calls[r.1]? = some call ∧ call.point.isRecorded = true
  answered : ∀ i call found, S.FoundBy i call found → found.after =
    if found.before.status.isActive then found.before.stopped .cancelled call.now
    else found.before
  known : ∀ (i : ℕ) (call : CancelCall) found accepted, S.calls[i]? = some call →
    call.point = .recording (some found) accepted → accepted = true
  /-- a stopped job is not active before another run of it begins -/
  stopped : ∀ i call found, S.FoundBy i call found → found.moved = true →
    found.run ≤ S.runs call.jobId ∧ (found.run = S.runs call.jobId → ¬S.registry.Active call.jobId)
  unique : ∀ i call found j call' found', S.FoundBy i call found →
    S.FoundBy j call' found' → found.moved = true → found'.moved = true →
    call.jobId = call'.jobId → found.run = found'.run → i = j

theorem Sound.start : (start : AuditedStore C X D).Sound where
  rowsFrom := by simp [AuditedStore.start]
  answered := by simp [FoundBy, AuditedStore.start]
  known := by simp [AuditedStore.start]
  stopped := by simp [FoundBy, AuditedStore.start]
  unique := by simp [FoundBy, AuditedStore.start]

variable {S S' : AuditedStore C X D} {call : CancelCall} {i : ℕ}

theorem Sound.moved_eq (hS : S.Sound) {found : Found} (h : S.FoundBy i call found) :
    found.moved = found.before.status.isActive := by
  have hafter := hS.answered i call found h
  unfold Found.moved
  cases hactive : found.before.status.isActive
  · rfl
  · rw [hactive, if_pos rfl] at hafter
    rw [hafter]
    rfl

theorem Sound.rowsOf_eq_nil (hS : S.Sound) (hi : S.calls[i]? = some call) (h : call.point.isRecorded = false) :
    S.rowsOf i = [] := by
  simp only [rowsOf, map_eq_nil_iff, filter_eq_nil_iff, beq_iff_eq]
  intro r hr hri
  obtain ⟨call', hcall', hrecorded⟩ := hS.rowsFrom r hr
  rw [hri, hi] at hcall'
  cases hcall'
  rw [h] at hrecorded
  cases hrecorded

def Carried (S S' : AuditedStore C X D) : Prop :=
  ∀ i call' found, S'.FoundBy i call' found → ∃ call, S.FoundBy i call found ∧
    call'.jobId = call.jobId ∧ call'.now = call.now

theorem Sound.carried (hS : S.Sound) (hfound : S.Carried S')
    (hrows : ∀ r ∈ S'.rows, ∃ call, S'.calls[r.1]? = some call ∧ call.point.isRecorded = true)
    (hknown : ∀ (i : ℕ) (call : CancelCall) found accepted, S'.calls[i]? = some call →
      call.point = .recording (some found) accepted → accepted = true)
    (hruns : ∀ jobId, S.runs jobId ≤ S'.runs jobId)
    (hactive : ∀ jobId, S'.runs jobId = S.runs jobId → S'.registry.Active jobId →
      S.registry.Active jobId) : S'.Sound where
  rowsFrom := hrows
  answered := by
    intro i call' found h
    obtain ⟨call, hcall, -, hnow⟩ := hfound i call' found h
    rw [hnow]
    exact hS.answered i call found hcall
  known := hknown
  stopped := by
    intro i call' found h hmoved
    obtain ⟨call, hcall, hjob, -⟩ := hfound i call' found h
    rw [hjob]
    obtain ⟨hle, hstopped⟩ := hS.stopped i call found hcall hmoved
    refine ⟨hle.trans (hruns call.jobId), fun hrun hact => ?_⟩
    have hsame : S'.runs call.jobId = S.runs call.jobId :=
      le_antisymm (hrun ▸ hle) (hruns call.jobId)
    exact hstopped (hrun.trans hsame) (hactive call.jobId hsame hact)
  unique := by
    intro i call₁ found₁ j call₂ found₂ h₁ h₂ hm₁ hm₂ hjobs hrun
    obtain ⟨c₁, hc₁, hj₁, -⟩ := hfound i call₁ found₁ h₁
    obtain ⟨c₂, hc₂, hj₂, -⟩ := hfound j call₂ found₂ h₂
    exact hS.unique i c₁ found₁ j c₂ found₂ hc₁ hc₂ hm₁ hm₂
      (hj₁.symm.trans (hjobs.trans hj₂)) hrun

section
variable (hi : S.calls[i]? = some call)
include hi

theorem calls_setPoint (point : CancelPoint) {j : ℕ} {call' : CancelCall}
    (h : (S.setPoint i call point).calls[j]? = some call') :
    (j = i ∧ call' = { call with point := point }) ∨ (j ≠ i ∧ S.calls[j]? = some call') := by
  have hlt : i < S.calls.length := (List.getElem?_eq_some_iff.mp hi).1
  rw [setPoint, getElem?_set] at h
  by_cases hij : i = j
  · subst hij
    rw [if_pos rfl, if_pos hlt] at h
    exact .inl ⟨rfl, (Option.some.inj h).symm⟩
  · rw [if_neg hij] at h
    exact .inr ⟨Ne.symm hij, h⟩

theorem getElem?_setPoint (point : CancelPoint) (j : ℕ) : (S.setPoint i call point).calls[j]? =
      if j = i then some { call with point := point } else S.calls[j]? := by
  have hlt : i < S.calls.length := (List.getElem?_eq_some_iff.mp hi).1
  rw [setPoint, getElem?_set]
  by_cases hij : i = j
  · subst hij
    simp [hlt]
  · simp [hij, Ne.symm hij]

theorem carried_setPoint {point : CancelPoint} (hpoint : point.found = call.point.found)
    (hcalls : S'.calls = (S.setPoint i call point).calls) : S.Carried S' := by
  intro j call' found h
  rw [FoundBy, hcalls] at h
  obtain ⟨rfl, rfl⟩ | ⟨-, hj⟩ := calls_setPoint hi point h.1
  · exact ⟨call, ⟨hi, hpoint ▸ h.2⟩, rfl, rfl⟩
  · exact ⟨call', ⟨hj, h.2⟩, rfl, rfl⟩

end

theorem mem_push {calls : List CancelCall} {call' : CancelCall} {j : ℕ}
    (h : (calls ++ [call])[j]? = some call') : calls[j]? = some call' ∨ call' = call := by
  rw [getElem?_append] at h
  split at h
  · exact .inl h
  · rw [getElem?_singleton] at h
    split at h
    · exact .inr (Option.some.inj h).symm
    · cases h

theorem carried_push (hnone : call.point.found = none) (hcalls : S'.calls = S.calls ++ [call]) :
    S.Carried S' := by
  intro j call' found ⟨hj, hfound⟩
  rw [hcalls] at hj
  obtain hj | rfl := mem_push hj
  · exact ⟨call', ⟨hj, hfound⟩, rfl, rfl⟩
  · rw [hnone] at hfound
    cases hfound

section
variable (hS : S.Sound)
include hS

theorem Sound.push (hnone : call.point.found = none) : Sound { S with calls := S.calls ++ [call] } := by
  have hold : ∀ {j : ℕ} {call' : CancelCall}, S.calls[j]? = some call' →
      (S.calls ++ [call])[j]? = some call' := by
    intro j call' hj
    rw [getElem?_append_left (List.getElem?_eq_some_iff.mp hj).1, hj]
  refine hS.carried (carried_push hnone rfl) ?_ ?_ (fun _ => le_rfl) (fun _ _ h => h)
  · intro r hr
    obtain ⟨call', hcall', hrecorded⟩ := hS.rowsFrom r hr
    exact ⟨call', hold hcall', hrecorded⟩
  · intro j call' found accepted hj hpoint
    obtain hj | rfl := mem_push hj
    · exact hS.known j call' found accepted hj hpoint
    · rw [hpoint] at hnone
      cases hnone

theorem Sound.registry {op : RegistryOp C X D}
    {calls : List CancelCall}
    (hcalls : calls = S.calls ∨
      calls = S.calls.map (fun call => { call with point := call.point.dropped })) :
    Sound { S with
      registry := S.registry.apply op
      runs := fun jobId => S.runs jobId + (S.registry.begins op jobId).toNat
      calls := calls } := by
  -- every call is one there was, as it was or dropped
  have hold : ∀ {j : ℕ} {call' : CancelCall}, calls[j]? = some call' →
      ∃ call, S.calls[j]? = some call ∧
        (call' = call ∨ call' = { call with point := call.point.dropped }) := by
    intro j call' hj
    obtain rfl | rfl := hcalls
    · exact ⟨call', hj, .inl rfl⟩
    · rw [getElem?_map, Option.map_eq_some_iff] at hj
      obtain ⟨call, hcall, rfl⟩ := hj
      exact ⟨call, hcall, .inr rfl⟩
  refine hS.carried ?_ ?_ ?_ (fun _ => Nat.le_add_right _ _) ?_
  · intro j call' found ⟨hj, hfound⟩
    obtain ⟨call, hcall, rfl | rfl⟩ := hold hj
    · exact ⟨call', ⟨hcall, hfound⟩, rfl, rfl⟩
    · refine ⟨call, ⟨hcall, ?_⟩, rfl, rfl⟩
      cases hpoint : call.point <;> rw [hpoint] at hfound <;> first | exact hfound | cases hfound
  · intro r hr
    obtain ⟨call, hcall, hrecorded⟩ := hS.rowsFrom r hr
    obtain rfl | rfl := hcalls
    · exact ⟨call, hcall, hrecorded⟩
    · refine ⟨{ call with point := call.point.dropped }, ?_, ?_⟩
      · simp [getElem?_map, hcall]
      · cases hpoint : call.point <;> rw [hpoint] at hrecorded <;> first | rfl | cases hrecorded
  · intro j call' found accepted hj hpoint
    obtain ⟨call, hcall, rfl | rfl⟩ := hold hj
    · exact hS.known j call' found accepted hcall hpoint
    · cases hdropped : call.point <;> simp [hdropped, CancelPoint.dropped] at hpoint
  · intro jobId hruns hact
    refine Registry.active_of_apply ?_ hact
    change S.runs jobId + (S.registry.begins op jobId).toNat = S.runs jobId at hruns
    exact Bool.toNat_eq_zero.mp (by omega)

theorem Sound.request (hi : S.calls[i]? = some call) (hpoint : call.point = .requesting)
    {inserted : Bool} (h : S.advance i inserted call = some S') : S'.Sound := by
  simp only [advance, hpoint, Option.some.injEq] at h
  obtain ⟨found, hfound⟩ : ∃ found, found = (S.registry.get call.jobId).map (fun j =>
      (⟨S.runs call.jobId, j.job.statusColumns,
        (j.job.requestCancellation call.now).1.statusColumns⟩ : Found)) := ⟨_, rfl⟩
  rw [← hfound] at h
  -- a finding is the new one or one there was
  have hcases : ∀ {j : ℕ} {call' : CancelCall} {f : Found}, S'.FoundBy j call' f →
      (j = i ∧ found = some f ∧ call'.jobId = call.jobId ∧ call'.now = call.now) ∨
        (j ≠ i ∧ S.FoundBy j call' f) := by
    intro j call' f ⟨hj, hf⟩
    rw [← h] at hj
    obtain ⟨rfl, rfl⟩ | ⟨hne, hj⟩ := calls_setPoint hi _ hj
    · exact .inl ⟨rfl, hf, rfl, rfl⟩
    · exact .inr ⟨hne, hj, hf⟩
  have hnew : ∀ {f : Found}, found = some f → f.run = S.runs call.jobId ∧
      (f.before.status.isActive = true → S.registry.Active call.jobId) ∧
      f.after = if f.before.status.isActive then f.before.stopped .cancelled call.now
        else f.before := by
    intro f hf
    rw [hfound, Option.map_eq_some_iff] at hf
    obtain ⟨j, hj, rfl⟩ := hf
    obtain ⟨hmem, hid⟩ := Registry.get_eq_some hj
    exact ⟨rfl, fun hactive => ⟨j, hmem, hid, hactive⟩,
      j.job.statusColumns_requestCancellation call.now⟩
  have hmovedNew : ∀ {f : Found}, found = some f → f.moved = true →
      S.registry.Active call.jobId := by
    intro f hf hmoved
    rw [Found.moved, Bool.and_eq_true] at hmoved
    exact (hnew hf).2.1 hmoved.1
  have hregistry : S'.registry = (S.registry.requestCancellation call.jobId call.now).1 := by
    rw [← h]
  have hruns : S'.runs = S.runs := by
    rw [← h]
    rfl
  -- an earlier finding of the present run means that the job is not active
  have hnone : ∀ {j : ℕ} {call' : CancelCall} {f f' : Found}, S.FoundBy j call' f' →
      f'.moved = true → found = some f → f.moved = true → call'.jobId = call.jobId →
      f'.run ≠ f.run := by
    intro j call' f f' hj hm' hf hm hjobs hrun
    have hstopped := (hS.stopped j call' f' hj hm').2
    rw [hjobs] at hstopped
    exact hstopped (hrun.trans (hnew hf).1) (hmovedNew hf hm)
  constructor
  · intro r hr
    have hr' : r ∈ S.rows := by
      rw [← h] at hr
      exact hr
    obtain ⟨call', hcall', hrecorded⟩ := hS.rowsFrom r hr'
    refine ⟨call', ?_, hrecorded⟩
    rw [← h]
    rw [getElem?_setPoint hi]
    split
    · next hri =>
      rw [hri, hi] at hcall'
      cases hcall'
      rw [hpoint] at hrecorded
      cases hrecorded
    · exact hcall'
  · intro j call' f hj
    obtain ⟨rfl, hf, -, hnow⟩ | ⟨-, hj⟩ := hcases hj
    · rw [hnow]
      exact (hnew hf).2.2
    · exact hS.answered j call' f hj
  · intro j call' f accepted hj hrecording
    rw [← h] at hj
    obtain ⟨rfl, rfl⟩ | ⟨-, hj⟩ := calls_setPoint hi _ hj
    · -- the registry knows the job it found
      simp only [CancelPoint.recording.injEq] at hrecording
      obtain ⟨hf, hacc⟩ := hrecording
      rw [← hacc, Registry.requestCancellation]
      rw [hfound, Option.map_eq_some_iff] at hf
      obtain ⟨k, hk, -⟩ := hf
      simp [hk]
    · exact hS.known j call' f accepted hj hrecording
  · intro j call' f hj hmoved
    rw [hregistry, hruns]
    obtain ⟨rfl, hf, hjob, -⟩ | ⟨-, hj⟩ := hcases hj
    · rw [hjob, (hnew hf).1]
      exact ⟨le_rfl, fun _ => S.registry.not_active_requestCancellation call.jobId call.now⟩
    · obtain ⟨hle, hstopped⟩ := hS.stopped j call' f hj hmoved
      exact ⟨hle, fun hrun hact =>
        hstopped hrun (Registry.active_of_requestCancellation hact)⟩
  · intro j c₁ f₁ k c₂ f₂ h₁ h₂ hm₁ hm₂ hjobs hrun
    obtain ⟨rfl, hf₁, hj₁, -⟩ | ⟨-, h₁⟩ := hcases h₁
    · obtain ⟨rfl, -, -, -⟩ | ⟨-, h₂⟩ := hcases h₂
      · rfl
      · exact absurd hrun.symm (hnone h₂ hm₂ hf₁ hm₁ (hjobs.symm.trans hj₁))
    · obtain ⟨rfl, hf₂, hj₂, -⟩ | ⟨-, h₂⟩ := hcases h₂
      · exact absurd hrun (hnone h₁ hm₁ hf₂ hm₂ (hjobs.trans hj₂))
      · exact hS.unique j c₁ f₁ k c₂ f₂ h₁ h₂ hm₁ hm₂ hjobs hrun

theorem Sound.proceed (point : CancelPoint) (hi : S.calls[i]? = some call)
    (hpoint : point.found = call.point.found) (hrecorded : point.isRecorded = true)
    (hcalls : S'.calls = (S.setPoint i call point).calls)
    (hrows : ∀ r ∈ S'.rows, r ∈ S.rows ∨ r.1 = i) (hregistry : S'.registry = S.registry)
    (hruns : S'.runs = S.runs) : S'.Sound := by
  refine hS.carried (carried_setPoint hi hpoint hcalls) ?_ ?_ ?_ ?_
  · intro r hr
    rw [hcalls, getElem?_setPoint hi]
    by_cases hri : r.1 = i
    · exact ⟨_, if_pos hri, hrecorded⟩
    · rw [if_neg hri]
      exact hS.rowsFrom r ((hrows r hr).resolve_right hri)
  · intro j call' found accepted hj hrecording
    rw [hcalls] at hj
    obtain ⟨-, rfl⟩ | ⟨-, hj⟩ := calls_setPoint hi point hj
    · rw [show point = .recording (some found) accepted from hrecording] at hrecorded
      cases hrecorded
    · exact hS.known j call' found accepted hj hrecording
  · rw [hruns]
    exact fun _ => le_rfl
  · rw [hregistry]
    exact fun _ _ h => h

theorem Sound.step {event : AuditEvent C X D} (h : S.step event = some S') : S'.Sound := by
  cases event with
  | registry op =>
    cases op with
    | cancel jobId now => cases h
    | startup database ttlCutoff now =>
      cases h
      exact hS.registry (.inr rfl)
    | _ =>
      cases h
      exact hS.registry (.inl rfl)
  | cancel jobId provenance now =>
    cases h
    exact hS.push rfl
  | recordTerminalCancel jobId provenance now =>
    cases h
    exact hS.push rfl
  | recordCancellationAudit jobId provenance now =>
    cases h
    exact hS.push rfl
  | advance i inserted =>
    obtain ⟨call, hi, h⟩ := Option.bind_eq_some_iff.mp h
    cases hpoint : call.point with
    | requesting => exact hS.request hi hpoint h
    | recording found accepted =>
      simp only [advance, hpoint, Option.some.injEq] at h
      subst h
      refine hS.proceed (.projecting found accepted) hi ?_ rfl rfl ?_ rfl rfl
      · rw [hpoint]
        rfl
      · intro r hr
        split at hr
        · obtain hr | hr := mem_append.mp hr
          · exact .inl hr
          · rw [mem_singleton] at hr
            exact .inr (congrArg Prod.fst hr)
        · exact .inl hr
    | projecting found accepted =>
      simp only [advance, hpoint, Option.some.injEq] at h
      subst h
      refine hS.proceed (.done found) hi ?_ rfl rfl (fun r hr => .inl hr) rfl rfl
      rw [hpoint]
      rfl
    | done found => simp [advance, hpoint] at h
    | lost => simp [advance, hpoint] at h

end

def Recorded (S : AuditedStore C X D) (i : ℕ) (found : Found) : Prop :=
  ∃ row, S.rowsOf i = [row] ∧ row.accepted = found.moved

theorem Sound.audited_iff (hS : S.Sound) :
    S.Audited ↔ ∀ i call found, S.FoundBy i call found → call.point.isRecorded = true →
      S.Recorded i found := by
  constructor
  · exact fun h => h.recorded
  · intro h
    -- a row is of a call that has recorded, so it says whether the call stopped the job
    have hmoved : ∀ {i : ℕ} {call : CancelCall} {found : Found}, S.FoundBy i call found →
        (∃ row ∈ S.rowsOf i, row.accepted = true) → found.moved = true := by
      rintro i call found hfound ⟨row, hrow, haccepted⟩
      cases hrecorded : call.point.isRecorded
      · rw [hS.rowsOf_eq_nil hfound.1 hrecorded] at hrow
        cases hrow
      · obtain ⟨row', hrows, hsays⟩ := h i call found hfound hrecorded
        rw [hrows, mem_singleton] at hrow
        rw [← hsays, ← hrow, haccepted]
    refine ⟨h, ?_, ?_⟩
    · intro i call found j call' found' hi hj hjobs hrun hrowi hrowj
      exact hS.unique i call found j call' found' hi hj (hmoved hi hrowi) (hmoved hj hrowj)
        hjobs hrun
    · intro i call found hi hterminal
      have hafter := hS.answered i call found hi
      rw [JobStatus.isTerminal_eq_not_isActive, Bool.not_eq_true'] at hterminal
      rwa [hterminal, if_neg (by decide)] at hafter

theorem rowsOf_append (S : AuditedStore C X D) (i j : ℕ) (row : CancellationRow)
    (calls : List CancelCall) :
    ({ S with calls := calls, rows := S.rows ++ [(i, row)] } : AuditedStore C X D).rowsOf j =
      if j = i then S.rowsOf j ++ [row] else S.rowsOf j := by
  unfold rowsOf
  by_cases hij : j = i
  · subst hij
    simp
  · simp [hij, Ne.symm hij]

theorem recorded_of_same (hrows : S'.rows = S.rows)
    (hfound : ∀ i call' found, S'.FoundBy i call' found → call'.point.isRecorded = true →
      ∃ call, S.FoundBy i call found ∧ call.point.isRecorded = true)
    (h : ∀ i call found, S.FoundBy i call found → call.point.isRecorded = true →
      S.Recorded i found) : ∀ i call found, S'.FoundBy i call found → call.point.isRecorded = true →
      S'.Recorded i found := by
  intro i call' found hi hrecorded
  obtain ⟨call, hcall, hwas⟩ := hfound i call' found hi hrecorded
  unfold Recorded rowsOf
  rw [hrows]
  exact h i call found hcall hwas

theorem Sound.recorded_iff (hS : S.Sound) {found : Found} {accepted inserted : Bool}
    (hi : S.calls[i]? = some call) (hpoint : call.point = .recording (some found) accepted)
    (calls : List CancelCall) : Recorded { S with
      calls := calls
      rows := if inserted then S.rows ++ [(i, call.row accepted)] else S.rows } i found ↔
      inserted = true ∧ found.before.status.isActive = true := by
  have hnone : S.rowsOf i = [] := hS.rowsOf_eq_nil hi (by rw [hpoint]; rfl)
  have haccepted : accepted = true := hS.known i call found accepted hi hpoint
  have hmoved : found.moved = found.before.status.isActive :=
    hS.moved_eq ⟨hi, by rw [hpoint]; rfl⟩
  unfold Recorded
  cases inserted
  · -- no row
    constructor
    · rintro ⟨row, hrow, -⟩
      change S.rowsOf i = [row] at hrow
      rw [hnone] at hrow
      cases hrow
    · rintro ⟨h, -⟩
      cases h
  · rw [if_pos rfl, rowsOf_append, if_pos rfl, hnone, nil_append]
    constructor
    · rintro ⟨row, hrow, hsays⟩
      obtain rfl : call.row accepted = row := singleton_inj.mp hrow
      refine ⟨rfl, ?_⟩
      rw [← hmoved, ← hsays]
      exact haccepted
    · rintro ⟨-, hactive⟩
      exact ⟨_, rfl, haccepted.trans (hmoved.trans hactive).symm⟩

theorem Sound.audited_step_iff (hS : S.Sound)
    (haudited : S.Audited) {event : AuditEvent C X D} (h : S.step event = some S') :
    S'.Audited ↔ S.Stops event := by
  rw [hS.audited_iff] at haudited
  rw [(hS.step h).audited_iff]
  have hsame : S'.rows = S.rows → S'.calls = S.calls → ∀ i call found,
      S'.FoundBy i call found → call.point.isRecorded = true → S'.Recorded i found := by
    intro hrows hcalls
    refine recorded_of_same hrows (fun i call' found hi hrecorded => ?_) haudited
    rw [FoundBy, hcalls] at hi
    exact ⟨call', hi, hrecorded⟩
  have hpush : ∀ {call : CancelCall}, call.point.found = none →
      S' = { S with calls := S.calls ++ [call] } →
      ∀ i call found, S'.FoundBy i call found → call.point.isRecorded = true →
        S'.Recorded i found := by
    intro call hnone hS'
    refine recorded_of_same (by rw [hS']) (fun i call' found hi hrecorded => ?_) haudited
    rw [FoundBy, hS'] at hi
    obtain hj | rfl := mem_push hi.1
    · exact ⟨call', ⟨hj, hi.2⟩, hrecorded⟩
    · rw [hnone] at hi
      cases hi.2
  cases event with
  | registry op =>
    refine ⟨fun _ => trivial, fun _ => ?_⟩
    cases op with
    | cancel jobId now => cases h
    | startup database ttlCutoff now =>
      cases h
      refine recorded_of_same (S := S) rfl (fun i call' found ⟨hj, hfound⟩ hrecorded => ?_)
        haudited
      rw [getElem?_map, Option.map_eq_some_iff] at hj
      obtain ⟨call, hcall, rfl⟩ := hj
      refine ⟨call, ⟨hcall, ?_⟩, ?_⟩
      · cases hpoint : call.point <;> rw [hpoint] at hfound <;>
          first | exact hfound | cases hfound
      · cases hpoint : call.point with
        | done found => rfl
        | projecting found accepted => rfl
        | _ =>
          rw [hpoint] at hrecorded
          cases hrecorded
    | _ =>
      cases h
      exact hsame rfl rfl
  | cancel jobId provenance now =>
    cases h
    exact ⟨fun _ => trivial, fun _ => hpush rfl rfl⟩
  | recordTerminalCancel jobId provenance now =>
    cases h
    exact ⟨fun _ => trivial, fun _ => hpush rfl rfl⟩
  | recordCancellationAudit jobId provenance now =>
    cases h
    exact ⟨fun _ => trivial, fun _ => hpush rfl rfl⟩
  | advance i inserted =>
    obtain ⟨call, hi, h⟩ := Option.bind_eq_some_iff.mp h
    have hother : (∀ found accepted, call.point ≠ .recording (some found) accepted) →
        S.Stops (.advance i inserted) := by
      intro hne call' found accepted hi' hpoint
      rw [hi] at hi'
      cases hi'
      exact absurd hpoint (hne found accepted)
    cases hpoint : call.point with
    | requesting =>
      refine ⟨fun _ => hother (by simp [hpoint]), fun _ => ?_⟩
      simp only [advance, hpoint, Option.some.injEq] at h
      subst h
      refine recorded_of_same (S := S) rfl (fun j call' found ⟨hj, hfound⟩ hrecorded => ?_)
        haudited
      obtain ⟨rfl, rfl⟩ | ⟨-, hj⟩ := calls_setPoint hi _ hj
      · cases hrecorded
      · exact ⟨call', ⟨hj, hfound⟩, hrecorded⟩
    | projecting found accepted =>
      refine ⟨fun _ => hother (by simp [hpoint]), fun _ => ?_⟩
      simp only [advance, hpoint, Option.some.injEq] at h
      subst h
      refine recorded_of_same (S := S) rfl (fun j call' found' ⟨hj, hfound⟩ hrecorded => ?_)
        haudited
      obtain ⟨rfl, rfl⟩ | ⟨-, hj⟩ := calls_setPoint hi _ hj
      · exact ⟨call, ⟨hi, by rw [hpoint]; exact hfound⟩, by rw [hpoint]; rfl⟩
      · exact ⟨call', ⟨hj, hfound⟩, hrecorded⟩
    | recording found accepted =>
      simp only [advance, hpoint, Option.some.injEq] at h
      -- the rows of the other calls stay
      have hrest : ∀ j call' found', j ≠ i → S'.FoundBy j call' found' →
          call'.point.isRecorded = true → S'.Recorded j found' := by
        intro j call' found' hne ⟨hj, hfound⟩ hrecorded
        rw [← h] at hj
        obtain ⟨rfl, -⟩ | ⟨-, hj⟩ := calls_setPoint hi _ hj
        · exact absurd rfl hne
        · have hrows : S'.rowsOf j = S.rowsOf j := by
            rw [← h]
            cases inserted
            · rfl
            · exact (rowsOf_append S i j _ _).trans (if_neg hne)
          unfold Recorded
          rw [hrows]
          exact haudited j call' found' ⟨hj, hfound⟩ hrecorded
      have hhere : S'.calls[i]? = some { call with point := .projecting found accepted } := by
        rw [← h]
        exact (getElem?_setPoint hi _ i).trans (if_pos rfl)
      cases found with
      | none =>
        refine ⟨fun _ => hother (by simp [hpoint]), fun _ j call' found' hj hrecorded => ?_⟩
        by_cases hij : j = i
        · subst hij
          obtain ⟨hj, hfound⟩ := hj
          rw [hhere] at hj
          cases hj
          cases hfound
        · exact hrest j call' found' hij hj hrecorded
      | some f =>
        have hiff : S'.Recorded i f ↔ inserted = true ∧ f.before.status.isActive = true := by
          rw [← h]
          exact hS.recorded_iff hi hpoint _
        constructor
        · intro hall call' found' accepted' hi' hpoint'
          rw [hi] at hi'
          cases hi'
          rw [hpoint] at hpoint'
          cases hpoint'
          exact hiff.mp (hall i _ f ⟨hhere, rfl⟩ rfl)
        · intro hstops j call' found' hj hrecorded
          by_cases hij : j = i
          · subst hij
            obtain ⟨hj, hfound⟩ := hj
            rw [hhere] at hj
            cases hj
            cases hfound
            exact hiff.mpr (hstops call f accepted hi hpoint)
          · exact hrest j call' found' hij hj hrecorded
    | done found => simp [advance, hpoint] at h
    | lost => simp [advance, hpoint] at h

end AuditedStore

/-- From an empty store, over every interleaving, each recorded call of a known job wrote one row,
  accepted exactly if it stopped the job, and once a run at most, exactly when each such row is inserted
  and its call found the job active. -/
theorem audited_always_iff (events : List (AuditEvent C X D)) :
    Runs.Always AuditedStore.step AuditedStore.Audited AuditedStore.start events ↔
      Runs.Along AuditedStore.step AuditedStore.Stops AuditedStore.start events := by
  refine Runs.always_iff_along_beside (J := AuditedStore.Sound)
    (fun S event S' hS hstep => hS.step hstep)
    (fun S event S' hS haudited hstep => hS.audited_step_iff haudited hstep)
    AuditedStore.Sound.start ?_ events
  rw [AuditedStore.Sound.start.audited_iff]
  intro i call found h
  simp [AuditedStore.FoundBy, AuditedStore.start] at h

def emptyRequest : CancellationRequest := ⟨none, none, none, none, none, none⟩

/-- Two cancels of a queued job: the second finds it cancelled, and its row says accepted
too. -/
theorem second_cancel_recorded_accepted :
    ¬ Runs.Always AuditedStore.step AuditedStore.Audited AuditedStore.start
      [.registry (.submit (oneFileSubmission "job")), .cancel "job" emptyRequest 10,
        .advance 0 true, .advance 0 true, .cancel "job" emptyRequest 11, .advance 1 true,
        .advance 1 true] := by
  intro h
  obtain ⟨-, h⟩ := h
  obtain ⟨-, h⟩ := h _ rfl
  obtain ⟨-, h⟩ := h _ rfl
  obtain ⟨-, h⟩ := h _ rfl
  obtain ⟨-, h⟩ := h _ rfl
  obtain ⟨-, h⟩ := h _ rfl
  obtain ⟨-, h⟩ := h _ rfl
  obtain ⟨row, hrow, hsays⟩ := (h _ rfl).recorded 1 _ _ ⟨rfl, rfl⟩ rfl
  obtain rfl := singleton_inj.mp hrow
  exact absurd hsays (by decide)

end Batchalign.Store
