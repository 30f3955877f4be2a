import Batchalign.Lib.Crew
import Batchalign.Cache.Tiered

/- The hot map beside the cold store. An entry of the map is what the store reads for its key, unless a
   put that has written the row has still to insert it (`Sound.coherent`). -/
namespace Batchalign.Cache
open List

variable {D : Type}

def Tiers.pending (S : Tiers D) (key : String) : Bool :=
  S.calls.any (fun c => key ∈ c.stage.toInsert)

def Tiers.insertsRow [Json D] [DecidableEq D] (S : Tiers D) (c : Call D) (e : String × D) : Bool :=
  S.pending e.1 || S.coldGet e.1 c.task c.engineVersion = some (some e.2)

def Tiers.deleting (S : Tiers D) (task key : String) : Bool :=
  S.calls.any (fun c => match c.stage with
    | .coldDeletes rest _ => c.task = task && key ∈ c.keys && key ∉ rest
    | _ => false)

/-- Only what the store reads goes to the hot map; no row is deleted under its hot entry or comes back while its delete has
  still to return. -/
def Event.keepsApart [Json D] [DecidableEq D] (S : Tiers D) : Event D → Bool
  | .advances k ok i =>
      match S.calls[k]? with
      | some c =>
          match c.stage with
          | .promotes rest _ => (rest[i]?).all (S.insertsRow c)
          | .hotWrites (e :: rest) => (S.turn k c (.afterInsert rest)).insertsRow c e
          | .coldWrite entries =>
              !ok || (entries.map Prod.fst).all (fun key => !S.deleting c.task key)
          | .coldDeletes keys _ =>
              !ok || (keys.take chunkSize).all (fun key =>
                S.pending key || !S.coldHas c.task key || S.hot key = none)
          | _ => true
      | none => true
  | _ => true

def Stage.puts : Stage D → List String
  | .coldWrite entries | .hotWrites entries => entries.map Prod.fst
  | _ => []

def Stage.found : Stage D → List String
  | .hotReads _ results _ | .promotes _ results | .read results => results.map Prod.fst
  | .coldReads _ results fetched => results.map Prod.fst ++ fetched.map Prod.fst
  | _ => []

/-- The hot entry of the key, if any, is what the cold store reads for its task and version. -/
def Tiers.CoherentAt [Json D] (S : Tiers D) (key : String) : Prop :=
  ∀ e, S.hot key = some e → S.coldGet key e.task e.engineVersion = some (some e.data)

structure Sound [Json D] (S : Tiers D) : Prop where
  coherent : ∀ key, S.pending key = true ∨ S.CoherentAt key
  writes : ∀ c ∈ S.calls, ∀ key ∈ c.stage.puts, key ∈ c.keys
  gone : ∀ key task, S.gone key task = true → S.writing key = false ∧ S.coldHas task key = false
  deletes : ∀ c ∈ S.calls, ∀ rest count, c.stage = .coldDeletes rest count →
    ∀ key ∈ c.keys, key ∈ rest ∨ S.coldHas c.task key = false
  reads : ∀ c ∈ S.calls, ∀ key ∈ c.afterDelete, S.gone key c.task = true ∧ key ∉ c.stage.found

/-! The two tiers. -/

variable {engineVersion key task : String} {S : Tiers D}

theorem Stage.puts_of_toInsert {stage : Stage D} (h : key ∈ stage.toInsert) :
    key ∈ stage.puts ∧ stage.writes = true := by
  cases stage <;> simp_all [toInsert, puts, writes]

theorem Tiers.matching_eq_some {entry : Option (Entry D)} {data : D}
    (h : matching entry task engineVersion = some data) : entry = some ⟨task, engineVersion, data⟩ := by
  unfold matching at h
  split at h
  · split at h <;> cases h
    rename_i e he
    rw [← he.1, ← he.2]
  · cases h

variable [Json D] {entries : List (String × D)}

theorem Tiers.coldPut_of_not_mem (cold : String → Option (Entry String)) (task engineVersion : String)
    (h : key ∉ entries.map Prod.fst) :
    coldPut cold task engineVersion entries key = cold key := by
  induction entries generalizing cold with
  | nil => rfl
  | cons e entries ih =>
    simp only [map_cons, mem_cons, not_or] at h
    have hhead : Function.update cold e.1 (some ⟨task, engineVersion, Json.toText e.2⟩) key =
        cold key :=
      Function.update_of_ne h.1 _ _
    exact (ih _ h.2).trans hhead

theorem Tiers.coldPut_cases (cold : String → Option (Entry String)) (task engineVersion : String)
    (entries : List (String × D)) (key : String) :
    coldPut cold task engineVersion entries key = cold key ∨
      ∃ row, coldPut cold task engineVersion entries key = some row ∧ row.task = task := by
  induction entries generalizing cold with
  | nil => exact .inl rfl
  | cons e entries ih =>
    rcases ih (Function.update cold e.1 (some ⟨task, engineVersion, Json.toText e.2⟩)) with hsame | hwritten
    · by_cases hkey : key = e.1
      · right
        refine ⟨⟨task, engineVersion, Json.toText e.2⟩, ?_, rfl⟩
        refine hsame.trans ?_
        simp [hkey]
      · left
        exact hsame.trans (Function.update_of_ne hkey _ _)
    · exact .inr hwritten

omit [Json D] in
theorem Tiers.matching_of_not_has (h : S.coldHas task key = false) :
    matching (S.cold key) task engineVersion = none := by
  unfold coldHas at h
  unfold matching
  split at h <;> simp_all

theorem Tiers.coldHas_of_coldGet {data : D}
    (h : S.coldGet key task engineVersion = some (some data)) : S.coldHas task key = true := by
  by_contra hnone
  rw [coldGet, matching_of_not_has (Bool.eq_false_iff.mpr hnone)] at h
  cases h

omit [Json D] in
theorem mem_extend {found more : List (String × D)} : key ∈ (extend found more).map Prod.fst ↔
      key ∈ found.map Prod.fst ∨ key ∈ more.map Prod.fst := by
  simp only [extend, map_append, mem_append, mem_map, mem_filter]
  constructor
  · rintro (⟨e, ⟨he, -⟩, rfl⟩ | h)
    · exact .inl ⟨e, he, rfl⟩
    · exact .inr h
  · rintro (⟨e, he, rfl⟩ | h)
    · by_cases hmore : e.1 ∈ more.map Prod.fst
      · exact .inr (mem_map.mp hmore)
      · exact .inl ⟨e, ⟨he, by simpa using hmore⟩, rfl⟩
    · exact .inr h

/-- The values parsed are of the rows found. -/
theorem map_fst_of_mapM {rows : List (String × String)} {found : List (String × D)}
    (h : rows.mapM (fun row => (Json.fromText row.2).map (row.1, ·)) = some found) :
    found.map Prod.fst = rows.map Prod.fst := by
  induction rows generalizing found with
  | nil =>
    obtain rfl : [] = found := by simpa using h
    rfl
  | cons row rows ih =>
    simp only [mapM_cons, Option.bind_eq_bind, Option.bind_eq_some_iff, Option.map_eq_some_iff] at h
    obtain ⟨-, ⟨data, -, rfl⟩, rest, hrest, hfound⟩ := h
    obtain rfl : (row.1, data) :: rest = found := by simpa using hfound
    simp [ih hrest]

theorem Tiers.coldHas_of_coldGetChunk {chunk : List String} {found : List (String × D)}
    (h : S.coldGetChunk chunk task engineVersion = some found) (hkey : key ∈ found.map Prod.fst) :
    S.coldHas task key = true := by
  rw [map_fst_of_mapM h] at hkey
  obtain ⟨row, hrow, rfl⟩ := mem_map.mp hkey
  obtain ⟨key', -, hmatch⟩ := mem_filterMap.mp hrow
  obtain ⟨text, htext, rfl⟩ := Option.map_eq_some_iff.mp hmatch
  by_contra hnone
  rw [matching_of_not_has (Bool.eq_false_iff.mpr hnone)] at htext
  cases htext

/-! What a call that goes on changes. -/

omit [Json D] in
theorem any_set {p : Call D → Bool} {calls : List (Call D)} {k : ℕ} {c c' : Call D}
    (hk : calls[k]? = some c) (hp : p c' = true → p c = true)
    (h : (calls.set k c').any p = true) : calls.any p = true := by
  obtain ⟨x, hx, hpx⟩ := any_eq_true.mp h
  rcases mem_or_eq_of_mem_set hx with hold | rfl
  · exact any_eq_true.mpr ⟨x, hold, hpx⟩
  · exact any_eq_true.mpr ⟨c, mem_of_getElem? hk, hp hpx⟩

omit [Json D] in
theorem any_set_of_any {p : Call D → Bool} {calls : List (Call D)} {k : ℕ} {c c' : Call D}
    (hk : calls[k]? = some c) (hp : p c = true → p c' = true) (h : calls.any p = true) :
    (calls.set k c').any p = true := by
  obtain ⟨x, hx, hpx⟩ := any_eq_true.mp h
  rcases Crew.mem_set_of_mem c' hk hx with rfl | hstill
  · exact any_eq_true.mpr
      ⟨c', mem_set (List.getElem?_eq_some_iff.mp hk).1 _, hp hpx⟩
  · exact any_eq_true.mpr ⟨x, hstill, hpx⟩

namespace Sound

variable {S S' : Tiers D} {c : Call D} {count k : ℕ} {key task : String}
  {results : List (String × D)} {keys : List String}

theorem turn (h : Sound S) (hk : S.calls[k]? = some c)
    (stage : Stage D) (hcalls : S'.calls = S.calls.set k { c with stage := stage })
    (hcold : S'.cold = S.cold) (hgone : S'.gone = S.gone)
    (hcoherent : ∀ key, S'.pending key = true ∨ S'.CoherentAt key)
    (hputs : ∀ key ∈ stage.puts, key ∈ c.stage.puts)
    (hwrites : stage.writes = true → c.stage.writes = true)
    (hdeletes : ∀ rest count, stage = .coldDeletes rest count → ∀ key ∈ c.keys, key ∈ rest)
    (hfound : ∀ key ∈ c.afterDelete, key ∉ stage.found) : Sound S' := by
  have hc := mem_of_getElem? hk
  have hhas : S'.coldHas = S.coldHas := by
    funext task key
    simp [Tiers.coldHas, hcold]
  constructor
  case coherent => exact hcoherent
  case writes =>
    rw [hcalls]
    exact Crew.forall_set h.writes (fun key hkey => h.writes c hc key (hputs key hkey))
  case gone =>
    rw [hgone, hhas]
    intro key task hgone
    obtain ⟨hwriting, hrow⟩ := h.gone key task hgone
    refine ⟨?_, hrow⟩
    by_contra hnow
    rw [Bool.not_eq_false, Tiers.writing, hcalls] at hnow
    have : S.writing key = true := any_set hk (by simp_all) hnow
    simp [this] at hwriting
  case deletes =>
    rw [hcalls, hhas]
    exact Crew.forall_set h.deletes
      (fun rest count hstage key hkey => .inl (hdeletes rest count hstage key hkey))
  case reads =>
    rw [hcalls, hgone]
    apply Crew.forall_set h.reads
    exact fun key hkey => ⟨(h.reads c hc key hkey).1, hfound key hkey⟩

omit [Json D] in
theorem pending_turn (hk : S.calls[k]? = some c)
    {stage : Stage D} (hcalls : S'.calls = S.calls.set k { c with stage := stage }) (hkey : key ∈ c.stage.toInsert → key ∈ stage.toInsert) (h : S.pending key = true) :
    S'.pending key = true := by
  rw [Tiers.pending, hcalls]
  exact any_set_of_any hk (by simpa using hkey) h

section
variable (h : Sound S)
include h

theorem looks (hk : S.calls[k]? = some c)
    (stage : Stage D) (hc : c.stage.toInsert = []) (hputs : stage.puts = [])
    (hwrites : stage.writes = false) (hdeletes : ∀ rest count, stage ≠ .coldDeletes rest count)
    (hfound : ∀ key ∈ c.afterDelete, key ∉ stage.found) : Sound (S.turn k c stage) := by
  refine h.turn hk stage rfl rfl rfl ?_ (by simp [hputs]) (by simp [hwrites])
    (fun rest count hstage => absurd hstage (hdeletes rest count)) hfound
  intro key
  exact (h.coherent key).imp_left (pending_turn hk rfl (by simp [hc]))

theorem inserts [DecidableEq D] (hk : S.calls[k]? = some c) (stage : Stage D) (e : String × D)
    (hkept : ∀ key ∈ c.stage.toInsert, key = e.1 ∨ key ∈ stage.toInsert)
    (hrow : (S.turn k c stage).insertsRow c e = true) (hputs : ∀ key ∈ stage.puts, key ∈ c.stage.puts)
    (hwrites : stage.writes = true → c.stage.writes = true)
    (hdeletes : ∀ rest count, stage ≠ .coldDeletes rest count)
    (hfound : ∀ key ∈ c.afterDelete, key ∉ stage.found) : Sound ((S.insert c e).turn k c stage) := by
  refine h.turn hk stage rfl rfl rfl ?_ hputs hwrites
    (fun rest count hstage => absurd hstage (hdeletes rest count)) hfound
  intro key
  by_cases hkey : key = e.1
  · subst hkey
    rcases Bool.or_eq_true_iff.mp hrow with hpending | hcold
    · exact .inl hpending
    · right
      intro entry hentry
      simp only [Tiers.turn, Tiers.insert, Function.update_self, Option.some.injEq] at hentry
      rw [← hentry]
      exact of_decide_eq_true hcold
  · have hsame : (S.insert c e).hot key = S.hot key := Function.update_of_ne hkey _ _
    rcases h.coherent key with hpending | hcoherent
    · left
      exact pending_turn hk rfl (fun hmem => (hkept key hmem).resolve_left hkey) hpending
    · right
      intro entry hentry
      exact hcoherent entry (hsame ▸ hentry)

theorem invalidates (key : String) : Sound (S.invalidate key) := by
  refine ⟨?_, h.writes, h.gone, h.deletes, h.reads⟩
  intro key'
  refine (h.coherent key').imp_right ?_
  intro hcoherent e he
  by_cases hkey : key' = key
  · simp [Tiers.invalidate, hkey] at he
  · exact hcoherent e (by simpa [Tiers.invalidate, Function.update_of_ne hkey] using he)

theorem not_pending (hgone : S.gone key task = true) : S.pending key = false := by
  by_contra hpending
  rw [Bool.not_eq_false] at hpending
  obtain ⟨c, hc, hkey⟩ := any_eq_true.mp hpending
  obtain ⟨hputs, hwrites⟩ := Stage.puts_of_toInsert (of_decide_eq_true hkey)
  have hwriting : S.writing key = true := by
    refine any_eq_true.mpr ⟨c, hc, ?_⟩
    simp [hwrites, h.writes c hc key hputs]
  simp [(h.gone key task hgone).1] at hwriting

theorem hot_of_gone (engineVersion : String) (hgone : S.gone key task = true) :
    Tiers.matching (S.hot key) task engineVersion = none := by
  rw [Option.eq_none_iff_forall_ne_some]
  intro data hdata
  have hhot := Tiers.matching_eq_some hdata
  have hcoherent := (h.coherent key).resolve_left (by simp [h.not_pending hgone])
  have hrow := Tiers.coldHas_of_coldGet (hcoherent _ hhot)
  simp [(h.gone key task hgone).2] at hrow

section
variable (hk : S.calls[k]? = some c)
include hk

theorem hotReads [DecidableEq D] {rest : List String}
    {misses : List String}
    (hc : c.stage = .hotReads (key :: rest) results misses) :
    Sound (S.turn k c (match Tiers.matching (S.hot key) c.task c.engineVersion with
      | some data => .afterHot rest (extend results [(key, data)]) misses
      | none => .afterHot rest results (misses ++ [key]))) := by
  have hmem := mem_of_getElem? hk
  have hafter : ∀ (results : List (String × D)) (misses : List String),
      (∀ key' ∈ c.afterDelete, key' ∉ results.map Prod.fst) →
      Sound (S.turn k c (.afterHot rest results misses)) := by
    intro results misses hresults
    unfold Stage.afterHot
    split
    · exact h.looks hk _ (by simp [hc, Stage.toInsert]) rfl rfl (by simp) hresults
    · split
      · exact h.looks hk _ (by simp [hc, Stage.toInsert]) rfl rfl (by simp) hresults
      · exact h.looks hk _ (by simp [hc, Stage.toInsert]) rfl rfl (by simp)
          (by simpa [Stage.found] using hresults)
  have hbefore : ∀ key' ∈ c.afterDelete, key' ∉ results.map Prod.fst := by
    intro key' hkey'
    have := (h.reads c hmem key' hkey').2
    simpa [hc, Stage.found] using this
  split
  · rename_i data hhit
    apply hafter
    intro key' hkey'
    rw [mem_extend, not_or]
    refine ⟨hbefore key' hkey', ?_⟩
    -- the key that was hit is not gone
    intro hsame
    obtain rfl : key' = key := by simpa using hsame
    rw [h.hot_of_gone c.engineVersion (h.reads c hmem key' hkey').1] at hhit
    cases hhit
  · exact hafter _ _ hbefore

theorem coldReads {fetched rows : List (String × D)}
    (hc : c.stage = .coldReads keys results fetched)
    (hrows : S.coldGetChunk (keys.take chunkSize) c.task c.engineVersion = some rows) :
    Sound (S.turn k c (.afterCold (keys.drop chunkSize) results (extend fetched rows))) := by
  have hmem := mem_of_getElem? hk
  have hbefore : ∀ key ∈ c.afterDelete, key ∉ results.map Prod.fst ∧
      key ∉ (extend fetched rows).map Prod.fst := by
    intro key hkey
    obtain ⟨hgone, hfound⟩ := h.reads c hmem key hkey
    simp only [hc, Stage.found, mem_append, not_or] at hfound
    refine ⟨hfound.1, ?_⟩
    rw [mem_extend, not_or]
    refine ⟨hfound.2, ?_⟩
    intro hchunk
    have hrow := Tiers.coldHas_of_coldGetChunk hrows hchunk
    simp [(h.gone key c.task hgone).2] at hrow
  unfold Stage.afterCold
  split
  · exact h.looks hk _ (by simp [hc, Stage.toInsert]) rfl rfl (by simp)
      (fun key hkey => by
        simpa [Stage.found] using hbefore key hkey)
  · split
    · exact h.looks hk _ (by simp [hc, Stage.toInsert]) rfl rfl (by simp)
        (fun key hkey => (hbefore key hkey).1)
    · refine h.looks hk _ (by simp [hc, Stage.toInsert]) rfl rfl (by simp) ?_
      intro key hkey
      simp only [Stage.found]
      rw [mem_extend, not_or]
      exact hbefore key hkey

theorem promotes [DecidableEq D] {i : ℕ} {rest : List (String × D)}
    (hc : c.stage = .promotes rest results) {e : String × D} (hrow : S.insertsRow c e = true) :
    Sound ((S.insert c e).turn k c (.afterPromotion (rest.eraseIdx i) results)) := by
  have hmem := mem_of_getElem? hk
  have hfound : ∀ key ∈ c.afterDelete, key ∉ results.map Prod.fst := by
    intro key hkey
    have := (h.reads c hmem key hkey).2
    simpa [hc, Stage.found] using this
  have hrow' : ∀ stage : Stage D, (S.turn k c stage).insertsRow c e = true := by
    intro stage
    rcases Bool.or_eq_true_iff.mp hrow with hpending | hcold
    · exact Bool.or_eq_true_iff.mpr
        (.inl (pending_turn hk rfl (by simp [hc, Stage.toInsert]) hpending))
    · exact Bool.or_eq_true_iff.mpr (.inr hcold)
  unfold Stage.afterPromotion
  split <;>
    exact h.inserts hk _ e (by simp [hc, Stage.toInsert]) (hrow' _) (by simp [Stage.puts])
      (by simp [Stage.writes]) (by simp) hfound

theorem hotWrites [DecidableEq D] {e : String × D} {rest : List (String × D)}
    (hc : c.stage = .hotWrites (e :: rest))
    (hrow : (S.turn k c (.afterInsert rest)).insertsRow c e = true) :
    Sound ((S.insert c e).turn k c (.afterInsert rest)) := by
  cases rest with
  | nil =>
    exact h.inserts hk .written e (by simp [hc, Stage.toInsert]) hrow (by simp [Stage.puts])
      (by simp [Stage.writes]) (by simp) (by simp [Stage.found])
  | cons e' rest =>
    exact h.inserts hk (.hotWrites (e' :: rest)) e (by simp [hc, Stage.toInsert]) hrow
      (by simp +contextual [hc, Stage.puts]) (by simp [hc, Stage.writes]) (by simp)
      (by simp [Stage.found])

theorem ends (hc : c.stage.toInsert = []) : Sound (S.turn k c .failed) :=
  h.looks hk _ hc rfl rfl (by simp) (by simp [Stage.found])

theorem coldWrite
    (hc : c.stage = .coldWrite entries)
    (hapart : ∀ key ∈ entries.map Prod.fst, S.deleting c.task key = false) :
    Sound { S.turn k c (.hotWrites entries) with
      cold := Tiers.coldPut S.cold c.task c.engineVersion entries } := by
  have hmem := mem_of_getElem? hk
  -- to the keys it does not write the put does nothing
  have hsame : ∀ key, key ∉ entries.map Prod.fst →
      Tiers.coldPut S.cold c.task c.engineVersion entries key = S.cold key :=
    fun key => Tiers.coldPut_of_not_mem S.cold c.task c.engineVersion
  constructor
  case coherent =>
    intro key
    by_cases hkey : key ∈ entries.map Prod.fst
    · left
      refine any_eq_true.mpr ⟨{ c with stage := .hotWrites entries }, ?_, decide_eq_true hkey⟩
      exact mem_set (List.getElem?_eq_some_iff.mp hk).1 _
    · rcases h.coherent key with hpending | hcoherent
      · exact .inl (pending_turn hk rfl (by simp [hc, Stage.toInsert]) hpending)
      · right
        intro e he
        simpa [Tiers.coldGet, hsame key hkey] using hcoherent e he
  case writes =>
    apply Crew.forall_set h.writes
    intro key hkey
    exact h.writes c hmem key (by simpa [hc, Stage.puts] using hkey)
  case gone =>
    intro key task hgone
    obtain ⟨hwriting, hrow⟩ := h.gone key task hgone
    have hkey : key ∉ entries.map Prod.fst := by
      intro hkey
      have hkeys := h.writes c hmem key (by simpa [hc, Stage.puts] using hkey)
      have := any_eq_false.mp hwriting c hmem
      simp [hc, Stage.writes, hkeys] at this
    refine ⟨?_, by simpa [Tiers.coldHas, hsame key hkey] using hrow⟩
    by_contra hnow
    rw [Bool.not_eq_false] at hnow
    have : S.writing key = true := any_set hk (by simp [hc, Stage.writes]) hnow
    simp [this] at hwriting
  case deletes =>
    apply Crew.forall_set
    · intro c' hc' rest count hstage key hkey
      rcases h.deletes c' hc' rest count hstage key hkey with hrest | hrow
      · exact .inl hrest
      by_cases hentry : key ∈ entries.map Prod.fst
      · rcases Tiers.coldPut_cases S.cold c.task c.engineVersion entries key with
          hold | ⟨row, hnew, htask⟩
        · exact .inr (by simpa [Tiers.coldHas, hold] using hrow)
        · -- the row is written for the put's task: the delete is of another, or has it to come
          by_cases hsametask : c'.task = c.task
          · left
            have := any_eq_false.mp (hapart key hentry) c' hc'
            simp only [hstage] at this
            simpa [hsametask, hkey] using this
          · right
            simp only [Tiers.coldHas, hnew, htask]
            simpa using Ne.symm hsametask
      · exact .inr (by simpa [Tiers.coldHas, hsame key hentry] using hrow)
    · simp
  case reads =>
    apply Crew.forall_set h.reads
    exact fun key hkey => ⟨(h.reads c hmem key hkey).1, by simp [Stage.found]⟩

end

end

omit [Json D] in
theorem coldHas_delete (S : Tiers D) (chunk : List String) (task task' key : String) :
    ({ S with cold := S.coldDeleteChunk chunk task } : Tiers D).coldHas task' key =
      (S.coldHas task' key && !(key ∈ chunk && S.coldHas task key)) := by
  by_cases hdeleted : key ∈ chunk ∧ S.coldHas task key = true
  · have hnone : S.coldDeleteChunk chunk task key = none := by
      simp [Tiers.coldDeleteChunk, hdeleted]
    rw [Tiers.coldHas]
    simp [hnone, hdeleted]
  · have hsame : S.coldDeleteChunk chunk task key = S.cold key := by
      simp [Tiers.coldDeleteChunk, hdeleted]
    have hkept : (key ∈ chunk && S.coldHas task key) = false := by simpa using hdeleted
    rw [hkept, Tiers.coldHas, Tiers.coldHas]
    simp [hsame]

section
variable (h : Sound S)
include h

theorem coldDeletes (hk : S.calls[k]? = some c) (hc : c.stage = .coldDeletes keys count)
    (hhot : ∀ key ∈ keys.take chunkSize, S.pending key = true ∨ S.coldHas c.task key = false ∨
      S.hot key = none) (count' : ℕ) :
    Sound ({ S with cold := S.coldDeleteChunk (keys.take chunkSize) c.task }.turn k c
      (.coldDeletes (keys.drop chunkSize) count')) := by
  have hmem := mem_of_getElem? hk
  have hless : ∀ task key, S.coldHas task key = false →
      ({ S with cold := S.coldDeleteChunk (keys.take chunkSize) c.task } : Tiers D).coldHas task
        key = false := by
    intro task key hrow
    rw [coldHas_delete, hrow, Bool.false_and]
  constructor
  case coherent =>
    intro key
    rcases h.coherent key with hpending | hcoherent
    · exact .inl (pending_turn hk rfl (by simp [hc, Stage.toInsert]) hpending)
    by_cases hdeleted : key ∈ keys.take chunkSize ∧ S.coldHas c.task key = true
    · rcases hhot key hdeleted.1 with hpending | hrow | hnone
      · exact .inl (pending_turn hk rfl (by simp [hc, Stage.toInsert]) hpending)
      · simp [hrow] at hdeleted
      · exact .inr (fun e he => by simp [Tiers.turn, hnone] at he)
    · right
      intro e he
      have hsame : S.coldDeleteChunk (keys.take chunkSize) c.task key = S.cold key := by
        simp [Tiers.coldDeleteChunk, hdeleted]
      simpa [Tiers.turn, Tiers.coldGet, hsame] using hcoherent e he
  case writes => exact Crew.forall_set h.writes (by simp [Stage.puts])
  case gone =>
    intro key task hgone
    obtain ⟨hwriting, hrow⟩ := h.gone key task hgone
    refine ⟨?_, hless task key hrow⟩
    by_contra hnow
    rw [Bool.not_eq_false] at hnow
    have : S.writing key = true := any_set hk (by simp [Stage.writes]) hnow
    simp [this] at hwriting
  case deletes =>
    apply Crew.forall_set
    · intro c' hc' rest count hstage key hkey
      exact (h.deletes c' hc' rest count hstage key hkey).imp_right (hless _ _)
    · rintro rest count ⟨⟩ key hkey
      rcases h.deletes c hmem keys _ hc key hkey with hrest | hrow
      · rw [← take_append_drop chunkSize keys] at hrest
        rcases mem_append.mp hrest with hchunk | hlater
        · right
          have := coldHas_delete S (keys.take chunkSize) c.task c.task key
          refine this.trans ?_
          cases S.coldHas c.task key <;> simp [hchunk]
        · exact .inl hlater
      · exact .inr (hless _ _ hrow)
  case reads =>
    apply Crew.forall_set h.reads
    exact fun key hkey => ⟨(h.reads c hmem key hkey).1, by simp [Stage.found]⟩

theorem returns (hk : S.calls[k]? = some c) (hc : c.stage = .coldDeletes [] count) (count' : ℕ) :
    Sound ((S.returns c).turn k c (.deleted count')) := by
  have hmem := mem_of_getElem? hk
  have hturned : Sound (S.turn k c (.deleted count')) :=
    h.looks hk _ (by simp [hc, Stage.toInsert]) rfl rfl (by simp) (by simp [Stage.found])
  refine ⟨hturned.coherent, hturned.writes, ?_, hturned.deletes, ?_⟩
  · intro key task hgone
    rcases Bool.or_eq_true_iff.mp hgone with hold | hnew
    · exact hturned.gone key task hold
    · simp only [Bool.and_eq_true, decide_eq_true_eq, Bool.not_eq_true'] at hnew
      obtain ⟨⟨rfl, hkey⟩, hwriting⟩ := hnew
      refine ⟨?_, ?_⟩
      · by_contra hnow
        rw [Bool.not_eq_false] at hnow
        have : S.writing key = true := any_set hk (by simp [Stage.writes]) hnow
        simp [this] at hwriting
      · exact (h.deletes c hmem [] count hc key hkey).resolve_left (by simp)
  · intro c' hc' key hkey
    obtain ⟨hgone, hfound⟩ := hturned.reads c' hc' key hkey
    exact ⟨Bool.or_eq_true_iff.mpr (.inl hgone), hfound⟩

theorem deletesLast (hk : S.calls[k]? = some c) (hc : c.stage = .coldDeletes keys count) (hlast : keys.drop chunkSize = [])
    (hhot : ∀ key ∈ keys.take chunkSize, S.pending key = true ∨ S.coldHas c.task key = false ∨
      S.hot key = none) (count' : ℕ) :
    Sound ((Tiers.returns { S with cold := S.coldDeleteChunk (keys.take chunkSize) c.task }
      c).turn k c (.deleted count')) := by
  have hdeleted := h.coldDeletes hk hc hhot count'
  rw [hlast] at hdeleted
  have hk' : (S.calls.set k { c with stage := .coldDeletes [] count' })[k]? =
      some { c with stage := .coldDeletes [] count' } :=
    getElem?_set_self (List.getElem?_eq_some_iff.mp hk).1
  have hwriting : ∀ key,
      (Tiers.turn { S with cold := S.coldDeleteChunk (keys.take chunkSize) c.task } k c
        (.coldDeletes [] count')).writing key =
      (Tiers.writing { S with cold := S.coldDeleteChunk (keys.take chunkSize) c.task } key) := by
    intro key
    rw [Bool.eq_iff_iff]
    exact ⟨any_set hk (by simp [Stage.writes]), any_set_of_any hk (by simp [hc, Stage.writes])⟩
  have hreturned := hdeleted.returns hk' rfl count'
  refine (congrArg Sound ?_).mpr hreturned
  simp only [Tiers.returns, hwriting]
  simp [Tiers.turn, set_set]

/-! Calls that start. -/

theorem starts (c : Call D) (hputs : c.stage.puts = [])
    (hwrites : c.stage.writes = false)
    (hdeletes : ∀ rest count, c.stage = .coldDeletes rest count → ∀ key ∈ c.keys, key ∈ rest)
    (hgone : ∀ key ∈ c.afterDelete, S.gone key c.task = true ∧ key ∉ c.stage.found) :
    Sound { S with calls := S.calls ++ [c] } := by
  have hall : ∀ p : Call D → Prop, (∀ c' ∈ S.calls, p c') → p c → ∀ c' ∈ S.calls ++ [c], p c' := by
    intro p hold hnew c' hc'
    rcases mem_append.mp hc' with hmem | hmem
    · exact hold c' hmem
    · exact mem_singleton.mp hmem ▸ hnew
  constructor
  case coherent =>
    intro key
    refine (h.coherent key).imp_left ?_
    intro hpending
    simp only [Tiers.pending, any_append, Bool.or_eq_true]
    exact .inl hpending
  case writes => exact hall _ h.writes (by simp [hputs])
  case gone =>
    intro key task hgone
    obtain ⟨hwriting, hrow⟩ := h.gone key task hgone
    refine ⟨?_, hrow⟩
    simp only [Tiers.writing, any_append, Bool.or_eq_false_iff]
    exact ⟨hwriting, by simp [hwrites]⟩
  case deletes =>
    exact hall _ h.deletes
      (fun rest count hstage key hkey => .inl (hdeletes rest count hstage key hkey))
  case reads => exact hall _ h.reads hgone

theorem starts_put (entries : List (String × D))
    (task engineVersion : String) : Sound (S.puts entries task engineVersion) := by
  have hnew : ∀ stage : Stage D,
      stage = (if entries.isEmpty then .written else .coldWrite entries) →
      stage.toInsert = [] ∧ stage.found = [] ∧ (∀ key ∈ stage.puts, key ∈ entries.map Prod.fst) ∧
        ∀ rest count, stage ≠ .coldDeletes rest count := by
    split <;> simp [Stage.toInsert, Stage.found, Stage.puts]
  obtain ⟨htoInsert, hfound, hputs, hdeletes⟩ := hnew _ rfl
  have hall : ∀ p : Call D → Prop, (∀ c' ∈ S.calls, p (c'.forget (entries.map Prod.fst))) →
      p ⟨task, engineVersion, entries.map Prod.fst,
        if entries.isEmpty then .written else .coldWrite entries, []⟩ →
      ∀ c' ∈ (S.puts entries task engineVersion).calls, p c' := by
    intro p hold hput c' hc'
    rcases mem_append.mp hc' with hmem | hmem
    · obtain ⟨c'', hc'', rfl⟩ := mem_map.mp hmem
      exact hold c'' hc''
    · exact mem_singleton.mp hmem ▸ hput
  constructor
  case coherent =>
    intro key
    refine (h.coherent key).imp_left ?_
    intro hpending
    obtain ⟨c, hc, hkey⟩ := any_eq_true.mp hpending
    refine any_eq_true.mpr ⟨_, mem_append_left _ (mem_map_of_mem hc), hkey⟩
  case writes => exact hall _ h.writes hputs
  case gone =>
    intro key task' hgone
    simp only [Tiers.puts, Bool.and_eq_true, decide_eq_true_eq] at hgone
    obtain ⟨hwriting, hrow⟩ := h.gone key task' hgone.1
    refine ⟨?_, hrow⟩
    by_contra hnow
    rw [Bool.not_eq_false] at hnow
    obtain ⟨c, hc, hwrites⟩ := any_eq_true.mp hnow
    rcases mem_append.mp hc with hmem | hmem
    · obtain ⟨c', hc', rfl⟩ := mem_map.mp hmem
      have := any_eq_false.mp hwriting c' hc'
      exact this hwrites
    · obtain rfl := mem_singleton.mp hmem
      simp only [Bool.and_eq_true, decide_eq_true_eq] at hwrites
      exact hgone.2 hwrites.2
  case deletes =>
    exact hall _ h.deletes (fun rest count hstage => absurd hstage (hdeletes rest count))
  case reads =>
    apply hall
    · intro c hc key hkey
      obtain ⟨hold, hkept⟩ := mem_filter.mp hkey
      obtain ⟨hgone, hnone⟩ := h.reads c hc key hold
      exact ⟨by simp only [Tiers.puts, Bool.and_eq_true]; exact ⟨hgone, hkept⟩, hnone⟩
    · simp

theorem advances [DecidableEq D] {i : ℕ} {ok : Bool}
    (hk : S.calls[k]? = some c) (hkeeps : (Event.advances k ok i).keepsApart S = true)
    (hstep : S.advance k c ok i = some S') : Sound S' := by
  simp only [Event.keepsApart, hk] at hkeeps
  unfold Tiers.advance at hstep
  split at hstep
  case h_1 key rest results misses hc =>
    cases hstep
    exact h.hotReads hk hc
  case h_2 keys results fetched hc =>
    split at hstep <;> cases hstep
    · split
      · rename_i hrows
        exact h.coldReads hk hc hrows
      · exact h.ends hk (by simp [hc, Stage.toInsert])
    · exact h.ends hk (by simp [hc, Stage.toInsert])
  case h_3 rest results hc =>
    obtain ⟨e, he, rfl⟩ := Option.map_eq_some_iff.mp hstep
    simp only [hc, he, Option.all_some] at hkeeps
    exact h.promotes hk hc hkeeps
  case h_4 entries hc =>
    split at hstep <;> cases hstep
    · rename_i hok
      simp only [hc, hok, Bool.not_true, Bool.false_or, all_eq_true, Bool.not_eq_true'] at hkeeps
      exact h.coldWrite hk hc hkeeps
    · exact h.ends hk (by simp [hc, Stage.toInsert])
  case h_5 e rest hc =>
    cases hstep
    simp only [hc] at hkeeps
    exact h.hotWrites hk hc hkeeps
  case h_6 key rest hc =>
    cases hstep
    refine (h.invalidates key).turn hk _ rfl rfl rfl ?_ ?_ ?_ ?_ ?_
    · intro key'
      exact ((h.invalidates key).coherent key').imp_left
        (pending_turn (S := S.invalidate key) hk rfl (by simp [hc, Stage.toInsert]))
    all_goals
      unfold Stage.afterInvalidation
      split
      · simp [Stage.puts, Stage.writes, Stage.found]
      · split <;> simp +contextual [Stage.puts, Stage.writes, Stage.found, eq_comm]
  case h_7 keys count hc =>
    split at hstep
    swap
    · cases hstep
      exact h.ends hk (by simp [hc, Stage.toInsert])
    rename_i hok
    have hhot : ∀ key ∈ keys.take chunkSize, S.pending key = true ∨
        S.coldHas c.task key = false ∨ S.hot key = none := by
      intro key hkey
      simp only [hc, hok, Bool.not_true, Bool.false_or, all_eq_true] at hkeeps
      simpa [or_assoc] using hkeeps key hkey
    split at hstep <;> cases hstep
    · rename_i hlast
      exact h.deletesLast hk hc hlast hhot _
    · exact h.coldDeletes hk hc hhot _
  case h_8 => cases hstep

theorem step [DecidableEq D] {e : Event D}
    (hkeeps : e.keepsApart S = true) (hstep : S.step e = some S') : Sound S' := by
  -- a read starts with nothing found
  have hread : ∀ (keys : List String) (task engineVersion : String),
      Sound (S.reads keys task engineVersion) := by
    intro keys task engineVersion
    have hnew : ∀ stage : Stage D, stage = .afterHot keys [] [] →
        stage.puts = [] ∧ stage.writes = false ∧ stage.found = [] ∧
          ∀ rest count, stage ≠ .coldDeletes rest count := by
      unfold Stage.afterHot
      split <;> simp [Stage.puts, Stage.writes, Stage.found]
    obtain ⟨hputs, hwrites, hfound, hdeletes⟩ := hnew _ rfl
    refine h.starts ⟨task, engineVersion, keys, _, _⟩ hputs hwrites
      (fun rest count hstage => absurd hstage (hdeletes rest count)) ?_
    intro key hkey
    exact ⟨(mem_filter.mp hkey).2, by simp [hfound]⟩
  cases e with
  | get key task engineVersion => cases hstep; exact hread _ _ _
  | getBatch keys task engineVersion => cases hstep; exact hread _ _ _
  | put key task engineVersion data => cases hstep; exact h.starts_put _ _ _
  | putBatch entries task engineVersion => cases hstep; exact h.starts_put _ _ _
  | deleteBatch keys task =>
    cases hstep
    apply h.starts
    all_goals
      unfold Stage.afterInvalidation
      split
      · simp [Stage.puts, Stage.writes]
      · split <;> simp [Stage.puts, Stage.writes]
  | advances k ok i =>
    obtain ⟨c, hk, hadvance⟩ := Option.bind_eq_some_iff.mp hstep
    exact h.advances hk hkeeps hadvance
  | evicts key =>
    cases hstep
    exact h.invalidates key

end

theorem new (rows : String → Option (Entry String)) : Sound (Tiers.new rows : Tiers D) := by
  constructor <;> simp [Tiers.new, Tiers.CoherentAt]

end Sound

/-! What that gives. -/

/-- No read that was started for a key after a delete of it returned has found a value for
it. -/
def Tiers.NoneResurrected (S : Tiers D) : Prop :=
  ∀ c ∈ S.calls, ∀ results, c.stage = .read results →
    ∀ key ∈ c.afterDelete, key ∉ results.map Prod.fst

def Tiers.NoneShadowed (S : Tiers D) : Prop :=
  (∀ c ∈ S.calls, c.stage.ended = true) → ∀ key e, S.hot key = some e →
    S.coldGet key e.task e.engineVersion = some (some e.data)

theorem Sound.noneResurrected (h : Sound S) : S.NoneResurrected := by
  intro c hc results hstage key hkey
  have := (h.reads c hc key hkey).2
  simpa [hstage, Stage.found] using this

theorem Sound.noneShadowed (h : Sound S) : S.NoneShadowed := by
  intro hended key e he
  rcases h.coherent key with hpending | hcoherent
  · obtain ⟨c, hc, hkey⟩ := any_eq_true.mp hpending
    have := hended c hc
    cases hstage : c.stage <;> simp_all [Stage.ended, Stage.toInsert]
  · exact hcoherent e he

/-- Under these rules no read finds what was deleted before it started, and with no call under way a hot entry
  is the cold store's. -/
theorem tiers_agree_always [DecidableEq D] (rows : String → Option (Entry String))
    (events : List (Event D))
    (halong : Runs.Along Tiers.step (fun S e => e.keepsApart S = true) (Tiers.new rows) events) :
    Runs.Always Tiers.step (fun S => S.NoneResurrected ∧ S.NoneShadowed) (Tiers.new rows)
      events := by
  have hkept : Runs.Always Tiers.step Sound (Tiers.new rows) events :=
    Runs.always_of_along (fun S e S' h hkeeps hstep => h.step hkeeps hstep) (Sound.new rows) halong
  exact hkept.mono (fun S h => ⟨h.noneResurrected, h.noneShadowed⟩)

/-- The JSON booleans -/
instance : Json Bool where
  toText value := if value then "true" else "false"
  fromText text := if text = "true" then some true else if text = "false" then some false else none

/-- A value is put, dropped from the hot map, read back and deleted. -/
theorem tiers_agree_always_put_and_deleted :
    Runs.Always Tiers.step (fun S : Tiers Bool => S.NoneResurrected ∧ S.NoneShadowed)
      (Tiers.new (fun _ => none))
      [.put "k" "t" "v" true, .advances 0 true 0, .advances 0 true 0, .evicts "k",
        .get "k" "t" "v", .advances 1 true 0, .advances 1 true 0, .advances 1 true 0,
        .deleteBatch ["k"] "t", .advances 2 true 0, .advances 2 true 0, .get "k" "t" "v",
        .advances 3 true 0, .advances 3 true 0] :=
  tiers_agree_always _ _ (by decide +kernel)

/-- A read fetches a row, the row is deleted, and the read promotes it: the next read finds
it. -/
theorem deleted_value_found : ∃ S : Tiers Bool,
      Runs.run Tiers.step (Tiers.new (fun _ => some ⟨"t", "v", "true"⟩))
        [.get "k" "t" "v", .advances 0 true 0, .advances 0 true 0,
          .deleteBatch ["k"] "t", .advances 1 true 0, .advances 1 true 0, .advances 0 true 0,
          .get "k" "t" "v", .advances 2 true 0] = some S ∧
      ¬S.NoneResurrected ∧ ¬S.NoneShadowed := by
  refine ⟨_, rfl, ?_, ?_⟩
  · intro h
    exact h _ (mem_of_getElem? (i := 2) rfl) _ rfl "k" (by decide) (by decide)
  · intro h
    exact absurd (h (by decide) "k" _ rfl) (by decide)

end Batchalign.Cache
