import Batchalign.Fa.Utterance

/- CHAT files as lists of lines, and which main bullets a run keeps
   (`fa/mod.rs`, `fa/main_bullets.rs`). -/
namespace Batchalign.Fa
open List

inductive Line where
  | header (text : String)
  | utterance (utterance : Utterance)

def Line.utterance? : Line → Option Utterance
  | .header _ => none
  | .utterance u => some u

def Line.mapUtterance (f : Utterance → Utterance) : Line → Line
  | .header text => .header text
  | .utterance u => .utterance (f u)

abbrev ChatFile := List Line

def getUtterance (file : ChatFile) (lineIdx : ℕ) : Option Utterance := (file[lineIdx]?).bind Line.utterance?

def modifyUtterance (file : ChatFile) (lineIdx : ℕ) (f : Utterance → Utterance) : ChatFile :=
  file.modify lineIdx (Line.mapUtterance f)

/-- The walk of `utterances_indexed` from a given line and utterance count. -/
def utterancesFrom : ℕ → ℕ → ChatFile → List (ℕ × ℕ × Utterance)
  | _, _, [] => []
  | lineIdx, ordinal, .header _ :: lines => utterancesFrom (lineIdx + 1) ordinal lines
  | lineIdx, ordinal, .utterance u :: lines =>
    (lineIdx, ordinal, u) :: utterancesFrom (lineIdx + 1) (ordinal + 1) lines

/-- Every utterance with its line index and its ordinal. -/
def utterancesIndexed (file : ChatFile) : List (ℕ × ℕ × Utterance) := utterancesFrom 0 0 file

def utteranceOrdinal (file : ChatFile) (lineIdx : ℕ) : ℕ :=
  ((file.take lineIdx).filterMap Line.utterance?).length

def bulletAt (file : ChatFile) (lineIdx : ℕ) : Option TimeSpan :=
  (getUtterance file lineIdx).bind Utterance.parsedBullet

variable (file : ChatFile)

theorem getUtterance_modifyUtterance (i j : ℕ) (f : Utterance → Utterance) :
    getUtterance (modifyUtterance file i f) j =
      if i = j then (getUtterance file j).map f else getUtterance file j := by
  simp only [getUtterance, modifyUtterance, getElem?_modify]
  by_cases hij : i = j
  · cases file[j]? with
    | none => simp
    | some line => cases line <;> simp [hij, Line.mapUtterance, Line.utterance?]
  · cases file[j]? <;> simp [hij]

@[simp] theorem getUtterance_modifyUtterance_self (i : ℕ) (f : Utterance → Utterance) :
    getUtterance (modifyUtterance file i f) i = (getUtterance file i).map f := by
  rw [getUtterance_modifyUtterance, if_pos rfl]

theorem getUtterance_modifyUtterance_ne {file : ChatFile} {i j : ℕ} {f : Utterance → Utterance}
    (h : i ≠ j) : getUtterance (modifyUtterance file i f) j = getUtterance file j := by
  rw [getUtterance_modifyUtterance, if_neg h]

@[simp] theorem ordinal_modifyUtterance (i j : ℕ) (f : Utterance → Utterance) :
    utteranceOrdinal (modifyUtterance file i f) j = utteranceOrdinal file j := by
  have hlen : ∀ (lines : ChatFile) (k : ℕ),
      ((lines.modify k (Line.mapUtterance f)).filterMap Line.utterance?).length =
        (lines.filterMap Line.utterance?).length := by
    intro lines
    induction lines with
    | nil => intro k; cases k <;> rfl
    | cons line lines ih =>
      intro k
      cases k with
      | zero => cases line <;> rfl
      | succ k =>
        cases line with
        | header text => exact ih k
        | utterance u => exact congrArg Nat.succ (ih k)
  rw [utteranceOrdinal, utteranceOrdinal, modifyUtterance]
  by_cases hij : i < j
  · rw [take_modify, hlen]
  · rw [take_modify, hlen]

/-! ## The walk over utterances -/

variable (lines : ChatFile)

theorem mem_utterancesFrom : ∀ (l o i k : ℕ) (u : Utterance), (i, k, u) ∈ utterancesFrom l o lines ↔
      ∃ j, i = l + j ∧ getUtterance lines j = some u ∧ k = o + utteranceOrdinal lines j := by
  induction lines with
  | nil => simp [utterancesFrom, getUtterance]
  | cons line lines ih =>
    intro l o i k u
    cases line with
    | header text =>
      rw [utterancesFrom, ih]
      constructor
      · rintro ⟨j, hi, hu, hk⟩
        exact ⟨j + 1, by omega, hu, hk⟩
      · rintro ⟨j, hi, hu, hk⟩
        cases j with
        | zero => simp [getUtterance, Line.utterance?] at hu
        | succ j => exact ⟨j, by omega, hu, hk⟩
    | utterance v =>
      rw [utterancesFrom, mem_cons, ih]
      have hord : ∀ j, utteranceOrdinal (.utterance v :: lines) (j + 1) =
          utteranceOrdinal lines j + 1 := by
        simp [utteranceOrdinal, Line.utterance?]
      constructor
      · rintro (h | ⟨j, hi, hu, hk⟩)
        · obtain ⟨rfl, rfl, rfl⟩ := h
          exact ⟨0, rfl, rfl, rfl⟩
        · exact ⟨j + 1, by omega, hu, by rw [hord]; omega⟩
      · rintro ⟨j, hi, hu, hk⟩
        cases j with
        | zero =>
          obtain rfl : v = u := Option.some.inj hu
          simp [utteranceOrdinal] at hk
          simp [hi, hk]
        | succ j =>
          right
          rw [hord] at hk
          exact ⟨j, by omega, hu, by omega⟩

theorem mem_utterancesIndexed {file : ChatFile} {i k : ℕ} {u : Utterance} :
    (i, k, u) ∈ utterancesIndexed file ↔ getUtterance file i = some u ∧ k = utteranceOrdinal file i := by
  rw [utterancesIndexed, mem_utterancesFrom]
  constructor
  · rintro ⟨j, hi, hu, hk⟩
    obtain rfl : i = j := by omega
    exact ⟨hu, by omega⟩
  · rintro ⟨hu, hk⟩
    exact ⟨i, by omega, hu, by omega⟩

theorem utterancesFrom_sorted : ∀ l o, (utterancesFrom l o lines).Pairwise (fun a b => a.1 < b.1) ∧
      ∀ x ∈ utterancesFrom l o lines, l ≤ x.1 := by
  induction lines with
  | nil => simp [utterancesFrom]
  | cons line lines ih =>
    intro l o
    cases line with
    | header text =>
      obtain ⟨hsorted, hle⟩ := ih (l + 1) o
      exact ⟨hsorted, fun x hx => by have := hle x hx; omega⟩
    | utterance u =>
      obtain ⟨hsorted, hle⟩ := ih (l + 1) (o + 1)
      refine ⟨pairwise_cons.mpr ⟨?_, hsorted⟩, ?_⟩
      · intro x hx
        have := hle x hx
        omega
      · intro x hx
        rcases mem_cons.mp hx with rfl | hx
        · exact le_refl _
        · have := hle x hx
          omega

theorem utterancesIndexed_sorted : (utterancesIndexed file).Pairwise fun a b => a.1 < b.1 :=
  (utterancesFrom_sorted file 0 0).1

theorem utterancesFrom_ordinals_sorted :
    ∀ l o, (utterancesFrom l o lines).Pairwise (fun a b => a.2.1 < b.2.1) ∧
      ∀ x ∈ utterancesFrom l o lines, o ≤ x.2.1 := by
  induction lines with
  | nil => simp [utterancesFrom]
  | cons line lines ih =>
    intro l o
    cases line with
    | header text => exact ih (l + 1) o
    | utterance u =>
      obtain ⟨hsorted, hle⟩ := ih (l + 1) (o + 1)
      refine ⟨pairwise_cons.mpr ⟨hle, hsorted⟩, ?_⟩
      intro x hx
      obtain rfl | hx := mem_cons.mp hx
      · exact le_refl _
      · exact le_trans (Nat.le_succ o) (hle x hx)

/-! ## Kept bullets -/

/-- A given bullet the run keeps: a positive extent, or empty. -/
inductive KeptBullet where
  | extent (startMs endMs : ℕ) (positive : startMs < endMs)
  | empty (atMs : ℕ)
  deriving DecidableEq

def KeptBullet.startMs : KeptBullet → ℕ
  | .extent startMs _ _ => startMs
  | .empty atMs => atMs

def KeptBullet.endMs : KeptBullet → ℕ
  | .extent _ endMs _ => endMs
  | .empty atMs => atMs

def KeptBullet.toBullet (kept : KeptBullet) : TimeSpan := ⟨kept.startMs, kept.endMs⟩

def KeptBullet.isLive (kept : KeptBullet) (live : Option TimeSpan) : Bool :=
  match live with
  | some bullet => bullet.startMs == kept.startMs && bullet.endMs == kept.endMs
  | none => false

theorem KeptBullet.isLive_iff {kept : KeptBullet} {live : Option TimeSpan} :
    kept.isLive live = true ↔ live = some kept.toBullet := by
  cases live with
  | none => simp [isLive]
  | some bullet =>
    cases bullet
    simp [isLive, toBullet]

inductive Given where
  | unbulleted
  | kept (bullet : KeptBullet)
  | offRecord (bullet : Option KeptBullet)

inductive AbsencePolicy where
  | derive
  | keep

/-- `Given` read through the document's absence policy. -/
inductive GivenSlot where
  | unbulleted
  | keptAbsent
  | kept (bullet : KeptBullet)
  | offRecord (bullet : Option KeptBullet)

structure GivenMainBullets where
  byUtterance : List Given
  absence : AbsencePolicy

inductive KeptBulletError where
  | unparsedWorking (utteranceIdx : ℕ) (sourceText : String)
  | utteranceOutsideInput (utteranceIdx inputUtterances : ℕ)
  | utteranceMissing (inputUtterances workingUtterances : ℕ)
  | drifted (utteranceIdx givenStartMs givenEndMs : ℕ) (live : String)
  | offRecordBullet (utteranceIdx startMs endMs : ℕ)
  | gainedBullet (utteranceIdx startMs endMs : ℕ)

def GivenMainBullets.slot (given : GivenMainBullets) (utteranceIdx : ℕ) :
    Except KeptBulletError GivenSlot :=
  match given.byUtterance[utteranceIdx]? with
  | none => .error (.utteranceOutsideInput utteranceIdx given.byUtterance.length)
  | some (.kept kept) => .ok (.kept kept)
  | some (.offRecord kept) => .ok (.offRecord kept)
  | some .unbulleted => match given.absence with
    | .derive => .ok .unbulleted
    | .keep => .ok .keptAbsent

inductive MainBulletAuthority where
  | deriveFromWords
  | keep (given : GivenMainBullets)

def MainBulletAuthority.slot (authority : MainBulletAuthority) (utteranceIdx : ℕ) :
    Except KeptBulletError (Option GivenSlot) :=
  match authority with
  | .deriveFromWords => .ok none
  | .keep given => match given.slot utteranceIdx with
    | .error e => .error e
    | .ok slot => .ok (some slot)

inductive BulletMutability where
  | readOnly (kept : KeptBullet)
  | revisable
  deriving DecidableEq

def KeptBulletError.ofDrifted (utteranceIdx : ℕ) (kept : KeptBullet) (live : Option TimeSpan) :
    KeptBulletError :=
  .drifted utteranceIdx kept.startMs kept.endMs (match live with
    | some bullet => toString bullet.startMs ++ "_" ++ toString bullet.endMs
    | none => "no bullet")

/-- A kept bullet that is no longer the given one is an error. -/
def MainBulletAuthority.mutability (authority : MainBulletAuthority) (utteranceIdx : ℕ)
    (live : TimeSpan) : Except KeptBulletError BulletMutability :=
  match authority.slot utteranceIdx with
  | .error e => .error e
  | .ok none => .ok .revisable
  | .ok (some .unbulleted) => .ok .revisable
  | .ok (some .keptAbsent) => .error (.gainedBullet utteranceIdx live.startMs live.endMs)
  | .ok (some (.offRecord _)) => .error (.offRecordBullet utteranceIdx live.startMs live.endMs)
  | .ok (some (.kept kept)) =>
    if kept.isLive (some live) then .ok (.readOnly kept)
    else .error (.ofDrifted utteranceIdx kept (some live))

/-- A phase collects one value for each parsed bullet; the first one the authority does not accept ends it. -/
def collectBulleted {α : Type} (authority : MainBulletAuthority)
    (make : ℕ → ℕ → Utterance → TimeSpan → BulletMutability → α) :
    List (ℕ × ℕ × Utterance) → Except KeptBulletError (List α)
  | [] => .ok []
  | (lineIdx, utteranceIdx, u) :: rest =>
    match u.parsedBullet with
    | none => collectBulleted authority make rest
    | some bullet =>
      match authority.mutability utteranceIdx bullet with
      | .error e => .error e
      | .ok mutability =>
        match collectBulleted authority make rest with
        | .error e => .error e
        | .ok collected => .ok (make lineIdx utteranceIdx u bullet mutability :: collected)

def MainBulletAuthority.keptBullet (authority : MainBulletAuthority) (utteranceIdx : ℕ) :
    Option KeptBullet :=
  match authority.slot utteranceIdx with
  | .ok (some (.kept kept)) => some kept
  | _ => none

def MainBulletAuthority.standing (authority : MainBulletAuthority) (utteranceIdx : ℕ) :
    BulletMutability :=
  match authority.keptBullet utteranceIdx with
  | some kept => .readOnly kept
  | none => .revisable

variable {authority : MainBulletAuthority} {idx : ℕ}

theorem MainBulletAuthority.standing_readOnly
    {kept : KeptBullet} (h : authority.standing idx = .readOnly kept) :
    authority.keptBullet idx = some kept := by
  unfold standing at h
  cases hk : authority.keptBullet idx <;> simp_all

theorem MainBulletAuthority.standing_revisable
    (h : authority.standing idx = .revisable) : authority.keptBullet idx = none := by
  unfold standing at h
  cases hk : authority.keptBullet idx <;> simp_all

theorem mutability_ok {live : TimeSpan}
    {m : BulletMutability} (h : authority.mutability idx live = .ok m) : m = authority.standing idx ∧
      (∀ kept, authority.keptBullet idx = some kept → live = kept.toBullet) ∧
      (authority.keptBullet idx = none → ∀ live', authority.mutability idx live' = .ok m) := by
  unfold MainBulletAuthority.mutability at h ⊢
  unfold MainBulletAuthority.standing MainBulletAuthority.keptBullet
  cases hslot : authority.slot idx with
  | error e => simp [hslot] at h
  | ok slot =>
    rcases slot with _ | (_ | _ | k | _) <;> simp only [hslot] at h ⊢
    case some.kept =>
      split_ifs at h with hlive
      · cases h
        refine ⟨rfl, ?_, by simp⟩
        intro kept hkept
        cases hkept
        exact Option.some.inj (KeptBullet.isLive_iff.mp hlive)
    all_goals simp at h
    all_goals subst h; simp

section Collect
variable {α : Type}
  {make : ℕ → ℕ → Utterance → TimeSpan → BulletMutability → α} {entries : List (ℕ × ℕ × Utterance)}

theorem collectBulleted_ok (h : ∀ i k u b, (i, k, u) ∈ entries → u.parsedBullet = some b →
      authority.mutability k b = .ok (authority.standing k)) :
    collectBulleted authority make entries = .ok (entries.filterMap fun (i, k, u) =>
      u.parsedBullet.map fun b => make i k u b (authority.standing k)) := by
  induction entries with
  | nil => rfl
  | cons entry entries ih =>
    obtain ⟨i, k, u⟩ := entry
    have hrest := ih (fun i k u b hmem hb => h i k u b (mem_cons_of_mem _ hmem) hb)
    rw [collectBulleted]
    cases hb : u.parsedBullet with
    | none => simpa [filterMap_cons, hb] using hrest
    | some b =>
      have hmut := h i k u b (by simp) hb
      simp [hmut, hrest, hb]

theorem collectBulleted_error {i k : ℕ} {u : Utterance} {b : TimeSpan} (hmem : (i, k, u) ∈ entries)
    (hb : u.parsedBullet = some b) (hbad : ∀ m, authority.mutability k b ≠ .ok m) :
    ∃ e, collectBulleted authority make entries = .error e := by
  induction entries with
  | nil => simp at hmem
  | cons entry entries ih =>
    obtain ⟨i', k', u'⟩ := entry
    rw [collectBulleted]
    rcases mem_cons.mp hmem with heq | hmem
    · obtain ⟨rfl, rfl, rfl⟩ : i = i' ∧ k = k' ∧ u = u' := by simpa using heq
      cases hm : authority.mutability k b with
      | error e => exact ⟨e, by simp only [hb, hm]⟩
      | ok m => exact absurd hm (hbad m)
    · obtain ⟨e, he⟩ := ih hmem
      cases hb' : u'.parsedBullet with
      | none => exact ⟨e, by simp only [he]⟩
      | some b' =>
        cases hm : authority.mutability k' b' with
        | error e' => exact ⟨e', by simp only [hm]⟩
        | ok m => exact ⟨e, by simp only [hm, he]⟩

end Collect

end Batchalign.Fa
