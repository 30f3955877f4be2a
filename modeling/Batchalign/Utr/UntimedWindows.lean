import Batchalign.Lib.Coalesce
import Batchalign.Fa.MainBullets
import Batchalign.Fa.Windows

/- The windows of audio that cover untimed utterances (`find_untimed_windows`). A run is bounded by the
   nearest timed utterances, padded outward on either side on its own. -/
namespace Batchalign.Utr
open Fa List

/-! ## The model -/

inductive RunBoundary where
  | timedNeighbour (ms : ℕ)
  | fileEdge (ms : ℕ)

inductive Padding where
  | earlier (ms : ℕ)
  | later (ms : ℕ)

def RunBoundary.fromNeighbour (found : Option ℕ) (fileEdge : ℕ) : RunBoundary :=
  match found with
  | some ms => .timedNeighbour ms
  | none => .fileEdge fileEdge

def overshootOf (R : Recording) (at' : ℕ) : Option ℕ := if at' ≤ R.duration then none else some (at' - R.duration)

def RunBoundary.padded (boundary : RunBoundary) (by' : Padding) (R : Recording) : ℕ :=
  let start := match boundary with
    | .timedNeighbour ms => ms
    | .fileEdge ms => ms
  let moved := match by' with
    | .earlier ms => start - ms
    | .later ms => saturatingAdd start ms
  match overshootOf R moved with
  | none => moved
  | some _ => R.duration

def uttBullets (file : ChatFile) : List (Option TimeSpan) :=
  file.filterMap fun line => match line.utterance? with
    | none => none
    | some u => match RecordingPresence.of u with
      | .inRecording => some u.parsedBullet
      | .notInRecording _ => none

structure UntimedRun where
  before : List (Option TimeSpan)
  after : List (Option TimeSpan)

def runsFrom (before : List (Option TimeSpan)) (inRun : Bool) : List (Option TimeSpan) → List UntimedRun
  | [] => []
  | some bullet :: rest => runsFrom (before ++ [some bullet]) false rest
  | none :: rest =>
    (if inRun then [] else [⟨before, rest.dropWhile Option.isNone⟩]) ++ runsFrom (before ++ [none]) true rest

/-- The end of the nearest timed utterance before a run, the start of the nearest one after. -/
def UntimedRun.windowStart (run : UntimedRun) : RunBoundary :=
  .fromNeighbour (run.before.reverse.findSome? fun bullet => bullet.map TimeSpan.endMs) 0

def UntimedRun.windowEnd (run : UntimedRun) (R : Recording) : RunBoundary :=
  .fromNeighbour (run.after.findSome? fun bullet => bullet.map TimeSpan.startMs) R.duration

def rawWindow (R : Recording) (paddingMs : ℕ) (run : UntimedRun) : ℕ × ℕ :=
  (run.windowStart.padded (.earlier paddingMs) R, (run.windowEnd R).padded (.later paddingMs) R)

/-- The merged pairs as windows: an empty one is dropped, any other fault ends the search. -/
def provenWindows (R : Recording) : List (ℕ × ℕ) → Except WindowFault (List (FaWindow R))
  | [] => .ok []
  | (startMs, endMs) :: merged => match FaWindow.within R startMs endMs with
    | .ok window => (provenWindows R merged).map fun windows => window :: windows
    | .error (.empty _) => provenWindows R merged
    | .error fault => .error fault

def findUntimedWindows (file : ChatFile) (R : Recording) (paddingMs : ℕ) :
    Except WindowFault (List (FaWindow R)) :=
  let rawWindows := (runsFrom [] false (uttBullets file)).map (rawWindow R paddingMs)
  provenWindows R (Coalesce.coalesce (rawWindows.mergeSort fun a b => decide (a.1 ≤ b.1)))

/-! ## Runs -/

structure MaximalRun (bullets front run back : List (Option TimeSpan)) : Prop where
  whole : bullets = front ++ (run ++ back)
  nonempty : run ≠ []
  untimed : ∀ bullet ∈ run, bullet = none
  before : front.getLast? ≠ some none
  after : back.head? ≠ some none

theorem dropWhile_isNone {run back : List (Option TimeSpan)} (hrun : ∀ bullet ∈ run, bullet = none)
    (hback : back.head? ≠ some none) : (run ++ back).dropWhile Option.isNone = back := by
  induction run with
  | nil =>
    cases back with
    | nil => rfl
    | cons bullet back =>
      cases bullet with
      | none => exact absurd rfl hback
      | some bullet => rfl
  | cons bullet run ih =>
    rw [hrun bullet mem_cons_self]
    exact ih fun b hb => hrun b (mem_cons_of_mem _ hb)

theorem mem_runsFrom_of_maximal (front : List (Option TimeSpan)) : ∀ {before run back : List (Option TimeSpan)}
    {inRun : Bool}, MaximalRun (front ++ (run ++ back)) front run back → (front = [] → inRun = false) →
      (⟨before ++ front, back⟩ : UntimedRun) ∈ runsFrom before inRun (front ++ (run ++ back)) := by
  induction front with
  | nil =>
    intro before run back inRun h hin
    obtain ⟨bullet, run, rfl⟩ := exists_cons_of_ne_nil h.nonempty
    obtain rfl := h.untimed bullet mem_cons_self
    rw [append_nil, nil_append, cons_append, runsFrom, hin rfl,
      dropWhile_isNone (fun b hb => h.untimed b (mem_cons_of_mem _ hb)) h.after]
    exact mem_append_left _ (mem_singleton_self _)
  | cons bullet front ih =>
    intro before run back inRun h hin
    have hrest : MaximalRun (front ++ (run ++ back)) front run back := by
      refine ⟨rfl, h.nonempty, h.untimed, ?_, h.after⟩
      intro hlast
      apply h.before
      cases front with
      | nil => cases hlast
      | cons _ _ => rwa [getLast?_cons_cons]
    cases bullet with
    | some bullet =>
      rw [cons_append, runsFrom, append_cons before (some bullet) front]
      exact ih hrest fun _ => rfl
    | none =>
      rw [cons_append, runsFrom, append_cons before none front]
      apply mem_append_right
      apply ih hrest
      -- a run does not begin right after an untimed utterance
      rintro rfl
      exact absurd rfl h.before

/-! ## Edges -/

def gapStart (front : List (Option TimeSpan)) : ℕ :=
  (front.reverse.findSome? fun bullet => bullet.map TimeSpan.endMs).getD 0

def gapEnd (R : Recording) (back : List (Option TimeSpan)) : ℕ :=
  (back.findSome? fun bullet => bullet.map TimeSpan.startMs).getD R.duration

def paddedGap (R : Recording) (paddingMs : ℕ) (run : UntimedRun) : ℕ × ℕ :=
  (min (gapStart run.before - paddingMs) R.duration, min (gapEnd R run.after + paddingMs) R.duration)

theorem padded_eq (boundary : RunBoundary) (by' : Padding) (R : Recording) : boundary.padded by' R =
    min (match by' with
      | .earlier ms => (match boundary with | .timedNeighbour at' => at' | .fileEdge at' => at') - ms
      | .later ms => (match boundary with | .timedNeighbour at' => at' | .fileEdge at' => at') + ms) R.duration := by
  have hfits := R.fits
  have hcut : ∀ moved, (match overshootOf R moved with
      | none => moved
      | some _ => R.duration) = min moved R.duration := by
    intro moved
    unfold overshootOf
    split_ifs with hin
    · exact (Nat.min_eq_left hin).symm
    · exact (Nat.min_eq_right (Nat.le_of_not_le hin)).symm
  unfold RunBoundary.padded
  rw [hcut]
  cases by' with
  | earlier ms => rfl
  | later ms =>
    -- a saturated sum is past every recording
    show min (saturatingAdd _ ms) R.duration = min (_ + ms) R.duration
    unfold saturatingAdd
    omega

theorem rawWindow_eq (R : Recording) (paddingMs : ℕ) (run : UntimedRun) :
    rawWindow R paddingMs run = paddedGap R paddingMs run := by
  have hvalue : ∀ (found : Option ℕ) (edge : ℕ), (match RunBoundary.fromNeighbour found edge with
      | .timedNeighbour ms => ms
      | .fileEdge ms => ms) = found.getD edge := by
    intro found edge
    cases found <;> rfl
  unfold rawWindow paddedGap
  rw [padded_eq, padded_eq]
  apply Prod.ext
  · rw [show gapStart run.before = _ from (hvalue _ _).symm]
    rfl
  · rw [show gapEnd R run.after = _ from (hvalue _ _).symm]
    rfl

/-- The padded gaps in the order of their starts; those that start together in file order. -/
def paddedGaps (bullets : List (Option TimeSpan)) (R : Recording) (paddingMs : ℕ) : List (ℕ × ℕ) :=
  ((runsFrom [] false bullets).map (paddedGap R paddingMs)).mergeSort fun a b => decide (a.1 ≤ b.1)

theorem findUntimedWindows_eq (file : ChatFile) (R : Recording) (paddingMs : ℕ) :
    findUntimedWindows file R paddingMs =
      provenWindows R (Coalesce.coalesce (paddedGaps (uttBullets file) R paddingMs)) := by
  unfold findUntimedWindows paddedGaps
  rw [map_congr_left fun run _ => rawWindow_eq R paddingMs run]

theorem paddedGaps_sorted (bullets : List (Option TimeSpan)) (R : Recording) (paddingMs : ℕ) :
    (paddedGaps bullets R paddingMs).Pairwise fun a b => a.1 ≤ b.1 := by
  have hsorted : (paddedGaps bullets R paddingMs).Pairwise fun a b => decide (a.1 ≤ b.1) = true := by
    apply pairwise_mergeSort
    · intro a b c hab hbc
      exact decide_eq_true ((of_decide_eq_true hab).trans (of_decide_eq_true hbc))
    · intro a b
      rw [Bool.or_eq_true, decide_eq_true_iff, decide_eq_true_iff]
      exact le_total a.1 b.1
  exact hsorted.imp of_decide_eq_true

theorem mem_paddedGaps {bullets : List (Option TimeSpan)} {R : Recording} {paddingMs : ℕ} {x : ℕ × ℕ} :
    x ∈ paddedGaps bullets R paddingMs ↔ ∃ run ∈ runsFrom [] false bullets, paddedGap R paddingMs run = x := by
  unfold paddedGaps
  rw [mem_mergeSort, mem_map]

/-! ## Windows -/

section Windows
variable {R : Recording}

theorem provenWindows_ok {merged : List (ℕ × ℕ)} (h : ∀ x ∈ merged, x.1 ≤ x.2 ∧ x.2 ≤ R.duration) :
    ∃ windows, provenWindows R merged = .ok windows ∧
      windows.map (fun w => (w.startMs, w.endMs)) = merged.filter fun x => decide (x.1 < x.2) := by
  induction merged with
  | nil => exact ⟨[], rfl, rfl⟩
  | cons x merged ih =>
    obtain ⟨startMs, endMs⟩ := x
    obtain ⟨hup, hin⟩ := h _ mem_cons_self
    obtain ⟨windows, hok, hmap⟩ := ih fun x hx => h x (mem_cons_of_mem _ hx)
    rw [provenWindows]
    rcases Nat.lt_or_eq_of_le hup with hlt | heq
    · refine ⟨⟨startMs, endMs, hlt, hin⟩ :: windows, ?_, ?_⟩
      · unfold FaWindow.within
        rw [dif_pos hlt, dif_pos hin, hok]
        rfl
      · rw [map_cons, hmap, filter_cons_of_pos (by exact decide_eq_true hlt)]
    · refine ⟨windows, ?_, ?_⟩
      · unfold FaWindow.within
        rw [dif_neg (by omega), if_pos heq]
        exact hok
      · rw [hmap, filter_cons_of_neg (by rw [decide_eq_true_iff]; omega)]

theorem provenWindows_error {merged : List (ℕ × ℕ)} (h : ∃ x ∈ merged, x.2 < x.1) :
    ∃ fault, provenWindows R merged = .error fault := by
  induction merged with
  | nil =>
    obtain ⟨x, hx, _⟩ := h
    cases hx
  | cons y merged ih =>
    obtain ⟨startMs, endMs⟩ := y
    obtain ⟨x, hx, hinv⟩ := h
    rw [provenWindows]
    rcases mem_cons.mp hx with rfl | hx
    · unfold FaWindow.within
      rw [dif_neg (by omega), if_neg (by omega)]
      exact ⟨_, rfl⟩
    · obtain ⟨fault, hfault⟩ := ih ⟨x, hx, hinv⟩
      cases FaWindow.within R startMs endMs with
      | ok window => exact ⟨fault, by rw [hfault]; rfl⟩
      | error e =>
        cases e with
        | empty at' => exact ⟨fault, hfault⟩
        | inverted s e => exact ⟨_, rfl⟩
        | pastRecording e by' => exact ⟨_, rfl⟩

end Windows

/-- Every maximal run's gap is covered by a window of the recording; the windows stand apart. -/
def CoversUntimed (bullets : List (Option TimeSpan)) (R : Recording)
    (result : Except WindowFault (List (FaWindow R))) : Prop :=
  ∃ windows, result = .ok windows ∧ (∀ w ∈ windows, w.startMs < w.endMs ∧ w.endMs ≤ R.duration) ∧
    (windows.Pairwise fun a b => a.endMs < b.startMs) ∧
    ∀ front run back, MaximalRun bullets front run back → gapStart front < min (gapEnd R back) R.duration →
      ∃ w ∈ windows, w.startMs ≤ gapStart front ∧ min (gapEnd R back) R.duration ≤ w.endMs

def InvertedAbsorbed (gaps : List (ℕ × ℕ)) : Prop :=
  ∀ front x back, gaps = front ++ x :: back → x.2 < x.1 → ∃ v ∈ front, x.1 ≤ v.2

theorem invertedAbsorbed_iff (gaps : List (ℕ × ℕ)) : InvertedAbsorbed gaps ↔ ¬ Coalesce.Exposed gaps := by
  refine ⟨?_, ?_⟩
  · rintro h ⟨front, x, back, heq, hinv, hbelow⟩
    obtain ⟨v, hv, hreach⟩ := h front x back heq hinv
    exact absurd (hbelow v hv) (Nat.not_lt.mpr hreach)
  · intro h front x back heq hinv
    by_contra hnone
    exact h ⟨front, x, back, heq, hinv, fun v hv => Nat.lt_of_not_le fun hreach => hnone ⟨v, hv, hreach⟩⟩

/-- The untimed utterances of a file are covered exactly when no inverted gap is left over. -/
theorem findUntimedWindows_covers_iff (file : ChatFile) (R : Recording) (paddingMs : ℕ) :
    CoversUntimed (uttBullets file) R (findUntimedWindows file R paddingMs) ↔
      InvertedAbsorbed (paddedGaps (uttBullets file) R paddingMs) := by
  have hcoalesced := Coalesce.coalesced (paddedGaps_sorted (uttBullets file) R paddingMs)
  rw [invertedAbsorbed_iff, ← hcoalesced.exposed_iff, findUntimedWindows_eq]
  generalize hgaps : paddedGaps (uttBullets file) R paddingMs = gaps at hcoalesced ⊢
  refine ⟨?_, ?_⟩
  · rintro ⟨windows, hok, _⟩ ⟨g, hg, hinv⟩
    obtain ⟨fault, hfault⟩ := provenWindows_error (R := R) ⟨g, mem_reverse.mp hg, hinv⟩
    rw [hfault] at hok
    cases hok
  · intro hnone
    have hmerged : ∀ x ∈ Coalesce.coalesce gaps, x.1 ≤ x.2 ∧ x.2 ≤ R.duration := by
      intro x hx
      have hx' := mem_reverse.mpr hx
      refine ⟨Nat.le_of_not_lt fun hinv => hnone ⟨x, hx', hinv⟩, ?_⟩
      obtain ⟨y, hy, hstop⟩ := hcoalesced.stop x hx'
      rw [← hgaps] at hy
      obtain ⟨run, _, rfl⟩ := mem_paddedGaps.mp hy
      rw [← hstop]
      exact min_le_right _ _
    obtain ⟨windows, hok, hmap⟩ := provenWindows_ok hmerged
    refine ⟨windows, hok, fun w _ => ⟨w.positive, w.inside⟩, ?_, ?_⟩
    · have hapart := pairwise_reverse.mp hcoalesced.apart
      have hkept := hapart.filter fun x => decide (x.1 < x.2)
      rw [← hmap, pairwise_map] at hkept
      exact hkept
    · intro front run back hrun hgap
      have hmem : (⟨front, back⟩ : UntimedRun) ∈ runsFrom [] false (uttBullets file) := by
        have hwhole := hrun.whole
        rw [hwhole] at hrun ⊢
        exact mem_runsFrom_of_maximal front hrun fun _ => rfl
      have hin : paddedGap R paddingMs ⟨front, back⟩ ∈ gaps := hgaps ▸ mem_paddedGaps.mpr ⟨_, hmem, rfl⟩
      obtain ⟨g, hg, hcover⟩ := hcoalesced.covered _ hin
      -- the padded gap of a gap that is not empty is upright
      have hstart : (paddedGap R paddingMs ⟨front, back⟩).1 ≤ gapStart front :=
        (min_le_left _ _).trans (Nat.sub_le _ _)
      have hstop : min (gapEnd R back) R.duration ≤ (paddedGap R paddingMs ⟨front, back⟩).2 := by
        show min (gapEnd R back) R.duration ≤ min (gapEnd R back + paddingMs) R.duration
        omega
      obtain ⟨hlow, hhigh⟩ := hcover (hstart.trans (hgap.le.trans hstop))
      have hlt : g.1 < g.2 := by omega
      have hwindow : g ∈ windows.map fun w => (w.startMs, w.endMs) := by
        rw [hmap]
        exact mem_filter.mpr ⟨mem_reverse.mp hg, decide_eq_true hlt⟩
      obtain ⟨w, hw, rfl⟩ := mem_map.mp hwindow
      exact ⟨w, hw, hlow.trans hstart, hstop.trans hhigh⟩

def overlappedBackchannel : ChatFile :=
  let turn := fun (speaker : String) (bullet : Option TimeSpan) =>
    Line.utterance ⟨speaker, [], bullet.map BulletState.parsed, [], [], []⟩
  [turn "CHI" (some ⟨0, 10000⟩), turn "MOT" none, turn "CHI" (some ⟨2000, 3000⟩)]

theorem findUntimedWindows_fails_overlapped :
    findUntimedWindows overlappedBackchannel ⟨20000, by decide, by decide⟩ 500 = .error (.inverted 9500 2500) ∧
      ¬ CoversUntimed (uttBullets overlappedBackchannel) ⟨20000, by decide, by decide⟩
        (findUntimedWindows overlappedBackchannel ⟨20000, by decide, by decide⟩ 500) := by
  have hfails : findUntimedWindows overlappedBackchannel ⟨20000, by decide, by decide⟩ 500 =
      .error (.inverted 9500 2500) := by
    unfold findUntimedWindows
    rw [show (runsFrom [] false (uttBullets overlappedBackchannel)).map
      (rawWindow ⟨20000, by decide, by decide⟩ 500) = [(9500, 2500)] from by decide]
    dsimp only
    rw [mergeSort_singleton]
    rfl
  refine ⟨hfails, ?_⟩
  rintro ⟨windows, hok, _⟩
  rw [hfails] at hok
  cases hok

end Batchalign.Utr
