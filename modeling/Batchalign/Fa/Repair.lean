import Batchalign.Fa.Monotonicity

/- Bullet repair after alignment (`fa/repair.rs`): small same-speaker gaps are filled, small overlaps
   averaged, and revisable lines outside the longest increasing run of their speaker's starts lose their
   timing. Kept bullets are never written to. -/
namespace Batchalign.Fa

/-- `E704_TOLERANCE_MS`, which is also the averaging threshold. -/
def boundaryAveragingThresholdMs : ℕ := 500

def gapFillMaxMs : ℕ := 1000

inductive BulletRepairPolicy where
  | disabled
  | enabled

structure RepairStats where
  boundaryAveraged : ℕ
  gapsFilled : ℕ
  timingStripped : ℕ
  totalBulleted : ℕ

def RepairStats.default : RepairStats := ⟨0, 0, 0, 0⟩

structure RepairDecision where
  lineIdx : ℕ
  speaker : String
  strategy : FaStrategy
  reason : String
  wordsDropped : List DroppedWordTiming
  needsReview : Bool

/-- `From<&RepairDecision> for DecisionRecord`. -/
def RepairDecision.record (d : RepairDecision) : DecisionRecord :=
  ⟨d.lineIdx, d.speaker, .fa d.strategy, d.reason, d.needsReview⟩

structure BulletEntry where
  lineIdx : ℕ
  speaker : String
  startMs : ℕ
  endMs : ℕ
  mutability : BulletMutability
  deriving DecidableEq

def bulletEntry (lineIdx : ℕ) (_utteranceIdx : ℕ) (u : Utterance) (bullet : TimeSpan)
    (mutability : BulletMutability) : BulletEntry :=
  ⟨lineIdx, u.speaker, bullet.startMs, bullet.endMs, mutability⟩

def collectBulletEntries (authority : MainBulletAuthority) (file : ChatFile) :
    Except KeptBulletError (List BulletEntry) :=
  collectBulleted authority bulletEntry (utterancesIndexed file)

/-! ## Gap filling -/

def gapFill (lastEnd : String → Option ℕ) (entry : BulletEntry) : Option (ℕ × ℕ) :=
  match entry.mutability with
  | .readOnly _ => none
  | .revisable => match lastEnd entry.speaker with
    | none => none
    | some prevEnd =>
      if prevEnd < entry.startMs ∧ entry.startMs - prevEnd ≤ gapFillMaxMs then
        some (entry.lineIdx, prevEnd)
      else none

/-- The loop of `find_gap_fills`; the map holds where each speaker last ended. -/
def gapFillsFrom (lastEnd : String → Option ℕ) : List BulletEntry → List (ℕ × ℕ)
  | [] => []
  | entry :: rest => (gapFill lastEnd entry).toList ++
      gapFillsFrom (Function.update lastEnd entry.speaker (some entry.endMs)) rest

/-- The lines to move and their new starts. -/
def findGapFills (entries : List BulletEntry) : List (ℕ × ℕ) := gapFillsFrom (fun _ => none) entries

def applyGapFills (file : ChatFile) (fills : List (ℕ × ℕ)) : ChatFile :=
  fills.foldl (fun file (lineIdx, newStartMs) =>
    modifyUtterance file lineIdx fun u => u.setStart newStartMs) file

def gapFillDecision (entries : List BulletEntry) (fill : ℕ × ℕ) : Option RepairDecision :=
  (entries.find? fun entry => entry.lineIdx == fill.1).map fun entry =>
    ⟨fill.1, entry.speaker, .gapFilled,
      "gap_filled gap=" ++ toString (entry.startMs - fill.2) ++ "ms same_speaker machine=" ++
        toString entry.startMs ++ "_" ++ toString entry.endMs ++ " snapped_start=" ++ toString fill.2,
      [], true⟩

/-! ## Boundary averaging -/

/-- The file under repair, and the decisions so far. -/
structure RepairState where
  file : ChatFile
  decisions : List RepairDecision
  resolved : ℕ

def averagedEdges (resolution : EndOverlapResolution) (laterStartMs overlapMs : ℕ) : ℕ × ℕ :=
  match resolution with
  | .interleavedWords => (laterStartMs, laterStartMs)
  | .boundaryFromWords prevHullEndMs nextHullStartMs => (prevHullEndMs, nextHullStartMs)
  | .coverageOnly (some hullEndMs) => (hullEndMs, laterStartMs)
  | .coverageOnly none => (laterStartMs + overlapMs / 2, laterStartMs + overlapMs / 2)

def averageReason (resolution : EndOverlapResolution) (earlier : BulletEntry) (laterBullet : TimeSpan)
    (overlapMs : ℕ) (edges : ℕ × ℕ) (wordsClamped : ClampedWordCounts) : String :=
  match resolution with
  | .interleavedWords =>
    "boundary_averaged overlap=" ++ toString overlapMs ++
      "ms resolution=interleaved_words clamped_to=" ++ toString edges.1 ++ " machine=" ++
      toString laterBullet.startMs ++ "_" ++ toString laterBullet.endMs ++ " adjacent=" ++
      earlier.speaker ++ ":" ++ toString earlier.lineIdx ++ " words_trimmed=" ++
      toString wordsClamped.trimmed.length ++ " words_dropped=" ++ toString wordsClamped.dropped.length
  | _ =>
    "boundary_averaged overlap=" ++ toString overlapMs ++
      "ms resolution=hull_respecting earlier_new_end=" ++ toString edges.1 ++ " later_new_start=" ++
      toString edges.2 ++ " machine=" ++ toString laterBullet.startMs ++ "_" ++
      toString laterBullet.endMs ++ " adjacent=" ++ earlier.speaker ++ ":" ++ toString earlier.lineIdx

section Strategies
variable (W : ContentWalker)

/-- How a pair is averaged; `none`: a kept side, no overlap, or one beyond the threshold. -/
def averageResolution (file : ChatFile) (earlier later : BulletEntry) :
    Option (EndOverlapResolution × Utterance × Utterance × TimeSpan × TimeSpan) :=
  match earlier.mutability, later.mutability with
  | .revisable, .revisable =>
    match getUtterance file earlier.lineIdx, getUtterance file later.lineIdx with
    | some earlierUtt, some laterUtt =>
      match earlierUtt.parsedBullet, laterUtt.parsedBullet with
      | some earlierBullet, some laterBullet =>
        if earlierBullet.endMs ≤ laterBullet.startMs then none
        else if boundaryAveragingThresholdMs < earlierBullet.endMs - laterBullet.startMs then none
        else some (classifyEndOverlap (furthestWordTimingEnd W earlierUtt) laterBullet.startMs
          (earliestWordTimingStart W laterUtt) (fileOrderSuccessorStartMs file later.lineIdx),
          earlierUtt, laterUtt, earlierBullet, laterBullet)
      | _, _ => none
    | _, _ => none
  | _, _ => none

/-- `resolve_boundary_average_pair`, applied at once to the live file. -/
def resolveBoundaryAveragePair (s : RepairState) (earlier later : BulletEntry) : RepairState :=
  match averageResolution W s.file earlier later with
  | none => s
  | some (resolution, earlierUtt, _, earlierBullet, laterBullet) =>
    let overlapMs := earlierBullet.endMs - laterBullet.startMs
    let edges := averagedEdges resolution laterBullet.startMs overlapMs
    let cut := clampWordsPastBound W (earlierUtt.setEnd edges.1) edges.1
    let (file, wordsClamped) := match resolution with
      | .interleavedWords =>
        (modifyUtterance s.file earlier.lineIdx fun _ => cut.1, cut.2)
      | _ =>
        (modifyUtterance (modifyUtterance s.file earlier.lineIdx fun u => u.setEnd edges.1)
          later.lineIdx fun u => u.setStart edges.2, ClampedWordCounts.default)
    { file := file
      decisions := s.decisions ++ [⟨later.lineIdx, later.speaker, .boundaryAveraged,
        averageReason resolution earlier laterBullet overlapMs edges wordsClamped,
        wordsClamped.dropped, resolution.needsReview⟩]
      resolved := s.resolved + 1 }

def averageAt (s : RepairState) (pair : BulletEntry × BulletEntry) :
    Except KeptBulletError RepairState := .ok (resolveBoundaryAveragePair W s pair.1 pair.2)

def streamWindows (entries : List BulletEntry) : List (BulletEntry × BulletEntry) :=
  (speakerOrder (entries.map BulletEntry.speaker)).flatMap fun speaker =>
    windows (entries.filter fun entry => entry.speaker == speaker)

def adjacentWindows (policy : EndOverlapPolicy) (entries : List BulletEntry) :
    List (BulletEntry × BulletEntry) :=
  (windows entries).filter fun (earlier, later) => policy.shouldClamp earlier.speaker later.speaker

def resolveBoundaryAveragesSameSpeakerStream (authority : MainBulletAuthority) (s : RepairState) :
    Except KeptBulletError RepairState :=
  match collectBulletEntries authority s.file with
  | .error e => .error e
  | .ok entries => Sweep.run (averageAt W) s (streamWindows entries)

/-- Each speaker's own stream, then the file-adjacent pairs. -/
def resolveBoundaryAverages (authority : MainBulletAuthority) (policy : EndOverlapPolicy)
    (s : RepairState) : Except KeptBulletError RepairState :=
  match resolveBoundaryAveragesSameSpeakerStream W authority s with
  | .error e => .error e
  | .ok s' => match collectBulletEntries authority s'.file with
    | .error e => .error e
    | .ok identity => Sweep.run (averageAt W) s' (adjacentWindows policy identity)

/-! ## Selective timing removal -/

/-- `tails` at `k` ends the best run of length `k + 1`, `prev` is the index before in its run. -/
structure Patience where
  tails : List ℕ
  prev : List (Option ℕ)

/-- The piles whose tail value does not exceed index `i`'s (`partition_point`). -/
def pileOf (values : List ℕ) (tails : List ℕ) (value : ℕ) : ℕ :=
  (tails.takeWhile fun t => decide (values.getD t 0 ≤ value)).length

def patienceStep (values : List ℕ) (p : Patience) (i : ℕ) : Patience :=
  let pos := pileOf values p.tails (values.getD i 0)
  let tails := if pos = p.tails.length then p.tails ++ [i] else p.tails.set pos i
  -- the predecessor is read after the write, at the position before it
  { tails := tails, prev := p.prev ++ [if 0 < pos then tails[pos - 1]? else none] }

/-- Follow the predecessors from an index; each is smaller, so `fuel` bounds the walk. -/
def predecessors (prev : List (Option ℕ)) : ℕ → ℕ → List ℕ
  | 0, idx => [idx]
  | fuel + 1, idx => match prev.getD idx none with
    | none => [idx]
    | some p => predecessors prev fuel p ++ [idx]

/-- `longest_increasing_subsequence` (not strictly increasing): indices into `values`. -/
def longestIncreasingSubsequence (values : List ℕ) : List ℕ :=
  let p := (List.range values.length).foldl (patienceStep values) ⟨[], []⟩
  match p.tails.getLast? with
  | none => []
  | some last => predecessors p.prev values.length last

def withinAnchors (lowerAnchorMs upperAnchorMs : Option ℕ) (startMs : ℕ) : Bool :=
  lowerAnchorMs.all (fun lower => decide (lower ≤ startMs)) &&
    upperAnchorMs.all (fun upper => decide (startMs ≤ upper))

/-- The lines of one segment to strip. -/
def removeOutsideLis (segment : List BulletEntry) (lowerAnchorMs upperAnchorMs : Option ℕ) : List ℕ :=
  let inside := segment.filter fun entry => withinAnchors lowerAnchorMs upperAnchorMs entry.startMs
  let outside := segment.filter fun entry => !withinAnchors lowerAnchorMs upperAnchorMs entry.startMs
  let lis := longestIncreasingSubsequence (inside.map BulletEntry.startMs)
  outside.map BulletEntry.lineIdx ++ if inside.length ≤ 1 then []
    else (inside.zipIdx.filter fun (_, pos) => !decide (pos ∈ lis)).map fun (entry, _) => entry.lineIdx

def speakerRemovals (lowerAnchorMs : Option ℕ) (segment : List BulletEntry) :
    List BulletEntry → List ℕ
  | [] => removeOutsideLis segment lowerAnchorMs none
  | entry :: rest => match entry.mutability with
    | .revisable => speakerRemovals lowerAnchorMs (segment ++ [entry]) rest
    | .readOnly _ => removeOutsideLis segment lowerAnchorMs (some entry.startMs) ++
        speakerRemovals (some entry.startMs) [] rest

structure HashOrder where
  values : List String → List String
  perm : ∀ keys, (values keys).Perm keys

/-- Speakers come in the order of a hash map. -/
def findLisRemovals (order : HashOrder) (entries : List BulletEntry) : List ℕ :=
  (order.values (speakerOrder (entries.map BulletEntry.speaker))).flatMap fun speaker =>
    speakerRemovals none [] (entries.filter fun entry => entry.speaker == speaker)

def lisDecision (entries : List BulletEntry) (lineIdx : ℕ) : Option RepairDecision :=
  (entries.find? fun entry => entry.lineIdx == lineIdx).map fun entry =>
    ⟨lineIdx, entry.speaker, .lisRemoval,
      "lis_removal same_speaker_non_monotonic machine=" ++ toString entry.startMs ++ "_" ++
        toString entry.endMs, [], true⟩

def applyRemovals (file : ChatFile) (removals : List ℕ) : ChatFile :=
  removals.foldl (fun file lineIdx =>
    modifyUtterance file lineIdx fun u => (stripUtteranceTiming W u).1) file

/-! ## The repair -/

structure RepairResult where
  stats : RepairStats
  decisions : List RepairDecision

/-- `repair_bullets_under`, on a file that is to be changed. -/
def repairBulletsUnder (order : HashOrder) (authority : MainBulletAuthority) (policy : EndOverlapPolicy)
    (file : ChatFile) : Except KeptBulletError (ChatFile × RepairResult) :=
  match collectBulletEntries authority file with
  | .error e => .error e
  | .ok entries =>
    if entries.isEmpty then .ok (file, ⟨.default, []⟩)
    else
      let fills := findGapFills entries
      let filled := applyGapFills file fills
      match resolveBoundaryAverages W authority policy ⟨filled, [], 0⟩ with
      | .error e => .error e
      | .ok s => match collectBulletEntries authority s.file with
        | .error e => .error e
        | .ok entriesAfterAveraging =>
          let removals := findLisRemovals order entriesAfterAveraging
          .ok (applyRemovals W s.file removals,
            ⟨⟨s.resolved, fills.length, removals.length, entries.length⟩,
              fills.filterMap (gapFillDecision entries) ++ s.decisions ++
                removals.filterMap (lisDecision entriesAfterAveraging)⟩)

end Strategies

end Batchalign.Fa
