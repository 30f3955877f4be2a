import Batchalign.Fa.TokenMap

/- Where a timing came from, and the timing that carries it (`fa/origin.rs`, `fa/mod.rs`). An origin is
   a chain: a pass that adjusts a boundary wraps the one it had, a pass that supplies one replaces it.
   `WordTiming` holds its positive extent as a field. -/
namespace Batchalign.FaTiming
open Fa

inductive ClampBound where
  | recordingEnd
  | requestEnd
  | requestStart
  | utteranceBullet
  | nextOnset

inductive Origin where
  | engineMeasured (engine : String)
  | transcriptBullet
  | clampedTo (bound : ClampBound) (was : Origin) (original overshoot : ℕ)
  | rebalancedWithNeighbour (was : Origin) (original : ℕ)
  | inheritedFromNeighbour (source : ℕ)
  | mergedFromParts (parts : ℕ)
  | derivedFromNextOnset
  | fallbackDuration (assumed : ℕ)
  | attributedByCharAlignment (was : Origin) (edits : CharEdits)

inductive OriginKind where
  | observed
  | derived
  | assumed
  | adjusted
  deriving DecidableEq

namespace Origin

def kind : Origin → OriginKind
  | engineMeasured _ => .observed
  | transcriptBullet => .observed
  | derivedFromNextOnset => .derived
  | inheritedFromNeighbour _ => .derived
  | mergedFromParts _ => .derived
  | fallbackDuration _ => .assumed
  | attributedByCharAlignment _ _ => .assumed
  | clampedTo _ _ _ _ => .adjusted
  | rebalancedWithNeighbour _ _ => .adjusted

def chain : Origin → List Origin
  | clampedTo bound was original overshoot => clampedTo bound was original overshoot :: was.chain
  | rebalancedWithNeighbour was original => rebalancedWithNeighbour was original :: was.chain
  | attributedByCharAlignment was edits => attributedByCharAlignment was edits :: was.chain
  | origin => [origin]

def overranRecording (origin : Origin) : Bool :=
  origin.chain.any fun
    | clampedTo .recordingEnd _ _ _ => true
    | _ => false

def attributedByAlignment (origin : Origin) : Bool :=
  origin.chain.any fun
    | attributedByCharAlignment _ _ => true
    | _ => false

end Origin

structure ProvenanceTally where
  observed : ℕ
  derived : ℕ
  assumed : ℕ
  adjusted : ℕ
  overranRecording : ℕ
  attributed : ℕ

namespace ProvenanceTally

def default : ProvenanceTally := ⟨0, 0, 0, 0, 0, 0⟩

def record (tally : ProvenanceTally) (origin : Origin) : ProvenanceTally where
  observed := tally.observed + if origin.kind = .observed then 1 else 0
  derived := tally.derived + if origin.kind = .derived then 1 else 0
  assumed := tally.assumed + if origin.kind = .assumed then 1 else 0
  adjusted := tally.adjusted + if origin.kind = .adjusted then 1 else 0
  overranRecording := tally.overranRecording + if origin.overranRecording then 1 else 0
  attributed := tally.attributed + if origin.attributedByAlignment then 1 else 0

end ProvenanceTally

structure ModelAlignmentScore where
  millionths : ℕ
  le : millionths ≤ 1000000

/-- Rounded to the nearest. -/
def ModelAlignmentScore.fromWeightedMillionths (weightedMillionths durationMs : ℕ) : Option ModelAlignmentScore :=
  if durationMs = 0 then none
  else if h : (weightedMillionths + durationMs / 2) / durationMs ≤ 1000000 then some ⟨_, h⟩
  else none

structure RequestWindow where
  startMs : ℕ
  endMs : ℕ
  positive : startMs < endMs

structure WordTiming where
  startMs : ℕ
  endMs : ℕ
  requestWindow : Option RequestWindow
  modelScore : Option ModelAlignmentScore
  startOrigin : Origin
  endOrigin : Origin
  extent : startMs < endMs

namespace WordTiming

def new (startMs endMs : ℕ) (startOrigin endOrigin : Origin) : Option WordTiming :=
  if h : startMs < endMs then some ⟨startMs, endMs, none, none, startOrigin, endOrigin, h⟩ else none

def withModelScore (timing : WordTiming) (score : ModelAlignmentScore) : WordTiming :=
  { timing with modelScore := some score }

def bullet (timing : WordTiming) : TimeSpan := ⟨timing.startMs, timing.endMs⟩

def durationMs (timing : WordTiming) : ℕ := timing.endMs - timing.startMs

end WordTiming

end Batchalign.FaTiming
