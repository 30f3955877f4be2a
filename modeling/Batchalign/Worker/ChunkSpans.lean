import Batchalign.Lib.Isotonic

/- Whisper chunk spans (`worker/chunk_spans.rs`), projected onto boundaries that never decrease:
   descending neighbours are pooled (`pool`, the `while` loop), and each fully timed chunk takes its two
   back. Seconds are exact numbers. -/

namespace Batchalign.Worker
open List

open Isotonic

def blockMean (block : ℚ × ℕ) : ℚ := block.1 / block.2

def expand (blocks : List (ℚ × ℕ)) : List ℚ :=
  blocks.reverse.flatMap (fun block => List.replicate block.2 (blockMean block))

/-- Pool a block with the blocks before it of larger means; the last block comes first. -/
def pool (block : ℚ × ℕ) : List (ℚ × ℕ) → List (ℚ × ℕ)
  | [] => [block]
  | last :: blocks =>
    if blockMean block < blockMean last then
      pool (block.1 + last.1, block.2 + last.2) blocks
    else block :: last :: blocks

def projectNonDecreasing (values : List ℚ) : List ℚ :=
  expand (values.foldl (fun blocks value => pool (value, 1) blocks) [])

/-- The blocks of a list, last first: front-heavy stretches, no mean below the one before. -/
inductive Pooled : List ℚ → List (ℚ × ℕ) → Prop where
  | nil : Pooled [] []
  | cons {values : List ℚ} {blocks : List (ℚ × ℕ)} (stretch : List ℚ)
      (earlier : Pooled values blocks) (ne_nil : stretch ≠ []) (front : FrontHeavy stretch)
      (ascends : ∀ block ∈ blocks.head?, blockMean block ≤ mean stretch) :
      Pooled (values ++ stretch) ((stretch.sum, stretch.length) :: blocks)

theorem Pooled.pool {values : List ℚ} {blocks : List (ℚ × ℕ)} (h : Pooled values blocks)
    {stretch : List ℚ} (hne : stretch ≠ []) (hfront : FrontHeavy stretch) :
    Pooled (values ++ stretch) (pool (stretch.sum, stretch.length) blocks) := by
  induction h generalizing stretch with
  | nil => exact .cons stretch .nil hne hfront (by simp)
  | cons last earlier hlast hlastFront hascends ih =>
    unfold Worker.pool
    split
    · next hlt =>
      -- the last stretch and this one are pooled, and meet the block before
      have hboth := @ih (last ++ stretch) (by simp [hne])
        (hlastFront.append hfront hne hlt.le)
      rw [sum_append, length_append] at hboth
      rwa [append_assoc, add_comm stretch.sum, add_comm stretch.length]
    · next hge =>
      refine .cons stretch (.cons last earlier hlast hlastFront hascends) hne hfront ?_
      intro block hblock
      rw [head?_cons, Option.mem_some_iff] at hblock
      subst hblock
      exact not_lt.mp hge

theorem Pooled.fit {values : List ℚ} {blocks : List (ℚ × ℕ)} (h : Pooled values blocks) :
    Fit values (expand blocks) ∧ ∀ f ∈ expand blocks, ∀ block ∈ blocks.head?, f ≤ blockMean block := by
  induction h with
  | nil => exact ⟨Fit.nil, by simp⟩
  | @cons values blocks stretch earlier hne hfront hascends ih =>
    obtain ⟨hfit, hle⟩ := ih
    have hexpand : expand ((stretch.sum, stretch.length) :: blocks) =
        expand blocks ++ replicate stretch.length (mean stretch) := by
      simp [expand, blockMean, mean]
    rw [hexpand]
    -- every earlier value is at most the last earlier mean
    have hearlier : ∀ f ∈ expand blocks, f ≤ mean stretch := by
      intro f hf
      cases blocks with
      | nil => simp [expand] at hf
      | cons block blocks => exact (hle f hf block rfl).trans (hascends block rfl)
    refine ⟨hfit.append (Fit.block hne hfront) ?_, ?_⟩
    · intro f hf g hg
      rw [eq_of_mem_replicate hg]
      exact hearlier f hf
    · intro f hf block hblock
      rw [head?_cons, Option.mem_some_iff] at hblock
      subst hblock
      obtain hf | hf := mem_append.mp hf
      · exact hearlier f hf
      · exact (eq_of_mem_replicate hf).le

theorem pooled_foldl (values : List ℚ) : ∀ {earlier : List ℚ} {blocks : List (ℚ × ℕ)},
    Pooled earlier blocks → Pooled (earlier ++ values)
      (values.foldl (fun blocks value => pool (value, 1) blocks) blocks) := by
  induction values with
  | nil =>
    intro earlier blocks h
    rwa [append_nil]
  | cons value values ih =>
    intro earlier blocks h
    have hone := h.pool (cons_ne_nil value []) (FrontHeavy.singleton value)
    rw [sum_singleton, length_singleton] at hone
    rw [append_cons]
    exact ih hone

theorem projectNonDecreasing_fit (values : List ℚ) : Fit values (projectNonDecreasing values) :=
  (pooled_foldl values .nil).fit.1

structure AudioPositionSeconds where
  seconds : ℚ
  nonneg : 0 ≤ seconds

structure InvalidAudioPosition where
  seconds : ℚ

def AudioPositionSeconds.tryFrom (seconds : ℚ) : Except InvalidAudioPosition AudioPositionSeconds :=
  if h : 0 ≤ seconds then .ok ⟨seconds, h⟩ else .error ⟨seconds⟩

structure WhisperChunkSpanV2 where
  text : String
  startS : Option AudioPositionSeconds
  endS : Option AudioPositionSeconds

structure MonotoneChunk where
  text : String
  startS : Option AudioPositionSeconds
  endS : Option AudioPositionSeconds

structure MonotoneChunkSpans where
  chunks : List MonotoneChunk
  adjustedBoundaries : ℕ

def bothBounds : Option AudioPositionSeconds → Option AudioPositionSeconds → Option (ℚ × ℚ)
  | some start, some stop => some (start.seconds, stop.seconds)
  | _, _ => none

def WhisperChunkSpanV2.bounds (chunk : WhisperChunkSpanV2) : Option (ℚ × ℚ) :=
  bothBounds chunk.startS chunk.endS

def MonotoneChunk.bounds (chunk : MonotoneChunk) : Option (ℚ × ℚ) :=
  bothBounds chunk.startS chunk.endS

def asPairs : List ℚ → List (ℚ × ℚ)
  | a :: b :: rest => (a, b) :: asPairs rest
  | _ => []

namespace MonotoneChunkSpans

def timed (raw : List (WhisperChunkSpanV2 × ℕ)) : List (ℕ × ℚ × ℚ) :=
  raw.filterMap (fun chunk =>
    chunk.1.bounds.map (fun bounds => (chunk.2, bounds)))

def place : List (WhisperChunkSpanV2 × ℕ) → List (ℕ × ℚ × ℚ) →
    Except InvalidAudioPosition (List MonotoneChunk)
  | [], _ => .ok []
  | (chunk, index) :: raw, projected =>
    match projected with
    | (timed, start, stop) :: later =>
      if timed = index then do
        let startS ← AudioPositionSeconds.tryFrom start
        let endS ← AudioPositionSeconds.tryFrom stop
        let chunks ← place raw later
        .ok (⟨chunk.text, some startS, some endS⟩ :: chunks)
      else do
        let chunks ← place raw projected
        .ok (⟨chunk.text, chunk.startS, chunk.endS⟩ :: chunks)
    | [] => do
      let chunks ← place raw []
      .ok (⟨chunk.text, chunk.startS, chunk.endS⟩ :: chunks)

def project (raw : List WhisperChunkSpanV2) : Except InvalidAudioPosition MonotoneChunkSpans := do
  let timed := timed raw.zipIdx
  let boundaries := timed.flatMap (fun t => [t.2.1, t.2.2])
  let fitted := projectNonDecreasing boundaries
  let adjusted := (boundaries.zip fitted).countP (fun b => b.1 ≠ b.2)
  let projected := (timed.zip (asPairs fitted)).map (fun t => (t.1.1, t.2))
  let chunks ← place raw.zipIdx projected
  .ok ⟨chunks, adjusted⟩

end MonotoneChunkSpans

def boundaries (raw : List WhisperChunkSpanV2) : List ℚ :=
  (raw.filterMap WhisperChunkSpanV2.bounds).flatMap (fun bounds => [bounds.1, bounds.2])

def MonotoneChunkSpans.boundaries (spans : MonotoneChunkSpans) : List ℚ :=
  (spans.chunks.filterMap MonotoneChunk.bounds).flatMap (fun bounds => [bounds.1, bounds.2])

/-- A span's chunk: its text, its own bounds unless it has both, and then both. -/
def StandsFor (chunk : WhisperChunkSpanV2) (out : MonotoneChunk) : Prop :=
  out.text = chunk.text ∧
    (chunk.bounds = none → out.startS = chunk.startS ∧ out.endS = chunk.endS) ∧
    out.bounds.isSome = chunk.bounds.isSome

theorem asPairs_spec : ∀ {values : List ℚ} {n : ℕ}, values.length = 2 * n →
    (asPairs values).length = n ∧ (asPairs values).flatMap (fun b => [b.1, b.2]) = values
  | [], n, h => by
    rw [length_nil] at h
    exact ⟨by simp only [asPairs, length_nil]; omega, rfl⟩
  | [a], n, h => by
    rw [length_singleton] at h
    omega
  | a :: b :: rest, n, h => by
    obtain ⟨m, rfl⟩ : ∃ m, n = m + 1 := ⟨n - 1, by simp only [length_cons] at h; omega⟩
    have hrest : rest.length = 2 * m := by
      simp only [length_cons] at h
      omega
    obtain ⟨hlen, hflat⟩ := asPairs_spec hrest
    refine ⟨by rw [asPairs, length_cons, hlen], ?_⟩
    rw [asPairs, flatMap_cons, hflat]
    rfl

theorem tryFrom_of_nonneg {v : ℚ} (h : 0 ≤ v) : AudioPositionSeconds.tryFrom v = .ok ⟨v, h⟩ := dif_pos h

variable (raw : List WhisperChunkSpanV2)

namespace MonotoneChunkSpans

theorem timed_zipIdx_cons (chunk : WhisperChunkSpanV2) (raw : List WhisperChunkSpanV2) (n : ℕ) :
    timed ((chunk :: raw).zipIdx n) = (chunk.bounds.map (fun bounds => (n, bounds))).toList ++
        timed (raw.zipIdx (n + 1)) := by
  rw [zipIdx_cons, timed, filterMap_cons]
  cases chunk.bounds <;> rfl

theorem timed_zipIdx (n : ℕ) : (timed (raw.zipIdx n)).map Prod.snd =
      raw.filterMap WhisperChunkSpanV2.bounds := by
  induction raw generalizing n with
  | nil => rfl
  | cons chunk raw ih =>
    rw [timed_zipIdx_cons, map_append, ih, filterMap_cons]
    cases chunk.bounds <;> rfl

theorem le_of_mem_timed {raw : List WhisperChunkSpanV2} {n : ℕ} {t : ℕ × ℚ × ℚ}
    (h : t ∈ timed (raw.zipIdx n)) : n ≤ t.1 := by
  obtain ⟨⟨chunk, index⟩, hmem, hsome⟩ := mem_filterMap.mp h
  obtain ⟨bounds, -, rfl⟩ := Option.map_eq_some_iff.mp hsome
  exact (le_snd_of_mem_zipIdx hmem)

theorem place_untimed {chunk : WhisperChunkSpanV2} {n : ℕ}
    {raw : List (WhisperChunkSpanV2 × ℕ)} {projected : List (ℕ × ℚ × ℚ)}
    (hlater : ∀ t ∈ projected, n < t.1) :
    place ((chunk, n) :: raw) projected = (place raw projected).map (fun chunks =>
        ⟨chunk.text, chunk.startS, chunk.endS⟩ :: chunks) := by
  cases projected with
  | nil =>
    rw [place]
    cases place raw [] <;> rfl
  | cons t later =>
    rw [place, if_neg (hlater t mem_cons_self).ne']
    cases place raw (t :: later) <;> rfl

theorem place_spec : ∀ (n : ℕ) (pairs : List (ℚ × ℚ)),
    pairs.length = (timed (raw.zipIdx n)).length → (∀ p ∈ pairs, 0 ≤ p.1 ∧ 0 ≤ p.2) →
    ∃ chunks, place (raw.zipIdx n)
        (((timed (raw.zipIdx n)).zip pairs).map (fun t => (t.1.1, t.2))) = .ok chunks ∧
      Forall₂ StandsFor raw chunks ∧ chunks.filterMap MonotoneChunk.bounds = pairs := by
  induction raw with
  | nil =>
    intro n pairs hlen _
    obtain rfl := length_eq_zero_iff.mp hlen
    exact ⟨[], rfl, .nil, rfl⟩
  | cons chunk raw ih =>
    intro n pairs hlen hpairs
    rw [timed_zipIdx_cons] at hlen ⊢
    cases hboth : chunk.bounds with
    | none =>
      simp only [hboth, Option.map_none, Option.toList_none, nil_append] at hlen ⊢
      obtain ⟨chunks, hplace, hstands, htaken⟩ := ih (n + 1) pairs hlen hpairs
      refine ⟨⟨chunk.text, chunk.startS, chunk.endS⟩ :: chunks, ?_, ?_, ?_⟩
      · rw [zipIdx_cons, place_untimed, hplace]
        · rfl
        · intro t ht
          obtain ⟨⟨t', p⟩, hmem, rfl⟩ := mem_map.mp ht
          have hin : t' ∈ timed (raw.zipIdx (n + 1)) := (of_mem_zip hmem).1
          have hle : n + 1 ≤ t'.1 := le_of_mem_timed hin
          exact hle
      · exact .cons ⟨rfl, fun _ => ⟨rfl, rfl⟩, rfl⟩ hstands
      · rw [← htaken]
        exact filterMap_cons_none hboth
    | some bounds =>
      simp only [hboth, Option.map_some, Option.toList_some, singleton_append,
        length_cons] at hlen ⊢
      obtain ⟨p, pairs, rfl⟩ := exists_cons_of_length_eq_add_one hlen
      obtain ⟨chunks, hplace, hstands, htaken⟩ := ih (n + 1) pairs (by simpa using hlen)
        (fun q hq => hpairs q (mem_cons_of_mem p hq))
      obtain ⟨hstart, hstop⟩ := hpairs p mem_cons_self
      refine ⟨⟨chunk.text, some ⟨p.1, hstart⟩, some ⟨p.2, hstop⟩⟩ :: chunks, ?_, ?_, ?_⟩
      · rw [zipIdx_cons, zip_cons_cons, map_cons, place, if_pos rfl,
          tryFrom_of_nonneg hstart, tryFrom_of_nonneg hstop, hplace]
        rfl
      · refine .cons ⟨rfl, fun hnone => ?_, ?_⟩ hstands
        · rw [hboth] at hnone
          cases hnone
        · rw [hboth]
          rfl
      · rw [← htaken]
        exact filterMap_cons_some rfl

end MonotoneChunkSpans

theorem countP_ne_zip_eq_zero_iff {xs ys : List ℚ} (h : ys.length = xs.length) :
    (xs.zip ys).countP (fun b => b.1 ≠ b.2) = 0 ↔ ys = xs := by
  induction xs generalizing ys with
  | nil =>
    obtain rfl := length_eq_zero_iff.mp h
    simp
  | cons x xs ih =>
    obtain ⟨y, ys, rfl⟩ := exists_cons_of_length_eq_add_one h
    have hlen : ys.length = xs.length := by simpa using h
    rw [zip_cons_cons, countP_cons, Nat.add_eq_zero_iff, ih hlen, cons.injEq, and_comm]
    by_cases hyx : y = x
    · simp [hyx]
    · simp [hyx, Ne.symm hyx]

namespace MonotoneChunkSpans

theorem project_eq : ∃ out, project raw = .ok out ∧ Forall₂ StandsFor raw out.chunks ∧
      out.boundaries = projectNonDecreasing (Worker.boundaries raw) ∧
      out.adjustedBoundaries = ((Worker.boundaries raw).zip
        (projectNonDecreasing (Worker.boundaries raw))).countP (fun b => b.1 ≠ b.2) := by
  have hbounds : (timed raw.zipIdx).flatMap (fun t => [t.2.1, t.2.2]) = Worker.boundaries raw := by
    unfold Worker.boundaries
    rw [← timed_zipIdx raw 0, flatMap_map]
  have hfit := projectNonDecreasing_fit (Worker.boundaries raw)
  -- two boundaries for each timed chunk
  have hlen : (projectNonDecreasing (Worker.boundaries raw)).length =
      2 * (timed raw.zipIdx).length := by
    rw [hfit.1, ← hbounds, length_flatMap]
    simp [mul_comm]
  obtain ⟨hpairs, hflat⟩ := asPairs_spec hlen
  have hraw : ∀ v ∈ Worker.boundaries raw, 0 ≤ v := by
    intro v hv
    obtain ⟨b, hb, hv⟩ := mem_flatMap.mp hv
    obtain ⟨chunk, -, hchunk⟩ := mem_filterMap.mp hb
    unfold WhisperChunkSpanV2.bounds bothBounds at hchunk
    split at hchunk
    · next start stop _ _ =>
      cases hchunk
      simp only [mem_cons, not_mem_nil, or_false] at hv
      obtain rfl | rfl := hv
      · exact start.nonneg
      · exact stop.nonneg
    · cases hchunk
  have hnonneg : ∀ p ∈ asPairs (projectNonDecreasing (Worker.boundaries raw)),
      0 ≤ p.1 ∧ 0 ≤ p.2 := by
    intro p hp
    have hin : ∀ v ∈ [p.1, p.2], 0 ≤ v := by
      intro v hv
      apply hfit.forall_le hraw
      rw [← hflat]
      exact mem_flatMap.mpr ⟨p, hp, hv⟩
    exact ⟨hin _ (by simp), hin _ (by simp)⟩
  obtain ⟨chunks, hplace, hstands, htaken⟩ := place_spec raw 0 _ hpairs hnonneg
  refine ⟨⟨chunks, _⟩, ?_, hstands, ?_, rfl⟩
  · unfold project
    simp only [hbounds, hplace]
    rfl
  · unfold MonotoneChunkSpans.boundaries
    rw [htaken, hflat]

end MonotoneChunkSpans

/-- The projection is the closed form, as long as the list; it never decreases, is the closest such list
  and does nothing twice. Timed chunks get the fit of their bounds, the others stay. -/
theorem project_spec : (∀ values : List ℚ, projectNonDecreasing values = maxMinFit values ∧
      (projectNonDecreasing values).length = values.length ∧
      (projectNonDecreasing values).Pairwise (· ≤ ·) ∧
      (∀ other : List ℚ, other.length = values.length → other.Pairwise (· ≤ ·) →
        other ≠ projectNonDecreasing values →
        sqDist values (projectNonDecreasing values) < sqDist values other) ∧
      (projectNonDecreasing values = values ↔ values.Pairwise (· ≤ ·)) ∧
      projectNonDecreasing (projectNonDecreasing values) = projectNonDecreasing values) ∧
    ∀ raw : List WhisperChunkSpanV2, ∃ out, MonotoneChunkSpans.project raw = .ok out ∧
      List.Forall₂ StandsFor raw out.chunks ∧
      out.boundaries = projectNonDecreasing (boundaries raw) ∧
      (∀ chunk ∈ out.chunks, ∀ b, chunk.bounds = some b → b.1 ≤ b.2) ∧
      out.chunks.Pairwise (fun chunk later => ∀ b, chunk.bounds = some b → ∀ b',
        later.bounds = some b' → b.2 ≤ b'.1) ∧
      (out.adjustedBoundaries = 0 ↔ (boundaries raw).Pairwise (· ≤ ·)) := by
  constructor
  · intro values
    have hfit := projectNonDecreasing_fit values
    refine ⟨hfit.eq_maxMinFit, hfit.1, hfit.pairwise, ?_, hfit.eq_self_iff, ?_⟩
    · intro other hlen hother hne
      apply lt_of_not_ge
      intro hle
      exact hne (hfit.eq_of_sqDist_le hlen hother hle)
    · exact (projectNonDecreasing_fit _).eq_self_iff.mpr hfit.pairwise
  · intro raw
    obtain ⟨out, hout, hstands, hbounds, hadjusted⟩ := MonotoneChunkSpans.project_eq raw
    have hfit := projectNonDecreasing_fit (boundaries raw)
    have hsorted : out.boundaries.Pairwise (· ≤ ·) := by
      rw [hbounds]
      exact hfit.pairwise
    obtain ⟨hinside, hacross⟩ := pairwise_flatMap.mp hsorted
    refine ⟨out, hout, hstands, hbounds, ?_, ?_, ?_⟩
    · intro chunk hchunk b hb
      have hpair := hinside b (mem_filterMap.mpr ⟨chunk, hchunk, hb⟩)
      exact (pairwise_pair.mp hpair)
    · refine (pairwise_filterMap.mp hacross).imp ?_
      intro chunk later hle b hb b' hb'
      exact hle b hb b' hb' b.2 (by simp) b'.1 (by simp)
    · rw [hadjusted, countP_ne_zip_eq_zero_iff hfit.1]
      exact hfit.eq_self_iff

/-- Later values give no earlier fit, the total stays, and no boundary leaves the range of the bounds read. -/
theorem project_monotone : (∀ values later : List ℚ, Forall₂ (· ≤ ·) values later →
      Forall₂ (· ≤ ·) (projectNonDecreasing values) (projectNonDecreasing later)) ∧
    (∀ values : List ℚ, (projectNonDecreasing values).sum = values.sum) ∧
    ∀ raw out, MonotoneChunkSpans.project raw = .ok out → ∀ lo hi : ℚ,
      (∀ b ∈ boundaries raw, lo ≤ b ∧ b ≤ hi) → ∀ b ∈ out.boundaries, lo ≤ b ∧ b ≤ hi := by
  refine ⟨?_, fun values => (projectNonDecreasing_fit values).sum_eq, ?_⟩
  · intro values later hle
    exact (projectNonDecreasing_fit values).forall₂_le (projectNonDecreasing_fit later) hle
  · intro raw out hout lo hi hraw b hb
    obtain ⟨out', hout', -, hbounds, -⟩ := MonotoneChunkSpans.project_eq raw
    cases hout.symm.trans hout'
    rw [hbounds] at hb
    have hfit := projectNonDecreasing_fit (boundaries raw)
    exact ⟨hfit.forall_le (fun x hx => (hraw x hx).1) b hb, hfit.forall_ge (fun x hx => (hraw x hx).2) b hb⟩

def invertedChunk : WhisperChunkSpanV2 := ⟨"so", some ⟨3, by norm_num⟩, some ⟨1, by norm_num⟩⟩

theorem project_monotone_inverted :
    Forall₂ (· ≤ ·) (projectNonDecreasing [3, 1]) (projectNonDecreasing [4, 1]) ∧
      ∃ out, MonotoneChunkSpans.project [invertedChunk] = .ok out ∧ ∀ b ∈ out.boundaries, 1 ≤ b ∧ b ≤ 3 := by
  obtain ⟨out, hout, -⟩ := MonotoneChunkSpans.project_eq [invertedChunk]
  refine ⟨project_monotone.1 [3, 1] [4, 1] (by norm_num), out, hout, project_monotone.2.2 _ out hout 1 3 ?_⟩
  have hboundaries : boundaries [invertedChunk] = [3, 1] := rfl
  rw [hboundaries]
  norm_num

end Batchalign.Worker
