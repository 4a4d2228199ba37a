import Pops.Amr.Tagging.ClusterNesting
import Pops.Foundation.DivideAndConquer

/-!
# Berger-Rigoutsos clustering

`pops::amr::tagging::BergerRigoutsosProvider`: the tagged cells of a level, stored over several
ranks, become boxes of bounded size.  A recursion shrinks a candidate to its tagged cells, halves it
when the parent patches do not hold its padding, and otherwise cuts it at holes of its signatures,
at their strongest inflections, or in the middle, until it is efficient enough.

Arithmetic on `long double` is exact arithmetic followed by a rounding `rnd`, which is a parameter.

## Main definitions

* `Pops.authenticateShards` — the checks of the shards.
* `Pops.TagUnion`, `scan`, `signatures` — the union of the shards and what is read of it.
* `Pops.bestHole`, `bestInflection`, `selectCuts`, `splitChildren` — the cuts.
* `Pops.clusterNode`, `clusterRec` — one node, and the recursion.
* `Pops.cluster` — the provider.
-/

namespace Pops

open DivideAndConquer (Step)

/-- The exact identity of a clustering. -/
structure ClusterResultIdentity (d : ℕ) where
  provider : String
  sourceLevel : LevelLayoutIdentity d
  options : ClusterOptions d
  canonicalShards : List (TagShardIdentity d)
  boxes : List (Box d)

/-- The boxes of a clustering with their identity. -/
structure ClusterResult (d : ℕ) where
  boxes : BoxArray d
  identity : ClusterResultIdentity d

/-- `kIdentity`: the name of the algorithm in the identity of a result. -/
def clusterIdentity : String := "pops.amr.cluster.berger-rigoutsos.nd.v1"

variable {d : ℕ}

/-! ## Checks of the input -/

/-- `validate_options_`: the efficiency is in `(0, 1]`, the extents are positive and fit each other,
the buffer is not negative and the work budgets are positive. -/
def validateOptions (options : ClusterOptions d) : Throws Unit := do
  throwIf (options.minEfficiency.elim true (fun e => decide (e ≤ 0 ∨ e > 1)) = true)
    (invalidArgument "Berger-Rigoutsos efficiency must lie in (0, 1]")
  let _ ← forEachAxis fun axis => do
    throwIf (options.minBoxSize axis ≤ 0 ∨ options.maxBoxSize axis ≤ 0)
      (invalidArgument "Berger-Rigoutsos box sizes must be strictly positive")
    throwIf (options.minBoxSize axis > options.maxBoxSize axis)
      (invalidArgument "Berger-Rigoutsos minimum box size cannot exceed its maximum")
    throwIf (options.nestingBuffer axis < 0)
      (invalidArgument "Berger-Rigoutsos nesting buffer must be non-negative")
  throwIf (options.budget.shards = 0 ∨ options.budget.recursionNodes = 0 ∨
      options.budget.cellVisits = 0 ∨ options.budget.outputBoxes = 0 ∨
      options.budget.identityBytes = 0)
    (invalidArgument "Berger-Rigoutsos work budgets must be strictly positive")
  throwIf (options.budget.cellVisits > int64Max)
    (invalidArgument "Berger-Rigoutsos cell budget exceeds exact signed counters")

/-- A patch of a shard of a partitioned level is a patch of the level, owned by the rank of the
shard and not seen before. -/
def claimPatch (source : LevelLayoutIdentity d) (rank : Index d) (seen : List Bool)
    (patch : PatchTags d) : Throws (List Bool) := do
  throwIf (patch.globalPatch ≥ source.patches.length ∨
      source.patches[patch.globalPatch]? ≠ some patch.box)
    (invalidArgument "Berger-Rigoutsos tag shard patch identity is invalid")
  let expected := source.distributionMode = DistributionMode.replicated ∨
    source.owners.getD patch.globalPatch 0 = rank
  throwIf (¬ expected ∨ seen.getD patch.globalPatch false = true)
    (invalidArgument "Berger-Rigoutsos tag shard ownership is invalid")
  pure (seen.set patch.globalPatch true)

/-- The loop over the patches of a shard of a partitioned level. -/
def claimPatches (source : LevelLayoutIdentity d) (seen : List Bool) (shard : TagMask d) :
    Throws (List Bool) :=
  shard.patches.foldlM (claimPatch source shard.localRank) seen

/-- The checks of a shard of a replicated level: it has the tags of the first shard and all patches
of the level in order. -/
def checkReplica (source : LevelLayoutIdentity d) (reference : List (PatchTags d))
    (shard : TagMask d) :
    Throws Unit := do
  throwIf (shard.patches ≠ reference)
    (invalidArgument "Berger-Rigoutsos replicated tag shards do not have identical tag bits")
  throwIf (shard.patches.length ≠ source.patches.length)
    (invalidArgument "Berger-Rigoutsos replicated tag shard omits a patch")
  forEach ((shard.patches.zip source.patches).zipIdx) fun entry =>
    throwIf (entry.1.1.globalPatch ≠ entry.2 ∨ entry.1.1.box ≠ entry.1.2)
      (invalidArgument "Berger-Rigoutsos replicated tag shard patch identity is invalid")

/-- `authenticate_shards_`: the shards in the order of their ranks. -/
def authenticateShards (shards : List (TagMask d)) (options : ClusterOptions d) :
    Throws (List (TagMask d)) :=
  match shards with
  | [] => throw (invalidArgument "Berger-Rigoutsos requires at least one tag shard")
  | front :: _ => do
    throwIf (shards.length > options.budget.shards)
      (lengthError "Berger-Rigoutsos exceeds its tag-shard budget")
    let source := front.levelIdentity
    throwIf (source.patches = [] ∨ source.rankSpace.size = 0)
      (invalidArgument "Berger-Rigoutsos source identity is incomplete")
    forEach shards fun shard => throwIf (shard.levelIdentity ≠ source)
      (invalidArgument "Berger-Rigoutsos tag shards disagree on exact level identity")
    let ranked ← shards.mapM fun shard => do
      let rank ← source.rankSpace.linearRank shard.localRank
      pure (rank, shard)
    let canonical := (ranked.insertionSort fun left right => left.1 ≤ right.1).map Prod.snd
    throwIf (∃ pair ∈ canonical.zip canonical.tail, pair.1.localRank = pair.2.localRank)
      (invalidArgument "Berger-Rigoutsos received duplicate rank tag shards")
    throwIf (canonical.length ≠ source.rankSpace.size)
      (invalidArgument "Berger-Rigoutsos requires one tag shard for every process coordinate")
    forEach canonical.zipIdx fun entry => do
      let coordinate ← source.rankSpace.coordinate entry.2
      throwIf (entry.1.localRank ≠ coordinate)
        (invalidArgument "Berger-Rigoutsos tag shards do not cover the process space")
    if source.distributionMode = .replicated then
      let reference := (canonical.head?.map TagMask.patches).getD []
      forEach canonical (checkReplica source reference)
      pure canonical
    else
      let seen ← canonical.foldlM (claimPatches source) (List.replicate source.patches.length false)
      throwIf (false ∈ seen) (invalidArgument "Berger-Rigoutsos tag shards omit an owned patch")
      pure canonical

/-! ## The union of the tags -/

/-- The canonical shards of a level. -/
structure TagUnion (d : ℕ) where
  shards : List (TagMask d)
  source : LevelLayoutIdentity d

/-- `for_each_cell_in`: replicated shards are visited once. -/
def TagUnion.forEachCellIn (mask : TagUnion d) (region : Box d) :
    Throws (List (Index d × Bool)) := do
  let count := if mask.source.distributionMode = .replicated then 1 else mask.shards.length
  let visits ← (mask.shards.take count).mapM fun shard => shard.forEachCellIn region
  pure visits.flatten

/-- `account_cells`: a region costs its cells in the parent patches. -/
def TagUnion.accountCells (mask : TagUnion d) (region : Box d) (work : ClusterWork) :
    Throws ClusterWork :=
  mask.source.patches.foldlM (fun work patch => do
    let points ← (patch.intersect region).numPts
    work.visitCells points.toNat) work

/-- The tagged cells of a region: their bounding box and their number. -/
structure Scan (d : ℕ) where
  bounds : Box d
  tagged : ℕ

/-- The scan after one more visited cell; the flag tells whether a tagged cell was found. -/
def observe (state : Scan d × Bool) (visit : Index d × Bool) : Scan d × Bool :=
  if visit.2 = false then state
  else if state.2 = false then (⟨⟨visit.1, visit.1⟩, state.1.tagged + 1⟩, true)
  else (⟨⟨fun a => min (state.1.bounds.lo a) (visit.1 a), fun a =>
    max (state.1.bounds.hi a) (visit.1 a)⟩, state.1.tagged + 1⟩, true)

/-- `scan_`: the tight box of the tags in a region and their number, with the visits accounted for.
-/
def scan (mask : TagUnion d) (region : Box d) (work : ClusterWork) :
    Throws (Scan d × ClusterWork) := do
  let work ← mask.accountCells region work
  let visits ← mask.forEachCellIn region
  pure ((visits.foldl observe (⟨⟨0, fun _ => -1⟩, 0⟩, false)).1, work)

/-- The signatures after one more visited cell. -/
def countCell (region : Box d) (signatures : Fin d → List ℕ) (visit : Index d × Bool) :
    Fin d → List ℕ :=
  if visit.2 = false then signatures
  else fun axis => (signatures axis).modify (visit.1 axis - region.lo axis).toNat (· + 1)

/-- `signatures_`: along every axis the number of tagged cells of every plane of the region. -/
def signatures (mask : TagUnion d) (region : Box d) (work : ClusterWork) :
    Throws ((Fin d → List ℕ) × ClusterWork) := do
  let work ← mask.accountCells region work
  let zeros ← forEachAxis fun axis => do
    throwIf (region.length axis > intMax)
      (lengthError "Berger-Rigoutsos signature axis exceeds deterministic cut indexing")
    pure (List.replicate (region.length axis).toNat 0)
  let visits ← mask.forEachCellIn region
  pure (visits.foldl (countCell region) zeros, work)

/-! ## Cuts -/

/-- The values `lower, …, upper` of the loop `for (cut = lower; cut <= upper; ++cut)`. -/
def cutRange (lower upper : ℤ) : List ℤ :=
  (List.range (upper - lower + 1).toNat).map fun k : ℕ => lower + k

/-- The entry of a signature at an index. -/
def entryAt (signature : List ℕ) (index : ℤ) : ℕ := signature.getD index.toNat 0

/-- One round of `best_hole_`: a hole nearer to the middle is better, and of two at the same
distance the lower one. -/
def betterHole (signature : List ℕ) (best : ℤ × ℤ) (cut : ℤ) : ℤ × ℤ :=
  if entryAt signature cut ≠ 0 then best
  else
    let distance := |cut - (signature.length : ℤ).tdiv 2|
    if distance < best.2 ∨ distance = best.2 ∧ cut < best.1 then (cut, distance) else best

/-- `best_hole_`: the best hole of the signature, `-1` when there is none. -/
def bestHole (signature : List ℕ) (minimum : ℤ) : ℤ :=
  ((cutRange minimum (signature.length - minimum)).foldl (betterHole signature) (-1, intMax)).1

/-- The second difference of the signature at an inner index, zero at its ends. -/
def laplacian (rnd : ℚ → ℚ) (signature : List ℕ) (index : ℤ) : ℚ :=
  if 1 ≤ index ∧ index < (signature.length : ℤ) - 1 then
    rnd (rnd (rnd (entryAt signature (index + 1)) - rnd (2 * rnd (entryAt signature index))) +
      rnd (entryAt signature (index - 1)))
  else 0

/-- One round of `best_inflection_`: a larger jump of the second difference is better. -/
def betterInflection (rnd : ℚ → ℚ) (signature : List ℕ) (best : ℤ × ℚ) (cut : ℤ) : ℤ × ℚ :=
  let candidate := |rnd (laplacian rnd signature cut - laplacian rnd signature (cut - 1))|
  if candidate > best.2 then (cut, candidate) else best

/-- `best_inflection_`: the cut where the second difference jumps most, `-1` when it never jumps. -/
def bestInflection (rnd : ℚ → ℚ) (signature : List ℕ) (minimum : ℤ) : ℤ × ℚ :=
  if (signature.length : ℤ) < 3 then (-1, 0)
  else (cutRange (max minimum 2) (min (signature.length - minimum) (signature.length - 2))).foldl
    (betterInflection rnd signature) (-1, 0)

/-- A cut of a region along an axis. -/
structure AxisCut (d : ℕ) where
  axis : Fin d
  offset : ℤ
  length : ℤ
  score : ℚ

/-- `std::max_element`: the first of the largest elements of a nonempty list. -/
def maxElement {α : Type} (less : α → α → Prop) [DecidableRel less] (first : α) (rest : List α) :
    α :=
  rest.foldl (fun largest c => if less largest c then c else largest) first

/-- The cuts of the longest axis. -/
def keepLongest : List (AxisCut d) → List (AxisCut d)
  | [] => []
  | first :: rest =>
    let longest := maxElement (fun left right : AxisCut d => left.length < right.length) first rest
    (first :: rest).filter fun cut => cut.length = longest.length

/-- The order of the strongest cuts: by score, then by the length of their axis. -/
def Weaker (left right : AxisCut d) : Prop :=
  if left.score ≠ right.score then left.score < right.score else left.length < right.length

instance : DecidableRel (Weaker (d := d)) := fun left right =>
  inferInstanceAs (Decidable (if left.score ≠ right.score then _ else _))

/-- The cuts with the strongest score on the longest axis. -/
def keepStrongest : List (AxisCut d) → List (AxisCut d)
  | [] => []
  | first :: rest =>
    let strongest := maxElement Weaker first rest
    (first :: rest).filter fun cut => cut.score = strongest.score ∧ cut.length = strongest.length

/-- The region may be cut along the axis. -/
def Splittable (options : ClusterOptions d) (region : Box d) (axis : Fin d) : Prop :=
  region.length axis ≥ 2 * options.minBoxSize axis

instance (options : ClusterOptions d) (region : Box d) :
    DecidablePred (Splittable options region) :=
  fun _ => inferInstanceAs (Decidable (_ ≥ _))

/-- The cuts at holes. -/
def holeCuts (options : ClusterOptions d) (region : Box d) (signatures : Fin d → List ℕ) :
    List (AxisCut d) :=
  (List.finRange d).filterMap fun axis =>
    if ¬ Splittable options region axis then none
    else
      let cut := bestHole (signatures axis) (options.minBoxSize axis)
      if cut < 0 then none else some ⟨axis, cut, region.length axis, 0⟩

/-- The cuts at inflections. -/
def inflectionCuts (rnd : ℚ → ℚ) (options : ClusterOptions d) (region : Box d)
    (signatures : Fin d → List ℕ) : List (AxisCut d) :=
  (List.finRange d).filterMap fun axis =>
    if ¬ Splittable options region axis then none
    else
      let best := bestInflection rnd (signatures axis) (options.minBoxSize axis)
      if best.1 < 0 then none else some ⟨axis, best.1, region.length axis, best.2⟩

/-- The cuts in the middle of the longest axes. -/
def midpointCuts (options : ClusterOptions d) (region : Box d) : List (AxisCut d) :=
  let longest := (List.finRange d).foldl (fun longest axis =>
    if Splittable options region axis then max longest (region.length axis) else longest) 0
  (List.finRange d).filterMap fun axis =>
    if Splittable options region axis ∧ region.length axis = longest then
      some ⟨axis, castInt ((region.length axis).tdiv 2), region.length axis, 0⟩
    else none

/-- The selected cuts: at holes, otherwise at inflections, otherwise in the middle. -/
def selectCuts (rnd : ℚ → ℚ) (options : ClusterOptions d) (region : Box d)
    (signatures : Fin d → List ℕ) : List (AxisCut d) :=
  let holes := keepLongest (holeCuts options region signatures)
  if holes ≠ [] then holes
  else
    let inflections := keepStrongest (inflectionCuts rnd options region signatures)
    if inflections ≠ [] then inflections else midpointCuts options region

/-- One round of the loop over the cuts: every child is divided in two. -/
def cutChildren (region : Box d) (children : List (Box d)) (selected : AxisCut d) :
    Throws (List (Box d)) := do
  throwIf (selected.offset ≤ 0 ∨ selected.offset ≥ region.length selected.axis)
    (logicError "Berger-Rigoutsos failed to produce a strict split")
  let cut := region.lo selected.axis + selected.offset
  pure (children.map (fun child => child.setHi selected.axis (cut - 1)) ++
    children.map fun child => child.setLo selected.axis cut)

/-- The boxes that the cuts divide the region into. -/
def splitChildren (region : Box d) (cuts : List (AxisCut d)) : Throws (List (Box d)) := do
  throwIf (cuts = []) (logicError "Berger-Rigoutsos failed to select a deterministic split")
  cuts.foldlM (cutChildren region) [region]

/-! ## The recursion -/

section Recursion

variable [NeZero d]

/-- The longest axis of a region. -/
def splitAxis (region : Box d) : Fin d :=
  (List.finRange d).foldl
    (fun split axis => if region.length axis > region.length split then axis else split) 0

/-- What happens to a region that is not properly nested: it is halved along its longest axis, and a
single cell is dropped. -/
def halve (region : Box d) : Step (Box d) (Box d) :=
  let axis := splitAxis region
  if region.length axis = 1 then .drop
  else
    let cut := castInt (region.lo axis + (region.length axis).tdiv 2)
    .split [region.setHi axis (cut - 1), region.setLo axis cut]

/-- The region holds enough tagged cells, or cannot be cut. -/
def Accepted (rnd : ℚ → ℚ) (options : ClusterOptions d) (region : Box d) (tagged points : ℕ) :
    Prop :=
  options.minEfficiency.elim false (fun e => decide (rnd (rnd tagged / rnd points) ≥ e)) = true ∨
    ¬ ∃ axis, Splittable options region axis

instance (rnd : ℚ → ℚ) (options : ClusterOptions d) (region : Box d) (tagged points : ℕ) :
    Decidable (Accepted rnd options region tagged points) :=
  inferInstanceAs (Decidable (_ ∨ _))

/-- What `cluster_rec_` does with a candidate before it goes on to the children. -/
def clusterNode (rnd : ℚ → ℚ) (mask : TagUnion d) (options : ClusterOptions d) (candidate : Box d)
    (work : ClusterWork) : Throws (Step (Box d) (Box d) × ClusterWork) := do
  let work ← work.visitNode
  let (found, work) ← scan mask candidate work
  if found.tagged = 0 then pure (.drop, work)
  else
    let region := found.bounds
    let (covered, work) ← nestingCovered region mask.source options work
    if covered = false then pure (halve region, work)
    else
      let points ← region.numPts
      if Accepted rnd options region found.tagged points.toNat then pure (.answer region, work)
      else
        let (signatures, work) ← signatures mask region work
        let children ← splitChildren region (selectCuts rnd options region signatures)
        pure (.split children, work)

/-- `cluster_rec_`.  Every node counts against the budget of nodes, so the budget bounds the depth;
a recursion that is deeper throws the error of the budget. -/
def clusterRec (rnd : ℚ → ℚ) (mask : TagUnion d) (options : ClusterOptions d) :
    ℕ → ClusterWork × List (Box d) → Box d → Throws (ClusterWork × List (Box d))
  | 0, _, _ => throw (lengthError "Berger-Rigoutsos exceeds its recursion-node budget")
  | depth + 1, (work, output), candidate => do
    let (step, work) ← clusterNode rnd mask options candidate work
    match step with
    | .drop => pure (work, output)
    | .answer region =>
      throwIf (output.length = options.budget.outputBoxes)
        (lengthError "Berger-Rigoutsos exceeds its raw output-box budget")
      pure (work, output ++ [region])
    | .split children => children.foldlM (clusterRec rnd mask options depth) (work, output)
    | .fail => throw (logicError "unreachable")

end Recursion

/-! ## The provider -/

/-- `lexicographic_less_`: the axes in turn, and on each of them the lower corner before the upper
one. -/
def lexicographicLess (left right : Box d) : Bool :=
  (List.finRange d).foldr (fun axis rest =>
    if left.lo axis ≠ right.lo axis then decide (left.lo axis < right.lo axis)
    else if left.hi axis ≠ right.hi axis then decide (left.hi axis < right.hi axis)
    else rest) false

/-- `chopped_count_`: the number of pieces that the maximal extents cut a box into. -/
def choppedCount (box : Box d) (maxBoxSize : Fin d → ℤ) : Throws ℕ :=
  (List.finRange d).foldlM (fun result axis => do
    let segments := 1 + ((box.length axis).toNat - 1) / (maxBoxSize axis).toNat
    throwIf (segments > sizeMax / result)
      (lengthError "Berger-Rigoutsos chopped box count exceeds size_t")
    pure (result * segments)) 1

/-- The boxes of two layouts. -/
def BoxArray.append (array other : BoxArray d) : BoxArray d where
  boxes := array.boxes ++ other.boxes
  isInt b hb := (List.mem_append.mp hb).elim (array.isInt b) (other.isInt b)

/-- The boxes of a layout in lexicographic order. -/
def BoxArray.sorted (array : BoxArray d) : BoxArray d where
  boxes := array.boxes.insertionSort fun left right => lexicographicLess right left = false
  isInt b hb := array.isInt b ((List.perm_insertionSort _ _).mem_iff.mp hb)

/-- The boxes of the recursion, chopped to their maximal size. -/
def chopAll (options : ClusterOptions d) (raw : List (Box d)) (work : ClusterWork) :
    Throws (ClusterWork × BoxArray d) :=
  raw.foldlM (fun state box => do
    let chopped ← choppedCount box options.maxBoxSize
    let work ← state.1.requireOutput chopped
    let pieces ← BoxArray.fromDomain box options.maxBoxSize
    pure (work, state.2.append pieces)) (work, BoxArray.nil)

/-- The shards whose tags the identity stores: replicated shards are stored once. -/
def storesTags (source : LevelLayoutIdentity d) (shardIndex : ℕ) : Prop :=
  ¬ (source.distributionMode = .replicated ∧ shardIndex ≠ 0)

instance (source : LevelLayoutIdentity d) : DecidablePred (storesTags source) :=
  fun _ => inferInstanceAs (Decidable (¬ _))

/-- The bytes of the identity are accounted. -/
def accountIdentity (source : LevelLayoutIdentity d) (canonical : List (TagMask d))
    (boxes : BoxArray d) (work : ClusterWork) : Throws ClusterWork := do
  let work ← work.requireIdentity clusterIdentity.utf8ByteSize
  let patchBytes ← ClusterWork.checkedProduct source.patches.length (sizeofBox d)
  let work ← work.requireIdentity patchBytes
  let ownerBytes ← ClusterWork.checkedProduct source.owners.length (sizeofIndex d)
  let work ← work.requireIdentity ownerBytes
  let boxBytes ← ClusterWork.checkedProduct boxes.boxes.length (sizeofBox d)
  let work ← work.requireIdentity boxBytes
  let shardBytes ← ClusterWork.checkedProduct canonical.length (sizeofTagShardIdentity d)
  let work ← work.requireIdentity shardBytes
  canonical.zipIdx.foldlM (fun work entry =>
    if ¬ storesTags source entry.2 then pure work
    else do
      let tagBytes ← ClusterWork.checkedProduct entry.1.patches.length (sizeofPatchTagIdentity d)
      let work ← work.requireIdentity tagBytes
      entry.1.patches.foldlM (fun work patch => work.requireIdentity patch.tags.length) work) work

/-- The shards of the identity. -/
def canonicalIdentities (source : LevelLayoutIdentity d) (canonical : List (TagMask d)) :
    List (TagShardIdentity d) :=
  canonical.zipIdx.map fun entry =>
    if ¬ storesTags source entry.2 then ⟨entry.1.localRank, [], true⟩ else entry.1.shardIdentity

/-- `cluster`: the whole algorithm, from the shards of a level to boxes with their storage. -/
def cluster [NeZero d] (rnd : ℚ → ℚ) (shards : List (TagMask d)) (options : ClusterOptions d) :
    Throws (ClusterResult d) := do
  validateOptions options
  let canonical ← authenticateShards shards options
  match canonical with
  -- the authenticated shards are not empty
  | [] => throw (logicError "unreachable")
  | front :: _ =>
    let source := front.levelIdentity
    forEach source.patches fun patch => do
      let _ ← forEachAxis fun axis => throwIf (patch.length axis > intMax)
        (lengthError "Berger-Rigoutsos patch axis exceeds deterministic signature indexing")
    let (work, raw) ← clusterRec rnd ⟨canonical, source⟩ options options.budget.recursionNodes
      (⟨options.budget, 0, 0, 0, 0⟩, []) source.domain
    let (work, boxes) ← chopAll options raw work
    let boxes := boxes.sorted
    let _ ← accountIdentity source canonical boxes work
    pure ⟨boxes, ⟨clusterIdentity, source, options, canonicalIdentities source canonical,
      boxes.boxes⟩⟩

end Pops
