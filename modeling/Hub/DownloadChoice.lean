/-
# Which blocks to download next

`LastCommonAncestor` and `FindNextBlocksToDownload` (`libs/server/main.cpp`).  From the last block
that a peer and the node have in common the function walks towards the best block of the peer, in
batches, and collects blocks that are not there and not in flight, in a window of
`BLOCK_DOWNLOAD_WINDOW` blocks.

The batches do not matter: the function visits the blocks of the path one after the other until it
returns (`walkLoop_eq`).  `visitPath_spec` says where it stops, and `findNextBlocksToDownload_spec`
what it collects.  A peer whose best block has less work than the active tip is not asked for
anything, and a block in flight that is there already does not make its peer a staller
(`not_findNextBlocks_asStated`).
-/
import Hub.BlockDownload
import Hub.BlockStatus
import Hub.ChainForks
import Hub.ForestPath
import Hub.SkipList

namespace Download

/-! ## The code -/

/-- What else `CBlockIndex` has about blocks, and `Blocks::Index::get`. -/
structure BlockData (ι : Type) where
  getBlockHash : ι → Uint256
  nStatus : ι → UInt32
  nChainTx : ι → UInt32
  get : Uint256 → Option ι

def blockDownloadWindow : ℕ := 1024

variable {ι : Type} [DecidableEq ι] (T : BlockIndex ι) (D : BlockData ι) (chainActive : CChain ι)

/-- `IsValid(BLOCK_VALID_TREE)`. -/
def BlockData.isValid (pindex : ι) : Bool :=
  BlockStatus.isValid (D.nStatus pindex) BlockStatus.validTree

/-- `nStatus & BLOCK_HAVE_DATA`. -/
def BlockData.haveData (pindex : ι) : Bool :=
  BlockStatus.has (D.nStatus pindex) BlockStatus.haveData

/-- `ProcessBlockAvailability`, on the state of the node. -/
def processBlockAvailability (state : CNodeState ι) : CNodeState ι :=
  if state.hashLastUnknownBlock = 0 then state
  else
    match D.get state.hashLastUnknownBlock with
    | none => state
    | some bi =>
        if 0 < T.nChainWork bi then
          { state with
            pindexBestKnownBlock :=
              match state.pindexBestKnownBlock with
              | none => some bi
              | some best =>
                  if T.nChainWork best ≤ T.nChainWork bi then some bi else some best
            hashLastUnknownBlock := 0 }
        else state

/-- The loop of `LastCommonAncestor`; the first argument bounds the rounds. -/
def lastCommonAncestorLoop : ℕ → Option ι → Option ι → Option (Option ι × Option ι)
  | fuel, some pa, some pb =>
      if pa = pb then some (some pa, some pb)
      else
        match fuel with
        | 0 => none
        | fuel + 1 => lastCommonAncestorLoop fuel (T.pprev pa) (T.pprev pb)
  | _, pa, pb => some (pa, pb)

/-- `LastCommonAncestor`; `none` is a null pointer, or the assertion that the branches meet. -/
def lastCommonAncestor (pa pb : ι) : Option ι := do
  let (pa, pb) :=
    if T.nHeight pb < T.nHeight pa then (T.getAncestorAt pa (T.nHeight pb), some pb)
    else if T.nHeight pa < T.nHeight pb then (some pa, T.getAncestorAt pb (T.nHeight pa))
    else (some pa, some pb)
  let (pa, pb) ← lastCommonAncestorLoop T ((pa.map T.nHeight).getD 0) pa pb
  if pa = pb then pa else none

/-- The variables of the walk. -/
structure Walk (ι : Type) where
  pindexLastCommonBlock : ι
  vBlocks : List ι
  waitingfor : NodeId
  nodeStaller : NodeId
  deriving DecidableEq

/-- The body of the loop over `vToFetch`; an error is a `return`. -/
def visit (s : Downloads ι) (nodeid : NodeId) (count : ℕ) (nWindowEnd : ℤ) (w : Walk ι)
    (pindex : ι) : Except (Walk ι) (Walk ι) :=
  if !D.isValid pindex then
    -- the chain that this peer is on is invalid
    .error w
  else if D.haveData pindex || chainActive.contains T pindex then
    .ok (if D.nChainTx pindex ≠ 0 then { w with pindexLastCommonBlock := pindex } else w)
  else if !s.isBlockInFlight (D.getBlockHash pindex) then
    if nWindowEnd < T.nHeight pindex then
      -- the end of the window
      if w.vBlocks = [] ∧ w.waitingfor ≠ nodeid then .error { w with nodeStaller := w.waitingfor }
      else .error w
    else
      let w := { w with vBlocks := w.vBlocks ++ [pindex] }
      if w.vBlocks.length = count then .error w else .ok w
  else if w.waitingfor = -1 then
    match s.mapBlocksInFlight.lookup (D.getBlockHash pindex) with
    | none => .ok w
    | some (other, _) => .ok { w with waitingfor := other }
  else .ok w

/-- `vToFetch`: the block and as many as `n` below it, filled in from the end. -/
def fillToFetch : ℕ → ι → List ι → Option (List ι)
  | 0, pindex, behind => some (pindex :: behind)
  | n + 1, pindex, behind => (T.pprev pindex).bind fun p => fillToFetch n p (pindex :: behind)

/-- `std::max<int>(count - vBlocks.size(), 128)`. -/
def batchSize (count size : ℕ) : ℤ := max (Int.bmod ((count : ℤ) - size) (2 ^ 32)) 128

/-- The outer loop; the first argument bounds the rounds. -/
def walkLoop (s : Downloads ι) (nodeid : NodeId) (count : ℕ) (best : ι) (nWindowEnd nMaxHeight : ℤ) :
    ℕ → ι → Walk ι → Option (Walk ι)
  | fuel, pindexWalk, w =>
      if (T.nHeight pindexWalk : ℤ) < nMaxHeight then
        match fuel with
        | 0 => none
        | fuel + 1 => do
            let nToFetch := min (nMaxHeight - T.nHeight pindexWalk) (batchSize count w.vBlocks.length)
            let pindexWalk ← T.getAncestorAt best (T.nHeight pindexWalk + nToFetch)
            let vToFetch ← fillToFetch T (nToFetch - 1).toNat pindexWalk []
            match vToFetch.foldlM (visit T D chainActive s nodeid count nWindowEnd) w with
            | .error w => some w
            | .ok w => walkLoop s nodeid count best nWindowEnd nMaxHeight fuel pindexWalk w
      else some w

/-- `pindexLastCommonBlock`, where a null pointer is replaced by a guess. -/
def startBlock (state : CNodeState ι) (best : ι) : Option ι :=
  match state.pindexLastCommonBlock with
  | some common => some common
  | none => chainActive.at? (min (T.nHeight best : ℤ) chainActive.height)

/-- `FindNextBlocksToDownload`; `none` is a null pointer or a failed assertion. -/
def findNextBlocksToDownload (s : Downloads ι) (nodeid : NodeId) (count : UInt32)
    (vBlocks : List ι) (nodeStaller : NodeId) : Option (Downloads ι × List ι × NodeId) :=
  if count = 0 then some (s, vBlocks, nodeStaller)
  else do
    let state ← s.mapNodeState.lookup nodeid
    let state := processBlockAvailability T D state
    let update := fun (state : CNodeState ι) =>
      { s with mapNodeState := s.mapNodeState.insert nodeid state }
    match state.pindexBestKnownBlock with
    | none => some (update state, vBlocks, nodeStaller)
    | some best =>
        let tip ← chainActive.tip
        if T.nChainWork best < T.nChainWork tip then
          -- this peer has nothing interesting
          some (update state, vBlocks, nodeStaller)
        else
          let start ← startBlock T chainActive state best
          let common ← lastCommonAncestor T start best
          if common = best then
            some (update { state with pindexLastCommonBlock := some common }, vBlocks, nodeStaller)
          else
            let nWindowEnd : ℤ := T.nHeight common + blockDownloadWindow
            let nMaxHeight := min (T.nHeight best : ℤ) (nWindowEnd + 1)
            let w ← walkLoop T D chainActive s nodeid count.toNat best nWindowEnd nMaxHeight
              (T.nHeight best) common ⟨common, vBlocks, -1, nodeStaller⟩
            some (update { state with pindexLastCommonBlock := some w.pindexLastCommonBlock },
              w.vBlocks, w.nodeStaller)

/-! ## The blocks one after the other -/

/-- There already, or in the active chain. -/
def isThere (pindex : ι) : Bool := D.haveData pindex || chainActive.contains T pindex

variable (s : Downloads ι) (nodeid : NodeId) (count : ℕ) (nWindowEnd : ℤ)

/-- Not there and not in flight. -/
def isWanted (pindex : ι) : Bool :=
  !isThere T D chainActive pindex && !s.isBlockInFlight (D.getBlockHash pindex)

/-- In flight, and not there. -/
def isAwaited (pindex : ι) : Bool :=
  !isThere T D chainActive pindex && s.isBlockInFlight (D.getBlockHash pindex)

/-- The node that a block is in flight from. -/
def sourceOf (pindex : ι) : NodeId :=
  (s.mapBlocksInFlight.lookup (D.getBlockHash pindex)).elim (-1) Prod.fst

/-- `waitingfor` behind a list of blocks. -/
def waitingBehind (waitingfor : NodeId) (l : List ι) : NodeId :=
  if waitingfor = -1 then (l.find? (isAwaited T D chainActive s)).elim (-1) (sourceOf D s)
  else waitingfor

variable {T D chainActive s nodeid count nWindowEnd} {w : Walk ι} {pindex : ι}

theorem visit_invalid (hvalid : D.isValid pindex = false) :
    visit T D chainActive s nodeid count nWindowEnd w pindex = .error w := by
  rw [visit, hvalid]
  rfl

/-- A block that is there can move the common block, and nothing else. -/
theorem visit_there (hvalid : D.isValid pindex = true)
    (hthere : isThere T D chainActive pindex = true) :
    visit T D chainActive s nodeid count nWindowEnd w pindex =
      .ok { w with pindexLastCommonBlock :=
        if D.nChainTx pindex ≠ 0 then pindex else w.pindexLastCommonBlock } := by
  rw [isThere] at hthere
  rw [visit, hvalid, if_neg (by decide), if_pos hthere]
  split
  · rfl
  · rfl

theorem visit_wanted (hvalid : D.isValid pindex = true)
    (hwanted : isWanted T D chainActive s pindex = true) :
    visit T D chainActive s nodeid count nWindowEnd w pindex =
      if nWindowEnd < T.nHeight pindex then
        if w.vBlocks = [] ∧ w.waitingfor ≠ nodeid then .error { w with nodeStaller := w.waitingfor }
        else .error w
      else if (w.vBlocks ++ [pindex]).length = count then
        .error { w with vBlocks := w.vBlocks ++ [pindex] }
      else .ok { w with vBlocks := w.vBlocks ++ [pindex] } := by
  obtain ⟨hthere, hflight⟩ := Bool.and_eq_true_iff.mp hwanted
  rw [Bool.not_eq_true', isThere] at hthere
  rw [visit, hvalid, if_neg (by decide), hthere, if_neg (by decide), if_pos hflight]

theorem visit_awaited (hvalid : D.isValid pindex = true)
    (hawaited : isAwaited T D chainActive s pindex = true) :
    visit T D chainActive s nodeid count nWindowEnd w pindex =
      .ok { w with waitingfor := if w.waitingfor = -1 then sourceOf D s pindex else w.waitingfor } := by
  obtain ⟨hthere, hflight⟩ := Bool.and_eq_true_iff.mp hawaited
  rw [Bool.not_eq_true', isThere] at hthere
  rw [visit, hvalid, if_neg (by decide), hthere, if_neg (by decide), hflight, if_neg (by decide)]
  split
  · have hlookup := Option.isSome_iff_exists.mp hflight
    obtain ⟨⟨other, place⟩, hlookup⟩ := hlookup
    rw [sourceOf, hlookup]
    rfl
  · rfl

/-- The walk that is left, after a `return` or at the end of the list. -/
def stopped : Except (Walk ι) (Walk ι) → Walk ι
  | .error w => w
  | .ok w => w

/-- From `w` the blocks `before` were visited and the blocks `behind` were not, and `w'` is left. -/
structure Stops (T : BlockIndex ι) (D : BlockData ι) (chainActive : CChain ι) (s : Downloads ι)
    (count : ℕ) (nWindowEnd : ℤ) (before behind : List ι) (w w' : Walk ι) : Prop where
  vBlocks : w'.vBlocks = w.vBlocks ++ before.filter (isWanted T D chainActive s)
  length_le : w'.vBlocks.length ≤ count
  inWindow : ∀ b ∈ before, isWanted T D chainActive s b = true → (T.nHeight b : ℤ) ≤ nWindowEnd
  reason :
    (w'.nodeStaller = w.nodeStaller ∧ (behind = [] ∨ w'.vBlocks.length = count ∨
      ∃ b ∈ behind.head?, D.isValid b = false)) ∨
    ((∃ b ∈ behind.head?, isWanted T D chainActive s b = true ∧ nWindowEnd < T.nHeight b) ∧
      (w'.nodeStaller = w.nodeStaller ∨
        w'.vBlocks = [] ∧ w'.nodeStaller = waitingBehind T D chainActive s w.waitingfor before))

/-- One more block before the others. -/
theorem Stops.cons {before behind : List ι} {w₁ w' : Walk ι}
    (h : Stops T D chainActive s count nWindowEnd before behind w₁ w')
    (hblocks : w₁.vBlocks = w.vBlocks ++ [pindex].filter (isWanted T D chainActive s))
    (hwindow : isWanted T D chainActive s pindex = true → (T.nHeight pindex : ℤ) ≤ nWindowEnd)
    (hstaller : w₁.nodeStaller = w.nodeStaller)
    (hwaiting : waitingBehind T D chainActive s w₁.waitingfor before =
      waitingBehind T D chainActive s w.waitingfor (pindex :: before)) :
    Stops T D chainActive s count nWindowEnd (pindex :: before) behind w w' where
  vBlocks := by
    rw [h.vBlocks, hblocks, List.append_assoc, ← List.filter_append]
    rfl
  length_le := h.length_le
  inWindow := List.forall_mem_cons.mpr ⟨hwindow, h.inWindow⟩
  reason := by
    rw [← hstaller, ← hwaiting]
    exact h.reason

/-- A block that is not awaited does not change what the walk waits for. -/
theorem waitingBehind_cons_of_not {waitingfor : NodeId} {l : List ι}
    (h : isAwaited T D chainActive s pindex = false) :
    waitingBehind T D chainActive s waitingfor (pindex :: l) =
      waitingBehind T D chainActive s waitingfor l := by
  rw [waitingBehind, waitingBehind, List.find?_cons, h]

theorem not_awaited_of_there (h : isThere T D chainActive pindex = true) :
    isAwaited T D chainActive s pindex = false := by
  rw [isAwaited, h]
  rfl

theorem not_wanted_of_there (h : isThere T D chainActive pindex = true) :
    isWanted T D chainActive s pindex = false := by
  rw [isWanted, h]
  rfl

theorem not_awaited_of_wanted (h : isWanted T D chainActive s pindex = true) :
    isAwaited T D chainActive s pindex = false := by
  rw [isWanted, Bool.and_eq_true_iff, Bool.not_eq_true', Bool.not_eq_true'] at h
  rw [isAwaited, h.2, Bool.and_false]

theorem not_wanted_of_awaited (h : isAwaited T D chainActive s pindex = true) :
    isWanted T D chainActive s pindex = false := by
  rw [isAwaited, Bool.and_eq_true_iff] at h
  rw [isWanted, h.2, Bool.not_true, Bool.and_false]

/-- Every block is there, wanted or awaited. -/
theorem there_or_wanted_or_awaited (T : BlockIndex ι) (D : BlockData ι) (chainActive : CChain ι)
    (s : Downloads ι) (pindex : ι) :
    isThere T D chainActive pindex = true ∨ isWanted T D chainActive s pindex = true ∨
      isAwaited T D chainActive s pindex = true := by
  rw [isWanted, isAwaited]
  cases isThere T D chainActive pindex <;>
    cases s.isBlockInFlight (D.getBlockHash pindex) <;> decide

/-- The node of an awaited block, if no node is `-1`. -/
theorem sourceOf_ne (hids : ∀ hash entry, s.mapBlocksInFlight.lookup hash = some entry →
    entry.1 ≠ -1) (h : isAwaited T D chainActive s pindex = true) : sourceOf D s pindex ≠ -1 := by
  rw [isAwaited, Bool.and_eq_true_iff] at h
  obtain ⟨entry, hentry⟩ := Option.isSome_iff_exists.mp h.2
  rw [sourceOf, hentry]
  exact hids _ _ hentry

/-- The block itself makes the walk stop. -/
theorem stops_here {l : List ι} {w' : Walk ι} (hroom : w.vBlocks.length < count)
    (hblocks : w'.vBlocks = w.vBlocks)
    (hreason : (w'.nodeStaller = w.nodeStaller ∧ D.isValid pindex = false) ∨
      ((isWanted T D chainActive s pindex = true ∧ nWindowEnd < T.nHeight pindex) ∧
        (w'.nodeStaller = w.nodeStaller ∨ w'.vBlocks = [] ∧ w'.nodeStaller = w.waitingfor))) :
    Stops T D chainActive s count nWindowEnd [] (pindex :: l) w w' where
  vBlocks := by rw [hblocks, List.filter_nil, List.append_nil]
  length_le := by
    rw [hblocks]
    exact hroom.le
  inWindow := by
    intro b hb
    cases hb
  reason := by
    have hwaiting : waitingBehind T D chainActive s w.waitingfor [] = w.waitingfor := by
      rw [waitingBehind]
      split
      · exact Eq.symm ‹_›
      · rfl
    rw [hwaiting]
    rcases hreason with ⟨hstaller, hvalid⟩ | ⟨hend, hstaller⟩
    · exact .inl ⟨hstaller, .inr (.inr ⟨pindex, rfl, hvalid⟩)⟩
    · exact .inr ⟨⟨pindex, rfl, hend⟩, hstaller⟩

/-- The walk stops at the first block. -/
theorem stopped_cons_error {l : List ι} (w' : Walk ι)
    (h : visit T D chainActive s nodeid count nWindowEnd w pindex = .error w') :
    stopped ((pindex :: l).foldlM (visit T D chainActive s nodeid count nWindowEnd) w) = w' := by
  rw [List.foldlM_cons, h]
  rfl

theorem foldlM_cons_ok {l : List ι} (w' : Walk ι)
    (h : visit T D chainActive s nodeid count nWindowEnd w pindex = .ok w') :
    (pindex :: l).foldlM (visit T D chainActive s nodeid count nWindowEnd) w =
      l.foldlM (visit T D chainActive s nodeid count nWindowEnd) w' := by
  rw [List.foldlM_cons, h]
  rfl

variable (T D chainActive nWindowEnd) in
/-- **The walk over a list of blocks**, from a place where blocks are still asked for. -/
theorem visitPath_spec (nodeid : NodeId) (hids : ∀ hash entry,
    s.mapBlocksInFlight.lookup hash = some entry → entry.1 ≠ -1) :
    ∀ (l : List ι) (w : Walk ι), w.vBlocks.length < count →
    ∃ before behind, l = before ++ behind ∧
      Stops T D chainActive s count nWindowEnd before behind w
        (stopped (l.foldlM (visit T D chainActive s nodeid count nWindowEnd) w)) := by
  intro l
  induction l with
  | nil =>
    intro w hroom
    refine ⟨[], [], rfl, ⟨(List.append_nil _).symm, hroom.le, ?_, .inl ⟨rfl, .inl rfl⟩⟩⟩
    intro b hb
    cases hb
  | cons pindex l ih =>
    intro w hroom
    cases hvalid : D.isValid pindex with
    | false =>
      rw [stopped_cons_error _ (visit_invalid hvalid)]
      exact ⟨[], _, rfl, stops_here hroom rfl (.inl ⟨rfl, hvalid⟩)⟩
    | true =>
    rcases there_or_wanted_or_awaited T D chainActive s pindex with hthere | hwanted | hawaited
    · -- the block is passed over
      rw [foldlM_cons_ok _ (visit_there hvalid hthere)]
      have hnot : isWanted T D chainActive s pindex = false := not_wanted_of_there hthere
      obtain ⟨before, behind, rfl, hstops⟩ := ih { w with
        pindexLastCommonBlock :=
          if D.nChainTx pindex ≠ 0 then pindex else w.pindexLastCommonBlock } hroom
      refine ⟨pindex :: before, behind, rfl, hstops.cons ?_ ?_ rfl ?_⟩
      · rw [List.filter_singleton, hnot]
        exact (List.append_nil _).symm
      · rw [hnot]
        intro h
        cases h
      · exact (waitingBehind_cons_of_not (not_awaited_of_there hthere)).symm
    · by_cases hend : nWindowEnd < T.nHeight pindex
      · refine ⟨[], pindex :: l, rfl, ?_⟩
        by_cases hstall : w.vBlocks = [] ∧ w.waitingfor ≠ nodeid
        · rw [stopped_cons_error { w with nodeStaller := w.waitingfor } (by
            rw [visit_wanted hvalid hwanted, if_pos hend, if_pos hstall])]
          exact stops_here hroom rfl (.inr ⟨⟨hwanted, hend⟩, .inr ⟨hstall.1, rfl⟩⟩)
        · rw [stopped_cons_error w (by
            rw [visit_wanted hvalid hwanted, if_pos hend, if_neg hstall])]
          exact stops_here hroom rfl (.inr ⟨⟨hwanted, hend⟩, .inl rfl⟩)
      · have hpush : w.vBlocks ++ [pindex] =
            w.vBlocks ++ [pindex].filter (isWanted T D chainActive s) := by
          rw [List.filter_singleton, hwanted]
          rfl
        by_cases hfull : (w.vBlocks ++ [pindex]).length = count
        · rw [stopped_cons_error { w with vBlocks := w.vBlocks ++ [pindex] } (by
            rw [visit_wanted hvalid hwanted, if_neg hend, if_pos hfull])]
          refine ⟨[pindex], l, rfl, ⟨hpush, hfull.le, ?_, .inl ⟨rfl, .inr (.inl hfull)⟩⟩⟩
          intro b hb _
          rw [List.mem_singleton] at hb
          rw [hb]
          exact not_lt.mp hend
        · rw [foldlM_cons_ok { w with vBlocks := w.vBlocks ++ [pindex] } (by
            rw [visit_wanted hvalid hwanted, if_neg hend, if_neg hfull])]
          have hroom' : (w.vBlocks ++ [pindex]).length < count := by
            rw [List.length_append, List.length_singleton] at hfull ⊢
            omega
          obtain ⟨before, behind, rfl, hstops⟩ :=
            ih { w with vBlocks := w.vBlocks ++ [pindex] } hroom'
          refine ⟨pindex :: before, behind, rfl, hstops.cons hpush (fun _ => not_lt.mp hend) rfl ?_⟩
          exact (waitingBehind_cons_of_not (not_awaited_of_wanted hwanted)).symm
    · -- the first block that is awaited says what the walk waits for
      rw [foldlM_cons_ok _ (visit_awaited hvalid hawaited)]
      have hnot : isWanted T D chainActive s pindex = false := not_wanted_of_awaited hawaited
      obtain ⟨before, behind, rfl, hstops⟩ := ih { w with
        waitingfor := if w.waitingfor = -1 then sourceOf D s pindex else w.waitingfor } hroom
      refine ⟨pindex :: before, behind, rfl, hstops.cons ?_ ?_ rfl ?_⟩
      · rw [List.filter_singleton, hnot]
        exact (List.append_nil _).symm
      · rw [hnot]
        intro h
        cases h
      · simp only [waitingBehind]
        by_cases hw : w.waitingfor = -1
        · rw [if_pos hw, if_pos hw, if_neg (sourceOf_ne hids hawaited), List.find?_cons, hawaited]
          rfl
        · rw [if_neg hw, if_neg hw, if_neg hw]

/-! ## The batches -/

variable {best common : ι}

omit [DecidableEq ι] in
/-- A batch is a path. -/
theorem fillToFetch_eq : ∀ (n : ℕ) {pindex : ι} (behind : List ι), T.forest.Le pindex best →
    n + 1 ≤ T.nHeight pindex → fillToFetch T n pindex behind =
      some (T.forest.path best (T.nHeight pindex - (n + 1)) (T.nHeight pindex) ++ behind) := by
  intro n
  induction n with
  | zero =>
    intro pindex behind hle hheight
    have hone : T.nHeight pindex - 1 + 1 = T.forest.height pindex := Nat.sub_add_cancel hheight
    have hpath := Forest.path_eq_singleton hone hle
    rw [fillToFetch]
    exact congrArg some (congrArg (· ++ behind) hpath.symm)
  | succ n ih =>
    intro pindex behind hle hheight
    cases hp : T.pprev pindex with
    | none =>
      have hroot := T.height_root pindex hp
      omega
    | some p =>
      have hchild := T.height_child pindex p hp
      have hone : T.nHeight p + 1 = T.forest.height pindex := hchild.symm
      have hlast := Forest.path_eq_singleton hone hle
      have hcut := Forest.path_append (F := T.forest) (b := best)
        (Nat.sub_le (T.nHeight p) (n + 1)) (show T.nHeight p ≤ T.forest.height pindex by omega)
      rw [fillToFetch, hp, Option.bind_some,
        ih (pindex :: behind) ((Forest.Le.of_parent hp).trans hle) (by omega)]
      have hlow : T.nHeight pindex - (n + 1 + 1) = T.nHeight p - (n + 1) := by omega
      rw [hlow]
      show _ = some (T.forest.path best _ (T.forest.height pindex) ++ behind)
      rw [← hcut, hlast, List.append_assoc]
      rfl

/-- **The batches do not matter.**  The outer loop visits the blocks of the path one after the
other. -/
theorem walkLoop_eq {hi : ℕ} (hhi : hi ≤ T.nHeight best) : ∀ (fuel : ℕ) (pindexWalk : ι)
    (w : Walk ι), T.forest.Le pindexWalk best → hi ≤ T.nHeight pindexWalk + fuel →
    walkLoop T D chainActive s nodeid count best nWindowEnd hi fuel pindexWalk w =
      some (stopped ((T.forest.path best (T.nHeight pindexWalk) hi).foldlM
        (visit T D chainActive s nodeid count nWindowEnd) w)) := by
  intro fuel
  induction fuel with
  | zero =>
    intro pindexWalk w hle hfuel
    rw [walkLoop, if_neg (by omega), Forest.path_of_le (by omega)]
    rfl
  | succ fuel ih =>
    intro pindexWalk w hle hfuel
    by_cases hlow : (T.nHeight pindexWalk : ℤ) < hi
    · rw [walkLoop, if_pos hlow]
      -- the batch is not empty
      have hbatch : 1 ≤ batchSize count w.vBlocks.length := by
        rw [batchSize]
        omega
      obtain ⟨n, hn⟩ : ∃ n : ℕ, min ((hi : ℤ) - T.nHeight pindexWalk)
          (batchSize count w.vBlocks.length) = (n + 1 : ℕ) := by
        refine ⟨(min ((hi : ℤ) - T.nHeight pindexWalk)
          (batchSize count w.vBlocks.length) - 1).toNat, ?_⟩
        omega
      have hupper : T.nHeight pindexWalk + (n + 1) ≤ hi := by omega
      obtain ⟨next, hnext⟩ := Forest.ancestor?_isSome (F := T.forest)
        (show T.nHeight pindexWalk + (n + 1) ≤ T.forest.height best from hupper.trans hhi)
      obtain ⟨hnextLe, hnextHeight⟩ := Forest.ancestor?_eq_some_iff.mp hnext
      have hnextHeight' : T.nHeight next = T.nHeight pindexWalk + (n + 1) := hnextHeight
      have hstart : T.nHeight next - (n + 1) = T.nHeight pindexWalk := by omega
      have hfill := fillToFetch_eq (T := T) n [] hnextLe (by omega)
      rw [hstart, List.append_nil] at hfill
      have hat : T.getAncestorAt best ((T.nHeight pindexWalk : ℤ) + (n + 1 : ℕ)) = some next := by
        rw [BlockIndex.getAncestorAt_eq, if_pos (by omega)]
        exact hnext
      have hn' : ((n + 1 : ℕ) - 1 : ℤ).toNat = n := by omega
      have hcut := Forest.path_append (F := T.forest) (b := best)
        (show T.nHeight pindexWalk ≤ T.nHeight next by omega)
        (show T.nHeight next ≤ hi by omega)
      simp only [Option.bind_eq_bind, hn]
      rw [hat, Option.bind_some, hn', hfill, Option.bind_some, ← hcut, List.foldlM_append]
      cases (T.forest.path best (T.nHeight pindexWalk) (T.nHeight next)).foldlM
          (visit T D chainActive s nodeid count nWindowEnd) w with
      | error w' => rfl
      | ok w' => exact ih next w' hnextLe (by omega)
    · rw [walkLoop, if_neg hlow, Forest.path_of_le (by omega)]
      rfl

/-! ## The common block -/

/-- One genesis block. -/
def SingleRoot (T : BlockIndex ι) : Prop :=
  ∀ a b, T.pprev a = none → T.pprev b = none → a = b

/-- From blocks of one height the loop goes down to the highest common ancestor. -/
theorem lastCommonAncestorLoop_spec (hroot : SingleRoot T) : ∀ (fuel : ℕ) {pa pb : ι},
    T.nHeight pa = T.nHeight pb → T.nHeight pa ≤ fuel →
    ∃ f, lastCommonAncestorLoop T fuel (some pa) (some pb) = some (some f, some f) ∧
      CChain.IsFork T pa pb f := by
  intro fuel
  induction fuel with
  | zero =>
    intro pa pb heq hfuel
    have hrootOf : ∀ x, T.nHeight x = 0 → T.pprev x = none := by
      intro x hx
      cases hp : T.pprev x with
      | none => rfl
      | some p =>
        have hchild := T.height_child x p hp
        omega
    obtain rfl := hroot pa pb (hrootOf pa (by omega)) (hrootOf pb (by omega))
    refine ⟨pa, ?_, Forest.Le.refl pa, Forest.Le.refl pa, fun a ha _ => ha.height_le⟩
    rw [lastCommonAncestorLoop, if_pos rfl]
  | succ fuel ih =>
    intro pa pb heq hfuel
    by_cases hsame : pa = pb
    · subst hsame
      refine ⟨pa, ?_, Forest.Le.refl pa, Forest.Le.refl pa, fun a ha _ => ha.height_le⟩
      rw [lastCommonAncestorLoop, if_pos rfl]
    · rw [lastCommonAncestorLoop, if_neg hsame]
      cases hp : T.pprev pa with
      | none =>
        have hheight := T.height_root pa hp
        cases hq : T.pprev pb with
        | none => exact absurd (hroot pa pb hp hq) hsame
        | some q =>
          have hchild := T.height_child pb q hq
          omega
      | some p =>
        have hchild := T.height_child pa p hp
        cases hq : T.pprev pb with
        | none =>
          have hheight := T.height_root pb hq
          omega
        | some q =>
          have hchild' := T.height_child pb q hq
          have heq' : T.nHeight p = T.nHeight q := by omega
          obtain ⟨f, hf, hfp, hfq, hmax⟩ := ih heq' (by omega)
          refine ⟨f, hf, hfp.trans (Forest.Le.of_parent hp), hfq.trans (Forest.Le.of_parent hq),
            fun a hap haq => ?_⟩
          -- a common ancestor is not one of the two blocks themselves
          rcases (Forest.le_iff_of_parent hp).mp hap with rfl | hap'
          · exact absurd (haq.eq_of_height heq.symm.le) hsame
          · rcases (Forest.le_iff_of_parent hq).mp haq with rfl | haq'
            · exact absurd (hap.eq_of_height heq.le).symm hsame
            · exact hmax a hap' haq'

/-- **`LastCommonAncestor`** finds the highest common ancestor. -/
theorem lastCommonAncestor_spec (hroot : SingleRoot T) (pa pb : ι) :
    ∃ f, lastCommonAncestor T pa pb = some f ∧ CChain.IsFork T pa pb f := by
  -- one of the two blocks is replaced by its ancestor at the height of the other
  have hdown : ∀ {x y : ι}, T.nHeight y < T.nHeight x →
      ∃ x', T.getAncestorAt x (T.nHeight y) = some x' ∧ T.forest.Le x' x ∧
        T.nHeight x' = T.nHeight y := by
    intro x y hlt
    obtain ⟨x', hx'⟩ := Forest.ancestor?_isSome (F := T.forest)
      (show T.nHeight y ≤ T.forest.height x from hlt.le)
    obtain ⟨hle, hheight⟩ := Forest.ancestor?_eq_some_iff.mp hx'
    refine ⟨x', ?_, hle, hheight⟩
    rw [BlockIndex.getAncestorAt_eq, if_pos (by omega)]
    exact hx'
  have hbelow : ∀ {x x' y a : ι}, T.forest.Le x' x → T.nHeight x' = T.nHeight y →
      T.forest.Le a x → T.forest.Le a y → T.forest.Le a x' := by
    intro x x' y a hx' hheight hax hay
    have hay' : T.nHeight a ≤ T.nHeight y := hay.height_le
    exact hax.total hx' (show T.nHeight a ≤ T.nHeight x' by omega)
  rw [lastCommonAncestor]
  by_cases hab : T.nHeight pb < T.nHeight pa
  · obtain ⟨pa', hget, hle, hheight⟩ := hdown hab
    obtain ⟨f, hf, hfa, hfb, hmax⟩ :=
      lastCommonAncestorLoop_spec hroot (T.nHeight pa') hheight le_rfl
    refine ⟨f, ?_, hfa.trans hle, hfb, fun a ha hb => hmax a (hbelow hle hheight ha hb) hb⟩
    simp only [if_pos hab, hget, Option.map_some, Option.getD_some, hf, Option.bind_eq_bind,
      Option.bind_some, if_true]
  · by_cases hba : T.nHeight pa < T.nHeight pb
    · obtain ⟨pb', hget, hle, hheight⟩ := hdown hba
      obtain ⟨f, hf, hfa, hfb, hmax⟩ :=
        lastCommonAncestorLoop_spec hroot (T.nHeight pa) hheight.symm le_rfl
      refine ⟨f, ?_, hfa, hfb.trans hle, fun a ha hb => hmax a ha (hbelow hle hheight hb ha)⟩
      simp only [if_neg hab, if_pos hba, hget, Option.map_some, Option.getD_some, hf,
        Option.bind_eq_bind, Option.bind_some, if_true]
    · obtain ⟨f, hf, hfork⟩ :=
        lastCommonAncestorLoop_spec hroot (T.nHeight pa) (by omega : T.nHeight pa = T.nHeight pb)
          le_rfl
      refine ⟨f, ?_, hfork⟩
      simp only [if_neg hab, if_neg hba, Option.map_some, Option.getD_some, hf,
        Option.bind_eq_bind, Option.bind_some, if_true]

/-! ## What is asked for -/

/-- A block that could be asked for: on the way from the common block to the best block of the peer,
in the window, not there and not in flight. -/
structure Missing (T : BlockIndex ι) (D : BlockData ι) (chainActive : CChain ι) (s : Downloads ι)
    (best common b : ι) : Prop where
  le_best : T.forest.Le b best
  above : T.nHeight common < T.nHeight b
  inWindow : T.nHeight b ≤ T.nHeight common + blockDownloadWindow
  noData : D.haveData b = false
  notActive : chainActive.contains T b = false
  notInFlight : s.isBlockInFlight (D.getBlockHash b) = false

/-- `other` has the lowest block of the window that is awaited: in flight, without data and not in
the active chain. -/
def HasLowestAwaited (T : BlockIndex ι) (D : BlockData ι) (chainActive : CChain ι)
    (s : Downloads ι) (best common : ι) (other : NodeId) : Prop :=
  ∃ b place, T.forest.Le b best ∧ T.nHeight common < T.nHeight b ∧
    T.nHeight b ≤ T.nHeight common + blockDownloadWindow ∧
    D.haveData b = false ∧ chainActive.contains T b = false ∧
    s.mapBlocksInFlight.lookup (D.getBlockHash b) = some (other, place) ∧
    ∀ a, T.forest.Le a b → T.nHeight common < T.nHeight a → a ≠ b →
      D.haveData a = true ∨ chainActive.contains T a = true ∨
        s.isBlockInFlight (D.getBlockHash a) = false

/-- What the walk from the common block chooses. -/
structure Chosen (T : BlockIndex ι) (D : BlockData ι) (chainActive : CChain ι) (s : Downloads ι)
    (best common : ι) (count : ℕ) (nodeStaller : NodeId) (vBlocks : List ι) (staller : NodeId) :
    Prop where
  length_le : vBlocks.length ≤ count
  increasing : vBlocks.Pairwise fun a b => T.nHeight a < T.nHeight b
  missing : ∀ b ∈ vBlocks, Missing T D chainActive s best common b
  -- it stops short at an invalid block, or because there is nothing else
  short : vBlocks.length < count →
    (∀ b, Missing T D chainActive s best common b → b ∈ vBlocks) ∨
    ∃ x, T.forest.Le x best ∧ T.nHeight common < T.nHeight x ∧
      D.isValid x = false ∧
      ∀ b, Missing T D chainActive s best common b → T.nHeight b < T.nHeight x → b ∈ vBlocks
  staller : staller = nodeStaller ∨ staller = -1 ∨
    (vBlocks = [] ∧ HasLowestAwaited T D chainActive s best common staller)

/-- The flags of the path are those of the claim about one block. -/
theorem missing_iff {b : ι} : Missing T D chainActive s best common b ↔
    b ∈ T.forest.path best (T.nHeight common) (T.nHeight common + blockDownloadWindow) ∧
      isWanted T D chainActive s b = true := by
  rw [Forest.mem_path, isWanted, isThere, Bool.and_eq_true_iff, Bool.not_eq_true',
    Bool.not_eq_true', Bool.or_eq_false_iff]
  constructor
  · intro h
    exact ⟨⟨h.le_best, h.above, h.inWindow⟩, ⟨h.noData, h.notActive⟩, h.notInFlight⟩
  · rintro ⟨⟨hle, habove, hwindow⟩, ⟨hdata, hactive⟩, hflight⟩
    exact ⟨hle, habove, hwindow, hdata, hactive, hflight⟩

omit [DecidableEq ι] in
/-- What is lower than a block of a path comes before it. -/
theorem mem_before {before behind : List ι} {x a : ι}
    (hpath : (before ++ x :: behind).Pairwise fun a b => T.nHeight a < T.nHeight b)
    (ha : a ∈ before ++ x :: behind) (hlt : T.nHeight a < T.nHeight x) : a ∈ before := by
  rcases List.mem_append.mp ha with hbefore | hcons
  · exact hbefore
  · rcases List.mem_cons.mp hcons with rfl | hbehind
    · exact absurd hlt (lt_irrefl _)
    · have htail := (List.pairwise_append.mp hpath).2.1
      have hgt := (List.pairwise_cons.mp htail).1 a hbehind
      omega

/-- A block that is not awaited. -/
theorem not_awaited_iff {a : ι} : isAwaited T D chainActive s a = false ↔
    D.haveData a = true ∨ chainActive.contains T a = true ∨
      s.isBlockInFlight (D.getBlockHash a) = false := by
  rw [isAwaited, isThere, Bool.and_eq_false_iff, Bool.not_eq_false', Bool.or_eq_true, or_assoc]

/-- **From the walk to the choice.** -/
theorem chosen_of_stops {before behind : List ι} {w' : Walk ι} {nodeStaller : NodeId}
    (hpath : before ++ behind = T.forest.path best (T.nHeight common)
      (min (T.nHeight best) (T.nHeight common + blockDownloadWindow + 1)))
    (h : Stops T D chainActive s count (T.nHeight common + blockDownloadWindow : ℕ) before behind
      ⟨common, [], -1, nodeStaller⟩ w') :
    Chosen T D chainActive s best common count nodeStaller w'.vBlocks w'.nodeStaller := by
  have hblocks : w'.vBlocks = before.filter (isWanted T D chainActive s) := h.vBlocks
  have hsorted : (before ++ behind).Pairwise fun a b => T.nHeight a < T.nHeight b := by
    rw [hpath]
    exact Forest.pairwise_path (F := T.forest) _ _ _
  have hmem : ∀ b, b ∈ before ++ behind ↔ T.forest.Le b best ∧ T.nHeight common < T.nHeight b ∧
      T.nHeight b ≤ min (T.nHeight best) (T.nHeight common + blockDownloadWindow + 1) := by
    intro b
    rw [hpath]
    exact Forest.mem_path
  have hon : ∀ b, Missing T D chainActive s best common b → b ∈ before ++ behind := by
    intro b hb
    have hle : T.nHeight b ≤ T.nHeight best := hb.le_best.height_le
    have hwindow := hb.inWindow
    exact (hmem b).mpr ⟨hb.le_best, hb.above, by omega⟩
  have htaken : ∀ b, Missing T D chainActive s best common b → b ∈ before → b ∈ w'.vBlocks := by
    intro b hb hbefore
    rw [hblocks]
    exact List.mem_filter.mpr ⟨hbefore, (missing_iff.mp hb).2⟩
  refine ⟨h.length_le, ?_, ?_, ?_, ?_⟩
  · rw [hblocks]
    exact (List.pairwise_append.mp hsorted).1.sublist List.filter_sublist
  · intro b hb
    rw [hblocks, List.mem_filter] at hb
    obtain ⟨hle, habove, -⟩ := (hmem b).mp (List.mem_append_left _ hb.1)
    have hwindow := h.inWindow b hb.1 hb.2
    exact missing_iff.mpr ⟨Forest.mem_path.mpr ⟨hle, habove, by exact_mod_cast hwindow⟩, hb.2⟩
  · intro hshort
    rcases h.reason with ⟨-, hend | hfull | ⟨x, hx, hinvalid⟩⟩ | ⟨⟨x, hx, -, hfar⟩, -⟩
    · -- the whole path was visited
      left
      intro b hb
      apply htaken b hb
      have hin := hon b hb
      rwa [hend, List.append_nil] at hin
    · exact absurd hfull hshort.ne
    · right
      obtain ⟨rest, rfl⟩ := List.head?_eq_some_iff.mp hx
      obtain ⟨hle, habove, -⟩ := (hmem x).mp (List.mem_append_right _ List.mem_cons_self)
      exact ⟨x, hle, habove, hinvalid, fun b hb hlt => htaken b hb (mem_before hsorted (hon b hb) hlt)⟩
    · -- everything up to the end of the window was visited
      left
      obtain ⟨rest, rfl⟩ := List.head?_eq_some_iff.mp hx
      intro b hb
      have hwindow := hb.inWindow
      exact htaken b hb (mem_before hsorted (hon b hb) (by omega))
  · rcases h.reason with ⟨hstaller, -⟩ | ⟨⟨x, hx, -, -⟩, hstaller | ⟨hnone, hstaller⟩⟩
    · exact .inl hstaller
    · exact .inl hstaller
    · obtain ⟨rest, rfl⟩ := List.head?_eq_some_iff.mp hx
      rw [waitingBehind, if_pos rfl] at hstaller
      cases hfind : before.find? (isAwaited T D chainActive s) with
      | none =>
        rw [hfind] at hstaller
        exact .inr (.inl hstaller)
      | some b =>
        rw [hfind] at hstaller
        obtain ⟨hawaited, early, late, rfl, hearly⟩ := List.find?_eq_some_iff_append.mp hfind
        right
        right
        have hsource : sourceOf D s b = w'.nodeStaller := hstaller.symm
        obtain ⟨hthere, hflight⟩ := Bool.and_eq_true_iff.mp hawaited
        rw [Bool.not_eq_true', isThere, Bool.or_eq_false_iff] at hthere
        obtain ⟨⟨other, place⟩, hlookup⟩ := Option.isSome_iff_exists.mp hflight
        rw [sourceOf, hlookup] at hsource
        have hother : other = w'.nodeStaller := hsource
        obtain ⟨hle, habove, -⟩ := (hmem b).mp (by simp)
        -- the block is below the one that the window was too small for
        have hbelow : T.nHeight b < T.nHeight x :=
          (List.pairwise_append.mp hsorted).2.2 b (by simp) x List.mem_cons_self
        obtain ⟨-, -, hx'⟩ := (hmem x).mp (List.mem_append_right _ List.mem_cons_self)
        rw [List.append_assoc, List.cons_append] at hsorted
        refine ⟨hnone, b, place, hle, habove, by omega, hthere.1, hthere.2, ?_, ?_⟩
        · rw [hlookup, hother]
        · intro a hab hcommon hne
          have hlt : T.nHeight a < T.nHeight b := by
            apply lt_of_le_of_ne hab.height_le
            intro heq
            exact hne (hab.eq_of_height heq.symm.le)
          have hin := (hmem a).mpr ⟨hab.trans hle, hcommon, by omega⟩
          rw [List.append_assoc, List.cons_append] at hin
          have hnot := hearly a (mem_before hsorted hin hlt)
          rw [Bool.not_eq_true'] at hnot
          exact not_awaited_iff.mp hnot

omit [DecidableEq ι] in
theorem startBlock_isSome {tip : ι} (hchain : chainActive.IsPath T tip) (state : CNodeState ι)
    (best : ι) : ∃ start, startBlock T chainActive state best = some start := by
  rw [startBlock]
  cases state.pindexLastCommonBlock with
  | some start => exact ⟨start, rfl⟩
  | none =>
    simp only
    rw [hchain.height_eq]
    obtain ⟨a, ha⟩ := Forest.ancestor?_isSome (F := T.forest)
      (show min (T.nHeight best) (T.nHeight tip) ≤ T.forest.height tip from min_le_right _ _)
    obtain ⟨hle, hheight⟩ := Forest.ancestor?_eq_some_iff.mp ha
    have hheight' : T.nHeight a = min (T.nHeight best) (T.nHeight tip) := hheight
    exact ⟨a, hchain.at?_eq_some_iff.mpr ⟨hle, by omega⟩⟩

/-- Nothing is chosen when the best block of the peer is the common one. -/
theorem chosen_nil (hcommon : T.nHeight best ≤ T.nHeight common) (nodeStaller : NodeId) :
    Chosen T D chainActive s best common count nodeStaller [] nodeStaller := by
  refine ⟨Nat.zero_le _, List.Pairwise.nil, ?_, ?_, .inl rfl⟩
  · intro b hb
    cases hb
  · intro _
    left
    intro b hb
    have hle : T.nHeight b ≤ T.nHeight best := hb.le_best.height_le
    have habove := hb.above
    omega

variable (D chainActive) in
/-- The walk from the common block. -/
theorem walkLoop_chosen (nodeid : NodeId) (hids : ∀ hash entry,
    s.mapBlocksInFlight.lookup hash = some entry → entry.1 ≠ -1) (hle : T.forest.Le common best)
    (hcount : 0 < count) (nodeStaller : NodeId) :
    ∃ w', walkLoop T D chainActive s nodeid count best (T.nHeight common + blockDownloadWindow)
        (min (T.nHeight best) (T.nHeight common + blockDownloadWindow + 1)) (T.nHeight best) common
        ⟨common, [], -1, nodeStaller⟩ = some w' ∧
      Chosen T D chainActive s best common count nodeStaller w'.vBlocks w'.nodeStaller := by
  have hmax : min (T.nHeight best : ℤ) (T.nHeight common + blockDownloadWindow + 1) =
      (min (T.nHeight best) (T.nHeight common + blockDownloadWindow + 1) : ℕ) := by
    push_cast
    rfl
  have hend : (T.nHeight common + blockDownloadWindow : ℤ) =
      (T.nHeight common + blockDownloadWindow : ℕ) := by
    push_cast
    rfl
  obtain ⟨before, behind, hpath, hstops⟩ := visitPath_spec T D chainActive
    (T.nHeight common + blockDownloadWindow : ℕ) nodeid hids _ ⟨common, [], -1, nodeStaller⟩ hcount
  refine ⟨_, ?_, chosen_of_stops hpath.symm hstops⟩
  rw [hmax, hend]
  exact walkLoop_eq (min_le_left _ _) _ _ _ hle (by omega)

/-- **`FindNextBlocksToDownload`.**  Nothing is asked from a peer without a best block, or with one
that has less work than the active tip.  From any other peer the blocks of `Chosen` are asked, above
the last block that it has in common with the node. -/
theorem findNextBlocksToDownload_spec (hroot : SingleRoot T) {tip : ι}
    (hchain : chainActive.IsPath T tip) (s : Downloads ι) (nodeid : NodeId) {state : CNodeState ι}
    (hstate : s.mapNodeState.lookup nodeid = some state)
    (hids : ∀ hash entry, s.mapBlocksInFlight.lookup hash = some entry → entry.1 ≠ -1)
    (count : UInt32) (nodeStaller : NodeId) :
    ∃ s' vBlocks staller,
      findNextBlocksToDownload T D chainActive s nodeid count [] nodeStaller =
        some (s', vBlocks, staller) ∧
      ((processBlockAvailability T D state).pindexBestKnownBlock = none →
        vBlocks = [] ∧ staller = nodeStaller) ∧
      ∀ best, (processBlockAvailability T D state).pindexBestKnownBlock = some best →
        (T.nChainWork best < T.nChainWork tip → vBlocks = [] ∧ staller = nodeStaller) ∧
        (T.nChainWork tip ≤ T.nChainWork best → ∃ start common,
          startBlock T chainActive (processBlockAvailability T D state) best = some start ∧
          CChain.IsFork T start best common ∧
          Chosen T D chainActive s best common count.toNat nodeStaller vBlocks staller) := by
  set known := processBlockAvailability T D state with hknown
  by_cases hcount : count = 0
  · refine ⟨s, [], nodeStaller, by rw [findNextBlocksToDownload, if_pos hcount], fun _ =>
      ⟨rfl, rfl⟩, fun best _ => ⟨fun _ => ⟨rfl, rfl⟩, fun _ => ?_⟩⟩
    obtain ⟨start, hstart⟩ := startBlock_isSome hchain known best
    obtain ⟨common, -, hfork⟩ := lastCommonAncestor_spec hroot start best
    refine ⟨start, common, hstart, hfork, Nat.zero_le _, List.Pairwise.nil, ?_, ?_, .inl rfl⟩
    · intro b hb
      cases hb
    · intro hshort
      rw [hcount] at hshort
      exact absurd hshort (Nat.lt_irrefl 0)
  · rw [findNextBlocksToDownload, if_neg hcount]
    simp only [hstate, Option.bind_eq_bind, Option.bind_some, ← hknown]
    cases hbest : known.pindexBestKnownBlock with
    | none =>
      refine ⟨_, [], nodeStaller, rfl, fun _ => ⟨rfl, rfl⟩, ?_⟩
      intro best h
      cases h
    | some best =>
      obtain ⟨start, hstart⟩ := startBlock_isSome hchain known best
      obtain ⟨common, hcommon, hfork⟩ := lastCommonAncestor_spec hroot start best
      simp only [hchain.tip_eq, Option.bind_some]
      have hpos : 0 < count.toNat := by
        rw [Nat.pos_iff_ne_zero]
        intro h
        exact hcount (UInt32.toNat_inj.mp h)
      by_cases hwork : T.nChainWork best < T.nChainWork tip
      · refine ⟨_, [], nodeStaller, by rw [if_pos hwork], fun h => (by cases h), ?_⟩
        intro best' h
        obtain rfl := Option.some.inj h
        exact ⟨fun _ => ⟨rfl, rfl⟩, fun h => absurd h (not_le.mpr hwork)⟩
      · rw [if_neg hwork, hstart, Option.bind_some, hcommon, Option.bind_some]
        by_cases hsame : common = best
        · refine ⟨_, [], nodeStaller, by rw [if_pos hsame], fun h => (by cases h), ?_⟩
          intro best' h
          obtain rfl := Option.some.inj h
          refine ⟨fun h => absurd h hwork, fun _ => ⟨start, common, hstart, hfork, ?_⟩⟩
          exact chosen_nil (by rw [hsame]) nodeStaller
        · obtain ⟨w', hwalk, hchosen⟩ :=
            walkLoop_chosen D chainActive nodeid hids hfork.2.1 hpos nodeStaller
          rw [if_neg hsame, hwalk, Option.bind_some]
          refine ⟨_, _, _, rfl, fun h => (by cases h), ?_⟩
          intro best' h
          obtain rfl := Option.some.inj h
          exact ⟨fun h => absurd h hwork, fun _ => ⟨start, common, hstart, hfork, hchosen⟩⟩

/-! ## Two peers -/

local instance neZero_lowBranch : NeZero 3 := ⟨by decide⟩

/-- A tip with the parent `0`, and a block next to it that has less work. -/
def lowBranch : BlockIndex (Fin 3) where
  pprev := ![none, some 0, some 0]
  nHeight := ![0, 1, 1]
  nChainWork := ![1, 3, 2]
  pskip := ![none, none, none]
  height_root := by decide
  height_child := by decide
  skip := by
    intro b s
    fin_cases b <;> intro hs <;> cases hs

def lowBranchData : BlockData (Fin 3) where
  getBlockHash b := (b.val : Uint256)
  nStatus := ![10, 10, 2]
  nChainTx := ![1, 2, 0]
  get _ := none

/-- The node `9` has the block next to the tip. -/
def lowBranchDownloads : Downloads (Fin 3) where
  mapNodeState := (∅ : AList fun _ : NodeId => CNodeState (Fin 3)).insert 9
    { CNodeState.create with pindexBestKnownBlock := some 2 }
  mapBlocksInFlight := ∅
  nPreferredDownload := 0
  nPeersWithValidatedDownloads := 0
  nSyncStarted := 0
  made := 0

/-- The numbers, each with the one before it as its parent. -/
def longLine : BlockIndex ℕ where
  pprev n := if n = 0 then none else some (n - 1)
  nHeight := id
  nChainWork n := n + 1
  pskip _ := none
  height_root := by
    intro b hb
    split at hb
    · assumption
    · cases hb
  height_child := by
    intro b p hp
    split at hp
    · cases hp
    · obtain rfl := Option.some.inj hp
      show b = b - 1 + 1
      omega
  skip := by simp

/-- Every block but `2` and the last one has data. -/
def longLineData : BlockData ℕ where
  getBlockHash n := (n : Uint256)
  nStatus n := if n = 2 ∨ 1025 ≤ n then 2 else 10
  nChainTx _ := 0
  get _ := none

/-- Block `1` is in flight from the node `7`, and block `2` from the node `8`. -/
def longLineDownloads : Downloads ℕ where
  mapNodeState := (((∅ : AList fun _ : NodeId => CNodeState ℕ).insert 7
    { CNodeState.create with
      vBlocksInFlight := [⟨0, 1, some 1, true⟩]
      nBlocksInFlight := 1
      nBlocksInFlightValidHeaders := 1 }).insert 8
    { CNodeState.create with
      vBlocksInFlight := [⟨1, 2, some 2, true⟩]
      nBlocksInFlight := 1
      nBlocksInFlightValidHeaders := 1 }).insert 9
    { CNodeState.create with
      pindexBestKnownBlock := some 1025
      pindexLastCommonBlock := some 0 }
  mapBlocksInFlight := AList.insert (2 : Uint256) (8, 1) (AList.insert (1 : Uint256) (7, 0) ∅)
  nPreferredDownload := 0
  nPeersWithValidatedDownloads := 2
  nSyncStarted := 0
  made := 2

theorem up_longLine : ∀ (n b : ℕ), n ≤ b → Forest.up longLine.pprev n b = some (b - n) := by
  intro n
  induction n with
  | zero =>
    intro b _
    rfl
  | succ n ih =>
    intro b hn
    have hp : longLine.pprev b = some (b - 1) := if_neg (by omega)
    rw [Forest.up, hp, Option.bind_some, ih (b - 1) (by omega)]
    congr 1
    omega

theorem path_longLine {b lo hi : ℕ} (h : hi ≤ b) :
    longLine.forest.path b lo hi = List.range' (lo + 1) (hi - lo) := by
  rw [Forest.path]
  have hsome : ∀ k ∈ List.range' (lo + 1) (hi - lo),
      longLine.forest.ancestor? k b = some k := by
    intro k hk
    rw [List.mem_range'_1] at hk
    have hle : k ≤ longLine.forest.height b := show k ≤ b by omega
    rw [Forest.ancestor?, if_pos hle]
    show Forest.up longLine.pprev (b - k) b = some k
    rw [up_longLine _ _ (by omega)]
    congr 1
    omega
  rw [List.filterMap_congr hsome]
  exact List.filterMap_some

/-- Blocks that are there, before their parents, leave everything as it is. -/
theorem foldlM_of_there : ∀ (l : List ι), (∀ b ∈ l, D.isValid b = true ∧
    isThere T D chainActive b = true ∧ D.nChainTx b = 0) →
    l.foldlM (visit T D chainActive s nodeid count nWindowEnd) w = .ok w := by
  intro l
  induction l with
  | nil =>
    intro _
    rfl
  | cons b l ih =>
    intro h
    obtain ⟨⟨hvalid, hthere, hchain⟩, hl⟩ := List.forall_mem_cons.mp h
    have hsame : { w with
        pindexLastCommonBlock := if D.nChainTx b ≠ 0 then b else w.pindexLastCommonBlock } = w := by
      rw [if_neg (not_not.mpr hchain)]
    rw [foldlM_cons_ok _ (visit_there hvalid hthere), hsame]
    exact ih hl

/-- The walk to block `1025`. -/
theorem walk_longLine : stopped ((longLine.forest.path 1025 0 1025).foldlM
    (visit longLine longLineData ⟨[some 0]⟩ longLineDownloads 9 16 1024) ⟨0, [], -1, -1⟩) =
    ⟨0, [], 8, 8⟩ := by
  have hpath : longLine.forest.path 1025 0 1025 =
      1 :: 2 :: (List.range' 3 1022 ++ [1025]) := by
    have hlow : longLine.forest.path 1025 0 2 = [1, 2] := path_longLine (by omega)
    have hmid : longLine.forest.path 1025 2 1024 = List.range' 3 1022 := path_longLine (by omega)
    have hlast : longLine.forest.path 1025 1024 1025 = [1025] := path_longLine le_rfl
    rw [← Forest.path_append (Nat.zero_le 2) (by omega : 2 ≤ 1025),
      ← Forest.path_append (by omega : 2 ≤ 1024) (by omega : 1024 ≤ 1025), hlow, hmid, hlast]
    rfl
  have hthere : ∀ b ∈ List.range' 3 1022,
      longLineData.isValid b = true ∧
        isThere longLine longLineData ⟨[some 0]⟩ b = true ∧ longLineData.nChainTx b = 0 := by
    intro b hb
    rw [List.mem_range'_1] at hb
    have hstatus : longLineData.nStatus b = 10 := if_neg (by omega)
    refine ⟨?_, ?_, rfl⟩
    · rw [BlockData.isValid, hstatus]
      decide
    · rw [isThere, BlockData.haveData, hstatus]
      rfl
  have hone : visit longLine longLineData ⟨[some 0]⟩ longLineDownloads 9 16 1024
      ⟨0, [], -1, -1⟩ 1 = .ok ⟨0, [], -1, -1⟩ := rfl
  have htwo : visit longLine longLineData ⟨[some 0]⟩ longLineDownloads 9 16 1024
      ⟨0, [], -1, -1⟩ 2 = .ok ⟨0, [], 8, -1⟩ := by
    rw [visit_awaited (by decide) (by decide)]
    rfl
  have hend : visit longLine longLineData ⟨[some 0]⟩ longLineDownloads 9 16 1024
      ⟨0, [], 8, -1⟩ 1025 = .error ⟨0, [], 8, 8⟩ := by
    rw [visit_wanted (by decide) (by decide)]
    rfl
  rw [hpath, foldlM_cons_ok _ hone, foldlM_cons_ok _ htwo, List.foldlM_append,
    foldlM_of_there _ hthere]
  exact stopped_cons_error (l := []) _ hend

theorem find_longLine : (findNextBlocksToDownload longLine longLineData ⟨[some 0]⟩ longLineDownloads
    9 16 [] (-1)).map Prod.snd = some ([], 8) := by
  have hroot : SingleRoot longLine := by
    have hzero : ∀ a, longLine.pprev a = none → a = 0 := fun a ha => longLine.height_root a ha
    intro a b ha hb
    rw [hzero a ha, hzero b hb]
  obtain ⟨common, hcommon, hle, hbest, -⟩ := lastCommonAncestor_spec hroot 0 1025
  obtain rfl : common = 0 := Forest.eq_of_le_root (F := longLine.forest) rfl hle
  have hwalk : walkLoop longLine longLineData ⟨[some 0]⟩ longLineDownloads 9 16 1025 1024 1025 1025 0
      ⟨0, [], -1, -1⟩ = some ⟨0, [], 8, 8⟩ := by
    rw [← walk_longLine]
    exact walkLoop_eq (le_refl (longLine.nHeight 1025)) 1025 0 ⟨0, [], -1, -1⟩ hbest (by decide)
  have hstate : longLineDownloads.mapNodeState.lookup 9 = some { CNodeState.create with
      pindexBestKnownBlock := some 1025
      pindexLastCommonBlock := some 0 } := rfl
  have hwork : ¬ longLine.nChainWork 1025 < longLine.nChainWork 0 := by decide
  have htip : (⟨[some 0]⟩ : CChain ℕ).tip = some 0 := rfl
  have hcount : (16 : UInt32).toNat = 16 := rfl
  have hheight : ((longLine.nHeight 0 : ℤ) + blockDownloadWindow) = 1024 := rfl
  have hmax : min (longLine.nHeight 1025 : ℤ) (1024 + 1) = 1025 := rfl
  have hfuel : longLine.nHeight 1025 = 1025 := rfl
  rw [findNextBlocksToDownload, if_neg (by decide)]
  simp only [hstate, processBlockAvailability, CNodeState.create, startBlock, htip, hcommon,
    Option.bind_eq_bind, Option.bind_some, if_true, if_neg hwork, hcount, hheight, hmax]
  rw [if_neg (by decide), hfuel, hwalk]
  rfl

/-- The blocks that are missing are not always asked for, and the staller does not always have the
lowest block of the window that is in flight. -/
theorem not_findNextBlocks_asStated :
    -- the best block of the peer has less work than the tip
    ((findNextBlocksToDownload lowBranch lowBranchData ⟨[some 0, some 1]⟩ lowBranchDownloads 9 16 []
        (-1)).map Prod.snd = some ([], -1) ∧
      Missing lowBranch lowBranchData ⟨[some 0, some 1]⟩ lowBranchDownloads 2 0 2 ∧
      ∀ b, lowBranchData.isValid b = true) ∧
    -- the lowest block that is in flight has data
    ((findNextBlocksToDownload longLine longLineData ⟨[some 0]⟩ longLineDownloads 9 16 []
        (-1)).map Prod.snd = some ([], 8) ∧
      longLineDownloads.mapBlocksInFlight.lookup (longLineData.getBlockHash 1) = some (7, 0) ∧
      longLineDownloads.mapBlocksInFlight.lookup (longLineData.getBlockHash 2) = some (8, 1)) := by
  refine ⟨⟨by rfl, ⟨by decide, by decide, by decide, by decide, by decide, by decide⟩, by decide⟩,
    find_longLine, by decide, by decide⟩

theorem singleRoot_lowBranch : SingleRoot lowBranch := by
  intro a b
  revert a b
  decide

/-- The block next to the tip is asked for as long as the tip is the root. -/
theorem findNextBlocksToDownload_spec_lowBranch :
    ∃ s' vBlocks staller common,
      findNextBlocksToDownload lowBranch lowBranchData ⟨[some 0]⟩ lowBranchDownloads 9 16 [] (-1) =
        some (s', vBlocks, staller) ∧
      Chosen lowBranch lowBranchData ⟨[some 0]⟩ lowBranchDownloads 2 common 16 (-1) vBlocks
        staller := by
  obtain ⟨s', vBlocks, staller, hrun, -, hbest⟩ := findNextBlocksToDownload_spec
    (D := lowBranchData) singleRoot_lowBranch (show CChain.IsPath lowBranch ⟨[some 0]⟩ 0 from rfl)
    lowBranchDownloads 9 rfl (fun hash entry h => by cases h) 16 (-1)
  obtain ⟨start, common, -, -, hchosen⟩ := (hbest 2 rfl).2 (by decide)
  exact ⟨s', vBlocks, staller, common, hrun, hchosen⟩

end Download
