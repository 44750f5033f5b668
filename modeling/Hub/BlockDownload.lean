/-
# The blocks that are being downloaded

Which peer was asked for which block (`libs/server/main.cpp`).  A node has a list of the blocks in
flight from it, `mapBlocksInFlight` leads from a hash to the node and to the place in its list, and
four numbers count blocks and nodes.

`Consistent` says that the map and the lists mirror each other and that the numbers are right.
`step_spec` is one call, and `always_consistent` a run: no assertion of `FinalizeNode` fails, and no
iterator dangles.
-/
import Hub.Maps
import Hub.Runs
import Hub.Transaction

namespace Download

/-! ## The code -/

abbrev NodeId := ℤ

/-- `QueuedBlock`, with the place in memory that an iterator points at. -/
structure QueuedBlock (ι : Type*) where
  place : ℕ
  hash : Uint256
  pindex : Option ι
  fValidatedHeaders : Bool
  deriving DecidableEq

/-- What `CNodeState` has about downloads. -/
structure CNodeState (ι : Type*) where
  pindexBestKnownBlock : Option ι
  hashLastUnknownBlock : Uint256
  pindexLastCommonBlock : Option ι
  fSyncStarted : Bool
  nStallingSince : ℤ
  vBlocksInFlight : List (QueuedBlock ι)
  nDownloadingSince : ℤ
  nBlocksInFlight : ℤ
  nBlocksInFlightValidHeaders : ℤ
  fPreferredDownload : Bool
  deriving DecidableEq

/-- The flags of `CNode` that `UpdatePreferredDownload` looks at. -/
structure CNode where
  fInbound : Bool
  fWhitelisted : Bool
  fOneShot : Bool
  fClient : Bool

/-- The variables that all nodes share.  Places below `made` have been used. -/
structure Downloads (ι : Type*) where
  mapNodeState : AList fun _ : NodeId => CNodeState ι
  mapBlocksInFlight : AList fun _ : Uint256 => NodeId × ℕ
  nPreferredDownload : ℤ
  nPeersWithValidatedDownloads : ℤ
  nSyncStarted : ℤ
  made : ℕ

variable {ι : Type*}

/-- The constructor of `CNodeState`. -/
def CNodeState.create : CNodeState ι where
  pindexBestKnownBlock := none
  hashLastUnknownBlock := 0
  pindexLastCommonBlock := none
  fSyncStarted := false
  nStallingSince := 0
  vBlocksInFlight := []
  nDownloadingSince := 0
  nBlocksInFlight := 0
  nBlocksInFlightValidHeaders := 0
  fPreferredDownload := false

namespace Downloads

def create : Downloads ι := ⟨∅, ∅, 0, 0, 0, 0⟩

/-- `UpdatePreferredDownload`; `none` is a null pointer. -/
def updatePreferredDownload (s : Downloads ι) (nodeid : NodeId) (node : CNode) :
    Option (Downloads ι) := do
  let state ← s.mapNodeState.lookup nodeid
  let fPreferredDownload :=
    (!node.fInbound || node.fWhitelisted) && !node.fOneShot && !node.fClient
  some { s with
    mapNodeState :=
      s.mapNodeState.insert nodeid { state with fPreferredDownload := fPreferredDownload }
    nPreferredDownload :=
      s.nPreferredDownload - state.fPreferredDownload.toInt + fPreferredDownload.toInt }

/-- `InitializeNode`; the state of a known node stays, but for its address. -/
def initializeNode (s : Downloads ι) (nodeid : NodeId) : Downloads ι :=
  if (s.mapNodeState.lookup nodeid).isSome then s
  else { s with mapNodeState := s.mapNodeState.insert nodeid CNodeState.create }

/-- `FinalizeNode`, but for what it tells the address manager; `none` is a failed assertion. -/
def finalizeNode (s : Downloads ι) (nodeid : NodeId) : Option (Downloads ι) :=
  match s.mapNodeState.lookup nodeid with
  | none => none
  | some state =>
      let s : Downloads ι := { s with
        nSyncStarted := s.nSyncStarted - state.fSyncStarted.toInt
        mapBlocksInFlight := (state.vBlocksInFlight.map QueuedBlock.hash).foldl
          (fun m hash => m.erase hash) s.mapBlocksInFlight
        nPreferredDownload := s.nPreferredDownload - state.fPreferredDownload.toInt
        nPeersWithValidatedDownloads := s.nPeersWithValidatedDownloads -
          (decide (state.nBlocksInFlightValidHeaders ≠ 0)).toInt }
      if s.nPeersWithValidatedDownloads < 0 then none
      else
        let s : Downloads ι := { s with mapNodeState := s.mapNodeState.erase nodeid }
        if s.mapNodeState.entries = [] ∧ ¬ (s.mapBlocksInFlight.entries = [] ∧
            s.nPreferredDownload = 0 ∧ s.nPeersWithValidatedDownloads = 0) then none
        else some s

/-- `MarkBlockAsReceived`; `none` is a null pointer, or an iterator that points nowhere. -/
def markBlockAsReceived (now : ℤ) (s : Downloads ι) (hash : Uint256) :
    Option (Bool × Downloads ι) :=
  match s.mapBlocksInFlight.lookup hash with
  | none => some (false, s)
  | some (nodeid, place) => do
      let state ← s.mapNodeState.lookup nodeid
      let entry ← state.vBlocksInFlight.find? fun entry => entry.place = place
      let nBlocksInFlightValidHeaders :=
        state.nBlocksInFlightValidHeaders - entry.fValidatedHeaders.toInt
      let nPeersWithValidatedDownloads :=
        if nBlocksInFlightValidHeaders = 0 ∧ entry.fValidatedHeaders then
          s.nPeersWithValidatedDownloads - 1
        else s.nPeersWithValidatedDownloads
      let nDownloadingSince :=
        if state.vBlocksInFlight.head?.map QueuedBlock.place = some place then
          max state.nDownloadingSince now
        else state.nDownloadingSince
      some (true, { s with
        mapNodeState := s.mapNodeState.insert nodeid { state with
          nBlocksInFlightValidHeaders := nBlocksInFlightValidHeaders
          nDownloadingSince := nDownloadingSince
          vBlocksInFlight := state.vBlocksInFlight.eraseP fun entry => entry.place = place
          nBlocksInFlight := state.nBlocksInFlight - 1
          nStallingSince := 0 }
        nPeersWithValidatedDownloads := nPeersWithValidatedDownloads
        mapBlocksInFlight := s.mapBlocksInFlight.erase hash })

/-- `MarkBlockAsInFlight`, behind its call of `MarkBlockAsReceived`. -/
def addInFlight (now : ℤ) (s : Downloads ι) (nodeid : NodeId) (hash : Uint256)
    (pindex : Option ι) : Option (Downloads ι) := do
  let state ← s.mapNodeState.lookup nodeid
  let newentry : QueuedBlock ι := ⟨s.made, hash, pindex, pindex.isSome⟩
  let nBlocksInFlight := state.nBlocksInFlight + 1
  let nBlocksInFlightValidHeaders :=
    state.nBlocksInFlightValidHeaders + newentry.fValidatedHeaders.toInt
  some { s with
    mapNodeState := s.mapNodeState.insert nodeid { state with
      vBlocksInFlight := state.vBlocksInFlight ++ [newentry]
      nBlocksInFlight := nBlocksInFlight
      nBlocksInFlightValidHeaders := nBlocksInFlightValidHeaders
      nDownloadingSince := if nBlocksInFlight = 1 then now else state.nDownloadingSince }
    nPeersWithValidatedDownloads :=
      if nBlocksInFlightValidHeaders = 1 ∧ pindex.isSome then s.nPeersWithValidatedDownloads + 1
      else s.nPeersWithValidatedDownloads
    mapBlocksInFlight := s.mapBlocksInFlight.insert hash (nodeid, s.made)
    made := s.made + 1 }

/-- `MarkBlockAsInFlight`; `none` is a failed assertion. -/
def markBlockAsInFlight (now : ℤ) (s : Downloads ι) (nodeid : NodeId) (hash : Uint256)
    (pindex : Option ι) : Option (Downloads ι) :=
  if (s.mapNodeState.lookup nodeid).isSome then do
    let (_, s) ← s.markBlockAsReceived now hash
    s.addInFlight now nodeid hash pindex
  else none

/-- `IsBlockInFlight`. -/
def isBlockInFlight (s : Downloads ι) (hash : Uint256) : Bool :=
  (s.mapBlocksInFlight.lookup hash).isSome

end Downloads

/-! ## Calls -/

inductive Call (ι : Type*)
  | initializeNode (nodeid : NodeId)
  | finalizeNode (nodeid : NodeId)
  | markBlockAsInFlight (now : ℤ) (nodeid : NodeId) (hash : Uint256) (pindex : Option ι)
  | markBlockAsReceived (now : ℤ) (hash : Uint256)
  | updatePreferredDownload (nodeid : NodeId) (node : CNode)

def step (s : Downloads ι) : Call ι → Option (Downloads ι)
  | .initializeNode nodeid => some (s.initializeNode nodeid)
  | .finalizeNode nodeid => s.finalizeNode nodeid
  | .markBlockAsInFlight now nodeid hash pindex => s.markBlockAsInFlight now nodeid hash pindex
  | .markBlockAsReceived now hash => (s.markBlockAsReceived now hash).map Prod.snd
  | .updatePreferredDownload nodeid node => s.updatePreferredDownload nodeid node

/-- The call is about a node that exists. -/
def OnExisting (s : Downloads ι) : Call ι → Prop
  | .initializeNode _ => True
  | .finalizeNode nodeid => (s.mapNodeState.lookup nodeid).isSome
  | .markBlockAsInFlight _ nodeid _ _ => (s.mapNodeState.lookup nodeid).isSome
  | .markBlockAsReceived _ _ => True
  | .updatePreferredDownload nodeid _ => (s.mapNodeState.lookup nodeid).isSome

instance (s : Downloads ι) : ∀ c, Decidable (OnExisting s c)
  | .initializeNode _ | .markBlockAsReceived _ _ => .isTrue trivial
  | .finalizeNode nodeid | .markBlockAsInFlight _ nodeid _ _ | .updatePreferredDownload nodeid _ =>
      inferInstanceAs (Decidable ((s.mapNodeState.lookup nodeid).isSome = true))

/-! ## The invariant -/

/-- A block with validated headers is in flight from the node. -/
def CNodeState.hasValidated (state : CNodeState ι) : Bool :=
  state.vBlocksInFlight.any QueuedBlock.fValidatedHeaders

/-- The counters of a node are right, and its entries are at different places. -/
structure CNodeState.Counted (state : CNodeState ι) : Prop where
  nBlocksInFlight : state.nBlocksInFlight = state.vBlocksInFlight.length
  nBlocksInFlightValidHeaders :
    state.nBlocksInFlightValidHeaders = state.vBlocksInFlight.countP QueuedBlock.fValidatedHeaders
  places : (state.vBlocksInFlight.map QueuedBlock.place).Nodup

/-- An entry with the hash is in flight from the node, at the place. -/
def InFlightAt (s : Downloads ι) (hash : Uint256) (nodeid : NodeId) (place : ℕ) : Prop :=
  ∃ state, s.mapNodeState.lookup nodeid = some state ∧
    ∃ entry ∈ state.vBlocksInFlight, entry.place = place ∧ entry.hash = hash

/-- The map and the lists mirror each other, and all counters are right. -/
structure Consistent (s : Downloads ι) : Prop where
  mirrored : ∀ hash nodeid place,
    s.mapBlocksInFlight.lookup hash = some (nodeid, place) ↔ InFlightAt s hash nodeid place
  counted : ∀ nodeid state, s.mapNodeState.lookup nodeid = some state → state.Counted
  fresh : ∀ nodeid state, s.mapNodeState.lookup nodeid = some state →
    ∀ entry ∈ state.vBlocksInFlight, entry.place < s.made
  nPeersWithValidatedDownloads : s.nPeersWithValidatedDownloads =
    (s.mapNodeState.entries.countP fun e => e.2.hasValidated : ℕ)
  nPreferredDownload : s.nPreferredDownload =
    (s.mapNodeState.entries.countP fun e => e.2.fPreferredDownload : ℕ)

variable {s s' : Downloads ι} {nodeid : NodeId} {state state' : CNodeState ι} {hash : Uint256}

/-- **One entry for a hash**, among all nodes. -/
theorem Consistent.entry_unique (h : Consistent s) {nodeid' : NodeId} {entry entry' : QueuedBlock ι}
    (hstate : s.mapNodeState.lookup nodeid = some state) (hentry : entry ∈ state.vBlocksInFlight)
    (hstate' : s.mapNodeState.lookup nodeid' = some state')
    (hentry' : entry' ∈ state'.vBlocksInFlight) (hhash : entry.hash = entry'.hash) :
    nodeid = nodeid' ∧ entry = entry' := by
  have hmap := (h.mirrored entry.hash nodeid entry.place).mpr ⟨state, hstate, entry, hentry, rfl, rfl⟩
  have hmap' := (h.mirrored entry.hash nodeid' entry'.place).mpr
    ⟨state', hstate', entry', hentry', rfl, hhash.symm⟩
  obtain ⟨rfl, hplace⟩ := Prod.mk.inj (Option.some.inj (hmap.symm.trans hmap'))
  obtain rfl := Option.some.inj (hstate.symm.trans hstate')
  exact ⟨rfl, List.inj_on_of_nodup_map (h.counted _ _ hstate).places hentry hentry' hplace⟩

/-! ## One node changes -/

/-- The state of one node is replaced, with the entries of the map for its blocks. -/
theorem Consistent.replace (h : Consistent s) (hstate : s.mapNodeState.lookup nodeid = some state)
    (hnodes : s'.mapNodeState = s.mapNodeState.insert nodeid state') (hcounted : state'.Counted)
    (hself : ∀ hash place, s'.mapBlocksInFlight.lookup hash = some (nodeid, place) ↔
      ∃ entry ∈ state'.vBlocksInFlight, entry.place = place ∧ entry.hash = hash)
    (hother : ∀ hash other place, other ≠ nodeid →
      (s'.mapBlocksInFlight.lookup hash = some (other, place) ↔
        s.mapBlocksInFlight.lookup hash = some (other, place)))
    (hmade : s.made ≤ s'.made) (hfresh : ∀ entry ∈ state'.vBlocksInFlight, entry.place < s'.made)
    (hpeers : s'.nPeersWithValidatedDownloads = s.nPeersWithValidatedDownloads -
      state.hasValidated.toInt + state'.hasValidated.toInt)
    (hpreferred : s'.nPreferredDownload = s.nPreferredDownload -
      state.fPreferredDownload.toInt + state'.fPreferredDownload.toInt) : Consistent s' where
  mirrored := by
    intro hash other place
    by_cases hne : other = nodeid
    · subst hne
      rw [hself, InFlightAt, hnodes, AList.lookup_insert]
      constructor
      · intro hentry
        exact ⟨state', rfl, hentry⟩
      · rintro ⟨_, hsome, hentry⟩
        obtain rfl := Option.some.inj hsome
        exact hentry
    · rw [hother hash other place hne, h.mirrored, InFlightAt, InFlightAt, hnodes,
        AList.lookup_insert_ne hne]
  counted := by
    intro other st hst
    rw [hnodes] at hst
    by_cases hne : other = nodeid
    · subst hne
      rw [AList.lookup_insert] at hst
      obtain rfl := Option.some.inj hst
      exact hcounted
    · rw [AList.lookup_insert_ne hne] at hst
      exact h.counted other st hst
  fresh := by
    intro other st hst entry hentry
    rw [hnodes] at hst
    by_cases hne : other = nodeid
    · subst hne
      rw [AList.lookup_insert] at hst
      obtain rfl := Option.some.inj hst
      exact hfresh entry hentry
    · rw [AList.lookup_insert_ne hne] at hst
      exact lt_of_lt_of_le (h.fresh other st hst entry hentry) hmade
  nPeersWithValidatedDownloads := by
    rw [hpeers, hnodes, Maps.countP_insert CNodeState.hasValidated hstate,
      h.nPeersWithValidatedDownloads]
  nPreferredDownload := by
    rw [hpreferred, hnodes, Maps.countP_insert CNodeState.fPreferredDownload hstate,
      h.nPreferredDownload]

/-- What the map has for a node that exists. -/
theorem Consistent.lookup_iff (h : Consistent s)
    (hstate : s.mapNodeState.lookup nodeid = some state) (hash : Uint256) (place : ℕ) :
    s.mapBlocksInFlight.lookup hash = some (nodeid, place) ↔
      ∃ entry ∈ state.vBlocksInFlight, entry.place = place ∧ entry.hash = hash := by
  rw [h.mirrored, InFlightAt]
  constructor
  · rintro ⟨_, hsome, hentry⟩
    obtain rfl := Option.some.inj (hstate.symm.trans hsome)
    exact hentry
  · intro hentry
    exact ⟨state, hstate, hentry⟩

/-- A node has a validated entry when its counter is not zero. -/
theorem CNodeState.Counted.hasValidated_eq (h : state.Counted) :
    state.hasValidated = decide (state.nBlocksInFlightValidHeaders ≠ 0) := by
  rw [h.nBlocksInFlightValidHeaders, CNodeState.hasValidated, Bool.eq_iff_iff, decide_eq_true_eq,
    List.any_eq_true, ← List.countP_pos_iff]
  omega

theorem updatePreferredDownload_spec (h : Consistent s) (node : CNode)
    (hnode : (s.mapNodeState.lookup nodeid).isSome) :
    ∃ s', s.updatePreferredDownload nodeid node = some s' ∧ Consistent s' := by
  obtain ⟨state, hstate⟩ := Option.isSome_iff_exists.mp hnode
  rw [Downloads.updatePreferredDownload, hstate]
  refine ⟨_, rfl, h.replace hstate rfl ?_ ?_ (fun _ _ _ _ => Iff.rfl) le_rfl
    (fun entry hentry => h.fresh _ _ hstate entry hentry) ?_ rfl⟩
  · have hcounted := h.counted _ _ hstate
    exact ⟨hcounted.nBlocksInFlight, hcounted.nBlocksInFlightValidHeaders, hcounted.places⟩
  · intro hash place
    exact h.lookup_iff hstate hash place
  · show s.nPeersWithValidatedDownloads = s.nPeersWithValidatedDownloads -
      state.hasValidated.toInt + state.hasValidated.toInt
    omega

theorem initializeNode_spec (h : Consistent s) (nodeid : NodeId) :
    Consistent (s.initializeNode nodeid) := by
  unfold Downloads.initializeNode
  split_ifs with hknown
  · exact h
  · have hnone : s.mapNodeState.lookup nodeid = none := by simpa using hknown
    refine ⟨fun hash other place => ?_, fun other st hst => ?_, fun other st hst => ?_, ?_, ?_⟩
    · rw [h.mirrored, InFlightAt, InFlightAt]
      by_cases hne : other = nodeid
      · subst hne
        rw [AList.lookup_insert, hnone]
        -- neither side has entries
        constructor
        · rintro ⟨_, hsome, -⟩
          cases hsome
        · rintro ⟨_, hsome, entry, hentry, -⟩
          obtain rfl := Option.some.inj hsome
          cases hentry
      · rw [AList.lookup_insert_ne hne]
    · by_cases hne : other = nodeid
      · subst hne
        rw [AList.lookup_insert] at hst
        obtain rfl := Option.some.inj hst
        exact ⟨rfl, rfl, List.nodup_nil⟩
      · rw [AList.lookup_insert_ne hne] at hst
        exact h.counted other st hst
    · by_cases hne : other = nodeid
      · subst hne
        rw [AList.lookup_insert] at hst
        obtain rfl := Option.some.inj hst
        intro entry hentry
        cases hentry
      · rw [AList.lookup_insert_ne hne] at hst
        exact h.fresh other st hst
    · rw [Maps.countP_insert_of_none CNodeState.hasValidated hnone, h.nPeersWithValidatedDownloads]
      exact (Int.add_zero _).symm
    · rw [Maps.countP_insert_of_none CNodeState.fPreferredDownload hnone, h.nPreferredDownload]
      exact (Int.add_zero _).symm

/-! ## A block arrives -/

/-- What the map leads to, with the entries before and behind it. -/
theorem Consistent.exists_entry (h : Consistent s) {place : ℕ}
    (hmap : s.mapBlocksInFlight.lookup hash = some (nodeid, place)) :
    ∃ state before entry behind, s.mapNodeState.lookup nodeid = some state ∧
      state.vBlocksInFlight = before ++ entry :: behind ∧ entry.place = place ∧
      entry.hash = hash ∧
      state.vBlocksInFlight.find? (fun e => e.place = place) = some entry ∧
      state.vBlocksInFlight.eraseP (fun e => e.place = place) = before ++ behind := by
  obtain ⟨state, hstate, entry, hmem, hplace, hhash⟩ := (h.mirrored hash nodeid place).mp hmap
  have hplaces := (h.counted _ _ hstate).places
  obtain ⟨found, before, behind, hbefore, hfound, hsplit, herase⟩ :=
    List.exists_of_eraseP (p := fun e : QueuedBlock ι => decide (e.place = place)) hmem
      (decide_eq_true hplace)
  have hfoundMem : found ∈ state.vBlocksInFlight := by
    rw [hsplit]
    simp
  have hsame : found = entry :=
    List.inj_on_of_nodup_map hplaces hfoundMem hmem
      ((of_decide_eq_true hfound).trans hplace.symm)
  subst hsame
  refine ⟨state, before, found, behind, hstate, hsplit, hplace, hhash, ?_, herase⟩
  have hnone : before.find? (fun e => e.place = place) = none :=
    List.find?_eq_none.mpr hbefore
  rw [hsplit, List.find?_append, hnone, Option.none_or]
  exact List.find?_cons_of_pos hfound

/-- The counters of a node without one of its entries. -/
theorem CNodeState.Counted.without (h : state.Counted) {before behind : List (QueuedBlock ι)}
    {entry : QueuedBlock ι} (hsplit : state.vBlocksInFlight = before ++ entry :: behind)
    (hlist : state'.vBlocksInFlight = before ++ behind)
    (hall : state'.nBlocksInFlight = state.nBlocksInFlight - 1)
    (hvalid : state'.nBlocksInFlightValidHeaders =
      state.nBlocksInFlightValidHeaders - entry.fValidatedHeaders.toInt) : state'.Counted where
  nBlocksInFlight := by
    rw [hall, h.nBlocksInFlight, hsplit, hlist, List.length_append, List.length_append,
      List.length_cons]
    omega
  nBlocksInFlightValidHeaders := by
    rw [hvalid, h.nBlocksInFlightValidHeaders, hsplit, hlist, List.countP_append,
      List.countP_append, List.countP_cons]
    cases entry.fValidatedHeaders with
    | false =>
      rw [if_neg Bool.false_ne_true, Bool.toInt_false]
      omega
    | true =>
      rw [if_pos rfl, Bool.toInt_true]
      omega
  places := by
    have hplaces := h.places
    rw [hsplit] at hplaces
    rw [hlist]
    exact hplaces.sublist
      (List.Sublist.map _ ((List.Sublist.refl _).append (List.sublist_cons_self _ _)))

/-- The peers with validated downloads, when a node loses an entry. -/
theorem CNodeState.Counted.peers_without (h : state.Counted) (h' : state'.Counted)
    {fValidatedHeaders : Bool} (hvalid : state'.nBlocksInFlightValidHeaders =
      state.nBlocksInFlightValidHeaders - fValidatedHeaders.toInt) (n : ℤ) :
    (if state.nBlocksInFlightValidHeaders - fValidatedHeaders.toInt = 0 ∧ fValidatedHeaders then
      n - 1 else n) = n - state.hasValidated.toInt + state'.hasValidated.toInt := by
  rw [h.hasValidated_eq, h'.hasValidated_eq, hvalid]
  have hcount := h.nBlocksInFlightValidHeaders
  have hcount' := h'.nBlocksInFlightValidHeaders
  cases fValidatedHeaders with
  | false =>
    rw [if_neg (fun hc => Bool.false_ne_true hc.2), Bool.toInt_false, Int.sub_zero]
    omega
  | true =>
    rw [hvalid, Bool.toInt_true] at hcount'
    have hpos : state.nBlocksInFlightValidHeaders ≠ 0 := by omega
    rw [Bool.toInt_true, decide_eq_true hpos, Bool.toInt_true]
    by_cases hlast : state.nBlocksInFlightValidHeaders - 1 = 0
    · rw [if_pos ⟨hlast, rfl⟩, decide_eq_false (not_not.mpr hlast), Bool.toInt_false]
      omega
    · rw [if_neg (fun hc => hlast hc.1), decide_eq_true hlast, Bool.toInt_true]
      omega

/-- **`MarkBlockAsReceived`** takes out the entry with the hash, if there is one. -/
theorem markBlockAsReceived_spec (h : Consistent s) (now : ℤ) (hash : Uint256) :
    ∃ b s', s.markBlockAsReceived now hash = some (b, s') ∧ Consistent s' ∧
      s'.mapBlocksInFlight.lookup hash = none ∧
      (∀ nodeid, (s'.mapNodeState.lookup nodeid).isSome = (s.mapNodeState.lookup nodeid).isSome) := by
  unfold Downloads.markBlockAsReceived
  cases hmap : s.mapBlocksInFlight.lookup hash with
  | none => exact ⟨false, s, rfl, h, hmap, fun _ => rfl⟩
  | some found =>
    obtain ⟨nodeid, place⟩ := found
    obtain ⟨state, before, entry, behind, hstate, hsplit, hplace, hhash, hfind, herase⟩ :=
      h.exists_entry hmap
    have hcounted := h.counted _ _ hstate
    simp only
    rw [hstate]
    simp only [Option.bind_eq_bind, Option.bind_some]
    rw [hfind]
    simp only [Option.bind_some]
    rw [herase]
    refine ⟨true, _, rfl, ?_, AList.lookup_erase _ _, fun other => ?_⟩
    · have hcounted' : CNodeState.Counted { state with
          nBlocksInFlightValidHeaders :=
            state.nBlocksInFlightValidHeaders - entry.fValidatedHeaders.toInt
          nDownloadingSince :=
            if state.vBlocksInFlight.head?.map QueuedBlock.place = some place then
              max state.nDownloadingSince now
            else state.nDownloadingSince
          vBlocksInFlight := before ++ behind
          nBlocksInFlight := state.nBlocksInFlight - 1
          nStallingSince := 0 } := hcounted.without hsplit rfl rfl rfl
      have hleft : ∀ e ∈ before ++ behind, e ∈ state.vBlocksInFlight := by
        intro e he
        rw [hsplit]
        simp only [List.mem_append, List.mem_cons] at he ⊢
        tauto
      have hothers : ∀ e ∈ before ++ behind, e.hash ≠ hash := by
        intro e he heq
        have hmem := hleft e he
        have hentry : entry ∈ state.vBlocksInFlight := by
          rw [hsplit]
          simp
        obtain ⟨-, rfl⟩ := h.entry_unique hstate hmem hstate hentry (heq.trans hhash.symm)
        have hplaces := hcounted.places
        rw [hsplit, List.map_append, List.map_cons, List.nodup_middle, List.nodup_cons] at hplaces
        apply hplaces.1
        rw [← List.map_append]
        exact List.mem_map_of_mem he
      refine h.replace hstate rfl hcounted' (fun hash' place' => ?_) (fun hash' other place' hne => ?_)
        le_rfl (fun e he => h.fresh _ _ hstate e (hleft e he)) ?_ ?_
      · by_cases hsame : hash' = hash
        · subst hsame
          rw [AList.lookup_erase]
          constructor
          · intro hnone
            cases hnone
          · rintro ⟨e, he, -, heq⟩
            exact absurd heq (hothers e he)
        · rw [AList.lookup_erase_ne hsame, h.lookup_iff hstate, hsplit]
          constructor
          · rintro ⟨e, he, hp, heq⟩
            refine ⟨e, ?_, hp, heq⟩
            rcases List.mem_append.mp he with he | he
            · exact List.mem_append_left _ he
            · rcases List.mem_cons.mp he with rfl | he
              · exact absurd (heq.symm.trans hhash) hsame
              · exact List.mem_append_right _ he
          · rintro ⟨e, he, hp, heq⟩
            refine ⟨e, ?_, hp, heq⟩
            rw [← hsplit]
            exact hleft e he
      · by_cases hsame : hash' = hash
        · subst hsame
          rw [AList.lookup_erase, hmap]
          constructor
          · intro hnone
            cases hnone
          · intro hsome
            exact absurd (Prod.mk.inj (Option.some.inj hsome)).1.symm hne
        · rw [AList.lookup_erase_ne hsame]
      · exact hcounted.peers_without hcounted' rfl _
      · show s.nPreferredDownload = s.nPreferredDownload -
          state.fPreferredDownload.toInt + state.fPreferredDownload.toInt
        omega
    · by_cases hne : other = nodeid
      · subst hne
        simp only
        rw [AList.lookup_insert, hstate]
        rfl
      · simp only
        rw [AList.lookup_insert_ne hne]

/-! ## A block is asked for -/

/-- The counters of a node with one more entry. -/
theorem CNodeState.Counted.with (h : state.Counted) {entry : QueuedBlock ι}
    (hplace : ∀ e ∈ state.vBlocksInFlight, e.place ≠ entry.place)
    (hlist : state'.vBlocksInFlight = state.vBlocksInFlight ++ [entry])
    (hall : state'.nBlocksInFlight = state.nBlocksInFlight + 1)
    (hvalid : state'.nBlocksInFlightValidHeaders =
      state.nBlocksInFlightValidHeaders + entry.fValidatedHeaders.toInt) : state'.Counted where
  nBlocksInFlight := by
    rw [hall, h.nBlocksInFlight, hlist, List.length_append, List.length_singleton]
    omega
  nBlocksInFlightValidHeaders := by
    rw [hvalid, h.nBlocksInFlightValidHeaders, hlist, List.countP_append, List.countP_singleton]
    cases entry.fValidatedHeaders with
    | false =>
      rw [if_neg Bool.false_ne_true, Bool.toInt_false]
      omega
    | true =>
      rw [if_pos rfl, Bool.toInt_true]
      omega
  places := by
    rw [hlist, List.map_append, List.map_singleton, List.nodup_append]
    refine ⟨h.places, List.nodup_singleton _, fun a ha b hb => ?_⟩
    obtain ⟨e, he, rfl⟩ := List.mem_map.mp ha
    obtain rfl := List.mem_singleton.mp hb
    exact hplace e he

/-- The peers with validated downloads, when a node gets an entry. -/
theorem CNodeState.Counted.peers_with (h : state.Counted) (h' : state'.Counted)
    {fValidatedHeaders : Bool} (hvalid : state'.nBlocksInFlightValidHeaders =
      state.nBlocksInFlightValidHeaders + fValidatedHeaders.toInt) (n : ℤ) :
    (if state.nBlocksInFlightValidHeaders + fValidatedHeaders.toInt = 1 ∧ fValidatedHeaders then
      n + 1 else n) = n - state.hasValidated.toInt + state'.hasValidated.toInt := by
  rw [h.hasValidated_eq, h'.hasValidated_eq, hvalid]
  have hcount := h.nBlocksInFlightValidHeaders
  have hcount' := h'.nBlocksInFlightValidHeaders
  cases fValidatedHeaders with
  | false =>
    rw [if_neg (fun hc => Bool.false_ne_true hc.2), Bool.toInt_false, Int.add_zero]
    omega
  | true =>
    have hpos : state.nBlocksInFlightValidHeaders + 1 ≠ 0 := by omega
    rw [Bool.toInt_true, decide_eq_true hpos, Bool.toInt_true]
    by_cases hfirst : state.nBlocksInFlightValidHeaders = 0
    · rw [hfirst, if_pos ⟨rfl, rfl⟩, decide_eq_false (not_not.mpr rfl), Bool.toInt_false]
      omega
    · rw [if_neg (by omega), decide_eq_true hfirst, Bool.toInt_true]
      omega

/-- An entry for a hash that is not in flight. -/
theorem addInFlight_spec (h : Consistent s) (now : ℤ) (hhash : s.mapBlocksInFlight.lookup hash = none)
    (pindex : Option ι) (hnode : (s.mapNodeState.lookup nodeid).isSome) :
    ∃ s', s.addInFlight now nodeid hash pindex = some s' ∧ Consistent s' := by
  obtain ⟨state, hstate⟩ := Option.isSome_iff_exists.mp hnode
  have hcounted := h.counted _ _ hstate
  have hfresh := h.fresh _ _ hstate
  rw [Downloads.addInFlight, hstate]
  simp only [Option.bind_eq_bind, Option.bind_some]
  have hcounted' : CNodeState.Counted { state with
      vBlocksInFlight := state.vBlocksInFlight ++ [⟨s.made, hash, pindex, pindex.isSome⟩]
      nBlocksInFlight := state.nBlocksInFlight + 1
      nBlocksInFlightValidHeaders := state.nBlocksInFlightValidHeaders + pindex.isSome.toInt
      nDownloadingSince :=
        if state.nBlocksInFlight + 1 = 1 then now else state.nDownloadingSince } :=
    hcounted.with (fun e he => (hfresh e he).ne) rfl rfl rfl
  refine ⟨_, rfl, h.replace hstate rfl hcounted' (fun hash' place' => ?_)
    (fun hash' other place' hne => ?_) (Nat.le_succ _) (fun e he => ?_)
    (hcounted.peers_with hcounted' rfl _) ?_⟩
  · by_cases hsame : hash' = hash
    · subst hsame
      rw [AList.lookup_insert]
      constructor
      · intro hsome
        obtain ⟨-, rfl⟩ := Prod.mk.inj (Option.some.inj hsome)
        exact ⟨_, List.mem_append_right _ (List.mem_singleton_self _), rfl, rfl⟩
      · rintro ⟨e, he, rfl, heq⟩
        rcases List.mem_append.mp he with he | he
        · have hmap := (h.lookup_iff hstate e.hash e.place).mpr ⟨e, he, rfl, rfl⟩
          rw [heq, hhash] at hmap
          cases hmap
        · rw [List.mem_singleton.mp he]
    · rw [AList.lookup_insert_ne hsame, h.lookup_iff hstate]
      constructor
      · rintro ⟨e, he, hp, heq⟩
        exact ⟨e, List.mem_append_left _ he, hp, heq⟩
      · rintro ⟨e, he, hp, heq⟩
        rcases List.mem_append.mp he with he | he
        · exact ⟨e, he, hp, heq⟩
        · rw [List.mem_singleton.mp he] at heq
          exact absurd heq.symm hsame
  · by_cases hsame : hash' = hash
    · subst hsame
      rw [AList.lookup_insert, hhash]
      constructor
      · intro hsome
        exact absurd (Prod.mk.inj (Option.some.inj hsome)).1.symm hne
      · intro hnone
        cases hnone
    · rw [AList.lookup_insert_ne hsame]
  · rcases List.mem_append.mp he with he | he
    · exact lt_trans (hfresh e he) (Nat.lt_succ_self _)
    · rw [List.mem_singleton.mp he]
      exact Nat.lt_succ_self _
  · show s.nPreferredDownload = s.nPreferredDownload -
      state.fPreferredDownload.toInt + state.fPreferredDownload.toInt
    omega

/-- **`MarkBlockAsInFlight`** moves the block to the node. -/
theorem markBlockAsInFlight_spec (h : Consistent s) (now : ℤ) (hash : Uint256) (pindex : Option ι)
    (hnode : (s.mapNodeState.lookup nodeid).isSome) :
    ∃ s', s.markBlockAsInFlight now nodeid hash pindex = some s' ∧ Consistent s' := by
  obtain ⟨b, t, hreceived, ht, hnone, hsame⟩ := markBlockAsReceived_spec h now hash
  obtain ⟨s', hadd, hs'⟩ := addInFlight_spec ht now hnone pindex ((hsame nodeid).trans hnode)
  refine ⟨s', ?_, hs'⟩
  rw [Downloads.markBlockAsInFlight, if_pos hnode, hreceived]
  exact hadd

/-! ## A node leaves -/

/-- What is left in the map when the hashes of a list are taken out. -/
theorem lookup_foldl_erase (hashes : List Uint256) (m : AList fun _ : Uint256 => NodeId × ℕ)
    (hash : Uint256) : (hashes.foldl (fun m hash => m.erase hash) m).lookup hash =
      if hash ∈ hashes then none else m.lookup hash := by
  induction hashes generalizing m with
  | nil => rfl
  | cons x hashes ih =>
    rw [List.foldl_cons, ih]
    by_cases hmem : hash ∈ hashes
    · rw [if_pos hmem, if_pos (List.mem_cons_of_mem _ hmem)]
    · rw [if_neg hmem]
      by_cases hx : hash = x
      · subst hx
        rw [AList.lookup_erase, if_pos List.mem_cons_self]
      · rw [AList.lookup_erase_ne hx, if_neg (by simp [hx, hmem])]

/-- **`FinalizeNode`** takes out the node and its blocks, and its assertions hold. -/
theorem finalizeNode_spec (h : Consistent s) (hnode : (s.mapNodeState.lookup nodeid).isSome) :
    ∃ s', s.finalizeNode nodeid = some s' ∧ Consistent s' := by
  obtain ⟨state, hstate⟩ := Option.isSome_iff_exists.mp hnode
  have hvalid := Maps.countP_erase CNodeState.hasValidated hstate
  have hpreferred := Maps.countP_erase CNodeState.fPreferredDownload hstate
  rw [(h.counted _ _ hstate).hasValidated_eq, ← h.nPeersWithValidatedDownloads] at hvalid
  rw [← h.nPreferredDownload] at hpreferred
  -- the state that is left
  have hleft : Consistent { s with
      mapNodeState := s.mapNodeState.erase nodeid
      nSyncStarted := s.nSyncStarted - state.fSyncStarted.toInt
      mapBlocksInFlight := (state.vBlocksInFlight.map QueuedBlock.hash).foldl
        (fun m hash => m.erase hash) s.mapBlocksInFlight
      nPreferredDownload := s.nPreferredDownload - state.fPreferredDownload.toInt
      nPeersWithValidatedDownloads := s.nPeersWithValidatedDownloads -
        (decide (state.nBlocksInFlightValidHeaders ≠ 0)).toInt } := by
    have hkeep : ∀ {other st}, (s.mapNodeState.erase nodeid).lookup other = some st →
        other ≠ nodeid ∧ s.mapNodeState.lookup other = some st := by
      intro other st hst
      have hne : other ≠ nodeid := by
        rintro rfl
        rw [AList.lookup_erase] at hst
        cases hst
      rw [AList.lookup_erase_ne hne] at hst
      exact ⟨hne, hst⟩
    refine ⟨fun hash other place => ?_, fun other st hst => h.counted other st (hkeep hst).2,
      fun other st hst => h.fresh other st (hkeep hst).2, hvalid.symm, hpreferred.symm⟩
    simp only
    rw [lookup_foldl_erase, InFlightAt]
    constructor
    · intro hsome
      split_ifs at hsome with hmem
      obtain ⟨st, hst, entry, hentry, hplace, heq⟩ := (h.mirrored hash other place).mp hsome
      have hne : other ≠ nodeid := by
        rintro rfl
        obtain rfl := Option.some.inj (hstate.symm.trans hst)
        exact hmem (List.mem_map.mpr ⟨entry, hentry, heq⟩)
      exact ⟨st, (AList.lookup_erase_ne hne).trans hst, entry, hentry, hplace, heq⟩
    · rintro ⟨st, hst, entry, hentry, rfl, rfl⟩
      obtain ⟨hne, hst⟩ := hkeep hst
      rw [if_neg, h.mirrored]
      · exact ⟨st, hst, entry, hentry, rfl, rfl⟩
      · intro hmem
        obtain ⟨entry', hentry', heq⟩ := List.mem_map.mp hmem
        exact hne (h.entry_unique hst hentry hstate hentry' heq.symm).1
  refine ⟨_, ?_, hleft⟩
  unfold Downloads.finalizeNode
  rw [hstate]
  simp only
  rw [if_neg (by omega), if_neg]
  rintro ⟨hempty, hwrong⟩
  apply hwrong
  refine ⟨?_, ?_, ?_⟩
  · -- an entry would be in flight from a node
    apply List.eq_nil_iff_forall_not_mem.mpr
    rintro ⟨hash, other, place⟩ hmem
    have hlookup := AList.mem_lookup_iff.mpr hmem
    obtain ⟨st, hst, -⟩ := (hleft.mirrored hash other place).mp hlookup
    have hnone : (s.mapNodeState.erase nodeid).lookup other = none := by
      rw [AList.lookup, hempty]
      rfl
    rw [hnone] at hst
    cases hst
  · have hcount := hleft.nPreferredDownload
    simp only at hcount
    rw [hcount, hempty]
    rfl
  · have hcount := hleft.nPeersWithValidatedDownloads
    simp only at hcount
    rw [hcount, hempty]
    rfl

/-! ## Runs -/

/-- **One call** on an existing node fails nowhere and keeps everything consistent. -/
theorem step_spec (s : Downloads ι) (call : Call ι) (h : Consistent s) (hcall : OnExisting s call) :
    ∃ s', step s call = some s' ∧ Consistent s' := by
  cases call with
  | initializeNode nodeid => exact ⟨_, rfl, initializeNode_spec h nodeid⟩
  | finalizeNode nodeid => exact finalizeNode_spec h hcall
  | markBlockAsInFlight now nodeid hash pindex =>
    exact markBlockAsInFlight_spec h now hash pindex hcall
  | markBlockAsReceived now hash =>
    obtain ⟨b, s', hrun, hs', -⟩ := markBlockAsReceived_spec h now hash
    refine ⟨s', ?_, hs'⟩
    rw [step, hrun]
    rfl
  | updatePreferredDownload nodeid node => exact updatePreferredDownload_spec h node hcall

theorem consistent_create : Consistent (Downloads.create : Downloads ι) where
  mirrored := by
    intro hash nodeid place
    constructor
    · intro hsome
      cases hsome
    · rintro ⟨_, hsome, -⟩
      cases hsome
  counted := by
    intro nodeid state hsome
    cases hsome
  fresh := by
    intro nodeid state hsome
    cases hsome
  nPeersWithValidatedDownloads := rfl
  nPreferredDownload := rfl

/-- Entries with the same hash are the same entry of the same node. -/
def HashesDiffer (s : Downloads ι) : Prop :=
  ∀ nodeid nodeid' state state' entry entry', s.mapNodeState.lookup nodeid = some state →
    s.mapNodeState.lookup nodeid' = some state' → entry ∈ state.vBlocksInFlight →
    entry' ∈ state'.vBlocksInFlight → entry.hash = entry'.hash → nodeid = nodeid' ∧ entry = entry'

/-- **The bookkeeping of downloads is consistent** after any calls on existing nodes, no assertion
fails and no iterator dangles. -/
theorem always_consistent (calls : List (Call ι))
    (hcalls : Runs.Each step OnExisting (Downloads.create : Downloads ι) calls) :
    Runs.Always step (fun s => Consistent s ∧ HashesDiffer s) Downloads.create calls := by
  have halways := Runs.always_of_each (fun s call => step_spec s call) calls _ consistent_create hcalls
  refine halways.mono fun s h => ⟨h, ?_⟩
  intro nodeid nodeid' state state' entry entry' hstate hstate' hentry hentry' hhash
  exact h.entry_unique hstate hentry hstate' hentry' hhash

/-- A block is asked for, asked for again from another peer, and the peers leave. -/
theorem always_consistent_movedBlock :
    Runs.Always step (fun s => Consistent s ∧ HashesDiffer s) (Downloads.create : Downloads ℕ)
      [.initializeNode 1, .initializeNode 2, .updatePreferredDownload 1 ⟨false, false, false, false⟩,
        .markBlockAsInFlight 10 1 7 (some 0), .markBlockAsInFlight 11 1 8 none,
        .markBlockAsInFlight 20 2 7 (some 0), .markBlockAsReceived 30 8, .finalizeNode 1,
        .finalizeNode 2] :=
  always_consistent _ (by decide)

end Download
