import QuaiHeaderChain.Walk
import QuaiHeaderChain.Ancestor

/-!
# `SetCurrentHeader`: the fast path, the reorg walk and the replay

`core/headerchain.go:217-334`. The head pointer moves first; a child of the old head only
gains its canonical entry. Otherwise the walk unwinds the old head's canonical entries
and stacks the new head's branch until one side reaches the common header, and the
replay writes the stack back from its bottom. The returned `sliceHeaders` records, per
shard location, the last header the walks passed there.
-/

namespace QuaiHeaderChain

namespace HeaderChain

/-- `sliceHeaders[x.Location[ctx]-1] = x`: the `uint8` subtraction wraps, and both
indexings are bounds-checked. -/
def setSlice (ctx : Fin 3) (sliceHeaders : List (Option Header)) (x : Header) :
    Except Fault (List (Option Header)) :=
  match x.location[ctx.val]? with
  | none => .error .indexOutOfRange
  | some b =>
    if (b - 1).toNat < sliceHeaders.length then .ok (sliceHeaders.set (b - 1).toNat (some x))
    else .error .indexOutOfRange

/-- The inner loop at `core/headerchain.go:248-267`, entered once the old head reached the
common header: walk the new head back, pushing every parent read, until the common
header, the genesis or a missing header. -/
def collectLoop : Nat → HeaderChain → Option Header → Option Header → List (Option Header) →
    Except Fault (List (Option Header) × HeaderChain)
  | 0, hc, _, _, hashStack => .ok (hashStack, hc)
  | fuel + 1, hc, commonHeader, newHeader, hashStack =>
    if ptrHash newHeader = ptrHash commonHeader then .ok (hashStack, hc)
    else
      match newHeader with
      | none => .error .nilDeref
      | some n =>
        match hc.getHeader n.parentHash (prevNumber n.number) with
        | (newHeader, hc) =>
          let hashStack := hashStack ++ [newHeader]
          if ptrHash newHeader = hc.config.genesisHashes 0 then .ok (hashStack, hc)
          else if newHeader.isNone then .ok (hashStack, hc)
          else collectLoop fuel hc commonHeader newHeader hashStack

/-- The inner loop at `core/headerchain.go:277-293`, entered once the new head reached the
common header: delete the old head's canonical entries back to the common header, the
genesis or a missing header. -/
def unwindLoop : Nat → HeaderChain → Option Header → Option Header → Except Fault HeaderChain
  | 0, hc, _, _ => .ok hc
  | fuel + 1, hc, commonHeader, prevHeader =>
    if ptrHash prevHeader = ptrHash commonHeader then .ok hc
    else
      match prevHeader with
      | none => .error .nilDeref
      | some p =>
        let hc := { hc with headerDb := Rawdb.deleteCanonicalHash hc.headerDb p.number }
        match hc.getHeader p.parentHash (prevNumber p.number) with
        | (prevHeader, hc) =>
          if ptrHash prevHeader = hc.config.genesisHashes 0 then .ok hc
          else if prevHeader.isNone then .ok hc
          else unwindLoop fuel hc commonHeader prevHeader

/-- The outer loop at `core/headerchain.go:246-316`: unwind one old header, then stack one
new header, until either side meets the common header. Returns the stack, pushed top of
branch first, and the slots. -/
def reorgLoop : Nat → HeaderChain → Option Header → Header → Option Header →
    List (Option Header) → List (Option Header) →
    Except Fault (List (Option Header) × List (Option Header) × HeaderChain)
  | 0, hc, _, _, _, hashStack, sliceHeaders => .ok (hashStack, sliceHeaders, hc)
  | fuel + 1, hc, commonHeader, prevHeader, newHeader, hashStack, sliceHeaders =>
    if prevHeader.hash = ptrHash commonHeader then
      match collectLoop ((ptrHash newHeader).depth + 1) hc commonHeader newHeader hashStack with
      | .error e => .error e
      | .ok (hashStack, hc) => .ok (hashStack, sliceHeaders, hc)
    else
      let hc := { hc with headerDb := Rawdb.deleteCanonicalHash hc.headerDb prevHeader.number }
      match hc.getHeader prevHeader.parentHash (prevNumber prevHeader.number) with
      | (prevHeader, hc) =>
        if ptrHash newHeader = ptrHash commonHeader then
          match unwindLoop ((ptrHash prevHeader).depth + 1) hc commonHeader prevHeader with
          | .error e => .error e
          | .ok hc => .ok (hashStack, sliceHeaders, hc)
        else
          let hashStack := hashStack ++ [newHeader]
          match newHeader with
          | none => .error .nilDeref
          | some n =>
            match hc.getHeader n.parentHash (prevNumber n.number) with
            | (newHeader, hc) =>
              if ptrHash prevHeader = hc.config.genesisHashes 0 then
                .ok (hashStack, sliceHeaders, hc)
              else
                match prevHeader with
                | none => .ok (hashStack, sliceHeaders, hc)
                | some p =>
                  let slices :=
                    if hc.config.context ≠ ZONE then setSlice hc.config.context sliceHeaders p
                    else .ok sliceHeaders
                  match slices with
                  | .error e => .error e
                  | .ok sliceHeaders =>
                    reorgLoop fuel hc commonHeader p newHeader hashStack sliceHeaders

/-- The replay at `core/headerchain.go:321-331`, given the stack bottom first: write each
canonical entry and record the roll-forward slot of every header with a location. -/
def replay : HeaderChain → List (Option Header) → List (Option Header) →
    Except Fault (List (Option Header) × HeaderChain)
  | hc, [], sliceHeaders => .ok (sliceHeaders, hc)
  | _, none :: _, _ => .error .nilDeref
  | hc, some h :: rest, sliceHeaders =>
    let hc := { hc with headerDb := Rawdb.writeCanonicalHash hc.headerDb h.hash h.number }
    let slices :=
      if hc.config.context ≠ ZONE ∧ h.location ≠ [] then
        setSlice hc.config.context sliceHeaders h
      else .ok sliceHeaders
    match slices with
    | .error e => .error e
    | .ok sliceHeaders => replay hc rest sliceHeaders

/-- `SetCurrentHeader`, `core/headerchain.go:217-334`. -/
def setCurrentHeader (hc : HeaderChain) (head : Header) :
    Except Fault (List (Option Header) × HeaderChain) :=
  let prevHeader := hc.currentHeader
  let sliceHeaders : List (Option Header) := [none, none, none]
  let hc := { hc with
    currentHeader := head
    headerDb := Rawdb.writeHeadBlockHash hc.headerDb head.hash }
  if prevHeader.hash = head.parentHash then
    let hc := { hc with headerDb := Rawdb.writeCanonicalHash hc.headerDb head.hash head.number }
    if hc.config.context ≠ ZONE then
      match setSlice hc.config.context sliceHeaders head with
      | .error e => .error e
      | .ok sliceHeaders => .ok (sliceHeaders, hc)
    else .ok (sliceHeaders, hc)
  else
    match hc.findCommonHeader (some head) with
    | (commonHeader, hc) =>
      match reorgLoop prevHeader.hash.depth hc commonHeader prevHeader (some head) []
          sliceHeaders with
      | .error e => .error e
      | .ok (hashStack, sliceHeaders, hc) => replay hc hashStack.reverse sliceHeaders

/-! ### The reorg writes only the canonical mapping -/

/-- One step of an unwind: delete a canonical entry, then read the parent. -/
theorem CanonicalOnly.unwindStep (hc : HeaderChain) (n : Nat) (hash : Hash) (number : Nat) :
    CanonicalOnly hc
      ({ hc with headerDb := Rawdb.deleteCanonicalHash hc.headerDb n }.getHeader hash number).2 :=
  ⟨_, _, rfl⟩

/-- Writing a canonical entry changes only the canonical mapping. -/
theorem CanonicalOnly.writeCanonicalHash (hc : HeaderChain) (hash : Hash) (number : Nat) :
    CanonicalOnly hc { hc with headerDb := Rawdb.writeCanonicalHash hc.headerDb hash number } :=
  ⟨_, _, rfl⟩

/-- The collecting walk only reads. -/
theorem cachesOnly_collectLoop {fuel : Nat} {hc hc' : HeaderChain}
    {commonHeader newHeader : Option Header} {hashStack stack : List (Option Header)}
    (h : collectLoop fuel hc commonHeader newHeader hashStack = .ok (stack, hc')) :
    CachesOnly hc hc' := by
  induction fuel generalizing hc newHeader hashStack with
  | zero => cases h; exact .refl _
  | succ fuel ih =>
    unfold collectLoop at h
    split at h
    · cases h; exact .refl _
    · split at h
      · cases h
      · dsimp only at h
        split at h
        · cases h; exact CachesOnly.getHeader _ _ _
        · split at h
          · cases h; exact CachesOnly.getHeader _ _ _
          · exact (CachesOnly.getHeader _ _ _).trans (ih h)

/-- The unwinding walk changes only the canonical mapping and the caches. -/
theorem canonicalOnly_unwindLoop {fuel : Nat} {hc hc' : HeaderChain}
    {commonHeader prevHeader : Option Header}
    (h : unwindLoop fuel hc commonHeader prevHeader = .ok hc') : CanonicalOnly hc hc' := by
  induction fuel generalizing hc prevHeader with
  | zero => cases h; exact .refl _
  | succ fuel ih =>
    unfold unwindLoop at h
    split at h
    · cases h; exact .refl _
    · split at h
      · cases h
      · dsimp only at h
        split at h
        · cases h; exact CanonicalOnly.unwindStep _ _ _ _
        · split at h
          · cases h; exact CanonicalOnly.unwindStep _ _ _ _
          · exact (CanonicalOnly.unwindStep _ _ _ _).trans (ih h)

/-- The outer loop changes only the canonical mapping and the caches. -/
theorem canonicalOnly_reorgLoop {fuel : Nat} {hc hc' : HeaderChain} {commonHeader : Option Header}
    {prevHeader : Header} {newHeader : Option Header} {hashStack sliceHeaders stack slices}
    (h : reorgLoop fuel hc commonHeader prevHeader newHeader hashStack sliceHeaders =
      .ok (stack, slices, hc')) : CanonicalOnly hc hc' := by
  induction fuel generalizing hc prevHeader newHeader hashStack sliceHeaders with
  | zero => cases h; exact .refl _
  | succ fuel ih =>
    unfold reorgLoop at h
    split at h
    · split at h
      · cases h
      · next heq => cases h; exact (cachesOnly_collectLoop heq).toCanonicalOnly
    · dsimp only at h
      have hmove := CanonicalOnly.unwindStep hc prevHeader.number prevHeader.parentHash
        (prevNumber prevHeader.number)
      split at h
      · split at h
        · cases h
        · next heq => cases h; exact hmove.trans (canonicalOnly_unwindLoop heq)
      · split at h
        · cases h
        · rename_i n _
          have hnew := hmove.trans (CanonicalOnly.getHeader _ n.parentHash (prevNumber n.number))
          split at h
          · cases h; exact hnew
          · split at h
            · cases h; exact hnew
            · split at h
              · cases h
              · exact hnew.trans (ih h)

/-- The replay of the stack changes only the canonical mapping and the caches. -/
theorem canonicalOnly_replay {hc hc' : HeaderChain} {hashStack sliceHeaders slices}
    (h : replay hc hashStack sliceHeaders = .ok (slices, hc')) : CanonicalOnly hc hc' := by
  induction hashStack generalizing hc sliceHeaders with
  | nil => cases h; exact .refl _
  | cons x rest ih =>
    cases x with
    | none => cases h
    | some x =>
      unfold replay at h
      dsimp only at h
      split at h
      · cases h
      · exact (CanonicalOnly.writeCanonicalHash _ _ _).trans (ih h)

/-- `SetCurrentHeader` moves the head pointer and the head block hash, and otherwise changes
only the canonical mapping and the caches: the header store and the registry stay. -/
theorem setCurrentHeader_canonicalOnly {hc hc' : HeaderChain} {head : Header}
    {slices : List (Option Header)} (h : hc.setCurrentHeader head = .ok (slices, hc')) :
    CanonicalOnly { hc with
      currentHeader := head
      headerDb := Rawdb.writeHeadBlockHash hc.headerDb head.hash } hc' := by
  unfold setCurrentHeader at h
  dsimp only at h
  split at h
  · split at h
    · split at h
      · cases h
      · cases h; exact CanonicalOnly.writeCanonicalHash _ _ _
    · cases h; exact CanonicalOnly.writeCanonicalHash _ _ _
  · split at h
    · cases h
    · next heq =>
      exact (cachesOnly_findCommonHeaderLoop _ _ _).toCanonicalOnly.trans
        ((canonicalOnly_reorgLoop heq).trans (canonicalOnly_replay h))

/-- `SetCurrentHeader(head)` sets the head to `head` and the saved head hash to its hash, and
otherwise changes only the canonical mapping and the caches: the header store, the number
entries, the saved registry hashes, the registry, the genesis, the configuration, the body
trims, the running and interrupt flags are as before. -/
theorem setCurrentHeader_frame {hc hc' : HeaderChain} {head : Header}
    {slices : List (Option Header)} (h : hc.setCurrentHeader head = .ok (slices, hc')) :
    ∃ canonical caches, hc' =
      { hc with
        currentHeader := head
        headerDb := { hc.headerDb with headBlockHash := head.hash, canonical := canonical }
        caches := caches } := by
  obtain ⟨canonical, caches, rfl⟩ := setCurrentHeader_canonicalOnly h
  exact ⟨canonical, caches, rfl⟩

/-- Moving the head of `headA1` to `a3` changes only the head, the saved head hash, the
canonical mapping and the caches. -/
theorem setCurrentHeader_frame_a3 :
    ∃ r, Example.headA1.setCurrentHeader Example.a3 = .ok r ∧
      ∃ canonical caches, r.2 =
        { Example.headA1 with
          currentHeader := Example.a3
          headerDb := { Example.headA1.headerDb with
            headBlockHash := Example.a3.hash, canonical := canonical }
          caches := caches } :=
  ⟨_, rfl, setCurrentHeader_frame rfl⟩

/-! ### The fast path keeps the canonical chain -/

/-- In a canonical chain the head is canonical at its number. -/
theorem CanonicalChain.canonical_head {hc : HeaderChain} (h : hc.CanonicalChain) :
    hc.headerDb.canonical hc.currentHeader.number = hc.currentHeader.hash := by
  rw [h, if_pos le_rfl, Nat.sub_self, Hash.ancestor?_zero]
  rfl

/-- A state whose head has no canonical entry is not good. -/
theorem not_good_of_canonical_head_zero {hc : HeaderChain}
    (h : hc.headerDb.canonical hc.currentHeader.number = .zero) : ¬ hc.Good :=
  fun hgood => hc.currentHeader.hash_ne_zero (hgood.canonical.canonical_head ▸ h)

/-- On a child of the current head, `SetCurrentHeader` takes its fast path: it writes the
child's canonical entry and moves the head, and keeps the genesis. -/
theorem setCurrentHeader_child_fast {hc hc' : HeaderChain} {head : Header}
    {slices : List (Option Header)} (hparent : head.parentHash = hc.currentHeader.hash)
    (h : hc.setCurrentHeader head = .ok (slices, hc')) :
    hc'.headerDb.canonical =
      (Rawdb.writeCanonicalHash hc.headerDb head.hash head.number).canonical ∧
      hc'.currentHeader = head ∧ hc'.genesisHeader = hc.genesisHeader := by
  unfold setCurrentHeader at h
  dsimp only at h
  rw [if_pos hparent.symm] at h
  split at h
  · split at h
    · cases h
    · cases h; exact ⟨rfl, rfl, rfl⟩
  · cases h; exact ⟨rfl, rfl, rfl⟩

/-- A good state whose head moves to a child numbered one above it, written canonical at its
number, is good. -/
theorem Good.extend {hc hc' : HeaderChain} {head : Header} (hgood : hc.Good)
    (hparent : head.parentHash = hc.currentHeader.hash)
    (hnum : head.number = hc.currentHeader.number + 1)
    (hcan : hc'.headerDb.canonical =
      (Rawdb.writeCanonicalHash hc.headerDb head.hash head.number).canonical)
    (hcur : hc'.currentHeader = head) (hgen : hc'.genesisHeader = hc.genesisHeader) :
    hc'.Good := by
  refine ⟨fun n => ?_, ?_⟩
  · rw [hcan, hcur, Rawdb.canonical_writeCanonicalHash, hgood.canonical n]
    split_ifs with h₁ h₂ h₃ h₃ h₃ <;> try omega
    · rw [h₁, Nat.sub_self, Hash.ancestor?_zero]
      rfl
    · rw [show head.number - n = hc.currentHeader.number - n + 1 by omega,
        Header.ancestor?_hash_succ, hparent]
    · rfl
  · rw [hcur, hgen, hnum, Header.ancestor?_hash_succ, hparent]
    exact hgood.genesis

/-- `SetCurrentHeader` on a child of the current head, numbered one above it, keeps the state
good: the child gains its canonical entry and nothing else moves. -/
theorem setCurrentHeader_child_good {hc hc' : HeaderChain} {head : Header}
    {slices : List (Option Header)} (hgood : hc.Good)
    (hparent : head.parentHash = hc.currentHeader.hash)
    (hnum : head.number = hc.currentHeader.number + 1)
    (h : hc.setCurrentHeader head = .ok (slices, hc')) :
    hc'.Good ∧ hc'.currentHeader = head := by
  obtain ⟨hcan, hcur, hgen⟩ := setCurrentHeader_child_fast hparent h
  exact ⟨hgood.extend hparent hnum hcan hcur hgen, hcur⟩

/-- Moving the head of the genesis-only chain to its child `a1` gives a good state. -/
theorem setCurrentHeader_child_good_a1 :
    Example.genesisOnly.Good ∧ Example.a1.parentHash = Example.genesisOnly.currentHeader.hash ∧
      Example.a1.number = Example.genesisOnly.currentHeader.number + 1 ∧
      ∃ r, Example.genesisOnly.setCurrentHeader Example.a1 = .ok r ∧ r.2.Good ∧
        r.2.currentHeader = Example.a1 :=
  ⟨Example.good_genesisOnly, rfl, rfl, _, rfl,
    setCurrentHeader_child_good Example.good_genesisOnly rfl rfl rfl⟩

/-! ### Slots -/

end HeaderChain

namespace Example

open HeaderChain

/-- `headA1` is good: its canonical entries are `a1`'s parent chain. -/
theorem good_headA1 : headA1.Good where
  canonical n := by
    rcases n with _ | _ | n <;>
      simp [headA1, chainOf, a1, genesis, Header.hash, Hash.ancestor?, Database.empty]
  genesis := rfl

/-- Moving the head from `a1` to its grandchild `a3`: the common header is the old head, so
the collecting walk stacks only the parents it reads, `a2` and `a1`, and `a3` is left
without a canonical entry. -/
theorem setCurrentHeader_grandchild_uncanonical :
    headA1.Good ∧ (∀ X ∈ [a1, a2, a3], headA1.headerDb.headers X.hash X.number = some X) ∧
      ∃ r, headA1.setCurrentHeader a3 = .ok r ∧ r.2.currentHeader = a3 ∧
        r.2.headerDb.canonical a3.number = .zero ∧ ¬ r.2.Good :=
  ⟨good_headA1, by decide, _, rfl, rfl, rfl, not_good_of_canonical_head_zero rfl⟩

/-- The same move returns the slots `[a2, nil, nil]`: `a3`, the highest header of region 2
above the common header, never reaches slot 1. -/
theorem setCurrentHeader_grandchild_slots :
    a3.location[0]? = some 2 ∧
      (headA1.setCurrentHeader a3).map Prod.fst = .ok [some a2, none, none] :=
  ⟨rfl, rfl⟩

/-- Head `a2` over a store that lost its parent `a1`. -/
def missingA1 : HeaderChain := chainOf [genesis, a2] [genesis, a1, a2] a2

/-- Every non-genesis header `missingA1` stores passes `CheckLocationRange` with bounds 3
and 3, yet moving the head to the genesis faults: the unwind reads the missing `a1` as nil
and takes its number before its nil check. -/
theorem setCurrentHeader_missing_parent_faults :
    (∀ h n X, missingA1.headerDb.headers h n = some X → X ≠ genesis →
        checkLocationRange [3, 3] X.location = .ok none) ∧
      missingA1.setCurrentHeader genesis = .error .nilDeref := by
  refine ⟨fun h n X hX hne => ?_, rfl⟩
  simp only [missingA1, chainOf, List.foldl, Rawdb.headers_writeCanonicalHash,
    Rawdb.headers_writeHeader, Database.empty] at hX
  split_ifs at hX
  · cases hX; rfl
  · cases hX; exact absurd rfl hne

end Example

end QuaiHeaderChain
