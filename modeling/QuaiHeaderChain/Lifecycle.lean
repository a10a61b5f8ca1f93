import QuaiHeaderChain.Reorg
import QuaiHeaderChain.Append
import Mathlib.Logic.Relation

/-!
# Reset, shutdown, reload, and the runs of a chain

`core/headerchain.go:337-442`: `Reset` and `ResetWithGenesisBlock` trim every registered
head back to the genesis, `Stop` saves the registry's hashes and the head hash,
`loadLastState` reads them back through the cached reads. A run starts from a fresh
chain and applies `Append`, `SetCurrentHeader`, `Reset` and `ResetWithGenesisBlock`; a
call that panics ends the run.
-/

namespace QuaiHeaderChain

namespace HeaderChain

/-- `ResetWithGenesisBlock`, `core/headerchain.go:343-354`: every registered head is trimmed
back to `hc.genesisHeader`; the argument is never read. -/
def resetWithGenesisBlock (hc : HeaderChain) (_genesis : Header) : Except Fault HeaderChain :=
  hc.heads.foldlM (fun hc head => hc.trim hc.genesisHeader head) hc

/-- `Reset`, `core/headerchain.go:337-339`. -/
def reset (hc : HeaderChain) : Except Fault HeaderChain :=
  hc.resetWithGenesisBlock hc.genesisHeader

/-- `Stop`, `core/headerchain.go:422-442`: only the first call saves the heads' hashes and the
head hash; the subscriptions, channel and wait group are not modelled. -/
def stop (hc : HeaderChain) : HeaderChain :=
  if hc.running ≠ 0 then hc
  else
    let db := Rawdb.writeHeadsHashes hc.headerDb (hc.heads.map ptrHash)
    { hc with
      running := 1
      headerDb := Rawdb.writeHeadBlockHash db hc.currentHeader.hash
      procInterrupt := 1 }

/-- The headers of a list of hashes, each through `GetHeaderByHash`. -/
def getHeadersByHash : HeaderChain → List Hash → List (Option Header) × HeaderChain
  | hc, [] => ([], hc)
  | hc, hash :: rest =>
    match hc.getHeaderByHash hash with
    | (header, hc) =>
      match getHeadersByHash hc rest with
      | (headers, hc) => (header :: headers, hc)

/-- `loadLastState`, `core/headerchain.go:396-418`. -/
def loadLastState (hc : HeaderChain) : HeaderChain :=
  let headsHashes := Rawdb.readHeadsHashes hc.headerDb
  let head := Rawdb.readHeadBlockHash hc.headerDb
  let hc :=
    if head ≠ .zero then
      match hc.getHeaderByHash head with
      | (some chead, hc) => { hc with currentHeader := chead }
      | (none, hc) => hc
    else hc
  match getHeadersByHash hc headsHashes with
  | (heads, hc) => { hc with heads := heads }

variable (maxHeadsQueueLimit : Nat) (sorter : HeadsSorter)

/-- One call of a run: a call that panics has no successor. -/
inductive Step : HeaderChain → HeaderChain → Prop
  | append {hc hc' : HeaderChain} {block : Header} {replies : AppendReplies}
      {err : Option ChainError} :
      hc.append maxHeadsQueueLimit sorter block replies = .ok (err, hc') → Step hc hc'
  | setCurrentHeader {hc hc' : HeaderChain} {head : Header} {slices : List (Option Header)} :
      hc.setCurrentHeader head = .ok (slices, hc') → Step hc hc'
  | reset {hc hc' : HeaderChain} : hc.reset = .ok hc' → Step hc hc'
  | resetWithGenesisBlock {hc hc' : HeaderChain} {genesis : Header} :
      hc.resetWithGenesisBlock genesis = .ok hc' → Step hc hc'
  /-- A read by a collaborator the chain is handed to, as the engine's
  `VerifyHeader(hc, header)` at `core/headerchain.go:207`: its reads through `hc` fill the
  caches and change nothing else. -/
  | read {hc hc' : HeaderChain} : CachesOnly hc hc' → Step hc hc'

/-- The states some run from a fresh chain reaches. -/
def Reachable (config : Config) (genesis : Header) (hc : HeaderChain) : Prop :=
  Relation.ReflTransGen (Step maxHeadsQueueLimit sorter) (fresh config genesis) hc

/-- The fresh chain is reachable. -/
theorem Reachable.fresh (config : Config) (genesis : Header) :
    Reachable maxHeadsQueueLimit sorter config genesis (fresh config genesis) := .refl

variable {maxHeadsQueueLimit sorter} in
/-- One more call from a reachable state reaches a state. -/
theorem Reachable.step {config : Config} {genesis : Header} {hc hc' : HeaderChain}
    (h : Reachable maxHeadsQueueLimit sorter config genesis hc)
    (hs : Step maxHeadsQueueLimit sorter hc hc') :
    Reachable maxHeadsQueueLimit sorter config genesis hc' := h.tail hs

variable {maxHeadsQueueLimit sorter} in
/-- A property of the fresh chain that every call keeps holds in every reachable state. -/
theorem Reachable.invariant {P : HeaderChain → Prop} {config : Config} {genesis : Header}
    {hc : HeaderChain} (hinit : P (HeaderChain.fresh config genesis))
    (hstep : ∀ {hc hc'}, P hc → Step maxHeadsQueueLimit sorter hc hc' → P hc')
    (h : Reachable maxHeadsQueueLimit sorter config genesis hc) : P hc := by
  induction h with
  | refl => exact hinit
  | tail _ hs ih => exact hstep ih hs

/-! ### The registry over every run -/

/-- A property every trim keeps is kept by trimming every registered head in turn, as
`ResetWithGenesisBlock` does. -/
theorem foldlM_trim_invariant {P : HeaderChain → Prop}
    (hstep : ∀ {hc hc' : HeaderChain} {head : Option Header}, P hc →
      hc.trim hc.genesisHeader head = .ok hc' → P hc')
    (heads : List (Option Header)) {hc hc' : HeaderChain} (hP : P hc)
    (h : heads.foldlM (fun hc head => hc.trim hc.genesisHeader head) hc = .ok hc') : P hc' := by
  induction heads generalizing hc with
  | nil => cases h; exact hP
  | cons head rest ih =>
    rw [List.foldlM_cons] at h
    cases ht : hc.trim hc.genesisHeader head with
    | error e => rw [ht] at h; cases h
    | ok hc₁ => rw [ht] at h; exact ih (hstep hP ht) h

/-- Trimming every registered head in turn keeps the registry. -/
theorem heads_foldlM_trim (heads : List (Option Header)) {hc hc' : HeaderChain}
    (h : heads.foldlM (fun hc head => hc.trim hc.genesisHeader head) hc = .ok hc') :
    hc'.heads = hc.heads :=
  foldlM_trim_invariant (P := fun x => x.heads = hc.heads)
    (fun hP ht => (heads_trim ht).trans hP) heads rfl h

/-- `ResetWithGenesisBlock` keeps the registry. -/
theorem heads_resetWithGenesisBlock {hc hc' : HeaderChain} {genesis : Header}
    (h : hc.resetWithGenesisBlock genesis = .ok hc') : hc'.heads = hc.heads :=
  heads_foldlM_trim _ h

/-- `ResetWithGenesisBlock` only trims, whatever genesis it is passed: the registry, the
canonical mapping and the head are left as they were. -/
theorem trimsOnly_resetWithGenesisBlock {hc hc' : HeaderChain} {genesis : Header}
    (h : hc.resetWithGenesisBlock genesis = .ok hc') : TrimsOnly (fun _ => True) hc hc' :=
  foldlM_trim_invariant (P := TrimsOnly (fun _ => True) hc)
    (fun hP ht => hP.trans (trim_trimsOnly ht)) _ (.refl hc) h

/-- Resetting head `a1` over branch `a` with `a3` registered only trims. -/
theorem trimsOnly_resetWithGenesisBlock_a3 :
    ∃ hc', { Example.headA1 with heads := [some Example.a3] }.resetWithGenesisBlock Example.a1 =
        .ok hc' ∧ TrimsOnly (fun _ => True) { Example.headA1 with heads := [some Example.a3] } hc' :=
  ⟨_, rfl, @trimsOnly_resetWithGenesisBlock _ _ Example.a1 rfl⟩

variable {maxHeadsQueueLimit sorter} in
/-- Every call keeps the registry invariant: `Append` by its registry update, the others
because they never touch the registry. -/
theorem Step.registryInv {hc hc' : HeaderChain} (hs : Step maxHeadsQueueLimit sorter hc hc')
    (hinv : RegistryInv maxHeadsQueueLimit hc.heads) : RegistryInv maxHeadsQueueLimit hc'.heads := by
  cases hs with
  | append h => exact append_registryInv maxHeadsQueueLimit sorter h hinv
  | setCurrentHeader h => exact (setCurrentHeader_canonicalOnly h).heads ▸ hinv
  | reset h => exact heads_resetWithGenesisBlock h ▸ hinv
  | resetWithGenesisBlock h => exact heads_resetWithGenesisBlock h ▸ hinv
  | read h => obtain ⟨_, rfl⟩ := h; exact hinv

/-- In every state a run reaches from a fresh chain, the registry holds at most
`maxHeadsQueueLimit` headers, no nil entry, in ascending order of the number's `Uint64()`. -/
theorem reachable_registryInv {config : Config} {genesis hc}
    (h : Reachable maxHeadsQueueLimit sorter config genesis hc) :
    RegistryInv maxHeadsQueueLimit hc.heads :=
  h.invariant ⟨[], rfl, Nat.zero_le _, List.sorted_nil⟩ fun hinv hs => hs.registryInv hinv

/-- Appending `a1`, `a2`, `a3` with room for two heads evicts `a1`; a read of the genesis
follows. The registry left is `[a2, a3]`, which meets the invariant. -/
theorem reachable_registryInv_a2_a3 :
    ∃ hc, Reachable 2 .insertion Example.config Example.genesis hc ∧
      hc.heads = [some Example.a2, some Example.a3] ∧ RegistryInv 2 hc.heads := by
  have r : Reachable 2 .insertion Example.config Example.genesis _ :=
    ((((Reachable.fresh 2 .insertion _ _).step
      (@Step.append 2 .insertion _ _ Example.a1 Example.accept none (by rfl))).step
      (@Step.append 2 .insertion _ _ Example.a2 Example.accept none (by rfl))).step
      (@Step.append 2 .insertion _ _ Example.a3 Example.accept none (by rfl))).step
      (.read (CachesOnly.getHeader _ Example.genesis.hash 0))
  exact ⟨_, r, rfl, reachable_registryInv 2 .insertion r⟩

end HeaderChain

/-! ### What `Stop` saves, `loadLastState` reads back -/

/-- `X` can be read back from its hash alone: its number entry and the header under it are
stored. -/
def Database.ReadableByHash (db : Database) (X : Header) : Prop :=
  db.numbers X.hash = some X.number ∧ db.headers X.hash X.number = some X

namespace HeaderChain

/-- No number entry and no cached number names the hash of a nil header, so reading it by
hash finds nothing. -/
theorem getHeaderByHash_nilHeader (hc : HeaderChain) : (hc.getHeaderByHash .nilHeader).1 = none := by
  unfold getHeaderByHash
  split
  · rfl
  · next n _ heq => cases hc.caches.number?_of_getBlockNumber hc.headerDb (congrArg Prod.fst heq)

/-- Reading a list of hashes back changes only the caches. -/
theorem cachesOnly_getHeadersByHash (hc : HeaderChain) (hashes : List Hash) :
    CachesOnly hc (getHeadersByHash hc hashes).2 := by
  induction hashes generalizing hc with
  | nil => exact .refl hc
  | cons hash rest ih => exact (cachesOnly_getHeaderByHash hc hash).trans (ih _)

/-- Reading back the hashes of a registry whose headers can all be read by hash gives the
registry, nil entries included. -/
theorem getHeadersByHash_map_ptrHash {heads : List (Option Header)} {hc : HeaderChain}
    (h : ∀ X, some X ∈ heads → hc.headerDb.ReadableByHash X) :
    (getHeadersByHash hc (heads.map ptrHash)).1 = heads := by
  induction heads generalizing hc with
  | nil => rfl
  | cons head rest ih =>
    have hfirst : (hc.getHeaderByHash (ptrHash head)).1 = head := by
      cases head with
      | none => exact getHeaderByHash_nilHeader hc
      | some X =>
        have hX := h X (List.mem_cons_self _ _)
        exact getHeaderByHash_of_stored hc X.hash hX.1 hX.2
    have hdb := (cachesOnly_getHeaderByHash hc (ptrHash head)).headerDb
    have hrest := @ih (hc.getHeaderByHash (ptrHash head)).2
      fun X hX => hdb ▸ h X (List.mem_cons_of_mem _ hX)
    exact congrArg₂ List.cons hfirst hrest

/-- `loadLastState` restores the saved head and registry when each of them can be read back
by hash. -/
theorem loadLastState_restores {hc : HeaderChain} {X : Header} {heads : List (Option Header)}
    (hhead : hc.headerDb.headBlockHash = X.hash) (hX : hc.headerDb.ReadableByHash X)
    (hheads : hc.headerDb.headsHashes = heads.map ptrHash)
    (hst : ∀ Y, some Y ∈ heads → hc.headerDb.ReadableByHash Y) :
    hc.loadLastState.currentHeader = X ∧ hc.loadLastState.heads = heads := by
  have hread := getHeaderByHash_of_stored hc X.hash hX.1 hX.2
  have hdb := (cachesOnly_getHeaderByHash hc X.hash).headerDb
  unfold loadLastState
  simp only [Rawdb.readHeadBlockHash, Rawdb.readHeadsHashes, hhead, hheads, ne_eq,
    Header.hash_ne_zero, not_false_eq_true, if_true]
  split
  · next Y hc₁ heq =>
    obtain rfl : Y = X := Option.some_inj.mp ((congrArg Prod.fst heq).symm.trans hread)
    obtain rfl : hc₁ = _ := (congrArg Prod.snd heq).symm
    exact ⟨(cachesOnly_getHeadersByHash _ _).toCanonicalOnly.currentHeader,
      getHeadersByHash_map_ptrHash fun Z hZ => hdb ▸ hst Z hZ⟩
  · next hc₁ heq => cases hread.symm.trans (congrArg Prod.fst heq)

/-- What `Stop` saves, `loadLastState` reads back: on a running chain whose head and
registered heads can each be read back by hash, reloading the state `Stop` leaves restores
the same head and the same registry, nil entries included. -/
theorem loadLastState_stop {hc : HeaderChain} (hrun : hc.running = 0)
    (hcur : hc.headerDb.ReadableByHash hc.currentHeader)
    (hheads : ∀ X, some X ∈ hc.heads → hc.headerDb.ReadableByHash X) :
    hc.stop.loadLastState.currentHeader = hc.currentHeader ∧
      hc.stop.loadLastState.heads = hc.heads := by
  rw [stop, if_neg (not_not.mpr hrun)]
  exact loadLastState_restores rfl hcur rfl hheads

end HeaderChain

namespace Example

open HeaderChain

/-- Head `a1` with `a2`, a nil entry and `a3` registered. -/
def registryA2A3 : HeaderChain := { headA1 with heads := [some a2, none, some a3] }

/-- Stopping and reloading `registryA2A3` gives back its head and its registry. -/
theorem loadLastState_stop_a1 :
    registryA2A3.running = 0 ∧ registryA2A3.headerDb.ReadableByHash a1 ∧
      (∀ X, some X ∈ registryA2A3.heads → registryA2A3.headerDb.ReadableByHash X) ∧
      registryA2A3.stop.loadLastState.currentHeader = a1 ∧
      registryA2A3.stop.loadLastState.heads = [some a2, none, some a3] :=
  have hheads : ∀ X, some X ∈ registryA2A3.heads → registryA2A3.headerDb.ReadableByHash X :=
    fun X hX => by
      simp only [registryA2A3, List.mem_cons, Option.some_inj, Option.some_ne_none, false_or,
        List.not_mem_nil, or_false] at hX
      rcases hX with rfl | rfl <;> exact ⟨rfl, rfl⟩
  ⟨rfl, ⟨rfl, rfl⟩, hheads, loadLastState_stop rfl ⟨rfl, rfl⟩ hheads⟩

/-- Appending branch `a` one header at a time to a fresh chain with room for two heads:
evicting `a1` trims it while the registered `a2` still needs it, and evicting `a2` then
finds no common header. -/
theorem append_linear_branch_nil_head :
    ∃ hc, Reachable 2 .insertion config genesis hc ∧ hc.heads = [some a2, some a3] ∧
      hc.headerDb.headers a1.hash a1.number = none ∧
      (hc.append 2 .insertion a4 accept).map Prod.fst = .ok (some nilHeadError) :=
  ⟨_, (((Reachable.fresh 2 .insertion config genesis).step
      (@Step.append 2 .insertion _ _ a1 accept none (by rfl))).step
      (@Step.append 2 .insertion _ _ a2 accept none (by rfl))).step
      (@Step.append 2 .insertion _ _ a3 accept none (by rfl)), by rfl, by rfl, by rfl⟩

/-- With room for three heads: branch `a` made canonical, then branch `b` appended until
the eviction of `b1` trims it; moving the head to `b2` finds no common header, and the
unwind that follows deletes the genesis entry before its genesis check. -/
theorem setCurrentHeader_unwinds_genesis :
    ∃ hc, Reachable 3 .insertion config genesis hc ∧ hc.headerDb.canonical 0 = .zero :=
  ⟨_, (((((((((Reachable.fresh 3 .insertion config genesis).step
      (@Step.append 3 .insertion _ _ a1 accept none (by rfl))).step
      (@Step.append 3 .insertion _ _ a2 accept none (by rfl))).step
      (@Step.setCurrentHeader 3 .insertion _ _ a1 _ (by rfl))).step
      (@Step.setCurrentHeader 3 .insertion _ _ a2 _ (by rfl))).step
      (@Step.append 3 .insertion _ _ b1 accept none (by rfl))).step
      (@Step.append 3 .insertion _ _ b2 accept none (by rfl))).step
      (@Step.append 3 .insertion _ _ b3 accept none (by rfl))).step
      (@Step.setCurrentHeader 3 .insertion _ _ b2 _ (by rfl))), by rfl⟩

/-- With room for one head: the eviction of `a1` by `b1` reads and caches the genesis, and
re-submitting the genesis with a failing body deletes it from the store but not from the
cache. -/
theorem getHeader_cached_after_delete :
    ∃ hc, Reachable 1 .insertion config genesis hc ∧
      hc.headerDb.headers genesis.hash genesis.number = none ∧
      (hc.getHeader genesis.hash genesis.number).1 = some genesis :=
  ⟨_, (((Reachable.fresh 1 .insertion config genesis).step
      (@Step.append 1 .insertion _ _ a1 accept none (by rfl))).step
      (@Step.append 1 .insertion _ _ b1 accept none (by rfl))).step
      (@Step.append 1 .insertion _ _ genesis bodyFails (some (.external 0)) (by rfl)), by rfl, by rfl⟩

/-- `Reset` trims the registered `b1` away but keeps it registered: `Stop` saves its hash,
and `loadLastState` reads it back as nil. -/
theorem reset_keeps_registry :
    ∃ hc, Reachable 2 .insertion config genesis hc ∧ hc.heads = [some b1] ∧
      hc.stop.loadLastState.heads = [none] :=
  ⟨_, ((Reachable.fresh 2 .insertion config genesis).step
      (@Step.append 2 .insertion _ _ b1 accept none (by rfl))).step
      (@Step.reset 2 .insertion _ _ (by rfl)), by rfl, by rfl⟩

/-- `Reset` on a reachable chain whose head `a1` is registered: it deletes `a1` from the
store, yet `a1` stays registered, stays the head and stays canonical at number 1. -/
theorem reset_keeps_deleted_head :
    ∃ hc hc', Reachable 2 .insertion config genesis hc ∧ hc.reset = .ok hc' ∧
      hc'.heads = [some a1] ∧ hc'.currentHeader = a1 ∧ hc'.headerDb.canonical 1 = a1.hash ∧
      hc'.headerDb.headers a1.hash a1.number = none :=
  ⟨_, _, ((Reachable.fresh 2 .insertion config genesis).step
      (@Step.append 2 .insertion _ _ a1 accept none (by rfl))).step
      (@Step.setCurrentHeader 2 .insertion _ _ a1 _ (by rfl)), by rfl, by rfl, by rfl, by rfl, by rfl⟩

end Example

end QuaiHeaderChain
