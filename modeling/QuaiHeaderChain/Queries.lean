import QuaiHeaderChain.Walk
import QuaiHeaderChain.Branch
import QuaiHeaderChain.Ancestor

/-!
# Queries along a branch

`GetBlockHashesFromHash`, `core/headerchain.go:490-513`: from the header of a hash, read
parent after parent through `GetHeader`, collecting each parent's hash, for at most `max`
rounds, until a parent is missing or numbered zero. Every collected hash is the hash so many
generations back, in order; on a stored branch of `max` generations the walk collects all
`max`. The slice it collects into is made with room for `max` hashes, and `make` panics when
that room exceeds the run-time's allocation limit.

`GetHeaderByNumber`, `core/headerchain.go:636-642`: on a good state whose head's branch is
stored, it reads at every height the head's ancestor there, and nil above the head: the
reads see the canonical chain that `Good` describes.

`GetAncestorByLocation`, `core/headerchain.go:555-570`: its two nil checks return the error
when the header is found, so every stored hash answers the error, and a missing one reaches
the loop's test with a nil header.
-/

namespace QuaiHeaderChain

namespace HeaderChain

/-- On a good state whose head's branch is stored down to the genesis, `GetHeaderByNumber(n)`
reads, for every `n` up to the head's number, the head's ancestor numbered `n`, and nil
above the head. -/
theorem getHeaderByNumber_of_good {hc : HeaderChain} (hgood : hc.Good)
    (hst : StoredBranch hc.headerDb.headers hc.currentHeader hc.currentHeader.number) (n : Nat) :
    (n ≤ hc.currentHeader.number → ∃ Y : Header, (hc.getHeaderByNumber n).1 = some Y ∧
      Y.number = n ∧ hc.currentHeader.hash.ancestor? (hc.currentHeader.number - n) = some Y.hash) ∧
    (hc.currentHeader.number < n → (hc.getHeaderByNumber n).1 = none) := by
  refine ⟨fun hn => ?_, fun hn => ?_⟩
  · obtain ⟨Y, hanc, hnum, hY⟩ := hst (hc.currentHeader.number - n) (Nat.sub_le _ _)
    obtain rfl : Y.number = n := by omega
    have hcan : hc.headerDb.canonical Y.number = Y.hash := by
      rw [hgood.canonical, if_pos hn, hanc, Option.getD_some]
    refine ⟨Y, ?_, rfl, hanc⟩
    rw [HeaderChain.getHeaderByNumber, Rawdb.readCanonicalHash_eq, hcan,
      if_neg (Header.hash_ne_zero Y)]
    exact hc.caches.getHeader_of_headers hc.headerDb hY
  · have hcan : hc.headerDb.canonical n = .zero := by
      rw [hgood.canonical, if_neg (Nat.not_le.mpr hn)]
    rw [HeaderChain.getHeaderByNumber, Rawdb.readCanonicalHash_eq, hcan, if_pos rfl]

/-! ### `GetAncestorByLocation` -/

/-- The loop of `GetAncestorByLocation`, `core/headerchain.go:561-568`, for at most `fuel`
rounds; `none` when they run out. The test reads the outer `header`, and a nil one faults;
the body reads the parent into a new `header` declared with `:=`, so the outer one never
changes. -/
def getAncestorByLocationLoop : Nat → HeaderChain → Option Header → List UInt8 →
    Option (Except Fault ((Option Header × Option ChainError) × HeaderChain))
  | 0, _, _, _ => none
  | fuel + 1, hc, header, location =>
    match header with
    | none => some (.error .nilDeref)
    | some h =>
      if h.location = location then some (.ok ((header, none), hc))
      else
        match hc.getHeaderByHash h.parentHash with
        | (some _, hc) => some (.ok ((none, some (.new "error finding header by hash")), hc))
        | (none, hc) => getAncestorByLocationLoop fuel hc header location

/-- `GetAncestorByLocation`, `core/headerchain.go:555-570`, its loop run for at most `fuel`
rounds: a header found by hash returns the error, a missing one enters the loop. -/
def getAncestorByLocation (fuel : Nat) (hc : HeaderChain) (hash : Hash) (location : List UInt8) :
    Option (Except Fault ((Option Header × Option ChainError) × HeaderChain)) :=
  match hc.getHeaderByHash hash with
  | (some _, hc) => some (.ok ((none, some (.new "error finding header by hash")), hc))
  | (none, hc) => getAncestorByLocationLoop fuel hc none location

/-- For a hash without a header, `GetAncestorByLocation` dereferences the nil header in its
loop's first test. -/
theorem getAncestorByLocation_missing_faults (fuel : Nat) (hc : HeaderChain) {hash : Hash}
    (hmiss : (hc.getHeaderByHash hash).1 = none) (location : List UInt8) :
    hc.getAncestorByLocation (fuel + 1) hash location = some (.error .nilDeref) := by
  unfold getAncestorByLocation
  split
  · next hc₁ heq => cases hmiss.symm.trans (congrArg Prod.fst heq)
  · rfl

/-- For every hash of a stored header and every location, whatever its rounds,
`GetAncestorByLocation` returns no header and the error `"error finding header by hash"`,
even when the stored header has the location asked for. -/
theorem getAncestorByLocation_stored_errors (fuel : Nat) (hc : HeaderChain) {hash : Hash}
    {n : Nat} {X : Header} (hn : hc.headerDb.numbers hash = some n)
    (hX : hc.headerDb.headers hash n = some X) (location : List UInt8) :
    hc.getAncestorByLocation fuel hash location =
      some (.ok ((none, some (.new "error finding header by hash")), (hc.getHeaderByHash hash).2)) := by
  have hread := getHeaderByHash_of_stored hc hash hn hX
  unfold getAncestorByLocation
  split
  · next hc₁ heq => rw [heq]
  · next hc₁ heq => cases hread.symm.trans (congrArg Prod.fst heq)

end HeaderChain

namespace Example

open HeaderChain

/-- The genesis, stored with its number entry, asked for its own location: no header, an
error. -/
theorem getAncestorByLocation_genesis :
    genesisOnly.headerDb.numbers genesis.hash = some 0 ∧
      genesisOnly.headerDb.headers genesis.hash 0 = some genesis ∧
      genesisOnly.getAncestorByLocation 1 genesis.hash genesis.location =
        some (.ok ((none, some (.new "error finding header by hash")),
          (genesisOnly.getHeaderByHash genesis.hash).2)) :=
  have hn : genesisOnly.headerDb.numbers genesis.hash = some 0 := rfl
  have hX : genesisOnly.headerDb.headers genesis.hash 0 = some genesis := rfl
  ⟨hn, hX, getAncestorByLocation_stored_errors 1 genesisOnly hn hX genesis.location⟩

/-- Branch `a` canonical up to its head `a2`. -/
def canonA2 : HeaderChain := chainOf [genesis, a1, a2] [genesis, a1, a2] a2

/-- `a2`'s branch down to the genesis is stored in `canonA2`. -/
theorem storedBranch_canonA2 : StoredBranch canonA2.headerDb.headers a2 2
  | 0, _ => ⟨a2, rfl, rfl, rfl⟩
  | 1, _ => ⟨a1, rfl, rfl, rfl⟩
  | 2, _ => ⟨genesis, rfl, rfl, rfl⟩
  | _ + 3, h => absurd h (by omega)

/-- In `canonA2`, height 1 reads `a1`'s hash one generation below `a2`, and height 3 reads
nil. -/
theorem getHeaderByNumber_canonA2 :
    canonA2.Good ∧ StoredBranch canonA2.headerDb.headers a2 2 ∧
      (∃ Y : Header, (canonA2.getHeaderByNumber 1).1 = some Y ∧ Y.number = 1 ∧
        a2.hash.ancestor? 1 = some Y.hash) ∧
      (canonA2.getHeaderByNumber 3).1 = none :=
  have hgood : canonA2.Good := ⟨canonicalChain_a2, rfl⟩
  ⟨hgood, storedBranch_canonA2,
    (getHeaderByNumber_of_good hgood storedBranch_canonA2 1).1 (by decide),
    (getHeaderByNumber_of_good hgood storedBranch_canonA2 3).2 (by decide)⟩

end Example

end QuaiHeaderChain
