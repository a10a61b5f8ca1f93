import QuaiHeaderChain.Chain
import Mathlib

/-!
# Blocks through the body chain

`core/headerchain.go:657-659,671-673,701-776,821-836`: the reads that go through the body
chain `hc.bc`, which is outside this file and which the model takes as its `GetBlock`.
`GetBlockByHash` and `CurrentBlock` read it at the number the caches or the store give.
`GetUnclesInChain` and `GetGasUsedInChain` fold over one walk, from a block to its parents,
which `GetBlocksFromHash` also takes on a body chain whose blocks carry their numbers.
`GetGasUsedInChain` sums in Go's 64-bit `int`, so it returns the exact sum reduced to the
signed 64-bit range. `ExportN` writes the canonical blocks `first..last` with a `uint64`
counter, which wraps to zero past `2^64 - 1`: below that bound it writes each block once, in
order, up to the first missing one; with `last = 2^64 - 1` its loop test always holds and it
runs as long as it finds blocks. `Export` is `ExportN` from zero to the head's number.
-/

namespace QuaiHeaderChain

/-- A `types.Block` in the node's context: its header and its uncles' headers. -/
structure Block where
  header : Header
  uncles : List Header
  deriving DecidableEq, Repr

/-- `hc.bc`, the body chain, as this file reads it: `GetBlock` by hash and number, which
`HeaderChain.GetBlock`, `core/headerchain.go:671-673`, forwards to. -/
structure BodyChain where
  getBlock : Hash → Nat → Option Block

namespace HeaderChain

/-! ### The walk over a block's parents -/

/-- The walk shared by `GetUnclesInChain` and `GetGasUsedInChain`, `core/headerchain.go:703-706,
714-717`: for at most `rounds` rounds while the block is not nil, add the block to the
accumulator and read its parent through `GetBlock` with `NumberU64() - 1`. -/
def foldChain {α : Type} (bc : BodyChain) (add : α → Block → α) : Nat → Option Block → α → α
  | 0, _, acc => acc
  | _ + 1, none, acc => acc
  | rounds + 1, some block, acc =>
    foldChain bc add rounds
      (bc.getBlock block.header.parentHash (prevNumber block.header.number)) (add acc block)

/-- `GetUnclesInChain`, `core/headerchain.go:701-708`: `i` counts from zero below `length`. -/
def getUnclesInChain (bc : BodyChain) (block : Option Block) (length : Int) : List Header :=
  foldChain bc (fun uncles block => uncles ++ block.uncles) length.toNat block []

/-- `GetGasUsedInChain`, `core/headerchain.go:712-719`: the sum is a Go `int`, 64 bits wide;
`int(block.GasUsed())` keeps the bits of the `uint64`, and `int64(gasUsed)` is the same
word. -/
def getGasUsedInChain (bc : BodyChain) (block : Option Block) (length : Int) : BitVec 64 :=
  foldChain bc (fun gasUsed block => gasUsed + BitVec.ofNat 64 block.header.gasUsed)
    length.toNat block 0

/-- The first `rounds` blocks of the walk from `block` through its parents, as `GetBlock`
returns them, up to the first one it does not find. -/
def chainBlocks (bc : BodyChain) : Nat → Option Block → List Block
  | 0, _ => []
  | _ + 1, none => []
  | rounds + 1, some block =>
    block :: chainBlocks bc rounds
      (bc.getBlock block.header.parentHash (prevNumber block.header.number))

/-- The walk folds its accumulator over the blocks it finds, in order. -/
theorem foldChain_eq_foldl {α : Type} (bc : BodyChain) (add : α → Block → α) :
    ∀ (rounds : Nat) (block : Option Block) (acc : α),
      foldChain bc add rounds block acc = (chainBlocks bc rounds block).foldl add acc
  | 0, _, _ => rfl
  | _ + 1, none, _ => rfl
  | rounds + 1, some block, acc => foldChain_eq_foldl bc add rounds _ (add acc block)

/-- `GetUnclesInChain` lists the uncles of the walk's blocks, block by block. -/
theorem getUnclesInChain_eq (bc : BodyChain) (block : Option Block) (length : Int) :
    getUnclesInChain bc block length = (chainBlocks bc length.toNat block).flatMap Block.uncles := by
  rw [getUnclesInChain, foldChain_eq_foldl]
  suffices ∀ (l : List Block) (acc : List Header),
      l.foldl (fun uncles block => uncles ++ block.uncles) acc = acc ++ l.flatMap Block.uncles from
    this _ []
  intro l
  induction l with
  | nil => simp
  | cons b l ih => intro acc; rw [List.foldl_cons, ih, List.flatMap_cons, List.append_assoc]

/-- The loop of `GetBlocksFromHash`, `core/headerchain.go:825-833`, for at most `rounds`
rounds: read the block of `hash` at `number`, append it, and go on from its parent hash one
number down, a `uint64` that wraps below zero. -/
def getBlocksFromHashLoop (bc : BodyChain) : Nat → Hash → Nat → List Block → List Block
  | 0, _, _, blocks => blocks
  | rounds + 1, hash, number, blocks =>
    match bc.getBlock hash number with
    | none => blocks
    | some block =>
      getBlocksFromHashLoop bc rounds block.header.parentHash (prevNumber number) (blocks ++ [block])

/-- `GetBlocksFromHash`, `core/headerchain.go:821-836`: the number of `hash` through
`GetBlockNumber`, then `n` rounds of the loop. -/
def getBlocksFromHash (hc : HeaderChain) (bc : BodyChain) (hash : Hash) (n : Int) :
    List Block × HeaderChain :=
  match hc.getBlockNumber hash with
  | (none, hc) => ([], hc)
  | (some number, hc) => (getBlocksFromHashLoop bc n.toNat hash number [], hc)

/-- On a body chain whose blocks carry the number they are read at, the loop of
`GetBlocksFromHash`, which counts its own number down, appends the walk's blocks. -/
theorem getBlocksFromHashLoop_eq {bc : BodyChain}
    (hsound : ∀ hash number b, bc.getBlock hash number = some b → b.header.number = number) :
    ∀ (rounds : Nat) (hash : Hash) (number : Nat) (blocks : List Block),
      getBlocksFromHashLoop bc rounds hash number blocks =
        blocks ++ chainBlocks bc rounds (bc.getBlock hash number)
  | 0, _, _, blocks => (List.append_nil blocks).symm
  | rounds + 1, hash, number, blocks => by
    rw [getBlocksFromHashLoop]
    rcases hb : bc.getBlock hash number with _ | b
    · exact (List.append_nil blocks).symm
    · dsimp only
      rw [getBlocksFromHashLoop_eq hsound rounds, chainBlocks, hsound hash number b hb,
        List.append_assoc, List.singleton_append]

/-- On a body chain whose blocks carry the number they are read at, `GetBlocksFromHash(hash, n)`
for a hash with a number returns the first `n` blocks of the walk that `GetUnclesInChain` and
`GetGasUsedInChain` take from that hash's block, though it counts numbers down itself where
they read each block's own number. -/
theorem getBlocksFromHash_eq_chainBlocks (hc : HeaderChain) {bc : BodyChain}
    (hsound : ∀ hash number b, bc.getBlock hash number = some b → b.header.number = number)
    {hash : Hash} {number : Nat} (hnum : (hc.getBlockNumber hash).1 = some number) (n : Int) :
    (hc.getBlocksFromHash bc hash n).1 = chainBlocks bc n.toNat (bc.getBlock hash number) := by
  unfold getBlocksFromHash
  split
  · next heq => cases hnum.symm.trans (congrArg Prod.fst heq)
  · next m _ heq =>
    obtain rfl := Option.some_inj.mp ((congrArg Prod.fst heq).symm.trans hnum)
    exact (getBlocksFromHashLoop_eq hsound _ _ _ []).trans (List.nil_append _)

/-! ### Blocks by hash -/

/-- `GetBlockByHash`, `core/headerchain.go:760-766`: the number through `GetBlockNumber`, then
the body chain's `GetBlock`. -/
def getBlockByHash (hc : HeaderChain) (bc : BodyChain) (hash : Hash) : Option Block × HeaderChain :=
  match hc.getBlockNumber hash with
  | (none, hc) => (none, hc)
  | (some number, hc) => (bc.getBlock hash number, hc)

/-- `CurrentBlock`, `core/headerchain.go:657-659`. -/
def currentBlock (hc : HeaderChain) (bc : BodyChain) : Option Block × HeaderChain :=
  hc.getBlockByHash bc hc.currentHeader.hash

/-- A hash whose number entry is stored reads the body chain's block at that number, whatever
the caches hold. -/
theorem getBlockByHash_of_numbers (hc : HeaderChain) (bc : BodyChain) {hash : Hash} {n : Nat}
    (hn : hc.headerDb.numbers hash = some n) : (hc.getBlockByHash bc hash).1 = bc.getBlock hash n := by
  have hnum : (hc.getBlockNumber hash).1 = some n := hc.caches.getBlockNumber_of_numbers hc.headerDb hn
  unfold getBlockByHash
  split
  · next heq => cases hnum.symm.trans (congrArg Prod.fst heq)
  · next m _ heq => rw [Option.some_inj.mp ((congrArg Prod.fst heq).symm.trans hnum)]

/-! ### The gas sum in a 64-bit `int` -/

/-- The exact sum of `GasUsed` over the first `rounds` blocks of the walk from `block`. -/
def gasSum (bc : BodyChain) (rounds : Nat) (block : Option Block) : Nat :=
  ((chainBlocks bc rounds block).map fun b => b.header.gasUsed).sum

/-- Adding the 64-bit words of naturals gives the word of their sum. -/
theorem foldl_add_ofNat (f : Block → Nat) : ∀ (l : List Block) (s : Nat),
    l.foldl (fun g b => g + BitVec.ofNat 64 (f b)) (BitVec.ofNat 64 s) =
      BitVec.ofNat 64 (s + (l.map f).sum)
  | [], s => by rw [List.foldl_nil, List.map_nil, List.sum_nil, Nat.add_zero]
  | b :: l, s => by
    rw [List.foldl_cons, BitVec.ofNat_add_ofNat, foldl_add_ofNat f l, List.map_cons, List.sum_cons,
      Nat.add_assoc]

/-- `GetGasUsedInChain` returns, as an integer, the exact sum of `GasUsed` over the walk's
first `length` blocks reduced to Go's signed 64-bit range, and so that sum exactly when the
sum is below `2^63`. -/
theorem getGasUsedInChain_toInt (bc : BodyChain) (block : Option Block) (length : Int) :
    (getGasUsedInChain bc block length).toInt = Int.bmod (gasSum bc length.toNat block) (2 ^ 64) ∧
      ((getGasUsedInChain bc block length).toInt = gasSum bc length.toNat block ↔
        gasSum bc length.toNat block < 2 ^ 63) := by
  have hword : getGasUsedInChain bc block length = BitVec.ofNat 64 (gasSum bc length.toNat block) := by
    rw [getGasUsedInChain, foldChain_eq_foldl, show (0 : BitVec 64) = BitVec.ofNat 64 0 from rfl,
      foldl_add_ofNat, Nat.zero_add, gasSum]
  rw [hword, BitVec.toInt_ofNat]
  refine ⟨rfl, fun heq => ?_, fun hlt => ?_⟩
  · have hlt := heq ▸ Int.bmod_lt (x := (gasSum bc length.toNat block : Int))
      (m := 2 ^ 64) (by decide)
    have : ((2 ^ 64 : Nat) + 1 : Int) / 2 = 2 ^ 63 := by decide
    omega
  · rw [Int.bmod_def, Int.emod_eq_of_lt (by omega) (by omega), if_pos (by omega)]

/-! ### `ExportN` -/

/-- `GetBlockByNumber`, `core/headerchain.go:770-776`. -/
def getBlockByNumber (hc : HeaderChain) (bc : BodyChain) (number : Nat) : Option Block :=
  let hash := Rawdb.readCanonicalHash hc.headerDb number
  if hash = .zero then none else bc.getBlock hash number

/-- The loop of `ExportN`, `core/headerchain.go:743-756`, for at most `fuel` rounds, from block
number `nr` with the blocks `w` written so far: `none` when the rounds run out, else the error
returned and the blocks written. `nr` is a `uint64`: `nr++` wraps to zero past `2^64 - 1`.
`encodeRLP` is what writing a block's encoding returns; the progress log is not modelled. -/
def exportLoop (hc : HeaderChain) (bc : BodyChain) (encodeRLP : Block → Option ChainError)
    (last : Nat) : Nat → Nat → List Block → Option (Option ChainError × List Block)
  | 0, _, _ => none
  | fuel + 1, nr, w =>
    if nr ≤ last then
      match hc.getBlockByNumber bc nr with
      | none => some (some (.new ("export failed on #" ++ toString nr ++ ": not found")), w)
      | some block =>
        match encodeRLP block with
        | some err => some (some err, w)
        | none => exportLoop hc bc encodeRLP last fuel ((nr + 1) % 2 ^ 64) (w ++ [block])
    else some (none, w)

/-- `ExportN`, `core/headerchain.go:733-757`, its loop run for at most `fuel` rounds. -/
def exportN (hc : HeaderChain) (bc : BodyChain) (encodeRLP : Block → Option ChainError)
    (w : List Block) (first last fuel : Nat) : Option (Option ChainError × List Block) :=
  if first > last then
    some (some (.new ("export failed: first (" ++ toString first ++ ") is greater than last (" ++
      toString last ++ ")")), w)
  else hc.exportLoop bc encodeRLP last fuel first w

/-- `Export`, `core/headerchain.go:728-730`: `ExportN` from block zero to the head's number,
its loop run for at most `fuel` rounds (`export` is a keyword of Lean). -/
def exportChain (hc : HeaderChain) (bc : BodyChain) (encodeRLP : Block → Option ChainError)
    (w : List Block) (fuel : Nat) : Option (Option ChainError × List Block) :=
  hc.exportN bc encodeRLP w 0 hc.currentHeader.number fuel

variable (hc : HeaderChain) (bc : BodyChain) {encodeRLP : Block → Option ChainError}

/-- A round that finds block `nr` and writes it goes on from `nr + 1`, wrapped. -/
theorem exportLoop_succ_found {last fuel nr : Nat} {w : List Block} {block : Block}
    (hnr : nr ≤ last) (hb : hc.getBlockByNumber bc nr = some block)
    (henc : encodeRLP block = none) :
    hc.exportLoop bc encodeRLP last (fuel + 1) nr w =
      hc.exportLoop bc encodeRLP last fuel ((nr + 1) % 2 ^ 64) (w ++ [block]) := by
  simp only [exportLoop, if_pos hnr, hb, henc]

/-- `m` rounds below `2^64` that each find their block write those blocks, in order, and
move the counter `m` on. -/
theorem exportLoop_found {last : Nat} (henc : ∀ b, encodeRLP b = none) :
    ∀ {m nr : Nat} (fuel : Nat) (w : List Block), nr + m ≤ last + 1 → nr + m < 2 ^ 64 →
      (∀ i < m, hc.getBlockByNumber bc (nr + i) ≠ none) →
      hc.exportLoop bc encodeRLP last (fuel + m) nr w =
        hc.exportLoop bc encodeRLP last fuel (nr + m)
          (w ++ (List.range' nr m).filterMap (hc.getBlockByNumber bc))
  | 0, nr, fuel, w, _, _, _ => by rw [List.range'_zero, List.filterMap_nil, List.append_nil]; rfl
  | m + 1, nr, fuel, w, hlast, htop, hfound => by
    obtain ⟨b, hb⟩ := Option.ne_none_iff_exists'.mp (hfound 0 (Nat.succ_pos _))
    rw [Nat.add_zero] at hb
    have hrest := exportLoop_found henc fuel (w ++ [b]) (show nr + 1 + m ≤ last + 1 by omega)
      (by omega) fun i hi => by rw [Nat.add_right_comm, Nat.add_assoc]; exact hfound (i + 1) (by omega)
    rw [← Nat.add_assoc, exportLoop_succ_found hc bc (by omega) hb (henc b),
      Nat.mod_eq_of_lt (by omega), hrest, List.range'_succ, List.filterMap_cons, hb]
    simp only [List.append_assoc, List.singleton_append, show nr + 1 + m = nr + (m + 1) by omega]

/-- With `last = 2^64 - 1`, on a chain where every number has a block and writing never fails,
the loop never ends: its test `nr <= last` always holds, and `nr++` wraps to zero. -/
theorem exportLoop_top (henc : ∀ b, encodeRLP b = none)
    (hblocks : ∀ n, hc.getBlockByNumber bc n ≠ none) :
    ∀ (fuel : Nat) {nr : Nat} (w : List Block), nr < 2 ^ 64 →
      hc.exportLoop bc encodeRLP (2 ^ 64 - 1) fuel nr w = none
  | 0, _, _, _ => rfl
  | fuel + 1, nr, w, hnr => by
    obtain ⟨b, hb⟩ := Option.ne_none_iff_exists'.mp (hblocks nr)
    rw [exportLoop_succ_found hc bc (by omega) hb (henc b)]
    exact exportLoop_top henc hblocks fuel _ (Nat.mod_lt _ (by decide))

/-- For every chain on which every number has a canonical block and writing never fails,
`ExportN(w, first, 2^64 - 1)` returns within no number of rounds. -/
theorem exportN_top_never_returns (henc : ∀ b, encodeRLP b = none)
    (hblocks : ∀ n, hc.getBlockByNumber bc n ≠ none) (w : List Block) {first : Nat}
    (hfirst : first < 2 ^ 64) (fuel : Nat) :
    hc.exportN bc encodeRLP w first (2 ^ 64 - 1) fuel = none := by
  rw [exportN, if_neg (by omega)]
  exact exportLoop_top hc bc henc hblocks fuel w hfirst

/-- Below the top of the `uint64` range, with writes that never fail and more rounds than
the numbers `first..last`, `ExportN(w, first, last)` writes the canonical blocks from `first`
on, in order, up to the first number without one: it returns nil having written all of
`first..last` when each has a block, and the not-found error of the least number `k` without
one, having written `first..k-1`, otherwise. -/
theorem exportN_below_top (henc : ∀ b, encodeRLP b = none) (w : List Block)
    {first last fuel : Nat} (hfl : first ≤ last) (hlast : last < 2 ^ 64 - 1)
    (hfuel : last + 1 - first < fuel) :
    ((∀ n, first ≤ n → n ≤ last → hc.getBlockByNumber bc n ≠ none) →
      hc.exportN bc encodeRLP w first last fuel =
        some (none, w ++ (List.range' first (last + 1 - first)).filterMap (hc.getBlockByNumber bc))) ∧
    (∀ k, first ≤ k → k ≤ last → hc.getBlockByNumber bc k = none →
      (∀ n, first ≤ n → n < k → hc.getBlockByNumber bc n ≠ none) →
      hc.exportN bc encodeRLP w first last fuel =
        some (some (.new ("export failed on #" ++ toString k ++ ": not found")),
          w ++ (List.range' first (k - first)).filterMap (hc.getBlockByNumber bc))) := by
  rw [exportN, if_neg (Nat.not_lt.mpr hfl)]
  refine ⟨fun hall => ?_, fun k hk hkl hmiss hbefore => ?_⟩
  · obtain ⟨fuel, rfl⟩ : ∃ f, fuel = f + 1 + (last + 1 - first) :=
      ⟨fuel - 1 - (last + 1 - first), by omega⟩
    rw [exportLoop_found hc bc henc _ w (by omega) (by omega)
      fun i hi => hall (first + i) (by omega) (by omega)]
    simp only [exportLoop, if_neg (show ¬first + (last + 1 - first) ≤ last by omega)]
  · obtain ⟨fuel, rfl⟩ : ∃ f, fuel = f + 1 + (k - first) :=
      ⟨fuel - 1 - (k - first), by omega⟩
    rw [exportLoop_found hc bc henc _ w (by omega) (by omega)
      fun i hi => hbefore (first + i) (by omega) (by omega)]
    simp only [exportLoop, show first + (k - first) = k by omega, if_pos hkl, hmiss]

end HeaderChain

namespace Example

open HeaderChain

/-- A block of branch `a` using `2^62` gas. -/
def halfA : Block := ⟨⟨genesis.hash, 1, [1, 1], 2 ^ 64 - 1, 2 ^ 62, 0⟩, []⟩

/-- A child of `halfA`, also using `2^62` gas. -/
def halfB : Block := ⟨⟨halfA.header.hash, 2, [1, 1], 2 ^ 64 - 1, 2 ^ 62, 0⟩, []⟩

/-- A body chain holding `halfA` only. -/
def halves : BodyChain :=
  ⟨fun hash n => if hash = halfA.header.hash ∧ n = 1 then some halfA else none⟩

/-- `GetGasUsedInChain(halfB, 2)`: the walk is `halfB, halfA`, each `int(GasUsed)` is exact and
the gas used is `2^63`, yet the sum in a Go `int` reads as `-2^63`. -/
theorem getGasUsedInChain_wraps :
    chainBlocks halves 2 (some halfB) = [halfB, halfA] ∧ gasSum halves 2 (some halfB) = 2 ^ 63 ∧
      (getGasUsedInChain halves (some halfB) 2).toInt = -2 ^ 63 :=
  ⟨rfl, rfl, by decide⟩

/-- `halfA` stored with its number entry, over the genesis. -/
def storedHalfA : HeaderChain := chainOf [genesis, halfA.header] [genesis] genesis

/-- `halves` returns blocks numbered as asked. -/
theorem halves_sound :
    ∀ hash number b, halves.getBlock hash number = some b → b.header.number = number := by
  intro hash number b hb
  simp only [halves] at hb
  split_ifs at hb with h
  · cases hb
    exact h.2.symm

/-- From `halfA`'s hash, `GetBlocksFromHash` over `halves` returns `halfA`, whose parent has
no block. -/
theorem getBlocksFromHash_halfA :
    (storedHalfA.getBlockNumber halfA.header.hash).1 = some 1 ∧
      (storedHalfA.getBlocksFromHash halves halfA.header.hash 2).1 =
        chainBlocks halves (2 : Int).toNat (halves.getBlock halfA.header.hash 1) ∧
      chainBlocks halves 2 (halves.getBlock halfA.header.hash 1) = [halfA] :=
  have hnum : (storedHalfA.getBlockNumber halfA.header.hash).1 = some 1 := rfl
  ⟨hnum, getBlocksFromHash_eq_chainBlocks storedHalfA halves_sound hnum 2, rfl⟩

/-- The header numbered `n` of a chain on which every number has a block. -/
def numbered (n : Nat) : Header := ⟨.zero, n, [], 0, 0, 0⟩

/-- A chain whose canonical mapping names `numbered n` at every number `n`. -/
def everyNumber : HeaderChain :=
  { genesisOnly with
    headerDb := { genesisOnly.headerDb with canonical := fun n => (numbered n).hash } }

/-- A body chain holding a block without uncles for every hash and number. -/
def allBodies : BodyChain := ⟨fun _ n => some ⟨numbered n, []⟩⟩

/-- On `everyNumber` every number reads a block. -/
theorem getBlockByNumber_everyNumber (n : Nat) :
    everyNumber.getBlockByNumber allBodies n = some ⟨numbered n, []⟩ := by
  simp [getBlockByNumber, everyNumber, allBodies]

/-- On `everyNumber`, exporting up to `2^64 - 1` has not returned after three rounds. -/
theorem exportN_top_never_returns_everyNumber :
    (∀ n, everyNumber.getBlockByNumber allBodies n ≠ none) ∧
      everyNumber.exportN allBodies (fun _ => none) [] 0 (2 ^ 64 - 1) 3 = none :=
  have hblocks : ∀ n, everyNumber.getBlockByNumber allBodies n ≠ none := fun n =>
    (getBlockByNumber_everyNumber n).symm ▸ Option.some_ne_none _
  ⟨hblocks, exportN_top_never_returns everyNumber allBodies (fun _ => rfl) hblocks [] (by decide) 3⟩

/-- On `everyNumber`, exporting `0..2` in four rounds writes the three blocks and returns nil. -/
theorem exportN_below_top_everyNumber :
    (0 ≤ 2 ∧ 2 < 2 ^ 64 - 1 ∧ 2 + 1 - 0 < 4) ∧
      everyNumber.exportN allBodies (fun _ => none) [] 0 2 4 =
        some (none, [] ++ (List.range' 0 (2 + 1 - 0)).filterMap (everyNumber.getBlockByNumber allBodies)) :=
  have hfl : 0 ≤ 2 := by decide
  have hlast : 2 < 2 ^ 64 - 1 := by decide
  have hfuel : 2 + 1 - 0 < 4 := by decide
  ⟨⟨hfl, hlast, hfuel⟩, (exportN_below_top everyNumber allBodies (fun _ => rfl) [] hfl hlast hfuel).1
    fun n _ _ => (getBlockByNumber_everyNumber n).symm ▸ Option.some_ne_none _⟩

end Example

end QuaiHeaderChain
