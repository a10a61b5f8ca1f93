import QuaiHeaderChain.Append
import QuaiHeaderChain.Ancestor

/-!
# The garbage collection of `Append` keeps the canonical chain

`core/headerchain.go:175-193`. When the registry is full, `Append` walks from its first head
down to `findCommonHeader`'s answer and `trim` deletes every header on the way. On a good
state, the walk stops at the first header of the path that is canonical, or at a header
numbered zero when its number maps to the genesis; the trim then deletes only headers the
walk passed, none of them canonical. The second stop needs the path's numbers to go down by
one per parent, as the consensus engine checks of every header it accepts: below a header
numbered zero there is then no header to delete.
-/

namespace QuaiHeaderChain

namespace Hash

/-- Along the parent chain of a hash, every header whose parent is a header is numbered one
above it. -/
def WellNumbered : Hash → Prop
  | digest p n _ _ _ _ => (∀ m, p.number? = some m → m + 1 = n) ∧ p.WellNumbered
  | _ => True

@[simp] theorem wellNumbered_digest (p : Hash) (n : Nat) (l : List UInt8) (gl gu r : Nat) :
    (digest p n l gl gu r).WellNumbered ↔ (∀ m, p.number? = some m → m + 1 = n) ∧ p.WellNumbered :=
  Iff.rfl

@[simp] theorem wellNumbered_zero : zero.WellNumbered := trivial

/-- The ancestors of a well-numbered hash are well numbered. -/
theorem WellNumbered.ancestor? {h r : Hash} {k : Nat} (hw : h.WellNumbered)
    (hr : h.ancestor? k = some r) : r.WellNumbered := by
  induction k generalizing h with
  | zero => rw [ancestor?_zero, Option.some_inj] at hr; exact hr ▸ hw
  | succ k ih =>
    cases h with
    | digest p n l gl gu rest => exact ih hw.2 hr
    | zero => cases hr
    | nilHeader => cases hr

/-- A hash committing to no number is not a header's: nothing stands behind it. -/
theorem depth_eq_zero_of_number?_eq_none {h : Hash} (hn : h.number? = none) : h.depth = 0 := by
  cases h with
  | digest => cases hn
  | zero => rfl
  | nilHeader => rfl

end Hash

/-- The parent of a well-numbered header numbered zero is no header. -/
theorem Header.parent_depth_of_wellNumbered {Z : Header} (hw : Z.hash.WellNumbered)
    (hZ : Z.number = 0) : Z.parentHash.depth = 0 := by
  apply Hash.depth_eq_zero_of_number?_eq_none
  cases hm : Z.parentHash.number? with
  | none => rfl
  | some m => have := hw.1 m hm; omega

namespace HeaderChain

/-- In a good state, the genesis is canonical only at number zero. -/
theorem Good.eq_zero_of_canonical_eq_genesis {hc : HeaderChain} {g : Hash} {m : Nat}
    (hgood : hc.Good) (hg : hc.genesisHeader.hash = g) (h : hc.headerDb.canonical m = g) :
    m = 0 := by
  subst hg
  rw [hgood.canonical] at h
  split_ifs at h with hm
  · cases hanc : hc.currentHeader.hash.ancestor? (hc.currentHeader.number - m) with
    | none => rw [hanc] at h; exact absurd h.symm (Header.hash_ne_zero _)
    | some r =>
      rw [hanc, Option.getD_some] at h
      subst h
      have h₁ := Hash.depth_of_ancestor? hanc
      have h₂ := Hash.depth_of_ancestor? hgood.genesis
      omega
  · exact absurd h.symm (Header.hash_ne_zero _)

/-- In a good state, a header canonical at its number is not on the part of a well-numbered
path that a trim down to the path's common header deletes. -/
theorem Good.not_trimmedPath {hc : HeaderChain} {first : Option Header} {common X : Header}
    (hgood : hc.Good) (hg : hc.genesisHeader.hash = hc.config.genesisHashes hc.config.context)
    (hwn : (ptrHash first).WellNumbered) (hfind : (hc.findCommonHeader first).1 = some common)
    (hcan : hc.headerDb.canonical X.number = X.hash) :
    ¬ TrimmedPath (ptrHash first) 0 common.hash X.hash := by
  rintro ⟨k, -, hk, hnot⟩
  obtain ⟨j, Z, -, hZ, hbefore, hcommon⟩ := findCommonHeaderLoop_spec (start_on_path first) hfind
  -- the walk passed `X`, which is not canonical
  by_cases hkj : k < j
  · exact hbefore k X (Nat.zero_le _) hkj hk hcan
  -- the walk stopped at `Z`, above `X` or at it, through the genesis condition
  have hZc : Z.hash ≠ common.hash := fun he => hnot j (Nat.zero_le _) (by omega) (he ▸ hZ)
  rcases hcommon with ⟨rfl, -⟩ | ⟨hgen, hcg⟩
  · exact hZc rfl
  have hZ0 := hgood.eq_zero_of_canonical_eq_genesis hg hgen
  rcases Nat.eq_or_lt_of_le (not_lt.mp hkj) with rfl | hlt
  · -- `X` is `Z`: canonical at zero, it is the genesis, where the trim stops
    obtain rfl := Header.hash_inj (Option.some_inj.mp (hk.symm.trans hZ))
    exact hnot j (Nat.zero_le _) le_rfl (by rw [hk, hcg, ← hgen, hcan])
  · -- below `Z`, numbered zero, a well-numbered path has no header
    have hpar := Header.parent_depth_of_wellNumbered (hwn.ancestor? hZ) hZ0
    rw [show k = j + 1 + (k - j - 1) by omega, Hash.ancestor?_add,
      Header.ancestor?_succ_of_hash hZ, Option.some_bind] at hk
    have hdepth := Hash.depth_of_ancestor? hk
    rw [hpar, Header.depth_hash] at hdepth
    omega

variable (maxHeadsQueueLimit : Nat) (sorter : HeadsSorter)

/-- The garbage collection deletes only what a trim of the registry's first head down to its
common header may delete. -/
theorem collectAndPush_deletes {hc hc' : HeaderChain} {block : Header} {err : Option ChainError}
    (h : collectAndPush maxHeadsQueueLimit sorter hc block = .ok (err, hc')) :
    hc'.headerDb = hc.headerDb ∨ ∃ first rest common, hc.heads = first :: rest ∧
      (hc.findCommonHeader first).1 = some common ∧
      Rawdb.DeletesOnly (TrimmedPath (ptrHash first) 0 common.hash) hc.headerDb hc'.headerDb := by
  rcases collectAndPush_cases maxHeadsQueueLimit sorter h with
    ⟨-, hpush⟩ | ⟨first, rest, hheads, -, ⟨hfind, -⟩ | ⟨common, hc₁, hc₂, hfind, htrim, hpush⟩⟩
  · obtain ⟨-, _, -, rfl⟩ := pushHead_eq_ok sorter hpush
    exact .inl rfl
  · obtain rfl : hc' = _ := (congrArg Prod.snd hfind).symm
    exact .inl (cachesOnly_findCommonHeaderLoop _ hc first).headerDb
  · obtain ⟨-, _, -, rfl⟩ := pushHead_eq_ok sorter hpush
    obtain rfl : hc₁ = _ := (congrArg Prod.snd hfind).symm
    refine .inr ⟨first, rest, common, hheads, congrArg Prod.fst hfind, ?_⟩
    rw [← (cachesOnly_findCommonHeaderLoop _ hc first).headerDb]
    exact (trimLoop_spec (start_on_path first) htrim).deletesOnly

/-- In a good state whose genesis is the context's, with a registry of well-numbered heads,
the garbage collection and registry update keep every header canonical at its number. -/
theorem collectAndPush_keeps_canonical {hc hc' : HeaderChain} {block X : Header}
    {err : Option ChainError} (hgood : hc.Good)
    (hg : hc.genesisHeader.hash = hc.config.genesisHashes hc.config.context)
    (hwn : ∀ x ∈ hc.heads, (ptrHash x).WellNumbered)
    (hX : hc.headerDb.headers X.hash X.number = some X)
    (hcan : hc.headerDb.canonical X.number = X.hash)
    (h : collectAndPush maxHeadsQueueLimit sorter hc block = .ok (err, hc')) :
    hc'.headerDb.headers X.hash X.number = some X := by
  rcases collectAndPush_deletes maxHeadsQueueLimit sorter h with
    hdb | ⟨first, _, common, hheads, hfind, hdel⟩
  · rw [hdb]; exact hX
  · by_contra hne
    have htrim := (hdel.2.1 X.hash X.number (by rwa [hX])).1
    exact hgood.not_trimmedPath hg (hwn first (hheads ▸ List.mem_cons_self _ _)) hfind hcan
      htrim

/-- In a good state whose genesis is the context's, with a registry of well-numbered heads,
`Append` never deletes a header canonical at its number, unless the call's body failed on
that very header. -/
theorem append_keeps_canonical {hc hc' : HeaderChain} {block X : Header}
    {replies : AppendReplies} {err : Option ChainError} (hgood : hc.Good)
    (hg : hc.genesisHeader.hash = hc.config.genesisHashes hc.config.context)
    (hwn : ∀ x ∈ hc.heads, (ptrHash x).WellNumbered)
    (hX : hc.headerDb.headers X.hash X.number = some X)
    (hcan : hc.headerDb.canonical X.number = X.hash)
    (hbody : replies.append = none ∨ block.hash ≠ X.hash)
    (h : hc.append maxHeadsQueueLimit sorter block replies = .ok (err, hc')) :
    hc'.headerDb.headers X.hash X.number = some X := by
  have hX₀ := Rawdb.headers_writeHeader_of_stored hc.headerDb block hX
  rcases append_cases maxHeadsQueueLimit sorter h with
    ⟨-, -, -, rfl⟩ | ⟨-, -, e, he, -, rfl⟩ | ⟨-, -, -, h⟩
  · exact hX
  · -- the body failed on another block
    have hne : X.hash ≠ block.hash := fun hXb => by simp [he] at hbody; exact hbody hXb.symm
    simpa [hne] using hX₀
  -- the collection runs on the store with the block written, a good state still
  set hc₀ : HeaderChain := { hc with headerDb := Rawdb.writeHeader hc.headerDb block }
  have hgood₀ : hc₀.Good := ⟨hgood.1, hgood.2⟩
  exact collectAndPush_keeps_canonical maxHeadsQueueLimit sorter hgood₀ hg hwn hX₀ hcan h

end HeaderChain

namespace Example

open HeaderChain

/-- Head `a1` over a store that also holds the competing `b1`, the only head of a registry
of one. -/
def collectB1 : HeaderChain :=
  { chainOf [genesis, a1, b1] [genesis, a1] a1 with heads := [some b1] }

/-- `collectB1` is good: its canonical entries are `a1`'s parent chain. -/
theorem good_collectB1 : collectB1.Good where
  canonical n := by
    rcases n with _ | _ | n <;>
      simp [collectB1, chainOf, a1, genesis, Header.hash, Hash.ancestor?, Database.empty]
  genesis := rfl

/-- Its only head is well numbered. -/
theorem wellNumbered_heads_collectB1 : ∀ x ∈ collectB1.heads, (ptrHash x).WellNumbered := by
  simp [collectB1, b1, genesis, Header.hash, Hash.number?]

/-- Appending `a2` evicts `b1` and trims it, and keeps the canonical `a1`. -/
theorem append_keeps_canonical_a1 :
    collectB1.Good ∧ (∀ x ∈ collectB1.heads, (ptrHash x).WellNumbered) ∧
      ∃ hc', collectB1.append 1 .insertion a2 accept = .ok (none, hc') ∧
        hc'.headerDb.headers b1.hash b1.number = none ∧
        hc'.headerDb.headers a1.hash a1.number = some a1 :=
  ⟨good_collectB1, wellNumbered_heads_collectB1, _, rfl, rfl,
    @append_keeps_canonical 1 .insertion collectB1 _ a2 a1 accept none good_collectB1 rfl
      wellNumbered_heads_collectB1 rfl rfl (.inl rfl) rfl⟩

end Example

end QuaiHeaderChain
