import QuaiHeaderChain.Invariants

/-!
# The canonical chain over runs that reorg

`core/headerchain.go:217-334` over whole runs. `SetCurrentHeader` moves the head to a child of
the current head on its fast path, and across a fork through `findCommonHeader`, the unwind of
the old branch and the replay of the new one otherwise. The runs here take both paths: beside
`Append`, `Reset` and `ResetWithGenesisBlock`, the head moves to a child, or across a fork to a
head that stands no farther above the common header than the old head did, with both branches
stored down to it. In every state such a run reaches, the canonical mapping is the head's
parent chain down to the genesis. On the normal path, where no reset deletes headers and the
moves to a child go to a stored one, every canonical entry up to the head is also stored.

The unwind and the replay write each header they pass into one of the three `sliceHeaders`
entries, indexed by its location coordinate at the node's context (`core/headerchain.go:311,328`),
so the appended blocks must fill such a slot.
-/

namespace QuaiHeaderChain

namespace HeaderChain

variable {maxHeadsQueueLimit : Nat} {sorter : HeadsSorter}

/-! ### What each call keeps -/

/-- Every call of a run keeps the configuration. -/
theorem Step.config {hc hc' : HeaderChain} (hs : Step maxHeadsQueueLimit sorter hc hc') :
    hc'.config = hc.config := by
  cases hs with
  | append h => exact (append_keeps_head h).2.2
  | setCurrentHeader h => exact (setCurrentHeader_canonicalOnly h).config
  | reset h => exact (foldlM_trim_trimsOnly h).config
  | resetWithGenesisBlock h => exact (foldlM_trim_trimsOnly h).config
  | read h => obtain ⟨_, rfl⟩ := h; rfl

/-- `Append` stores no header but its block. -/
theorem append_headers {hc hc' : HeaderChain} {block : Header} {replies : AppendReplies}
    {err : Option ChainError}
    (h : hc.append maxHeadsQueueLimit sorter block replies = .ok (err, hc')) {hash : Hash}
    {n : Nat} {X : Header} (hX : hc'.headerDb.headers hash n = some X) :
    hc.headerDb.headers hash n = some X ∨ X = block := by
  have hw : ∀ {db : Database}, (Rawdb.writeHeader db block).headers hash n = some X →
      db.headers hash n = some X ∨ X = block := by
    intro db hw
    rw [Rawdb.headers_writeHeader] at hw
    split_ifs at hw
    · exact .inr (Option.some_inj.mp hw).symm
    · exact .inl hw
  rcases append_frame maxHeadsQueueLimit sorter h with rfl | rfl | ⟨hc₁, heads, htrim, rfl⟩
  · exact .inl hX
  · rw [Rawdb.headers_deleteHeader] at hX
    by_cases hk : hash = block.hash ∧ n = block.number
    · rw [if_pos hk] at hX
      cases hX
    · rw [if_neg hk] at hX
      exact hw hX
  · exact hw (htrim.deletesOnly.headers_of_some hX)

/-- Slots are kept by a change of the store whose new headers each fill a slot. -/
theorem SlotsOk.of_headers {hc hc' : HeaderChain} (h : hc.SlotsOk)
    (hcfg : hc'.config = hc.config)
    (hsub : ∀ X : Header, hc'.headerDb.headers X.hash X.number = some X →
      hc.headerDb.headers X.hash X.number = some X ∨
        ∃ b, X.location[hc.config.context.val]? = some b ∧ (b - 1).toNat < 3) :
    hc'.SlotsOk := by
  unfold SlotsOk at h ⊢
  rw [hcfg]
  refine h.imp_right fun h X hX => ?_
  rcases hsub X hX with hX | hslot
  · exact h X hX
  · exact .inr hslot

/-- `SetCurrentHeader` keeps the slots: it stores no header. -/
theorem SlotsOk.setCurrentHeader {hc hc' : HeaderChain} {head : Header}
    {slices : List (Option Header)} (h : hc.SlotsOk)
    (hset : hc.setCurrentHeader head = .ok (slices, hc')) : hc'.SlotsOk :=
  have honly := setCurrentHeader_canonicalOnly hset
  h.congr honly.config honly.headers

/-- Trims keep the slots. -/
theorem SlotsOk.of_trimsOnly {P : Hash → Prop} {hc hc' : HeaderChain} (h : hc.SlotsOk)
    (ht : TrimsOnly P hc hc') : hc'.SlotsOk :=
  h.of_headers ht.config fun _ hX => .inl (ht.deletesOnly.headers_of_some hX)

/-! ### Runs -/

variable (maxHeadsQueueLimit sorter)

/-- The calls of a run that moves the head along its branch and across forks. -/
inductive ReorgStep : HeaderChain → HeaderChain → Prop
  /-- `Append` of a block whose coordinate at the node's context names one of the three
  slots. -/
  | append {hc hc' : HeaderChain} {block : Header} {replies : AppendReplies}
      {err : Option ChainError} :
      (∃ b, block.location[hc.config.context.val]? = some b ∧ (b - 1).toNat < 3) →
      hc.append maxHeadsQueueLimit sorter block replies = .ok (err, hc') → ReorgStep hc hc'
  /-- `SetCurrentHeader` to a child of the head, numbered one above it. -/
  | extend {hc hc' : HeaderChain} {head : Header} {slices : List (Option Header)} :
      head.parentHash = hc.currentHeader.hash → head.number = hc.currentHeader.number + 1 →
      hc.setCurrentHeader head = .ok (slices, hc') → ReorgStep hc hc'
  /-- `SetCurrentHeader` across a fork to a head `N`, `b` generations above the common header
  `C`, while the old head stands `a ≥ b` generations above it: both branches are stored down
  to `C` and apart above it. -/
  | reorg {hc hc' : HeaderChain} {N C : Header} {a b : Nat} {slices : List (Option Header)} :
      StoredBranch hc.headerDb.headers hc.currentHeader a →
      hc.currentHeader.hash.ancestor? a = some C.hash →
      StoredBranch hc.headerDb.headers N b → N.hash.ancestor? b = some C.hash →
      (∀ i < b, N.hash.ancestor? i ≠ hc.currentHeader.hash.ancestor? (a - b + i)) → b ≤ a →
      hc.setCurrentHeader N = .ok (slices, hc') → ReorgStep hc hc'
  | reset {hc hc' : HeaderChain} : hc.reset = .ok hc' → ReorgStep hc hc'
  | resetWithGenesisBlock {hc hc' : HeaderChain} {genesis : Header} :
      hc.resetWithGenesisBlock genesis = .ok hc' → ReorgStep hc hc'
  | read {hc hc' : HeaderChain} : CachesOnly hc hc' → ReorgStep hc hc'

/-- What such runs keep: the state is good, the store indexed, every stored header other than
the genesis in a slot, and the configuration's genesis hashes numbered zero. -/
structure ReorgInv (hc : HeaderChain) : Prop where
  good : hc.Good
  indexed : hc.headerDb.Indexed
  slots : hc.SlotsOk
  genesisZero : (hc.config.genesisHashes 0).number? = some 0
  genesisContext : (hc.config.genesisHashes hc.config.context).number? = some 0

variable {maxHeadsQueueLimit sorter}

/-- Such calls are calls of a run. -/
theorem ReorgStep.step {hc hc' : HeaderChain} (hs : ReorgStep maxHeadsQueueLimit sorter hc hc') :
    Step maxHeadsQueueLimit sorter hc hc' := by
  cases hs with
  | append _ h => exact .append h
  | extend _ _ h => exact .setCurrentHeader h
  | reorg _ _ _ _ _ _ h => exact .setCurrentHeader h
  | reset h => exact .reset h
  | resetWithGenesisBlock h => exact .resetWithGenesisBlock h
  | read h => exact .read h

/-- Every such call keeps the slots: `Append` adds a block that fills one, `SetCurrentHeader`
stores nothing, and the resets only delete. -/
theorem ReorgStep.slotsOk {hc hc' : HeaderChain} (hs : ReorgStep maxHeadsQueueLimit sorter hc hc')
    (hslots : hc.SlotsOk) : hc'.SlotsOk := by
  cases hs with
  | append hslot h =>
    exact hslots.of_headers (append_keeps_head h).2.2 fun _ hX =>
      (append_headers h hX).imp_right fun he => by rw [he]; exact hslot
  | extend _ _ h => exact hslots.setCurrentHeader h
  | reorg _ _ _ _ _ _ h => exact hslots.setCurrentHeader h
  | reset h => exact hslots.of_trimsOnly (foldlM_trim_trimsOnly h)
  | resetWithGenesisBlock h => exact hslots.of_trimsOnly (foldlM_trim_trimsOnly h)
  | read h => obtain ⟨_, rfl⟩ := h; exact hslots

/-- A reorg meeting the guards, from a state that meets the invariant, leaves a good state:
its unwind and replay leave the new head's branch above the common header. -/
theorem ReorgInv.reorg_good {hc hc' : HeaderChain} {N C : Header} {a b : Nat}
    {slices : List (Option Header)} (hinv : ReorgInv hc)
    (hP : StoredBranch hc.headerDb.headers hc.currentHeader a)
    (hPC : hc.currentHeader.hash.ancestor? a = some C.hash)
    (hN : StoredBranch hc.headerDb.headers N b) (hNC : N.hash.ancestor? b = some C.hash)
    (hfork : ∀ i < b, N.hash.ancestor? i ≠ hc.currentHeader.hash.ancestor? (a - b + i))
    (hba : b ≤ a) (h : hc.setCurrentHeader N = .ok (slices, hc')) : hc'.Good := by
  obtain ⟨slices, hc₂, h₂, hcur, hgen, hcan⟩ := setCurrentHeader_reorg_canonical hinv.good
    hinv.genesisZero hinv.genesisContext hinv.slots hP hPC hN hNC hfork
    ((hinv.indexed _ _).mpr ⟨_, (hP.last hPC).2⟩) hba
  obtain rfl : hc₂ = hc' := congrArg Prod.snd (Except.ok.inj (h₂.symm.trans h))
  exact hinv.good.of_fork hPC hNC (hP.last hPC).1 (hN.last hNC).1 hcur hgen hcan

/-- Every such call keeps a state good: the growth calls as on the growth path, and a reorg
as above. -/
theorem ReorgStep.good {hc hc' : HeaderChain} (hs : ReorgStep maxHeadsQueueLimit sorter hc hc')
    (hinv : ReorgInv hc) : hc'.Good := by
  cases hs with
  | append _ h => exact append_good maxHeadsQueueLimit sorter hinv.good h
  | extend hp hn h =>
    obtain ⟨hcan, hcur, hgen⟩ := setCurrentHeader_child_fast hp h
    exact hinv.good.extend hp hn hcan hcur hgen
  | reorg hP hPC hN hNC hfork hba h => exact hinv.reorg_good hP hPC hN hNC hfork hba h
  | reset h => exact (foldlM_trim_trimsOnly h).good hinv.good
  | resetWithGenesisBlock h => exact (foldlM_trim_trimsOnly h).good hinv.good
  | read h => obtain ⟨_, rfl⟩ := h; exact hinv.good.congr rfl rfl rfl

/-- Every such call keeps the invariant. -/
theorem ReorgStep.reorgInv {hc hc' : HeaderChain}
    (hs : ReorgStep maxHeadsQueueLimit sorter hc hc') (hinv : ReorgInv hc) : ReorgInv hc' where
  good := hs.good hinv
  indexed := (hs.step.indexed hinv.indexed).1
  slots := hs.slotsOk hinv.slots
  genesisZero := by rw [hs.step.config]; exact hinv.genesisZero
  genesisContext := by rw [hs.step.config]; exact hinv.genesisContext

/-- A fresh chain on the configured genesis, numbered zero, meets the invariant. -/
theorem fresh_reorgInv {config : Config} {genesis : Header} (hg : genesis.number = 0)
    (hctx₀ : genesis.hash = config.genesisHashes 0)
    (hctx : genesis.hash = config.genesisHashes config.context) :
    ReorgInv (fresh config genesis) where
  good := fresh_good hg
  indexed := fresh_indexed config genesis
  slots := .inr fun X hX => .inl <| by
    have hX' : (Rawdb.writeHeader .empty genesis).headers X.hash X.number = some X := hX
    rw [Rawdb.headers_writeHeader] at hX'
    split_ifs at hX' with he
    · exact he.1.trans hctx₀
    · cases hX'
  genesisZero := by
    show (config.genesisHashes 0).number? = some 0
    rw [← hctx₀, Header.number?_hash, hg]
  genesisContext := by
    show (config.genesisHashes config.context).number? = some 0
    rw [← hctx, Header.number?_hash, hg]

/-- Every state such a run reaches from a fresh chain meets the invariant. -/
theorem reorgRun_reorgInv {config : Config} {genesis : Header} {hc : HeaderChain}
    (hg : genesis.number = 0) (hctx₀ : genesis.hash = config.genesisHashes 0)
    (hctx : genesis.hash = config.genesisHashes config.context)
    (h : Relation.ReflTransGen (ReorgStep maxHeadsQueueLimit sorter) (fresh config genesis) hc) :
    ReorgInv hc := by
  induction h with
  | refl => exact fresh_reorgInv hg hctx₀ hctx
  | tail _ hs ih => exact hs.reorgInv ih

/-- In every state that a run reaches from a fresh chain on the configured genesis, numbered
zero, through `Append` of blocks that fill a slot, `Reset`, `ResetWithGenesisBlock`, and
`SetCurrentHeader` to a child of the head or across a fork to a head no farther above the
common header than the old head, both branches stored, the canonical mapping is the head's
parent chain down to the genesis. -/
theorem reorgRun_good {config : Config} {genesis : Header} {hc : HeaderChain}
    (hg : genesis.number = 0) (hctx₀ : genesis.hash = config.genesisHashes 0)
    (hctx : genesis.hash = config.genesisHashes config.context)
    (h : Relation.ReflTransGen (ReorgStep maxHeadsQueueLimit sorter) (fresh config genesis) hc) :
    hc.Good :=
  (reorgRun_reorgInv hg hctx₀ hctx h).good

/-- Appending `a1` and `a2` with the head following, appending the competing `b1`, then moving
the head across the fork at the genesis to `b1`: the state is good, with head `b1`. -/
theorem reorgRun_good_b1 :
    ∃ hc, Relation.ReflTransGen (ReorgStep 8 .insertion)
        (fresh Example.config Example.genesis) hc ∧
      hc.currentHeader = Example.b1 ∧ hc.Good := by
  have hslot : ∀ X : Header, X.location = [1, 1] →
      ∃ b, X.location[Example.config.context.val]? = some b ∧ (b - 1).toNat < 3 :=
    fun X hX => ⟨1, by rw [hX]; rfl, by decide⟩
  have r₁ : Relation.ReflTransGen (ReorgStep 8 .insertion)
      (fresh Example.config Example.genesis) _ :=
    .single (@ReorgStep.append 8 .insertion _ _ Example.a1 Example.accept none (hslot _ rfl)
      (by rfl))
  have r₂ := r₁.tail (@ReorgStep.extend 8 .insertion _ _ Example.a1 _ (by rfl) (by rfl) (by rfl))
  have r₃ := r₂.tail
    (@ReorgStep.append 8 .insertion _ _ Example.a2 Example.accept none (hslot _ rfl) (by rfl))
  have r₄ := r₃.tail (@ReorgStep.extend 8 .insertion _ _ Example.a2 _ (by rfl) (by rfl) (by rfl))
  have r₅ := r₄.tail
    (@ReorgStep.append 8 .insertion _ _ Example.b1 Example.accept none (hslot _ rfl) (by rfl))
  have r₆ := r₅.tail (@ReorgStep.reorg 8 .insertion _ _ Example.b1 Example.genesis 2 1 _
    (by
      intro i hi
      rcases i with _ | _ | _ | i
      · exact ⟨Example.a2, rfl, rfl, rfl⟩
      · exact ⟨Example.a1, rfl, rfl, rfl⟩
      · exact ⟨Example.genesis, rfl, rfl, rfl⟩
      · omega)
    (by rfl)
    (by
      intro i hi
      rcases i with _ | _ | i
      · exact ⟨Example.b1, rfl, rfl, rfl⟩
      · exact ⟨Example.genesis, rfl, rfl, rfl⟩
      · omega)
    (by rfl) (by decide) (by decide) (by rfl))
  exact ⟨_, r₆, rfl, reorgRun_good rfl rfl rfl r₆⟩

/-! ### Runs on the normal path that reorg -/

/-- A reorg meeting the guards keeps the normal path's invariant, given that it leaves a good
state: the registry is untouched, and the new head's branch is its own stored branch down to
the common header, then the old head's. -/
theorem ExtendInv.reorg {hc hc' : HeaderChain} {N C : Header} {a b : Nat}
    {slices : List (Option Header)} (hinv : ExtendInv maxHeadsQueueLimit hc) (hgood : hc'.Good)
    (hP : StoredBranch hc.headerDb.headers hc.currentHeader a)
    (hPC : hc.currentHeader.hash.ancestor? a = some C.hash)
    (hN : StoredBranch hc.headerDb.headers N b) (hNC : N.hash.ancestor? b = some C.hash)
    (h : hc.setCurrentHeader N = .ok (slices, hc')) : ExtendInv maxHeadsQueueLimit hc' := by
  have honly := setCurrentHeader_canonicalOnly h
  have hcur : hc'.currentHeader = N := honly.currentHeader
  have hheaders : hc'.headerDb.headers = hc.headerDb.headers := honly.headers
  have hCP := (hP.last hPC).1
  have hCN := (hN.last hNC).1
  -- the old head's branch, read from its top down to `C` and below
  have hold : StoredBranch hc.headerDb.headers hc.currentHeader (a + C.number) := by
    rw [show a + C.number = hc.currentHeader.number by omega]
    exact hinv.branch
  refine ⟨hgood, ?_, ?_, ?_, ?_⟩
  · rw [honly.genesisHeader, honly.config]; exact hinv.genesis
  · rw [honly.heads]; exact hinv.registry
  · rw [honly.heads]; exact hinv.wellNumbered
  · rw [hheaders, hcur, show N.number = b + C.number by omega]
    exact hN.trans hNC (hold.drop hPC)

variable (maxHeadsQueueLimit sorter)

/-- The calls of a run on the normal path that also reorgs: `Append` of a well-numbered block
whose body the body chain accepts and that fills a slot, `SetCurrentHeader` to a stored child
of the head, numbered one above it, and `SetCurrentHeader` across a fork as in `ReorgStep`. -/
inductive ForkStep : HeaderChain → HeaderChain → Prop
  | append {hc hc' : HeaderChain} {block : Header} {replies : AppendReplies}
      {err : Option ChainError} : block.hash.WellNumbered → replies.append = none →
      (∃ b, block.location[hc.config.context.val]? = some b ∧ (b - 1).toNat < 3) →
      hc.append maxHeadsQueueLimit sorter block replies = .ok (err, hc') → ForkStep hc hc'
  | extend {hc hc' : HeaderChain} {head : Header} {slices : List (Option Header)} :
      head.parentHash = hc.currentHeader.hash → head.number = hc.currentHeader.number + 1 →
      hc.headerDb.headers head.hash head.number = some head →
      hc.setCurrentHeader head = .ok (slices, hc') → ForkStep hc hc'
  | reorg {hc hc' : HeaderChain} {N C : Header} {a b : Nat} {slices : List (Option Header)} :
      StoredBranch hc.headerDb.headers hc.currentHeader a →
      hc.currentHeader.hash.ancestor? a = some C.hash →
      StoredBranch hc.headerDb.headers N b → N.hash.ancestor? b = some C.hash →
      (∀ i < b, N.hash.ancestor? i ≠ hc.currentHeader.hash.ancestor? (a - b + i)) → b ≤ a →
      hc.setCurrentHeader N = .ok (slices, hc') → ForkStep hc hc'
  | read {hc hc' : HeaderChain} : CachesOnly hc hc' → ForkStep hc hc'

/-- What such runs keep: the normal path's invariant and the reorg runs' one. -/
structure ForkInv (hc : HeaderChain) : Prop where
  extend : ExtendInv maxHeadsQueueLimit hc
  reorg : ReorgInv hc

variable {maxHeadsQueueLimit sorter}

/-- Such calls are calls of a reorg run. -/
theorem ForkStep.reorgStep {hc hc' : HeaderChain} (hs : ForkStep maxHeadsQueueLimit sorter hc hc') :
    ReorgStep maxHeadsQueueLimit sorter hc hc' := by
  cases hs with
  | append _ _ hslot h => exact .append hslot h
  | extend hp hn _ h => exact .extend hp hn h
  | reorg hP hPC hN hNC hfork hba h => exact .reorg hP hPC hN hNC hfork hba h
  | read h => exact .read h

/-- Every such call keeps the invariant. -/
theorem ForkStep.forkInv {hc hc' : HeaderChain} (hs : ForkStep maxHeadsQueueLimit sorter hc hc')
    (hinv : ForkInv maxHeadsQueueLimit hc) : ForkInv maxHeadsQueueLimit hc' := by
  refine ⟨?_, hs.reorgStep.reorgInv hinv.reorg⟩
  cases hs with
  | append hwn hbody _ h => exact hinv.extend.append hwn hbody h
  | extend hp hn hst h => exact hinv.extend.setCurrentHeader hp hn hst h
  | reorg hP hPC hN hNC hfork hba h =>
    exact hinv.extend.reorg (hinv.reorg.reorg_good hP hPC hN hNC hfork hba h) hP hPC hN hNC h
  | read h => exact hinv.extend.cachesOnly h

/-- In every state that a run on the normal path reaches from a fresh chain on the configured
genesis, numbered zero, moving the head to stored children and across forks to heads no
farther above the common header than the old head, both branches stored, the state is good
and every canonical entry up to the head names a header stored under it. -/
theorem forkRun_canonical_stored {config : Config} {genesis : Header} {hc : HeaderChain}
    (hg : genesis.number = 0) (hctx₀ : genesis.hash = config.genesisHashes 0)
    (hctx : genesis.hash = config.genesisHashes config.context)
    (h : Relation.ReflTransGen (ForkStep maxHeadsQueueLimit sorter) (fresh config genesis) hc) :
    hc.Good ∧ ∀ n ≤ hc.currentHeader.number, ∃ X : Header,
      hc.headerDb.canonical n = X.hash ∧ hc.headerDb.headers X.hash n = some X := by
  have hinv : ForkInv maxHeadsQueueLimit hc := by
    induction h with
    | refl => exact ⟨fresh_extendInv hg hctx, fresh_reorgInv hg hctx₀ hctx⟩
    | tail _ hs ih => exact hs.forkInv ih
  exact ⟨hinv.reorg.good, hinv.extend.canonical_stored⟩

/-- The same run on the normal path: with head `b1` after the reorg, the state is good and
its canonical entries name stored headers. -/
theorem forkRun_canonical_stored_b1 :
    ∃ hc, Relation.ReflTransGen (ForkStep 8 .insertion)
        (fresh Example.config Example.genesis) hc ∧
      hc.currentHeader = Example.b1 ∧ hc.Good ∧ ∀ n ≤ hc.currentHeader.number, ∃ X : Header,
        hc.headerDb.canonical n = X.hash ∧ hc.headerDb.headers X.hash n = some X := by
  have hslot : ∀ X : Header, X.location = [1, 1] →
      ∃ b, X.location[Example.config.context.val]? = some b ∧ (b - 1).toNat < 3 :=
    fun X hX => ⟨1, by rw [hX]; rfl, by decide⟩
  have hwn₁ : Example.a1.hash.WellNumbered := by
    simp [Example.a1, Example.genesis, Header.hash, Hash.number?]
  have hwn₂ : Example.a2.hash.WellNumbered := by
    simp [Example.a2, Example.a1, Example.genesis, Header.hash, Hash.number?]
  have hwnb : Example.b1.hash.WellNumbered := by
    simp [Example.b1, Example.genesis, Header.hash, Hash.number?]
  have r₁ : Relation.ReflTransGen (ForkStep 8 .insertion)
      (fresh Example.config Example.genesis) _ :=
    .single (@ForkStep.append 8 .insertion _ _ Example.a1 Example.accept none hwn₁ rfl
      (hslot _ rfl) (by rfl))
  have r₂ := r₁.tail
    (@ForkStep.extend 8 .insertion _ _ Example.a1 _ (by rfl) (by rfl) (by rfl) (by rfl))
  have r₃ := r₂.tail (@ForkStep.append 8 .insertion _ _ Example.a2 Example.accept none hwn₂ rfl
    (hslot _ rfl) (by rfl))
  have r₄ := r₃.tail
    (@ForkStep.extend 8 .insertion _ _ Example.a2 _ (by rfl) (by rfl) (by rfl) (by rfl))
  have r₅ := r₄.tail (@ForkStep.append 8 .insertion _ _ Example.b1 Example.accept none hwnb rfl
    (hslot _ rfl) (by rfl))
  have r₆ := r₅.tail (@ForkStep.reorg 8 .insertion _ _ Example.b1 Example.genesis 2 1 _
    (by
      intro i hi
      rcases i with _ | _ | _ | i
      · exact ⟨Example.a2, rfl, rfl, rfl⟩
      · exact ⟨Example.a1, rfl, rfl, rfl⟩
      · exact ⟨Example.genesis, rfl, rfl, rfl⟩
      · omega)
    (by rfl)
    (by
      intro i hi
      rcases i with _ | _ | i
      · exact ⟨Example.b1, rfl, rfl, rfl⟩
      · exact ⟨Example.genesis, rfl, rfl, rfl⟩
      · omega)
    (by rfl) (by decide) (by decide) (by rfl))
  exact ⟨_, r₆, rfl, forkRun_canonical_stored rfl rfl rfl r₆⟩

end HeaderChain

end QuaiHeaderChain
