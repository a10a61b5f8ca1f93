import QuaiHeaderChain.Reorg
import QuaiHeaderChain.Branch

/-!
# The reorg walk between two intact branches

`core/headerchain.go:240-331` on a good state, when both the old head's branch and the new
head's branch are stored down to their common header. The walk unwinds one old header and
stacks one new header per round; when the old head stands at least as high above the
common header as the new head, the new side reaches the common header first, the unwind
finishes the old side, and the replay writes the new branch: the state is good again.
-/

namespace QuaiHeaderChain

namespace HeaderChain

/-! ### The common header -/

/-- The walk of `findCommonHeader` from `Y`, `j` generations above a canonical header `C` on a
stored branch none of whose other headers is canonical, finds `C`. -/
theorem findCommonHeaderLoop_branch {hc : HeaderChain} {C Y : Header} {j fuel : Nat}
    (hY : StoredBranch hc.headerDb.headers Y j) (hYC : Y.hash.ancestor? j = some C.hash)
    (habove : ∀ i < j, ∀ Z : Header, Y.hash.ancestor? i = some Z.hash →
      hc.headerDb.canonical Z.number ≠ Z.hash ∧
        hc.headerDb.canonical Z.number ≠ hc.config.genesisHashes hc.config.context)
    (hcanC : hc.headerDb.canonical C.number = C.hash)
    (hnumC : hc.headerDb.numbers C.hash = some C.number) (hfuel : j < fuel) :
    ∃ hc', findCommonHeaderLoop fuel hc (some Y) = (some C, hc') ∧ CachesOnly hc hc' := by
  induction j generalizing hc Y fuel with
  | zero =>
    obtain ⟨fuel, rfl⟩ : ∃ f, fuel = f + 1 := ⟨fuel - 1, by omega⟩
    obtain rfl := Header.hash_inj (Option.some_inj.mp (Hash.ancestor?_zero Y.hash ▸ hYC))
    unfold findCommonHeaderLoop
    rw [Rawdb.readCanonicalHash_eq, hcanC, if_pos (.inl rfl),
      ← getHeaderByHash_of_stored hc _ hnumC hY.self]
    exact ⟨_, rfl, cachesOnly_getHeaderByHash hc _⟩
  | succ j ih =>
    obtain ⟨fuel, rfl⟩ : ∃ f, fuel = f + 1 := ⟨fuel - 1, by omega⟩
    obtain ⟨Y', hY'h, hY'n, hY'st, hY'br, hY'C⟩ := hY.down hYC
    obtain ⟨hne, hng⟩ := habove 0 (Nat.succ_pos _) Y (Hash.ancestor?_zero _)
    unfold findCommonHeaderLoop
    rw [Rawdb.readCanonicalHash_eq, if_neg (not_or.mpr ⟨hne, hng⟩)]
    dsimp only
    rw [getHeader_of_stored hc _ _ hY'st]
    dsimp only
    obtain ⟨hc', hrun, honly⟩ := @ih (hc.getHeader Y.parentHash (prevNumber Y.number)).2 Y'
      fuel hY'br hY'C
      (fun i hi Z hZ => habove (i + 1) (by omega) Z (by rw [Header.ancestor?_hash_succ, ← hY'h]; exact hZ))
      hcanC hnumC (by omega)
    exact ⟨hc', hrun, (CachesOnly.getHeader hc _ _).trans honly⟩

/-! ### The unwind -/

/-- Deleting the entry at `x` deletes the entries above `x - 1` up to `x`. -/
theorem unwind_one (f : Nat → Hash) {c x n : Nat} (hx : c + 1 = x) :
    (if n = x then Hash.zero else f n) = if c < n ∧ n ≤ x then .zero else f n := by
  split_ifs <;> first | rfl | omega

/-- Deleting the entry at `x`, then the entries above `c` up to `x - 1`, deletes the entries
above `c` up to `x`. -/
theorem unwind_succ (f : Nat → Hash) {c x' x n : Nat} (hx : x' + 1 = x) (hc : c ≤ x') :
    (if c < n ∧ n ≤ x' then Hash.zero else if n = x then .zero else f n) =
      if c < n ∧ n ≤ x then .zero else f n := by
  split_ifs <;> first | rfl | omega

/-- The unwind from `X`, `i` generations above the common header `C` on a stored branch,
deletes exactly the canonical entries above `C` up to `X`. -/
theorem unwindLoop_branch {hc : HeaderChain} {C X : Header} {i fuel : Nat}
    (hgen : (hc.config.genesisHashes 0).number? = some 0)
    (hX : StoredBranch hc.headerDb.headers X i) (hXC : X.hash.ancestor? i = some C.hash)
    (hfuel : i < fuel) :
    ∃ hc', unwindLoop fuel hc (some C) (some X) = .ok hc' ∧ CanonicalOnly hc hc' ∧
      ∀ n, hc'.headerDb.canonical n =
        if C.number < n ∧ n ≤ X.number then .zero else hc.headerDb.canonical n := by
  induction i generalizing hc X fuel with
  | zero =>
    obtain rfl := Header.hash_inj (Option.some_inj.mp (Hash.ancestor?_zero X.hash ▸ hXC))
    obtain ⟨fuel, rfl⟩ : ∃ f, fuel = f + 1 := ⟨fuel - 1, by omega⟩
    refine ⟨hc, by simp [unwindLoop], .refl hc, fun n => ?_⟩
    rw [if_neg (by omega)]
  | succ i ih =>
    obtain ⟨fuel, rfl⟩ : ∃ f, fuel = f + 1 := ⟨fuel - 1, by omega⟩
    obtain ⟨Y, hYh, hYn, hYst, hYbr, hYC⟩ := hX.down hXC
    have hCY := (hYbr.last hYC).1
    set hc₁ := { hc with headerDb := Rawdb.deleteCanonicalHash hc.headerDb X.number }
    have hread := getHeader_of_stored hc₁ X.parentHash (prevNumber X.number) hYst
    set hc₂ := (hc₁.getHeader X.parentHash (prevNumber X.number)).2
    have hstep : CanonicalOnly hc hc₂ := CanonicalOnly.unwindStep _ _ _ _
    have hcan₂ : ∀ n, hc₂.headerDb.canonical n =
        if n = X.number then .zero else hc.headerDb.canonical n := fun _ => rfl
    unfold unwindLoop
    rw [if_neg (by simpa using Header.ne_of_ancestor?_succ hXC)]
    dsimp only
    rw [hread, show hc₂.config = hc.config from rfl]
    dsimp only
    by_cases hg : Y.hash = hc.config.genesisHashes 0
    · have hY0 : Y.number = 0 := by
        rw [← hg, Header.number?_hash, Option.some_inj] at hgen
        exact hgen
      refine ⟨hc₂, by rw [ptrHash_some, if_pos hg], hstep, fun n => ?_⟩
      rw [hcan₂]
      exact unwind_one _ (by omega)
    · rw [ptrHash_some, if_neg hg, Option.isNone_some, if_neg Bool.false_ne_true]
      obtain ⟨hc', hrun, honly, hcan⟩ :=
        @ih hc₂ Y fuel hgen (hstep.headers ▸ hYbr) hYC (by omega)
      refine ⟨hc', hrun, hstep.trans honly, fun n => ?_⟩
      rw [hcan, hcan₂]
      exact unwind_succ _ hYn (by omega)

/-! ### The main loop -/

/-- Every stored header other than the genesis has a slot among the three: its coordinate at
the node's context is present and at most 3. The zone context fills no slot. -/
def SlotsOk (hc : HeaderChain) : Prop :=
  hc.config.context = ZONE ∨ ∀ X : Header, hc.headerDb.headers X.hash X.number = some X →
    X.hash = hc.config.genesisHashes 0 ∨
      ∃ b, X.location[hc.config.context.val]? = some b ∧ (b - 1).toNat < 3

/-- Slots depend only on the configuration and the stored headers. -/
theorem SlotsOk.congr {hc hc' : HeaderChain} (h : hc.SlotsOk) (hcfg : hc'.config = hc.config)
    (hheaders : hc'.headerDb.headers = hc.headerDb.headers) : hc'.SlotsOk := by
  unfold SlotsOk
  rw [hcfg, hheaders]
  exact h

/-- Changes of the canonical mapping and the caches keep the slots. -/
theorem SlotsOk.of_canonicalOnly {hc hc' : HeaderChain} (h : hc.SlotsOk)
    (h' : CanonicalOnly hc hc') : hc'.SlotsOk :=
  h.congr h'.config h'.headers

/-- The slot a stored header other than the genesis fills is within the three. -/
theorem SlotsOk.slices_ok {hc : HeaderChain} (h : hc.SlotsOk) {X : Header}
    (hX : hc.headerDb.headers X.hash X.number = some X) (hg : X.hash ≠ hc.config.genesisHashes 0)
    {sliceHeaders : List (Option Header)} (hlen : sliceHeaders.length = 3) :
    ∃ slices, (if hc.config.context ≠ ZONE then setSlice hc.config.context sliceHeaders X
        else .ok sliceHeaders) = .ok slices ∧ slices.length = 3 := by
  by_cases hz : hc.config.context = ZONE
  · exact ⟨sliceHeaders, if_neg (not_not.mpr hz), hlen⟩
  · rw [if_pos hz]
    obtain ⟨b, hb, hlt⟩ := (h.resolve_left hz X hX).resolve_left hg
    unfold setSlice
    rw [hb]
    exact ⟨_, if_pos (hlen ▸ hlt), by rw [List.length_set, hlen]⟩

/-- One round of the main loop between stored headers other than the common header: it
deletes the old header's canonical entry, reads both parents and pushes the new header, then
stops if the old side reached the genesis, or records the old parent's slot and goes on. -/
theorem reorgLoop_round {hc : HeaderChain} {C X X' Y Y' : Header}
    (hXC : X.hash ≠ C.hash) (hYC : Y.hash ≠ C.hash)
    (hX' : hc.headerDb.headers X.parentHash (prevNumber X.number) = some X')
    (hY' : hc.headerDb.headers Y.parentHash (prevNumber Y.number) = some Y') :
    ∃ hc₁, CanonicalOnly hc hc₁ ∧
      (∀ n, hc₁.headerDb.canonical n = if n = X.number then .zero else hc.headerDb.canonical n) ∧
      ∀ fuel (hashStack sliceHeaders : List (Option Header)),
        reorgLoop (fuel + 1) hc (some C) X (some Y) hashStack sliceHeaders =
          if X'.hash = hc.config.genesisHashes 0 then
            .ok (hashStack ++ [some Y], sliceHeaders, hc₁)
          else
            match (if hc.config.context ≠ ZONE then setSlice hc.config.context sliceHeaders X'
                else .ok sliceHeaders) with
            | .error e => .error e
            | .ok sliceHeaders =>
              reorgLoop fuel hc₁ (some C) X' (some Y') (hashStack ++ [some Y]) sliceHeaders := by
  set hc₁ := { hc with headerDb := Rawdb.deleteCanonicalHash hc.headerDb X.number }
  set hc₂ := (hc₁.getHeader X.parentHash (prevNumber X.number)).2
  refine ⟨(hc₂.getHeader Y.parentHash (prevNumber Y.number)).2,
    (CanonicalOnly.unwindStep _ _ _ _).trans (CanonicalOnly.getHeader _ _ _), fun _ => rfl,
    fun fuel hashStack sliceHeaders => ?_⟩
  rw [reorgLoop, ptrHash_some, if_neg hXC]
  dsimp only
  rw [getHeader_of_stored hc₁ _ _ hX']
  dsimp only
  rw [ptrHash_some, ptrHash_some, if_neg hYC, getHeader_of_stored hc₂ _ _ hY']
  rfl

/-- The main loop from the old header `X`, `a` generations above the common header `C`, and
the new header `Y`, `b ≤ a` generations above it, on stored branches: it stacks the `b`
new headers above `C`, top first, and deletes the canonical entries above `C` up to `X`. -/
theorem reorgLoop_branch {hc : HeaderChain} {C X Y : Header} {a b fuel : Nat}
    {hashStack sliceHeaders : List (Option Header)}
    (hgen : (hc.config.genesisHashes 0).number? = some 0) (hslots : hc.SlotsOk)
    (hX : StoredBranch hc.headerDb.headers X a) (hXC : X.hash.ancestor? a = some C.hash)
    (hY : StoredBranch hc.headerDb.headers Y b) (hYC : Y.hash.ancestor? b = some C.hash)
    (hba : b ≤ a) (hfuel : b < fuel) (hlen : sliceHeaders.length = 3) :
    ∃ slices hc', reorgLoop fuel hc (some C) X (some Y) hashStack sliceHeaders =
        .ok (hashStack ++ (branchHeaders hc.headerDb.headers Y b).map some, slices, hc') ∧
      slices.length = 3 ∧ CanonicalOnly hc hc' ∧
      ∀ n, hc'.headerDb.canonical n =
        if C.number < n ∧ n ≤ X.number then .zero else hc.headerDb.canonical n := by
  induction b generalizing hc X Y a fuel hashStack sliceHeaders with
  | zero =>
    obtain rfl := Header.hash_inj (Option.some_inj.mp (Hash.ancestor?_zero Y.hash ▸ hYC))
    obtain ⟨fuel, rfl⟩ : ∃ f, fuel = f + 1 := ⟨fuel - 1, by omega⟩
    unfold reorgLoop
    cases a with
    | zero =>
      obtain rfl := Header.hash_inj (Option.some_inj.mp (Hash.ancestor?_zero X.hash ▸ hXC))
      refine ⟨sliceHeaders, hc, ?_, hlen, .refl hc,
        fun n => by rw [if_neg (fun h => absurd h.2 (not_le.mpr h.1))]⟩
      simp [collectLoop, branchHeaders]
    | succ a =>
      obtain ⟨X', -, hX'n, hX'st, hX'br, hX'C⟩ := hX.down hXC
      set hc₁ := { hc with headerDb := Rawdb.deleteCanonicalHash hc.headerDb X.number }
      set hc₂ := (hc₁.getHeader X.parentHash (prevNumber X.number)).2
      have hstep : CanonicalOnly hc hc₂ := CanonicalOnly.unwindStep _ _ _ _
      rw [ptrHash_some, if_neg (Header.ne_of_ancestor?_succ hXC)]
      dsimp only
      rw [getHeader_of_stored hc₁ _ _ hX'st]
      dsimp only
      rw [if_pos rfl]
      obtain ⟨hc', hrun, honly, hcan⟩ :=
        @unwindLoop_branch hc₂ Y X' a ((ptrHash (some X')).depth + 1) hgen
          (hstep.headers ▸ hX'br) hX'C
          (by have := Hash.depth_of_ancestor? hX'C; simp only [ptrHash_some]; omega)
      rw [hrun]
      refine ⟨sliceHeaders, hc', by simp [branchHeaders], hlen, hstep.trans honly, fun n => ?_⟩
      have hCX' := (hX'br.last hX'C).1
      rw [hcan]
      exact unwind_succ _ hX'n (by omega)
  | succ b ih =>
    obtain ⟨fuel, rfl⟩ : ∃ f, fuel = f + 1 := ⟨fuel - 1, by omega⟩
    obtain ⟨a, rfl⟩ : ∃ a', a = a' + 1 := ⟨a - 1, by omega⟩
    obtain ⟨X', -, hX'n, hX'st, hX'br, hX'C⟩ := hX.down hXC
    obtain ⟨Y', -, -, hY'st, hY'br, hY'C⟩ := hY.down hYC
    have hCX' := (hX'br.last hX'C).1
    obtain ⟨hc₁, hstep, hcan₁, hround⟩ := reorgLoop_round (Header.ne_of_ancestor?_succ hXC)
      (Header.ne_of_ancestor?_succ hYC) hX'st hY'st
    rw [hround, branchHeaders_succ hY'st]
    by_cases hg : X'.hash = hc.config.genesisHashes 0
    · -- the old side reached the genesis: both sides are one above it
      rw [if_pos hg]
      rw [← hg, Header.number?_hash, Option.some_inj] at hgen
      obtain rfl : a = 0 := by omega
      obtain rfl : b = 0 := by omega
      refine ⟨sliceHeaders, hc₁, by simp [branchHeaders], hlen, hstep, fun n => ?_⟩
      rw [hcan₁]
      exact unwind_one _ (by omega)
    · rw [if_neg hg]
      obtain ⟨sl', hsl', hlen'⟩ := hslots.slices_ok hX'br.self hg hlen
      rw [hsl']
      dsimp only
      obtain ⟨slices, hc', hrun, hslen, honly, hcan⟩ :=
        @ih hc₁ X' Y' a fuel (hashStack ++ [some Y]) sl' (hstep.config ▸ hgen)
          (hslots.of_canonicalOnly hstep) (hstep.headers ▸ hX'br) hX'C (hstep.headers ▸ hY'br) hY'C
          (by omega) (by omega) hlen'
      refine ⟨slices, hc', ?_, hslen, hstep.trans honly, fun n => ?_⟩
      · rw [hrun, hstep.headers]
        simp
      · rw [hcan, hcan₁]
        exact unwind_succ _ hX'n (by omega)

/-! ### The replay -/

/-- The canonical entries of `l` written in order, as the replay writes them. -/
def writeCanonicals (db : Database) (l : List Header) : Database :=
  l.foldl (fun db X => Rawdb.writeCanonicalHash db X.hash X.number) db

/-- Canonical writes leave the stored headers alone. -/
@[simp] theorem headers_writeCanonicals (db : Database) (l : List Header) :
    (writeCanonicals db l).headers = db.headers := by
  induction l generalizing db with
  | nil => rfl
  | cons X l ih => exact ih _

/-- The replay's slot of a stored header other than the genesis is within the three. -/
theorem SlotsOk.replay_slices_ok {hc : HeaderChain} (h : hc.SlotsOk) {X : Header}
    (hX : hc.headerDb.headers X.hash X.number = some X) (hg : X.hash ≠ hc.config.genesisHashes 0)
    {sliceHeaders : List (Option Header)} (hlen : sliceHeaders.length = 3) :
    ∃ slices, (if hc.config.context ≠ ZONE ∧ X.location ≠ [] then
        setSlice hc.config.context sliceHeaders X else .ok sliceHeaders) = .ok slices ∧
      slices.length = 3 := by
  by_cases hw : hc.config.context ≠ ZONE ∧ X.location ≠ []
  · obtain ⟨slices, hs, hl⟩ := h.slices_ok hX hg hlen
    rw [if_pos hw.1] at hs
    exact ⟨slices, by rw [if_pos hw, hs], hl⟩
  · exact ⟨sliceHeaders, if_neg hw, hlen⟩

/-- The replay of stored headers other than the genesis writes their canonical entries in
order. -/
theorem replay_map_some {hc : HeaderChain} (l : List Header) (hslots : hc.SlotsOk)
    (hl : ∀ X ∈ l, hc.headerDb.headers X.hash X.number = some X ∧
      X.hash ≠ hc.config.genesisHashes 0)
    {sliceHeaders : List (Option Header)} (hlen : sliceHeaders.length = 3) :
    ∃ slices, replay hc (l.map some) sliceHeaders =
      .ok (slices, { hc with headerDb := writeCanonicals hc.headerDb l }) := by
  induction l generalizing hc sliceHeaders with
  | nil => exact ⟨sliceHeaders, rfl⟩
  | cons X l ih =>
    set hc₁ := { hc with headerDb := Rawdb.writeCanonicalHash hc.headerDb X.hash X.number }
    have hstep : CanonicalOnly hc hc₁ := CanonicalOnly.writeCanonicalHash _ _ _
    obtain ⟨hX, hg⟩ := hl X (List.mem_cons_self _ _)
    obtain ⟨sl, hsl, hlen'⟩ :=
      (hslots.of_canonicalOnly hstep).replay_slices_ok (hstep.headers ▸ hX) hg hlen
    obtain ⟨slices, hrun⟩ := @ih hc₁ (hslots.of_canonicalOnly hstep)
      (fun Y hY => hstep.headers ▸ hl Y (List.mem_cons_of_mem _ hY)) sl hlen'
    refine ⟨slices, ?_⟩
    rw [List.map_cons]
    unfold replay
    dsimp only
    rw [hsl]
    exact hrun

/-- Writing a stored branch bottom first makes the canonical entries above its base the
branch's own hashes. -/
theorem canonical_foldl_branch {headers : Hash → Nat → Option Header} {C Y : Header} {b : Nat}
    (hY : StoredBranch headers Y b) (hYC : Y.hash.ancestor? b = some C.hash) (db : Database)
    (n : Nat) :
    (writeCanonicals db (branchHeaders headers Y b).reverse).canonical n =
      if C.number < n ∧ n ≤ Y.number then (Y.hash.ancestor? (Y.number - n)).getD .zero
      else db.canonical n := by
  induction b generalizing Y with
  | zero =>
    obtain rfl := Header.hash_inj (Option.some_inj.mp (Hash.ancestor?_zero Y.hash ▸ hYC))
    rw [if_neg (fun h => absurd h.2 (not_le.mpr h.1))]
    rfl
  | succ b ih =>
    obtain ⟨Y', hY'h, hY'n, hY'st, hY'br, hY'C⟩ := hY.down hYC
    have hCY' := (hY'br.last hY'C).1
    rw [branchHeaders_succ hY'st, List.reverse_cons, writeCanonicals, List.foldl_append,
      List.foldl_cons, List.foldl_nil, Rawdb.canonical_writeCanonicalHash, ← writeCanonicals,
      ih hY'br hY'C]
    by_cases hn : n = Y.number
    · subst hn
      rw [if_pos rfl, if_pos ⟨by omega, le_rfl⟩, Nat.sub_self, Hash.ancestor?_zero]
      rfl
    · rw [if_neg hn]
      by_cases hle : n ≤ Y'.number
      · rw [show Y.number - n = Y'.number - n + 1 by omega, Header.ancestor?_hash_succ, ← hY'h]
        exact if_congr ⟨fun h => ⟨h.1, by omega⟩, fun h => ⟨h.1, hle⟩⟩ rfl rfl
      · rw [if_neg (fun h => hle h.2), if_neg (fun h => by omega)]

/-! ### `SetCurrentHeader` across a fork -/

section Fork

variable {hc : HeaderChain} {N C : Header} {a b : Nat}

/-- On a good state, the header `a` generations below the head is canonical. -/
theorem Good.canonical_base (hgood : hc.Good)
    (hPC : hc.currentHeader.hash.ancestor? a = some C.hash)
    (hCP : C.number + a = hc.currentHeader.number) :
    hc.headerDb.canonical C.number = C.hash := by
  rw [hgood.canonical, if_pos (by omega), show hc.currentHeader.number - C.number = a by omega,
    hPC]
  rfl

/-- On a good state, a branch apart from the head's above their common header, wherever both
have a header at the same height, is off the canonical chain there, and off the genesis
entry. -/
theorem Good.not_canonical_fork (hgood : hc.Good)
    (hgenc : (hc.config.genesisHashes hc.config.context).number? = some 0)
    (hP : StoredBranch hc.headerDb.headers hc.currentHeader a)
    (hN : StoredBranch hc.headerDb.headers N b)
    (hfork : ∀ i < b, b ≤ a + i → N.hash.ancestor? i ≠ hc.currentHeader.hash.ancestor? (a + i - b))
    (hCP : C.number + a = hc.currentHeader.number) (hCN : C.number + b = N.number) :
    ∀ i < b, ∀ Z : Header, N.hash.ancestor? i = some Z.hash →
      hc.headerDb.canonical Z.number ≠ Z.hash ∧
        hc.headerDb.canonical Z.number ≠ hc.config.genesisHashes hc.config.context := by
  intro i hi Z hZ
  obtain ⟨Z', hZ', hZn, -⟩ := hN i hi.le
  obtain rfl := Header.hash_inj (Option.some_inj.mp (hZ.symm.trans hZ'))
  by_cases hab : b ≤ a + i
  · -- the old branch has a header `W` at `Z`'s height
    obtain ⟨W, hW, hWn, -⟩ := hP (a + i - b) (by omega)
    have hcan : hc.headerDb.canonical Z.number = W.hash := by
      rw [hgood.canonical, if_pos (by omega), show hc.currentHeader.number - Z.number = a + i - b
        by omega, hW]
      rfl
    rw [hcan]
    exact ⟨fun h => hfork i hi hab (by rw [hZ, hW, h]), Header.hash_ne_of_number_pos hgenc (by omega)⟩
  · -- `Z` stands above the old head, where the mapping is empty
    have hcan : hc.headerDb.canonical Z.number = .zero := by
      rw [hgood.canonical, if_neg (by omega)]
    rw [hcan]
    exact ⟨(Header.hash_ne_zero Z).symm, fun h => by rw [← h] at hgenc; cases hgenc⟩

/-- A state with head `N` is good when its canonical mapping is `N`'s branch above the
common header `C` and, below, the mapping of a good state whose head is above `C` too. -/
theorem Good.of_fork {hc' : HeaderChain} (hgood : hc.Good)
    (hPC : hc.currentHeader.hash.ancestor? a = some C.hash) (hNC : N.hash.ancestor? b = some C.hash)
    (hCP : C.number + a = hc.currentHeader.number) (hCN : C.number + b = N.number)
    (hcur : hc'.currentHeader = N) (hgen : hc'.genesisHeader = hc.genesisHeader)
    (hcan : ∀ n, hc'.headerDb.canonical n =
      if C.number < n ∧ n ≤ N.number then (N.hash.ancestor? (N.number - n)).getD .zero
      else if C.number < n ∧ n ≤ hc.currentHeader.number then .zero
      else hc.headerDb.canonical n) :
    hc'.Good := by
  -- below `C` the two branches are one
  have hbelow : ∀ m, N.hash.ancestor? (b + m) = hc.currentHeader.hash.ancestor? (a + m) :=
    fun m => by rw [Hash.ancestor?_add, hNC, Hash.ancestor?_add _ a, hPC]
  refine ⟨fun n => ?_, ?_⟩
  · rw [hcan, hcur, hgood.canonical]
    by_cases hnN : n ≤ N.number
    · by_cases hCn : C.number < n
      · rw [if_pos ⟨hCn, hnN⟩, if_pos hnN]
      · rw [if_neg (fun h => hCn h.1), if_neg (fun h => hCn h.1), if_pos (by omega), if_pos hnN,
          show N.number - n = b + (C.number - n) by omega,
          show hc.currentHeader.number - n = a + (C.number - n) by omega, hbelow]
    · -- above `N` the entries are empty: deleted up to the old head, and empty beyond it
      rw [if_neg (fun h => hnN h.2), if_neg hnN]
      by_cases hnP : n ≤ hc.currentHeader.number
      · rw [if_pos ⟨by omega, hnP⟩]
      · rw [if_neg (fun h => hnP h.2), if_neg hnP]
  · rw [hcur, hgen, ← hCN, Nat.add_comm, hbelow, Nat.add_comm, hCP]
    exact hgood.genesis

/-- A reorg from a good state to a new head `N`, `b` generations above the common header `C`,
where the old head stands `a ≥ b` generations above it, with both branches stored, returns with
head `N`: the unwind empties the old branch's entries above `C` and the replay writes the new
branch's. -/
theorem setCurrentHeader_reorg_canonical
    (hgood : hc.Good) (hgen : (hc.config.genesisHashes 0).number? = some 0)
    (hgenc : (hc.config.genesisHashes hc.config.context).number? = some 0)
    (hslots : hc.SlotsOk)
    (hP : StoredBranch hc.headerDb.headers hc.currentHeader a)
    (hPC : hc.currentHeader.hash.ancestor? a = some C.hash)
    (hN : StoredBranch hc.headerDb.headers N b) (hNC : N.hash.ancestor? b = some C.hash)
    (hfork : ∀ i < b, N.hash.ancestor? i ≠ hc.currentHeader.hash.ancestor? (a - b + i))
    (hnumC : hc.headerDb.numbers C.hash = some C.number) (hba : b ≤ a) :
    ∃ slices hc', hc.setCurrentHeader N = .ok (slices, hc') ∧ hc'.currentHeader = N ∧
      hc'.genesisHeader = hc.genesisHeader ∧ ∀ n, hc'.headerDb.canonical n =
        if C.number < n ∧ n ≤ N.number then (N.hash.ancestor? (N.number - n)).getD .zero
        else if C.number < n ∧ n ≤ hc.currentHeader.number then .zero
        else hc.headerDb.canonical n := by
  have hCP := (hP.last hPC).1
  have hCN := (hN.last hNC).1
  have hdP := Hash.depth_of_ancestor? hPC
  have hdN := Hash.depth_of_ancestor? hNC
  have hdC := Header.depth_hash C
  have hfast : hc.currentHeader.hash ≠ N.parentHash := by
    intro h
    have hdN' := Header.depth_hash N
    rw [← h] at hdN'
    omega
  -- the walk from `N` meets the old branch at `C`
  obtain ⟨hc₁, hfind, k, rfl⟩ := @findCommonHeaderLoop_branch
    { hc with currentHeader := N, headerDb := Rawdb.writeHeadBlockHash hc.headerDb N.hash } C N b
    ((ptrHash (some N)).depth + 1) hN hNC
    (hgood.not_canonical_fork hgenc hP hN
      (fun i hi _ => by rw [show a + i - b = a - b + i by omega]; exact hfork i hi) hCP hCN)
    (hgood.canonical_base hPC hCP) hnumC
    (by simp only [ptrHash_some]; omega)
  -- the main loop unwinds the old branch and stacks the new one
  obtain ⟨slices, hc₂, hrun, hslen, hc₂only, hcan₂⟩ := @reorgLoop_branch
    { hc with
      currentHeader := N
      headerDb := Rawdb.writeHeadBlockHash hc.headerDb N.hash
      caches := k }
    C hc.currentHeader N a b hc.currentHeader.hash.depth [] [none, none, none]
    hgen hslots hP hPC hN hNC hba (by omega) rfl
  -- the replay writes the new branch bottom first
  have hl : ∀ X ∈ (branchHeaders hc.headerDb.headers N b).reverse,
      hc₂.headerDb.headers X.hash X.number = some X ∧ X.hash ≠ hc₂.config.genesisHashes 0 := by
    intro X hX
    obtain ⟨i, hi, -, hXn, hXst⟩ := mem_branchHeaders hN (List.mem_reverse.mp hX)
    rw [hc₂only.headers, hc₂only.config]
    exact ⟨hXst, Header.hash_ne_of_number_pos hgen (by omega)⟩
  obtain ⟨slices', hreplay⟩ :=
    replay_map_some _ (hslots.congr hc₂only.config hc₂only.headers) hl hslen
  refine ⟨slices', { hc₂ with
    headerDb := writeCanonicals hc₂.headerDb (branchHeaders hc.headerDb.headers N b).reverse },
    ?_, hc₂only.currentHeader, hc₂only.genesisHeader, fun n => ?_⟩
  · unfold setCurrentHeader
    dsimp only
    rw [if_neg hfast]
    unfold findCommonHeader
    rw [hfind]
    dsimp only
    rw [hrun]
    dsimp only
    rw [List.nil_append, ← List.map_reverse]
    exact hreplay
  · exact (canonical_foldl_branch hN hNC _ n).trans (by rw [hcan₂]; rfl)

/-- A reorg from a good state to a new head `N`, `b` generations above the common header `C`,
where the old head stands `a ≥ b` generations above it, with both branches stored, leaves a
good state whose head is `N`: the unwind removes the old branch's entries and the replay
writes the new branch's. -/
theorem setCurrentHeader_reorg_good
    (hgood : hc.Good) (hgen : (hc.config.genesisHashes 0).number? = some 0)
    (hgenc : (hc.config.genesisHashes hc.config.context).number? = some 0)
    (hslots : hc.SlotsOk)
    (hP : StoredBranch hc.headerDb.headers hc.currentHeader a)
    (hPC : hc.currentHeader.hash.ancestor? a = some C.hash)
    (hN : StoredBranch hc.headerDb.headers N b) (hNC : N.hash.ancestor? b = some C.hash)
    (hfork : ∀ i < b, N.hash.ancestor? i ≠ hc.currentHeader.hash.ancestor? (a - b + i))
    (hnumC : hc.headerDb.numbers C.hash = some C.number) (hba : b ≤ a) :
    ∃ slices hc', hc.setCurrentHeader N = .ok (slices, hc') ∧ hc'.Good ∧
      hc'.currentHeader = N := by
  obtain ⟨slices, hc', h, hcur, hgen', hcan⟩ :=
    setCurrentHeader_reorg_canonical hgood hgen hgenc hslots hP hPC hN hNC hfork hnumC hba
  exact ⟨slices, hc', h, hgood.of_fork hPC hNC (hP.last hPC).1 (hN.last hNC).1 hcur hgen' hcan,
    hcur⟩

end Fork

end HeaderChain

namespace Example

open HeaderChain

/-- A header the writes leave stored was written by one of them, or was stored before. -/
theorem mem_of_headers_foldl_writeHeader {stored : List Header} {db : Database} {h : Hash}
    {n : Nat} {X : Header} (hX : (stored.foldl Rawdb.writeHeader db).headers h n = some X) :
    X ∈ stored ∨ db.headers h n = some X := by
  induction stored generalizing db with
  | nil => exact Or.inr hX
  | cons Y stored ih =>
    rcases ih hX with hmem | hY
    · exact Or.inl (List.mem_cons_of_mem _ hmem)
    · rw [Rawdb.headers_writeHeader] at hY
      split at hY
      · cases hY; exact Or.inl (List.mem_cons_self _ _)
      · exact Or.inr hY

/-- Head `a2`, canonical down to the genesis, with the competing `b1` stored. -/
def forkA2 : HeaderChain := chainOf [genesis, a1, a2, b1] [genesis, a1, a2] a2

/-- `forkA2` is good: its canonical entries are `a2`'s parent chain. -/
theorem good_forkA2 : forkA2.Good where
  canonical n := by
    rcases n with _ | _ | _ | n <;>
      simp [forkA2, chainOf, a2, a1, genesis, Header.hash, Hash.ancestor?, Database.empty]
  genesis := rfl

/-- Every header `forkA2` stores other than the genesis is in region 1. -/
theorem slotsOk_forkA2 : forkA2.SlotsOk := by
  refine Or.inr fun X hX => ?_
  have hst : ([genesis, a1, a2, b1].foldl Rawdb.writeHeader .empty).headers X.hash X.number =
      some X := by
    rw [← headers_writeCanonicals _ [genesis, a1, a2]]
    exact hX
  have hmem := (mem_of_headers_foldl_writeHeader hst).resolve_right (by simp [Database.empty])
  simp only [List.mem_cons, List.mem_singleton, List.not_mem_nil, or_false] at hmem
  rcases hmem with rfl | rfl | rfl | rfl
  · exact Or.inl rfl
  all_goals exact Or.inr ⟨1, rfl, by decide⟩

/-- `a2` is stored down to the genesis. -/
theorem storedBranch_a2 : StoredBranch forkA2.headerDb.headers a2 2
  | 0, _ => ⟨a2, rfl, rfl, rfl⟩
  | 1, _ => ⟨a1, rfl, rfl, rfl⟩
  | 2, _ => ⟨genesis, rfl, rfl, rfl⟩
  | _ + 3, h => absurd h (by omega)

/-- `b1` is stored down to the genesis. -/
theorem storedBranch_b1 : StoredBranch forkA2.headerDb.headers b1 1
  | 0, _ => ⟨b1, rfl, rfl, rfl⟩
  | 1, _ => ⟨genesis, rfl, rfl, rfl⟩
  | _ + 2, h => absurd h (by omega)

/-- From head `a2` to the competing `b1`, two generations above the genesis against
one: the state stays good. -/
theorem setCurrentHeader_reorg_good_b1 :
    forkA2.Good ∧ forkA2.SlotsOk ∧ StoredBranch forkA2.headerDb.headers a2 2 ∧
      StoredBranch forkA2.headerDb.headers b1 1 ∧
      ∃ slices hc', forkA2.setCurrentHeader b1 = .ok (slices, hc') ∧ hc'.Good ∧
        hc'.currentHeader = b1 :=
  ⟨good_forkA2, slotsOk_forkA2, storedBranch_a2, storedBranch_b1,
    @setCurrentHeader_reorg_good forkA2 b1 genesis 2 1 good_forkA2 rfl rfl slotsOk_forkA2
      storedBranch_a2 rfl storedBranch_b1 rfl (by decide) rfl (by decide)⟩

end Example

end QuaiHeaderChain
