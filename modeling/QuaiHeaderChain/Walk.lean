import QuaiHeaderChain.Chain

/-!
# Backward walks: `findCommonHeader` and `trim`

`core/headerchain.go:357-392`. Both loops follow `ParentHash` through `GetHeader` until a
condition holds or a header is missing. Every header `GetHeader` returns hashes to the
hash asked for, so each round moves to a hash of smaller `Hash.depth`; the loops take that
depth as fuel, which they never exhaust.
-/

namespace QuaiHeaderChain

namespace HeaderChain

/-- The loop of `findCommonHeader`, `core/headerchain.go:381-391`, for at most `fuel` rounds. -/
def findCommonHeaderLoop : Nat → HeaderChain → Option Header → Option Header × HeaderChain
  | 0, hc, _ => (none, hc)
  | _ + 1, hc, none => (none, hc)
  | fuel + 1, hc, some header =>
    let canonicalHash := Rawdb.readCanonicalHash hc.headerDb header.number
    if canonicalHash = header.hash ∨
        canonicalHash = hc.config.genesisHashes hc.config.context then
      hc.getHeaderByHash canonicalHash
    else
      match hc.getHeader header.parentHash (prevNumber header.number) with
      | (parent, hc) => findCommonHeaderLoop fuel hc parent

/-- `findCommonHeader`, `core/headerchain.go:380-392`: the first header of the parent chain
whose hash is canonical at its number, or whose number maps to the context's genesis. -/
def findCommonHeader (hc : HeaderChain) (header : Option Header) : Option Header × HeaderChain :=
  findCommonHeaderLoop ((ptrHash header).depth + 1) hc header

/-- The loop of `trim`, `core/headerchain.go:360-376`: delete each header and hand it to
`hc.bc.Trim` until the common header; a missing parent ends the walk with a warning. -/
def trimLoop : Nat → HeaderChain → Header → Option Header → Except Fault HeaderChain
  | 0, hc, _, _ => .ok hc
  | fuel + 1, hc, commonHeader, parent =>
    if ptrHash parent = commonHeader.hash then .ok hc
    else
      match parent with
      | none => .error .nilDeref
      | some p =>
        let hc := { hc with
          headerDb := Rawdb.deleteHeader hc.headerDb p.hash p.number
          bodyTrims := hc.bodyTrims ++ [p] }
        match hc.getHeader p.parentHash (prevNumber p.number) with
        | (none, hc) => .ok hc
        | (some q, hc) => trimLoop fuel hc commonHeader (some q)

/-- `trim`, `core/headerchain.go:357-377`; its error result is always nil. -/
def trim (hc : HeaderChain) (commonHeader : Header) (startHeader : Option Header) :
    Except Fault HeaderChain :=
  trimLoop ((ptrHash startHeader).depth + 1) hc commonHeader startHeader

/-! ### The walks' reads change only the caches -/

/-- `hc'` is `hc` with at most its canonical mapping and its caches changed. -/
def CanonicalOnly (hc hc' : HeaderChain) : Prop :=
  ∃ canonical caches,
    hc' = { hc with headerDb := { hc.headerDb with canonical := canonical }, caches := caches }

namespace CanonicalOnly

theorem refl (hc : HeaderChain) : CanonicalOnly hc hc := ⟨_, _, rfl⟩

theorem trans {hc₁ hc₂ hc₃ : HeaderChain} :
    CanonicalOnly hc₁ hc₂ → CanonicalOnly hc₂ hc₃ → CanonicalOnly hc₁ hc₃
  | ⟨_, _, h₂⟩, ⟨c, k, h₃⟩ => ⟨c, k, by subst h₂ h₃; rfl⟩

theorem getHeader (hc : HeaderChain) (hash : Hash) (number : Nat) :
    CanonicalOnly hc (hc.getHeader hash number).2 := ⟨_, _, rfl⟩

/-! What a change of the canonical mapping and the caches keeps. -/

variable {hc hc' : HeaderChain}

theorem headers (h : CanonicalOnly hc hc') : hc'.headerDb.headers = hc.headerDb.headers := by
  obtain ⟨_, _, rfl⟩ := h; rfl

theorem numbers (h : CanonicalOnly hc hc') : hc'.headerDb.numbers = hc.headerDb.numbers := by
  obtain ⟨_, _, rfl⟩ := h; rfl

theorem headBlockHash (h : CanonicalOnly hc hc') :
    hc'.headerDb.headBlockHash = hc.headerDb.headBlockHash := by
  obtain ⟨_, _, rfl⟩ := h; rfl

theorem currentHeader (h : CanonicalOnly hc hc') : hc'.currentHeader = hc.currentHeader := by
  obtain ⟨_, _, rfl⟩ := h; rfl

theorem heads (h : CanonicalOnly hc hc') : hc'.heads = hc.heads := by
  obtain ⟨_, _, rfl⟩ := h; rfl

theorem genesisHeader (h : CanonicalOnly hc hc') : hc'.genesisHeader = hc.genesisHeader := by
  obtain ⟨_, _, rfl⟩ := h; rfl

theorem config (h : CanonicalOnly hc hc') : hc'.config = hc.config := by
  obtain ⟨_, _, rfl⟩ := h; rfl

theorem running (h : CanonicalOnly hc hc') : hc'.running = hc.running := by
  obtain ⟨_, _, rfl⟩ := h; rfl

end CanonicalOnly

/-- `hc'` is `hc` with at most its caches changed: what a read does. -/
def CachesOnly (hc hc' : HeaderChain) : Prop :=
  ∃ caches, hc' = { hc with caches := caches }

namespace CachesOnly

theorem refl (hc : HeaderChain) : CachesOnly hc hc := ⟨_, rfl⟩

theorem trans {hc₁ hc₂ hc₃ : HeaderChain} :
    CachesOnly hc₁ hc₂ → CachesOnly hc₂ hc₃ → CachesOnly hc₁ hc₃
  | ⟨_, h₂⟩, ⟨k, h₃⟩ => ⟨k, by subst h₂ h₃; rfl⟩

theorem getHeader (hc : HeaderChain) (hash : Hash) (number : Nat) :
    CachesOnly hc (hc.getHeader hash number).2 := ⟨_, rfl⟩

theorem getBlockNumber (hc : HeaderChain) (hash : Hash) :
    CachesOnly hc (hc.getBlockNumber hash).2 := ⟨_, rfl⟩

variable {hc hc' : HeaderChain}

theorem headerDb (h : CachesOnly hc hc') : hc'.headerDb = hc.headerDb := by
  obtain ⟨_, rfl⟩ := h; rfl

theorem toCanonicalOnly (h : CachesOnly hc hc') : CanonicalOnly hc hc' := by
  obtain ⟨k, rfl⟩ := h
  exact ⟨hc.headerDb.canonical, k, rfl⟩

end CachesOnly

/-- A read by hash changes only the caches. -/
theorem cachesOnly_getHeaderByHash (hc : HeaderChain) (hash : Hash) :
    CachesOnly hc (hc.getHeaderByHash hash).2 := by
  unfold getHeaderByHash
  split <;> next heq =>
    have h₁ := congrArg Prod.snd heq
    dsimp only at h₁
    subst h₁
    first
    | exact CachesOnly.getBlockNumber hc hash
    | exact (CachesOnly.getBlockNumber hc hash).trans (CachesOnly.getHeader _ _ _)

/-- The walk of `findCommonHeader` changes only the caches. -/
theorem cachesOnly_findCommonHeaderLoop (fuel : Nat) (hc : HeaderChain) (x : Option Header) :
    CachesOnly hc (findCommonHeaderLoop fuel hc x).2 := by
  induction fuel generalizing hc x with
  | zero => exact .refl hc
  | succ fuel ih =>
    cases x with
    | none => exact .refl hc
    | some header =>
      unfold findCommonHeaderLoop
      dsimp only
      split
      · exact cachesOnly_getHeaderByHash hc _
      · exact (CachesOnly.getHeader hc _ _).trans (ih _ _)

@[simp] theorem heads_findCommonHeader (hc : HeaderChain) (x : Option Header) :
    (hc.findCommonHeader x).2.heads = hc.heads :=
  (cachesOnly_findCommonHeaderLoop _ hc x).toCanonicalOnly.heads

/-! ### What the walks find and delete -/

/-- The parent read from the header `d` generations back on the path of `h` is `d + 1`
generations back. -/
theorem ancestor?_succ_of_getHeader {h : Hash} {d : Nat} {p : Header}
    (hd : h.ancestor? d = some p.hash) (hc : HeaderChain) (n : Nat) :
    ∀ y ∈ (hc.getHeader p.parentHash n).1, h.ancestor? (d + 1) = some y.hash :=
  fun _ hy => CacheTier.hash_of_getHeader _ _ hy ▸ Header.ancestor?_succ_of_hash hd

/-- A walk's start header is the first hash of its own path. -/
theorem start_on_path (start : Option Header) :
    ∀ y ∈ start, (ptrHash start).ancestor? 0 = some y.hash :=
  fun _ hy => by rw [Option.mem_def.mp hy]; rfl

/-- The walk of `findCommonHeader` from the header `d` generations back on the path of `h`
answers a header `common` only after passing headers not canonical at their numbers, and
stops at a header `Z` of the path that is canonical (then `common = Z`) or whose number maps
to the context's genesis (then `common` hashes to that genesis). -/
theorem findCommonHeaderLoop_spec {h : Hash} {d fuel : Nat} {hc : HeaderChain}
    {x : Option Header} {common : Header} (hx : ∀ y ∈ x, h.ancestor? d = some y.hash)
    (hres : (findCommonHeaderLoop fuel hc x).1 = some common) :
    ∃ j Z, d ≤ j ∧ h.ancestor? j = some (Z : Header).hash ∧
      (∀ i (Y : Header), d ≤ i → i < j → h.ancestor? i = some Y.hash →
        hc.headerDb.canonical Y.number ≠ Y.hash) ∧
      (common = Z ∧ hc.headerDb.canonical Z.number = Z.hash ∨
        hc.headerDb.canonical Z.number = hc.config.genesisHashes hc.config.context ∧
          common.hash = hc.config.genesisHashes hc.config.context) := by
  induction fuel generalizing hc x d with
  | zero => cases hres
  | succ fuel ih =>
    cases x with
    | none => cases hres
    | some header =>
      have hd := hx header rfl
      unfold findCommonHeaderLoop at hres
      dsimp only at hres
      split at hres
      · next hcond =>
        have hch := hash_of_getHeaderByHash hc _ hres
        refine ⟨d, header, le_rfl, hd, fun i _ hi hij => absurd hij (by omega), ?_⟩
        rcases hcond with hcan | hgen
        · exact .inl ⟨Header.hash_inj (hch.trans hcan), hcan⟩
        · exact .inr ⟨hgen, hch.trans hgen⟩
      · next hcond =>
        obtain ⟨j, Z, hj, hZ, hbefore, hcommon⟩ := ih (ancestor?_succ_of_getHeader hd hc _) hres
        refine ⟨j, Z, by omega, hZ, fun i Y hi hij hY => ?_, hcommon⟩
        rcases Nat.eq_or_lt_of_le hi with rfl | hi
        · obtain rfl := Header.hash_inj (Option.some_inj.mp (hY.symm.trans hd))
          exact fun hcan => hcond (.inl hcan)
        · exact hbefore i Y hi hij hY

/-- `findCommonHeader(h)` answers nil, the genesis of the node's context, or an ancestor of
`h` (or `h` itself) that is canonical at its number. -/
theorem findCommonHeader_spec {hc : HeaderChain} {h X : Header}
    (hX : (hc.findCommonHeader (some h)).1 = some X) :
    X.hash = hc.config.genesisHashes hc.config.context ∨
      (∃ k, h.hash.ancestor? k = some X.hash) ∧ hc.headerDb.canonical X.number = X.hash := by
  obtain ⟨j, Z, -, hZ, -, hcommon⟩ := findCommonHeaderLoop_spec (start_on_path (some h)) hX
  rcases hcommon with ⟨rfl, hcan⟩ | ⟨-, hg⟩
  · exact .inr ⟨⟨j, hZ⟩, hcan⟩
  · exact .inl hg

/-- From `a3` over `headA1`, the common header is the canonical `a1`. -/
theorem findCommonHeader_spec_a3 :
    (Example.headA1.findCommonHeader (some Example.a3)).1 = some Example.a1 ∧
      (Example.a1.hash = Example.headA1.config.genesisHashes Example.headA1.config.context ∨
        (∃ k, Example.a3.hash.ancestor? k = some Example.a1.hash) ∧
          Example.headA1.headerDb.canonical Example.a1.number = Example.a1.hash) :=
  ⟨rfl, findCommonHeader_spec rfl⟩

/-- The hashes on the parent path of `h` from `d` generations back down to, not including,
the first occurrence of `common`: what a trim from there may delete. -/
def TrimmedPath (h : Hash) (d : Nat) (common hash : Hash) : Prop :=
  ∃ k, d ≤ k ∧ h.ancestor? k = some hash ∧ ∀ i, d ≤ i → i ≤ k → h.ancestor? i ≠ some common

/-- A trim from one generation further back, past a hash other than `common`, trims on the
path from here. -/
theorem TrimmedPath.of_succ {h p common hash : Hash} {d : Nat} (hd : h.ancestor? d = some p)
    (hp : p ≠ common) (ht : TrimmedPath h (d + 1) common hash) : TrimmedPath h d common hash := by
  obtain ⟨k, hk, hanc, hnot⟩ := ht
  refine ⟨k, by omega, hanc, fun i hi hik => ?_⟩
  rcases Nat.eq_or_lt_of_le hi with rfl | hi
  · rw [hd]
    exact fun he => hp (Option.some_inj.mp he)
  · exact hnot i hi hik

/-! ### What a trim changes -/

/-- The store with the headers `ps` deleted in turn, each under its own hash and number. -/
def deleteHeaders (db : Database) (ps : List Header) : Database :=
  ps.foldl (fun db p => Rawdb.deleteHeader db p.hash p.number) db

@[simp] theorem canonical_deleteHeaders (db : Database) (ps : List Header) :
    (deleteHeaders db ps).canonical = db.canonical := by
  induction ps generalizing db with
  | nil => rfl
  | cons p ps ih => exact ih _

theorem deleteHeaders_append (db : Database) (ps qs : List Header) :
    deleteHeaders db (ps ++ qs) = deleteHeaders (deleteHeaders db ps) qs :=
  List.foldl_append _ _ _ _

/-- Deleting headers whose hashes satisfy `P` deletes only entries of such hashes. -/
theorem deletesOnly_deleteHeaders {P : Hash → Prop} (db : Database) {ps : List Header}
    (hps : ∀ p ∈ ps, P p.hash) : Rawdb.DeletesOnly P db (deleteHeaders db ps) := by
  induction ps generalizing db with
  | nil => exact .refl
  | cons p ps ih =>
    exact ((Rawdb.deletesOnly_deleteHeader db p.hash p.number).mono
      fun _ he => he ▸ hps p (List.mem_cons_self _ _)).trans
      (ih _ fun q hq => hps q (List.mem_cons_of_mem _ hq))

/-- `hc'` is `hc` with headers whose hashes satisfy `P` deleted from the store, each under
its own hash and number and handed to the body chain in that order, and with its caches
changed: what a trim does. -/
def TrimsOnly (P : Hash → Prop) (hc hc' : HeaderChain) : Prop :=
  ∃ ps caches, hc' = { hc with
    headerDb := deleteHeaders hc.headerDb ps
    caches := caches
    bodyTrims := hc.bodyTrims ++ ps } ∧ ∀ p ∈ ps, P p.hash

namespace TrimsOnly

variable {P Q : Hash → Prop}

theorem refl (hc : HeaderChain) : TrimsOnly P hc hc :=
  ⟨[], hc.caches, by rw [List.append_nil]; rfl, fun _ h => nomatch h⟩

theorem trans {hc₁ hc₂ hc₃ : HeaderChain} : TrimsOnly P hc₁ hc₂ → TrimsOnly P hc₂ hc₃ →
    TrimsOnly P hc₁ hc₃
  | ⟨ps, _, h₂, hps⟩, ⟨qs, k, h₃, hqs⟩ => ⟨ps ++ qs, k, by
      subst h₂ h₃; rw [deleteHeaders_append, List.append_assoc],
      fun p hp => (List.mem_append.mp hp).elim (hps p) (hqs p)⟩

theorem mono {hc hc' : HeaderChain} (hPQ : ∀ h, P h → Q h) :
    TrimsOnly P hc hc' → TrimsOnly Q hc hc'
  | ⟨ps, k, h, hps⟩ => ⟨ps, k, h, fun p hp => hPQ _ (hps p hp)⟩

/-- One round of the trim loop: delete a header and hand it to the body chain. -/
theorem deleteHeader (hc : HeaderChain) {p : Header} (hp : P p.hash) :
    TrimsOnly P hc { hc with
      headerDb := Rawdb.deleteHeader hc.headerDb p.hash p.number
      bodyTrims := hc.bodyTrims ++ [p] } :=
  ⟨[p], hc.caches, rfl, fun _ hq => (List.mem_singleton.mp hq) ▸ hp⟩

variable {hc hc' : HeaderChain}

theorem of_cachesOnly (h : CachesOnly hc hc') : TrimsOnly P hc hc' := by
  obtain ⟨k, rfl⟩ := h
  exact ⟨[], k, by rw [List.append_nil]; rfl, fun _ h => nomatch h⟩

theorem deletesOnly (h : TrimsOnly P hc hc') : Rawdb.DeletesOnly P hc.headerDb hc'.headerDb := by
  obtain ⟨ps, _, rfl, hps⟩ := h
  exact deletesOnly_deleteHeaders _ hps

theorem trimmed (h : TrimsOnly P hc hc') :
    ∃ trimmed, hc'.bodyTrims = hc.bodyTrims ++ trimmed ∧ ∀ y ∈ trimmed, P y.hash := by
  obtain ⟨ps, _, rfl, hps⟩ := h
  exact ⟨ps, rfl, hps⟩

theorem canonical (h : TrimsOnly P hc hc') : hc'.headerDb.canonical = hc.headerDb.canonical := by
  obtain ⟨ps, _, rfl, -⟩ := h; exact canonical_deleteHeaders _ _

theorem currentHeader (h : TrimsOnly P hc hc') : hc'.currentHeader = hc.currentHeader := by
  obtain ⟨_, _, rfl, -⟩ := h; rfl

theorem genesisHeader (h : TrimsOnly P hc hc') : hc'.genesisHeader = hc.genesisHeader := by
  obtain ⟨_, _, rfl, -⟩ := h; rfl

theorem heads (h : TrimsOnly P hc hc') : hc'.heads = hc.heads := by
  obtain ⟨_, _, rfl, -⟩ := h; rfl

theorem running (h : TrimsOnly P hc hc') : hc'.running = hc.running := by
  obtain ⟨_, _, rfl, -⟩ := h; rfl

theorem config (h : TrimsOnly P hc hc') : hc'.config = hc.config := by
  obtain ⟨_, _, rfl, -⟩ := h; rfl

end TrimsOnly

/-- From a header `d` generations back on the path of `h`, the trim loop deletes only
headers of the path from there down to `common`, and hands exactly those to the body
chain. -/
theorem trimLoop_spec {h : Hash} {d fuel : Nat} {hc hc' : HeaderChain} {common : Header}
    {x : Option Header} (hx : ∀ y ∈ x, h.ancestor? d = some y.hash)
    (ht : trimLoop fuel hc common x = .ok hc') :
    TrimsOnly (TrimmedPath h d common.hash) hc hc' := by
  induction fuel generalizing hc x d with
  | zero => cases ht; exact .refl _
  | succ fuel ih =>
    unfold trimLoop at ht
    split at ht
    · cases ht; exact .refl _
    · next hne =>
      split at ht
      · cases ht
      · next p =>
        have hd := hx p rfl
        have hp : TrimmedPath h d common.hash p.hash :=
          ⟨d, le_rfl, hd, fun i hi hid => by
            rw [show i = d by omega, hd]
            exact fun he => hne (Option.some_inj.mp he)⟩
        have hdel := TrimsOnly.deleteHeader hc hp
        dsimp only at ht
        split at ht
        · next hc₁ heq =>
          obtain rfl : hc₁ = _ := (congrArg Prod.snd heq).symm
          cases ht
          exact hdel.trans (.of_cachesOnly (CachesOnly.getHeader _ _ _))
        · next q hc₁ heq =>
          have hq := congrArg Prod.fst heq
          dsimp only at hq
          obtain rfl : hc₁ = _ := (congrArg Prod.snd heq).symm
          have hrest := ih (fun y hy => ancestor?_succ_of_getHeader hd _ _ y (hq ▸ hy)) ht
          exact hdel.trans ((TrimsOnly.of_cachesOnly (CachesOnly.getHeader _ _ _)).trans
            (hrest.mono fun _ => TrimmedPath.of_succ hd hne))

/-- `trim(common, start)` deletes only headers on the parent path of `start` other than
`common`, leaves the canonical mapping alone, and hands to the body chain's `Trim`
exactly such headers, in the order it deletes them. -/
theorem trim_spec {hc hc' : HeaderChain} {common : Header} {start : Option Header}
    (ht : hc.trim common start = .ok hc') :
    Rawdb.DeletesOnly
        (fun hash => (∃ k, (ptrHash start).ancestor? k = some hash) ∧ hash ≠ common.hash)
        hc.headerDb hc'.headerDb ∧
      ∃ trimmed, hc'.bodyTrims = hc.bodyTrims ++ trimmed ∧
        ∀ y ∈ trimmed, (∃ k, (ptrHash start).ancestor? k = some y.hash) ∧ y.hash ≠ common.hash := by
  have hcoarse : ∀ hash, TrimmedPath (ptrHash start) 0 common.hash hash →
      (∃ k, (ptrHash start).ancestor? k = some hash) ∧ hash ≠ common.hash :=
    fun _ ⟨k, _, hk, hnot⟩ => ⟨⟨k, hk⟩, fun he => hnot k (Nat.zero_le _) le_rfl (he ▸ hk)⟩
  have htrims := (trimLoop_spec (start_on_path start) ht).mono hcoarse
  exact ⟨htrims.deletesOnly, htrims.trimmed⟩

/-- Trimming from `a3` down to `a1` over `headA1`. -/
theorem trim_spec_a3 :
    ∃ hc', Example.headA1.trim Example.a1 (some Example.a3) = .ok hc' ∧
      Rawdb.DeletesOnly (fun hash => (∃ k, (ptrHash (some Example.a3)).ancestor? k = some hash) ∧
          hash ≠ Example.a1.hash) Example.headA1.headerDb hc'.headerDb ∧
      ∃ trimmed, hc'.bodyTrims = Example.headA1.bodyTrims ++ trimmed ∧
        ∀ y ∈ trimmed, (∃ k, (ptrHash (some Example.a3)).ancestor? k = some y.hash) ∧
          y.hash ≠ Example.a1.hash :=
  ⟨_, rfl, trim_spec rfl⟩

/-- A trim only trims: it deletes headers, hands them to the body chain, and changes the
caches. -/
theorem trim_trimsOnly {hc hc' : HeaderChain} {common : Header} {start : Option Header}
    (h : hc.trim common start = .ok hc') : TrimsOnly (fun _ => True) hc hc' :=
  (trimLoop_spec (start_on_path start) h).mono fun _ _ => trivial

/-- A trim keeps the registry. -/
theorem heads_trim {hc hc' : HeaderChain} {common : Header} {start : Option Header}
    (h : hc.trim common start = .ok hc') : hc'.heads = hc.heads :=
  (trim_trimsOnly h).heads

end HeaderChain

end QuaiHeaderChain
