import QuaiHeaderChain.Invariants
import QuaiHeaderChain.Blocks

/-!
# Start-up and restart

`NewHeaderChain`, `core/headerchain.go:98-141`, builds the chain on a store: fresh caches,
the header read at number zero as the genesis, an empty registry, then `loadLastState`.
Until `loadLastState` stores a head, the head is an `atomic.Value` holding nothing, and
`CurrentHeader` (`core/headerchain.go:652-654`) asserts its type: on a store with a genesis
whose saved head hash reads back no header, start-up panics rather than return an error.
Otherwise the caches it fills hold only what the store holds, so the outcome depends on the
store alone. A chain restarted on the store `Stop` leaves therefore has the head and the
registry `Stop` saved, and the fresh chain that runs start from is what start-up builds on
a store holding only the genesis, saved as the head.
-/

namespace QuaiHeaderChain

/-- What the collaborators of `NewHeaderChain` return: `crand.Int`, which seeds the chain's
random source, and `NewBlockChain`, which builds the body chain. -/
structure StartReplies where
  seed : Option ChainError
  blockChain : Option ChainError

/-- How `NewHeaderChain` ends. -/
inductive Startup where
  /-- It returns the error of a collaborator. -/
  | failed (err : ChainError)
  /-- It returns `ErrNoGenesis`: no header is read at number zero. -/
  | noGenesis
  /-- It panics in `CurrentHeader`: `loadLastState` stored no head, and the type assertion
  `hc.currentHeader.Load().(*types.Header)` fails on the empty `atomic.Value`. -/
  | unsetHead
  /-- It returns the chain. -/
  | started (hc : HeaderChain)

namespace Database

/-- The header the store holds under the number entry of `hash`: what `GetHeaderByHash`
reads when the caches hold only what the store holds. -/
def headerByHash (db : Database) (hash : Hash) : Option Header :=
  (db.numbers hash).bind (db.headers hash)

/-- The header the store holds canonical at `number`: what `GetHeaderByNumber` reads on
empty caches. -/
def headerByNumber (db : Database) (number : Nat) : Option Header :=
  if db.canonical number = .zero then none else db.headers (db.canonical number) number

/-- A header is read back by its hash alone exactly when it is stored with its number
entry. -/
theorem headerByHash_eq_some {db : Database} {X : Header} :
    db.headerByHash X.hash = some X ↔ db.ReadableByHash X := by
  refine ⟨fun h => ?_, fun ⟨hn, hX⟩ => by rw [headerByHash, hn, Option.some_bind, hX]⟩
  obtain ⟨n, hn, hX⟩ := Option.bind_eq_some.mp h
  obtain rfl := (db.headers_sound _ _ _ hX).2
  exact ⟨hn, hX⟩

/-- A header that cannot be read back by its hash reads back nothing there: a header the store
holds under the hash is that header. -/
theorem headerByHash_hash_eq_none {db : Database} {X : Header} (h : ¬ db.ReadableByHash X) :
    db.headerByHash X.hash = none := by
  cases hY : db.headerByHash X.hash with
  | none => rfl
  | some Y =>
    obtain ⟨n, -, hn⟩ := Option.bind_eq_some.mp hY
    obtain rfl := Header.hash_inj (db.headers_sound _ _ _ hn).1
    exact absurd (headerByHash_eq_some.mp hY) h

/-- A hash that commits to no number has no number entry, so it reads back nothing. -/
theorem headerByHash_of_number?_eq_none (db : Database) {hash : Hash} (h : hash.number? = none) :
    db.headerByHash hash = none := by
  cases hn : db.numbers hash with
  | none => rw [headerByHash, hn, Option.none_bind]
  | some n => cases h.symm.trans (db.numbers_sound _ _ hn)

end Database

namespace CacheTier

/-- `GetHeaderByNumber`, `core/headerchain.go:636-642`, on the caches alone: `NewHeaderChain`
calls it before the chain has a genesis or a head. -/
def getHeaderByNumber (c : CacheTier) (db : Database) (number : Nat) : Option Header × CacheTier :=
  let hash := Rawdb.readCanonicalHash db number
  if hash = .zero then (none, c) else c.getHeader db hash number

/-- `GetHeaderByHash`, `core/headerchain.go:614-622`, on the caches alone. -/
def getHeaderByHash (c : CacheTier) (db : Database) (hash : Hash) : Option Header × CacheTier :=
  match c.getBlockNumber db hash with
  | (none, c) => (none, c)
  | (some number, c) => c.getHeader db hash number

/-- Every cached entry is what the store holds: a cached header is stored under its key and
its own number, a cached number is its key's number entry. -/
structure Agrees (c : CacheTier) (db : Database) : Prop where
  header : c.headerCache.Sound fun hash X => db.headers hash X.number = some X
  number : c.numberCache.Sound fun hash n => db.numbers hash = some n

/-- Fresh caches hold nothing, so they agree with every store. -/
theorem agrees_new (db : Database) : CacheTier.new.Agrees db :=
  ⟨Lru.sound_new _, Lru.sound_new _⟩

variable {c : CacheTier} {db : Database}

/-- On agreeing caches `GetBlockNumber` reads the store, and the caches still agree. -/
theorem Agrees.getBlockNumber (ha : c.Agrees db) (hash : Hash) :
    (c.getBlockNumber db hash).1 = db.numbers hash ∧ (c.getBlockNumber db hash).2.Agrees db := by
  unfold CacheTier.getBlockNumber
  split
  · next n hp => exact ⟨(ha.number.peek hp).symm, ha.header, ha.number.get hash⟩
  · split
    · next hr => exact ⟨hr.symm, ha⟩
    · next n hr => exact ⟨hr.symm, ha.header, ha.number.add hr⟩

/-- On agreeing caches `GetHeader` reads the store, and the caches still agree, when a cached
header of the hash asked for has the number asked for. -/
theorem Agrees.getHeader (ha : c.Agrees db) {hash : Hash} {number : Nat}
    (hn : ∀ X, c.headerCache.peek hash = some X → X.number = number) :
    (c.getHeader db hash number).1 = db.headers hash number ∧
      (c.getHeader db hash number).2.Agrees db := by
  unfold CacheTier.getHeader
  split
  · next X hp =>
    have hX := ha.header.peek hp
    rw [hn X hp] at hX
    exact ⟨hX.symm, ha.header.get hash, ha.number⟩
  · split
    · next hr => exact ⟨hr.symm, ha⟩
    · next X hr =>
      have hX : db.headers hash X.number = some X := by
        rw [(db.headers_sound _ _ _ hr).2]
        exact hr
      exact ⟨hr.symm, ha.header.add hX, ha.number⟩

/-- On agreeing caches `GetHeaderByHash` reads the store, and the caches still agree. -/
theorem Agrees.getHeaderByHash (ha : c.Agrees db) (hash : Hash) :
    (c.getHeaderByHash db hash).1 = db.headerByHash hash ∧
      (c.getHeaderByHash db hash).2.Agrees db := by
  obtain ⟨hnum, ha₁⟩ := ha.getBlockNumber hash
  unfold CacheTier.getHeaderByHash
  split
  · next c₁ heq =>
    rw [heq] at hnum ha₁
    exact ⟨by rw [Database.headerByHash, ← hnum, Option.none_bind], ha₁⟩
  · next n c₁ heq =>
    rw [heq] at hnum ha₁
    have hh : hash.number? = some n := db.numbers_sound _ _ hnum.symm
    refine (ha₁.getHeader fun X hp => ?_).imp_left fun h => by
      rw [h, Database.headerByHash, ← hnum, Option.some_bind]
    have hX := c₁.headerCache_sound.peek hp
    rw [← hX, Header.number?_hash, Option.some_inj] at hh
    exact hh

/-- On fresh caches `GetHeaderByNumber` reads the store, and the caches it leaves agree with
it. -/
theorem getHeaderByNumber_new (db : Database) (number : Nat) :
    (CacheTier.new.getHeaderByNumber db number).1 = db.headerByNumber number ∧
      (CacheTier.new.getHeaderByNumber db number).2.Agrees db := by
  unfold CacheTier.getHeaderByNumber Database.headerByNumber
  simp only [Rawdb.readCanonicalHash_eq]
  split
  · exact ⟨rfl, agrees_new db⟩
  · exact (agrees_new db).getHeader fun X hp => nomatch hp

end CacheTier

namespace HeaderChain

/-- The chain's `GetHeaderByHash` is the caches' one, on the caches it leaves. -/
theorem getHeaderByHash_eq (hc : HeaderChain) (hash : Hash) :
    hc.getHeaderByHash hash = ((hc.caches.getHeaderByHash hc.headerDb hash).1,
      { hc with caches := (hc.caches.getHeaderByHash hc.headerDb hash).2 }) := by
  unfold getHeaderByHash getBlockNumber CacheTier.getHeaderByHash
  rcases hc.caches.getBlockNumber hc.headerDb hash with ⟨_ | n, c⟩ <;> rfl

/-- On caches that agree with the store, reading a list of hashes back reads the store. -/
theorem getHeadersByHash_of_agrees {hc : HeaderChain} (ha : hc.caches.Agrees hc.headerDb)
    (hashes : List Hash) : (getHeadersByHash hc hashes).1 = hashes.map hc.headerDb.headerByHash := by
  induction hashes generalizing hc with
  | nil => rfl
  | cons hash rest ih =>
    obtain ⟨hfirst, ha₁⟩ := ha.getHeaderByHash hash
    rw [getHeadersByHash, getHeaderByHash_eq]
    exact congrArg₂ List.cons hfirst (ih ha₁)

end HeaderChain

/-! ### `NewHeaderChain` -/

/-- `NewHeaderChain`, `core/headerchain.go:98-141`, on the store `db`: fresh caches, the
header `GetHeaderByNumber(0)` reads as the genesis, an empty registry, then `loadLastState`
(`core/headerchain.go:396-418`), which reads the head by the saved head hash and the registry
hash by hash. Nothing stored the head before, so `CurrentHeader` panics unless that read finds
a header. The random source, the engine and the head gauge are not modelled. -/
def newHeaderChain (config : Config) (db : Database) (replies : StartReplies) : Startup :=
  match replies.seed, replies.blockChain with
  | some err, _ => .failed err
  | none, some err => .failed err
  | none, none =>
    match CacheTier.new.getHeaderByNumber db 0 with
    | (none, _) => .noGenesis
    | (some genesis, caches) =>
      let head := Rawdb.readHeadBlockHash db
      match if head ≠ .zero then caches.getHeaderByHash db head else (none, caches) with
      | (none, _) => .unsetHead
      | (some chead, caches) =>
        let hc : HeaderChain :=
          { config := config, headerDb := db, genesisHeader := genesis, currentHeader := chead,
            caches := caches, heads := [], running := 0, procInterrupt := 0, bodyTrims := [] }
        match HeaderChain.getHeadersByHash hc (Rawdb.readHeadsHashes db) with
        | (heads, hc) => .started { hc with heads := heads }

/-- The head read of `loadLastState` on agreeing caches reads the store: the zero hash, which
it skips, has no number entry. -/
theorem CacheTier.Agrees.readHead {c : CacheTier} {db : Database} (ha : c.Agrees db) (head : Hash) :
    (if head ≠ .zero then c.getHeaderByHash db head else (none, c)).1 = db.headerByHash head ∧
      (if head ≠ .zero then c.getHeaderByHash db head else (none, c)).2.Agrees db := by
  split
  · exact ha.getHeaderByHash head
  · next hz =>
    rw [not_not.mp hz]
    exact ⟨(db.headerByHash_of_number?_eq_none (show Hash.zero.number? = none from rfl)).symm, ha⟩

/-- Start-up's outcome is a function of the store: the caches it fills on the way hold only
what the store holds. -/
theorem newHeaderChain_eq (config : Config) (db : Database) :
    ∃ caches, newHeaderChain config db ⟨none, none⟩ =
      match db.headerByNumber 0, db.headerByHash db.headBlockHash with
      | none, _ => .noGenesis
      | some _, none => .unsetHead
      | some G, some X => .started
        { config := config, headerDb := db, genesisHeader := G, currentHeader := X,
          caches := caches, heads := db.headsHashes.map db.headerByHash, running := 0,
          procInterrupt := 0, bodyTrims := [] } := by
  obtain ⟨hg, ha₁⟩ := CacheTier.getHeaderByNumber_new db 0
  unfold newHeaderChain
  dsimp only
  generalize CacheTier.new.getHeaderByNumber db 0 = r at hg ha₁ ⊢
  rcases r with ⟨_ | G, c₁⟩ <;> dsimp only at hg ha₁ ⊢ <;> rw [← hg]
  · exact ⟨c₁, rfl⟩
  obtain ⟨hh, ha₂⟩ := ha₁.readHead (Rawdb.readHeadBlockHash db)
  generalize (if Rawdb.readHeadBlockHash db ≠ .zero then
    c₁.getHeaderByHash db (Rawdb.readHeadBlockHash db) else (none, c₁)) = r at hh ha₂ ⊢
  rcases r with ⟨_ | X, c₂⟩ <;> dsimp only [Rawdb.readHeadBlockHash] at hh ha₂ ⊢ <;> rw [← hh]
  · exact ⟨c₂, rfl⟩
  -- the registry is read back on caches that still agree with the store
  set hc₀ : HeaderChain :=
    { config := config, headerDb := db, genesisHeader := G, currentHeader := X, caches := c₂,
      heads := [], running := 0, procInterrupt := 0, bodyTrims := [] }
  obtain ⟨caches, hcs⟩ := HeaderChain.cachesOnly_getHeadersByHash hc₀ (Rawdb.readHeadsHashes db)
  have hheads := @HeaderChain.getHeadersByHash_of_agrees hc₀ ha₂ (Rawdb.readHeadsHashes db)
  refine ⟨caches, ?_⟩
  rcases hr : HeaderChain.getHeadersByHash hc₀ (Rawdb.readHeadsHashes db) with ⟨heads, hc₁⟩
  rw [hr] at hcs hheads
  subst hcs
  dsimp only at hheads ⊢
  rw [hheads]
  rfl

/-- Start-up reads the store and nothing else: it returns `ErrNoGenesis` when no header is
canonical at zero; it panics in `CurrentHeader` when there is one but the saved head hash
reads back no header; otherwise it returns the chain on the store with that genesis, the
header under the saved head hash as its head, the registry read back hash by hash (nil where
a hash reads nothing), running and not interrupted, whatever it cached on the way. -/
theorem newHeaderChain_spec (config : Config) (db : Database) :
    (db.headerByNumber 0 = none → newHeaderChain config db ⟨none, none⟩ = .noGenesis) ∧
    (∀ G, db.headerByNumber 0 = some G → db.headerByHash db.headBlockHash = none →
      newHeaderChain config db ⟨none, none⟩ = .unsetHead) ∧
    (∀ G X, db.headerByNumber 0 = some G → db.headerByHash db.headBlockHash = some X →
      ∃ caches, newHeaderChain config db ⟨none, none⟩ = .started
        { config := config, headerDb := db, genesisHeader := G, currentHeader := X,
          caches := caches, heads := db.headsHashes.map db.headerByHash, running := 0,
          procInterrupt := 0, bodyTrims := [] }) := by
  obtain ⟨caches, h⟩ := newHeaderChain_eq config db
  refine ⟨fun hG => ?_, fun G hG hX => ?_, fun G X hG hX => ⟨caches, ?_⟩⟩ <;> rw [h]
  · rw [hG]
  · rw [hG, hX]
  · rw [hG, hX]

/-- The hashes `Stop` saves for a registry, read back hash by hash, give the registry, nil
entries included, when each registered header can be read back by its hash. -/
theorem Database.map_headerByHash_ptrHash {db : Database} {heads : List (Option Header)}
    (h : ∀ X, some X ∈ heads → db.ReadableByHash X) :
    (heads.map ptrHash).map db.headerByHash = heads := by
  rw [List.map_map]
  refine (List.map_congr_left fun x hx => ?_).trans (List.map_id heads)
  cases x with
  | none => exact db.headerByHash_of_number?_eq_none (show Hash.nilHeader.number? = none from rfl)
  | some X => exact Database.headerByHash_eq_some.mpr (h X hx)

/-- `Stop` on a running chain keeps the headers, the number entries and the canonical mapping,
and saves the head's hash, and hashes that read back the registry when each registered header
can be read back by its hash. -/
theorem HeaderChain.stop_headerDb_reads {hc : HeaderChain} (hrun : hc.running = 0) :
    hc.stop.headerDb.headers = hc.headerDb.headers ∧
      hc.stop.headerDb.numbers = hc.headerDb.numbers ∧
      hc.stop.headerDb.canonical = hc.headerDb.canonical ∧
      hc.stop.headerDb.headerByNumber = hc.headerDb.headerByNumber ∧
      hc.stop.headerDb.headerByHash hc.stop.headerDb.headBlockHash =
        hc.headerDb.headerByHash hc.currentHeader.hash ∧
      ((∀ X, some X ∈ hc.heads → hc.headerDb.ReadableByHash X) →
        hc.stop.headerDb.headsHashes.map hc.stop.headerDb.headerByHash = hc.heads) := by
  rw [HeaderChain.stop, if_neg (not_not.mpr hrun)]
  exact ⟨rfl, rfl, rfl, rfl, rfl, Database.map_headerByHash_ptrHash⟩

/-- What `Stop` saves, start-up reads back: on a running chain whose head and registered heads
can each be read back by hash, `NewHeaderChain` on the store `Stop` leaves starts the same
chain on that store, with the same head and registry, the header canonical at zero as its
genesis, caches filled from the store, no trims and no interrupt. -/
theorem newHeaderChain_stop {hc : HeaderChain} {G : Header} (hrun : hc.running = 0)
    (hG : hc.headerDb.headerByNumber 0 = some G)
    (hcur : hc.headerDb.ReadableByHash hc.currentHeader)
    (hheads : ∀ X, some X ∈ hc.heads → hc.headerDb.ReadableByHash X) :
    ∃ caches, newHeaderChain hc.config hc.stop.headerDb ⟨none, none⟩ = .started
      { hc with
        headerDb := hc.stop.headerDb, genesisHeader := G, caches := caches, procInterrupt := 0,
        bodyTrims := [] } := by
  obtain ⟨-, -, -, hnum, hread, hmap⟩ := HeaderChain.stop_headerDb_reads hrun
  obtain ⟨caches, h⟩ := newHeaderChain_eq hc.config hc.stop.headerDb
  refine ⟨caches, h.trans ?_⟩
  rw [hnum, hG, hread, Database.headerByHash_eq_some.mpr hcur]
  dsimp only
  rw [hmap hheads, hrun]

/-- Stopping head `a1` with `a2`, a nil entry and `a3` registered, then starting on the store:
the same head and registry, on the genesis. -/
theorem newHeaderChain_stop_registryA2A3 :
    Example.registryA2A3.running = 0 ∧
      Example.registryA2A3.headerDb.headerByNumber 0 = some Example.genesis ∧
      Example.registryA2A3.headerDb.ReadableByHash Example.a1 ∧
      (∀ X, some X ∈ Example.registryA2A3.heads → Example.registryA2A3.headerDb.ReadableByHash X) ∧
      ∃ caches, newHeaderChain Example.config Example.registryA2A3.stop.headerDb ⟨none, none⟩ =
        .started
          { Example.registryA2A3 with
            headerDb := Example.registryA2A3.stop.headerDb, genesisHeader := Example.genesis,
            caches := caches, procInterrupt := 0, bodyTrims := [] } :=
  have hheads : ∀ X, some X ∈ Example.registryA2A3.heads →
      Example.registryA2A3.headerDb.ReadableByHash X := fun X hX => by
    simp only [Example.registryA2A3, List.mem_cons, Option.some_inj, Option.some_ne_none,
      false_or, List.not_mem_nil, or_false] at hX
    rcases hX with rfl | rfl <;> exact ⟨rfl, rfl⟩
  have hG : Example.registryA2A3.headerDb.headerByNumber 0 = some Example.genesis := rfl
  ⟨rfl, hG, ⟨rfl, rfl⟩, hheads, newHeaderChain_stop rfl hG ⟨rfl, rfl⟩ hheads⟩

/-- A chain whose head can no longer be read back by hash cannot restart: `Stop` saves the
head's hash all the same, and start-up on that store panics in `CurrentHeader`, once a genesis
is found at number zero. -/
theorem newHeaderChain_stop_panics {hc : HeaderChain} (hrun : hc.running = 0)
    (hG : hc.headerDb.headerByNumber 0 ≠ none)
    (hcur : ¬ hc.headerDb.ReadableByHash hc.currentHeader) :
    newHeaderChain hc.config hc.stop.headerDb ⟨none, none⟩ = .unsetHead := by
  obtain ⟨G, hG⟩ := Option.ne_none_iff_exists'.mp hG
  obtain ⟨-, -, -, hnum, hread, -⟩ := HeaderChain.stop_headerDb_reads hrun
  obtain ⟨caches, h⟩ := newHeaderChain_eq hc.config hc.stop.headerDb
  rw [h, hnum, hG, hread, Database.headerByHash_hash_eq_none hcur]

/-- After `a1` is appended to a fresh chain and made its head, `Reset` deletes it; a restart
then panics. -/
theorem newHeaderChain_stop_panics_reset :
    ∃ hc, HeaderChain.Reachable 2 .insertion Example.config Example.genesis hc ∧
      hc.running = 0 ∧ hc.headerDb.headerByNumber 0 ≠ none ∧
      ¬ hc.headerDb.ReadableByHash hc.currentHeader ∧
      newHeaderChain hc.config hc.stop.headerDb ⟨none, none⟩ = .unsetHead := by
  have hrun : HeaderChain.Reachable 2 .insertion Example.config Example.genesis _ :=
    (((HeaderChain.Reachable.fresh 2 .insertion _ _).step
      (@HeaderChain.Step.append 2 .insertion _ _ Example.a1 Example.accept none (by rfl))).step
      (@HeaderChain.Step.setCurrentHeader 2 .insertion _ _ Example.a1 _ (by rfl))).step
      (@HeaderChain.Step.reset 2 .insertion _ _ (by rfl))
  refine ⟨_, hrun, rfl, ?hG, ?hcur, newHeaderChain_stop_panics rfl ?hG ?hcur⟩
  · exact Option.ne_none_iff_exists'.mpr ⟨_, rfl⟩
  · unfold Database.ReadableByHash
    decide

/-- In an indexed store a header's hash reads back that header exactly when it is stored. -/
theorem Database.Indexed.headerByHash_hash {db : Database} (hi : db.Indexed) (X : Header) :
    db.headerByHash X.hash = if db.headers X.hash X.number = some X then some X else none := by
  split
  · next hX => exact Database.headerByHash_eq_some.mpr (hi.readableByHash hX)
  · next hX => exact Database.headerByHash_hash_eq_none fun hr => hX hr.2

/-- In an indexed store the hashes `Stop` saves for a registry read back the registry with nil
in place of every registered header no longer stored. -/
theorem Database.Indexed.map_headerByHash_ptrHash {db : Database} (hi : db.Indexed)
    (heads : List (Option Header)) :
    (heads.map ptrHash).map db.headerByHash =
      heads.map (Option.filter fun X => db.headers X.hash X.number = some X) := by
  rw [List.map_map]
  refine List.map_congr_left fun x _ => ?_
  cases x with
  | none => exact db.headerByHash_of_number?_eq_none (show Hash.nilHeader.number? = none from rfl)
  | some X => exact (hi.headerByHash_hash X).trans (by simp only [Option.filter_some, decide_eq_true_eq])

variable {maxHeadsQueueLimit : Nat} {sorter : HeadsSorter} in
/-- What a restart does in every state a run reaches: `Stop`, then `NewHeaderChain` on the
store it leaves, returns `ErrNoGenesis` when no header is stored canonical at zero any more;
panics in `CurrentHeader` when the head is no longer stored; and otherwise starts the chain
again with the same head, the store as `Stop` left it, the header canonical at zero as its
genesis, and the registry with nil in place of every registered head no longer stored. -/
theorem reachable_restart {config : Config} {genesis : Header} {hc : HeaderChain}
    (h : HeaderChain.Reachable maxHeadsQueueLimit sorter config genesis hc) :
    ∃ caches, newHeaderChain hc.config hc.stop.headerDb ⟨none, none⟩ =
      match hc.headerDb.headerByNumber 0 with
      | none => .noGenesis
      | some G =>
        if hc.headerDb.headers hc.currentHeader.hash hc.currentHeader.number =
            some hc.currentHeader then .started
          { hc with
            headerDb := hc.stop.headerDb, genesisHeader := G, caches := caches,
            heads := hc.heads.map (Option.filter fun X => hc.headerDb.headers X.hash X.number = some X),
            procInterrupt := 0, bodyTrims := [] }
        else .unsetHead := by
  obtain ⟨hi, hrun⟩ := HeaderChain.reachable_indexed maxHeadsQueueLimit sorter h
  obtain ⟨-, -, -, hnum, hread, -⟩ := HeaderChain.stop_headerDb_reads hrun
  have hmap : hc.stop.headerDb.headsHashes.map hc.stop.headerDb.headerByHash =
      hc.heads.map (Option.filter fun X => hc.headerDb.headers X.hash X.number = some X) := by
    rw [HeaderChain.stop, if_neg (not_not.mpr hrun)]
    exact hi.map_headerByHash_ptrHash hc.heads
  obtain ⟨caches, heq⟩ := newHeaderChain_eq hc.config hc.stop.headerDb
  refine ⟨caches, heq.trans ?_⟩
  rw [hnum, hread, hi.headerByHash_hash]
  rcases hc.headerDb.headerByNumber 0 with _ | G
  · rfl
  · by_cases hst : hc.headerDb.headers hc.currentHeader.hash hc.currentHeader.number =
        some hc.currentHeader
    · simp only [if_pos hst]
      rw [hmap, hrun]
    · simp only [if_neg hst]

/-- After `b1` is appended to a fresh chain and `Reset` trims it away, a restart starts the
chain again with `b1`'s registry entry nil. -/
theorem reachable_restart_b1 :
    ∃ hc, HeaderChain.Reachable 2 .insertion Example.config Example.genesis hc ∧
      hc.heads = [some Example.b1] ∧
      hc.heads.map (Option.filter fun X => hc.headerDb.headers X.hash X.number = some X) =
        [none] ∧
      ∃ caches, newHeaderChain hc.config hc.stop.headerDb ⟨none, none⟩ =
        match hc.headerDb.headerByNumber 0 with
        | none => .noGenesis
        | some G =>
          if hc.headerDb.headers hc.currentHeader.hash hc.currentHeader.number =
              some hc.currentHeader then .started
            { hc with
              headerDb := hc.stop.headerDb, genesisHeader := G, caches := caches,
              heads := hc.heads.map
                (Option.filter fun X => hc.headerDb.headers X.hash X.number = some X),
              procInterrupt := 0, bodyTrims := [] }
          else .unsetHead :=
  have hrun : HeaderChain.Reachable 2 .insertion Example.config Example.genesis _ :=
    ((HeaderChain.Reachable.fresh 2 .insertion _ _).step
      (@HeaderChain.Step.append 2 .insertion _ _ Example.b1 Example.accept none (by rfl))).step
      (@HeaderChain.Step.reset 2 .insertion _ _ (by rfl))
  ⟨_, hrun, by rfl, by rfl, reachable_restart hrun⟩

open HeaderChain in
/-- The fresh chain that runs start from is what start-up builds, caches aside, on the store
holding only a genesis numbered zero once the genesis hash is saved as the head; on the fresh
chain's own store, where no head hash is saved, start-up panics. -/
theorem newHeaderChain_fresh (config : Config) {genesis : Header} (hg : genesis.number = 0) :
    newHeaderChain config (fresh config genesis).headerDb ⟨none, none⟩ = .unsetHead ∧
      ∃ caches, newHeaderChain config
          (Rawdb.writeHeadBlockHash (fresh config genesis).headerDb genesis.hash) ⟨none, none⟩ =
        .started
          { fresh config genesis with
            headerDb := Rawdb.writeHeadBlockHash (fresh config genesis).headerDb genesis.hash,
            caches := caches } := by
  set D := Rawdb.writeHeadBlockHash (fresh config genesis).headerDb genesis.hash
  have h0 : (fresh config genesis).headerDb.headerByNumber 0 = some genesis := by
    simp [Database.headerByNumber, fresh, Rawdb.writeCanonicalHash, Rawdb.writeHeader, hg]
  -- without a saved head the head read finds nothing; with it, the genesis
  have hz : (fresh config genesis).headerDb.headerByHash
      (fresh config genesis).headerDb.headBlockHash = none :=
    Database.headerByHash_of_number?_eq_none _ rfl
  have h1 : D.headerByHash D.headBlockHash = some genesis := Database.headerByHash_eq_some.mpr
    (by simp [D, Database.ReadableByHash, fresh, Rawdb.writeHeadBlockHash, Rawdb.writeCanonicalHash,
      Rawdb.writeHeader])
  obtain ⟨c, h⟩ := newHeaderChain_eq config (fresh config genesis).headerDb
  obtain ⟨caches, h'⟩ := newHeaderChain_eq config D
  refine ⟨h.trans (by rw [h0, hz]), caches, h'.trans ?_⟩
  rw [show D.headerByNumber 0 = some genesis from h0, h1]
  rfl

open HeaderChain Example in
/-- Starting on the example genesis. -/
theorem newHeaderChain_fresh_genesis :
    genesis.number = 0 ∧
      newHeaderChain config (fresh config genesis).headerDb ⟨none, none⟩ = .unsetHead ∧
      ∃ caches, newHeaderChain config
          (Rawdb.writeHeadBlockHash (fresh config genesis).headerDb genesis.hash) ⟨none, none⟩ =
        .started
          { fresh config genesis with
            headerDb := Rawdb.writeHeadBlockHash (fresh config genesis).headerDb genesis.hash,
            caches := caches } :=
  ⟨rfl, newHeaderChain_fresh config rfl⟩

/-! ### The normal path across restarts -/

namespace HeaderChain

variable (maxHeadsQueueLimit : Nat) (sorter : HeadsSorter)

/-- A call of a run on the normal path, or a restart between calls: `Stop`, then
`NewHeaderChain` on the store it leaves, while each registered head can be read back by its
hash. -/
inductive ServeStep : HeaderChain → HeaderChain → Prop
  | extend {hc hc' : HeaderChain} : ExtendStep maxHeadsQueueLimit sorter hc hc' → ServeStep hc hc'
  | restart {hc hc' : HeaderChain} : (∀ X, some X ∈ hc.heads → hc.headerDb.ReadableByHash X) →
      newHeaderChain hc.config hc.stop.headerDb ⟨none, none⟩ = .started hc' → ServeStep hc hc'

/-- What a run on the normal path keeps across restarts: its own invariant, an indexed store
and a running chain. -/
structure ServeInv (hc : HeaderChain) : Prop where
  extend : ExtendInv maxHeadsQueueLimit hc
  indexed : hc.headerDb.Indexed
  running : hc.running = 0

variable {maxHeadsQueueLimit sorter}

/-- On a good state whose head's branch is stored down to number zero, the genesis is the
header canonical at zero. -/
theorem ExtendInv.headerByNumber_zero {hc : HeaderChain} (hinv : ExtendInv maxHeadsQueueLimit hc) :
    hc.headerDb.headerByNumber 0 = some hc.genesisHeader := by
  obtain ⟨Y, hY, hYn, hYst⟩ := hinv.branch hc.currentHeader.number le_rfl
  obtain rfl : Y = hc.genesisHeader :=
    Header.hash_inj (Option.some_inj.mp (hY.symm.trans hinv.good.genesis))
  have hcan := hinv.good.canonical_base hY hYn
  rw [show hc.genesisHeader.number = 0 by omega] at hcan hYst
  rw [Database.headerByNumber, hcan, if_neg (Header.hash_ne_zero _)]
  exact hYst

/-- A restart keeps the invariant: the restarted chain has the head, the registry, the
genesis, the headers and the canonical mapping it was stopped with. -/
theorem ServeInv.restart {hc hc' : HeaderChain} (hinv : ServeInv maxHeadsQueueLimit hc)
    (hheads : ∀ X, some X ∈ hc.heads → hc.headerDb.ReadableByHash X)
    (h : newHeaderChain hc.config hc.stop.headerDb ⟨none, none⟩ = .started hc') :
    ServeInv maxHeadsQueueLimit hc' := by
  obtain ⟨hh, hn, hcan, hnum, hread, hmap⟩ := stop_headerDb_reads hinv.running
  obtain ⟨caches, h'⟩ := newHeaderChain_eq hc.config hc.stop.headerDb
  rw [h, hnum, hinv.extend.headerByNumber_zero, hread,
    Database.headerByHash_eq_some.mpr (hinv.indexed.readableByHash hinv.extend.branch.self)] at h'
  obtain rfl := Startup.started.inj h'
  rw [hmap hheads]
  exact ⟨⟨hinv.extend.good.congr hcan rfl rfl, hinv.extend.genesis, hinv.extend.registry,
    hinv.extend.wellNumbered, hh ▸ hinv.extend.branch⟩, hinv.indexed.congr hh hn, rfl⟩

/-- The calls on the normal path are calls of a run. -/
theorem ExtendStep.step {hc hc' : HeaderChain} (hs : ExtendStep maxHeadsQueueLimit sorter hc hc') :
    Step maxHeadsQueueLimit sorter hc hc' := by
  cases hs with
  | append _ _ h => exact .append h
  | setCurrentHeader _ _ _ h => exact .setCurrentHeader h
  | read h => exact .read h

/-- Every call on the normal path, and every restart, keeps the invariant. -/
theorem ServeStep.serveInv {hc hc' : HeaderChain} (hs : ServeStep maxHeadsQueueLimit sorter hc hc')
    (hinv : ServeInv maxHeadsQueueLimit hc) : ServeInv maxHeadsQueueLimit hc' := by
  cases hs with
  | extend hs =>
    obtain ⟨hi, hrun⟩ := hs.step.indexed hinv.indexed
    exact ⟨hs.extendInv hinv.extend, hi, hrun.trans hinv.running⟩
  | restart hheads h => exact hinv.restart hheads h

/-! ### What `Export` writes -/

/-- A branch of one header is that header. -/
theorem branchHeaders_one (headers : Hash → Nat → Option Header) (X : Header) :
    branchHeaders headers X 1 = [X] := by
  unfold branchHeaders
  split <;> rfl

/-- Reading, at each number from the bottom of `X`'s stored branch up to `X`'s, a block whose
header is the branch's header there gives the branch bottom up. -/
theorem filterMap_range'_branchHeaders {headers : Hash → Nat → Option Header}
    {f : Nat → Option Block} :
    ∀ {X : Header} {j : Nat}, StoredBranch headers X j →
      (∀ i ≤ j, ∀ Z : Header, X.hash.ancestor? i = some Z.hash → Z.number + i = X.number →
        ∃ u, f Z.number = some ⟨Z, u⟩) →
      ((List.range' (X.number - j) (j + 1)).filterMap f).map Block.header =
        (branchHeaders headers X (j + 1)).reverse
  | X, 0, _, hf => by
    obtain ⟨u, hu⟩ := hf 0 le_rfl X (Hash.ancestor?_zero _) rfl
    rw [branchHeaders_one]
    simp only [Nat.sub_zero, Nat.zero_add, List.range'_one, List.filterMap_cons, hu,
      List.filterMap_nil]
    rfl
  | X, j + 1, hst, hf => by
    obtain ⟨Y, hYh, hYn, hYst, hYbr⟩ := hst.parent
    obtain ⟨Z, -, hZ, -⟩ := hYbr j le_rfl
    obtain ⟨u, hu⟩ := hf 0 (Nat.zero_le _) X (Hash.ancestor?_zero _) rfl
    have hrest := filterMap_range'_branchHeaders hYbr fun i _ Z hZ hZn =>
      hf (i + 1) (by omega) Z (by rw [Header.ancestor?_hash_succ, ← hYh]; exact hZ) (by omega)
    rw [branchHeaders_succ hYst, List.range'_concat,
      show X.number - (j + 1) + 1 * (j + 1) = X.number by omega,
      show X.number - (j + 1) = Y.number - j by omega, List.filterMap_append, List.map_append,
      hrest, List.reverse_cons]
    simp only [List.filterMap_cons, hu, List.filterMap_nil]
    rfl

/-- On a good state whose head's branch is stored down to number zero, with a body chain that
holds the block of every stored header and writes that never fail, `Export` below the top of
the `uint64` range, given more rounds than blocks, writes the blocks of the head's branch from
number zero up and returns nil, and `CurrentBlock` returns the last block written. -/
theorem exportChain_of_good {hc : HeaderChain} {bc : BodyChain}
    {encodeRLP : Block → Option ChainError} (hgood : hc.Good) (hi : hc.headerDb.Indexed)
    (hst : StoredBranch hc.headerDb.headers hc.currentHeader hc.currentHeader.number)
    (hbc : ∀ X, hc.headerDb.headers X.hash X.number = some X →
      ∃ u, bc.getBlock X.hash X.number = some ⟨X, u⟩)
    (henc : ∀ b, encodeRLP b = none) (w : List Block) {fuel : Nat}
    (htop : hc.currentHeader.number < 2 ^ 64 - 1) (hfuel : hc.currentHeader.number + 1 < fuel) :
    ∃ blocks, hc.exportChain bc encodeRLP w fuel = some (none, w ++ blocks) ∧
      blocks.map Block.header =
        (branchHeaders hc.headerDb.headers hc.currentHeader (hc.currentHeader.number + 1)).reverse ∧
      (hc.currentBlock bc).1 = blocks.getLast? := by
  set N := hc.currentHeader.number
  -- a header of the head's branch is canonical, so its number reads its block
  have hblock : ∀ {i : Nat} {Y : Header}, hc.currentHeader.hash.ancestor? i = some Y.hash →
      Y.number + i = N → hc.getBlockByNumber bc Y.number = bc.getBlock Y.hash Y.number :=
    fun hY hYn => by
      rw [getBlockByNumber, Rawdb.readCanonicalHash_eq, hgood.canonical_base hY hYn,
        if_neg (Header.hash_ne_zero _)]
  have hfound : ∀ i < N + 1, hc.getBlockByNumber bc (0 + i) ≠ none := fun i hi => by
    obtain ⟨Y, hY, hYn, hYst⟩ := hst (N - i) (Nat.sub_le _ _)
    obtain ⟨u, hu⟩ := hbc Y hYst
    rw [show 0 + i = Y.number by omega, hblock hY (by omega), hu]
    exact Option.some_ne_none _
  obtain ⟨fuel, rfl⟩ : ∃ f, fuel = f + 1 + (N + 1) := ⟨fuel - 1 - (N + 1), by omega⟩
  refine ⟨(List.range' 0 (N + 1)).filterMap (hc.getBlockByNumber bc), ?_, ?_, ?_⟩
  · rw [exportChain, exportN, if_neg (Nat.not_lt_zero _),
      exportLoop_found hc bc henc _ w (by omega) (by omega) hfound]
    simp only [exportLoop, if_neg (show ¬0 + (N + 1) ≤ N by omega)]
  · have h := @filterMap_range'_branchHeaders _ (hc.getBlockByNumber bc) _ _ hst
      fun i hi Z hZ hZn => by
        obtain ⟨Y, hY, -, hYst⟩ := hst i hi
        obtain rfl := Header.hash_inj (Option.some_inj.mp (hY.symm.trans hZ))
        rw [hblock hY hZn]
        exact hbc Y hYst
    rwa [Nat.sub_self] at h
  · obtain ⟨u, hu⟩ := hbc _ hst.self
    have hN : hc.getBlockByNumber bc N = some ⟨hc.currentHeader, u⟩ :=
      (hblock (Hash.ancestor?_zero _) rfl).trans hu
    rw [currentBlock, getBlockByHash_of_numbers hc bc (hi.readableByHash hst.self).1, hu,
      List.range'_concat, List.filterMap_append, Nat.zero_add, Nat.one_mul]
    simp only [List.filterMap_cons, hN, List.filterMap_nil, List.getLast?_concat]

/-- Every state that a run on the normal path with restarts reaches from a fresh chain on the
context's genesis, numbered zero, meets the invariant. -/
theorem serveRun_serveInv {config : Config} {genesis : Header} {hc : HeaderChain}
    (hg : genesis.number = 0) (hctx : genesis.hash = config.genesisHashes config.context)
    (h : Relation.ReflTransGen (ServeStep maxHeadsQueueLimit sorter) (fresh config genesis) hc) :
    ServeInv maxHeadsQueueLimit hc := by
  induction h with
  | refl => exact ⟨fresh_extendInv hg hctx, fresh_indexed config genesis, rfl⟩
  | tail _ hs ih => exact hs.serveInv ih

/-- In every state that a run on the normal path reaches from a fresh chain on the context's
genesis, numbered zero — appends of well-numbered blocks whose bodies the body chain accepts,
moves of the head to a stored child numbered one above it, and restarts while the registered
heads can be read back — `Export`, with a body chain holding the block of every stored header
and writes that never fail, below the top of the `uint64` range and given more rounds than
blocks, writes the blocks of the head's branch from number zero up and returns nil, and
`CurrentBlock` returns the last block written. -/
theorem serveRun_exportChain {config : Config} {genesis : Header} {hc : HeaderChain}
    (hg : genesis.number = 0) (hctx : genesis.hash = config.genesisHashes config.context)
    (h : Relation.ReflTransGen (ServeStep maxHeadsQueueLimit sorter) (fresh config genesis) hc)
    {bc : BodyChain} (hbc : ∀ X, hc.headerDb.headers X.hash X.number = some X →
      ∃ u, bc.getBlock X.hash X.number = some ⟨X, u⟩)
    {encodeRLP : Block → Option ChainError} (henc : ∀ b, encodeRLP b = none) (w : List Block)
    {fuel : Nat} (htop : hc.currentHeader.number < 2 ^ 64 - 1)
    (hfuel : hc.currentHeader.number + 1 < fuel) :
    ∃ blocks, hc.exportChain bc encodeRLP w fuel = some (none, w ++ blocks) ∧
      blocks.map Block.header =
        (branchHeaders hc.headerDb.headers hc.currentHeader (hc.currentHeader.number + 1)).reverse ∧
      (hc.currentBlock bc).1 = blocks.getLast? :=
  have hinv := serveRun_serveInv hg hctx h
  exportChain_of_good hinv.extend.good hinv.indexed hinv.extend.branch hbc henc w htop hfuel

/-- A body chain holding, for every header a store holds, a block of that header without
uncles. -/
def Example.storeBodies (db : Database) : BodyChain :=
  ⟨fun hash number => (db.headers hash number).map fun X => ⟨X, []⟩⟩

/-- `storeBodies` holds the block of every stored header. -/
theorem Example.storeBodies_getBlock (db : Database) {X : Header}
    (hX : db.headers X.hash X.number = some X) :
    ∃ u, (Example.storeBodies db).getBlock X.hash X.number = some ⟨X, u⟩ :=
  ⟨[], by simp only [Example.storeBodies, hX, Option.map_some']⟩

/-- Appending `a1` and moving the head to it, restarting, then appending `a2` and moving the
head to it: `Export` writes the blocks of the genesis, `a1` and `a2`, and `CurrentBlock` is
the last. -/
theorem serveRun_exportChain_a2 :
    ∃ hc, Relation.ReflTransGen (ServeStep 2 .insertion)
        (fresh Example.config Example.genesis) hc ∧
      Example.genesis.number = 0 ∧
      Example.genesis.hash = Example.config.genesisHashes Example.config.context ∧
      (∀ X, hc.headerDb.headers X.hash X.number = some X →
        ∃ u, (Example.storeBodies hc.headerDb).getBlock X.hash X.number = some ⟨X, u⟩) ∧
      hc.currentHeader = Example.a2 ∧ hc.currentHeader.number < 2 ^ 64 - 1 ∧
      hc.currentHeader.number + 1 < 4 ∧
      ∃ blocks, hc.exportChain (Example.storeBodies hc.headerDb) (fun _ => none) [] 4 =
          some (none, [] ++ blocks) ∧
        blocks.map Block.header =
          (branchHeaders hc.headerDb.headers hc.currentHeader (hc.currentHeader.number + 1)).reverse ∧
        (hc.currentBlock (Example.storeBodies hc.headerDb)).1 = blocks.getLast? :=
  have hwn₁ : Example.a1.hash.WellNumbered := by
    simp [Example.a1, Example.genesis, Header.hash, Hash.number?]
  have hwn₂ : Example.a2.hash.WellNumbered := by
    simp [Example.a2, Example.a1, Example.genesis, Header.hash, Hash.number?]
  have hrun : Relation.ReflTransGen (ServeStep 2 .insertion)
      (fresh Example.config Example.genesis) _ :=
    ((((Relation.ReflTransGen.refl.tail (ServeStep.extend
      (@ExtendStep.append 2 .insertion _ _ Example.a1 Example.accept none hwn₁ rfl (by rfl)))).tail
      (ServeStep.extend (@ExtendStep.setCurrentHeader 2 .insertion _ _ Example.a1 _ (by rfl)
        (by rfl) (by rfl) (by rfl)))).tail
      (@ServeStep.restart 2 .insertion _ _ (fun X hX => by
        change some X ∈ [some Example.a1] at hX
        obtain rfl := Option.some_inj.mp (List.mem_singleton.mp hX)
        exact ⟨rfl, rfl⟩) (by rfl))).tail
      (ServeStep.extend
        (@ExtendStep.append 2 .insertion _ _ Example.a2 Example.accept none hwn₂ rfl (by rfl)))).tail
      (ServeStep.extend (@ExtendStep.setCurrentHeader 2 .insertion _ _ Example.a2 _ (by rfl)
        (by rfl) (by rfl) (by rfl)))
  have hbc := fun X (hX : _ = some X) => Example.storeBodies_getBlock _ hX
  have htop : 2 < 2 ^ 64 - 1 := by decide
  have hfuel : 2 + 1 < 4 := by decide
  ⟨_, hrun, rfl, rfl, hbc, rfl, htop, hfuel,
    serveRun_exportChain rfl rfl hrun hbc (fun _ => rfl) [] htop hfuel⟩

end HeaderChain

end QuaiHeaderChain
