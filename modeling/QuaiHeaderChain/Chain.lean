import QuaiHeaderChain.Lru
import QuaiHeaderChain.Rawdb

/-!
# The `HeaderChain` record and its cached read paths

`HeaderChain` (`core/headerchain.go:68-93`) with the fields its modelled methods use, and
the reads of `core/headerchain.go:478-488,600-643`: every read looks in a cache first and
on a miss reads the database and caches what it found. The caches are only ever filled
from the database, so a cached header is the header of its key and a cached number is
its hash's number; `CacheTier` carries both facts.
-/

namespace QuaiHeaderChain

/-- `headerCacheLimit`, `core/headerchain.go:47`. -/
def headerCacheLimit : Nat := 512

/-- `numberCacheLimit`, `core/headerchain.go:49`. -/
def numberCacheLimit : Nat := 2048

/-- `headerCache` and `numberCache`, each entry as the database held it when cached. -/
structure CacheTier where
  headerCache : Lru Hash Header
  numberCache : Lru Hash Nat
  headerCache_sound : headerCache.Sound fun h X => X.hash = h
  numberCache_sound : numberCache.Sound fun h n => h.number? = some n

namespace CacheTier

/-- The caches `NewHeaderChain` creates, `core/headerchain.go:100-102`. -/
def new : CacheTier where
  headerCache := .new headerCacheLimit
  numberCache := .new numberCacheLimit
  headerCache_sound := Lru.sound_new _
  numberCache_sound := Lru.sound_new _

/-- The header-cache half of `GetHeader`, `core/headerchain.go:600-612`. -/
def getHeader (c : CacheTier) (db : Database) (hash : Hash) (number : Nat) :
    Option Header × CacheTier :=
  match c.headerCache.peek hash with
  | some header =>
    (some header, { c with
      headerCache := (c.headerCache.get hash).2
      headerCache_sound := c.headerCache_sound.get hash })
  | none =>
    match hr : Rawdb.readHeader db hash number with
    | none => (none, c)
    | some header =>
      (some header, { c with
        headerCache := c.headerCache.add hash header
        headerCache_sound := c.headerCache_sound.add (db.headers_sound _ _ _ hr).1 })

/-- The number-cache half of `GetBlockNumber`, `core/headerchain.go:478-488`. -/
def getBlockNumber (c : CacheTier) (db : Database) (hash : Hash) : Option Nat × CacheTier :=
  match c.numberCache.peek hash with
  | some number =>
    (some number, { c with
      numberCache := (c.numberCache.get hash).2
      numberCache_sound := c.numberCache_sound.get hash })
  | none =>
    match hr : Rawdb.readHeaderNumber db hash with
    | none => (none, c)
    | some number =>
      (some number, { c with
        numberCache := c.numberCache.add hash number
        numberCache_sound := c.numberCache_sound.add (db.numbers_sound _ _ hr) })

variable (c : CacheTier) (db : Database)

/-- `GetHeader` answers from the cache, or else from the database. -/
theorem getHeader_fst (hash : Hash) (number : Nat) :
    (c.getHeader db hash number).1 = (c.headerCache.peek hash).or (db.headers hash number) := by
  unfold getHeader
  split
  · next hp => simp [hp]
  · next hp =>
    rw [hp, Option.none_or]
    split <;> (rename_i hr; exact hr.symm)

/-- `GetBlockNumber` answers from the cache, or else from the database. -/
theorem getBlockNumber_fst (hash : Hash) :
    (c.getBlockNumber db hash).1 = (c.numberCache.peek hash).or (db.numbers hash) := by
  unfold getBlockNumber
  split
  · next hp => simp [hp]
  · next hp =>
    rw [hp, Option.none_or]
    split <;> (rename_i hr; exact hr.symm)

/-- Whatever `GetHeader` returns is the header of the hash asked for. -/
theorem hash_of_getHeader {hash : Hash} {number : Nat} {X : Header}
    (h : (c.getHeader db hash number).1 = some X) : X.hash = hash := by
  rw [getHeader_fst] at h
  cases hp : c.headerCache.peek hash with
  | some Y =>
    rw [hp, Option.or_some] at h
    cases h
    exact c.headerCache_sound.peek hp
  | none =>
    rw [hp, Option.none_or] at h
    exact (db.headers_sound _ _ _ h).1

/-- A header the database holds is what `GetHeader` returns, cached or not. -/
theorem getHeader_of_headers {hash : Hash} {number : Nat} {X : Header}
    (h : db.headers hash number = some X) : (c.getHeader db hash number).1 = some X := by
  rw [getHeader_fst]
  cases hp : c.headerCache.peek hash with
  | some Y =>
    have hY := c.headerCache_sound.peek hp
    rw [← (db.headers_sound _ _ _ h).1] at hY
    rw [Header.hash_inj hY]
    rfl
  | none => simpa using h

/-- Whatever `GetBlockNumber` returns is the number of the hash asked for. -/
theorem number?_of_getBlockNumber {hash : Hash} {n : Nat}
    (h : (c.getBlockNumber db hash).1 = some n) : hash.number? = some n := by
  rw [getBlockNumber_fst] at h
  cases hp : c.numberCache.peek hash with
  | some m =>
    rw [hp, Option.or_some] at h
    cases h
    exact c.numberCache_sound.peek hp
  | none =>
    rw [hp, Option.none_or] at h
    exact db.numbers_sound _ _ h

/-- A number entry the database holds is what `GetBlockNumber` returns, cached or not. -/
theorem getBlockNumber_of_numbers {hash : Hash} {n : Nat} (h : db.numbers hash = some n) :
    (c.getBlockNumber db hash).1 = some n := by
  rw [getBlockNumber_fst]
  cases hp : c.numberCache.peek hash with
  | some m =>
    have hm := c.numberCache_sound.peek hp
    rw [db.numbers_sound _ _ h] at hm
    rw [Option.some_inj.mp hm]
    rfl
  | none => simpa using h

end CacheTier

/-- The fields of `HeaderChain` the modelled methods use. `bodyTrims` lists, oldest first,
the headers handed to `hc.bc.Trim`: the body chain is outside this file. -/
structure HeaderChain where
  config : Config
  headerDb : Database
  genesisHeader : Header
  currentHeader : Header
  caches : CacheTier
  heads : List (Option Header)
  running : Nat
  procInterrupt : Nat
  bodyTrims : List Header

namespace HeaderChain

variable (hc : HeaderChain)

/-- `GetHeader`, `core/headerchain.go:600-612`. -/
def getHeader (hash : Hash) (number : Nat) : Option Header × HeaderChain :=
  ((hc.caches.getHeader hc.headerDb hash number).1,
    { hc with caches := (hc.caches.getHeader hc.headerDb hash number).2 })

/-- `GetBlockNumber`, `core/headerchain.go:478-488`. -/
def getBlockNumber (hash : Hash) : Option Nat × HeaderChain :=
  ((hc.caches.getBlockNumber hc.headerDb hash).1,
    { hc with caches := (hc.caches.getBlockNumber hc.headerDb hash).2 })

/-- `GetHeaderByHash`, `core/headerchain.go:614-622`. -/
def getHeaderByHash (hash : Hash) : Option Header × HeaderChain :=
  match hc.getBlockNumber hash with
  | (none, hc) => (none, hc)
  | (some number, hc) => hc.getHeader hash number

/-- `HasHeader`, `core/headerchain.go:627-632`. -/
def hasHeader (hash : Hash) (number : Nat) : Bool :=
  hc.caches.numberCache.contains hash || hc.caches.headerCache.contains hash ||
    Rawdb.hasHeader hc.headerDb hash number

/-- `GetHeaderByNumber`, `core/headerchain.go:636-642`. -/
def getHeaderByNumber (number : Nat) : Option Header × HeaderChain :=
  let hash := Rawdb.readCanonicalHash hc.headerDb number
  if hash = .zero then (none, hc) else hc.getHeader hash number

/-- `GetCanonicalHash`, `core/headerchain.go:644-648`. -/
def getCanonicalHash (number : Nat) : Hash := Rawdb.readCanonicalHash hc.headerDb number

/-- `GasLimit`, `core/headerchain.go:695-697`. -/
def gasLimit : Nat := hc.currentHeader.gasLimit

/-- One bound of `CheckLocationRange`: `location[i]` must lie in `1..fullerOntology[i]`. Both
indexings are bounds-checked, and the bound is read only when the coordinate is positive. -/
def checkLocationBound (fullerOntology : List Nat) (location : List UInt8) (i : Nat)
    (text : String) : Except Fault (Option ChainError) :=
  match location[i]? with
  | none => .error .indexOutOfRange
  | some b =>
    if b.toNat < 1 then .ok (some (.new text))
    else
      match fullerOntology[i]? with
      | none => .error .indexOutOfRange
      | some bound => .ok (if b.toNat > bound then some (.new text) else none)

/-- `CheckLocationRange`, `core/headerchain.go:684-692`: the region coordinate, then the zone
coordinate, against `params.FullerOntology`, which is outside this repository. -/
def checkLocationRange (fullerOntology : List Nat) (location : List UInt8) :
    Except Fault (Option ChainError) :=
  match checkLocationBound fullerOntology location 0
      "the provided location is outside the allowable region range" with
  | .ok none => checkLocationBound fullerOntology location 1
      "the provided location is outside the allowable zone range"
  | r => r

/-- `CheckContext`, `core/headerchain.go:676-681`. -/
def checkContext (fullerOntology : List Nat) (context : Int) : Option ChainError :=
  if context < 0 ∨ context > fullerOntology.length then
    some (.new "the provided path is outside the allowable range")
  else none

/-- A fresh chain: the genesis header stored and canonical at number zero and the head,
with empty caches and registry. -/
def fresh (config : Config) (genesis : Header) : HeaderChain where
  config := config
  headerDb := Rawdb.writeCanonicalHash (Rawdb.writeHeader .empty genesis) genesis.hash 0
  genesisHeader := genesis
  currentHeader := genesis
  caches := .new
  heads := []
  running := 0
  procInterrupt := 0
  bodyTrims := []

/-! ### Reads change nothing but the caches -/

variable (hash : Hash) (number : Nat)

@[simp] theorem getHeader_fst :
    (hc.getHeader hash number).1 = (hc.caches.getHeader hc.headerDb hash number).1 := rfl

/-- The state a read leaves is the state it read, with the cache tier's new caches. -/
@[simp] theorem getHeader_snd : (hc.getHeader hash number).2 =
    { hc with caches := (hc.caches.getHeader hc.headerDb hash number).2 } := rfl

/-- A stored header is what `GetHeader` reads. -/
theorem getHeader_of_stored {X : Header} (h : hc.headerDb.headers hash number = some X) :
    hc.getHeader hash number = (some X, (hc.getHeader hash number).2) :=
  Prod.ext (hc.caches.getHeader_of_headers hc.headerDb h) rfl

@[simp] theorem getBlockNumber_fst :
    (hc.getBlockNumber hash).1 = (hc.caches.getBlockNumber hc.headerDb hash).1 := rfl

@[simp] theorem headerDb_getBlockNumber : (hc.getBlockNumber hash).2.headerDb = hc.headerDb :=
  rfl

/-! ### The cached reads against the store -/

/-- A header read by hash has that hash. -/
theorem hash_of_getHeaderByHash {X : Header} (h : (hc.getHeaderByHash hash).1 = some X) :
    X.hash = hash := by
  unfold getHeaderByHash at h
  split at h
  · cases h
  · exact CacheTier.hash_of_getHeader _ _ h

/-- A hash whose number entry and header under that number are stored reads back that
header, whatever the caches hold. -/
theorem getHeaderByHash_of_stored {n : Nat} {X : Header} (hn : hc.headerDb.numbers hash = some n)
    (hX : hc.headerDb.headers hash n = some X) : (hc.getHeaderByHash hash).1 = some X := by
  have hnum := hc.caches.getBlockNumber_of_numbers hc.headerDb hn
  unfold getHeaderByHash
  split
  · next heq => rw [← getBlockNumber_fst, heq] at hnum; cases hnum
  · next m hc' heq =>
    rw [← getBlockNumber_fst, heq, Option.some_inj] at hnum
    have hdb : hc'.headerDb = hc.headerDb := by rw [← headerDb_getBlockNumber hc hash, heq]
    subst hnum
    exact hc'.caches.getHeader_of_headers hc'.headerDb (hdb ▸ hX)

/-- The cached reads agree with the store wherever it holds the entry asked for; elsewhere
they answer nil or an entry of the same hash, which the store may have lost since it was
cached, or may hold under another number. -/
theorem reads_agree_with_store :
    (∀ X, hc.headerDb.headers hash number = some X → (hc.getHeader hash number).1 = some X) ∧
    (∀ X, (hc.getHeader hash number).1 = some X → X.hash = hash) ∧
    (∀ n, hc.headerDb.numbers hash = some n → (hc.getBlockNumber hash).1 = some n) ∧
    (∀ n, (hc.getBlockNumber hash).1 = some n → hash.number? = some n) ∧
    (∀ n X, hc.headerDb.numbers hash = some n → hc.headerDb.headers hash n = some X →
      (hc.getHeaderByHash hash).1 = some X) ∧
    (∀ X, (hc.getHeaderByHash hash).1 = some X → X.hash = hash) :=
  ⟨fun _ => hc.caches.getHeader_of_headers hc.headerDb,
    fun _ => hc.caches.hash_of_getHeader hc.headerDb,
    fun _ => hc.caches.getBlockNumber_of_numbers hc.headerDb,
    fun _ => hc.caches.number?_of_getBlockNumber hc.headerDb,
    fun _ _ => hc.getHeaderByHash_of_stored hash,
    fun _ => hc.hash_of_getHeaderByHash hash⟩

/-! ### The range checks -/

/-- `CheckContext` accepts exactly the contexts `0..len(params.FullerOntology)`. -/
theorem checkContext_eq_none {fullerOntology : List Nat} {context : Int} :
    checkContext fullerOntology context = none ↔
      0 ≤ context ∧ context ≤ fullerOntology.length := by
  unfold checkContext
  split
  · exact iff_of_false (Option.some_ne_none _) (by omega)
  · exact iff_of_true rfl (by omega)

end HeaderChain

/-! ### A small chain to run the model on -/

namespace Example

/-- A genesis header. -/
def genesis : Header := ⟨.zero, 0, [], 0, 0, 0⟩

/-- Branch `a` on the genesis, in region 1, zone 1. -/
def a1 : Header := ⟨genesis.hash, 1, [1, 1], 0, 0, 0⟩

/-- The second header of branch `a`. -/
def a2 : Header := ⟨a1.hash, 2, [1, 1], 0, 0, 0⟩

/-- The third header of branch `a`, in region 2. -/
def a3 : Header := ⟨a2.hash, 3, [2, 1], 0, 0, 0⟩

/-- The fourth header of branch `a`. -/
def a4 : Header := ⟨a3.hash, 4, [1, 1], 0, 0, 0⟩

/-- Branch `b` on the genesis, a competitor of `a1` in the same shard. -/
def b1 : Header := ⟨genesis.hash, 1, [1, 1], 0, 0, 1⟩

/-- The second header of branch `b`. -/
def b2 : Header := ⟨b1.hash, 2, [1, 1], 0, 0, 1⟩

/-- The third header of branch `b`. -/
def b3 : Header := ⟨b2.hash, 3, [1, 1], 0, 0, 1⟩

/-- A prime-context node whose genesis hashes are all the example genesis. -/
def config : Config := ⟨0, fun _ => genesis.hash⟩

/-- A chain whose database holds `stored` and has `canonical` written at their numbers, with
head `head` and empty caches and registry. -/
def chainOf (stored canonical : List Header) (head : Header) : HeaderChain where
  config := config
  headerDb := canonical.foldl (fun db X => Rawdb.writeCanonicalHash db X.hash X.number)
    (stored.foldl Rawdb.writeHeader .empty)
  genesisHeader := genesis
  currentHeader := head
  caches := .new
  heads := []
  running := 0
  procInterrupt := 0
  bodyTrims := []

/-- The chain holding only the genesis, with an empty registry. -/
def genesisOnly : HeaderChain := chainOf [genesis] [genesis] genesis

/-- Head `a1` over the stored branch `a` up to `a3`. -/
def headA1 : HeaderChain := chainOf [genesis, a1, a2, a3] [genesis, a1] a1

end Example

end QuaiHeaderChain
