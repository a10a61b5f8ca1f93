import QuaiHeaderChain.Types

/-!
# The header database through `core/rawdb`

The keys of `hc.headerDb` that `core/headerchain.go` reads and writes: headers under
`(number, hash)`, the `hash -> number` table, the canonical `number -> hash` table, the
head block hash and the saved list of registered heads. `rawdb` is outside this
repository; `WriteHeader` writes both the header and its number entry and `DeleteHeader`
removes both, as the go-ethereum accessors it keeps. Whatever is written, a header is
stored under its own hash and number, and a number entry is its hash's number: the
database carries these two facts, so no state breaks them.
-/

namespace QuaiHeaderChain

/-- The part of `ethdb.Database` this file uses. -/
@[ext] structure Database where
  headers : Hash → Nat → Option Header
  numbers : Hash → Option Nat
  canonical : Nat → Hash
  headBlockHash : Hash
  headsHashes : List Hash
  headers_sound : ∀ h n X, headers h n = some X → X.hash = h ∧ X.number = n
  numbers_sound : ∀ h n, numbers h = some n → h.number? = some n

/-- A database with nothing written. -/
def Database.empty : Database where
  headers _ _ := none
  numbers _ := none
  canonical _ := .zero
  headBlockHash := .zero
  headsHashes := []
  headers_sound _ _ _ h := nomatch h
  numbers_sound _ _ h := nomatch h

namespace Rawdb

/-- `rawdb.ReadHeader`. -/
def readHeader (db : Database) (hash : Hash) (number : Nat) : Option Header :=
  db.headers hash number

/-- `rawdb.ReadHeaderNumber`. -/
def readHeaderNumber (db : Database) (hash : Hash) : Option Nat := db.numbers hash

/-- `rawdb.HasHeader`. -/
def hasHeader (db : Database) (hash : Hash) (number : Nat) : Bool :=
  (db.headers hash number).isSome

/-- `rawdb.ReadCanonicalHash`: the zero hash when the entry is absent. -/
def readCanonicalHash (db : Database) (number : Nat) : Hash := db.canonical number

/-- `rawdb.ReadHeadBlockHash`. -/
def readHeadBlockHash (db : Database) : Hash := db.headBlockHash

/-- `rawdb.ReadHeadsHashes`. -/
def readHeadsHashes (db : Database) : List Hash := db.headsHashes

/-- `rawdb.WriteHeader`: the header under its hash and number, and its number entry. -/
def writeHeader (db : Database) (header : Header) : Database where
  headers h n := if h = header.hash ∧ n = header.number then some header else db.headers h n
  numbers h := if h = header.hash then some header.number else db.numbers h
  canonical := db.canonical
  headBlockHash := db.headBlockHash
  headsHashes := db.headsHashes
  headers_sound h n X hX := by
    dsimp only at hX
    split at hX
    · next he =>
      obtain ⟨rfl, rfl⟩ := he
      cases hX
      exact ⟨rfl, rfl⟩
    · exact db.headers_sound h n X hX
  numbers_sound h n hn := by
    dsimp only at hn
    split at hn
    · next he =>
      subst he
      cases hn
      rfl
    · exact db.numbers_sound h n hn

/-- `rawdb.DeleteHeader`: the header under `(number, hash)` and the number entry of `hash`. -/
def deleteHeader (db : Database) (hash : Hash) (number : Nat) : Database where
  headers h n := if h = hash ∧ n = number then none else db.headers h n
  numbers h := if h = hash then none else db.numbers h
  canonical := db.canonical
  headBlockHash := db.headBlockHash
  headsHashes := db.headsHashes
  headers_sound h n X hX := by
    dsimp only at hX
    split at hX
    · cases hX
    · exact db.headers_sound h n X hX
  numbers_sound h n hn := by
    dsimp only at hn
    split at hn
    · cases hn
    · exact db.numbers_sound h n hn

/-- `rawdb.WriteCanonicalHash`. -/
def writeCanonicalHash (db : Database) (hash : Hash) (number : Nat) : Database :=
  { db with canonical := fun n => if n = number then hash else db.canonical n }

/-- `rawdb.DeleteCanonicalHash`: afterwards the entry reads as the zero hash. -/
def deleteCanonicalHash (db : Database) (number : Nat) : Database :=
  { db with canonical := fun n => if n = number then .zero else db.canonical n }

/-- `rawdb.WriteHeadBlockHash`. -/
def writeHeadBlockHash (db : Database) (hash : Hash) : Database :=
  { db with headBlockHash := hash }

/-- `rawdb.WriteHeadsHashes`. -/
def writeHeadsHashes (db : Database) (hashes : List Hash) : Database :=
  { db with headsHashes := hashes }

variable (db : Database)

@[simp] theorem readHeader_eq (h : Hash) (n : Nat) : readHeader db h n = db.headers h n := rfl

@[simp] theorem readHeaderNumber_eq (h : Hash) : readHeaderNumber db h = db.numbers h := rfl

@[simp] theorem readCanonicalHash_eq (n : Nat) : readCanonicalHash db n = db.canonical n := rfl

@[simp] theorem headers_writeHeader (X : Header) (h : Hash) (n : Nat) :
    (writeHeader db X).headers h n =
      if h = X.hash ∧ n = X.number then some X else db.headers h n := rfl

@[simp] theorem numbers_writeHeader (X : Header) (h : Hash) :
    (writeHeader db X).numbers h = if h = X.hash then some X.number else db.numbers h := rfl

@[simp] theorem canonical_writeHeader (X : Header) :
    (writeHeader db X).canonical = db.canonical := rfl

@[simp] theorem headers_deleteHeader (hash : Hash) (number : Nat) (h : Hash) (n : Nat) :
    (deleteHeader db hash number).headers h n =
      if h = hash ∧ n = number then none else db.headers h n := rfl

@[simp] theorem numbers_deleteHeader (hash : Hash) (number : Nat) (h : Hash) :
    (deleteHeader db hash number).numbers h = if h = hash then none else db.numbers h := rfl

@[simp] theorem canonical_deleteHeader (hash : Hash) (number : Nat) :
    (deleteHeader db hash number).canonical = db.canonical := rfl

@[simp] theorem headers_writeCanonicalHash (hash : Hash) (number : Nat) :
    (writeCanonicalHash db hash number).headers = db.headers := rfl

@[simp] theorem numbers_writeCanonicalHash (hash : Hash) (number : Nat) :
    (writeCanonicalHash db hash number).numbers = db.numbers := rfl

@[simp] theorem canonical_writeCanonicalHash (hash : Hash) (number n : Nat) :
    (writeCanonicalHash db hash number).canonical n =
      if n = number then hash else db.canonical n := rfl

@[simp] theorem headers_deleteCanonicalHash (number : Nat) :
    (deleteCanonicalHash db number).headers = db.headers := rfl

@[simp] theorem numbers_deleteCanonicalHash (number : Nat) :
    (deleteCanonicalHash db number).numbers = db.numbers := rfl

@[simp] theorem canonical_deleteCanonicalHash (number n : Nat) :
    (deleteCanonicalHash db number).canonical n =
      if n = number then .zero else db.canonical n := rfl

@[simp] theorem headers_writeHeadBlockHash (hash : Hash) :
    (writeHeadBlockHash db hash).headers = db.headers := rfl

@[simp] theorem canonical_writeHeadBlockHash (hash : Hash) :
    (writeHeadBlockHash db hash).canonical = db.canonical := rfl

/-- A stored header is the header its key names. -/
theorem eq_of_headers {h : Hash} {n : Nat} {X : Header} (hX : db.headers h n = some X) :
    X.hash = h ∧ X.number = n := db.headers_sound h n X hX

/-- Writing a header keeps every stored header: a header is stored only under its own hash. -/
theorem headers_writeHeader_of_stored {X : Header} (block : Header)
    (hX : db.headers X.hash X.number = some X) :
    (writeHeader db block).headers X.hash X.number = some X := by
  rw [headers_writeHeader]
  split_ifs with he
  · rw [Header.hash_inj he.1]
  · exact hX

/-- `db'` is `db` with some header records and number entries removed, all of hashes that
satisfy `P`; the canonical mapping is untouched. -/
def DeletesOnly (P : Hash → Prop) (db db' : Database) : Prop :=
  db'.canonical = db.canonical ∧
    (∀ h n, db'.headers h n ≠ db.headers h n → P h ∧ db'.headers h n = none) ∧
    (∀ h, db'.numbers h ≠ db.numbers h → P h ∧ db'.numbers h = none)

namespace DeletesOnly

variable {P Q : Hash → Prop} {db₁ db₂ db₃ : Database}

theorem refl : DeletesOnly P db₁ db₁ := ⟨rfl, fun _ _ h => absurd rfl h, fun _ h => absurd rfl h⟩

theorem trans (h₁ : DeletesOnly P db₁ db₂) (h₂ : DeletesOnly P db₂ db₃) :
    DeletesOnly P db₁ db₃ := by
  refine ⟨h₂.1.trans h₁.1, fun h n hne => ?_, fun h hne => ?_⟩
  · by_cases h₃ : db₃.headers h n = db₂.headers h n
    · rw [h₃] at hne ⊢
      exact h₁.2.1 h n hne
    · exact h₂.2.1 h n h₃
  · by_cases h₃ : db₃.numbers h = db₂.numbers h
    · rw [h₃] at hne ⊢
      exact h₁.2.2 h hne
    · exact h₂.2.2 h h₃

theorem mono (hPQ : ∀ h, P h → Q h) (hd : DeletesOnly P db₁ db₂) : DeletesOnly Q db₁ db₂ :=
  ⟨hd.1, fun h n hne => (hd.2.1 h n hne).imp_left (hPQ h),
    fun h hne => (hd.2.2 h hne).imp_left (hPQ h)⟩

/-- A header still stored after the deletes was stored before. -/
theorem headers_of_some (hd : DeletesOnly P db₁ db₂) {h : Hash} {n : Nat} {X : Header}
    (hX : db₂.headers h n = some X) : db₁.headers h n = some X := by
  by_contra hne
  rw [(hd.2.1 h n fun he => hne (he.symm.trans hX)).2] at hX
  cases hX

end DeletesOnly

/-- `DeleteHeader` deletes entries of its hash only. -/
theorem deletesOnly_deleteHeader (hash : Hash) (number : Nat) :
    DeletesOnly (· = hash) db (deleteHeader db hash number) := by
  refine ⟨rfl, fun h n hne => ?_, fun h hne => ?_⟩
  · rw [headers_deleteHeader] at hne ⊢
    split_ifs at hne ⊢ with hk
    · exact ⟨hk.1, rfl⟩
    · exact absurd rfl hne
  · rw [numbers_deleteHeader] at hne ⊢
    split_ifs at hne ⊢ with hk
    · exact ⟨hk, rfl⟩
    · exact absurd rfl hne

end Rawdb

end QuaiHeaderChain
