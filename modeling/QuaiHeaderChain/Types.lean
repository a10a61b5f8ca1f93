import Mathlib.Algebra.Group.Nat.Basic
import Mathlib.Logic.Function.Iterate

/-!
# Hashes, headers and the node's configuration

Data model of `core/headerchain.go`. A header is seen through the node's own context
`types.QuaiNetworkContext`: its `ParentHash`, `Number` and gas fields are the entries at
that index, `Location` is the whole byte slice. The hash is a collision-free digest of
the header's fields, so the hash of a header determines the header, its parent hash and
its number, and following parent hashes always ends.
-/

namespace QuaiHeaderChain

/-- A `common.Hash`. `zero` is `common.Hash{}`, what `rawdb.ReadCanonicalHash` returns for
an absent entry; `nilHeader` is `(*types.Header)(nil).Hash()`, the RLP hash of the empty
list; every header hashes to the `digest` of its own fields. -/
inductive Hash where
  | zero
  | nilHeader
  | digest (parentHash : Hash) (number : Nat) (location : List UInt8)
      (gasLimit gasUsed rest : Nat)
  deriving DecidableEq, Repr

/-- A `types.Header` in the node's context. `rest` stands for the fields the hash covers
and this file never reads (roots, coinbase, difficulty, time, extra data, seal). -/
structure Header where
  parentHash : Hash
  number : Nat
  location : List UInt8
  gasLimit : Nat
  gasUsed : Nat
  rest : Nat
  deriving DecidableEq, Repr

namespace Header

/-- `Header.Hash`: the digest of all the header's fields. -/
def hash (h : Header) : Hash :=
  .digest h.parentHash h.number h.location h.gasLimit h.gasUsed h.rest

/-- Two headers with one hash are the same header. -/
theorem hash_inj {a b : Header} (h : a.hash = b.hash) : a = b := by
  cases a
  cases b
  simp only [hash, Hash.digest.injEq] at h
  obtain ⟨rfl, rfl, rfl, rfl, rfl, rfl⟩ := h
  rfl

/-- A header never hashes to the zero hash. -/
@[simp] theorem hash_ne_zero (h : Header) : h.hash ≠ .zero := by
  simp [hash]

/-- A header never hashes to the hash of a nil header. -/
@[simp] theorem hash_ne_nilHeader (h : Header) : h.hash ≠ .nilHeader := by
  simp [hash]

end Header

/-- `h.Hash()` on a `*types.Header` that may be nil; RLP encodes a nil struct pointer as the
empty list, so this never faults. -/
def ptrHash : Option Header → Hash
  | none => .nilHeader
  | some h => h.hash

@[simp] theorem ptrHash_none : ptrHash none = .nilHeader := rfl

@[simp] theorem ptrHash_some (h : Header) : ptrHash (some h) = h.hash := rfl

namespace Hash

/-- Length of the parent chain a hash commits to: the bound on every backward walk. -/
def depth : Hash → Nat
  | digest p _ _ _ _ _ => p.depth + 1
  | _ => 0

/-- The parent hash committed to by a header hash; the zero hash past the end. -/
def parent : Hash → Hash
  | digest p _ _ _ _ _ => p
  | _ => zero

/-- The number committed to by a header hash. -/
def number? : Hash → Option Nat
  | digest _ n _ _ _ _ => some n
  | _ => none

/-- The `k`-th ancestor hash, when the first `k` hashes of the parent chain are headers'. -/
def ancestor? : Hash → Nat → Option Hash
  | h, 0 => some h
  | digest p _ _ _ _ _, k + 1 => ancestor? p k
  | _, _ + 1 => none

@[simp] theorem depth_zero : zero.depth = 0 := rfl

@[simp] theorem depth_nilHeader : nilHeader.depth = 0 := rfl

@[simp] theorem parent_zero : zero.parent = zero := rfl

@[simp] theorem ancestor?_zero (h : Hash) : h.ancestor? 0 = some h := by
  cases h <;> rfl

/-- Going back `j` generations and then `k` more is going back `j + k`. -/
theorem ancestor?_add (h : Hash) (j k : Nat) :
    h.ancestor? (j + k) = (h.ancestor? j).bind (·.ancestor? k) := by
  induction j generalizing h with
  | zero => simp
  | succ j ih =>
    cases h with
    | digest p n l gl gu r =>
      rw [Nat.succ_add]
      exact ih p
    | zero => rw [Nat.succ_add]; rfl
    | nilHeader => rw [Nat.succ_add]; rfl

/-- An ancestor `k` generations back is `k` shorter: parent chains never loop. -/
theorem depth_of_ancestor? {h r : Hash} {k : Nat} (hr : h.ancestor? k = some r) :
    r.depth + k = h.depth := by
  induction k generalizing h with
  | zero => rw [ancestor?_zero, Option.some_inj] at hr; subst hr; rfl
  | succ k ih =>
    cases h with
    | digest p n l gl gu rest => exact congrArg (· + 1) (ih hr)
    | zero => cases hr
    | nilHeader => cases hr

end Hash

namespace Header

@[simp] theorem depth_hash (h : Header) : h.hash.depth = h.parentHash.depth + 1 := rfl

@[simp] theorem parent_hash (h : Header) : h.hash.parent = h.parentHash := rfl

@[simp] theorem number?_hash (h : Header) : h.hash.number? = some h.number := rfl

@[simp] theorem ancestor?_hash_succ (h : Header) (k : Nat) :
    h.hash.ancestor? (k + 1) = h.parentHash.ancestor? k := rfl

/-- One generation past an ancestor `X` is `X`'s parent hash. -/
theorem ancestor?_succ_of_hash {h : Hash} {k : Nat} {X : Header}
    (hk : h.ancestor? k = some X.hash) : h.ancestor? (k + 1) = some X.parentHash := by
  rw [Hash.ancestor?_add, hk, Option.some_bind, ancestor?_hash_succ, Hash.ancestor?_zero]

end Header

/-- `x.Number64()-1` as Go computes it on a `uint64`: the number the walks pass to
`GetHeader` for a parent, wrapping to `2^64 - 1` below zero. -/
def prevNumber (n : Nat) : Nat := if n = 0 then 2 ^ 64 - 1 else n - 1

@[simp] theorem prevNumber_of_pos {n : Nat} (h : 0 < n) : prevNumber n = n - 1 := by
  simp [prevNumber, Nat.pos_iff_ne_zero.mp h]

/-- Modelled from the spec: `params.ZONE`, the lowest of the three context levels
(global, region, local) that index the per-context header fields. -/
def ZONE : Fin 3 := 2

/-- `hc.config` and the process-wide `types.QuaiNetworkContext`: set at start-up and never
changed by this file. -/
structure Config where
  context : Fin 3
  genesisHashes : Fin 3 → Hash

/-- Errors returned as values. -/
inductive ChainError where
  /-- `errors.New(text)` raised in this file. -/
  | new (text : String)
  /-- An error returned by a collaborator: the engine, the body chain or the database. -/
  | external (id : Nat)
  deriving DecidableEq, Repr

/-- Go run-time panics the code can reach. -/
inductive Fault where
  /-- A method that reads a field through a nil `*types.Header`. -/
  | nilDeref
  /-- A slice index out of range. -/
  | indexOutOfRange
  /-- `make` asked for a slice capacity whose memory exceeds the run-time's allocation limit:
  `makeslice: cap out of range`. -/
  | makeSliceCapOutOfRange
  deriving DecidableEq, Repr

end QuaiHeaderChain
