import QuaiHeaderChain.Walk
import Mathlib.Data.List.Sort
import Mathlib.Data.List.ReduceOption

/-!
# `Append` and the heads registry

`core/headerchain.go:144-213`. A block is checked by the consensus engine and the body
chain, its header is written, and its body handed to the body chain; a body failure
deletes the header again. On success, a full registry first trims its lowest head's
branch back to the canonical chain and drops it, then the new header joins the registry,
which is re-sorted by number. The collaborators' answers are inputs.
-/

namespace QuaiHeaderChain

/-- The answers of the collaborators outside this file to one `Append` call: the consensus
engine's `VerifyHeader`, the body chain's `Appendable`, the header batch's `Write` and the
body chain's `Append`. -/
structure AppendReplies where
  verifyHeader : Option ChainError
  appendable : Option ChainError
  batchWrite : Option ChainError
  append : Option ChainError

/-- `Number[QuaiNetworkContext].Uint64()`: the low 64 bits of the header's number, the key the
`less` of `Append` compares. -/
def Header.numberU64 (h : Header) : Nat := h.number % 2 ^ 64

/-- `sort.Slice` with the `less` of `Append` (`core/headerchain.go:199-201`), which compares
`Number[QuaiNetworkContext].Uint64()`. The library is outside this repository and promises
only a permutation in which no entry is less than an earlier one; the sort is not stable. -/
structure HeadsSorter where
  sort : List Header → List Header
  perm : ∀ l, (sort l).Perm l
  sorted : ∀ l, (sort l).Sorted fun a b => a.numberU64 ≤ b.numberU64

/-- Insertion sort by the truncated number: one sort meeting the contract of `sort.Slice`, to
run the model on examples. -/
def HeadsSorter.insertion : HeadsSorter where
  sort := List.insertionSort fun a b => a.numberU64 ≤ b.numberU64
  perm := List.perm_insertionSort _
  sorted := by
    haveI : IsTotal Header fun a b => a.numberU64 ≤ b.numberU64 := ⟨fun _ _ => le_total _ _⟩
    haveI : IsTrans Header fun a b => a.numberU64 ≤ b.numberU64 := ⟨fun _ _ _ => le_trans⟩
    exact List.sorted_insertionSort _

/-- `sort.Slice(hc.heads, ...)`: the `less` function reads the number through each entry,
and a sort of two or more entries compares every entry, so a nil entry faults. -/
def sortHeads (sorter : HeadsSorter) (heads : List (Option Header)) :
    Except Fault (List (Option Header)) :=
  match heads.allSome with
  | some hs => .ok ((sorter.sort hs).map some)
  | none => if heads.length ≤ 1 then .ok heads else .error .nilDeref

/-- `Appendable`, `core/headerchain.go:206-213`: the engine first, then the body chain. -/
def appendable (replies : AppendReplies) : Option ChainError :=
  replies.verifyHeader.or replies.appendable

/-- The error `Append` returns when the registry's lowest head has no common header. -/
def nilHeadError : ChainError := .new "nil head in hc.heads"

namespace HeaderChain

variable (maxHeadsQueueLimit : Nat) (sorter : HeadsSorter)

/-- The registry update at `core/headerchain.go:197-201`: add the header and re-sort. -/
def pushHead (hc : HeaderChain) (block : Header) : Except Fault (Option ChainError × HeaderChain) :=
  match sortHeads sorter (hc.heads ++ [some block]) with
  | .error e => .error e
  | .ok heads => .ok (none, { hc with heads := heads })

/-- The garbage collection and registry update of `Append`, `core/headerchain.go:175-203`,
after the block is stored. -/
def collectAndPush (hc : HeaderChain) (block : Header) :
    Except Fault (Option ChainError × HeaderChain) :=
  if hc.heads.length = maxHeadsQueueLimit then
    match hc.heads with
    | [] => .error .indexOutOfRange
    | first :: rest =>
      match hc.findCommonHeader first with
      | (none, hc) => .ok (some nilHeadError, hc)
      | (some commonHeader, hc) =>
        match hc.trim commonHeader first with
        | .error e => .error e
        | .ok hc => pushHead sorter { hc with heads := rest } block
  else pushHead sorter hc block

/-- `Append`, `core/headerchain.go:144-204`; the block is given by its header, its body
being the body chain's. -/
def append (hc : HeaderChain) (block : Header) (replies : AppendReplies) :
    Except Fault (Option ChainError × HeaderChain) :=
  match appendable replies with
  | some err => .ok (some err, hc)
  | none =>
    match replies.batchWrite with
    | some err => .ok (some err, hc)
    | none =>
      let hc := { hc with headerDb := Rawdb.writeHeader hc.headerDb block }
      match replies.append with
      | some err =>
        .ok (some err, { hc with headerDb := Rawdb.deleteHeader hc.headerDb block.hash block.number })
      | none => collectAndPush maxHeadsQueueLimit sorter hc block

/-! ### What one call can do -/

/-- The registry update answers no error and changes only the registry, to the sorted
registry grown by the block. -/
theorem pushHead_eq_ok {hc hc' : HeaderChain} {block : Header} {err : Option ChainError}
    (h : pushHead sorter hc block = .ok (err, hc')) :
    err = none ∧ ∃ heads, sortHeads sorter (hc.heads ++ [some block]) = .ok heads ∧
      hc' = { hc with heads := heads } := by
  unfold pushHead at h
  split at h
  · cases h
  · next heads hs => cases h; exact ⟨rfl, heads, hs, rfl⟩

/-- The outcomes of the garbage collection: below the limit, only the registry update; at
the limit, either no common header for the first head, or its trim and the update of the
rest of the registry. -/
theorem collectAndPush_cases {hc hc' : HeaderChain} {block : Header} {err : Option ChainError}
    (h : collectAndPush maxHeadsQueueLimit sorter hc block = .ok (err, hc')) :
    (hc.heads.length ≠ maxHeadsQueueLimit ∧ pushHead sorter hc block = .ok (err, hc')) ∨
      ∃ first rest, hc.heads = first :: rest ∧ hc.heads.length = maxHeadsQueueLimit ∧
        ((hc.findCommonHeader first = (none, hc') ∧ err = some nilHeadError) ∨
          ∃ common hc₁ hc₂, hc.findCommonHeader first = (some common, hc₁) ∧
            hc₁.trim common first = .ok hc₂ ∧
            pushHead sorter { hc₂ with heads := rest } block = .ok (err, hc')) := by
  unfold collectAndPush at h
  split_ifs at h with hlen
  · split at h
    · cases h
    · next first rest hheads =>
      refine .inr ⟨first, rest, hheads, hlen, ?_⟩
      split at h
      · next hfind => cases h; exact .inl ⟨hfind, rfl⟩
      · next common hc₁ hfind =>
        split at h
        · cases h
        · next hc₂ htrim => exact .inr ⟨common, hc₁, hc₂, hfind, htrim, h⟩
  · exact .inl ⟨hlen, h⟩

/-- The outcomes of `Append`: a refusal or a failed batch write returns the error and changes
nothing; a failed body deletes the header just written; otherwise the garbage collection
and registry update run on the store with the header written. -/
theorem append_cases {hc hc' : HeaderChain} {block : Header} {replies : AppendReplies}
    {err : Option ChainError} (h : hc.append maxHeadsQueueLimit sorter block replies = .ok (err, hc')) :
    (∃ e, err = some e ∧ (appendable replies = some e ∨
        appendable replies = none ∧ replies.batchWrite = some e) ∧ hc' = hc) ∨
      (appendable replies = none ∧ replies.batchWrite = none ∧ ∃ e, replies.append = some e ∧
        err = some e ∧ hc' = { hc with
          headerDb := Rawdb.deleteHeader (Rawdb.writeHeader hc.headerDb block) block.hash
            block.number }) ∨
      (appendable replies = none ∧ replies.batchWrite = none ∧ replies.append = none ∧
        collectAndPush maxHeadsQueueLimit sorter
          { hc with headerDb := Rawdb.writeHeader hc.headerDb block } block = .ok (err, hc')) := by
  unfold append at h
  split at h
  · next e he => cases h; exact .inl ⟨e, rfl, .inl he, rfl⟩
  · next ha =>
    split at h
    · next e hw => cases h; exact .inl ⟨e, rfl, .inr ⟨ha, hw⟩, rfl⟩
    · next hw =>
      dsimp only at h
      split at h
      · next e hb => cases h; exact .inr (.inl ⟨ha, hw, e, hb, rfl, rfl⟩)
      · next hb => exact .inr (.inr ⟨ha, hw, hb, h⟩)

/-! ### Failed calls -/

end HeaderChain

namespace Example

/-- All four collaborators accept. -/
def accept : AppendReplies := ⟨none, none, none, none⟩

/-- The body chain's `Append` fails. -/
def bodyFails : AppendReplies := ⟨none, none, none, some (.external 0)⟩

/-- A chain that already stores `a1`. -/
def knownA1 : HeaderChain := chainOf [genesis, a1] [genesis] genesis

/-- Re-submitting the stored `a1` when the body chain fails deletes it. -/
theorem append_known_body_failure_deletes (maxHeadsQueueLimit : Nat) (sorter : HeadsSorter) :
    knownA1.headerDb.headers a1.hash a1.number = some a1 ∧
      (knownA1.append maxHeadsQueueLimit sorter a1 bodyFails).map
          (fun r => (r.1, r.2.headerDb.headers a1.hash a1.number, r.2.headerDb.numbers a1.hash)) =
        .ok (some (.external 0), none, none) :=
  ⟨rfl, rfl⟩

end Example

namespace HeaderChain

variable (maxHeadsQueueLimit : Nat) (sorter : HeadsSorter)

/-! ### The registry over runs of `Append` -/

/-- A list of headers, each wrapped, has all its entries. -/
theorem allSome_map_some (hs : List Header) : (hs.map some).allSome = some hs := by
  induction hs with
  | nil => rfl
  | cons x hs ih =>
    simp only [List.allSome] at ih ⊢
    rw [List.map_cons, List.mapM_cons, ih]
    rfl

/-- Dropping the nil entries of a list of wrapped headers gives the headers back. -/
theorem reduceOption_map_some (hs : List Header) : (hs.map some).reduceOption = hs := by
  induction hs with
  | nil => rfl
  | cons x hs ih => rw [List.map_cons, List.reduceOption_cons_of_some, ih]

/-- A registry with no nil entry, grown by one header, is re-sorted by the sorter. -/
theorem sortHeads_snoc (hs : List Header) (block : Header) :
    sortHeads sorter (hs.map some ++ [some block]) =
      .ok ((sorter.sort (hs ++ [block])).map some) := by
  rw [show hs.map some ++ [some block] = (hs ++ [block]).map some by simp]
  simp only [sortHeads, allSome_map_some]

/-- What one `Append` does to a registry without nil entries: an error leaves it as it was; a
success adds the block and re-sorts, after dropping the first entry when the registry is
full. -/
theorem append_heads {hc hc' : HeaderChain} {block : Header} {replies : AppendReplies}
    {err : Option ChainError} {hs : List Header} (hheads : hc.heads = hs.map some)
    (h : hc.append maxHeadsQueueLimit sorter block replies = .ok (err, hc')) :
    (err.isSome ∧ hc'.heads = hc.heads) ∨
      (err = none ∧ hs.length ≠ maxHeadsQueueLimit ∧
        hc'.heads = (sorter.sort (hs ++ [block])).map some) ∨
      (err = none ∧ hs.length = maxHeadsQueueLimit ∧ ∃ x rest, hs = x :: rest ∧
        hc'.heads = (sorter.sort (rest ++ [block])).map some) := by
  rcases append_cases maxHeadsQueueLimit sorter h with
    ⟨e, rfl, -, rfl⟩ | ⟨-, -, e, -, rfl, rfl⟩ | ⟨-, -, -, h⟩
  · exact .inl ⟨rfl, rfl⟩
  · exact .inl ⟨rfl, rfl⟩
  rcases collectAndPush_cases maxHeadsQueueLimit sorter h with
    ⟨hlen, hpush⟩ | ⟨first, rest, hfr, hlen, ⟨hfind, rfl⟩ | ⟨common, hc₁, hc₂, -, -, hpush⟩⟩
  · obtain ⟨rfl, heads, hsort, rfl⟩ := pushHead_eq_ok sorter hpush
    rw [show hc.heads = hs.map some from hheads, sortHeads_snoc] at hsort
    cases hsort
    exact .inr (.inl ⟨rfl, by simpa [hheads] using hlen, rfl⟩)
  · obtain rfl : hc' = _ := (congrArg Prod.snd hfind).symm
    exact .inl ⟨rfl, heads_findCommonHeader _ _⟩
  · obtain ⟨rfl, heads, hsort, rfl⟩ := pushHead_eq_ok sorter hpush
    rw [hheads] at hfr hlen
    cases hs with
    | nil => cases hfr
    | cons x xs =>
      obtain ⟨-, rfl⟩ := List.cons.inj hfr
      rw [sortHeads_snoc] at hsort
      cases hsort
      exact .inr (.inr ⟨rfl, by simpa using hlen, x, xs, rfl, rfl⟩)

/-- The registry invariant: at most `maxHeadsQueueLimit` headers, no nil entry, in ascending
order of the number's low 64 bits, the order `Append` sorts by. -/
def RegistryInv (heads : List (Option Header)) : Prop :=
  ∃ hs : List Header, heads = hs.map some ∧ hs.length ≤ maxHeadsQueueLimit ∧
    hs.Sorted fun a b => a.numberU64 ≤ b.numberU64

/-- The header a call registers: its block, when it returns no error. -/
def registered (err : Option ChainError) (block : Header) : List Header :=
  if err = none then [block] else []

/-- The header a call evicts, with the registry it is evicted from: `heads[0]`, when the call
returns no error and found the registry full. -/
def evicted (hc : HeaderChain) (err : Option ChainError) : List (Header × List Header) :=
  if err = none ∧ hc.heads.length = maxHeadsQueueLimit then
    match hc.heads with
    | some x :: _ => [(x, hc.heads.reduceOption)]
    | _ => []
  else []

/-- Runs of `Append` calls none of which panics, with the headers the calls registered and the
headers they evicted. -/
inductive AppendRun : HeaderChain → List Header → List (Header × List Header) → HeaderChain →
    Prop
  | nil (hc : HeaderChain) : AppendRun hc [] [] hc
  | cons {hc hc₁ hc₂ : HeaderChain} {block : Header} {replies : AppendReplies}
      {err : Option ChainError} {added : List Header} {dropped : List (Header × List Header)} :
      hc.append maxHeadsQueueLimit sorter block replies = .ok (err, hc₁) →
      AppendRun hc₁ added dropped hc₂ →
      AppendRun hc (registered err block ++ added) (evicted maxHeadsQueueLimit hc err ++ dropped) hc₂
  /-- A read through the chain, as the engine's `VerifyHeader(hc, header)` inside `Append`:
  it changes only the caches. -/
  | read {hc hc₁ hc₂ : HeaderChain} {added : List Header} {dropped : List (Header × List Header)} :
      CachesOnly hc hc₁ → AppendRun hc₁ added dropped hc₂ → AppendRun hc added dropped hc₂

/-- A sorted registry grown by one header and re-sorted keeps the invariant while it fits. -/
theorem registryInv_sort {hs : List Header} (block : Header)
    (hlen : hs.length + 1 ≤ maxHeadsQueueLimit) :
    RegistryInv maxHeadsQueueLimit ((sorter.sort (hs ++ [block])).map some) :=
  ⟨_, rfl, by rw [(sorter.perm _).length_eq]; simpa using hlen, sorter.sorted _⟩

/-- One `Append` keeps the registry invariant. -/
theorem append_registryInv {hc hc' : HeaderChain} {block : Header} {replies : AppendReplies}
    {err : Option ChainError} (h : hc.append maxHeadsQueueLimit sorter block replies = .ok (err, hc'))
    (hinv : RegistryInv maxHeadsQueueLimit hc.heads) : RegistryInv maxHeadsQueueLimit hc'.heads := by
  obtain ⟨hs, hheads, hlen, hsorted⟩ := hinv
  rcases append_heads maxHeadsQueueLimit sorter hheads h with
    ⟨-, h₁⟩ | ⟨-, hne, h₁⟩ | ⟨-, heq, x, rest, rfl, h₁⟩
  · exact h₁ ▸ ⟨hs, hheads, hlen, hsorted⟩
  · exact h₁ ▸ registryInv_sort maxHeadsQueueLimit sorter block (by omega)
  · exact h₁ ▸ registryInv_sort maxHeadsQueueLimit sorter block (by simp at heq; omega)

/-- The registry invariant holds after every call of a run of `Append` calls from a registry
that satisfies it; the registry then holds exactly the headers it started with and those
the run registered, less those it evicted; and every evicted header was one of least
truncated number in the registry it was evicted from. -/
theorem appendRun_registry {hc hc' : HeaderChain} {added : List Header}
    {dropped : List (Header × List Header)}
    (hrun : AppendRun maxHeadsQueueLimit sorter hc added dropped hc')
    (hinv : RegistryInv maxHeadsQueueLimit hc.heads) :
    RegistryInv maxHeadsQueueLimit hc'.heads ∧
      (hc'.heads.reduceOption ++ dropped.map Prod.fst).Perm (hc.heads.reduceOption ++ added) ∧
      ∀ e ∈ dropped, e.1 ∈ e.2 ∧ ∀ y ∈ e.2, e.1.numberU64 ≤ y.numberU64 := by
  induction hrun with
  | nil => exact ⟨hinv, by simp, by simp⟩
  | @cons hc hc₁ hc₂ block replies err added dropped h _ ih =>
    obtain ⟨hinv', hperm, hmin⟩ := ih (append_registryInv maxHeadsQueueLimit sorter h hinv)
    obtain ⟨hs, hheads, -, hsorted⟩ := hinv
    rcases append_heads maxHeadsQueueLimit sorter hheads h with
      ⟨herr, h₁⟩ | ⟨rfl, hne, h₁⟩ | ⟨rfl, heq, x, rest, rfl, h₁⟩
    · have hr : registered err block = [] := if_neg (Option.isSome_iff_ne_none.mp herr)
      have he : evicted maxHeadsQueueLimit hc err = [] :=
        if_neg (fun h => Option.isSome_iff_ne_none.mp herr h.1)
      rw [hr, he, List.nil_append, List.nil_append]
      exact ⟨hinv', h₁ ▸ hperm, hmin⟩
    · have he : evicted maxHeadsQueueLimit hc none = [] :=
        if_neg (fun h => hne (by simpa [hheads] using h.2))
      rw [he, List.nil_append]
      refine ⟨hinv', hperm.trans ?_, hmin⟩
      rw [h₁, reduceOption_map_some, hheads, reduceOption_map_some, registered, if_pos rfl,
        ← List.append_assoc]
      exact (sorter.perm _).append_right _
    · have he : evicted maxHeadsQueueLimit hc none = [(x, x :: rest)] := by
        simp [evicted, hheads, heq.symm, reduceOption_map_some]
      have hsort : (sorter.sort (rest ++ [block]) ++ added).Perm (rest ++ ([block] ++ added)) := by
        rw [← List.append_assoc]
        exact (sorter.perm _).append_right _
      rw [he, List.singleton_append]
      refine ⟨hinv', ?_, ?_⟩
      · rw [h₁, reduceOption_map_some] at hperm
        rw [hheads, reduceOption_map_some, registered, if_pos rfl, List.map_cons]
        exact List.perm_middle.trans ((hperm.trans hsort).cons x)
      · intro e he'
        rcases List.mem_cons.mp he' with rfl | he'
        · exact ⟨List.mem_cons_self _ _, fun y hy => (List.mem_cons.mp hy).elim
            (fun h => h ▸ le_rfl) (List.rel_of_sorted_cons hsorted y)⟩
        · exact hmin e he'
  | read h _ ih => obtain ⟨_, rfl⟩ := h; exact ih hinv

end HeaderChain

namespace Example

/-- Appending `a1` then `a2` with room for one head: `a1` is evicted and `a2` kept. -/
theorem appendRun_registry_a1_a2 :
    ∃ hc, HeaderChain.AppendRun 1 .insertion genesisOnly [a1, a2] [(a1, [a1])] hc ∧
      HeaderChain.RegistryInv 1 genesisOnly.heads ∧
      HeaderChain.RegistryInv 1 hc.heads ∧
      (hc.heads.reduceOption ++ [a1]).Perm (genesisOnly.heads.reduceOption ++ [a1, a2]) ∧
      ∀ e ∈ [(a1, [a1])], e.1 ∈ e.2 ∧ ∀ y ∈ e.2, e.1.numberU64 ≤ y.numberU64 :=
  have hrun : HeaderChain.AppendRun 1 .insertion genesisOnly [a1, a2] [(a1, [a1])] _ :=
    @HeaderChain.AppendRun.cons 1 .insertion _ _ _ a1 accept none _ _ rfl
      (@HeaderChain.AppendRun.cons 1 .insertion _ _ _ a2 accept none _ _ rfl (.nil _))
  have hinv : HeaderChain.RegistryInv 1 genesisOnly.heads :=
    ⟨[], rfl, Nat.zero_le _, List.sorted_nil⟩
  ⟨_, hrun, hinv, HeaderChain.appendRun_registry 1 .insertion hrun hinv⟩

/-- A header numbered `2 ^ 64` above `a1`: its `Number[ctx].Uint64()` is 0. -/
def big : Header := ⟨a1.hash, 2 ^ 64, [1, 1], 0, 0, 0⟩

/-- From the registry `[a1]`, sorted by number, appending `big` sorts it first by its
truncated number: the registry is no longer in ascending order of block number. -/
theorem appendRun_registry_big :
    [a1].Sorted (fun a b => a.number ≤ b.number) ∧
      ∃ hc, HeaderChain.AppendRun 2 .insertion { genesisOnly with heads := [some a1] } [big] [] hc ∧
        hc.heads = [some big, some a1] ∧ ¬ [big, a1].Sorted (fun a b => a.number ≤ b.number) :=
  ⟨List.sorted_singleton _, _,
    @HeaderChain.AppendRun.cons 2 .insertion _ _ _ big accept none _ _ rfl (.nil _), rfl,
    fun h => absurd (List.rel_of_sorted_cons h a1 (List.mem_singleton_self _)) (by decide)⟩

end Example

end QuaiHeaderChain
