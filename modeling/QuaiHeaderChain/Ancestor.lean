import QuaiHeaderChain.Chain

/-!
# `GetAncestor` against the parent walk

`core/headerchain.go:518-550`. While the walk's hash is not canonical at the walk's
number, it reads the header and steps to its parent, spending one unit of the caller's
budget; once it is canonical, the answer is read off the canonical mapping. When the
mapping is the head's parent chain, that shortcut agrees with the walk, provided the
walk has not run off the end of its own parent chain.
-/

namespace QuaiHeaderChain

namespace Hash

/-- A hash with a parent is not the zero hash. -/
theorem ne_zero_of_ancestor?_succ {h r : Hash} {k : Nat} (hr : h.ancestor? (k + 1) = some r) :
    h ≠ .zero := by
  rintro rfl
  cases hr

end Hash

namespace HeaderChain

/-- The canonical mapping is the current head's parent chain: entry `n`, for `n` up to the
head's number, is the hash `number - n` generations back, and entries above are absent. -/
def CanonicalChain (hc : HeaderChain) : Prop :=
  ∀ n, hc.headerDb.canonical n =
    if n ≤ hc.currentHeader.number then
      (hc.currentHeader.hash.ancestor? (hc.currentHeader.number - n)).getD .zero
    else .zero

/-- A good state: the canonical mapping is the head's parent chain, and that chain ends, at
number zero, in the genesis header. -/
structure Good (hc : HeaderChain) : Prop where
  canonical : hc.CanonicalChain
  genesis : hc.currentHeader.hash.ancestor? hc.currentHeader.number = some hc.genesisHeader.hash

/-- Reads keep the canonical chain: they change only the caches. -/
theorem CanonicalChain.getHeader {hc : HeaderChain} (h : hc.CanonicalChain) (hash : Hash)
    (number : Nat) : (hc.getHeader hash number).2.CanonicalChain := h

/-- In a canonical chain, an entry's ancestors are the entries below it. -/
theorem CanonicalChain.canonical_sub {hc : HeaderChain} (hgood : hc.CanonicalChain)
    {number a : Nat} {hash r : Hash} (hcan : hc.headerDb.canonical number = hash)
    (ha : a ≤ number) (hr : hash.ancestor? a = some r) (hz : hash ≠ .zero) :
    hc.headerDb.canonical (number - a) = r := by
  set N := hc.currentHeader.number
  have hle : number ≤ N := by
    by_contra hlt
    rw [hgood, if_neg hlt] at hcan
    exact hz hcan.symm
  have hanc : hc.currentHeader.hash.ancestor? (N - number) = some hash := by
    rw [hgood, if_pos hle] at hcan
    cases hx : hc.currentHeader.hash.ancestor? (N - number) with
    | none => rw [hx] at hcan; exact absurd hcan.symm hz
    | some x => rw [hx] at hcan; exact congrArg some hcan
  have hsplit : N - (number - a) = (N - number) + a := by omega
  rw [hgood, if_pos (by omega), hsplit, Hash.ancestor?_add, hanc]
  simp [hr]

/-- The loop of `GetAncestor`, `core/headerchain.go:529-548`; `ancestor` falls by one each
round. The second read of the canonical entry at line 533 sees the first one's value: no
write intervenes in a sequential run. -/
def getAncestorLoop : HeaderChain → Hash → Nat → Nat → Nat → (Hash × Nat) × Nat × HeaderChain
  | hc, hash, number, 0, maxNonCanonical => ((hash, number), maxNonCanonical, hc)
  | hc, hash, number, ancestor + 1, maxNonCanonical =>
    if Rawdb.readCanonicalHash hc.headerDb number = hash then
      ((Rawdb.readCanonicalHash hc.headerDb (number - (ancestor + 1)), number - (ancestor + 1)),
        maxNonCanonical, hc)
    else if maxNonCanonical = 0 then ((.zero, 0), maxNonCanonical, hc)
    else
      match hc.getHeader hash number with
      | (none, hc) => ((.zero, 0), maxNonCanonical - 1, hc)
      | (some header, hc) =>
        getAncestorLoop hc header.parentHash (number - 1) ancestor (maxNonCanonical - 1)

/-- `GetAncestor`, `core/headerchain.go:518-550`: the hash and number `ancestor` generations
back, or the zero hash and `0`; the budget `*maxNonCanonical` is returned as the call
leaves it. Under the guard `ancestor ≤ number` the `uint64` subtractions do not wrap. -/
def getAncestor (hc : HeaderChain) (hash : Hash) (number ancestor maxNonCanonical : Nat) :
    (Hash × Nat) × Nat × HeaderChain :=
  if number < ancestor then ((.zero, 0), maxNonCanonical, hc)
  else if ancestor = 1 then
    match hc.getHeader hash number with
    | (some header, hc) => ((header.parentHash, number - 1), maxNonCanonical, hc)
    | (none, hc) => ((.zero, 0), maxNonCanonical, hc)
  else getAncestorLoop hc hash number ancestor maxNonCanonical

/-- The header `GetHeader` returns for a hash has the hash's parent. -/
theorem parentHash_of_getHeader {hc : HeaderChain} {hash : Hash} {number : Nat} {X : Header}
    (h : (hc.getHeader hash number).1 = some X) (k : Nat) :
    X.parentHash.ancestor? k = hash.ancestor? (k + 1) := by
  rw [← hc.caches.hash_of_getHeader hc.headerDb h]
  rfl

/-- Every answer of the loop is a failure or the walk's result. -/
theorem getAncestorLoop_eq (hc : HeaderChain) (hgood : hc.CanonicalChain) (hash : Hash)
    (number a m : Nat) {r : Hash} (ha : a ≤ number) (hr : hash.ancestor? a = some r) :
    (getAncestorLoop hc hash number a m).1 = (.zero, 0) ∨
      (getAncestorLoop hc hash number a m).1 = (r, number - a) := by
  induction a generalizing hc hash number m with
  | zero =>
    rw [Hash.ancestor?_zero, Option.some_inj] at hr
    simp [getAncestorLoop, hr]
  | succ a ih =>
    unfold getAncestorLoop
    split
    · next hcan =>
      rw [Rawdb.readCanonicalHash_eq] at hcan
      exact .inr (by rw [Rawdb.readCanonicalHash_eq,
        hgood.canonical_sub hcan ha hr (Hash.ne_zero_of_ancestor?_succ hr)])
    · split
      · exact .inl rfl
      · split
        · exact .inl rfl
        · next X hc' heq =>
          have hX : (hc.getHeader hash number).1 = some X := congrArg Prod.fst heq
          have hc'eq : hc' = (hc.getHeader hash number).2 := (congrArg Prod.snd heq).symm
          subst hc'eq
          have hrec := ih _ (hgood.getHeader hash number) X.parentHash (number - 1) (m - 1)
            (by omega) (by rw [parentHash_of_getHeader hX]; exact hr)
          rwa [Nat.sub_sub, Nat.add_comm 1 a] at hrec

/-- With budget for every step and every header of the walk stored, the loop answers the
walk's result. -/
theorem getAncestorLoop_of_stored (hc : HeaderChain) (hgood : hc.CanonicalChain) (hash : Hash)
    (number a m : Nat) {r : Hash} (ha : a ≤ number) (hm : a ≤ m)
    (hr : hash.ancestor? a = some r)
    (hs : ∀ i < a, ∃ b Y, hash.ancestor? i = some b ∧ hc.headerDb.headers b (number - i) = some Y) :
    (getAncestorLoop hc hash number a m).1 = (r, number - a) := by
  induction a generalizing hc hash number m with
  | zero =>
    rw [Hash.ancestor?_zero, Option.some_inj] at hr
    simp [getAncestorLoop, hr]
  | succ a ih =>
    unfold getAncestorLoop
    split
    · next hcan =>
      rw [Rawdb.readCanonicalHash_eq] at hcan
      rw [Rawdb.readCanonicalHash_eq,
        hgood.canonical_sub hcan ha hr (Hash.ne_zero_of_ancestor?_succ hr)]
    · rw [if_neg (by omega)]
      obtain ⟨b, Y, hb, hY⟩ := hs 0 (by omega)
      rw [Hash.ancestor?_zero, Option.some_inj] at hb
      subst hb
      have hX := hc.caches.getHeader_of_headers hc.headerDb hY
      rw [Nat.sub_zero] at hX
      have hrec := ih (hc.getHeader hash number).2 (hgood.getHeader hash number)
        Y.parentHash (number - 1) (m - 1) (by omega) (by omega)
        (by rw [parentHash_of_getHeader hX]; exact hr)
        (fun i hi => by
          obtain ⟨b, Z, hb, hZ⟩ := hs (i + 1) (by omega)
          exact ⟨b, Z, by rw [parentHash_of_getHeader hX]; exact hb,
            by rw [Nat.sub_sub, Nat.add_comm 1 i]; exact hZ⟩)
      rw [Nat.sub_sub, Nat.add_comm 1 a] at hrec
      split
      · next hc' heq => cases (congrArg Prod.fst heq).symm.trans hX
      · next X hc' heq =>
        have hXY : some X = some Y := (congrArg Prod.fst heq).symm.trans hX
        cases hXY
        have hc'eq : hc' = (hc.getHeader hash number).2 := (congrArg Prod.snd heq).symm
        subst hc'eq
        exact hrec

/-- `GetAncestor` when the canonical mapping is the head's parent chain: for `ancestor ≤ number`
and a hash with `ancestor` generations of parent hashes, the answer is the zero hash and `0`
or the hash `ancestor` generations back and `number - ancestor`; with budget for every step
and every header of the walk stored at its number, it is the latter. -/
theorem getAncestor_eq_parent_walk (hc : HeaderChain) (hgood : hc.CanonicalChain)
    (hash : Hash) (number ancestor maxNonCanonical : Nat) {r : Hash}
    (hk : ancestor ≤ number) (hr : hash.ancestor? ancestor = some r) :
    ((hc.getAncestor hash number ancestor maxNonCanonical).1 = (.zero, 0) ∨
      (hc.getAncestor hash number ancestor maxNonCanonical).1 = (r, number - ancestor)) ∧
    (ancestor ≤ maxNonCanonical →
      (∀ i < ancestor, ∃ b Y, hash.ancestor? i = some b ∧
        hc.headerDb.headers b (number - i) = some Y) →
      (hc.getAncestor hash number ancestor maxNonCanonical).1 = (r, number - ancestor)) := by
  unfold getAncestor
  rw [if_neg (by omega)]
  split
  · next h1 =>
    subst h1
    have hparent : ∀ {X : Header}, (hc.getHeader hash number).1 = some X → X.parentHash = r :=
      fun hX => by
        have h := parentHash_of_getHeader hX 0
        rw [Hash.ancestor?_zero, hr] at h
        exact Option.some_inj.mp h
    constructor
    · split
      · next X hc' heq => exact .inr (by rw [hparent (congrArg Prod.fst heq)])
      · exact .inl rfl
    · intro _ hs
      obtain ⟨b, Y, hb, hY⟩ := hs 0 Nat.one_pos
      rw [Hash.ancestor?_zero, Option.some_inj] at hb
      subst hb
      have hX : (hc.getHeader hash number).1 = some Y :=
        hc.caches.getHeader_of_headers hc.headerDb hY
      split
      · next X hc' heq => rw [hparent (congrArg Prod.fst heq)]
      · next hc' heq => cases (congrArg Prod.fst heq).symm.trans hX
  · exact ⟨getAncestorLoop_eq hc hgood hash number ancestor maxNonCanonical hk hr,
      fun hm hs => getAncestorLoop_of_stored hc hgood hash number ancestor maxNonCanonical
        hk hm hr hs⟩

end HeaderChain

namespace Example

open HeaderChain

/-- The canonical chain of `a2`, with branch `a` stored. -/
theorem canonicalChain_a2 : (chainOf [genesis, a1, a2] [genesis, a1, a2] a2).CanonicalChain := by
  intro n
  rcases n with _ | _ | _ | n <;>
    simp [chainOf, a2, a1, genesis, Header.hash, Hash.ancestor?, Database.empty]

/-- The genesis-only chain is good. -/
theorem good_genesisOnly : genesisOnly.Good where
  canonical n := by
    rcases n with _ | n <;> simp [genesisOnly, chainOf, genesis, Database.empty]
  genesis := rfl

/-- From `a2`, stored with its ancestors, two generations back is the genesis. -/
theorem getAncestor_a2_two :
    (chainOf [genesis, a1, a2] [genesis, a1, a2] a2).CanonicalChain ∧ 2 ≤ 2 ∧
      a2.hash.ancestor? 2 = some genesis.hash ∧
      ((chainOf [genesis, a1, a2] [genesis, a1, a2] a2).getAncestor a2.hash 2 2 2).1 =
        (genesis.hash, 0) :=
  ⟨canonicalChain_a2, le_refl 2, rfl,
    (getAncestor_eq_parent_walk _ canonicalChain_a2 a2.hash 2 2 2 (le_refl 2) rfl).2 (le_refl 2)
      (fun i hi => match i, hi with
        | 0, _ => ⟨_, _, rfl, rfl⟩
        | 1, _ => ⟨_, _, rfl, rfl⟩
        | _ + 2, h => absurd h (by omega))⟩

/-- A header claiming number 4 on top of the genesis. -/
def w : Header := ⟨genesis.hash, 4, [1, 1], 0, 0, 0⟩

/-- Head `a1`, canonical with the genesis, with `w` stored and the genesis already cached by
an earlier read. -/
def pastGenesis : HeaderChain :=
  ((chainOf [genesis, a1, w] [genesis, a1] a1).getHeader genesis.hash 0).2

/-- From `w` the walk reaches the genesis with its number still at 3, reads the cached
genesis there, and steps to the zero hash, which the empty entry at number 2 matches: the
shortcut then answers `a1`, no ancestor of `w`. -/
theorem getAncestor_past_genesis :
    pastGenesis.CanonicalChain ∧ pastGenesis.headerDb.headers w.hash 4 = some w ∧
      (pastGenesis.getAncestor w.hash 4 3 10).1 = (a1.hash, 1) ∧
      a1.hash ≠ .zero ∧ a1.hash ≠ Hash.parent^[3] w.hash := by
  refine ⟨fun n => ?_, rfl, rfl, by decide, by decide⟩
  rcases n with _ | _ | n <;>
    simp [pastGenesis, chainOf, a1, genesis, w, Header.hash, Hash.ancestor?, Database.empty]

end Example

end QuaiHeaderChain
