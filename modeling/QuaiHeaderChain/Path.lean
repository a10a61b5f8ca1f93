import QuaiHeaderChain.Walk

/-!
# The parent path as `GetHeader` reads it

`findCommonHeader` and `trim`, `core/headerchain.go:357-392`, walk one path: a header, then
its parent read through `GetHeader` with `Number - 1`, and so on until a read answers nil.
The reads go through the caches and each may add to them, so the path is read from a state,
with the caches carried from read to read. Along it, `trim(c, s)` deletes and hands to the
body chain exactly the headers above `c`, and `findCommonHeader` stops at the first header
whose number maps to its own hash or to the context's genesis hash.
-/

namespace QuaiHeaderChain

/-- `GetHeader`'s cache tier reads the store only at the key asked for. -/
theorem CacheTier.getHeader_congr {c : CacheTier} {db db' : Database} {hash : Hash}
    {number : Nat} (h : db'.headers hash number = db.headers hash number) :
    c.getHeader db' hash number = c.getHeader db hash number := by
  unfold getHeader
  split
  · rfl
  · split <;> split
    · rfl
    · next hr' _ hr => cases hr'.symm.trans (h.trans hr)
    · next _ hr' hr => cases hr.symm.trans (h.symm.trans hr')
    · next _ hr' _ hr =>
      obtain rfl := Option.some_inj.mp (hr'.symm.trans (h.trans hr))
      rfl

namespace HeaderChain

/-- The first `n` headers of `x`'s parent path as `GetHeader` reads them from `hc`: `x`, then
each header's parent read with `Number - 1`, until a read answers nil. -/
def readPath : Nat → HeaderChain → Header → List Header
  | 0, _, _ => []
  | n + 1, hc, x => x :: match hc.getHeader x.parentHash (prevNumber x.number) with
    | (some y, hc) => readPath n hc y
    | (none, _) => []

theorem readPath_succ_of_some {n : Nat} {hc hc₁ : HeaderChain} {x y : Header}
    (hr : hc.getHeader x.parentHash (prevNumber x.number) = (some y, hc₁)) :
    readPath (n + 1) hc x = x :: readPath n hc₁ y := by
  rw [readPath, hr]

theorem readPath_succ_of_none {n : Nat} {hc hc₁ : HeaderChain} {x : Header}
    (hr : hc.getHeader x.parentHash (prevNumber x.number) = (none, hc₁)) :
    readPath (n + 1) hc x = [x] := by
  rw [readPath, hr]

/-- The state the reads of `readPath n hc x` leave: each read of a parent adds to the caches. -/
def readPathState : Nat → HeaderChain → Header → HeaderChain
  | 0, hc, _ => hc
  | n + 1, hc, x => match hc.getHeader x.parentHash (prevNumber x.number) with
    | (some y, hc) => readPathState n hc y
    | (none, hc) => hc

/-- A read that finds the parent goes on from it, in the state the read left. -/
theorem readPathState_succ_of_some {n : Nat} {hc hc₁ : HeaderChain} {x y : Header}
    (hr : hc.getHeader x.parentHash (prevNumber x.number) = (some y, hc₁)) :
    readPathState (n + 1) hc x = readPathState n hc₁ y := by
  rw [readPathState, hr]

/-- A read's state is its start state with other caches. -/
theorem cachesOnly_of_getHeader {hc hc₁ : HeaderChain} {hash : Hash} {number : Nat}
    {x : Option Header} (hr : hc.getHeader hash number = (x, hc₁)) : CachesOnly hc hc₁ := by
  rw [show hc₁ = _ from (congrArg Prod.snd hr).symm]
  exact CachesOnly.getHeader hc _ _

/-- The reads of the path change only the caches. -/
theorem cachesOnly_readPathState : ∀ (n : Nat) (hc : HeaderChain) (x : Header),
    CachesOnly hc (readPathState n hc x)
  | 0, hc, _ => .refl hc
  | n + 1, hc, x => by
    rcases hr : hc.getHeader x.parentHash (prevNumber x.number) with ⟨_ | y, hc₁⟩
    · rw [readPathState, hr]
      exact cachesOnly_of_getHeader hr
    · rw [readPathState_succ_of_some hr]
      exact (cachesOnly_of_getHeader hr).trans (cachesOnly_readPathState n hc₁ y)

/-- A header of the path is no deeper than the one it starts from. -/
theorem depth_le_of_mem_readPath : ∀ {n : Nat} {hc : HeaderChain} {x y : Header},
    y ∈ readPath n hc x → y.hash.depth ≤ x.hash.depth
  | 0, _, _, _, hy => nomatch hy
  | n + 1, hc, x, y, hy => by
    rcases hr : hc.getHeader x.parentHash (prevNumber x.number) with ⟨_ | z, hc₁⟩
    · rw [readPath_succ_of_none hr] at hy
      rw [List.mem_singleton.mp hy]
    · rw [readPath_succ_of_some hr] at hy
      rcases List.mem_cons.mp hy with rfl | hy
      · exact le_rfl
      · have hz : z.hash = x.parentHash := CacheTier.hash_of_getHeader _ _ (congrArg Prod.fst hr)
        have := depth_le_of_mem_readPath hy
        rw [hz] at this
        rw [Header.depth_hash x]
        omega

/-- Down the path the headers' hashes are strictly shallower: each is a proper ancestor of
every header before it. -/
theorem readPath_pairwise : ∀ (n : Nat) (hc : HeaderChain) (x : Header),
    (readPath n hc x).Pairwise fun a b => b.hash.depth < a.hash.depth
  | 0, _, _ => List.Pairwise.nil
  | n + 1, hc, x => by
    rcases hr : hc.getHeader x.parentHash (prevNumber x.number) with ⟨_ | z, hc₁⟩
    · rw [readPath_succ_of_none hr]
      exact List.pairwise_singleton _ _
    · rw [readPath_succ_of_some hr]
      have hz : z.hash = x.parentHash := CacheTier.hash_of_getHeader _ _ (congrArg Prod.fst hr)
      refine List.Pairwise.cons (fun y hy => ?_) (readPath_pairwise n hc₁ z)
      have := depth_le_of_mem_readPath hy
      rw [hz] at this
      rw [Header.depth_hash x]
      omega

/-- Headers above `c` on a path are deeper than `c`. -/
theorem depth_lt_of_readPath_eq {n : Nat} {hc : HeaderChain} {x c : Header}
    {above rest : List Header} (hpath : readPath n hc x = above ++ c :: rest) :
    ∀ p ∈ above, c.hash.depth < p.hash.depth := by
  have hpw := readPath_pairwise n hc x
  rw [hpath, List.pairwise_append] at hpw
  exact fun p hp => hpw.2.2 p hp c (List.mem_cons_self _ _)

/-! ### `trim` along the path -/

/-- Deleting the headers `ps` keeps the entries of every other hash. -/
theorem deleteHeaders_of_ne (db : Database) {ps : List Header} {hash : Hash}
    (hps : ∀ p ∈ ps, p.hash ≠ hash) :
    (∀ m, (deleteHeaders db ps).headers hash m = db.headers hash m) ∧
      (deleteHeaders db ps).numbers hash = db.numbers hash := by
  have hd := deletesOnly_deleteHeaders (P := (· ≠ hash)) db hps
  exact ⟨fun m => by_contra fun hne => (hd.2.1 hash m hne).1 rfl,
    by_contra fun hne => (hd.2.2 hash hne).1 rfl⟩

theorem deleteHeaders_concat (db : Database) (ps : List Header) (p : Header) :
    deleteHeaders db (ps ++ [p]) = Rawdb.deleteHeader (deleteHeaders db ps) p.hash p.number := by
  rw [deleteHeaders_append]
  rfl

/-- A read of a hash that a trim has not deleted reads as it would before the trim, and
caches the same. -/
theorem getHeader_deleteHeaders (hc : HeaderChain) {ps : List Header} {hash : Hash}
    (t : List Header) (hps : ∀ p ∈ ps, p.hash ≠ hash) (number : Nat) :
    ({ hc with headerDb := deleteHeaders hc.headerDb ps, bodyTrims := t }).getHeader hash number =
      ((hc.getHeader hash number).1, { (hc.getHeader hash number).2 with
        headerDb := deleteHeaders hc.headerDb ps
        bodyTrims := t }) := by
  have hcongr := CacheTier.getHeader_congr (c := hc.caches)
    ((deleteHeaders_of_ne hc.headerDb hps).1 number)
  simp only [HeaderChain.getHeader, hcongr]

/-- The trim loop from a header of a path whose headers `ps` above it are already deleted
and handed on goes on to delete and hand on exactly the headers of the path above `c`. -/
theorem trimLoop_readPath {c : Header} : ∀ {n fuel : Nat} {hc : HeaderChain} {s : Header}
    {above rest : List Header} (ps t : List Header), readPath n hc s = above ++ c :: rest →
    s.hash.depth < fuel → (∀ p ∈ ps, s.hash.depth < p.hash.depth) →
    ∃ caches, trimLoop fuel { hc with headerDb := deleteHeaders hc.headerDb ps, bodyTrims := t }
        c (some s) =
      .ok { hc with
        headerDb := deleteHeaders hc.headerDb (ps ++ above)
        caches := caches
        bodyTrims := t ++ above }
  | 0, _, _, _, above, _, _, _, hpath, _, _ => by cases above <;> cases hpath
  | _ + 1, 0, _, _, _, _, _, _, _, hfuel, _ => absurd hfuel (Nat.not_lt_zero _)
  | n + 1, fuel + 1, hc, s, [], rest, ps, t, hpath, _, _ => by
    obtain rfl : s = c := (List.cons.inj hpath).1
    refine ⟨hc.caches, ?_⟩
    rw [trimLoop, if_pos (ptrHash_some s), List.append_nil, List.append_nil]
  | n + 1, fuel + 1, hc, s, p :: above, rest, ps, t, hpath, hfuel, hps => by
    obtain rfl : s = p := by rw [readPath] at hpath; exact (List.cons.inj hpath).1
    have hsc : c.hash.depth < s.hash.depth :=
      depth_lt_of_readPath_eq hpath s (List.mem_cons_self _ _)
    rcases hr : hc.getHeader s.parentHash (prevNumber s.number) with ⟨_ | y, hc₁⟩
    · rw [readPath_succ_of_none hr] at hpath
      cases above <;> cases (List.cons.inj hpath).2
    · rw [readPath_succ_of_some hr] at hpath
      obtain ⟨-, hpath⟩ := List.cons.inj hpath
      have hyh : y.hash = s.parentHash := CacheTier.hash_of_getHeader _ _ (congrArg Prod.fst hr)
      have hy : y.hash.depth + 1 = s.hash.depth := by rw [hyh, Header.depth_hash]
      have hdel : ∀ q ∈ ps ++ [s], y.hash.depth < q.hash.depth := by
        simp only [List.mem_append, List.mem_singleton]
        rintro q (hq | rfl)
        · have := hps q hq
          omega
        · omega
      obtain ⟨caches, hrest⟩ :=
        trimLoop_readPath (ps ++ [s]) (t ++ [s]) hpath (show y.hash.depth < fuel by omega) hdel
      obtain ⟨k, rfl⟩ := cachesOnly_of_getHeader hr
      refine ⟨caches, ?_⟩
      have hne : ptrHash (some s) ≠ c.hash := fun he => Nat.ne_of_gt hsc (congrArg Hash.depth he)
      rw [trimLoop, if_neg hne]
      dsimp only
      rw [← deleteHeaders_concat, getHeader_deleteHeaders hc (t ++ [s])
        (fun q hq he => Nat.ne_of_gt (hdel q hq) (congrArg Hash.depth (he.trans hyh.symm))), hr]
      refine hrest.trans ?_
      rw [List.append_assoc, List.append_assoc]
      rfl

/-- For every start header `s` and every header `c` on `s`'s parent path as `GetHeader`
reads it, `trim(c, s)` returns, deletes from the store and hands to the body chain's `Trim`
exactly the headers of the path above `c`, in order, and changes nothing else but the
caches: `c` and all its ancestors keep their entries. -/
theorem trim_deletes_path_above {hc : HeaderChain} {s c : Header} {n : Nat}
    {above rest : List Header} (hpath : readPath n hc s = above ++ c :: rest) :
    ∃ caches, hc.trim c (some s) = .ok { hc with
        headerDb := deleteHeaders hc.headerDb above
        caches := caches
        bodyTrims := hc.bodyTrims ++ above } ∧
      ∀ k h, c.hash.ancestor? k = some h →
        (∀ m, (deleteHeaders hc.headerDb above).headers h m = hc.headerDb.headers h m) ∧
          (deleteHeaders hc.headerDb above).numbers h = hc.headerDb.numbers h := by
  obtain ⟨caches, htrim⟩ := trimLoop_readPath [] hc.bodyTrims hpath (Nat.lt_succ_self _)
    fun _ h => nomatch h
  refine ⟨caches, htrim, fun k h hk => deleteHeaders_of_ne _ fun p hp he => ?_⟩
  have hlt := depth_lt_of_readPath_eq hpath p hp
  have hanc := Hash.depth_of_ancestor? hk
  rw [he] at hlt
  omega

open Example in
/-- Trimming `a3` back to `a1` over `headA1` deletes `a3` and `a2`. -/
theorem trim_deletes_path_above_a3 :
    readPath 3 headA1 a3 = [a3, a2] ++ a1 :: [] ∧
      ∃ caches, headA1.trim a1 (some a3) = .ok { headA1 with
          headerDb := deleteHeaders headA1.headerDb [a3, a2]
          caches := caches
          bodyTrims := headA1.bodyTrims ++ [a3, a2] } ∧
        ∀ k h, a1.hash.ancestor? k = some h →
          (∀ m, (deleteHeaders headA1.headerDb [a3, a2]).headers h m = headA1.headerDb.headers h m) ∧
            (deleteHeaders headA1.headerDb [a3, a2]).numbers h = headA1.headerDb.numbers h :=
  have hpath : readPath 3 headA1 a3 = [a3, a2] ++ a1 :: [] := by rfl
  ⟨hpath, trim_deletes_path_above hpath⟩

/-! ### `findCommonHeader` along the path -/

/-- The exit test of `findCommonHeader`'s loop, `core/headerchain.go:385-386`: the canonical
entry at `X`'s number is `X`'s hash or the context's genesis hash. -/
def CommonExit (hc : HeaderChain) (X : Header) : Prop :=
  hc.headerDb.canonical X.number = X.hash ∨
    hc.headerDb.canonical X.number = hc.config.genesisHashes hc.config.context

instance (hc : HeaderChain) (X : Header) : Decidable (hc.CommonExit X) :=
  inferInstanceAs (Decidable (_ ∨ _))

theorem findCommonHeaderLoop_succ (fuel : Nat) (hc : HeaderChain) (x : Header) :
    findCommonHeaderLoop (fuel + 1) hc (some x) =
      if hc.CommonExit x then hc.getHeaderByHash (hc.headerDb.canonical x.number)
      else findCommonHeaderLoop fuel (hc.getHeader x.parentHash (prevNumber x.number)).2
        (hc.getHeader x.parentHash (prevNumber x.number)).1 := rfl

@[simp] theorem findCommonHeaderLoop_none (fuel : Nat) (hc : HeaderChain) :
    findCommonHeaderLoop fuel hc none = (none, hc) := by
  cases fuel <;> rfl

/-- The walk of `findCommonHeader` ends within the depth of its start hash: more rounds change
nothing. -/
theorem findCommonHeaderLoop_fuel : ∀ {fuel fuel' : Nat} {hc : HeaderChain} {x : Header},
    x.hash.depth < fuel → x.hash.depth < fuel' →
      findCommonHeaderLoop fuel hc (some x) = findCommonHeaderLoop fuel' hc (some x)
  | 0, _, _, _, h, _ | _, 0, _, _, _, h => absurd h (Nat.not_lt_zero _)
  | fuel + 1, fuel' + 1, hc, x, h, h' => by
    rw [findCommonHeaderLoop_succ, findCommonHeaderLoop_succ]
    refine if_congr Iff.rfl rfl ?_
    rcases hr : hc.getHeader x.parentHash (prevNumber x.number) with ⟨_ | y, hc₁⟩
    · simp only [findCommonHeaderLoop_none]
    · have hy : y.hash.depth + 1 = x.hash.depth := by
        rw [CacheTier.hash_of_getHeader _ _ (congrArg Prod.fst hr), Header.depth_hash]
      exact findCommonHeaderLoop_fuel (by omega) (by omega)

/-- On a path whose headers above `Z` fail the exit test, the walk stops at `Z` and answers
what `GetHeaderByHash` reads for `Z`'s canonical hash, from the state the reads of the parents
of the headers above `Z` left. -/
theorem findCommonHeaderLoop_readPath : ∀ {n fuel : Nat} {hc : HeaderChain} {x Z : Header}
    {above rest : List Header}, readPath n hc x = above ++ Z :: rest → x.hash.depth < fuel →
    (∀ Y ∈ above, ¬ hc.CommonExit Y) → hc.CommonExit Z →
    findCommonHeaderLoop fuel hc (some x) =
      (readPathState above.length hc x).getHeaderByHash (hc.headerDb.canonical Z.number)
  | 0, _, _, _, _, above, _, hpath, _, _, _ => by cases above <;> cases hpath
  | _ + 1, 0, _, _, _, _, _, _, hfuel, _, _ => absurd hfuel (Nat.not_lt_zero _)
  | n + 1, fuel + 1, hc, x, Z, [], rest, hpath, _, _, hZ => by
    obtain rfl : x = Z := (List.cons.inj hpath).1
    rw [findCommonHeaderLoop_succ, if_pos hZ]
    rfl
  | n + 1, fuel + 1, hc, x, Z, p :: above, rest, hpath, hfuel, habove, hZ => by
    obtain rfl : x = p := by rw [readPath] at hpath; exact (List.cons.inj hpath).1
    rcases hr : hc.getHeader x.parentHash (prevNumber x.number) with ⟨_ | y, hc₁⟩
    · rw [readPath_succ_of_none hr] at hpath
      cases above <;> cases (List.cons.inj hpath).2
    · rw [readPath_succ_of_some hr] at hpath
      have hy : y.hash.depth + 1 = x.hash.depth := by
        rw [CacheTier.hash_of_getHeader _ _ (congrArg Prod.fst hr), Header.depth_hash]
      obtain ⟨k, rfl⟩ := cachesOnly_of_getHeader hr
      rw [findCommonHeaderLoop_succ, if_neg (habove x (List.mem_cons_self _ _)), hr,
        List.length_cons, readPathState_succ_of_some hr]
      exact findCommonHeaderLoop_readPath (List.cons.inj hpath).2 (show y.hash.depth < fuel by omega)
        (fun Y hY => habove Y (List.mem_cons_of_mem _ hY)) hZ

/-- On a path none of whose headers passes the exit test, the walk answers nil. -/
theorem findCommonHeaderLoop_no_exit : ∀ {fuel : Nat} {hc : HeaderChain} {x : Header},
    (∀ Y ∈ readPath fuel hc x, ¬ hc.CommonExit Y) → (findCommonHeaderLoop fuel hc (some x)).1 = none
  | 0, _, _, _ => rfl
  | fuel + 1, hc, x, hno => by
    rw [findCommonHeaderLoop_succ, if_neg (hno x (List.mem_cons_self _ _))]
    rcases hr : hc.getHeader x.parentHash (prevNumber x.number) with ⟨_ | y, hc₁⟩
    · simp only [findCommonHeaderLoop_none]
    · rw [readPath_succ_of_some hr] at hno
      obtain ⟨k, rfl⟩ := cachesOnly_of_getHeader hr
      exact findCommonHeaderLoop_no_exit fun Y hY => hno Y (List.mem_cons_of_mem _ hY)

/-- `findCommonHeader(h)` ends within the depth of `h`'s hash: more rounds change nothing. Let
`Z` be the first header of `h`'s path, as `GetHeader` reads it, whose number maps to its own
hash or to the context's genesis hash. The walk answers what `GetHeaderByHash` reads for that
entry in the state the reads of the parents of the headers above `Z` left: the header `W` the
entry names, when `W` is stored with its number entry (`Z` itself, or the stored genesis). It
answers nil when no header of the path passes the test. -/
theorem findCommonHeader_first_exit (hc : HeaderChain) (h : Header) :
    (∀ fuel, h.hash.depth < fuel →
      findCommonHeaderLoop fuel hc (some h) = hc.findCommonHeader (some h)) ∧
    (∀ n above Z rest, readPath n hc h = above ++ Z :: rest →
      (∀ Y ∈ above, ¬ hc.CommonExit Y) → hc.CommonExit Z →
      hc.findCommonHeader (some h) =
          (readPathState above.length hc h).getHeaderByHash (hc.headerDb.canonical Z.number) ∧
        ∀ W : Header, hc.headerDb.canonical Z.number = W.hash →
          hc.headerDb.numbers W.hash = some W.number →
          hc.headerDb.headers W.hash W.number = some W → (hc.findCommonHeader (some h)).1 = some W) ∧
    ((∀ n, ∀ Y ∈ readPath n hc h, ¬ hc.CommonExit Y) → (hc.findCommonHeader (some h)).1 = none) := by
  refine ⟨fun _ hfuel => findCommonHeaderLoop_fuel hfuel (Nat.lt_succ_self _),
    fun _ above _ _ hpath habove hZ => ?_, fun hno => findCommonHeaderLoop_no_exit (hno _)⟩
  have heq : hc.findCommonHeader (some h) = _ :=
    findCommonHeaderLoop_readPath hpath (Nat.lt_succ_self _) habove hZ
  have hdb := (cachesOnly_readPathState above.length hc h).headerDb
  refine ⟨heq, fun W hW hn hst => ?_⟩
  rw [heq, hW]
  exact getHeaderByHash_of_stored _ _ (hdb ▸ hn) (hdb ▸ hst)

end HeaderChain

namespace Example

open HeaderChain

/-- Head `a1` over the stored `genesis ← a1 ← a2`, with the canonical mapping
`{0 ↦ genesis, 1 ↦ a1, 2 ↦ genesis}`. -/
def genesisAtTwo : HeaderChain :=
  { chainOf [genesis, a1, a2] [genesis, a1] a1 with
    headerDb :=
      Rawdb.writeCanonicalHash (chainOf [genesis, a1, a2] [genesis, a1] a1).headerDb genesis.hash 2 }

/-- On `a2`'s whole path, numbered down by one to the genesis, `a1` is the highest header
canonical at its own number, yet `findCommonHeader(a2)` answers the genesis: entry 2 holds
the genesis hash. -/
theorem findCommonHeader_genesis_entry :
    genesisAtTwo.headerDb.canonical 0 =
        genesisAtTwo.config.genesisHashes genesisAtTwo.config.context ∧
      readPath 4 genesisAtTwo a2 = [a2, a1, genesis] ∧
      genesisAtTwo.headerDb.canonical a2.number ≠ a2.hash ∧
      genesisAtTwo.headerDb.canonical a1.number = a1.hash ∧
      (genesisAtTwo.findCommonHeader (some a2)).1 = some genesis :=
  ⟨rfl, rfl, by decide, rfl, rfl⟩

/-- From `a2` over `genesisAtTwo` the walk exits at once, at the genesis entry of number 2,
and answers the stored genesis. -/
theorem findCommonHeader_first_exit_a2 :
    readPath 3 genesisAtTwo a2 = [] ++ a2 :: [a1, genesis] ∧ genesisAtTwo.CommonExit a2 ∧
      genesisAtTwo.findCommonHeader (some a2) =
        (readPathState 0 genesisAtTwo a2).getHeaderByHash
          (genesisAtTwo.headerDb.canonical a2.number) ∧
      (genesisAtTwo.findCommonHeader (some a2)).1 = some genesis :=
  have hpath : readPath 3 genesisAtTwo a2 = [] ++ a2 :: [a1, genesis] := by rfl
  have hexit : genesisAtTwo.CommonExit a2 := .inr rfl
  have h := (findCommonHeader_first_exit genesisAtTwo a2).2.1 3 [] a2 _ hpath
    (fun _ h => nomatch h) hexit
  ⟨hpath, hexit, h.1, h.2 genesis rfl rfl rfl⟩

end Example

end QuaiHeaderChain
