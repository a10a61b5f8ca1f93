import QuaiHeaderChain.Lifecycle
import QuaiHeaderChain.Collect
import QuaiHeaderChain.Fork

/-!
# Invariants over every run

What one call can change, said once: a trim deletes headers under their own hashes and
numbers and hands them to the body chain (`TrimsOnly`), and `Append` writes its block and
then either deletes it again or trims and replaces the registry (`append_frame`).

`rawdb.WriteHeader` writes a header together with its number entry and `rawdb.DeleteHeader`
removes both, so in every state a run reaches, a hash has a number entry exactly when a
header is stored under the two, and `GetHeaderByHash` (`core/headerchain.go:616-622`) reads
every stored header back by its hash, whatever the caches hold. No call of a run stops the
chain, so in every reachable state whose head and registered heads are stored, `Stop` then
`loadLastState` restores both.

Neither `Append` nor the resets touch the canonical mapping or the head, so a run whose
`SetCurrentHeader` calls only move the head to a child of the current head
(`core/headerchain.go:231-238`) keeps the canonical mapping the head's parent chain in
every state. When moreover every appended block is well numbered and accepted by the body
chain, and every new head is stored, the garbage collection of `Append`
(`core/headerchain.go:175-193`) never deletes a canonical header: every canonical entry up
to the head names a stored header.
-/

namespace QuaiHeaderChain

/-- The number table indexes exactly the stored headers: a hash has the number entry `n`
exactly when a header is stored under that hash and `n`. -/
def Database.Indexed (db : Database) : Prop :=
  ∀ h n, db.numbers h = some n ↔ ∃ X, db.headers h n = some X

namespace Database

/-- A header stored under a header's hash is that header, under its number. -/
theorem eq_of_headers_hash {db : Database} {X Y : Header} {n : Nat}
    (hY : db.headers X.hash n = some Y) : Y = X ∧ n = X.number := by
  obtain ⟨hh, hn⟩ := db.headers_sound _ _ _ hY
  obtain rfl := Header.hash_inj hh
  exact ⟨rfl, hn.symm⟩

namespace Indexed

/-! ### One lemma per store operation -/

/-- Nothing stored, nothing indexed. -/
theorem empty : Database.empty.Indexed :=
  fun _ _ => ⟨fun h => (nomatch h), fun ⟨_, h⟩ => (nomatch h)⟩

/-- Only the headers and the number entries matter. -/
theorem congr {db db' : Database} (hi : db.Indexed) (hh : db'.headers = db.headers)
    (hn : db'.numbers = db.numbers) : db'.Indexed := by
  rw [Indexed, hh, hn]
  exact hi

/-- `WriteHeader` stores the header and its number entry together. -/
theorem writeHeader {db : Database} (hi : db.Indexed) (X : Header) :
    (Rawdb.writeHeader db X).Indexed := by
  intro h n
  simp only [Rawdb.headers_writeHeader, Rawdb.numbers_writeHeader]
  by_cases hh : h = X.hash
  · subst hh
    simp only [true_and, if_true, Option.some_inj]
    constructor
    · rintro rfl
      exact ⟨X, if_pos rfl⟩
    · rintro ⟨Y, hY⟩
      split_ifs at hY with hn
      · exact hn.symm
      · exact (eq_of_headers_hash hY).2.symm
  · simp only [hh, false_and, if_false]
    exact hi h n

/-- `DeleteHeader` under a header's own hash and number removes both entries. -/
theorem deleteHeader {db : Database} (hi : db.Indexed) (X : Header) :
    (Rawdb.deleteHeader db X.hash X.number).Indexed := by
  intro h n
  simp only [Rawdb.headers_deleteHeader, Rawdb.numbers_deleteHeader]
  by_cases hh : h = X.hash
  · subst hh
    simp only [true_and, if_true]
    refine ⟨fun hn => (nomatch hn), fun ⟨Y, hY⟩ => ?_⟩
    split_ifs at hY with hn
    exact absurd (eq_of_headers_hash hY).2 hn
  · simp only [hh, false_and, if_false]
    exact hi h n

/-- Deleting headers in turn, each under its own hash and number, keeps the store indexed. -/
theorem deleteHeaders {db : Database} (hi : db.Indexed) (ps : List Header) :
    (HeaderChain.deleteHeaders db ps).Indexed := by
  induction ps generalizing db with
  | nil => exact hi
  | cons p ps ih => exact ih (hi.deleteHeader p)

/-- In an indexed store every stored header can be read back by its hash alone. -/
theorem readableByHash {db : Database} (hi : db.Indexed) {X : Header}
    (hX : db.headers X.hash X.number = some X) : db.ReadableByHash X :=
  ⟨(hi _ _).mpr ⟨X, hX⟩, hX⟩

end Indexed

end Database

namespace HeaderChain

/-! ### What one call can change -/

/-- A trim keeps the store indexed. -/
theorem TrimsOnly.indexed {P : Hash → Prop} {hc hc' : HeaderChain} (h : TrimsOnly P hc hc')
    (hi : hc.headerDb.Indexed) : hc'.headerDb.Indexed := by
  obtain ⟨ps, _, rfl, -⟩ := h
  exact hi.deleteHeaders ps

/-- Trimming every registered head in turn only trims. -/
theorem foldlM_trim_trimsOnly {heads : List (Option Header)} {hc hc' : HeaderChain}
    (h : heads.foldlM (fun hc head => hc.trim hc.genesisHeader head) hc = .ok hc') :
    TrimsOnly (fun _ => True) hc hc' :=
  foldlM_trim_invariant (P := TrimsOnly (fun _ => True) hc)
    (fun hP ht => hP.trans (trim_trimsOnly ht)) heads (.refl hc) h

variable (maxHeadsQueueLimit : Nat) (sorter : HeadsSorter)

/-- What `Append` can change: nothing; or the block written and deleted again; or the block
written, then headers trimmed and the registry replaced. -/
theorem append_frame {hc hc' : HeaderChain} {block : Header} {replies : AppendReplies}
    {err : Option ChainError} (h : hc.append maxHeadsQueueLimit sorter block replies = .ok (err, hc')) :
    hc' = hc ∨
      hc' = { hc with
        headerDb := Rawdb.deleteHeader (Rawdb.writeHeader hc.headerDb block) block.hash
          block.number } ∨
      ∃ hc₁ heads, TrimsOnly (fun _ => True)
        { hc with headerDb := Rawdb.writeHeader hc.headerDb block } hc₁ ∧
        hc' = { hc₁ with heads := heads } := by
  rcases append_cases maxHeadsQueueLimit sorter h with
    ⟨-, -, -, rfl⟩ | ⟨-, -, -, -, -, rfl⟩ | ⟨-, -, -, h⟩
  · exact .inl rfl
  · exact .inr (.inl rfl)
  refine .inr (.inr ?_)
  -- the collection runs on the store with the block written
  set hc₀ : HeaderChain := { hc with headerDb := Rawdb.writeHeader hc.headerDb block }
  rcases collectAndPush_cases maxHeadsQueueLimit sorter h with
    ⟨-, hpush⟩ | ⟨first, rest, -, -, ⟨hfind, -⟩ | ⟨common, hc₁, hc₂, hfind, htrim, hpush⟩⟩
  · obtain ⟨-, heads, -, rfl⟩ := pushHead_eq_ok sorter hpush
    exact ⟨hc₀, heads, .refl hc₀, rfl⟩
  all_goals
    have hfound := TrimsOnly.of_cachesOnly (P := fun _ => True)
      (cachesOnly_findCommonHeaderLoop ((ptrHash first).depth + 1) hc₀ first)
  · obtain rfl : hc' = _ := (congrArg Prod.snd hfind).symm
    exact ⟨_, _, hfound, rfl⟩
  · obtain ⟨-, heads, -, rfl⟩ := pushHead_eq_ok sorter hpush
    obtain rfl : hc₁ = _ := (congrArg Prod.snd hfind).symm
    exact ⟨hc₂, heads, hfound.trans (trim_trimsOnly htrim), rfl⟩

/-- `Append` keeps the store indexed and does not stop the chain. -/
theorem append_indexed {hc hc' : HeaderChain} {block : Header} {replies : AppendReplies}
    {err : Option ChainError} (hi : hc.headerDb.Indexed)
    (h : hc.append maxHeadsQueueLimit sorter block replies = .ok (err, hc')) :
    hc'.headerDb.Indexed ∧ hc'.running = hc.running := by
  rcases append_frame maxHeadsQueueLimit sorter h with rfl | rfl | ⟨hc₁, heads, htrim, rfl⟩
  · exact ⟨hi, rfl⟩
  · exact ⟨(hi.writeHeader block).deleteHeader block, rfl⟩
  · exact ⟨htrim.indexed (hi.writeHeader block), htrim.running⟩

variable {maxHeadsQueueLimit sorter} in
/-- Every call of a run keeps the store indexed and does not stop the chain. -/
theorem Step.indexed {hc hc' : HeaderChain} (hs : Step maxHeadsQueueLimit sorter hc hc')
    (hi : hc.headerDb.Indexed) : hc'.headerDb.Indexed ∧ hc'.running = hc.running := by
  cases hs with
  | append h => exact append_indexed maxHeadsQueueLimit sorter hi h
  | setCurrentHeader h =>
    have honly := setCurrentHeader_canonicalOnly h
    exact ⟨hi.congr honly.headers honly.numbers, honly.running⟩
  | reset h =>
    have htrim := foldlM_trim_trimsOnly h
    exact ⟨htrim.indexed hi, htrim.running⟩
  | resetWithGenesisBlock h =>
    have htrim := foldlM_trim_trimsOnly h
    exact ⟨htrim.indexed hi, htrim.running⟩
  | read h => obtain ⟨_, rfl⟩ := h; exact ⟨hi, rfl⟩

/-- The fresh chain's store is indexed. -/
theorem fresh_indexed (config : Config) (genesis : Header) :
    (fresh config genesis).headerDb.Indexed :=
  (Database.Indexed.empty.writeHeader genesis).congr rfl rfl

/-! ### Every reachable state -/

/-- In every state a run reaches, the store is indexed and the chain runs. -/
theorem reachable_indexed {config : Config} {genesis : Header} {hc : HeaderChain}
    (h : Reachable maxHeadsQueueLimit sorter config genesis hc) :
    hc.headerDb.Indexed ∧ hc.running = 0 :=
  h.invariant (P := fun hc => hc.headerDb.Indexed ∧ hc.running = 0)
    ⟨fresh_indexed config genesis, rfl⟩ fun hinv hs => (hs.indexed hinv.1).imp_right (·.trans hinv.2)

/-- In every state a run reaches, every stored header is read back by its hash alone,
whatever the caches hold. -/
theorem reachable_getHeaderByHash {config : Config} {genesis : Header} {hc : HeaderChain}
    {X : Header} (h : Reachable maxHeadsQueueLimit sorter config genesis hc)
    (hX : hc.headerDb.headers X.hash X.number = some X) :
    (hc.getHeaderByHash X.hash).1 = some X :=
  have hr := (reachable_indexed maxHeadsQueueLimit sorter h).1.readableByHash hX
  getHeaderByHash_of_stored hc X.hash hr.1 hr.2

/-- After `a1` and `a2` are appended to a fresh chain, `a1` is read back by its hash. -/
theorem reachable_getHeaderByHash_a1 :
    ∃ hc, Reachable 2 .insertion Example.config Example.genesis hc ∧
      hc.headerDb.headers Example.a1.hash Example.a1.number = some Example.a1 ∧
      (hc.getHeaderByHash Example.a1.hash).1 = some Example.a1 :=
  have hrun := ((Reachable.fresh 2 .insertion Example.config Example.genesis).step
      (@Step.append 2 .insertion _ _ Example.a1 Example.accept none (by rfl))).step
      (@Step.append 2 .insertion _ _ Example.a2 Example.accept none (by rfl))
  ⟨_, hrun, rfl, reachable_getHeaderByHash 2 .insertion hrun rfl⟩

/-- In every state a run reaches whose head and registered heads are stored, `Stop` then
`loadLastState` restores the head and the registry, nil entries included. -/
theorem reachable_loadLastState_stop {config : Config} {genesis : Header} {hc : HeaderChain}
    (h : Reachable maxHeadsQueueLimit sorter config genesis hc)
    (hcur : hc.headerDb.headers hc.currentHeader.hash hc.currentHeader.number =
      some hc.currentHeader)
    (hheads : ∀ X, some X ∈ hc.heads → hc.headerDb.headers X.hash X.number = some X) :
    hc.stop.loadLastState.currentHeader = hc.currentHeader ∧
      hc.stop.loadLastState.heads = hc.heads := by
  obtain ⟨hi, hrun⟩ := reachable_indexed maxHeadsQueueLimit sorter h
  rw [stop, if_neg (not_not.mpr hrun)]
  exact loadLastState_restores rfl (hi.readableByHash hcur) rfl
    fun X hX => hi.readableByHash (hheads X hX)

/-- After `a1` and `a2` are appended to a fresh chain, stopping and reloading restores the
genesis head and the registry of both. -/
theorem reachable_loadLastState_stop_a2 :
    ∃ hc, Reachable 2 .insertion Example.config Example.genesis hc ∧
      hc.heads = [some Example.a1, some Example.a2] ∧
      hc.headerDb.headers hc.currentHeader.hash hc.currentHeader.number = some hc.currentHeader ∧
      hc.stop.loadLastState.currentHeader = Example.genesis ∧
      hc.stop.loadLastState.heads = [some Example.a1, some Example.a2] := by
  have hrun := ((Reachable.fresh 2 .insertion Example.config Example.genesis).step
      (@Step.append 2 .insertion _ _ Example.a1 Example.accept none (by rfl))).step
      (@Step.append 2 .insertion _ _ Example.a2 Example.accept none (by rfl))
  refine ⟨_, hrun, rfl, rfl, reachable_loadLastState_stop 2 .insertion hrun rfl fun X hX => ?_⟩
  change some X ∈ [some Example.a1, some Example.a2] at hX
  simp only [List.mem_cons, Option.some_inj, List.not_mem_nil, or_false] at hX
  rcases hX with rfl | rfl <;> rfl

/-! ### Runs that only extend the head -/

/-- Only the canonical mapping, the head and the genesis matter to a good state. -/
theorem Good.congr {hc hc' : HeaderChain} (hgood : hc.Good)
    (hcan : hc'.headerDb.canonical = hc.headerDb.canonical)
    (hcur : hc'.currentHeader = hc.currentHeader) (hgen : hc'.genesisHeader = hc.genesisHeader) :
    hc'.Good :=
  ⟨fun n => by rw [hcan, hcur]; exact hgood.canonical n, by rw [hcur, hgen]; exact hgood.genesis⟩

/-- A trim keeps a good state good. -/
theorem TrimsOnly.good {P : Hash → Prop} {hc hc' : HeaderChain} (h : TrimsOnly P hc hc')
    (hgood : hc.Good) : hc'.Good :=
  hgood.congr h.canonical h.currentHeader h.genesisHeader

/-- `Append` keeps a good state good: it touches neither the canonical mapping nor the head. -/
theorem append_good {hc hc' : HeaderChain} {block : Header} {replies : AppendReplies}
    {err : Option ChainError} (hgood : hc.Good)
    (h : hc.append maxHeadsQueueLimit sorter block replies = .ok (err, hc')) : hc'.Good := by
  rcases append_frame maxHeadsQueueLimit sorter h with rfl | rfl | ⟨hc₁, heads, htrim, rfl⟩
  · exact hgood
  · exact hgood.congr rfl rfl rfl
  · exact (htrim.good (hgood.congr rfl rfl rfl)).congr rfl rfl rfl

/-- The calls of a run in which `SetCurrentHeader` only moves the head to a child of the
current head, numbered one above it. -/
inductive GrowStep : HeaderChain → HeaderChain → Prop
  | append {hc hc' : HeaderChain} {block : Header} {replies : AppendReplies}
      {err : Option ChainError} :
      hc.append maxHeadsQueueLimit sorter block replies = .ok (err, hc') → GrowStep hc hc'
  | setCurrentHeader {hc hc' : HeaderChain} {head : Header} {slices : List (Option Header)} :
      head.parentHash = hc.currentHeader.hash → head.number = hc.currentHeader.number + 1 →
      hc.setCurrentHeader head = .ok (slices, hc') → GrowStep hc hc'
  | reset {hc hc' : HeaderChain} : hc.reset = .ok hc' → GrowStep hc hc'
  | resetWithGenesisBlock {hc hc' : HeaderChain} {genesis : Header} :
      hc.resetWithGenesisBlock genesis = .ok hc' → GrowStep hc hc'
  | read {hc hc' : HeaderChain} : CachesOnly hc hc' → GrowStep hc hc'

variable {maxHeadsQueueLimit sorter}

/-- Such calls are calls of a run, so such runs are runs. -/
theorem GrowStep.step {hc hc' : HeaderChain} (hs : GrowStep maxHeadsQueueLimit sorter hc hc') :
    Step maxHeadsQueueLimit sorter hc hc' := by
  cases hs with
  | append h => exact .append h
  | setCurrentHeader _ _ h => exact .setCurrentHeader h
  | reset h => exact .reset h
  | resetWithGenesisBlock h => exact .resetWithGenesisBlock h
  | read h => exact .read h

/-- Every such call keeps a good state good. -/
theorem GrowStep.good {hc hc' : HeaderChain} (hs : GrowStep maxHeadsQueueLimit sorter hc hc')
    (hgood : hc.Good) : hc'.Good := by
  cases hs with
  | append h => exact append_good maxHeadsQueueLimit sorter hgood h
  | setCurrentHeader hparent hnum h =>
    obtain ⟨hcan, hcur, hgen⟩ := setCurrentHeader_child_fast hparent h
    exact hgood.extend hparent hnum hcan hcur hgen
  | reset h => exact (foldlM_trim_trimsOnly h).good hgood
  | resetWithGenesisBlock h => exact (foldlM_trim_trimsOnly h).good hgood
  | read h => obtain ⟨_, rfl⟩ := h; exact hgood.congr rfl rfl rfl

/-- A fresh chain on a genesis numbered zero is good. -/
theorem fresh_good {config : Config} {genesis : Header} (hg : genesis.number = 0) :
    (fresh config genesis).Good := by
  refine ⟨fun n => ?_, ?_⟩
  · show (if n = 0 then genesis.hash else Hash.zero) =
      if n ≤ genesis.number then (genesis.hash.ancestor? (genesis.number - n)).getD .zero
      else .zero
    rw [hg]
    rcases n with _ | n
    · rfl
    · rw [if_neg (Nat.succ_ne_zero n), if_neg (Nat.not_succ_le_zero n)]
  · show genesis.hash.ancestor? genesis.number = some genesis.hash
    rw [hg, Hash.ancestor?_zero]

/-- In every state that a run reaches from a fresh chain on a genesis numbered zero, where
`SetCurrentHeader` only ever moves the head to a child of the current head, the canonical
mapping is the head's parent chain down to the genesis. -/
theorem growRun_good {config : Config} {genesis : Header} {hc : HeaderChain}
    (hg : genesis.number = 0)
    (h : Relation.ReflTransGen (GrowStep maxHeadsQueueLimit sorter) (fresh config genesis) hc) :
    hc.Good := by
  induction h with
  | refl => exact fresh_good hg
  | tail _ hs ih => exact hs.good ih

/-- Appending `a1`, moving the head to it, then the same for `a2`: the state is good, with
head `a2`. -/
theorem growRun_good_a2 :
    ∃ hc, Relation.ReflTransGen (GrowStep 2 .insertion)
        (fresh Example.config Example.genesis) hc ∧
      Example.genesis.number = 0 ∧ hc.currentHeader = Example.a2 ∧ hc.Good :=
  have hrun := (((Relation.ReflTransGen.refl.tail
      (@GrowStep.append 2 .insertion _ _ Example.a1 Example.accept none (by rfl))).tail
      (@GrowStep.setCurrentHeader 2 .insertion _ _ Example.a1 _ (by rfl) (by rfl) (by rfl))).tail
      (@GrowStep.append 2 .insertion _ _ Example.a2 Example.accept none (by rfl))).tail
      (@GrowStep.setCurrentHeader 2 .insertion _ _ Example.a2 _ (by rfl) (by rfl) (by rfl))
  ⟨_, hrun, rfl, rfl, growRun_good rfl hrun⟩

/-! ### Runs on the normal path keep the canonical chain stored -/

/-- `Append` keeps the head, the genesis and the configuration. -/
theorem append_keeps_head {hc hc' : HeaderChain} {block : Header} {replies : AppendReplies}
    {err : Option ChainError}
    (h : hc.append maxHeadsQueueLimit sorter block replies = .ok (err, hc')) :
    hc'.currentHeader = hc.currentHeader ∧ hc'.genesisHeader = hc.genesisHeader ∧
      hc'.config = hc.config := by
  rcases append_frame maxHeadsQueueLimit sorter h with rfl | rfl | ⟨hc₁, heads, htrim, rfl⟩
  · exact ⟨rfl, rfl, rfl⟩
  · exact ⟨rfl, rfl, rfl⟩
  · exact ⟨htrim.currentHeader, htrim.genesisHeader, htrim.config⟩

variable (maxHeadsQueueLimit sorter)

/-- The calls of a run on the normal path: `Append` of a well-numbered block whose body the
body chain accepts, and `SetCurrentHeader` to a stored child of the current head, numbered
one above it. -/
inductive ExtendStep : HeaderChain → HeaderChain → Prop
  | append {hc hc' : HeaderChain} {block : Header} {replies : AppendReplies}
      {err : Option ChainError} : block.hash.WellNumbered → replies.append = none →
      hc.append maxHeadsQueueLimit sorter block replies = .ok (err, hc') → ExtendStep hc hc'
  | setCurrentHeader {hc hc' : HeaderChain} {head : Header} {slices : List (Option Header)} :
      head.parentHash = hc.currentHeader.hash → head.number = hc.currentHeader.number + 1 →
      hc.headerDb.headers head.hash head.number = some head →
      hc.setCurrentHeader head = .ok (slices, hc') → ExtendStep hc hc'
  | read {hc hc' : HeaderChain} : CachesOnly hc hc' → ExtendStep hc hc'

/-- What a run on the normal path keeps: a good state on the context's genesis, a registry
of well-numbered heads, and the head's whole branch stored. -/
structure ExtendInv (hc : HeaderChain) : Prop where
  good : hc.Good
  genesis : hc.genesisHeader.hash = hc.config.genesisHashes hc.config.context
  registry : RegistryInv maxHeadsQueueLimit hc.heads
  wellNumbered : ∀ x ∈ hc.heads, (ptrHash x).WellNumbered
  branch : StoredBranch hc.headerDb.headers hc.currentHeader hc.currentHeader.number

variable {maxHeadsQueueLimit sorter}

/-- `Append` registers only old heads and the block: a registry of well-numbered heads stays
one when the block is well numbered. -/
theorem append_heads_wellNumbered {hc hc' : HeaderChain} {block : Header}
    {replies : AppendReplies} {err : Option ChainError} {hs : List Header}
    (hheads : hc.heads = hs.map some) (hwn : ∀ x ∈ hc.heads, (ptrHash x).WellNumbered)
    (hblock : block.hash.WellNumbered)
    (h : hc.append maxHeadsQueueLimit sorter block replies = .ok (err, hc')) :
    ∀ x ∈ hc'.heads, (ptrHash x).WellNumbered := by
  have hnew : ∀ l, (∀ y ∈ l, y ∈ hs) → ∀ x ∈ (sorter.sort (l ++ [block])).map some,
      (ptrHash x).WellNumbered := by
    intro l hl x hx
    obtain ⟨z, hz, rfl⟩ := List.mem_map.mp hx
    rcases List.mem_append.mp ((sorter.perm _).mem_iff.mp hz) with hz | hz
    · exact hwn _ (hheads ▸ List.mem_map_of_mem _ (hl z hz))
    · rw [List.mem_singleton.mp hz]; exact hblock
  rcases append_heads maxHeadsQueueLimit sorter hheads h with
    ⟨-, h₁⟩ | ⟨-, -, h₁⟩ | ⟨-, -, y, rest, rfl, h₁⟩ <;> rw [h₁]
  · exact hwn
  · exact hnew hs fun _ => id
  · exact hnew rest fun _ => List.mem_cons_of_mem _

/-- An `Append` of a well-numbered block whose body the body chain accepts keeps every
header canonical at its number stored. -/
theorem append_accepted_keeps_canonical {hc hc' : HeaderChain} {block X : Header}
    {replies : AppendReplies} {err : Option ChainError} (hgood : hc.Good)
    (hg : hc.genesisHeader.hash = hc.config.genesisHashes hc.config.context)
    (hwn : ∀ x ∈ hc.heads, (ptrHash x).WellNumbered) (hbody : replies.append = none)
    (hX : hc.headerDb.headers X.hash X.number = some X)
    (hcan : hc.headerDb.canonical X.number = X.hash)
    (h : hc.append maxHeadsQueueLimit sorter block replies = .ok (err, hc')) :
    hc'.headerDb.headers X.hash X.number = some X := by
  rcases append_cases maxHeadsQueueLimit sorter h with
    ⟨-, -, -, rfl⟩ | ⟨-, -, e, he, -, rfl⟩ | ⟨-, -, -, h⟩
  · exact hX
  · rw [hbody] at he; cases he
  -- the collection runs on the store with the block written, a good state still
  set hc₀ : HeaderChain := { hc with headerDb := Rawdb.writeHeader hc.headerDb block }
  have hgood₀ : hc₀.Good := ⟨hgood.1, hgood.2⟩
  exact collectAndPush_keeps_canonical maxHeadsQueueLimit sorter hgood₀ hg hwn
    (Rawdb.headers_writeHeader_of_stored hc.headerDb block hX) hcan h

/-- An `Append` on the normal path keeps the state good, the registry well numbered and the
head's branch stored. -/
theorem ExtendInv.append {hc hc' : HeaderChain} {block : Header} {replies : AppendReplies}
    {err : Option ChainError} (hinv : ExtendInv maxHeadsQueueLimit hc)
    (hwn : block.hash.WellNumbered) (hbody : replies.append = none)
    (h : hc.append maxHeadsQueueLimit sorter block replies = .ok (err, hc')) :
    ExtendInv maxHeadsQueueLimit hc' := by
  obtain ⟨hcur, hgen, hconfig⟩ := append_keeps_head h
  obtain ⟨hs, hheads, -⟩ := hinv.registry
  refine ⟨append_good maxHeadsQueueLimit sorter hinv.good h,
    by rw [hgen, hconfig]; exact hinv.genesis,
    append_registryInv maxHeadsQueueLimit sorter h hinv.registry,
    append_heads_wellNumbered hheads hinv.wellNumbered hwn h, ?_⟩
  -- the head's branch is canonical, so the collection keeps it
  rw [hcur]
  intro i hi
  obtain ⟨Y, hY, hYn, hYst⟩ := hinv.branch i hi
  exact ⟨Y, hY, hYn, append_accepted_keeps_canonical hinv.good hinv.genesis hinv.wellNumbered
    hbody hYst (hinv.good.canonical_base hY hYn) h⟩

/-- A move of the head to a stored child keeps the state good and the new head's branch
stored. -/
theorem ExtendInv.setCurrentHeader {hc hc' : HeaderChain} {head : Header}
    {slices : List (Option Header)} (hinv : ExtendInv maxHeadsQueueLimit hc)
    (hparent : head.parentHash = hc.currentHeader.hash)
    (hnum : head.number = hc.currentHeader.number + 1)
    (hst : hc.headerDb.headers head.hash head.number = some head)
    (h : hc.setCurrentHeader head = .ok (slices, hc')) : ExtendInv maxHeadsQueueLimit hc' := by
  obtain ⟨hcan, hcur, hgen⟩ := setCurrentHeader_child_fast hparent h
  have honly := setCurrentHeader_canonicalOnly h
  refine ⟨hinv.good.extend hparent hnum hcan hcur hgen, ?_, ?_, ?_, ?_⟩
  · rw [hgen, honly.config]; exact hinv.genesis
  · rw [honly.heads]; exact hinv.registry
  · rw [honly.heads]; exact hinv.wellNumbered
  · rw [honly.headers, hcur, hnum]
    exact StoredBranch.cons hst hparent hnum hinv.branch

/-- A read keeps the invariant: it touches none of the fields the invariant reads. -/
theorem ExtendInv.cachesOnly {hc hc' : HeaderChain} (hinv : ExtendInv maxHeadsQueueLimit hc)
    (h : CachesOnly hc hc') : ExtendInv maxHeadsQueueLimit hc' := by
  obtain ⟨_, rfl⟩ := h
  exact ⟨hinv.good.congr rfl rfl rfl, hinv.genesis, hinv.registry, hinv.wellNumbered, hinv.branch⟩

/-- Every call on the normal path keeps the invariant. -/
theorem ExtendStep.extendInv {hc hc' : HeaderChain}
    (hs : ExtendStep maxHeadsQueueLimit sorter hc hc') (hinv : ExtendInv maxHeadsQueueLimit hc) :
    ExtendInv maxHeadsQueueLimit hc' := by
  cases hs with
  | append hwn hbody h => exact hinv.append hwn hbody h
  | setCurrentHeader hparent hnum hst h => exact hinv.setCurrentHeader hparent hnum hst h
  | read h => exact hinv.cachesOnly h

/-- A fresh chain on the context's genesis, numbered zero, meets the invariant. -/
theorem fresh_extendInv {config : Config} {genesis : Header} (hg : genesis.number = 0)
    (hctx : genesis.hash = config.genesisHashes config.context) :
    ExtendInv maxHeadsQueueLimit (fresh config genesis) where
  good := fresh_good hg
  genesis := hctx
  registry := ⟨[], rfl, Nat.zero_le _, List.sorted_nil⟩
  wellNumbered _ h := nomatch h
  branch i hi := by
    obtain rfl : i = 0 := by simpa [fresh, hg] using hi
    exact ⟨genesis, Hash.ancestor?_zero _, rfl, by simp [fresh]⟩

/-- Under the invariant every canonical entry up to the head names a header stored under it:
the head's branch is stored and canonical. -/
theorem ExtendInv.canonical_stored {hc : HeaderChain} (hinv : ExtendInv maxHeadsQueueLimit hc) :
    ∀ n ≤ hc.currentHeader.number, ∃ X : Header,
      hc.headerDb.canonical n = X.hash ∧ hc.headerDb.headers X.hash n = some X := by
  intro n hn
  obtain ⟨Y, hY, hYn, hYst⟩ := hinv.branch (hc.currentHeader.number - n) (Nat.sub_le _ _)
  obtain rfl : Y.number = n := by omega
  exact ⟨Y, hinv.good.canonical_base hY hYn, hYst⟩

/-- In every state that a run on the normal path reaches from a fresh chain on the context's
genesis, numbered zero — appends of well-numbered blocks whose bodies the body chain
accepts, and moves of the head to a stored child numbered one above it — the state is good
and every canonical entry up to the head names a header stored under it. -/
theorem extendRun_canonical_stored {config : Config} {genesis : Header} {hc : HeaderChain}
    (hg : genesis.number = 0) (hctx : genesis.hash = config.genesisHashes config.context)
    (h : Relation.ReflTransGen (ExtendStep maxHeadsQueueLimit sorter) (fresh config genesis) hc) :
    hc.Good ∧ ∀ n ≤ hc.currentHeader.number, ∃ X : Header,
      hc.headerDb.canonical n = X.hash ∧ hc.headerDb.headers X.hash n = some X := by
  have hinv : ExtendInv maxHeadsQueueLimit hc := by
    induction h with
    | refl => exact fresh_extendInv hg hctx
    | tail _ hs ih => exact hs.extendInv ih
  exact ⟨hinv.good, hinv.canonical_stored⟩

/-- Appending `a1`, moving the head to it, then the same for `a2`: the state is good and its
canonical entries name stored headers. -/
theorem extendRun_canonical_stored_a2 :
    ∃ hc, Relation.ReflTransGen (ExtendStep 2 .insertion)
        (fresh Example.config Example.genesis) hc ∧
      Example.genesis.number = 0 ∧
      Example.genesis.hash = Example.config.genesisHashes Example.config.context ∧
      hc.currentHeader = Example.a2 ∧ hc.Good ∧ ∀ n ≤ hc.currentHeader.number, ∃ X : Header,
        hc.headerDb.canonical n = X.hash ∧ hc.headerDb.headers X.hash n = some X :=
  have hwn₁ : Example.a1.hash.WellNumbered := by
    simp [Example.a1, Example.genesis, Header.hash, Hash.number?]
  have hwn₂ : Example.a2.hash.WellNumbered := by
    simp [Example.a2, Example.a1, Example.genesis, Header.hash, Hash.number?]
  have hrun := (((Relation.ReflTransGen.refl.tail
      (@ExtendStep.append 2 .insertion _ _ Example.a1 Example.accept none hwn₁ rfl (by rfl))).tail
      (@ExtendStep.setCurrentHeader 2 .insertion _ _ Example.a1 _ (by rfl) (by rfl) (by rfl)
        (by rfl))).tail
      (@ExtendStep.append 2 .insertion _ _ Example.a2 Example.accept none hwn₂ rfl (by rfl))).tail
      (@ExtendStep.setCurrentHeader 2 .insertion _ _ Example.a2 _ (by rfl) (by rfl) (by rfl)
        (by rfl))
  ⟨_, hrun, rfl, rfl, rfl, extendRun_canonical_stored rfl rfl hrun⟩

end HeaderChain

end QuaiHeaderChain
