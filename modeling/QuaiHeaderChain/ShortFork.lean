import QuaiHeaderChain.Fork

/-!
# The reorg walk when the new head stands higher

`core/headerchain.go:246-316` when the old head stands `a` generations above the common
header and the new head `b > a`. The walk unwinds the old branch and stacks the new one in
step, so after `a` rounds the old side reaches the common header while the new side is
still `b - a` generations above it. Then either the genesis check ends the walk (the common
header is the genesis) or the collecting loop starts; that loop reads a parent before it
pushes it, so the header the walk stands on is never pushed. Either way the new branch's
header at height `b - a` above the common header is never replayed, its canonical entry
stays empty, and the state is not good: the two sides of `setCurrentHeader_reorg_good`.
-/

namespace QuaiHeaderChain

namespace HeaderChain

/-- The collecting walk from the header `d` generations back on the path of `h`, above the
common header `j` generations back, pushes only headers further back than `d` and no
further than the common header. -/
theorem collectLoop_pushes {h : Hash} {C : Header} {d j fuel : Nat} {hc hc' : HeaderChain}
    {y : Option Header} {hashStack stack : List (Option Header)}
    (hy : ∀ z ∈ y, h.ancestor? d = some z.hash) (hdj : d ≤ j) (hC : h.ancestor? j = some C.hash)
    (hrun : collectLoop fuel hc (some C) y hashStack = .ok (stack, hc')) :
    ∀ z, some z ∈ stack → some z ∈ hashStack ∨ ∃ i, d < i ∧ i ≤ j ∧ h.ancestor? i = some z.hash := by
  induction fuel generalizing hc y d hashStack with
  | zero => cases hrun; exact fun z hz => .inl hz
  | succ fuel ih =>
    unfold collectLoop at hrun
    split at hrun
    · cases hrun; exact fun z hz => .inl hz
    · next hne =>
      split at hrun
      · cases hrun
      · next n =>
        have hd := hy n rfl
        have hdj' : d < j := by
          rcases Nat.eq_or_lt_of_le hdj with rfl | hlt
          · exact absurd (Option.some_inj.mp (hd.symm.trans hC)) hne
          · exact hlt
        have hnew := ancestor?_succ_of_getHeader hd hc (prevNumber n.number)
        -- the parent just pushed is one generation further back
        have hpush : ∀ z, some z ∈ hashStack ++ [(hc.getHeader n.parentHash (prevNumber n.number)).1] →
            some z ∈ hashStack ∨ ∃ i, d < i ∧ i ≤ j ∧ h.ancestor? i = some z.hash := by
          intro z hz
          rcases List.mem_append.mp hz with hz | hz
          · exact .inl hz
          · exact .inr ⟨d + 1, by omega, by omega, hnew z (List.mem_singleton.mp hz).symm⟩
        dsimp only at hrun
        split at hrun
        · cases hrun; exact hpush
        · split at hrun
          · cases hrun; exact hpush
          · intro z hz
            rcases ih hnew (by omega) hrun z hz with hz | ⟨i, hi, hij, hzi⟩
            · exact hpush z hz
            · exact .inr ⟨i, by omega, hij, hzi⟩

/-- The main loop from the old header `X`, `a` generations above the common header `C`, and
the new header `Y`, `b > a` generations above it, on stored branches: it pushes no header
numbered `a` below `Y`, and deletes the canonical entries above `C` up to `X`. -/
theorem reorgLoop_short {hc hc' : HeaderChain} {C X Y : Header} {a b fuel : Nat}
    {hashStack sliceHeaders stack slices : List (Option Header)}
    (hgen : (hc.config.genesisHashes 0).number? = some 0)
    (hX : StoredBranch hc.headerDb.headers X a) (hXC : X.hash.ancestor? a = some C.hash)
    (hY : StoredBranch hc.headerDb.headers Y b) (hYC : Y.hash.ancestor? b = some C.hash)
    (hab : a < b) (hfuel : a < fuel)
    (hrun : reorgLoop fuel hc (some C) X (some Y) hashStack sliceHeaders =
      .ok (stack, slices, hc')) :
    (∀ z, some z ∈ stack → some z ∈ hashStack ∨ z.number + a ≠ Y.number) ∧
      ∀ n, hc'.headerDb.canonical n =
        if C.number < n ∧ n ≤ X.number then .zero else hc.headerDb.canonical n := by
  induction a generalizing hc X Y b fuel hashStack sliceHeaders with
  | zero =>
    obtain rfl := Header.hash_inj (Option.some_inj.mp (Hash.ancestor?_zero X.hash ▸ hXC))
    obtain ⟨fuel, rfl⟩ : ∃ f, fuel = f + 1 := ⟨fuel - 1, by omega⟩
    unfold reorgLoop at hrun
    rw [ptrHash_some, if_pos rfl] at hrun
    split at hrun
    · cases hrun
    · next hcollect =>
      cases hrun
      refine ⟨fun z hz => ?_, fun n => ?_⟩
      · -- the collecting walk pushes only strict ancestors of `Y`
        rcases collectLoop_pushes (start_on_path (some Y)) (Nat.zero_le b) hYC hcollect z hz with
          hz | ⟨i, hi, hib, hzi⟩
        · exact .inl hz
        · obtain ⟨W, hW, hWn, -⟩ := hY i hib
          obtain rfl := Header.hash_inj (Option.some_inj.mp (hzi.symm.trans hW))
          exact .inr (by omega)
      · rw [if_neg (fun h => absurd h.2 (not_le.mpr h.1)),
          (cachesOnly_collectLoop hcollect).headerDb]
  | succ a ih =>
    obtain ⟨fuel, rfl⟩ : ∃ f, fuel = f + 1 := ⟨fuel - 1, by omega⟩
    obtain ⟨b, rfl⟩ : ∃ b', b = b' + 1 := ⟨b - 1, by omega⟩
    obtain ⟨X', -, hX'n, hX'st, hX'br, hX'C⟩ := hX.down hXC
    obtain ⟨Y', -, hY'n, hY'st, hY'br, hY'C⟩ := hY.down hYC
    have hCX' := (hX'br.last hX'C).1
    obtain ⟨hc₁, hstep, hcan₁, hround⟩ := reorgLoop_round (Header.ne_of_ancestor?_succ hXC)
      (Header.ne_of_ancestor?_succ hYC) hX'st hY'st
    -- `Y` itself is pushed, `a + 1` above the header the walk skips
    have hpushY : ∀ z, some z ∈ hashStack ++ [some Y] →
        some z ∈ hashStack ∨ z.number + (a + 1) ≠ Y.number := by
      intro z hz
      rcases List.mem_append.mp hz with hz | hz
      · exact .inl hz
      · obtain rfl := Option.some_inj.mp (List.mem_singleton.mp hz)
        exact .inr (by omega)
    rw [hround] at hrun
    by_cases hg : X'.hash = hc.config.genesisHashes 0
    · -- the old side reached the genesis, which is the common header: the walk ends
      rw [if_pos hg] at hrun
      cases hrun
      rw [← hg, Header.number?_hash, Option.some_inj] at hgen
      refine ⟨hpushY, fun n => ?_⟩
      rw [hcan₁]
      exact unwind_one _ (by omega)
    · rw [if_neg hg] at hrun
      split at hrun
      · cases hrun
      · next sl' _ =>
        obtain ⟨hstack, hcan⟩ := @ih hc₁ X' Y' b fuel (hashStack ++ [some Y]) sl'
          (hstep.config ▸ hgen) (hstep.headers ▸ hX'br) hX'C (hstep.headers ▸ hY'br) hY'C
          (by omega) (by omega) hrun
        refine ⟨fun z hz => ?_, fun n => ?_⟩
        · rcases hstack z hz with hz | hz
          · exact hpushY z hz
          · exact .inr (by omega)
        · rw [hcan, hcan₁]
          exact unwind_succ _ hX'n (by omega)

/-- The replay writes canonical entries only at the numbers of the headers it replays. -/
theorem replay_canonical_of_not_mem {hc hc' : HeaderChain}
    {stack sliceHeaders slices : List (Option Header)} {m : Nat}
    (h : replay hc stack sliceHeaders = .ok (slices, hc'))
    (hm : ∀ z, some z ∈ stack → z.number ≠ m) :
    hc'.headerDb.canonical m = hc.headerDb.canonical m := by
  induction stack generalizing hc sliceHeaders with
  | nil => cases h; rfl
  | cons x rest ih =>
    cases x with
    | none => cases h
    | some x =>
      unfold replay at h
      dsimp only at h
      split at h
      · cases h
      · rw [ih h (fun z hz => hm z (List.mem_cons_of_mem _ hz))]
        exact if_neg fun he => hm x (List.mem_cons_self _ _) he.symm

/-- A reorg from a good state to a new head `N`, `b` generations above the common header `C`,
where the old head stands only `a < b` generations above it, with both branches stored,
leaves the canonical entry of `N`'s ancestor `a` generations back empty when it returns: the
state is not good. -/
theorem setCurrentHeader_short_fork {hc hc' : HeaderChain} {N C : Header} {a b : Nat}
    {slices : List (Option Header)}
    (hgood : hc.Good) (hgen : (hc.config.genesisHashes 0).number? = some 0)
    (hgenc : (hc.config.genesisHashes hc.config.context).number? = some 0)
    (hP : StoredBranch hc.headerDb.headers hc.currentHeader a)
    (hPC : hc.currentHeader.hash.ancestor? a = some C.hash)
    (hN : StoredBranch hc.headerDb.headers N b) (hNC : N.hash.ancestor? b = some C.hash)
    (hfork : ∀ i < b, b ≤ a + i →
      N.hash.ancestor? i ≠ hc.currentHeader.hash.ancestor? (a + i - b))
    (hnumC : hc.headerDb.numbers C.hash = some C.number) (hab : a < b)
    (hchild : hc.currentHeader.hash ≠ N.parentHash)
    (h : hc.setCurrentHeader N = .ok (slices, hc')) :
    hc'.headerDb.canonical (C.number + (b - a)) = .zero ∧ ¬ hc'.Good := by
  have hCP := (hP.last hPC).1
  have hCN := (hN.last hNC).1
  have hdP := Hash.depth_of_ancestor? hPC
  have hdN := Hash.depth_of_ancestor? hNC
  have hdC := Header.depth_hash C
  have hcur : hc'.currentHeader = N := (setCurrentHeader_canonicalOnly h).currentHeader
  have hm : hc'.headerDb.canonical (C.number + (b - a)) = .zero := by
    unfold setCurrentHeader at h
    dsimp only at h
    rw [if_neg hchild] at h
    unfold findCommonHeader at h
    -- the walk from `N` meets the old branch at `C`
    obtain ⟨hc₁, hfind, k, rfl⟩ := @findCommonHeaderLoop_branch
      { hc with currentHeader := N, headerDb := Rawdb.writeHeadBlockHash hc.headerDb N.hash } C N
      b ((ptrHash (some N)).depth + 1) hN hNC
      (hgood.not_canonical_fork hgenc hP hN hfork hCP hCN) (hgood.canonical_base hPC hCP) hnumC
      (by simp only [ptrHash_some]; omega)
    rw [hfind] at h
    dsimp only at h
    split at h
    · cases h
    · next stack slices₁ hc₂ hrun =>
      obtain ⟨hstack, hcan₂⟩ := @reorgLoop_short
        { hc with
          currentHeader := N
          headerDb := Rawdb.writeHeadBlockHash hc.headerDb N.hash
          caches := k }
        hc₂ C hc.currentHeader N a b hc.currentHeader.hash.depth [] [none, none, none] stack slices₁
        hgen hP hPC hN hNC hab (by omega) hrun
      -- neither the loop nor the replay writes the entry
      rw [replay_canonical_of_not_mem h fun z hz => by
          rcases hstack z (List.mem_reverse.mp hz) with hz | hz
          · cases hz
          · omega,
        hcan₂]
      split_ifs with hle
      · rfl
      · show hc.headerDb.canonical _ = _
        rw [hgood.canonical, if_neg (by omega)]
  refine ⟨hm, fun hg => ?_⟩
  obtain ⟨W, hW, hWn, -⟩ := hN a hab.le
  have hcanW := hg.canonical (C.number + (b - a))
  rw [hm, hcur, if_pos (by omega), show N.number - (C.number + (b - a)) = a by omega, hW] at hcanW
  exact Header.hash_ne_zero W hcanW.symm

end HeaderChain

namespace Example

open HeaderChain

/-- Head `a1` over a store that also holds branch `b` up to `b2`. -/
def headA1B2 : HeaderChain := chainOf [genesis, a1, b1, b2] [genesis, a1] a1

/-- `headA1B2` is good: its canonical entries are `a1`'s parent chain. -/
theorem good_headA1B2 : headA1B2.Good where
  canonical n := by
    rcases n with _ | _ | n <;>
      simp [headA1B2, chainOf, a1, genesis, Header.hash, Hash.ancestor?, Database.empty]
  genesis := rfl

/-- `a1` is stored down to the genesis. -/
theorem storedBranch_a1 : StoredBranch headA1B2.headerDb.headers a1 1
  | 0, _ => ⟨a1, rfl, rfl, rfl⟩
  | 1, _ => ⟨genesis, rfl, rfl, rfl⟩
  | _ + 2, h => absurd h (by omega)

/-- `b2` is stored down to the genesis. -/
theorem storedBranch_b2 : StoredBranch headA1B2.headerDb.headers b2 2
  | 0, _ => ⟨b2, rfl, rfl, rfl⟩
  | 1, _ => ⟨b1, rfl, rfl, rfl⟩
  | 2, _ => ⟨genesis, rfl, rfl, rfl⟩
  | _ + 3, h => absurd h (by omega)

/-- From head `a1` to `b2`, one generation above the genesis against two: the genesis check
ends the walk once the old side reaches the genesis, and `b1` is never replayed. -/
theorem setCurrentHeader_short_fork_b2 :
    headA1B2.Good ∧ StoredBranch headA1B2.headerDb.headers a1 1 ∧
      StoredBranch headA1B2.headerDb.headers b2 2 ∧
      ∃ slices hc', headA1B2.setCurrentHeader b2 = .ok (slices, hc') ∧
        hc'.headerDb.canonical 1 = .zero ∧ ¬ hc'.Good :=
  ⟨good_headA1B2, storedBranch_a1, storedBranch_b2, _, _, rfl,
    @setCurrentHeader_short_fork headA1B2 _ b2 genesis 1 2 _ good_headA1B2 rfl rfl
      storedBranch_a1 rfl storedBranch_b2 rfl (by decide) rfl (by decide) (by decide) rfl⟩

end Example

end QuaiHeaderChain
