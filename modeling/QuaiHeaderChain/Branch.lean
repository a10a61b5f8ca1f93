import QuaiHeaderChain.Types

/-!
# Stored branches

A header's branch: the header and its first ancestors, each stored under its own number,
one below its child's, as the walks of `core/headerchain.go` read them through `GetHeader`
with `Number - 1`. The walks' lemmas state what they do on such branches.
-/

namespace QuaiHeaderChain

/-- `X` and its first `j` ancestors are stored, each under its own number, one below its
child's. -/
def StoredBranch (headers : Hash → Nat → Option Header) (X : Header) (j : Nat) : Prop :=
  ∀ i ≤ j, ∃ Y : Header, X.hash.ancestor? i = some Y.hash ∧ Y.number + i = X.number ∧
    headers Y.hash Y.number = some Y

namespace StoredBranch

variable {headers : Hash → Nat → Option Header} {X : Header} {j : Nat}

/-- The head of a branch is stored. -/
theorem self (h : StoredBranch headers X j) : headers X.hash X.number = some X := by
  obtain ⟨Y, hY, hnum, hst⟩ := h 0 (Nat.zero_le _)
  rw [Hash.ancestor?_zero, Option.some_inj] at hY
  obtain rfl := Header.hash_inj hY
  exact hst

/-- A branch of length `j + 1` is its head's parent, stored one number below, with a branch
of length `j`. -/
theorem parent (h : StoredBranch headers X (j + 1)) :
    ∃ Y : Header, Y.hash = X.parentHash ∧ Y.number + 1 = X.number ∧
      headers X.parentHash (prevNumber X.number) = some Y ∧ StoredBranch headers Y j := by
  obtain ⟨Y, hY, hnum, hst⟩ := h 1 (by omega)
  rw [Header.ancestor?_hash_succ, Hash.ancestor?_zero, Option.some_inj] at hY
  refine ⟨Y, hY.symm, hnum, ?_, fun i hi => ?_⟩
  · rw [hY, prevNumber_of_pos (by omega), ← hnum, Nat.add_sub_cancel]
    exact hst
  · obtain ⟨Z, hZ, hZnum, hZst⟩ := h (i + 1) (by omega)
    rw [Header.ancestor?_hash_succ, hY] at hZ
    exact ⟨Z, hZ, by omega, hZst⟩

/-- The header `j` generations back ends the branch. -/
theorem last (h : StoredBranch headers X j) {C : Header} (hC : X.hash.ancestor? j = some C.hash) :
    C.number + j = X.number ∧ headers C.hash C.number = some C := by
  obtain ⟨Y, hY, hnum, hst⟩ := h j (Nat.le_refl j)
  obtain rfl := Header.hash_inj (Option.some_inj.mp (hC.symm.trans hY))
  exact ⟨hnum, hst⟩

/-- One generation down a branch based on `C`: the parent's branch reaches `C` one generation
sooner. -/
theorem down (h : StoredBranch headers X (j + 1)) {C : Header}
    (hC : X.hash.ancestor? (j + 1) = some C.hash) :
    ∃ Y : Header, Y.hash = X.parentHash ∧ Y.number + 1 = X.number ∧
      headers X.parentHash (prevNumber X.number) = some Y ∧ StoredBranch headers Y j ∧
      Y.hash.ancestor? j = some C.hash := by
  obtain ⟨Y, hYh, hYn, hYst, hYbr⟩ := h.parent
  exact ⟨Y, hYh, hYn, hYst, hYbr, by rwa [Header.ancestor?_hash_succ, ← hYh] at hC⟩

/-- A stored header whose parent heads a stored branch of length `j`, numbered one below it,
heads a stored branch of length `j + 1`. -/
theorem cons {Y : Header} (hX : headers X.hash X.number = some X) (hp : X.parentHash = Y.hash)
    (hn : X.number = Y.number + 1) (hY : StoredBranch headers Y j) :
    StoredBranch headers X (j + 1)
  | 0, _ => ⟨X, Hash.ancestor?_zero _, rfl, hX⟩
  | i + 1, hi =>
    let ⟨Z, hZ, hZn, hZst⟩ := hY i (by omega)
    ⟨Z, by rw [Header.ancestor?_hash_succ, hp]; exact hZ, by omega, hZst⟩

/-- The header `j` generations back on a branch heads the rest of it. -/
theorem drop {k : Nat} (h : StoredBranch headers X (j + k)) {C : Header}
    (hC : X.hash.ancestor? j = some C.hash) : StoredBranch headers C k := by
  intro m hm
  obtain ⟨Y, hY, hYn, hst⟩ := h (j + m) (by omega)
  obtain ⟨Z, hZ, hZn, -⟩ := h j (by omega)
  obtain rfl := Header.hash_inj (Option.some_inj.mp (hC.symm.trans hZ))
  rw [Hash.ancestor?_add, hC, Option.some_bind] at hY
  exact ⟨Y, hY, by omega, hst⟩

/-- A branch down to `C` followed by `C`'s own branch is one branch. -/
theorem trans {k : Nat} (h : StoredBranch headers X j) {C : Header}
    (hC : X.hash.ancestor? j = some C.hash) (hCk : StoredBranch headers C k) :
    StoredBranch headers X (j + k) := by
  intro i hi
  by_cases hij : i ≤ j
  · exact h i hij
  · obtain ⟨m, rfl⟩ : ∃ m, i = j + m := ⟨i - j, by omega⟩
    obtain ⟨Y, hY, hYn, hst⟩ := hCk m (by omega)
    have hCn := (h.last hC).1
    refine ⟨Y, ?_, by omega, hst⟩
    rw [Hash.ancestor?_add, hC, Option.some_bind]
    exact hY

end StoredBranch

/-- The first `j` headers of `X`'s stored branch, `X` first, as the walk reads them. -/
def branchHeaders (headers : Hash → Nat → Option Header) : Header → Nat → List Header
  | _, 0 => []
  | X, j + 1 => X :: match headers X.parentHash (prevNumber X.number) with
    | some Y => branchHeaders headers Y j
    | none => []

/-- One step down a stored parent. -/
theorem branchHeaders_succ {headers : Hash → Nat → Option Header} {X Y : Header} {j : Nat}
    (hY : headers X.parentHash (prevNumber X.number) = some Y) :
    branchHeaders headers X (j + 1) = X :: branchHeaders headers Y j := by
  simp only [branchHeaders, hY]

/-- A header of a stored branch's list is one of its first headers, stored. -/
theorem mem_branchHeaders {headers : Hash → Nat → Option Header} {Y X : Header} {b : Nat}
    (hY : StoredBranch headers Y b) (hX : X ∈ branchHeaders headers Y b) :
    ∃ i < b, Y.hash.ancestor? i = some X.hash ∧ X.number + i = Y.number ∧
      headers X.hash X.number = some X := by
  induction b generalizing Y with
  | zero => cases hX
  | succ b ih =>
    obtain ⟨Y', hY'h, hY'n, hY'st, hY'br⟩ := hY.parent
    rw [branchHeaders_succ hY'st] at hX
    rcases List.mem_cons.mp hX with rfl | hX
    · exact ⟨0, Nat.succ_pos _, Hash.ancestor?_zero _, rfl, hY.self⟩
    · obtain ⟨i, hi, hanc, hnum, hst⟩ := ih hY'br hX
      refine ⟨i + 1, by omega, ?_, by omega, hst⟩
      rw [Header.ancestor?_hash_succ, ← hY'h]
      exact hanc

/-- A header `k + 1` generations above another is not that header. -/
theorem Header.ne_of_ancestor?_succ {X C : Header} {k : Nat}
    (h : X.hash.ancestor? (k + 1) = some C.hash) : X.hash ≠ C.hash := by
  intro he
  have := Hash.depth_of_ancestor? h
  rw [he] at this
  omega

/-- A header numbered above zero is not the genesis a configuration names. -/
theorem Header.hash_ne_of_number_pos {X : Header} {g : Hash} (hg : g.number? = some 0)
    (hX : 0 < X.number) : X.hash ≠ g := by
  rintro rfl
  rw [Header.number?_hash, Option.some_inj] at hg
  omega

end QuaiHeaderChain
