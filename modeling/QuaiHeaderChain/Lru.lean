import Mathlib.Data.List.Basic

/-!
# The `golang-lru` cache

`lru.New(size)` as `headerCache` and `numberCache` use it (`core/headerchain.go:100-102`).
The library is outside this repository; this follows its `simplelru.LRU`: entries are
kept most-recent-first, `Get` moves a hit to the front and leaves the cache alone on a
miss, `Add` puts the key in front and drops the oldest entry once the cache holds more
than `size` entries, `Contains` reads without touching the order.
-/

namespace QuaiHeaderChain

/-- A bounded cache, most recently used entry first. -/
structure Lru (K V : Type) where
  size : Nat
  entries : List (K × V)

namespace Lru

variable {K V : Type}

/-- `lru.New(size)`: an empty cache. -/
def new (size : Nat) : Lru K V := ⟨size, []⟩

/-- Every cached entry relates its key to its value by `P`. -/
def Sound (P : K → V → Prop) (c : Lru K V) : Prop := ∀ e ∈ c.entries, P e.1 e.2

/-- An empty cache is sound for any relation. -/
theorem sound_new {P : K → V → Prop} (size : Nat) : Sound P (new size : Lru K V) := by
  simp [Sound, new]

variable [DecidableEq K]

/-- The value cached under a key, read without touching the order. -/
def peek (c : Lru K V) (k : K) : Option V :=
  (c.entries.find? (·.1 = k)).map Prod.snd

/-- `Contains`: whether a key is cached, without touching the order. -/
def contains (c : Lru K V) (k : K) : Bool := c.entries.any (·.1 = k)

/-- `Get`: a hit is returned and moved to the front; a miss changes nothing. -/
def get (c : Lru K V) (k : K) : Option V × Lru K V :=
  match c.peek k with
  | some v => (some v, { c with entries := (k, v) :: c.entries.filter (·.1 ≠ k) })
  | none => (none, c)

/-- `Add`: the entry goes in front, replacing the key's old entry; the oldest entry is
dropped when that makes the cache larger than its size. -/
def add (c : Lru K V) (k : K) (v : V) : Lru K V :=
  let es := (k, v) :: c.entries.filter (·.1 ≠ k)
  { c with entries := if c.size < es.length then es.dropLast else es }

variable {P : K → V → Prop}

/-- A `Get` returns exactly what `peek` sees. -/
@[simp] theorem get_fst (c : Lru K V) (k : K) : (c.get k).1 = c.peek k := by
  unfold get
  split <;> simp_all

/-- A cached value is related to its key. -/
theorem Sound.peek {c : Lru K V} (hc : Sound P c) {k : K} {v : V}
    (h : c.peek k = some v) : P k v := by
  simp only [Lru.peek, Option.map_eq_some'] at h
  obtain ⟨⟨k', v'⟩, hf, rfl⟩ := h
  have hk : k' = k := by simpa using List.find?_some hf
  subst hk
  exact hc _ (List.mem_of_find?_eq_some hf)

/-- `Get` keeps the cache sound. -/
theorem Sound.get {c : Lru K V} (hc : Sound P c) (k : K) : Sound P (c.get k).2 := by
  unfold Lru.get
  split
  · next v hv =>
    intro e he
    simp only [List.mem_cons, List.mem_filter] at he
    rcases he with rfl | ⟨he, -⟩
    · exact hc.peek hv
    · exact hc e he
  · exact hc

/-- `Add` of a related entry keeps the cache sound. -/
theorem Sound.add {c : Lru K V} (hc : Sound P c) {k : K} {v : V} (hkv : P k v) :
    Sound P (c.add k v) := by
  have hes : ∀ e ∈ (k, v) :: c.entries.filter (·.1 ≠ k), P e.1 e.2 := by
    intro e he
    simp only [List.mem_cons, List.mem_filter] at he
    rcases he with rfl | ⟨he, -⟩
    · exact hkv
    · exact hc e he
  intro e he
  simp only [Lru.add] at he
  split at he
  · exact hes e (List.dropLast_subset _ he)
  · exact hes e he

end Lru

end QuaiHeaderChain
