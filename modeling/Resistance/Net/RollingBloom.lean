import Resistance.Primitives.Serialize

/-! The rolling filter of `bloom.cpp`: two Bloom filters that are cleared in turn, so that one of
them has absorbed the most recent keys.
-/

namespace Resistance.Net

open List Primitives

/-- The bits of `vData` after a loop that sets some of them. -/
def setBits (vData : List Bool) (indices : List Nat) : List Bool :=
  indices.foldl (fun vData nIndex => vData.set nIndex true) vData

theorem setBits_spec (vData : List Bool) (indices : List Nat)
    : (setBits vData indices).length = vData.length
      ∧ ∀ j < vData.length, vData.getD j false = true ∨ j ∈ indices
        → (setBits vData indices).getD j false = true := by
  induction indices generalizing vData with
  | nil => simp [setBits]
  | cons i indices ih =>
    obtain ⟨length, kept⟩ := ih (vData.set i true)
    rw [length_set] at length kept
    refine ⟨length, fun j bound known => kept j bound ?_⟩
    by_cases same : i = j
    · simp [same, bound]
    · simpa [same, Ne.symm same] using known

/-- A filter of positive size, with the bits of `vData`. -/
structure CBloomFilter where
  vData : List Bool
  isFull : Bool
  isEmpty : Bool
  nHashFuncs : UInt32
  nTweak : UInt32
  positive : 0 < vData.length

/-- `MurmurHash3` of a seed and a key. -/
abbrev Murmur := UInt32 → Bytes → UInt32

namespace CBloomFilter

/-- `Hash` for each of the hash functions. -/
def indices (murmurHash3 : Murmur) (filter : CBloomFilter) (vKey : Bytes) : List Nat :=
  (range filter.nHashFuncs.toNat).map fun nHashNum =>
    (murmurHash3 (UInt32.ofNat nHashNum * 0xFBA4C795 + filter.nTweak) vKey).toNat
      % filter.vData.length

def insert (murmurHash3 : Murmur) (vKey : Bytes) (filter : CBloomFilter) : CBloomFilter :=
  if filter.isFull then filter
  else { filter with
    vData := setBits filter.vData (filter.indices murmurHash3 vKey)
    isEmpty := false
    positive := filter.positive.trans_eq (setBits_spec _ _).1.symm }

def contains (murmurHash3 : Murmur) (vKey : Bytes) (filter : CBloomFilter) : Bool :=
  if filter.isFull then true
  else if filter.isEmpty then false
  else (filter.indices murmurHash3 vKey).all fun nIndex => filter.vData.getD nIndex false

def clear (filter : CBloomFilter) : CBloomFilter :=
  { filter with
    vData := replicate filter.vData.length false
    isFull := false
    isEmpty := true
    positive := filter.positive.trans_eq length_replicate.symm }

def reset (nNewTweak : UInt32) (filter : CBloomFilter) : CBloomFilter :=
  { filter.clear with nTweak := nNewTweak }

variable {murmurHash3 : Murmur} {filter : CBloomFilter} {vKey key : Bytes}

/-- A filter contains what is inserted, and what it contained. -/
theorem contains_insert (known : key = vKey ∨ filter.contains murmurHash3 key = true)
    : (filter.insert murmurHash3 vKey).contains murmurHash3 key = true := by
  obtain ⟨length, set⟩ := setBits_spec filter.vData (filter.indices murmurHash3 vKey)
  unfold insert
  split
  next full => simp [contains, full]
  next notFull =>
    simp only [contains, notFull, Bool.false_eq_true, if_false, all_eq_true, indices, length] at *
    intro nIndex mem
    refine set nIndex ?_ ?_
    · obtain ⟨i, -, rfl⟩ := mem_map.mp mem
      exact Nat.mod_lt _ filter.positive
    rcases known with rfl | found
    · exact .inr mem
    · split at found
      · cases found
      · exact .inl (all_eq_true.mp found _ mem)

end CBloomFilter

/-- The counters are 32 bits wide. -/
structure CRollingBloomFilter where
  nBloomSize : Nat
  nInsertions : Nat
  b1 : CBloomFilter
  b2 : CBloomFilter

namespace CRollingBloomFilter

variable (murmurHash3 : Murmur) (vKey : Bytes) (nNewTweak : UInt32) (rolling : CRollingBloomFilter)

/-- `nNewTweak` is what `GetRand` returns. -/
def reset : CRollingBloomFilter :=
  { rolling with
    b1 := rolling.b1.reset nNewTweak
    b2 := rolling.b2.reset nNewTweak
    nInsertions := 0 }

/-- The constructor. The size of the filters and the number of hash functions come from
`nElements * 2` and the rate of false positives, with floating point numbers.
-/
def create (nElements : UInt32) (b : CBloomFilter) : CRollingBloomFilter :=
  reset nNewTweak { nBloomSize := nElements.toNat * 2 % 2 ^ 32, nInsertions := 0, b1 := b, b2 := b }

def insert : CRollingBloomFilter :=
  let b1 := if rolling.nInsertions = 0 then rolling.b1.clear else rolling.b1
  let b2 := if rolling.nInsertions ≠ 0 ∧ rolling.nInsertions = rolling.nBloomSize / 2 then
    rolling.b2.clear else rolling.b2
  let nInsertions := (rolling.nInsertions + 1) % 2 ^ 32
  { rolling with
    b1 := b1.insert murmurHash3 vKey
    b2 := b2.insert murmurHash3 vKey
    nInsertions := if nInsertions = rolling.nBloomSize then 0 else nInsertions }

def contains : Bool :=
  if rolling.nInsertions < rolling.nBloomSize / 2 then rolling.b2.contains murmurHash3 vKey
  else rolling.b1.contains murmurHash3 vKey

/-! Runs. -/

/-- A call that changes the filter. -/
inductive Call where
  | insert (vKey : Bytes)
  | reset (nNewTweak : UInt32)

def call : Call → CRollingBloomFilter
  | .insert vKey => rolling.insert murmurHash3 vKey
  | .reset nNewTweak => rolling.reset nNewTweak

/-- The keys that were inserted since the last reset, the latest first. -/
def sinceReset (keys : List Bytes) : Call → List Bytes
  | .insert vKey => vKey :: keys
  | .reset _ => []

/-- The filter contains the latest keys, as many as were inserted since it was cleared. -/
def Absorbed (filter : CBloomFilter) (keys : List Bytes) (n : Nat) : Prop :=
  ∀ key ∈ keys.take n, filter.contains murmurHash3 key = true

variable {murmurHash3 rolling} {nElements n k : Nat} {keys : List Bytes} {filter : CBloomFilter}

theorem Absorbed.insert (absorbed : Absorbed murmurHash3 filter keys n)
    : Absorbed murmurHash3 (filter.insert murmurHash3 vKey) (vKey :: keys) (n + 1) :=
  fun _ mem => CBloomFilter.contains_insert ((mem_cons.mp mem).imp_right (absorbed _))

theorem Absorbed.mono (absorbed : Absorbed murmurHash3 filter keys n) (fewer : k ≤ n)
    : Absorbed murmurHash3 filter keys k :=
  fun key mem => absorbed key ((take_sublist_take_left fewer).subset mem)

/-- How many keys were inserted since the second filter was cleared, halfway. -/
def sinceHalf (nElements nInsertions : Nat) : Nat :=
  if nInsertions ≤ nElements then nInsertions + nElements else nInsertions - nElements

/-- The first filter is cleared when the count is zero, the second halfway. -/
structure Rolls (murmurHash3 : Murmur) (nElements : Nat) (keys : List Bytes)
    (rolling : CRollingBloomFilter)
    : Prop where
  size : rolling.nBloomSize = nElements * 2
  count : rolling.nInsertions < nElements * 2
  first : Absorbed murmurHash3 rolling.b1 keys rolling.nInsertions
  second : Absorbed murmurHash3 rolling.b2 keys (sinceHalf nElements rolling.nInsertions)

theorem Rolls.insert (rolls : Rolls murmurHash3 nElements keys rolling) (small : nElements < 2 ^ 31)
    : Rolls murmurHash3 nElements (vKey :: keys) (rolling.insert murmurHash3 vKey) := by
  obtain ⟨size, count, first, second⟩ := rolls
  have next : (rolling.insert murmurHash3 vKey).nInsertions
      = if rolling.nInsertions + 1 = nElements * 2 then 0 else rolling.nInsertions + 1 := by
    rw [CRollingBloomFilter.insert, size, Nat.mod_eq_of_lt (by omega)]
  have one (filter : CBloomFilter)
      : Absorbed murmurHash3 (filter.insert murmurHash3 vKey) (vKey :: keys) 1 :=
    Absorbed.insert vKey (forall_mem_nil _)
  refine ⟨size, ?_, ?_, ?_⟩
  · rw [next]
    split <;> omega
  · have absorbed : Absorbed murmurHash3 (rolling.insert murmurHash3 vKey).b1 (vKey :: keys)
        (rolling.nInsertions + 1) := by
      change Absorbed _ (CBloomFilter.insert _ _ (if _ then _ else _)) _ _
      split
      next zero => exact zero ▸ one _
      next => exact first.insert vKey
    rw [next]
    exact absorbed.mono (by split <;> omega)
  · have absorbed : Absorbed murmurHash3 (rolling.insert murmurHash3 vKey).b2 (vKey :: keys)
        ((if rolling.nInsertions = nElements then 0
          else sinceHalf nElements rolling.nInsertions) + 1) := by
      change Absorbed _ (CBloomFilter.insert _ _ (if _ then _ else _)) _ _
      split
      next cleared => exact (one _).mono (by split <;> omega)
      next => exact (second.insert vKey).mono (by split <;> omega)
    rw [next]
    exact absorbed.mono (by unfold sinceHalf; split_ifs <;> omega)

theorem Rolls.call (rolls : Rolls murmurHash3 nElements keys rolling) (small : nElements < 2 ^ 31)
    (c : Call)
    : Rolls murmurHash3 nElements (sinceReset keys c) (rolling.call murmurHash3 c) := by
  cases c with
  | insert vKey => exact rolls.insert vKey small
  | reset nNewTweak =>
    have none (filter : CBloomFilter) (n : Nat) : Absorbed murmurHash3 filter [] n := by
      simp [Absorbed]
    exact ⟨rolls.size, (Nat.zero_le _).trans_lt rolls.count, none _ _, none _ _⟩

theorem Rolls.calls (rolls : Rolls murmurHash3 nElements keys rolling) (small : nElements < 2 ^ 31)
    (calls : List Call)
    : Rolls murmurHash3 nElements (calls.foldl sinceReset keys)
        (calls.foldl (CRollingBloomFilter.call murmurHash3) rolling) := by
  induction calls generalizing keys rolling with
  | nil => exact rolls
  | cons c calls ih => exact ih (rolls.call small c)

/-- The latest keys are contained, whatever the hash functions are, after all calls. -/
theorem contains_recent {nElements : UInt32} (positive : 1 ≤ nElements.toNat)
    (small : nElements.toNat < 2 ^ 31) (murmurHash3 : Murmur) (b : CBloomFilter)
    (nNewTweak : UInt32) (calls : List Call)
    : ∀ key ∈ (calls.foldl sinceReset []).take nElements.toNat,
        (calls.foldl (call murmurHash3) (create nNewTweak nElements b)).contains murmurHash3 key
          = true := by
  have created : Rolls murmurHash3 nElements.toNat [] (create nNewTweak nElements b) := by
    refine ⟨Nat.mod_eq_of_lt (by omega), ?_, ?_, ?_⟩
    · change 0 < _
      omega
    · simp [Absorbed]
    · simp [Absorbed]
  obtain ⟨size, count, first, second⟩ := created.calls small calls
  intro key recent
  rw [contains, size, Nat.mul_div_cancel _ (by decide)]
  split
  next early => exact second.mono (by unfold sinceHalf; split <;> omega) key recent
  next late => exact first.mono (Nat.le_of_not_lt late) key recent

/-- A filter of eight bits and one hash function. -/
def oneByte : CBloomFilter where
  vData := replicate 8 false
  isFull := false
  isEmpty := true
  nHashFuncs := 1
  nTweak := 0
  positive := by decide

theorem contains_recent_two
    : ([.insert [1], .insert [2]].foldl (call fun _ key => (key.headD 0).toUInt32)
        (create 0 2 oneByte)).contains (fun _ key => (key.headD 0).toUInt32) [1] = true :=
  contains_recent (by decide) (by decide) _ oneByte 0 [.insert [1], .insert [2]] [1] (by decide)

/-- `nElements * 2` wraps around to two, and the key before the last one is forgotten. -/
theorem forgets_recent
    : [1] ∈ ([.insert [1], .insert [2]].foldl sinceReset []).take (0x80000001 : UInt32).toNat
      ∧ ([.insert [1], .insert [2]].foldl (call fun _ key => (key.headD 0).toUInt32)
        (create 0 0x80000001 oneByte)).contains (fun _ key => (key.headD 0).toUInt32) [1]
        = false := by
  decide

end CRollingBloomFilter

end Resistance.Net
