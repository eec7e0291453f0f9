import Resistance.BlockTree.OrderIndependence

/-! Block trees that are given by a table of their blocks, with checks that can be evaluated. -/

namespace Resistance.BlockTree

open List Primitives Lib.Forest

namespace Tree

/-- The block index with the given rows. -/
def ofTable (table : List (Pointer × CBlockIndex)) : Tree where
  index := fun p => (table.lookup p).getD {}
  mapBlockIndex := table.map fun row => (row.2.hash, row.1)

/-- A block is one above its parent, which is in the table. -/
def rowOk (table : List (Pointer × CBlockIndex)) (entry : CBlockIndex) : Bool :=
  match entry.pprev with
  | none => entry.nHeight = 0
  | some q => (table.lookup q).any fun parent => entry.nHeight = parent.nHeight + 1

/-- A skip pointer leads to the ancestor of its height. -/
def skipOk (tree : Tree) (p : Pointer) : Bool :=
  (tree.index p).pskip.all fun skip => skip ∈ tree.path p
    ∧ (tree.index skip).nHeight = getSkipHeight (tree.index p).nHeight

/-- A block with one transaction, whose chain has been received. -/
def row (p : Pointer) (pprev pskip : Option Pointer) (nHeight nChainWork : Nat)
    (nStatus : BlockStatus := { valid := .transactions, haveData := true })
    : Pointer × CBlockIndex :=
  (p, {
    hash := numberedHash p
    pprev
    pskip
    nHeight
    nChainWork
    nTx := 1
    nChainTx := UInt32.ofNat (nHeight + 1)
    nStatus
    nSequenceId := UInt32.ofNat p })

variable {table : List (Pointer × CBlockIndex)} {tree : Tree}

theorem lookup_of_mem {α β} [DecidableEq α] {rows : List (α × β)} {a b}
    (distinct : (rows.map Prod.fst).Nodup) (mem : (a, b) ∈ rows)
    : rows.lookup a = some b := by
  obtain ⟨before, after, rfl⟩ := append_of_mem mem
  refine lookup_eq_some_iff.mpr ⟨before, after, rfl, fun row earlier => ?_⟩
  rw [bne_iff_ne]
  rintro rfl
  rw [map_append, nodup_append] at distinct
  exact distinct.2.2 row.1 (mem_map_of_mem earlier) row.1 mem_cons_self rfl

theorem mem_of_lookup {α β} [DecidableEq α] {rows : List (α × β)} {a b}
    (found : rows.lookup a = some b)
    : (a, b) ∈ rows := by
  obtain ⟨before, after, rfl, -⟩ := lookup_eq_some_iff.mp found
  exact mem_append_right _ mem_cons_self

theorem wellFormed_of_table (index : tree.index = (ofTable table).index)
    (map : tree.mapBlockIndex = (ofTable table).mapBlockIndex)
    (distinct : (table.map Prod.fst).Nodup) (rows : ∀ row ∈ table, rowOk table row.2 = true)
    : tree.WellFormed := by
  have blocks : tree.blocks = table.map Prod.fst := by
    rw [Tree.blocks, map, ofTable, map_map]
    rfl
  have entries : ∀ p, tree.index p = (table.lookup p).getD {} := fun p => congrFun index p
  have child : ∀ {p q : Pointer}, (tree.index p).pprev = some q → ∃ parent,
      table.lookup q = some parent ∧ (tree.index p).nHeight = parent.nHeight + 1 := by
    intro p q isParent
    rw [entries] at isParent ⊢
    cases found : table.lookup p with
    | none =>
      rw [found] at isParent
      cases isParent
    | some entry =>
      rw [found, Option.getD_some] at isParent
      have ok := rows (p, entry) (mem_of_lookup found)
      simp only [rowOk, isParent] at ok
      obtain ⟨parent, isParent, level⟩ := (Option.any_eq_true _ _).mp ok
      exact ⟨parent, isParent, of_decide_eq_true level⟩
  refine ⟨⟨?_, ?_⟩, ?_, ?_, ?_, ?_⟩
  · intro p root
    rw [entries] at root ⊢
    cases found : table.lookup p with
    | none => rfl
    | some entry =>
      rw [found, Option.getD_some] at root
      have ok := rows (p, entry) (mem_of_lookup found)
      simp only [rowOk, root] at ok
      exact of_decide_eq_true ok
  · intro p q isParent
    obtain ⟨parent, found, level⟩ := child isParent
    rw [level, entries q, found]
    rfl
  · intro p q _ isParent
    obtain ⟨parent, found, -⟩ := child isParent
    rw [blocks]
    exact mem_map.mpr ⟨(q, parent), mem_of_lookup found, rfl⟩
  · rw [blocks]
    exact distinct
  · intro hash p found
    rw [map] at found
    obtain ⟨⟨q, entry⟩, mem, same⟩ := mem_map.mp (mem_of_lookup found)
    cases same
    rw [entries, lookup_of_mem distinct mem]
    rfl
  · intro p outside
    rw [entries]
    cases found : table.lookup p with
    | none => rfl
    | some entry =>
      rw [blocks] at outside
      exact absurd (mem_map.mpr ⟨(p, entry), mem_of_lookup found, rfl⟩) outside

theorem skips_of_table (index : tree.index = (ofTable table).index)
    (rows : ∀ row ∈ table, tree.skipOk row.1 = true)
    : tree.Skips := by
  intro p skip pointer
  have entries : tree.index p = (table.lookup p).getD {} := congrFun index p
  cases found : table.lookup p with
  | none =>
    rw [entries, found] at pointer
    cases pointer
  | some entry =>
    have ok := rows (p, entry) (mem_of_lookup found)
    rw [skipOk, pointer] at ok
    exact of_decide_eq_true ok

end Tree

end Resistance.BlockTree
