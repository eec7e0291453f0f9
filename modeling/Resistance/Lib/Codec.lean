import Mathlib.Data.Vector.Basic
import Resistance.Lib.Checks

/-! Readers of byte streams that may throw, and rules to show that a reader takes back what
a writer wrote. `Reads` composes along the reader's own sequence of steps.
-/

namespace Resistance.Lib.Codec

open List

/-- A reader consumes bytes from the front of a stream, or throws. -/
def Reader (ε α : Type) := List UInt8 → Except ε (α × List UInt8)

variable {ε α β : Type}

instance : Monad (Reader ε) where
  pure a := fun stream => .ok (a, stream)
  bind reader next := fun stream =>
    match reader stream with
    | .ok (a, rest) => next a rest
    | .error e => .error e

namespace Reader

def fail (e : ε) : Reader ε α := fun _ => .error e

/-- The next byte; `e` is thrown at the end of the stream. -/
def byte (e : ε) : Reader ε UInt8
  | [] => .error e
  | b :: rest => .ok (b, rest)

/-- `n` items, one after the other. -/
def array (reader : Reader ε α) : (n : Nat) → Reader ε (List.Vector α n)
  | 0 => pure .nil
  | n + 1 => do
    let a ← reader
    let rest ← array reader n
    pure (a ::ᵥ rest)

theorem bind_ok {reader} {next : α → Reader ε β} {stream rest b}
    (run : (reader >>= next) stream = .ok (b, rest))
    : ∃ a middle, reader stream = .ok (a, middle) ∧ next a middle = .ok (b, rest) := by
  simp only [bind] at run
  split at run
  · next a middle first => exact ⟨a, middle, first, run⟩
  · cases run

end Reader

/-- The reader takes exactly `bytes` off any stream that starts with them. -/
def Reads (reader : Reader ε α) (bytes : List UInt8) (a : α) : Prop :=
  ∀ rest, reader (bytes ++ rest) = .ok (a, rest)

/-- The reader throws on any stream that starts with `bytes`. -/
def Throws (reader : Reader ε α) (bytes : List UInt8) (e : ε) : Prop :=
  ∀ rest, reader (bytes ++ rest) = .error e

/-- Whatever the stream, what the reader returns satisfies `P`. -/
def Returns (reader : Reader ε α) (P : α → Prop) : Prop :=
  ∀ stream a rest, reader stream = .ok (a, rest) → P a

theorem Reads.pure (a : α) : Reads (pure a : Reader ε α) [] a :=
  fun _ => rfl

variable {reader : Reader ε α} {a : α} {bytes : List UInt8} {e : ε} {n : Nat} {P : α → Prop}
  {next : α → Reader ε β}

theorem Reads.bind {first second b} (head : Reads reader first a) (tail : Reads (next a) second b)
    : Reads (reader >>= next) (first ++ second) b := by
  intro rest
  simp only [Bind.bind]
  rw [append_assoc, head]
  exact tail rest

theorem Reads.map {f : α → β} (head : Reads reader bytes a)
    : Reads (do let x ← reader; Pure.pure (f x)) bytes (f a) := by
  intro rest
  simp only [Bind.bind, head rest]
  rfl

theorem Reads.bindThrows {first second} (head : Reads reader first a)
    (tail : Throws (next a) second e)
    : Throws (reader >>= next) (first ++ second) e := by
  intro rest
  simp only [Bind.bind]
  rw [append_assoc, head]
  exact tail rest

theorem Throws.bind (thrown : Throws reader bytes e) (next : α → Reader ε β) (more : List UInt8)
    : Throws (reader >>= next) (bytes ++ more) e := by
  intro rest
  simp only [Bind.bind]
  rw [append_assoc, thrown]

-- A reader that throws `e` when the item it has read is bad.
section Guarded

variable {bad : α → Prop} [DecidablePred bad] {f : α → β}

theorem Reads.guarded (head : Reads reader bytes a) (good : ¬ bad a)
    : Reads (do let x ← reader; if bad x then .fail e else Pure.pure (f x)) bytes (f a) := by
  intro rest
  simp only [Bind.bind, head rest, if_neg good]
  rfl

end Guarded

theorem Reads.byte (e : ε) (b : UInt8) : Reads (Reader.byte e) [b] b :=
  fun _ => rfl

theorem Reads.array {write} (items : List.Vector α n)
    (each : ∀ a ∈ items.toList, Reads reader (write a) a)
    : Reads (reader.array n) (items.toList.flatMap write) items := by
  induction items with
  | nil => exact Reads.pure _
  | @cons n a items ih =>
    simp only [List.Vector.toList_cons, mem_cons, forall_eq_or_imp] at each
    exact each.1.bind (ih each.2).map

section

variable {other : List UInt8} {b : α} (left : Reads reader bytes a) (right : Reads reader other b)
include left right

/-- A reader that takes two values back from their bytes tells where the bytes end. -/
theorem Reads.append_inj {rest more} (same : bytes ++ rest = other ++ more)
    : a = b ∧ rest = more := by
  have read : (Except.ok (a, rest) : Except ε (α × List UInt8)) = .ok (b, more) := by
    rw [← left rest, ← right more, same]
  simpa only [Except.ok.injEq, Prod.mk.injEq] using read

/-- Two values that a reader takes back from their bytes differ already within the shorter
of the two encodings.
-/
theorem Reads.eq_of_isPrefix (start : bytes <+: other)
    : a = b ∧ bytes = other := by
  obtain ⟨more, rfl⟩ := start
  obtain ⟨equal, nothing⟩ := left.append_inj right (append_nil (bytes ++ more)).symm
  rw [nothing, append_nil]
  exact ⟨equal, rfl⟩

end

theorem Returns.pure (holds : P a)
    : Returns (pure a : Reader ε α) P := by
  rintro stream b rest run
  cases run
  exact holds

theorem Returns.bind {Q} (head : Returns reader P) (tail : ∀ a, P a → Returns (next a) Q)
    : Returns (reader >>= next) Q := by
  intro stream b rest run
  obtain ⟨a, middle, first, second⟩ := Reader.bind_ok run
  exact tail a (head _ _ _ first) _ _ _ second

theorem Returns.fail {P : α → Prop} (e : ε) : Returns (Reader.fail e) P := by
  intro stream a rest run
  cases run

theorem Returns.guarded {bad} [DecidablePred bad] {f : α → β}
    : Returns (do let x ← reader; if bad x then .fail e else Pure.pure (f x))
        (fun b => ∃ a, ¬ bad a ∧ b = f a) := by
  intro stream b rest run
  obtain ⟨a, middle, first, second⟩ := Reader.bind_ok run
  split at second
  · cases second
  next good =>
    cases second
    exact ⟨a, good, rfl⟩

theorem Returns.trivial (reader : Reader ε α) : Returns reader (fun _ => True) :=
  fun _ _ _ _ => True.intro

/-- What has been read does not matter. -/
theorem Returns.skip {Q} (tail : ∀ a, Returns (next a) Q)
    : Returns (reader >>= next) Q :=
  (Returns.trivial reader).bind fun a _ => tail a

theorem Returns.array (each : Returns reader P) (n : Nat)
    : Returns (reader.array n) (fun items => ∀ a ∈ items.toList, P a) := by
  induction n with
  | zero => exact Returns.pure (by simp)
  | succ n ih =>
    refine each.bind (fun a holds => ih.bind (fun items rest => Returns.pure ?_))
    simpa using ⟨holds, rest⟩

/-- Writing a list element by element succeeds when every element does. -/
theorem mapM_ok {f : α → Except ε β} {g} {items : List α} (each : ∀ a ∈ items, f a = .ok (g a))
    : items.mapM f = .ok (items.map g) := by
  induction items with
  | nil => rfl
  | cons a items ih =>
    rw [mapM_cons, each a mem_cons_self, ih (fun b mem => each b (mem_cons_of_mem a mem))]
    rfl

theorem forall₂_of_mapM {f : α → Except ε β} {items out} (run : items.mapM f = .ok out)
    : List.Forall₂ (fun a b => f a = .ok b) items out := by
  induction items generalizing out with
  | nil =>
    cases run
    exact .nil
  | cons a items ih =>
    rw [mapM_cons] at run
    obtain ⟨b, first, rest⟩ := Checks.bind_ok.mp run
    obtain ⟨others, more, same⟩ := Checks.bind_ok.mp rest
    cases same
    exact .cons first (ih more)

/-- The bytes written for a value tell the value and where they end. A writer may refuse some
values, so it is a relation.
-/
structure SelfDelimiting (writes : α → List UInt8 → Prop) : Prop where
  nonempty : ∀ {a bytes}, writes a bytes → bytes ≠ []
  inj : ∀ {a b bytes other rest more}, writes a bytes → writes b other
    → bytes ++ rest = other ++ more → a = b ∧ rest = more

/-- A concatenation without a count is still unambiguous, up to a tail of known length. -/
theorem SelfDelimiting.flatten_inj {writes : α → List UInt8 → Prop}
    (delimits : SelfDelimiting writes) {xs ys left right tail more}
    (writesLeft : List.Forall₂ writes xs left) (writesRight : List.Forall₂ writes ys right)
    (size : tail.length = more.length) (same : left.flatten ++ tail = right.flatten ++ more)
    : xs = ys ∧ tail = more := by
  induction writesLeft generalizing ys right with
  | nil =>
    cases writesRight with
    | nil => exact ⟨rfl, same⟩
    | cons head others =>
      have lengths := congrArg length same
      have pos := length_pos_of_ne_nil (delimits.nonempty head)
      simp only [flatten_nil, flatten_cons, length_append, length_nil] at lengths
      omega
  | cons head others ih =>
    cases writesRight with
    | nil =>
      have lengths := congrArg length same
      have pos := length_pos_of_ne_nil (delimits.nonempty head)
      simp only [flatten_nil, flatten_cons, length_append, length_nil] at lengths
      omega
    | cons headRight othersRight =>
      simp only [flatten_cons, append_assoc] at same
      obtain ⟨rfl, rest⟩ := delimits.inj head headRight same
      obtain ⟨rfl, tails⟩ := ih othersRight rest
      exact ⟨rfl, tails⟩

theorem SelfDelimiting.flatMap_inj {write} {good : α → Prop}
    (delimits : SelfDelimiting fun a bytes => good a ∧ write a = bytes) {xs ys : List α}
    (goodLeft : ∀ a ∈ xs, good a) (goodRight : ∀ a ∈ ys, good a)
    (same : xs.flatMap write = ys.flatMap write)
    : xs = ys := by
  have written : ∀ {zs : List α}, (∀ a ∈ zs, good a)
      → Forall₂ (fun a bytes => good a ∧ write a = bytes) zs (zs.map write) := by
    intro zs all
    rw [forall₂_map_right_iff, forall₂_same]
    exact fun a mem => ⟨all a mem, rfl⟩
  refine (delimits.flatten_inj (written goodLeft) (written goodRight)
    (Eq.refl ([] : List UInt8).length) ?_).1
  simpa only [append_nil, ← flatMap_def] using same

/-- Items that a reader takes back need no count. -/
theorem flatMap_inj_of_reads {write : α → List UInt8} (reads : ∀ a, Reads reader (write a) a)
    (nonempty : ∀ a, write a ≠ []) {xs ys : List α} (same : xs.flatMap write = ys.flatMap write)
    : xs = ys := by
  have delimits : SelfDelimiting fun a bytes => True ∧ write a = bytes := by
    constructor
    · rintro a bytes ⟨-, rfl⟩
      exact nonempty a
    · rintro a b bytes other rest more ⟨-, rfl⟩ ⟨-, rfl⟩ same
      exact (reads a).append_inj (reads b) same
  exact delimits.flatMap_inj (fun _ _ => trivial) (fun _ _ => trivial) same

/-- The `width` low bytes of a number, lowest first. -/
def leBytes : Nat → Nat → List UInt8
  | 0, _ => []
  | width + 1, n => UInt8.ofNat n :: leBytes width (n / 256)

def ofLE : List UInt8 → Nat
  | [] => 0
  | b :: rest => b.toNat + 256 * ofLE rest

theorem leBytes_length (width n : Nat) : (leBytes width n).length = width := by
  induction width generalizing n with
  | zero => rfl
  | succ width ih => rw [leBytes, length_cons, ih]

theorem ofLE_leBytes {width} (bound : n < 256 ^ width)
    : ofLE (leBytes width n) = n := by
  induction width generalizing n with
  | zero =>
    have : n = 0 := by simpa using bound
    simp [leBytes, ofLE, this]
  | succ width ih =>
    have rest : n / 256 < 256 ^ width := by
      rw [Nat.div_lt_iff_lt_mul (by omega)]
      exact bound
    have low : (UInt8.ofNat n).toNat = n % 256 := UInt8.toNat_ofNat'
    rw [leBytes, ofLE, ih rest]
    omega

/-- A number of `width` bytes, lowest first. -/
def Reader.le (e : ε) (width : Nat) : Reader ε Nat := do
  let bytes ← (Reader.byte e).array width
  pure (ofLE bytes.toList)

theorem Reads.le (e : ε) {width} (bound : n < 256 ^ width)
    : Reads (Reader.le e width) (leBytes width n) n := by
  have bytes := Reads.array ⟨leBytes width n, leBytes_length width n⟩
    (fun b _ => Reads.byte e b)
  rw [flatMap_singleton'] at bytes
  have read : Reads (Reader.le e width) (leBytes width n) (ofLE (leBytes width n)) := bytes.map
  rwa [ofLE_leBytes bound] at read

end Resistance.Lib.Codec
