import Stronk.Interleaving

/-! The hash table (`algo/hash-table.c`). A chain is the list of its entries, from the first to the
last. What a key points at does not change while the key is in the table. -/
namespace HashTables
open Interleaving

variable {κ υ : Type}

section Model

/-- The two functions that a table is made with. Equal keys have equal hashes. -/
structure KeyFuncs (κ : Type) where
  hashFunc : κ → BitVec 64
  equalFunc : κ → κ → Bool
  refl : ∀ k, equalFunc k k = true
  symm : ∀ {k l}, equalFunc k l = true → equalFunc l k = true
  trans : ∀ {k l m}, equalFunc k l = true → equalFunc l m = true → equalFunc k m = true
  hash_eq : ∀ {k l}, equalFunc k l = true → hashFunc k = hashFunc l

/-- `ull_hash` and `ull_equal`, on what the keys point at. -/
def ull : KeyFuncs (BitVec 64) where
  hashFunc location := location
  equalFunc location1 location2 := location1 == location2
  refl _ := beq_self_eq_true _
  symm h := beq_iff_eq.mpr (beq_iff_eq.mp h).symm
  trans h k := beq_iff_eq.mpr ((beq_iff_eq.mp h).trans (beq_iff_eq.mp k))
  hash_eq h := beq_iff_eq.mp h

/-- A `HashTableValue`: a pointer, where `none` is `HASH_TABLE_NULL`. -/
abbrev HashTableValue (υ : Type) := Option υ

/-- `struct _HashTableEntry`, without the pointer to the next entry of the chain. -/
structure HashTableEntry (κ υ : Type) where
  key : κ
  value : HashTableValue υ
  deriving DecidableEq, Repr

/-- `struct _HashTable`. There are `table_size` chains; of the two free functions the table knows
whether they are registered. -/
structure HashTable (κ υ : Type) where
  table : List (List (HashTableEntry κ υ))
  keyFreeFunc : Bool
  valueFreeFunc : Bool
  entries : ℕ
  primeIndex : ℕ
  deriving DecidableEq, Repr

def HashTable.tableSize (t : HashTable κ υ) : ℕ := t.table.length

/-- What a registered free function is called on. -/
inductive Freed (κ υ : Type)
  | key (k : κ)
  | value (v : HashTableValue υ)
  deriving DecidableEq, Repr

/-- What a call leaves behind: its result, the table, and what it freed. -/
structure Outcome (κ υ : Type) where
  result : Bool
  table : HashTable κ υ
  freed : List (Freed κ υ)
  deriving DecidableEq, Repr

/-- The largest `int`. -/
def intMax : ℕ := 2^31-1

def hashTablePrimes : List ℕ :=
  [193, 389, 769, 1543, 3079, 6151, 12289, 24593, 49157, 98317,
    196613, 393241, 786433, 1572869, 3145739, 6291469,
    12582917, 25165843, 50331653, 100663319, 201326611,
    402653189, 805306457, 1610612741]

/-- The size that `hash_table_allocate_table` computes; `none` is an `int` that overflows. -/
def newTableSize (primeIndex entries : ℕ) : Option ℕ :=
  match hashTablePrimes[primeIndex]? with
  | some size => some size
  | none => if entries*10 ≤ intMax then some (entries*10) else none

/-- The place of a key: the hash modulo the size of the table. -/
def KeyFuncs.index (F : KeyFuncs κ) (size : ℕ) (key : κ) : ℕ := (F.hashFunc key).toNat % size

def hashTableFreeEntry (t : HashTable κ υ) (entry : HashTableEntry κ υ) : List (Freed κ υ) :=
  (if t.keyFreeFunc then [.key entry.key] else []) ++
    (if t.valueFreeFunc then [.value entry.value] else [])

/-- The fields that `hash_table_new` fills in. -/
def newTable : HashTable κ υ where
  table := List.replicate 193 []
  keyFreeFunc := false
  valueFreeFunc := false
  entries := 0
  primeIndex := 0

/-- `memory` says whether the allocations succeed. -/
def hashTableNew (memory : Bool) : Option (HashTable κ υ) := if memory then some newTable else none

def hashTableRegisterFreeFunctions (t : HashTable κ υ) (keyFreeFunc valueFreeFunc : Bool) :
    HashTable κ υ := { t with keyFreeFunc, valueFreeFunc }

/-- The two loops of `hash_table_free`, then the table itself is gone. -/
def hashTableFree (t : HashTable κ υ) : List (Freed κ υ) :=
  t.table.flatMap fun chain => chain.flatMap (hashTableFreeEntry t)

/-- An entry is linked in as the first of its chain. -/
def linkEntry (F : KeyFuncs κ) (table : List (List (HashTableEntry κ υ)))
    (entry : HashTableEntry κ υ) : List (List (HashTableEntry κ υ)) :=
  let index := F.index table.length entry.key
  table.set index (entry :: table.getD index [])

/-- `hash_table_enlarge`; `memory` says whether `calloc` succeeds. -/
def hashTableEnlarge (F : KeyFuncs κ) (memory : Bool) (t : HashTable κ υ) :
    Option (Bool × HashTable κ υ) :=
  match newTableSize (t.primeIndex+1) t.entries with
  | none => none
  | some size =>
    if memory then
      some (true,
        { t with
          table := t.table.foldl (fun table chain => chain.foldl (linkEntry F) table)
            (List.replicate size [])
          primeIndex := t.primeIndex+1 })
    else some (false, t)

/-- The first entry for which `p` holds, and the chain with `f entry` in its place: the walk of
`hash_table_insert` and of `hash_table_remove`. -/
def changeFirst (p : HashTableEntry κ υ → Bool)
    (f : HashTableEntry κ υ → List (HashTableEntry κ υ)) :
    List (HashTableEntry κ υ) → Option (HashTableEntry κ υ × List (HashTableEntry κ υ))
  | [] => none
  | rover :: next =>
    if p rover then some (rover, f rover ++ next)
    else (changeFirst p f next).map fun r => (r.1, rover :: r.2)

/-- The chain at an index into the table. -/
def HashTable.chain (t : HashTable κ υ) (index : ℕ) : List (HashTableEntry κ υ) :=
  t.table.getD index []

/-- What follows after the table is large enough; `memory` says whether `malloc` succeeds. -/
def insertEntry (F : KeyFuncs κ) (memory : Bool) (t : HashTable κ υ) (key : κ)
    (value : HashTableValue υ) : Outcome κ υ :=
  let index := F.index t.tableSize key
  match changeFirst (fun rover => F.equalFunc rover.key key) (fun _ => [⟨key, value⟩])
      (t.chain index) with
  | some (rover, chain) =>
    { result := true
      table := { t with table := t.table.set index chain }
      freed := (if t.valueFreeFunc then [.value rover.value] else []) ++
        (if t.keyFreeFunc then [.key rover.key] else []) }
  | none =>
    if memory then
      { result := true
        table := { t with
          table := t.table.set index (⟨key, value⟩ :: t.chain index)
          entries := t.entries+1 }
        freed := [] }
    else { result := false, table := t, freed := [] }

/-- `none` is an `int` that overflows. -/
def hashTableInsert (F : KeyFuncs κ) (calloc malloc : Bool) (t : HashTable κ υ) (key : κ)
    (value : HashTableValue υ) : Option (Outcome κ υ) :=
  if t.entries*3 > intMax then none
  else if t.entries*3/t.tableSize > 0 then
    match hashTableEnlarge F calloc t with
    | none => none
    | some (false, t) => some { result := false, table := t, freed := [] }
    | some (true, t) => some (insertEntry F malloc t key value)
  else some (insertEntry F malloc t key value)

def hashTableLookup (F : KeyFuncs κ) (t : HashTable κ υ) (key : κ) : HashTableValue υ :=
  match (t.chain (F.index t.tableSize key)).find? fun rover => F.equalFunc key rover.key with
  | some rover => rover.value
  | none => none

def hashTableRemove (F : KeyFuncs κ) (t : HashTable κ υ) (key : κ) : Outcome κ υ :=
  let index := F.index t.tableSize key
  match changeFirst (fun rover => F.equalFunc key rover.key) (fun _ => []) (t.chain index) with
  | some (entry, chain) =>
    { result := true
      table := { t with table := t.table.set index chain, entries := t.entries-1 }
      freed := hashTableFreeEntry t entry }
  | none => { result := false, table := t, freed := [] }

def hashTableNumEntries (t : HashTable κ υ) : ℕ := t.entries

/-- `struct _HashTableIterator`. The next entry comes with the rest of its chain; `[]` is `NULL`. -/
structure HashTableIterator (κ υ : Type) where
  hashTable : HashTable κ υ
  nextEntry : List (HashTableEntry κ υ)
  nextChain : ℕ
  deriving DecidableEq, Repr

/-- The loops that look for a chain that is not empty, in the rest of the table. -/
def findChain {ε : Type} : ℕ → List (List ε) → ℕ × List ε
  | chain, [] => (chain, [])
  | chain, [] :: rest => findChain (chain+1) rest
  | chain, (entry :: next) :: _ => (chain, entry :: next)

def hashTableIterate (t : HashTable κ υ) : HashTableIterator κ υ where
  hashTable := t
  nextEntry := (findChain 0 t.table).2
  nextChain := (findChain 0 t.table).1

def hashTableIterHasMore (iterator : HashTableIterator κ υ) : Bool := !iterator.nextEntry.isEmpty

def hashTableIterNext (iterator : HashTableIterator κ υ) :
    HashTableValue υ × HashTableIterator κ υ :=
  match iterator.nextEntry with
  | [] => (none, iterator)
  | [current] =>
    let r := findChain (iterator.nextChain+1)
      (iterator.hashTable.table.drop (iterator.nextChain+1))
    (current.value, { iterator with nextEntry := r.2, nextChain := r.1 })
  | current :: next => (current.value, { iterator with nextEntry := next })

/-- The calls that change a table. -/
inductive Call (κ υ : Type)
  | insert (key : κ) (value : HashTableValue υ) (calloc malloc : Bool)
  | remove (key : κ)
  deriving DecidableEq, Repr

def Call.run (F : KeyFuncs κ) (t : HashTable κ υ) : Call κ υ → Option (Outcome κ υ)
  | .insert key value calloc malloc => hashTableInsert F calloc malloc t key value
  | .remove key => some (hashTableRemove F t key)

/-- A call, with the outcome it has. -/
abbrev Event (κ υ : Type) := Call κ υ × Outcome κ υ

def Steps (F : KeyFuncs κ) (t : HashTable κ υ) (e : Event κ υ) (t' : HashTable κ υ) : Prop :=
  e.1.run F t = some e.2 ∧ e.2.table = t'

end Model

section Chains
variable {F : KeyFuncs κ}

/-- All entries, chain after chain. -/
def HashTable.all (t : HashTable κ υ) : List (HashTableEntry κ υ) := t.table.flatten

/-- Every entry stands in the chain that the hash of its key names. -/
def Placed (F : KeyFuncs κ) (table : List (List (HashTableEntry κ υ))) : Prop :=
  ∀ i, ∀ e ∈ table.getD i [], F.index table.length e.key = i

theorem changeFirst_cases (p : HashTableEntry κ υ → Bool)
    (f : HashTableEntry κ υ → List (HashTableEntry κ υ)) (chain : List (HashTableEntry κ υ)) :
    (changeFirst p f chain = none ∧ ∀ e ∈ chain, p e = false) ∨
    ∃ before old after, chain = before ++ old :: after ∧ p old = true ∧
      changeFirst p f chain = some (old, before ++ (f old ++ after)) := by
  induction chain with
  | nil => exact Or.inl ⟨rfl, by simp⟩
  | cons rover next ih =>
    rw [changeFirst]
    split_ifs with hp
    · exact Or.inr ⟨[], rover, next, rfl, hp, rfl⟩
    rcases ih with ⟨hnone, hall⟩ | ⟨before, old, after, rfl, hold, hsome⟩
    · refine Or.inl ⟨by rw [hnone]; rfl, ?_⟩
      rw [List.forall_mem_cons]
      exact ⟨Bool.eq_false_of_not_eq_true hp, hall⟩
    · exact Or.inr ⟨rover :: before, old, after, rfl, hold, by rw [hsome]; rfl⟩

/-- One chain, apart from the others. -/
theorem exists_otherChains {ε : Type} {table : List (List ε)} {i : ℕ} (hi : i < table.length) :
    ∃ others, table.flatten.Perm (table.getD i [] ++ others) ∧
      ∀ chain, (table.set i chain).flatten.Perm (chain ++ others) := by
  have hget : table[i]? = some (table.getD i []) := by
    rw [List.getD_eq_getElem?_getD, List.getElem?_eq_getElem hi, Option.getD_some]
  obtain ⟨others, hperm, hset⟩ := exists_others hget
  exact ⟨others.flatten, hperm.flatten, fun chain => (hset chain).flatten⟩

/-- One entry, apart from all others. -/
theorem exists_otherEntries {ε : Type} {table : List (List ε)} {i : ℕ} {before after : List ε}
    {old : ε} (hi : i < table.length) (hchain : table.getD i [] = before ++ old :: after) :
    ∃ others, table.flatten.Perm (old :: others) ∧
      ∀ new, (table.set i (before ++ (new ++ after))).flatten.Perm (new ++ others) := by
  obtain ⟨others, hperm, hset⟩ := exists_otherChains hi
  refine ⟨before ++ after ++ others, ?_, fun new => (hset _).trans ?_⟩
  · rw [hchain] at hperm
    exact hperm.trans (List.perm_middle.append_right others)
  · have hfront : (before ++ (new ++ after)).Perm (new ++ (before ++ after)) :=
      List.perm_append_comm_assoc before new after
    rw [← List.append_assoc new]
    exact hfront.append_right others

theorem KeyFuncs.index_lt (F : KeyFuncs κ) {size : ℕ} (hsize : 0 < size) (key : κ) :
    F.index size key < size := Nat.mod_lt _ hsize

theorem KeyFuncs.index_congr {k l : κ} (h : F.equalFunc k l = true) (size : ℕ) :
    F.index size k = F.index size l := by
  rw [KeyFuncs.index, F.hash_eq h, KeyFuncs.index]

theorem KeyFuncs.ne_symm (F : KeyFuncs κ) {k l : κ} (h : F.equalFunc k l = false) :
    F.equalFunc l k = false := by
  apply Bool.eq_false_of_not_eq_true
  intro hlk
  rw [F.symm hlk] at h
  cases h

variable {table : List (List (HashTableEntry κ υ))} {entry : HashTableEntry κ υ}

theorem placed_replicate (size : ℕ) :
    Placed F (List.replicate size ([] : List (HashTableEntry κ υ))) := by
  intro i e he
  rw [List.getD_eq_getElem?_getD, List.getElem?_replicate] at he
  split_ifs at he <;> simp at he

theorem Placed.set (h : Placed F table) {i : ℕ} {chain : List (HashTableEntry κ υ)}
    (hchain : ∀ e ∈ chain, F.index table.length e.key = i) : Placed F (table.set i chain) := by
  intro j e he
  rw [List.length_set]
  by_cases hij : i = j
  · subst hij
    rw [List.getD_eq_getElem?_getD, List.getElem?_set_self'] at he
    cases hi : table[i]? with
    | none =>
      rw [hi] at he
      simp at he
    | some old =>
      rw [hi] at he
      exact hchain e he
  · rw [List.getD_eq_getElem?_getD, List.getElem?_set_ne hij, ← List.getD_eq_getElem?_getD] at he
    exact h j e he

/-- An entry is where a lookup of its key looks. -/
theorem Placed.mem_chain (h : Placed F table) (he : entry ∈ table.flatten) :
    entry ∈ table.getD (F.index table.length entry.key) [] := by
  obtain ⟨chain, hchain, hentry⟩ := List.mem_flatten.mp he
  obtain ⟨i, hi⟩ := List.mem_iff_getElem?.mp hchain
  have hget : table.getD i [] = chain := by rw [List.getD_eq_getElem?_getD, hi, Option.getD_some]
  rw [h i entry (hget ▸ hentry), hget]
  exact hentry

theorem length_linkEntry : (linkEntry F table entry).length = table.length := List.length_set

theorem linkEntry_placed (h : Placed F table) : Placed F (linkEntry F table entry) := by
  apply h.set
  intro e he
  rcases List.mem_cons.mp he with rfl | he
  · rfl
  · exact h _ e he

theorem linkEntry_perm (hsize : 0 < table.length) :
    (linkEntry F table entry).flatten.Perm (entry :: table.flatten) := by
  obtain ⟨others, hperm, hset⟩ := exists_otherChains (F.index_lt hsize entry.key)
  exact (hset _).trans (hperm.symm.cons entry)

/-- What `hash_table_enlarge` does to a chain, it does to all of them. -/
theorem linkEntries (chain : List (HashTableEntry κ υ)) (h : Placed F table)
    (hsize : 0 < table.length) :
    Placed F (chain.foldl (linkEntry F) table) ∧
    (chain.foldl (linkEntry F) table).length = table.length ∧
    (chain.foldl (linkEntry F) table).flatten.Perm (chain ++ table.flatten) := by
  induction chain generalizing table with
  | nil => exact ⟨h, rfl, .refl _⟩
  | cons entry chain ih =>
    have hlength : (linkEntry F table entry).length = table.length := length_linkEntry
    obtain ⟨hplaced, hlen, hperm⟩ := ih (linkEntry_placed h) (hlength ▸ hsize)
    refine ⟨hplaced, hlen.trans hlength, ?_⟩
    have hfirst : (chain ++ (linkEntry F table entry).flatten).Perm
        (chain ++ entry :: table.flatten) := (linkEntry_perm hsize).append_left chain
    exact hperm.trans (hfirst.trans List.perm_middle)

end Chains

section Invariant
variable {F : KeyFuncs κ} {t t' : HashTable κ υ}

/-- What holds of a table between two calls. It is never more than a third full, up to rounding. -/
structure Valid (F : KeyFuncs κ) (t : HashTable κ υ) : Prop where
  placed : Placed F t.table
  unequal : t.all.Pairwise fun e e' => F.equalFunc e.key e'.key = false
  counted : t.entries = t.all.length
  prime : hashTablePrimes[t.primeIndex]? = some t.tableSize
  load : t.entries*3 < t.tableSize+3

/-- What a call does to the entries of a table, wherever they stand in it. -/
inductive Change (F : KeyFuncs κ) (t : HashTable κ υ) : Call κ υ → Outcome κ υ → Prop
  | replaced {key value calloc malloc o} (old others) : F.equalFunc old.key key = true →
      t.all.Perm (old :: others) → o.table.all.Perm (⟨key, value⟩ :: others) →
      o.table.entries = t.entries → o.result = true →
      o.freed = (if t.valueFreeFunc then [.value old.value] else []) ++
        (if t.keyFreeFunc then [.key old.key] else []) → Change F t (.insert key value calloc malloc) o
  | added {key value calloc malloc o} : (∀ e ∈ t.all, F.equalFunc e.key key = false) →
      o.table.all.Perm (⟨key, value⟩ :: t.all) → o.table.entries = t.entries+1 → o.result = true →
      o.freed = [] → Change F t (.insert key value calloc malloc) o
  | refused {key value calloc malloc o} : (calloc && malloc) = false → o.table.all.Perm t.all →
      o.table.entries = t.entries → o.result = false → o.freed = [] →
      Change F t (.insert key value calloc malloc) o
  | removed {key o} (old) : F.equalFunc key old.key = true → t.all.Perm (old :: o.table.all) →
      o.table.entries = t.entries-1 → o.result = true → o.freed = hashTableFreeEntry t old →
      Change F t (.remove key) o
  | absent {key o} : (∀ e ∈ t.all, F.equalFunc key e.key = false) → o.table = t →
      o.result = false → o.freed = [] → Change F t (.remove key) o

theorem primes_ge {i size : ℕ} (h : hashTablePrimes[i]? = some size) : 193 ≤ size := by
  have hall : ∀ p ∈ hashTablePrimes, 193 ≤ p := by decide
  exact hall size (List.mem_of_getElem? h)

/-- Each prime is at least one and a half times the prime before. -/
theorem primes_grow {i p q : ℕ} (hp : hashTablePrimes[i]? = some p)
    (hq : hashTablePrimes[i+1]? = some q) : 3*p ≤ 2*q := by
  have hall : ∀ i < 23, 3*hashTablePrimes.getD i 0 ≤ 2*hashTablePrimes.getD (i+1) 0 := by decide
  obtain ⟨hlt, -⟩ := List.getElem?_eq_some_iff.mp hq
  have hle := hall i (Nat.lt_of_succ_lt_succ hlt)
  rw [List.getD_eq_getElem?_getD, List.getD_eq_getElem?_getD, hp, hq] at hle
  exact hle

theorem Valid.size_pos (h : Valid F t) : 0 < t.table.length :=
  Nat.lt_of_lt_of_le (by decide) (primes_ge h.prime)

theorem newTable_all : (newTable : HashTable κ υ).all = [] := List.flatten_replicate_nil

theorem newTable_valid : Valid F (newTable : HashTable κ υ) where
  placed := placed_replicate 193
  unequal := by
    rw [newTable_all]
    exact List.Pairwise.nil
  counted := by
    rw [newTable_all]
    rfl
  prime := by
    rw [HashTable.tableSize, newTable, List.length_replicate]
    rfl
  load := by
    rw [HashTable.tableSize, newTable, List.length_replicate]
    exact Nat.zero_lt_succ _

/-- What `hash_table_new` returns, where it returns a table, can be used at once. -/
theorem hashTableNew_valid (memory : Bool) (h : hashTableNew memory = some t) : Valid F t := by
  cases memory with
  | false => cases h
  | true =>
    obtain rfl := Option.some.inj h
    exact newTable_valid

/-- The table is enlarged when it is a third full, and not before. -/
theorem enlarge_entries (hfull : t.entries*3/t.tableSize > 0) :
    t.tableSize ≤ t.entries*3 := by
  by_contra hlt
  rw [Nat.div_eq_of_lt (by omega)] at hfull
  exact absurd hfull (lt_irrefl 0)

/-- What `hash_table_enlarge` does when it is called. -/
theorem enlarge_cases (h : Valid F t) (hfull : t.entries*3/t.tableSize > 0) {memory r t'}
    (he : hashTableEnlarge F memory t = some (r, t')) :
    (memory = false ∧ r = false ∧ t' = t) ∨
    (memory = true ∧ r = true ∧ t'.all.Perm t.all ∧ t'.entries = t.entries ∧
      t'.keyFreeFunc = t.keyFreeFunc ∧ t'.valueFreeFunc = t.valueFreeFunc ∧
      t'.primeIndex = t.primeIndex+1 ∧ Valid F t' ∧ t'.entries*3 < t'.tableSize) := by
  have hentries := enlarge_entries hfull
  have hload := h.load
  have hpos := primes_ge h.prime
  rw [hashTableEnlarge, newTableSize] at he
  cases hnext : hashTablePrimes[t.primeIndex+1]? with
  | none =>
    -- the last prime is in use, and the number of entries times ten is more than an `int`
    obtain ⟨hlt, hsize⟩ := List.getElem?_eq_some_iff.mp h.prime
    have hlast : t.primeIndex = 23 := by
      have hge := List.getElem?_eq_none_iff.mp hnext
      change t.primeIndex < 24 at hlt
      change 24 ≤ t.primeIndex+1 at hge
      omega
    have hsize' : t.tableSize = 1610612741 := by
      rw [← hsize]
      simp only [hlast, hashTablePrimes]
      rfl
    rw [hnext] at he
    dsimp only at he
    rw [if_neg (by rw [intMax]; omega)] at he
    cases he
  | some size =>
    rw [hnext] at he
    dsimp only at he
    split_ifs at he with hmemory
    · right
      have hinit : (List.replicate size ([] : List (HashTableEntry κ υ))).length = size :=
        List.length_replicate
      have hnew := linkEntries (F := F) t.table.flatten (placed_replicate size)
        (by rw [hinit]; exact Nat.lt_of_lt_of_le (by decide) (primes_ge hnext))
      rw [List.foldl_flatten, hinit, List.flatten_replicate_nil, List.append_nil] at hnew
      obtain ⟨hplaced, hlength, hperm⟩ := hnew
      have hgrow := primes_grow h.prime hnext
      cases he
      have hless : t.entries*3 < size := by omega
      refine ⟨hmemory, rfl, hperm, rfl, rfl, rfl, rfl, ⟨hplaced, ?_, ?_, ?_, ?_⟩, ?_⟩
      · exact h.unequal.perm hperm.symm F.ne_symm
      · rw [h.counted]
        exact hperm.length_eq.symm
      · change hashTablePrimes[t.primeIndex+1]? = some (List.length _)
        rw [hlength]
        exact hnext
      · change t.entries*3 < List.length _+3
        rw [hlength]
        omega
      · change t.entries*3 < List.length _
        rw [hlength]
        exact hless
    · cases he
      exact Or.inl ⟨Bool.eq_false_of_not_eq_true hmemory, rfl, rfl⟩

/-- Where no entry of its chain has the key, no entry has. -/
theorem Valid.forall_of_chain (h : Valid F t) {key : κ} {p : HashTableEntry κ υ → Bool}
    (hp : ∀ e, p e = true → F.index t.tableSize e.key = F.index t.tableSize key)
    (hnone : ∀ e ∈ t.chain (F.index t.tableSize key), p e = false) : ∀ e ∈ t.all, p e = false := by
  intro e he
  apply Bool.eq_false_of_not_eq_true
  intro hpe
  have hmem := h.placed.mem_chain he
  rw [show t.table.length = t.tableSize from rfl, hp e hpe] at hmem
  rw [hnone e hmem] at hpe
  cases hpe

theorem Valid.index_of_mem (h : Valid F t) {i : ℕ} {chain : List (HashTableEntry κ υ)}
    (hchain : t.chain i = chain) {e : HashTableEntry κ υ} (he : e ∈ chain) :
    F.index t.tableSize e.key = i := by
  rw [← hchain] at he
  exact h.placed i e he

/-- One chain is replaced, and the entries counted again. -/
theorem Valid.update (h : Valid F t) {i n : ℕ} {chain all : List (HashTableEntry κ υ)}
    (hchain : ∀ e ∈ chain, F.index t.tableSize e.key = i)
    (hperm : (t.table.set i chain).flatten.Perm all)
    (hunequal : all.Pairwise fun e e' => F.equalFunc e.key e'.key = false)
    (hcount : n = all.length) (hload : n*3 < t.tableSize+3) :
    Valid F { t with table := t.table.set i chain, entries := n } where
  placed := h.placed.set hchain
  unequal := hunequal.perm hperm.symm F.ne_symm
  counted := hcount.trans hperm.length_eq.symm
  prime := by
    have hlength : (t.table.set i chain).length = t.tableSize := List.length_set
    rw [HashTable.tableSize, hlength]
    exact h.prime
  load := by
    have hlength : (t.table.set i chain).length = t.tableSize := List.length_set
    rw [HashTable.tableSize, hlength]
    exact hload

/-- `t'` is what a call makes of `t`: the table is as it was, apart from its entries. -/
structure Kept (t t' : HashTable κ υ) : Prop where
  primeIndex : t'.primeIndex = t.primeIndex
  keyFreeFunc : t'.keyFreeFunc = t.keyFreeFunc
  valueFreeFunc : t'.valueFreeFunc = t.valueFreeFunc

theorem insertEntry_cases (h : Valid F t) (hload : t.entries*3 < t.tableSize) (calloc malloc : Bool)
    (key : κ) (value : HashTableValue υ) :
    Valid F (insertEntry F malloc t key value).table ∧
    Kept t (insertEntry F malloc t key value).table ∧
    Change F t (.insert key value calloc malloc) (insertEntry F malloc t key value) := by
  have hi : F.index t.tableSize key < t.table.length := F.index_lt h.size_pos key
  rcases changeFirst_cases (fun rover => F.equalFunc rover.key key) (fun _ => [⟨key, value⟩])
    (t.chain (F.index t.tableSize key)) with ⟨hnone, hall⟩ | ⟨before, old, after, hchain, hold, hsome⟩
  · have hunequal := h.forall_of_chain (fun e he => F.index_congr he _) hall
    cases malloc with
    | true =>
      have heq : insertEntry F true t key value =
          { result := true
            table := { t with
              table := t.table.set (F.index t.tableSize key)
                (⟨key, value⟩ :: t.chain (F.index t.tableSize key))
              entries := t.entries+1 }
            freed := [] } := by
        simp only [insertEntry, hnone, if_true]
      obtain ⟨others, hperm, hset⟩ := exists_otherChains hi
      have hadded : (t.table.set (F.index t.tableSize key)
          (⟨key, value⟩ :: t.chain (F.index t.tableSize key))).flatten.Perm
          (⟨key, value⟩ :: t.all) := (hset _).trans (hperm.symm.cons _)
      rw [heq]
      refine ⟨h.update ?_ hadded ?_ ?_ (by omega), ⟨rfl, rfl, rfl⟩,
        .added hunequal hadded rfl rfl rfl⟩
      · intro e he
        rcases List.mem_cons.mp he with rfl | he
        · rfl
        · exact h.placed _ e he
      · rw [List.pairwise_cons]
        exact ⟨fun e he => F.ne_symm (hunequal e he), h.unequal⟩
      · rw [List.length_cons, h.counted]
    | false =>
      have heq : insertEntry F false t key value =
          { result := false, table := t, freed := [] } := by
        simp only [insertEntry, hnone, Bool.false_eq_true, if_false]
      rw [heq]
      exact ⟨h, ⟨rfl, rfl, rfl⟩, .refused (Bool.and_false _) (.refl _) rfl rfl rfl⟩
  · have heq : insertEntry F malloc t key value =
        { result := true
          table := { t with
            table := t.table.set (F.index t.tableSize key) (before ++ ([⟨key, value⟩] ++ after)) }
          freed := (if t.valueFreeFunc then [.value old.value] else []) ++
            (if t.keyFreeFunc then [.key old.key] else []) } := by
      simp only [insertEntry, hsome]
    obtain ⟨others, hperm, hset⟩ := exists_otherEntries hi hchain
    have hreplaced := hset [⟨key, value⟩]
    have hcount := h.counted
    have hpair := List.pairwise_cons.mp (h.unequal.perm hperm F.ne_symm)
    rw [heq]
    refine ⟨h.update ?_ hreplaced ?_ (hcount.trans hperm.length_eq) h.load, ⟨rfl, rfl, rfl⟩,
      .replaced old others hold hperm hreplaced rfl rfl rfl⟩
    · intro e he
      rcases List.mem_append.mp he with he | he
      · exact h.index_of_mem hchain (List.mem_append_left _ he)
      rcases List.mem_cons.mp he with rfl | he
      · rfl
      · exact h.index_of_mem hchain (List.mem_append_right _ (List.mem_cons_of_mem _ he))
    · rw [List.singleton_append, List.pairwise_cons]
      refine ⟨fun e he => Bool.eq_false_of_not_eq_true fun hequal => ?_, hpair.2⟩
      have hne := hpair.1 e he
      rw [F.trans hold hequal] at hne
      cases hne

theorem remove_cases (h : Valid F t) (key : κ) :
    Valid F (hashTableRemove F t key).table ∧ Kept t (hashTableRemove F t key).table ∧
    Change F t (.remove key) (hashTableRemove F t key) := by
  have hi : F.index t.tableSize key < t.table.length := F.index_lt h.size_pos key
  rcases changeFirst_cases (fun rover => F.equalFunc key rover.key) (fun _ => [])
    (t.chain (F.index t.tableSize key)) with ⟨hnone, hall⟩ | ⟨before, old, after, hchain, hold, hsome⟩
  · have hunequal := h.forall_of_chain (fun e he => (F.index_congr he _).symm) hall
    have heq : hashTableRemove F t key = { result := false, table := t, freed := [] } := by
      simp only [hashTableRemove, hnone]
    rw [heq]
    exact ⟨h, ⟨rfl, rfl, rfl⟩, .absent hunequal rfl rfl rfl⟩
  · have heq : hashTableRemove F t key =
        { result := true
          table := { t with
            table := t.table.set (F.index t.tableSize key) (before ++ ([] ++ after))
            entries := t.entries-1 }
          freed := hashTableFreeEntry t old } := by
      simp only [hashTableRemove, hsome]
    obtain ⟨others, hperm, hset⟩ := exists_otherEntries hi hchain
    have hremoved := hset []
    have hcount := h.counted
    have hload := h.load
    have hpair := List.pairwise_cons.mp (h.unequal.perm hperm F.ne_symm)
    rw [HashTable.all, hperm.length_eq, List.length_cons] at hcount
    rw [heq]
    refine ⟨h.update ?_ hremoved hpair.2 ?_ (by omega), ⟨rfl, rfl, rfl⟩,
      .removed old hold (hperm.trans (hremoved.symm.cons old)) rfl rfl rfl⟩
    · intro e he
      rcases List.mem_append.mp he with he | he
      · exact h.index_of_mem hchain (List.mem_append_left _ he)
      · exact h.index_of_mem hchain (List.mem_append_right _ (List.mem_cons_of_mem _ he))
    · rw [List.nil_append]
      omega

/-- An enlarged table has the same entries. -/
theorem Change.of_perm {c : Call κ υ} {o : Outcome κ υ} (h : Change F t' c o)
    (hinsert : ∃ key value calloc malloc, c = .insert key value calloc malloc)
    (hperm : t'.all.Perm t.all) (hentries : t'.entries = t.entries)
    (hkey : t'.keyFreeFunc = t.keyFreeFunc) (hvalue : t'.valueFreeFunc = t.valueFreeFunc) :
    Change F t c o := by
  cases h with
  | replaced old others hold hall hnew hcount hresult hfreed =>
    rw [hkey, hvalue] at hfreed
    exact .replaced old others hold (hperm.symm.trans hall) hnew (hcount.trans hentries) hresult hfreed
  | added hnone hnew hcount hresult hfreed =>
    exact .added (fun e he => hnone e (hperm.mem_iff.mpr he)) (hnew.trans (hperm.cons _))
      (hentries ▸ hcount) hresult hfreed
  | refused hmemory hnew hcount hresult hfreed =>
    exact .refused hmemory (hnew.trans hperm) (hcount.trans hentries) hresult hfreed
  | removed | absent =>
    obtain ⟨_, _, _, _, hc⟩ := hinsert
    cases hc

/-- What a call does, whatever the table, and how far it is enlarged. -/
theorem call_cases (h : Valid F t) {c : Call κ υ} {o : Outcome κ υ} (hrun : c.run F t = some o) :
    Valid F o.table ∧ Change F t c o ∧ o.table.keyFreeFunc = t.keyFreeFunc ∧
    o.table.valueFreeFunc = t.valueFreeFunc ∧
    (o.table.primeIndex = t.primeIndex ∨
      (o.table.primeIndex = t.primeIndex+1 ∧ t.tableSize ≤ t.entries*3)) := by
  cases c with
  | remove key =>
    cases hrun
    obtain ⟨hvalid, hkept, hchange⟩ := remove_cases h key
    exact ⟨hvalid, hchange, hkept.keyFreeFunc, hkept.valueFreeFunc, Or.inl hkept.primeIndex⟩
  | insert key value calloc malloc =>
    rw [Call.run, hashTableInsert] at hrun
    split_ifs at hrun with hover hfull
    · cases henlarge : hashTableEnlarge F calloc t with
      | none =>
        rw [henlarge] at hrun
        cases hrun
      | some r =>
        obtain ⟨enlarged, t'⟩ := r
        rw [henlarge] at hrun
        rcases enlarge_cases h hfull henlarge with ⟨hmemory, rfl, rfl⟩ |
          ⟨-, rfl, hperm, hentries, hkey, hvalue, hprime, hvalid, hless⟩
        · cases hrun
          exact ⟨h, .refused (by rw [hmemory, Bool.false_and]) (.refl _) rfl rfl rfl, rfl, rfl,
            Or.inl rfl⟩
        · cases hrun
          obtain ⟨hvalid', hkept, hchange⟩ := insertEntry_cases hvalid hless calloc malloc key value
          exact ⟨hvalid', hchange.of_perm ⟨_, _, _, _, rfl⟩ hperm hentries hkey hvalue,
            hkept.keyFreeFunc.trans hkey, hkept.valueFreeFunc.trans hvalue,
            Or.inr ⟨hkept.primeIndex.trans hprime, enlarge_entries hfull⟩⟩
    · cases hrun
      have hless : t.entries*3 < t.tableSize := by
        by_contra hge
        have hone := Nat.div_pos (not_lt.mp hge) h.size_pos
        exact hfull hone
      obtain ⟨hvalid, hkept, hchange⟩ := insertEntry_cases h hless calloc malloc key value
      exact ⟨hvalid, hchange, hkept.keyFreeFunc, hkept.valueFreeFunc, Or.inl hkept.primeIndex⟩

end Invariant

end HashTables
