import Stronk.HashTable

/-! What a hash table is for: it holds a map, hands every value out once to an iterator, and frees
what it was given once. -/
namespace HashTables
open Interleaving

variable {κ υ : Type} {F : KeyFuncs κ} {t : HashTable κ υ}

section Contents

/-- What a table holds under a key. -/
def contents (F : KeyFuncs κ) (t : HashTable κ υ) (key : κ) : Option (HashTableValue υ) :=
  (t.all.find? fun e => F.equalFunc key e.key).map HashTableEntry.value

/-- What a call does to the map from keys to values, where equal keys are one key. -/
def Call.apply (F : KeyFuncs κ) (m : κ → Option (HashTableValue υ)) (result : Bool) :
    Call κ υ → κ → Option (HashTableValue υ)
  | .insert key value _ _ => fun k => if result && F.equalFunc k key then some value else m k
  | .remove key => fun k => if F.equalFunc k key then none else m k

/-- The map after the calls of a run. -/
def mapOf (F : KeyFuncs κ) (trace : List (HashTable κ υ × Event κ υ)) :
    κ → Option (HashTableValue υ) :=
  trace.foldl (fun m e => e.2.1.apply F m e.2.2.result) fun _ => none

/-- No two entries have the same key. -/
theorem subsingleton_of_unequal {l : List (HashTableEntry κ υ)}
    (h : l.Pairwise fun e e' => F.equalFunc e.key e'.key = false) (key : κ) :
    {e ∈ l | F.equalFunc key e.key = true}.Subsingleton := by
  intro a ha b hb
  by_contra hab
  have hsymm : Std.Symm fun e e' : HashTableEntry κ υ => F.equalFunc e.key e'.key = false :=
    ⟨fun _ _ hne => F.ne_symm hne⟩
  have hne := h.forall ha.1 hb.1 hab
  rw [F.trans (F.symm ha.2) hb.2] at hne
  cases hne

theorem find?_eq_some_iff_of_unequal {l : List (HashTableEntry κ υ)}
    (h : l.Pairwise fun e e' => F.equalFunc e.key e'.key = false) {key : κ}
    {e : HashTableEntry κ υ} :
    (l.find? fun e => F.equalFunc key e.key) = some e ↔ e ∈ l ∧ F.equalFunc key e.key = true := by
  constructor
  · intro hfind
    have hequal := List.find?_some hfind
    exact ⟨List.mem_of_find?_eq_some hfind, hequal⟩
  · intro he
    cases hfind : l.find? fun e => F.equalFunc key e.key with
    | none => exact absurd he.2 (List.find?_eq_none.mp hfind e he.1)
    | some e' =>
      have hequal := List.find?_some hfind
      have he' : e' ∈ l ∧ F.equalFunc key e'.key = true :=
        ⟨List.mem_of_find?_eq_some hfind, hequal⟩
      rw [subsingleton_of_unequal h key he' he]

/-- The chain of a key holds all there is to find. -/
theorem Valid.find_chain (h : Valid F t) (key : κ) :
    ((t.chain (F.index t.tableSize key)).find? fun e => F.equalFunc key e.key) =
      t.all.find? fun e => F.equalFunc key e.key := by
  have hi : F.index t.tableSize key < t.table.length := F.index_lt h.size_pos key
  have hmem : t.chain (F.index t.tableSize key) ∈ t.table := by
    rw [HashTable.chain, List.getD_eq_getElem?_getD, List.getElem?_eq_getElem hi]
    exact List.getElem_mem hi
  have hsub := List.sublist_flatten_of_mem hmem
  ext e
  rw [find?_eq_some_iff_of_unequal (h.unequal.sublist hsub), find?_eq_some_iff_of_unequal h.unequal]
  refine ⟨fun he => ⟨hsub.subset he.1, he.2⟩, fun he => ⟨?_, he.2⟩⟩
  have hchain := h.placed.mem_chain he.1
  rw [← F.index_congr he.2] at hchain
  exact hchain

theorem Valid.lookup (h : Valid F t) (key : κ) :
    hashTableLookup F t key = (contents F t key).join := by
  rw [hashTableLookup, h.find_chain, contents]
  cases t.all.find? fun e => F.equalFunc key e.key <;> rfl

theorem contents_eq_none_iff {key : κ} :
    contents F t key = none ↔ ∀ e ∈ t.all, F.equalFunc key e.key = false := by
  simp only [contents, Option.map_eq_none_iff, List.find?_eq_none, Bool.not_eq_true]

/-- What a table holds is a matter of its entries, not of their places. -/
theorem contents_of_perm (h : Valid F t) {l : List (HashTableEntry κ υ)} (hperm : t.all.Perm l)
    (key : κ) :
    contents F t key = (l.find? fun e => F.equalFunc key e.key).map HashTableEntry.value := by
  rw [contents, List.find?_eq_find?_of_perm hperm (subsingleton_of_unequal h.unequal key)]

theorem KeyFuncs.equal_comm (F : KeyFuncs κ) (k l : κ) : F.equalFunc k l = F.equalFunc l k :=
  Bool.eq_iff_iff.mpr ⟨F.symm, F.symm⟩

theorem KeyFuncs.equal_congr (F : KeyFuncs κ) {k l : κ} (h : F.equalFunc k l = true) (m : κ) :
    F.equalFunc m k = F.equalFunc m l :=
  Bool.eq_iff_iff.mpr ⟨fun hk => F.trans hk h, fun hl => F.trans hl (F.symm h)⟩

/-- A call does to the map what it should do. -/
theorem contents_call (h : Valid F t) {c : Call κ υ} {o : Outcome κ υ} (hrun : c.run F t = some o) :
    contents F o.table = c.apply F (contents F t) o.result := by
  obtain ⟨hvalid, hchange, -⟩ := call_cases h hrun
  funext k
  cases hchange with
  | @replaced key value _ _ _ old others hold hall hnew _ hresult _ =>
    change _ = if o.result && F.equalFunc k key then some value else contents F t k
    rw [contents_of_perm hvalid hnew, contents_of_perm h hall, hresult, Bool.true_and,
      List.find?_cons, List.find?_cons, F.equal_congr hold k]
    cases F.equalFunc k key <;> rfl
  | @added key value _ _ _ hnone hnew _ hresult _ =>
    change _ = if o.result && F.equalFunc k key then some value else contents F t k
    rw [contents_of_perm hvalid hnew, hresult, Bool.true_and, List.find?_cons]
    cases F.equalFunc k key <;> rfl
  | refused _ hnew _ hresult _ =>
    rw [contents_of_perm hvalid hnew, Call.apply, hresult]
    rfl
  | @removed key _ old hold hall _ hresult _ =>
    change _ = if F.equalFunc k key then none else contents F t k
    rw [contents_of_perm h hall, List.find?_cons, ← F.equal_congr hold k]
    cases hkey : F.equalFunc k key with
    | false => rfl
    | true =>
      -- no other entry has the key
      have hpair := List.pairwise_cons.mp (h.unequal.perm hall F.ne_symm)
      have hnone : (o.table.all.find? fun e => F.equalFunc k e.key) = none := by
        rw [List.find?_eq_none]
        intro e he hke
        have hne := hpair.1 e he
        rw [F.trans (F.symm (F.trans hkey hold)) hke] at hne
        cases hne
      rw [contents, hnone]
      rfl
  | @absent key _ hnone htable _ _ =>
    change _ = if F.equalFunc k key then none else contents F t k
    rw [htable]
    split_ifs with hkey
    · rw [contents_eq_none_iff]
      intro e he
      rw [F.equal_comm, F.equal_congr hkey, F.equal_comm]
      exact hnone e he
    · rfl

theorem run_valid {t0 : HashTable κ υ} {trace : List (HashTable κ υ × Event κ υ)}
    (h : Run (Steps F) t0 trace t) (h0 : Valid F t0) : Valid F t := by
  induction h with
  | start => exact h0
  | next e _ he ih =>
    rw [← he.2]
    exact (call_cases ih he.1).1

theorem registered_valid (keyFreeFunc valueFreeFunc : Bool) :
    Valid F (hashTableRegisterFreeFunctions (newTable : HashTable κ υ) keyFreeFunc valueFreeFunc) :=
  have h : Valid F (newTable : HashTable κ υ) := hashTableNew_valid true rfl
  ⟨h.placed, h.unequal, h.counted, h.prime, h.load⟩

theorem registered_all (keyFreeFunc valueFreeFunc : Bool) :
    (hashTableRegisterFreeFunctions (newTable : HashTable κ υ) keyFreeFunc valueFreeFunc).all = [] :=
  newTable_all

theorem mapOf_concat (trace : List (HashTable κ υ × Event κ υ)) (t : HashTable κ υ)
    (e : Event κ υ) :
    mapOf F (trace ++ [(t, e)]) = e.1.apply F (mapOf F trace) e.2.result := by
  rw [mapOf, List.foldl_append]
  rfl

theorem run_contents {t0 : HashTable κ υ} {trace : List (HashTable κ υ × Event κ υ)}
    (h : Run (Steps F) t0 trace t) (h0 : Valid F t0) (hempty : contents F t0 = fun _ => none) :
    contents F t = mapOf F trace := by
  induction h with
  | start => exact hempty
  | next e hrun he ih =>
    rw [mapOf_concat, ← he.2, contents_call (run_valid hrun h0) he.1, ih]

/-- A table that is not too large takes every key for which there is memory. -/
theorem insert_defined (h : Valid F t) (hfew : t.entries < 536870914) (calloc malloc : Bool)
    (key : κ) (value : HashTableValue υ) :
    ∃ o, hashTableInsert F calloc malloc t key value = some o ∧
      (o.result = false → (calloc && malloc) = false) := by
  have hover : ¬ t.entries*3 > intMax := by
    rw [intMax]
    omega
  have hsome : ∃ o, hashTableInsert F calloc malloc t key value = some o := by
    rw [hashTableInsert, if_neg hover]
    split_ifs with hfull
    · have hentries := enlarge_entries hfull
      rw [hashTableEnlarge, newTableSize]
      cases hnext : hashTablePrimes[t.primeIndex+1]? with
      | some size =>
        cases calloc
        · exact ⟨_, rfl⟩
        · exact ⟨_, rfl⟩
      | none =>
        -- the table has its largest size, which is more than three times the number of entries
        obtain ⟨hlt, hsize⟩ := List.getElem?_eq_some_iff.mp h.prime
        have hlast : t.primeIndex = 23 := by
          have hge := List.getElem?_eq_none_iff.mp hnext
          change t.primeIndex < 24 at hlt
          change 24 ≤ t.primeIndex+1 at hge
          omega
        have hsize' : t.tableSize = 1610612741 := by
          rw [← hsize]
          simp only [hlast, hashTablePrimes]
          rfl
        omega
    · exact ⟨_, rfl⟩
  obtain ⟨o, ho⟩ := hsome
  refine ⟨o, ho, fun hfalse => ?_⟩
  obtain ⟨-, hchange, -⟩ := call_cases (c := .insert key value calloc malloc) h ho
  cases hchange with
  | replaced _ _ _ _ _ _ hresult _ => rw [hresult] at hfalse; cases hfalse
  | added _ _ _ hresult _ => rw [hresult] at hfalse; cases hfalse
  | refused hmemory _ _ _ _ => exact hmemory

theorem remove_result (h : Valid F t) (key : κ) :
    (hashTableRemove F t key).result = (contents F t key).isSome := by
  obtain ⟨-, -, hchange⟩ := remove_cases h key
  cases hchange with
  | removed old hold hall _ hresult _ =>
    rw [hresult, contents_of_perm h hall, List.find?_cons, hold]
    rfl
  | absent hnone _ hresult _ =>
    rw [hresult, contents_eq_none_iff.mpr hnone]
    rfl

section Runs
variable {keyFreeFunc valueFreeFunc : Bool} {trace : List (HashTable κ υ × Event κ υ)}

theorem run_map (h : Run (Steps F) (hashTableRegisterFreeFunctions newTable keyFreeFunc valueFreeFunc)
    trace t) : contents F t = mapOf F trace := by
  apply run_contents h (registered_valid keyFreeFunc valueFreeFunc)
  funext key
  rw [contents, registered_all]
  rfl

/-- The keys of the entries are the keys of the map. -/
theorem run_keys (h : Run (Steps F)
    (hashTableRegisterFreeFunctions newTable keyFreeFunc valueFreeFunc) trace t) (key : κ) :
    (mapOf F trace key).isSome = true ↔
      ∃ k ∈ t.all.map HashTableEntry.key, F.equalFunc key k = true := by
  rw [← run_map h, contents, Option.isSome_map, List.find?_isSome]
  simp only [List.mem_map]
  constructor
  · rintro ⟨e, he, hkey⟩
    exact ⟨e.key, ⟨e, he, rfl⟩, hkey⟩
  · rintro ⟨_, ⟨e, he, rfl⟩, hkey⟩
    exact ⟨e, he, hkey⟩

end Runs

/-- A table that any calls have made, from a new one, holds the map that these calls build: a
lookup finds what the map has, a removal succeeds where the map has the key, and there are as many
entries as the map has keys. An insertion is refused only where memory is. -/
theorem hash_table_holds_map (F : KeyFuncs κ) (keyFreeFunc valueFreeFunc : Bool)
    (trace : List (HashTable κ υ × Event κ υ)) (t : HashTable κ υ)
    (h : Run (Steps F) (hashTableRegisterFreeFunctions newTable keyFreeFunc valueFreeFunc) trace t) :
    (∀ key, hashTableLookup F t key = (mapOf F trace key).join) ∧
    (∀ key, (hashTableRemove F t key).result = (mapOf F trace key).isSome) ∧
    (∃ keys : List κ, keys.Pairwise (fun k l => F.equalFunc k l = false) ∧
      keys.length = hashTableNumEntries t ∧
      ∀ key, (mapOf F trace key).isSome = true ↔ ∃ k ∈ keys, F.equalFunc key k = true) ∧
    ∀ key value calloc malloc, t.entries < 536870914 →
      ∃ o, hashTableInsert F calloc malloc t key value = some o ∧
        (o.result = false → (calloc && malloc) = false) := by
  have hvalid := run_valid h (registered_valid keyFreeFunc valueFreeFunc)
  refine ⟨?_, ?_, ⟨t.all.map HashTableEntry.key, ?_, ?_, run_keys h⟩,
    fun key value calloc malloc hfew => insert_defined hvalid hfew calloc malloc key value⟩
  · rw [← run_map h]
    exact hvalid.lookup
  · rw [← run_map h]
    exact remove_result hvalid
  · rw [List.pairwise_map]
    exact hvalid.unequal
  · rw [List.length_map]
    exact hvalid.counted.symm

/-- Two keys with the same place; the first is inserted twice, and the second is removed. -/
def sameChain : List (Call (BitVec 64) ℕ) :=
  [.insert 1 (some 10) true true, .insert 194 (some 20) true true, .insert 1 (some 30) true true,
    .remove 194]

/-- The run of a list of calls, for as long as no `int` overflows. -/
def exec (F : KeyFuncs κ) : HashTable κ υ → List (Call κ υ) →
    List (HashTable κ υ × Event κ υ) × HashTable κ υ
  | t, [] => ([], t)
  | t, c :: calls =>
    match c.run F t with
    | none => ([], t)
    | some o =>
      let r := exec F o.table calls
      ((t, (c, o)) :: r.1, r.2)

theorem exec_run (t : HashTable κ υ) (calls : List (Call κ υ)) :
    Run (Steps F) t (exec F t calls).1 (exec F t calls).2 := by
  induction calls generalizing t with
  | nil => exact .start
  | cons c calls ih =>
    rw [exec]
    cases hrun : c.run F t with
    | none => exact .start
    | some o => exact (Run.single ⟨hrun, rfl⟩).append (ih o.table)

theorem same_chain_map :
    let t := (exec ull (hashTableRegisterFreeFunctions newTable true true) sameChain).2
    hashTableLookup ull t 1 = some 30 ∧ hashTableLookup ull t 194 = none := by
  have hmap := hash_table_holds_map ull true true _ _
    (exec_run (hashTableRegisterFreeFunctions newTable true true) sameChain)
  refine ⟨(hmap.1 1).trans ?_, (hmap.1 194).trans ?_⟩
  · decide +kernel
  · decide +kernel

end Contents

section Ownership

/-- What a call hands over to the table, as far as it will ever be freed. -/
def given (t : HashTable κ υ) (e : Event κ υ) : List (Freed κ υ) :=
  match e.1 with
  | .insert key value _ _ => if e.2.result then hashTableFreeEntry t ⟨key, value⟩ else []
  | .remove _ => []

theorem hashTableFree_eq (t : HashTable κ υ) :
    hashTableFree t = t.all.flatMap (hashTableFreeEntry t) := by
  rw [HashTable.all, hashTableFree]
  induction t.table with
  | nil => rfl
  | cons chain table ih => rw [List.flatMap_cons, List.flatten_cons, List.flatMap_append, ih]

theorem hashTableFreeEntry_congr {t t' : HashTable κ υ} (hkey : t'.keyFreeFunc = t.keyFreeFunc)
    (hvalue : t'.valueFreeFunc = t.valueFreeFunc) :
    hashTableFreeEntry t' = hashTableFreeEntry t := by
  funext entry
  rw [hashTableFreeEntry, hashTableFreeEntry, hkey, hvalue]

/-- What a call frees, and what the table frees after it, is what the table would have freed before
it, and what the call hands over. -/
theorem freed_call (h : Valid F t) {c : Call κ υ} {o : Outcome κ υ} (hrun : c.run F t = some o) :
    (o.freed ++ hashTableFree o.table).Perm (hashTableFree t ++ given t (c, o)) := by
  obtain ⟨-, hchange, hkey, hvalue, -⟩ := call_cases h hrun
  have hcongr := hashTableFreeEntry_congr hkey hvalue
  rw [hashTableFree_eq, hashTableFree_eq, hcongr, given]
  cases hchange with
  | replaced old others _ hall hnew _ hresult hfreed =>
    have hbefore := hall.flatMap_right (hashTableFreeEntry t)
    have hafter := hnew.flatMap_right (hashTableFreeEntry t)
    have hold : o.freed.Perm (hashTableFreeEntry t old) := by
      rw [hfreed]
      exact List.perm_append_comm
    rw [List.flatMap_cons] at hbefore hafter
    simp only [hresult, if_true]
    have hmiddle := hold.append hafter
    rw [← Multiset.coe_eq_coe] at hbefore hmiddle ⊢
    simp only [← Multiset.coe_add] at hbefore hmiddle ⊢
    rw [hmiddle, hbefore]
    abel
  | added _ hnew _ hresult hfreed =>
    have hafter := hnew.flatMap_right (hashTableFreeEntry t)
    rw [List.flatMap_cons] at hafter
    simp only [hresult, if_true, hfreed, List.nil_append]
    exact hafter.trans List.perm_append_comm
  | refused _ hnew _ hresult hfreed =>
    simp only [hresult, Bool.false_eq_true, if_false, hfreed, List.nil_append, List.append_nil]
    exact hnew.flatMap_right _
  | removed old _ hall _ _ hfreed =>
    have hbefore := hall.flatMap_right (hashTableFreeEntry t)
    rw [List.flatMap_cons] at hbefore
    rw [hfreed, List.append_nil]
    exact hbefore.symm
  | absent _ htable _ hfreed =>
    rw [hfreed, htable, List.nil_append, List.append_nil]

/-- From the first insertion to `hash_table_free`, every key and every value that the table has
taken is freed as often as it was handed over, where there is a function that frees it: when it is
overwritten, when it is removed, or at the end. What an insertion refuses is not freed. -/
theorem freed_as_often_as_given (F : KeyFuncs κ) (keyFreeFunc valueFreeFunc : Bool)
    (trace : List (HashTable κ υ × Event κ υ)) (t : HashTable κ υ)
    (h : Run (Steps F) (hashTableRegisterFreeFunctions newTable keyFreeFunc valueFreeFunc) trace t) :
    ((trace.flatMap fun e => e.2.2.freed) ++ hashTableFree t).Perm
      (trace.flatMap fun e => given e.1 e.2) := by
  have h0 : Valid F (hashTableRegisterFreeFunctions newTable keyFreeFunc valueFreeFunc) :=
    registered_valid (υ := υ) keyFreeFunc valueFreeFunc
  induction h with
  | start =>
    rw [List.flatMap_nil, List.nil_append, hashTableFree_eq, registered_all]
    exact .refl _
  | @next trace t u e hrun he ih =>
    have hcall := freed_call (run_valid hrun h0) he.1
    rw [List.flatMap_append, List.flatMap_append, List.flatMap_singleton, List.flatMap_singleton,
      ← he.2, List.append_assoc]
    have hstep := (hcall.append_left (trace.flatMap fun e => e.2.2.freed)).trans
      (List.Perm.of_eq (List.append_assoc _ _ _).symm)
    exact hstep.trans (ih.append_right _)

/-- What these calls free: the value that is overwritten, and the entry that is removed. -/
def sameChainFreed : List (Freed (BitVec 64) ℕ) :=
  [.value (some 10), .key 1, .key 194, .value (some 20)]

theorem same_chain_freed :
    let r := exec ull (hashTableRegisterFreeFunctions newTable true true) sameChain
    (r.1.flatMap fun e => e.2.2.freed) = sameChainFreed ∧
    (sameChainFreed ++ hashTableFree r.2).Perm
      [.key 1, .value (some 10), .key 194, .value (some 20), .key 1, .value (some 30)] := by
  have hfreed := freed_as_often_as_given ull true true _ _
    (exec_run (hashTableRegisterFreeFunctions newTable true true) sameChain)
  have hcalls : ((exec ull (hashTableRegisterFreeFunctions newTable true true) sameChain).1.flatMap
      fun e => e.2.2.freed) = sameChainFreed := by decide +kernel
  refine ⟨hcalls, ?_⟩
  rw [hcalls] at hfreed
  exact hfreed.trans (List.Perm.of_eq (by decide +kernel))

end Ownership

section Growth

/-- How many entries a call links into a new table. -/
def relinked (e : HashTable κ υ × Event κ υ) : ℕ :=
  if e.2.2.table.primeIndex = e.1.primeIndex then 0 else e.1.entries

/-- Whether a call is an insertion that leaves more entries than it found: the key was not in the
table. An insertion that overwrites leaves as many. -/
def addsKey (e : HashTable κ υ × Event κ υ) : Bool :=
  match e.2.1 with
  | .insert _ _ _ _ => decide (e.1.entries < e.2.2.table.entries)
  | .remove _ => false

/-- A third of a prime, rounded up: so many entries there are when the table outgrows it. -/
def third (i : ℕ) : ℕ := (hashTablePrimes.getD i 0+2)/3

/-- The entries that were linked into all tables up to one. -/
def relinkedUpTo (i : ℕ) : ℕ := ((List.range i).map third).sum

theorem relinkedUpTo_le : ∀ i < 23, relinkedUpTo (i+1) ≤ 3*third i := by
  decide +kernel

/-- What the growth of a table keeps. -/
structure Growth (added linked : ℕ) (t : HashTable κ υ) : Prop where
  entries : t.entries ≤ added
  linked : linked = relinkedUpTo t.primeIndex
  outgrown : ∀ i, t.primeIndex = i+1 → third i ≤ added

theorem growth_call {added linked : ℕ} (h : Valid F t) (hg : Growth added linked t)
    {c : Call κ υ} {o : Outcome κ υ} (hrun : c.run F t = some o) :
    Growth (added+if addsKey (t, (c, o)) then 1 else 0) (linked+relinked (t, (c, o)))
      o.table := by
  obtain ⟨-, hchange, -, -, hprime⟩ := call_cases h hrun
  have hentries : o.table.entries ≤ added+if addsKey (t, (c, o)) then 1 else 0 := by
    have hbefore := hg.entries
    cases hchange with
    | replaced _ _ _ _ _ hcount _ _ => omega
    | added _ _ hcount _ _ =>
      have hgrows : t.entries < o.table.entries := by omega
      simp only [addsKey, hgrows, decide_true, if_true]
      omega
    | refused _ _ hcount _ _ => omega
    | removed _ _ _ hcount _ _ => omega
    | absent _ htable _ _ =>
      rw [htable]
      omega
  rcases hprime with hsame | ⟨hnext, hfull⟩
  · refine ⟨hentries, ?_, fun i hi => ?_⟩
    · rw [relinked, if_pos hsame, hsame]
      exact hg.linked
    · exact (hg.outgrown i (hsame ▸ hi)).trans (Nat.le_add_right _ _)
  · have hload := h.load
    have hthird : t.entries = third t.primeIndex := by
      have hsize : hashTablePrimes.getD t.primeIndex 0 = t.tableSize := by
        rw [List.getD_eq_getElem?_getD, h.prime, Option.getD_some]
      rw [third, hsize]
      omega
    refine ⟨hentries, ?_, fun i hi => ?_⟩
    · rw [relinked, if_neg (by rw [hnext]; exact Nat.succ_ne_self _), hnext, hg.linked, relinkedUpTo,
        relinkedUpTo, List.range_succ, List.map_append, List.sum_append, hthird]
      rfl
    · have hsame : i = t.primeIndex := by omega
      rw [hsame, ← hthird]
      exact hg.entries.trans (Nat.le_add_right _ _)

/-- The table is never more than a third full, up to rounding, and what it costs to keep it so is
constant for each insertion: all enlargements together link at most three entries for each key that
was added, and a key that is overwritten counts for nothing. -/
theorem enlarging_amortised (F : KeyFuncs κ) (keyFreeFunc valueFreeFunc : Bool)
    (trace : List (HashTable κ υ × Event κ υ)) (t : HashTable κ υ)
    (h : Run (Steps F) (hashTableRegisterFreeFunctions newTable keyFreeFunc valueFreeFunc) trace t) :
    t.entries*3 < t.tableSize+3 ∧
    (trace.map relinked).sum ≤ 3*trace.countP addsKey := by
  have h0 : Valid F (hashTableRegisterFreeFunctions newTable keyFreeFunc valueFreeFunc) :=
    registered_valid (υ := υ) keyFreeFunc valueFreeFunc
  have hgrowth : Growth (trace.countP addsKey) (trace.map relinked).sum t := by
    induction h with
    | start => exact ⟨le_rfl, rfl, fun i hi => absurd hi (Nat.succ_ne_zero i).symm⟩
    | @next trace t u e hrun he ih =>
      have hcall := growth_call (run_valid hrun h0) ih he.1
      rw [he.2] at hcall
      rw [List.countP_append, List.map_append, List.sum_append, List.countP_singleton,
        List.map_singleton, List.sum_singleton]
      exact hcall
  have hvalid := run_valid h h0
  refine ⟨hvalid.load, ?_⟩
  rw [hgrowth.linked]
  cases hindex : t.primeIndex with
  | zero => exact Nat.zero_le _
  | succ i =>
    obtain ⟨hlt, -⟩ := List.getElem?_eq_some_iff.mp hvalid.prime
    change t.primeIndex < 24 at hlt
    exact (relinkedUpTo_le i (by omega)).trans (Nat.mul_le_mul_left 3 (hgrowth.outgrown i hindex))

/-- Sixty-six keys: the last one is inserted into a larger table. -/
def manyKeys : List (Call (BitVec 64) ℕ) :=
  (List.range 66).map fun i => .insert (BitVec.ofNat 64 i) (some i) true true

theorem many_keys_enlarge :
    let r := exec ull (hashTableRegisterFreeFunctions newTable false false) manyKeys
    (r.1.map relinked).sum = 65 ∧ 65 ≤ 3*r.1.countP addsKey := by
  have hgrowth := enlarging_amortised ull false false _ _
    (exec_run (hashTableRegisterFreeFunctions newTable false false) manyKeys)
  have hlinked : ((exec ull (hashTableRegisterFreeFunctions newTable false false)
      manyKeys).1.map relinked).sum = 65 := by decide +kernel
  refine ⟨hlinked, ?_⟩
  rw [← hlinked]
  exact hgrowth.2

end Growth

section Iteration

/-- The entries that an iterator has yet to hand out. -/
def HashTableIterator.rest (it : HashTableIterator κ υ) : List (HashTableEntry κ υ) :=
  if it.nextEntry = [] then []
  else it.nextEntry ++ (it.hashTable.table.drop (it.nextChain+1)).flatten

/-- The iterator after some calls of `hash_table_iter_next`. -/
def iterated (t : HashTable κ υ) (n : ℕ) : HashTableIterator κ υ :=
  (fun it => (hashTableIterNext it).2)^[n] (hashTableIterate t)

theorem findChain_flatten {ε : Type} (table : List (List ε)) (chain : ℕ) :
    (findChain chain (table.drop chain)).2 ++
        (if (findChain chain (table.drop chain)).2 = [] then []
          else (table.drop ((findChain chain (table.drop chain)).1+1)).flatten) =
      (table.drop chain).flatten := by
  cases hdrop : table.drop chain with
  | nil => rfl
  | cons first rest =>
    have hnext : table.drop (chain+1) = rest := by
      rw [← List.drop_drop, hdrop]
      rfl
    cases first with
    | nil =>
      rw [findChain, List.flatten_cons, List.nil_append, ← hnext]
      exact findChain_flatten table (chain+1)
    | cons entry next =>
      rw [findChain, if_neg (List.cons_ne_nil _ _), hnext, List.flatten_cons]
termination_by table.length-chain
decreasing_by
  have hlength := congrArg List.length hdrop
  rw [List.length_drop, List.length_cons] at hlength
  omega

theorem rest_nil {it : HashTableIterator κ υ} (h : it.nextEntry = []) : it.rest = [] := by
  rw [HashTableIterator.rest, if_pos h]

theorem rest_cons {it : HashTableIterator κ υ} {entry : HashTableEntry κ υ}
    {next : List (HashTableEntry κ υ)} (h : it.nextEntry = entry :: next) :
    it.rest = entry :: (next ++ (it.hashTable.table.drop (it.nextChain+1)).flatten) := by
  rw [HashTableIterator.rest, h, if_neg (List.cons_ne_nil _ _), List.cons_append]

theorem rest_findChain (t : HashTable κ υ) (chain : ℕ) :
    HashTableIterator.rest
      { hashTable := t
        nextEntry := (findChain chain (t.table.drop chain)).2
        nextChain := (findChain chain (t.table.drop chain)).1 } =
      (t.table.drop chain).flatten := by
  rw [← findChain_flatten t.table chain]
  cases hfound : (findChain chain (t.table.drop chain)).2 with
  | nil => exact rest_nil rfl
  | cons entry next =>
    rw [if_neg (List.cons_ne_nil _ _)]
    exact rest_cons rfl

/-- One call hands out the first entry of the rest. -/
theorem iterNext_rest (it : HashTableIterator κ υ) :
    (hashTableIterNext it).1 = it.rest.head?.bind HashTableEntry.value ∧
    (hashTableIterNext it).2.rest = it.rest.tail := by
  cases hentry : it.nextEntry with
  | nil =>
    have hnext : hashTableIterNext it = (none, it) := by rw [hashTableIterNext, hentry]
    rw [hnext, rest_nil hentry]
    exact ⟨rfl, rfl⟩
  | cons current next =>
    rw [rest_cons hentry, List.head?_cons, List.tail_cons]
    cases next with
    | nil =>
      have hnext : hashTableIterNext it = (current.value,
          { it with
            nextEntry := (findChain (it.nextChain+1) (it.hashTable.table.drop (it.nextChain+1))).2
            nextChain := (findChain (it.nextChain+1)
              (it.hashTable.table.drop (it.nextChain+1))).1 }) := by
        rw [hashTableIterNext, hentry]
      rw [hnext]
      exact ⟨rfl, rest_findChain it.hashTable (it.nextChain+1)⟩
    | cons second others =>
      have hnext : hashTableIterNext it =
          (current.value, { it with nextEntry := second :: others }) := by
        rw [hashTableIterNext, hentry]
      rw [hnext]
      exact ⟨rfl, rest_cons rfl⟩

theorem iterated_rest (t : HashTable κ υ) (n : ℕ) : (iterated t n).rest = t.all.drop n := by
  induction n with
  | zero => exact rest_findChain t 0
  | succ n ih =>
    rw [iterated, Function.iterate_succ_apply', ← iterated, (iterNext_rest _).2, ih,
      List.tail_drop]

theorem hasMore_iff (it : HashTableIterator κ υ) :
    hashTableIterHasMore it = true ↔ it.rest ≠ [] := by
  rw [hashTableIterHasMore]
  cases hentry : it.nextEntry with
  | nil => simp [rest_nil hentry]
  | cons entry next => simp [rest_cons hentry]

/-- An iterator over a table hands out, call after call, the values that the map has for its keys,
each key once, and it has more to hand out for exactly as long as there are keys left. -/
theorem iterator_hands_out_map (F : KeyFuncs κ) (keyFreeFunc valueFreeFunc : Bool)
    (trace : List (HashTable κ υ × Event κ υ)) (t : HashTable κ υ)
    (h : Run (Steps F) (hashTableRegisterFreeFunctions newTable keyFreeFunc valueFreeFunc) trace t) :
    (∀ n, hashTableIterHasMore (iterated t n) = true ↔ n < hashTableNumEntries t) ∧
    ∃ keys : List κ, keys.Pairwise (fun k l => F.equalFunc k l = false) ∧
      (∀ key, (mapOf F trace key).isSome = true ↔ ∃ k ∈ keys, F.equalFunc key k = true) ∧
      ((List.range (hashTableNumEntries t)).map fun n =>
        some (hashTableIterNext (iterated t n)).1) = keys.map (mapOf F trace) := by
  have hvalid := run_valid h (registered_valid keyFreeFunc valueFreeFunc)
  have hcount : hashTableNumEntries t = t.all.length := hvalid.counted
  refine ⟨fun n => ?_, t.all.map HashTableEntry.key, ?_, ?_, ?_⟩
  · rw [hasMore_iff, iterated_rest, hcount, ne_eq, List.drop_eq_nil_iff, not_le]
  · rw [List.pairwise_map]
    exact hvalid.unequal
  · exact run_keys h
  · rw [← run_map h, hcount]
    apply List.ext_getElem
    · simp
    · intro n hn _
      have hlt : n < t.all.length := by simpa using hn
      have hfind : (t.all.find? fun e => F.equalFunc (t.all[n]).key e.key) = some t.all[n] :=
        (find?_eq_some_iff_of_unequal hvalid.unequal).mpr ⟨List.getElem_mem hlt, F.refl _⟩
      simp only [List.getElem_map, List.getElem_range, contents, hfind, Option.map_some,
        (iterNext_rest _).1, iterated_rest, List.head?_drop, List.getElem?_eq_getElem hlt,
        Option.bind_some]

theorem same_chain_values :
    let t := (exec ull (hashTableRegisterFreeFunctions newTable true true)
      (sameChain.take 3)).2
    hashTableIterHasMore (iterated t 1) = true ∧ hashTableIterHasMore (iterated t 2) = false := by
  have hiter := iterator_hands_out_map ull true true _ _
    (exec_run (hashTableRegisterFreeFunctions newTable true true) (sameChain.take 3))
  refine ⟨(hiter.1 1).mpr (by decide +kernel), Bool.eq_false_of_not_eq_true fun hmore => ?_⟩
  exact absurd ((hiter.1 2).mp hmore) (by decide +kernel)

end Iteration

end HashTables
