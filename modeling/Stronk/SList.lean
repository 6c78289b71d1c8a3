import Mathlib

/-! Singly linked lists in memory (`algo/slist.c`): entries behind pointers of any type `α`, with
data of any type `δ`. What is read behind a pointer that is not in memory is not defined. -/
namespace SList

/-- `struct _SListEntry` -/
structure Entry (α δ : Type) where
  data : δ
  next : Option α
  deriving DecidableEq, Repr

/-- The entries that are allocated. -/
abbrev Heap (α δ : Type) [DecidableEq α] := AList fun _ : α => Entry α δ

/-- Why a call does not return: it reads an entry that is not allocated, it goes round in circles,
or the length of a list overflows. -/
inductive Fault
  | dangling
  | endless
  | overflow
  deriving DecidableEq, Repr

/-- The largest `int`. -/
def intMax : ℕ := 2^31-1

variable {α δ : Type} [DecidableEq α]

section Model

/-- The entry behind a pointer. -/
def entryAt (h : Heap α δ) (a : α) : Except Fault (Entry α δ) :=
  match h.lookup a with
  | some e => .ok e
  | none => .error .dangling

/-- The loop of `slist_nth_entry`. -/
def nthEntry (h : Heap α δ) : Option α → ℕ → Except Fault (Option α)
  | p, 0 => .ok p
  | none, _+1 => .ok none
  | some a, n+1 =>
    match entryAt h a with
    | .error f => .error f
    | .ok e => nthEntry h e.next n

def slistNthEntry (h : Heap α δ) (list : Option α) (n : ℤ) : Except Fault (Option α) :=
  if n < 0 then .ok none else nthEntry h list n.toNat

/-- `none` is NULL. -/
def slistNthData (h : Heap α δ) (list : Option α) (n : ℤ) : Except Fault (Option δ) :=
  match slistNthEntry h list n with
  | .error f => .error f
  | .ok none => .ok none
  | .ok (some a) =>
    match entryAt h a with
    | .error f => .error f
    | .ok e => .ok (some e.data)

/-- The loop of `slist_length`. A walk over more entries than there are does not come to an end. -/
def lengthLoop (h : Heap α δ) : ℕ → Option α → ℕ → Except Fault ℕ
  | _, none, length => .ok length
  | 0, some _, _ => .error .endless
  | fuel+1, some a, length =>
    if length = intMax then .error .overflow
    else match entryAt h a with
      | .error f => .error f
      | .ok e => lengthLoop h fuel e.next (length+1)

def slistLength (h : Heap α δ) (list : Option α) : Except Fault ℕ :=
  lengthLoop h h.keys.length list 0

/-- `for (rover=*list; rover->next != NULL; rover = rover->next);` -/
def lastEntry (h : Heap α δ) : ℕ → α → Except Fault α
  | 0, _ => .error .endless
  | fuel+1, a =>
    match entryAt h a with
    | .error f => .error f
    | .ok e =>
      match e.next with
      | none => .ok a
      | some b => lastEntry h fuel b

def setNext (h : Heap α δ) (a : α) (next : Option α) : Except Fault (Heap α δ) :=
  match entryAt h a with
  | .error f => .error f
  | .ok e => .ok (h.insert a { e with next := next })

/-- `newentry` is what `malloc` returns; without memory nothing happens. -/
def slistAppend (h : Heap α δ) (list newentry : Option α) (data : δ) :
    Except Fault (Heap α δ × Option α) :=
  match newentry with
  | none => .ok (h, list)
  | some a =>
    let h' := h.insert a { data, next := none }
    match list with
    | none => .ok (h', some a)
    | some head =>
      match lastEntry h' h'.keys.length head with
      | .error f => .error f
      | .ok rover =>
        match setNext h' rover (some a) with
        | .error f => .error f
        | .ok h'' => .ok (h'', some head)

/-- `while (rover != NULL && rover->next != entry)` -/
def precedingEntry (h : Heap α δ) (entry : α) : ℕ → Option α → Except Fault (Option α)
  | _, none => .ok none
  | 0, some _ => .error .endless
  | fuel+1, some a =>
    match entryAt h a with
    | .error f => .error f
    | .ok e => if e.next = some entry then .ok (some a) else precedingEntry h entry fuel e.next

/-- Unlink an entry and free it; was it in the list? -/
def slistRemoveEntry (h : Heap α δ) (list entry : Option α) :
    Except Fault (Bool × Heap α δ × Option α) :=
  match list, entry with
  | none, _ => .ok (false, h, list)
  | _, none => .ok (false, h, list)
  | some head, some entry =>
    if head = entry then
      match entryAt h entry with
      | .error f => .error f
      | .ok e => .ok (true, h.erase entry, e.next)
    else match precedingEntry h entry h.keys.length (some head) with
      | .error f => .error f
      | .ok none => .ok (false, h, some head)
      | .ok (some rover) =>
        match entryAt h entry with
        | .error f => .error f
        | .ok e =>
          match setNext h rover e.next with
          | .error f => .error f
          | .ok h' => .ok (true, h'.erase entry, some head)

/-- The data of a list from front to back, as far as they can be read. -/
def dataFrom (h : Heap α δ) : ℕ → Option α → List δ
  | fuel+1, some a =>
    match h.lookup a with
    | some e => e.data :: dataFrom h fuel e.next
    | none => []
  | _, _ => []

def listData (h : Heap α δ) (list : Option α) : List δ := dataFrom h h.keys.length list

end Model

section Linked

/-- From a pointer on the entries `l` are linked, in this order. -/
def Linked (h : Heap α δ) : Option α → List (α × δ) → Prop
  | p, [] => p = none
  | p, (a, d) :: l => p = some a ∧ ∃ next, h.lookup a = some ⟨d, next⟩ ∧ Linked h next l

variable {h h' : Heap α δ} {p : Option α} {l l' : List (α × δ)} {a : α} {d : δ}

theorem Linked.head (hl : Linked h p l) : p = l.head?.map Prod.fst := by
  cases l with
  | nil => exact hl
  | cons x l => exact hl.1

theorem Linked.mem (hl : Linked h p l) : ∀ x ∈ l, x.1 ∈ h := by
  induction l generalizing p with
  | nil => exact nofun
  | cons x l ih =>
    obtain ⟨-, next, hx, hl⟩ := hl
    intro y hy
    rcases List.mem_cons.mp hy with rfl | hy
    · exact AList.lookup_isSome.mp (by rw [hx]; rfl)
    · exact ih hl y hy

/-- Behind the first entries the others are linked. -/
theorem Linked.drop (hl : Linked h p (l ++ l')) :
    Linked h (l'.head?.map Prod.fst) l' := by
  induction l generalizing p with
  | nil => exact hl.head ▸ hl
  | cons x l ih =>
    obtain ⟨-, next, -, hl⟩ := hl
    exact ih hl

theorem Linked.congr (hl : Linked h p l) (hsame : ∀ x ∈ l, h'.lookup x.1 = h.lookup x.1) :
    Linked h' p l := by
  induction l generalizing p with
  | nil => exact hl
  | cons x l ih =>
    obtain ⟨hp, next, hx, hl⟩ := hl
    refine ⟨hp, next, ?_, ih hl fun y hy => hsame y (List.mem_cons_of_mem _ hy)⟩
    rw [hsame x List.mem_cons_self, hx]

theorem Linked.insert (hl : Linked h p l) (e : Entry α δ) (ha : a ∉ l.map Prod.fst) :
    Linked (h.insert a e) p l := by
  apply hl.congr
  intro x hx
  have hne : x.1 ≠ a := fun he => ha (he ▸ List.mem_map_of_mem hx)
  exact AList.lookup_insert_ne hne

theorem Linked.erase (hl : Linked h p l) (ha : a ∉ l.map Prod.fst) :
    Linked (h.erase a) p l := by
  apply hl.congr
  intro x hx
  have hne : x.1 ≠ a := fun he => ha (he ▸ List.mem_map_of_mem hx)
  exact AList.lookup_erase_ne hne

/-- There are as many entries at least as are linked. -/
theorem Linked.length_le (hl : Linked h p l) (hn : (l.map Prod.fst).Nodup) :
    l.length ≤ h.keys.length := by
  have hsub : l.map Prod.fst ⊆ h.keys := by
    intro a ha
    obtain ⟨x, hx, rfl⟩ := List.mem_map.mp ha
    exact AList.mem_keys.mp (hl.mem x hx)
  have := (hn.subperm hsub).length_le
  rwa [List.length_map] at this

end Linked

section Calls
variable {h : Heap α δ} {p q : Option α} {l pre post : List (α × δ)} {a y : α} {d dy : δ}

theorem entryAt_of_lookup {e : Entry α δ} (he : h.lookup a = some e) : entryAt h a = .ok e := by
  simp only [entryAt, he]

theorem Linked.nthEntry (hl : Linked h p l) (n : ℕ) :
    nthEntry h p n = .ok (l[n]?.map Prod.fst) := by
  induction l generalizing p n with
  | nil =>
    cases hl
    cases n <;> rfl
  | cons x l ih =>
    obtain ⟨rfl, next, hx, hl⟩ := hl
    cases n with
    | zero => rfl
    | succ n =>
      simp only [SList.nthEntry, entryAt_of_lookup hx]
      exact ih hl n

theorem Linked.slistNthEntry (hl : Linked h p l) (n : ℕ) :
    slistNthEntry h p n = .ok (l[n]?.map Prod.fst) := by
  have hn : ¬ (n : ℤ) < 0 := by omega
  rw [SList.slistNthEntry, if_neg hn, Int.toNat_natCast, hl.nthEntry]

theorem Linked.slistNthData (hl : Linked h p l) (n : ℕ) :
    slistNthData h p n = .ok (l[n]?.map Prod.snd) := by
  rw [SList.slistNthData, hl.slistNthEntry]
  rcases hx : l[n]? with _ | x
  · rfl
  · obtain ⟨hn, rfl⟩ := List.getElem?_eq_some_iff.mp hx
    have hd : Linked h ((l.drop n).head?.map Prod.fst) (l.drop n) := by
      apply Linked.drop (l := l.take n)
      rwa [List.take_append_drop]
    rw [List.drop_eq_getElem_cons hn] at hd
    obtain ⟨-, next, he, -⟩ := hd
    have hentry : entryAt h l[n].1 = .ok ⟨l[n].2, next⟩ := entryAt_of_lookup he
    simp only [Option.map_some, hentry]

theorem Linked.lengthLoop (hl : Linked h p l) (fuel n : ℕ) (hfuel : l.length ≤ fuel)
    (hmax : n+l.length ≤ intMax) : lengthLoop h fuel p n = .ok (n+l.length) := by
  induction l generalizing p fuel n with
  | nil =>
    cases hl
    cases fuel <;> rfl
  | cons x l ih =>
    obtain ⟨rfl, next, hx, hl⟩ := hl
    rw [List.length_cons] at hfuel hmax
    obtain ⟨fuel, rfl⟩ : ∃ k, fuel = k+1 := ⟨fuel-1, by omega⟩
    have hn : n ≠ intMax := by omega
    simp only [SList.lengthLoop, if_neg hn, entryAt_of_lookup hx]
    rw [ih hl fuel (n+1) (by omega) (by omega), List.length_cons]
    congr 1
    omega

theorem Linked.slistLength (hl : Linked h p l) (hn : (l.map Prod.fst).Nodup)
    (hmax : l.length ≤ intMax) : slistLength h p = .ok l.length := by
  rw [SList.slistLength, hl.lengthLoop _ 0 (hl.length_le hn) (by omega), Nat.zero_add]

theorem Linked.listData (hl : Linked h p l) (hn : (l.map Prod.fst).Nodup) :
    listData h p = l.map Prod.snd := by
  have hfrom (fuel : ℕ) (hfuel : l.length ≤ fuel) : dataFrom h fuel p = l.map Prod.snd := by
    clear hn
    induction l generalizing p fuel with
    | nil =>
      cases hl
      cases fuel <;> rfl
    | cons x l ih =>
      obtain ⟨rfl, next, hx, hl⟩ := hl
      rw [List.length_cons] at hfuel
      obtain ⟨fuel, rfl⟩ : ∃ k, fuel = k+1 := ⟨fuel-1, by omega⟩
      simp only [dataFrom, hx, List.map_cons]
      rw [ih hl fuel (by omega)]
  exact hfrom _ (hl.length_le hn)

theorem Linked.lastEntry (hl : Linked h (some a) (l ++ [(y, dy)])) (fuel : ℕ)
    (hfuel : l.length < fuel) : lastEntry h fuel a = .ok y := by
  induction l generalizing a fuel with
  | nil =>
    obtain ⟨ha, next, hx, hnext⟩ := hl
    cases ha
    cases hnext
    obtain ⟨fuel, rfl⟩ : ∃ k, fuel = k+1 := ⟨fuel-1, by omega⟩
    simp only [SList.lastEntry, entryAt_of_lookup hx]
  | cons x l ih =>
    obtain ⟨ha, next, hx, hl⟩ := hl
    cases ha
    rw [List.length_cons] at hfuel
    obtain ⟨fuel, rfl⟩ : ∃ k, fuel = k+1 := ⟨fuel-1, by omega⟩
    have hb : ∃ b, next = some b := by
      rw [hl.head]
      cases l <;> exact ⟨_, rfl⟩
    obtain ⟨b, rfl⟩ := hb
    simp only [SList.lastEntry, entryAt_of_lookup hx]
    exact ih hl fuel (by omega)

/-- An entry is linked to others than it was. -/
theorem Linked.relink (hl : Linked h p (pre ++ (y, dy) :: post)) (hq : Linked h q l)
    (hpre : y ∉ pre.map Prod.fst) (hy : y ∉ l.map Prod.fst) :
    ∃ h', setNext h y q = .ok h' ∧ Linked h' p (pre ++ (y, dy) :: l) := by
  have hentry : ∃ next, h.lookup y = some ⟨dy, next⟩ := by
    obtain ⟨-, next, hx, -⟩ := hl.drop
    exact ⟨next, hx⟩
  obtain ⟨next, hentry⟩ := hentry
  refine ⟨h.insert y ⟨dy, q⟩, by simp only [setNext, entryAt_of_lookup hentry], ?_⟩
  -- what comes before `y` is not affected
  induction pre generalizing p with
  | nil => exact ⟨hl.1, q, AList.lookup_insert _, hq.insert _ hy⟩
  | cons x pre ih =>
    obtain ⟨hp, next', hx, hl⟩ := hl
    rw [List.map_cons, List.mem_cons, not_or] at hpre
    refine ⟨hp, next', ?_, ih hl hpre.2⟩
    rw [AList.lookup_insert_ne (Ne.symm hpre.1), hx]

/-- A new entry is put behind the others. -/
theorem Linked.slistAppend (hl : Linked h p l) (hn : (l.map Prod.fst).Nodup) (ha : a ∉ h) (d : δ) :
    ∃ h' p', slistAppend h p (some a) d = .ok (h', p') ∧ Linked h' p' (l ++ [(a, d)]) := by
  have hfresh : a ∉ l.map Prod.fst := by
    intro hmem
    obtain ⟨x, hx, rfl⟩ := List.mem_map.mp hmem
    exact ha (hl.mem x hx)
  set h1 := h.insert a ⟨d, none⟩ with hh1
  -- the new entry is a list of its own first, and the last entry is linked to it then
  have hnew : Linked h1 (some a) [(a, d)] := ⟨rfl, none, AList.lookup_insert _, rfl⟩
  have hold : Linked h1 p l := hl.insert _ hfresh
  rcases List.eq_nil_or_concat' l with rfl | ⟨init, ⟨y, dy⟩, rfl⟩
  · cases hl
    exact ⟨h1, some a, rfl, hnew⟩
  · obtain ⟨head, rfl⟩ : ∃ head, p = some head := by
      rw [hl.head]
      cases init <;> exact ⟨_, rfl⟩
    have hlast := hold.lastEntry h1.keys.length (by
      have := hold.length_le hn
      rw [List.length_append] at this
      exact this)
    have hinit : y ∉ init.map Prod.fst := by
      rw [List.map_append, List.map_singleton, List.nodup_append] at hn
      intro hy
      exact hn.2.2 y hy y (List.mem_singleton_self y) rfl
    have hya : y ∉ [(a, d)].map Prod.fst := by
      intro hy
      rw [List.map_singleton, List.mem_singleton] at hy
      exact hfresh (hy ▸ by simp)
    obtain ⟨h2, hset, hlinked⟩ := hold.relink hnew hinit hya
    refine ⟨h2, some head, ?_, ?_⟩
    · simp only [SList.slistAppend, ← hh1, hlast, hset]
    · rwa [List.append_assoc]

theorem Linked.precedingEntry (hl : Linked h p (pre ++ (y, dy) :: (a, d) :: post)) (fuel : ℕ)
    (hfuel : pre.length < fuel) (hpre : a ∉ pre.map Prod.fst) (hya : a ≠ y) :
    precedingEntry h a fuel p = .ok (some y) := by
  induction pre generalizing p fuel with
  | nil =>
    obtain ⟨rfl, next, hx, hl⟩ := hl
    obtain ⟨rfl, -⟩ := hl
    obtain ⟨fuel, rfl⟩ : ∃ k, fuel = k+1 := ⟨fuel-1, by omega⟩
    simp only [SList.precedingEntry, entryAt_of_lookup hx, ↓reduceIte]
  | cons x pre ih =>
    obtain ⟨rfl, next, hx, hl⟩ := hl
    rw [List.length_cons] at hfuel
    rw [List.map_cons, List.mem_cons, not_or] at hpre
    obtain ⟨fuel, rfl⟩ : ∃ k, fuel = k+1 := ⟨fuel-1, by omega⟩
    have hnext : next ≠ some a := by
      rw [hl.head]
      intro he
      cases pre with
      | nil => exact hya (Option.some.inj he).symm
      | cons z pre => exact hpre.2 (by rw [← Option.some.inj he]; simp)
    simp only [SList.precedingEntry, entryAt_of_lookup hx, if_neg hnext]
    exact ih hl fuel (by omega) hpre.2

/-- An entry is taken out from between the others. -/
theorem Linked.slistRemoveEntry (hl : Linked h p (pre ++ (a, d) :: post))
    (hn : ((pre ++ (a, d) :: post).map Prod.fst).Nodup) :
    ∃ h' p', slistRemoveEntry h p (some a) = .ok (true, h', p') ∧ Linked h' p' (pre ++ post) := by
  obtain ⟨-, next, ha, hpost⟩ := hl.drop
  have hentry : entryAt h a = .ok ⟨d, next⟩ := entryAt_of_lookup ha
  have hparts := hn
  rw [List.map_append, List.map_cons, List.nodup_append, List.nodup_cons] at hparts
  obtain ⟨hnpre, ⟨hapost, -⟩, hdisjoint⟩ := hparts
  have hapre : a ∉ pre.map Prod.fst := fun hmem => hdisjoint a hmem a List.mem_cons_self rfl
  -- the first entry has none before it that is to be linked to the next one
  rcases List.eq_nil_or_concat' pre with rfl | ⟨init, ⟨y, dy⟩, rfl⟩
  · obtain ⟨rfl, -⟩ := hl
    refine ⟨h.erase a, next, ?_, hpost.erase hapost⟩
    simp only [SList.slistRemoveEntry, ↓reduceIte, hentry]
  · rw [List.append_assoc, List.singleton_append] at hl
    rw [List.map_append, List.map_singleton, List.mem_append, List.mem_singleton, not_or] at hapre
    obtain ⟨head, rfl⟩ : ∃ head, p = some head := by
      rw [hl.head]
      cases init <;> exact ⟨_, rfl⟩
    have hhead : head ≠ a := by
      intro he
      subst he
      have hfirst := hl.head
      cases init with
      | nil => exact hapre.2 (Option.some.inj hfirst)
      | cons z init => exact hapre.1 (by rw [Option.some.inj hfirst]; simp)
    have hlen : init.length < h.keys.length := by
      have hle := hl.length_le (by simpa using hn)
      rw [List.length_append, List.length_cons] at hle
      omega
    have hpreceding := hl.precedingEntry h.keys.length hlen hapre.1 hapre.2
    have hy : y ∉ init.map Prod.fst ∧ y ∉ post.map Prod.fst := by
      rw [List.map_append, List.map_singleton, List.nodup_append] at hnpre
      refine ⟨fun hy => hnpre.2.2 y hy y (List.mem_singleton_self y) rfl, fun hy => ?_⟩
      exact hdisjoint y (by simp) y (List.mem_cons_of_mem _ hy) rfl
    obtain ⟨h', hset, hlinked⟩ := hl.relink hpost hy.1 hy.2
    refine ⟨h'.erase a, some head, ?_, ?_⟩
    · simp only [SList.slistRemoveEntry, if_neg hhead, hpreceding, hentry, hset]
    · rw [List.append_assoc]
      apply hlinked.erase
      simp only [List.map_append, List.map_cons, List.mem_append, List.mem_cons, not_or]
      exact ⟨hapre.1, hapre.2, hapost⟩

end Calls

end SList
