import Mathlib

/-! The query of a URL: what comes behind the first question mark and in front of a fragment, split
at the ampersands and each part at its first equals sign, with the percent-encoded bytes decoded. -/
namespace UrlQuery

section Decode

def hexDigit (c : UInt8) : Option ℕ :=
  if 48 ≤ c ∧ c ≤ 57 then some (c.toNat-48)
  else if 65 ≤ c ∧ c ≤ 70 then some (c.toNat-55)
  else if 97 ≤ c ∧ c ≤ 102 then some (c.toNat-87)
  else none

/-- The byte that a percent sign and two digits stand for. -/
def escaped (percent high low : UInt8) : Option UInt8 :=
  if percent = 37 then
    (hexDigit high).bind fun a => (hexDigit low).map fun b => UInt8.ofNat (16*a+b)
  else none

def percentDecode : List UInt8 → List UInt8
  | c :: high :: low :: rest =>
    match escaped c high low with
    | some byte => byte :: percentDecode rest
    | none => c :: percentDecode (high :: low :: rest)
  | cs => cs

/-- Nothing in a text stands for anything else. -/
def Unescaped (cs : List UInt8) : Prop :=
  ∀ before c high low after, cs = before ++ c :: high :: low :: after → escaped c high low = none

theorem unescaped_cons (c high low : UInt8) (rest : List UInt8) :
    Unescaped (c :: high :: low :: rest) ↔
      escaped c high low = none ∧ Unescaped (high :: low :: rest) := by
  constructor
  · intro h
    refine ⟨h [] c high low rest rfl, fun before c' high' low' after he => ?_⟩
    apply h (c :: before) c' high' low' after
    rw [he]
    rfl
  · rintro ⟨hfirst, hrest⟩ before c' high' low' after he
    rcases before with _ | ⟨b, before⟩
    · cases he
      exact hfirst
    · obtain ⟨-, he⟩ := List.cons.inj he
      exact hrest before c' high' low' after he

theorem unescaped_short {cs : List UInt8} (h : cs.length < 3) : Unescaped cs := by
  rintro before c high low after rfl
  simp at h
  omega

theorem unescaped_of_not_mem {cs : List UInt8} (h : 37 ∉ cs) : Unescaped cs := by
  rintro before c high low after rfl
  have hc : c ≠ 37 := by
    rintro rfl
    simp at h
  rw [escaped, if_neg hc]

theorem percentDecode_length_le (cs : List UInt8) : (percentDecode cs).length ≤ cs.length := by
  fun_induction percentDecode cs with
  | case1 c high low rest byte he ih =>
    simp only [List.length_cons]
    omega
  | case2 c high low rest he ih =>
    simp only [List.length_cons] at ih ⊢
    omega
  | case3 cs hcs => exact le_rfl

/-- A text with an escape is longer than what it stands for. -/
theorem percentDecode_eq_self_iff (cs : List UInt8) : percentDecode cs = cs ↔ Unescaped cs := by
  fun_induction percentDecode cs with
  | case1 c high low rest byte he ih =>
    rw [unescaped_cons, he]
    refine iff_of_false (fun h => ?_) (fun h => by cases h.1)
    have hlength := congrArg List.length h
    have hle := percentDecode_length_le rest
    simp only [List.length_cons] at hlength
    omega
  | case2 c high low rest he ih =>
    rw [unescaped_cons, List.cons.injEq, ih]
    exact ⟨fun h => ⟨he, h.2⟩, fun h => ⟨rfl, h.2⟩⟩
  | case3 cs hcs =>
    refine iff_of_true rfl (unescaped_short ?_)
    by_contra hlong
    match cs with
    | c :: high :: low :: rest => exact hcs c high low rest rfl
    | [] => simp at hlong
    | [_] => simp at hlong
    | [_, _] => simp at hlong

end Decode

section Parse

/-- What comes behind the first question mark, up to a fragment. -/
def queryOf (url : List UInt8) : List UInt8 :=
  ((url.takeWhile (· ≠ 35)).dropWhile (· ≠ 63)).drop 1

/-- A name and a value. -/
def parameter (part : List UInt8) : List UInt8 × List UInt8 :=
  (percentDecode (part.takeWhile (· ≠ 61)), percentDecode ((part.dropWhile (· ≠ 61)).drop 1))

def parseQuery (url : List UInt8) : List (List UInt8 × List UInt8) :=
  ((queryOf url).splitOn 38).map parameter

/-- A value that can stand in a query as it is. -/
def Verbatim (cs : List UInt8) : Prop := (∀ c ∈ cs, c ≠ 35 ∧ c ≠ 38) ∧ Unescaped cs

/-- A name that can. -/
def PlainName (cs : List UInt8) : Prop := Verbatim cs ∧ 61 ∉ cs

theorem takeWhile_ne_append {a : UInt8} {xs : List UInt8} (h : a ∉ xs) (ys : List UInt8) :
    (xs ++ ys).takeWhile (· ≠ a) = xs ++ ys.takeWhile (· ≠ a) := by
  apply List.takeWhile_append_of_pos
  intro x hx
  simpa using ne_of_mem_of_not_mem hx h

theorem dropWhile_ne_append {a : UInt8} {xs : List UInt8} (h : a ∉ xs) (ys : List UInt8) :
    (xs ++ ys).dropWhile (· ≠ a) = ys.dropWhile (· ≠ a) := by
  apply List.dropWhile_append_of_pos
  intro x hx
  simpa using ne_of_mem_of_not_mem hx h

theorem queryOf_append {base rest : List UInt8} (hhash : 35 ∉ base) (hmark : 63 ∉ base) :
    queryOf (base ++ 63 :: rest) = rest.takeWhile (· ≠ 35) := by
  rw [queryOf, takeWhile_ne_append hhash, List.takeWhile_cons_of_pos (by decide),
    dropWhile_ne_append hmark, List.dropWhile_cons_of_neg (by decide)]
  rfl

/-- The name ends at the first equals sign. -/
theorem parameter_append {name : List UInt8} (hname : PlainName name) (value : List UInt8) :
    parameter (name ++ 61 :: value) = (name, percentDecode value) := by
  rw [parameter, takeWhile_ne_append hname.2, dropWhile_ne_append hname.2,
    List.takeWhile_cons_of_neg (by decide), List.dropWhile_cons_of_neg (by decide), List.append_nil,
    (percentDecode_eq_self_iff name).mpr hname.1.2]
  rfl

theorem Verbatim.hash {cs : List UInt8} (h : Verbatim cs) : 35 ∉ cs := fun hm => (h.1 35 hm).1 rfl

theorem Verbatim.ampersand {cs : List UInt8} (h : Verbatim cs) : 38 ∉ cs :=
  fun hm => (h.1 38 hm).2 rfl

theorem plainName_of_not_mem {cs : List UInt8} (h35 : 35 ∉ cs) (h37 : 37 ∉ cs) (h38 : 38 ∉ cs)
    (h61 : 61 ∉ cs) : PlainName cs := by
  refine ⟨⟨fun c hc => ⟨?_, ?_⟩, unescaped_of_not_mem h37⟩, h61⟩
  · exact ne_of_mem_of_not_mem hc h35
  · exact ne_of_mem_of_not_mem hc h38

/-- The first part of a text ends at the first separator. -/
theorem splitOn_head (a : UInt8) (cs : List UInt8) :
    (cs.splitOn a).head? = some (cs.takeWhile (· ≠ a)) := by
  by_cases h : a ∈ cs
  · obtain ⟨first, rest, rfl, hfirst⟩ := List.eq_append_cons_of_mem h
    rw [List.splitOn_append_cons_self_of_not_mem hfirst, takeWhile_ne_append hfirst,
      List.takeWhile_cons_of_neg (by simp), List.append_nil]
    rfl
  · rw [List.splitOn_eq_singleton h, List.takeWhile_eq_self_iff.mpr]
    · rfl
    · intro x hx
      simpa using ne_of_mem_of_not_mem hx h

/-- A value that comes back from its part before the first ampersand or number sign loses nothing. -/
theorem verbatim_of_percentDecode {value : List UInt8} (h : percentDecode (value.takeWhile
    fun c => decide (decide (c ≠ 38) = true ∧ decide (c ≠ 35) = true)) = value) :
    Verbatim value := by
  set seen := value.takeWhile (fun c => decide (decide (c ≠ 38) = true ∧ decide (c ≠ 35) = true))
    with hseen
  have hall : seen = value := by
    apply (List.takeWhile_prefix _).eq_of_length
    apply le_antisymm (List.takeWhile_prefix _).length_le
    calc value.length = (percentDecode seen).length := by rw [h]
      _ ≤ seen.length := percentDecode_length_le seen
  constructor
  · intro c hc
    rw [← hall] at hc
    have := List.mem_takeWhile_imp hc
    simp at this
    exact this.symm
  · rw [hall] at h
    exact (percentDecode_eq_self_iff value).mp h

/-- Two parameters that are written out behind a base are read back exactly if the first value can
stand there as it is. -/
theorem parseQuery_pair_iff {base name value name' value' : List UInt8} (hhash : 35 ∉ base)
    (hmark : 63 ∉ base) (hname : PlainName name) (hname' : PlainName name')
    (hvalue' : Verbatim value') :
    parseQuery (base ++ 63 :: (name ++ 61 :: (value ++ 38 :: (name' ++ 61 :: value')))) =
      [(name, value), (name', value')] ↔ Verbatim value := by
  set rest := name' ++ 61 :: value' with hrest
  have hquery : queryOf (base ++ 63 :: (name ++ 61 :: (value ++ 38 :: rest))) =
      name ++ 61 :: (value ++ 38 :: rest).takeWhile (· ≠ 35) := by
    rw [queryOf_append hhash hmark, takeWhile_ne_append hname.1.hash,
      List.takeWhile_cons_of_pos (by decide)]
  constructor
  · intro h
    -- the first part is cut off at whatever ends it first
    have hcut : ((value ++ 38 :: rest).takeWhile (· ≠ 35)).takeWhile (· ≠ 38) = value.takeWhile
        (fun c => decide (decide (c ≠ 38) = true ∧ decide (c ≠ 35) = true)) := by
      rw [List.takeWhile_takeWhile, List.takeWhile_append]
      split_ifs with hlength
      · rw [List.takeWhile_cons_of_neg (by decide), List.append_nil]
        exact ((List.takeWhile_prefix _).eq_of_length hlength).symm
      · rfl
    have hhead := congrArg List.head? h
    rw [parseQuery, List.head?_map, splitOn_head, hquery, takeWhile_ne_append hname.1.ampersand,
      List.takeWhile_cons_of_pos (by decide), hcut, Option.map_some, parameter_append hname] at hhead
    exact verbatim_of_percentDecode (Prod.mk.inj (Option.some.inj hhead)).2
  · intro h
    have hwhole : (value ++ 38 :: rest).takeWhile (· ≠ 35) = value ++ 38 :: rest := by
      apply List.takeWhile_eq_self_iff.mpr
      intro c hc
      rw [decide_eq_true_eq]
      rintro rfl
      simp [hrest, h.hash, hname'.1.hash, hvalue'.hash] at hc
    have hfirst : 38 ∉ name ++ 61 :: value := by simp [hname.1.ampersand, h.ampersand]
    have hsecond : 38 ∉ rest := by simp [hrest, hname'.1.ampersand, hvalue'.ampersand]
    have hassoc : name ++ 61 :: (value ++ 38 :: rest) = (name ++ 61 :: value) ++ 38 :: rest := by
      rw [List.append_assoc, List.cons_append]
    rw [parseQuery, hquery, hwhole, hassoc, List.splitOn_append_cons_self_of_not_mem hfirst,
      List.splitOn_eq_singleton hsecond, List.map_cons, List.map_singleton, hrest,
      parameter_append hname, parameter_append hname', (percentDecode_eq_self_iff _).mpr h.2,
      (percentDecode_eq_self_iff _).mpr hvalue'.2]

end Parse

end UrlQuery
