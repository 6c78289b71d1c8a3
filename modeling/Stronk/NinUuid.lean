import Stronk.McprEncode

/-! The text of a UUID (`ninuuid/ninuuid.c`): sixteen bytes through `sprintf` and `sscanf`. -/
namespace Stronk.Uuid
open Mcpr

section Model

/-- What a format is made of: a byte in hexadecimal, or a character that stands for itself. -/
inductive Directive
  | hhX
  | char (c : UInt8)
  deriving DecidableEq, Repr

def fmtCompressed : List Directive := List.replicate 16 .hhX

def fmtLong : List Directive :=
  [.hhX, .hhX, .hhX, .hhX, .char 45, .hhX, .hhX, .char 45, .hhX, .hhX, .char 45, .hhX, .hhX,
    .char 45, .hhX, .hhX, .hhX, .hhX, .hhX, .hhX]

/-- `sprintf` with these formats. -/
def sprintf : List Directive → List UInt8 → List UInt8
  | .hhX :: fmt, b :: bs => hexByte b ++ sprintf fmt bs
  | .char c :: fmt, bs => c :: sprintf fmt bs
  | _, _ => []

/-- `enum ccase` -/
inductive Ccase
  | uppercase
  | lowercase
  deriving DecidableEq, Repr

def toupper (c : UInt8) : UInt8 := if 97 ≤ c.toNat ∧ c.toNat ≤ 122 then c-32 else c

/-- What is asked for in lower case is left as `%hhX` writes it. The loop over 35 characters may
also change bytes behind the terminator, which are not part of the string. -/
def ninuuidToString (self : Ninuuid) (ccase : Ccase) (compressed : Bool) : List UInt8 :=
  let out := sprintf (if compressed then fmtCompressed else fmtLong) self.bytes.toList
  match ccase with
  | .uppercase => (out.take 35).map (fun c => if c ≠ 45 then toupper c else c) ++ out.drop 35
  | .lowercase => out

def isspace (c : UInt8) : Bool := c = 32 ∨ 9 ≤ c.toNat ∧ c.toNat ≤ 13

def hexValue (c : UInt8) : Option ℕ :=
  if 48 ≤ c.toNat ∧ c.toNat ≤ 57 then some (c.toNat-48)
  else if 65 ≤ c.toNat ∧ c.toNat ≤ 70 then some (c.toNat-55)
  else if 97 ≤ c.toNat ∧ c.toNat ≤ 102 then some (c.toNat-87)
  else none

/-- The digits at the start of the input, at most `width` of them, and what follows. -/
def takeDigits : ℕ → List UInt8 → List ℕ × List UInt8
  | width+1, c :: s =>
    match hexValue c with
    | some d => (d :: (takeDigits width s).1, (takeDigits width s).2)
    | none => ([], c :: s)
  | _, s => ([], s)

/-- The sign of a number: is it negative, what is left of the width, and of the input? -/
def takeSign (width : ℕ) : List UInt8 → Bool × ℕ × List UInt8
  | c :: s => if c = 43 then (false, width-1, s) else if c = 45 then (true, width-1, s)
      else (false, width, c :: s)
  | [] => (false, width, [])

/-- A prefix `0x`, if there is room for it. -/
def takePrefix (width : ℕ) : List UInt8 → ℕ × List UInt8
  | c :: x :: s => if 2 ≤ width ∧ c = 48 ∧ (x = 120 ∨ x = 88) then (width-2, s)
      else (width, c :: x :: s)
  | s => (width, s)

/-- `%hhX` of `sscanf` with a width: what it assigns, and what is left of the input. White space is
skipped, and a sign and a prefix are allowed. -/
def scanHex (width : ℕ) (s : List UInt8) : Option (UInt8 × List UInt8) :=
  let sign := takeSign width (s.dropWhile isspace)
  let digits := takePrefix sign.2.1 sign.2.2
  let (ds, rest) := takeDigits digits.1 digits.2
  let value := UInt8.ofNat (ds.foldl (fun n d => 16*n+d) 0)
  if ds = [] then none else some (if sign.1 then 0-value else value, rest)

/-- The values that `sscanf` assigns, in order. -/
def sscanf : List Directive → List UInt8 → List UInt8
  | .hhX :: fmt, s =>
    match scanHex 2 s with
    | some (v, rest) => v :: sscanf fmt rest
    | none => []
  | .char c :: fmt, d :: s => if c = d then sscanf fmt s else []
  | _, _ => []

/-- The form is told by the ninth character. What is assigned before a failure stays. -/
def ninuuidFromString (out : Ninuuid) (inp : List UInt8) : Ninuuid × Bool :=
  let compressed := inp.getD 8 0 ≠ 45
  let assigned := sscanf (if compressed then fmtCompressed else fmtLong) (cString inp)
  (⟨Vector.ofFn fun i => assigned.getD i.val out.bytes[i]⟩, decide (16 ≤ assigned.length))

end Model

section Print

theorem sprintf_hhX (n : ℕ) (bs : List UInt8) (hn : n ≤ bs.length) :
    sprintf (List.replicate n .hhX) bs = (bs.take n).flatMap hexByte := by
  induction n generalizing bs with
  | zero => rfl
  | succ n ih =>
    obtain ⟨b, bs, rfl⟩ := List.exists_cons_of_length_pos (by omega : 0 < bs.length)
    rw [List.length_cons] at hn
    rw [List.replicate_succ, sprintf, ih bs (by omega), List.take_succ_cons, List.flatMap_cons]

/-- A group of bytes, a character, and the rest. -/
theorem sprintf_group (n : ℕ) (c : UInt8) (fmt : List Directive) (bs : List UInt8)
    (hn : n ≤ bs.length) : sprintf (List.replicate n .hhX ++ .char c :: fmt) bs =
      (bs.take n).flatMap hexByte ++ c :: sprintf fmt (bs.drop n) := by
  induction n generalizing bs with
  | zero => rfl
  | succ n ih =>
    obtain ⟨b, bs, rfl⟩ := List.exists_cons_of_length_pos (by omega : 0 < bs.length)
    rw [List.length_cons] at hn
    rw [List.replicate_succ, List.cons_append, sprintf, ih bs (by omega), List.take_succ_cons,
      List.flatMap_cons, List.drop_succ_cons, List.append_assoc]

/-- The text that goes into packets is the long form, with lower case asked for. -/
theorem ninuuidToString_long (self : Ninuuid) :
    Mcpr.ninuuidToString self = ninuuidToString self .lowercase false := by
  have hlen : self.bytes.toList.length = 16 := Vector.length_toList
  let group (n : ℕ) := List.replicate n Directive.hhX
  have hfmt : fmtLong = group 4 ++ Directive.char 45 :: (group 2 ++ Directive.char 45 ::
      (group 2 ++ Directive.char 45 :: (group 2 ++ Directive.char 45 :: group 6))) := rfl
  have hdash : ascii "-" = [45] := by decide
  simp only [Mcpr.ninuuidToString, ninuuidToString, Bool.false_eq_true, ↓reduceIte, hfmt, hdash]
  rw [sprintf_group _ _ _ _ (by omega), sprintf_group _ _ _ _ (by rw [List.length_drop]; omega),
    sprintf_group _ _ _ _ (by simp only [List.length_drop]; omega),
    sprintf_group _ _ _ _ (by simp only [List.length_drop]; omega),
    sprintf_hhX _ _ (by simp only [List.length_drop]; omega)]
  simp only [List.drop_drop, List.drop_zero, List.append_assoc, List.singleton_append]
  rfl

/-- How many of the directives take a byte. -/
def hexCount : List Directive → ℕ
  | .hhX :: fmt => hexCount fmt+1
  | .char _ :: fmt => hexCount fmt
  | [] => 0

/-- The induction over a format and the bytes that it takes. -/
theorem format_induction {P : List Directive → List UInt8 → Prop} (hnil : P [] [])
    (hhex : ∀ fmt b bs, hexCount fmt = bs.length → P fmt bs → P (.hhX :: fmt) (b :: bs))
    (hchar : ∀ c fmt bs, hexCount fmt = bs.length → P fmt bs → P (.char c :: fmt) bs)
    (fmt : List Directive) (bs : List UInt8) (h : hexCount fmt = bs.length) : P fmt bs := by
  induction fmt generalizing bs with
  | nil =>
    rw [List.eq_nil_of_length_eq_zero h.symm]
    exact hnil
  | cons d fmt ih =>
    cases d with
    | hhX =>
      obtain ⟨b, bs, rfl⟩ := List.exists_cons_of_length_eq_add_one h.symm
      have hrest : hexCount fmt = bs.length := Nat.succ.inj h
      exact hhex fmt b bs hrest (ih bs hrest)
    | char c => exact hchar c fmt bs h (ih bs h)

/-- A byte below 16 has one digit, and the others have two. -/
theorem sprintf_length (fmt : List Directive) (bs : List UInt8) (h : hexCount fmt = bs.length) :
    (sprintf fmt bs).length+bs.countP (fun b => b.toNat < 16) = fmt.length+bs.length := by
  apply format_induction (P := fun fmt bs =>
    (sprintf fmt bs).length+bs.countP (fun b => b.toNat < 16) = fmt.length+bs.length) _ _ _ fmt bs h
  · rfl
  · intro fmt b bs _ ih
    rw [sprintf, hexByte]
    by_cases hb : b.toNat < 16
    · rw [if_pos hb, List.countP_cons_of_pos (by simpa using hb)]
      simp only [List.length_append, List.length_cons, List.length_nil]
      omega
    · rw [if_neg hb, List.countP_cons_of_neg (by simpa using hb)]
      simp only [List.length_append, List.length_cons, List.length_nil]
      omega
  · intro c fmt bs _ ih
    rw [sprintf, List.length_cons, List.length_cons]
    omega

theorem mem_sprintf_of_byte (fmt : List Directive) (bs : List UInt8) (h : hexCount fmt = bs.length) :
    ∀ b ∈ bs, ∀ c ∈ hexByte b, c ∈ sprintf fmt bs := by
  apply format_induction (P := fun fmt bs => ∀ b ∈ bs, ∀ c ∈ hexByte b, c ∈ sprintf fmt bs) _ _ _
    fmt bs h
  · intro b hb
    cases hb
  · intro fmt b bs _ ih b' hb' c hc
    rw [sprintf, List.mem_append]
    rcases List.mem_cons.mp hb' with rfl | hb'
    · exact .inl hc
    · exact .inr (ih b' hb' c hc)
  · intro c fmt bs _ ih b hb c' hc'
    rw [sprintf]
    exact List.mem_cons_of_mem _ (ih b hb c' hc')

theorem sprintf_mem (fmt : List Directive) (bs : List UInt8) {c : UInt8} (h : c ∈ sprintf fmt bs) :
    .char c ∈ fmt ∨ ∃ d < 16, c = hexDigit d := by
  fun_induction sprintf fmt bs with
  | case1 fmt b bs ih =>
    rcases List.mem_append.mp h with hb | hrest
    · have hlt := b.toNat_lt
      rw [hexByte] at hb
      split at hb
      · rename_i hsmall
        exact .inr ⟨b.toNat, hsmall, List.mem_singleton.mp hb⟩
      · simp only [List.mem_cons, List.not_mem_nil, or_false] at hb
        rcases hb with rfl | rfl
        · exact .inr ⟨b.toNat/16, by omega, rfl⟩
        · exact .inr ⟨b.toNat%16, by omega, rfl⟩
    · exact (ih hrest).imp_left (List.mem_cons_of_mem _)
  | case2 c' fmt bs ih =>
    rcases List.mem_cons.mp h with rfl | hrest
    · exact .inl List.mem_cons_self
    · exact (ih hrest).imp_left (List.mem_cons_of_mem _)
  | case3 => cases h

end Print

section Shape

/-- A hexadecimal digit in one of the two cases. -/
def IsHexOf : Ccase → UInt8 → Prop
  | .uppercase, c => (48 ≤ c.toNat ∧ c.toNat ≤ 57) ∨ (65 ≤ c.toNat ∧ c.toNat ≤ 70)
  | .lowercase, c => (48 ≤ c.toNat ∧ c.toNat ≤ 57) ∨ (97 ≤ c.toNat ∧ c.toNat ≤ 102)

instance : ∀ ccase c, Decidable (IsHexOf ccase c)
  | .uppercase, _ => inferInstanceAs (Decidable (_ ∨ _))
  | .lowercase, _ => inferInstanceAs (Decidable (_ ∨ _))

/-- What stands in a place of the text: a digit, or a character that is known. -/
def Fits (ccase : Ccase) : Option UInt8 → UInt8 → Prop
  | none, c => IsHexOf ccase c
  | some known, c => c = known

/-- The places of the two forms. -/
def uuidShape (compressed : Bool) : List (Option UInt8) :=
  if compressed then List.replicate 32 none
  else List.replicate 8 none ++ some 45 :: (List.replicate 4 none ++ some 45 ::
    (List.replicate 4 none ++ some 45 :: (List.replicate 4 none ++ some 45 ::
      List.replicate 12 none)))

/-- The places of a format, when each byte has two digits. -/
def places : List Directive → List (Option UInt8)
  | .hhX :: fmt => none :: none :: places fmt
  | .char c :: fmt => some c :: places fmt
  | [] => []

theorem places_fmt (compressed : Bool) :
    places (if compressed then fmtCompressed else fmtLong) = uuidShape compressed := by
  cases compressed <;> rfl

theorem isHexOf_upper : ∀ d < 16, IsHexOf .uppercase (hexDigit d) := by decide

theorem isHexOf_lower : ∀ d < 16, IsHexOf .lowercase (hexDigit d) ↔ d ≤ 9 := by decide

theorem hexDigit_plain : ∀ d < 16, toupper (hexDigit d) = hexDigit d ∧ hexDigit d ≠ 45 ∧
    hexDigit d ≠ 0 := by decide

/-- Both digits of the byte are there, and they are in the case. -/
def TwoDigits (ccase : Ccase) (b : UInt8) : Prop :=
  16 ≤ b.toNat ∧ IsHexOf ccase (hexDigit (b.toNat/16)) ∧ IsHexOf ccase (hexDigit (b.toNat%16))

theorem sprintf_places (ccase : Ccase) (fmt : List Directive) (bs : List UInt8)
    (h : hexCount fmt = bs.length) (htwo : ∀ b ∈ bs, TwoDigits ccase b) :
    List.Forall₂ (Fits ccase) (places fmt) (sprintf fmt bs) := by
  apply format_induction (P := fun fmt bs => (∀ b ∈ bs, TwoDigits ccase b) →
    List.Forall₂ (Fits ccase) (places fmt) (sprintf fmt bs)) _ _ _ fmt bs h htwo
  · intro _
    exact .nil
  · intro fmt b bs _ ih htwo
    obtain ⟨hb, hhigh, hlow⟩ := htwo b List.mem_cons_self
    rw [places, sprintf, hexByte, if_neg (not_lt.mpr hb)]
    exact .cons hhigh (.cons hlow (ih fun b hb => htwo b (List.mem_cons_of_mem _ hb)))
  · intro c fmt bs _ ih htwo
    rw [places, sprintf]
    exact .cons rfl (ih htwo)

/-- No digit is changed by the loop that makes letters large. -/
theorem ninuuidToString_eq (self : Ninuuid) (ccase : Ccase) (compressed : Bool) :
    ninuuidToString self ccase compressed =
      sprintf (if compressed then fmtCompressed else fmtLong) self.bytes.toList := by
  have hsame (c : UInt8) (hc : c ∈ sprintf (if compressed then fmtCompressed else fmtLong)
      self.bytes.toList) : (if c ≠ 45 then toupper c else c) = c := by
    have hchar (c : UInt8) (hmem : .char c ∈ if compressed then fmtCompressed else fmtLong) :
        c = 45 := by
      cases compressed <;> simp_all [fmtCompressed, fmtLong]
    rcases sprintf_mem _ _ hc with hmem | ⟨d, hd, rfl⟩
    · rw [if_neg (not_not.mpr (hchar c hmem))]
    · rw [(hexDigit_plain d hd).1, ite_self]
  cases ccase with
  | lowercase => rfl
  | uppercase =>
    have htake := List.map_congr_left (l := (sprintf (if compressed then fmtCompressed else fmtLong)
      self.bytes.toList).take 35) fun c hc => hsame c (List.mem_of_mem_take hc)
    simp only [ninuuidToString, htake, List.map_id', List.take_append_drop]

end Shape

section Scan

theorem hexDigit_scanned : ∀ d < 16, hexValue (hexDigit d) = some d ∧
    isspace (hexDigit d) = false ∧ hexDigit d ≠ 43 ∧ hexDigit d ≠ 45 ∧ hexDigit d ≠ 120 ∧
      hexDigit d ≠ 88 := by decide

theorem scanHex_hexByte (b : UInt8) (hb : 16 ≤ b.toNat) (rest : List UInt8) :
    scanHex 2 (hexByte b ++ rest) = some (b, rest) := by
  have hlt := b.toNat_lt
  obtain ⟨hhigh, hspace, hplus, hminus, -, -⟩ := hexDigit_scanned (b.toNat/16) (by omega)
  obtain ⟨hlow, -, -, -, hx, hX⟩ := hexDigit_scanned (b.toNat%16) (by omega)
  have hvalue : UInt8.ofNat ([b.toNat/16, b.toNat%16].foldl (fun n d => 16*n+d) 0) = b := by
    rw [List.foldl_cons, List.foldl_cons, List.foldl_nil, Nat.mul_zero, Nat.zero_add,
      Nat.div_add_mod, UInt8.ofNat_toNat]
  -- neither white space, nor a sign, nor a prefix
  have hsign : takeSign 2 (hexDigit (b.toNat/16) :: hexDigit (b.toNat%16) :: rest) =
      (false, 2, hexDigit (b.toNat/16) :: hexDigit (b.toNat%16) :: rest) := by
    rw [takeSign, if_neg hplus, if_neg hminus]
  have hprefix : takePrefix 2 (hexDigit (b.toNat/16) :: hexDigit (b.toNat%16) :: rest) =
      (2, hexDigit (b.toNat/16) :: hexDigit (b.toNat%16) :: rest) := by
    have hno : ¬ (2 ≤ 2 ∧ hexDigit (b.toNat/16) = 48 ∧
        (hexDigit (b.toNat%16) = 120 ∨ hexDigit (b.toNat%16) = 88)) :=
      fun h => h.2.2.elim hx hX
    rw [takePrefix, if_neg hno]
  have hdigits : takeDigits 2 (hexDigit (b.toNat/16) :: hexDigit (b.toNat%16) :: rest) =
      ([b.toNat/16, b.toNat%16], rest) := by
    simp only [takeDigits, hhigh, hlow]
  rw [hexByte, if_neg (not_lt.mpr hb), List.cons_append, List.singleton_append, scanHex,
    List.dropWhile_cons_of_neg (by rw [hspace]; exact Bool.false_ne_true), hsign, hprefix, hdigits]
  simp only [hvalue, List.cons_ne_nil, Bool.false_eq_true, ↓reduceIte]

theorem sscanf_sprintf (fmt : List Directive) (bs : List UInt8) (h : hexCount fmt = bs.length)
    (hbs : ∀ b ∈ bs, 16 ≤ b.toNat) : sscanf fmt (sprintf fmt bs) = bs := by
  apply format_induction (P := fun fmt bs => (∀ b ∈ bs, 16 ≤ b.toNat) →
    sscanf fmt (sprintf fmt bs) = bs) _ _ _ fmt bs h hbs
  · intro _
    rfl
  · intro fmt b bs _ ih hbs
    rw [sprintf, sscanf, scanHex_hexByte b (hbs b List.mem_cons_self)]
    dsimp only
    rw [ih fun b hb => hbs b (List.mem_cons_of_mem _ hb)]
  · intro c fmt bs _ ih hbs
    rw [sprintf, sscanf, if_pos rfl, ih hbs]

end Scan

section RoundTrip
variable (self : Ninuuid) (ccase : Ccase) (compressed : Bool)

/-- The text has the length and the digits that were asked for, and it is read back. -/
structure TextKept : Prop where
  length : (ninuuidToString self ccase compressed).length = if compressed then 32 else 36
  form : List.Forall₂ (Fits ccase) (uuidShape compressed) (ninuuidToString self ccase compressed)
  back : ∀ out, ninuuidFromString out (ninuuidToString self ccase compressed) = (self, true)

theorem hexCount_fmt : hexCount (if compressed then fmtCompressed else fmtLong) =
    self.bytes.toList.length := by
  rw [Vector.length_toList]
  cases compressed <;> rfl

theorem ninth_character {text : List UInt8}
    (h : List.Forall₂ (Fits ccase) (uuidShape compressed) text) :
    text.getD 8 0 ≠ 45 ↔ compressed = true := by
  obtain ⟨hlen, hget⟩ := List.forall₂_iff_get.mp h
  have hshape : 8 < (uuidShape compressed).length := by
    cases compressed <;> decide
  have h8 := hget 8 hshape (hlen ▸ hshape)
  rw [List.getD_eq_getElem _ _ (hlen ▸ hshape)]
  cases compressed with
  | false =>
    have hdash : text[8] = 45 := h8
    simp [hdash]
  | true =>
    have hdigit : IsHexOf ccase text[8] := h8
    refine iff_of_true ?_ rfl
    intro hdash
    rw [hdash] at hdigit
    cases ccase <;> exact absurd hdigit (by decide)

theorem ninuuidToString_terminated :
    cString (ninuuidToString self ccase compressed) = ninuuidToString self ccase compressed := by
  rw [cString_eq_self_iff, ninuuidToString_eq]
  intro hm
  rcases sprintf_mem _ _ hm with hmem | ⟨d, hd, hzero⟩
  · cases compressed <;> simp [fmtCompressed, fmtLong] at hmem
  · exact (hexDigit_plain d hd).2.2 hzero.symm

theorem fits_of_mem {text : List UInt8}
    (h : List.Forall₂ (Fits ccase) (uuidShape compressed) text) (c : UInt8) (hc : c ∈ text) :
    c = 45 ∨ IsHexOf ccase c := by
  obtain ⟨hlen, hget⟩ := List.forall₂_iff_get.mp h
  obtain ⟨i, hi, rfl⟩ := List.getElem_of_mem hc
  have hplaces : ∀ place ∈ uuidShape compressed, place = none ∨ place = some 45 := by
    intro place hplace
    cases compressed <;> simp [uuidShape] at hplace <;> tauto
  have hfits := hget i (hlen ▸ hi) hi
  rcases hplaces _ (List.get_mem (uuidShape compressed) ⟨i, hlen ▸ hi⟩) with hnone | hdash
  · rw [hnone] at hfits
    exact .inr hfits
  · rw [hdash] at hfits
    exact .inl hfits

/-- A byte below 16 takes one place instead of two. -/
theorem ninuuidToString_length : (ninuuidToString self ccase compressed).length+
    self.bytes.toList.countP (fun b => b.toNat < 16) = if compressed then 32 else 36 := by
  have hlength := sprintf_length _ _ (hexCount_fmt self compressed)
  have hsize : (if compressed then fmtCompressed else fmtLong).length+16 =
      if compressed then 32 else 36 := by
    cases compressed <;> rfl
  rwa [Vector.length_toList, hsize, ← ninuuidToString_eq self ccase compressed] at hlength

variable {self ccase compressed}

theorem TextKept.large (h : TextKept self ccase compressed) :
    ∀ b ∈ self.bytes.toList, 16 ≤ b.toNat := by
  intro b hb
  have hzero : self.bytes.toList.countP (fun b => b.toNat < 16) = 0 := by
    have hlength := ninuuidToString_length self ccase compressed
    obtain ⟨hkept, -, -⟩ := h
    omega
  simpa using List.countP_eq_zero.mp hzero b hb

theorem TextKept.numeral (h : TextKept self .lowercase compressed) :
    ∀ b ∈ self.bytes.toList, b.toNat/16 ≤ 9 ∧ b.toNat%16 ≤ 9 := by
  intro b hb
  have hlarge := h.large b hb
  have hlt := b.toNat_lt
  obtain ⟨-, hform, -⟩ := h
  -- each of the two digits is in the text, and no hyphen
  have hdigit (d : ℕ) (hd : d < 16) (hmem : hexDigit d ∈ hexByte b) : d ≤ 9 := by
    have hin := mem_sprintf_of_byte _ _ (hexCount_fmt self compressed) b hb _ hmem
    rw [← ninuuidToString_eq self .lowercase compressed] at hin
    rcases fits_of_mem .lowercase compressed hform _ hin with hdash | hlower
    · exact absurd hdash (hexDigit_plain d hd).2.1
    · exact (isHexOf_lower d hd).mp hlower
  have hbyte : hexByte b = [hexDigit (b.toNat/16), hexDigit (b.toNat%16)] := by
    rw [hexByte, if_neg (not_lt.mpr hlarge)]
  rw [hbyte] at hdigit
  exact ⟨hdigit _ (by omega) (by simp), hdigit _ (by omega) (by simp)⟩

/-- With both digits of every byte in the case asked for, the text is read back. -/
theorem textKept_of_twoDigits (htwo : ∀ b ∈ self.bytes.toList, TwoDigits ccase b) :
    TextKept self ccase compressed := by
  have hcount := hexCount_fmt self compressed
  have htext := ninuuidToString_eq self ccase compressed
  have hform := sprintf_places ccase _ _ hcount htwo
  rw [places_fmt, ← htext] at hform
  refine ⟨?_, hform, fun out => ?_⟩
  · have hlength := ninuuidToString_length self ccase compressed
    have hnone : self.bytes.toList.countP (fun b => b.toNat < 16) = 0 := by
      rw [List.countP_eq_zero]
      intro b hb
      simpa using (htwo b hb).1
    omega
  · have hninth := ninth_character ccase compressed hform
    have hscanned : sscanf (if compressed then fmtCompressed else fmtLong)
        (cString (ninuuidToString self ccase compressed)) = self.bytes.toList := by
      rw [ninuuidToString_terminated, htext, sscanf_sprintf _ _ hcount fun b hb => (htwo b hb).1]
    have hbytes : (Vector.ofFn fun i : Fin 16 => self.bytes.toList.getD i.val out.bytes[i]) =
        self.bytes := by
      apply Vector.ext
      intro i hi
      rw [Vector.getElem_ofFn, List.getD_eq_getElem _ _ (by rw [Vector.length_toList]; exact hi),
        Vector.getElem_toList]
    rw [ninuuidFromString]
    simp only [hninth, hscanned, hbytes, Vector.length_toList]
    rfl

theorem isHexOf_numeral (d : ℕ) (hd : d ≤ 9) : IsHexOf ccase (hexDigit d) := by
  cases ccase with
  | uppercase => exact isHexOf_upper d (by omega)
  | lowercase => exact (isHexOf_lower d (by omega)).mpr hd

variable (self ccase compressed)

/-- The text of a UUID is kept if and only if no byte is below 16, and large letters are asked for
or there are none. -/
theorem uuid_text_kept_iff : TextKept self ccase compressed ↔
    (∀ b ∈ self.bytes.toList, 16 ≤ b.toNat) ∧ (ccase = .uppercase ∨
      ∀ b ∈ self.bytes.toList, b.toNat/16 ≤ 9 ∧ b.toNat%16 ≤ 9) := by
  constructor
  · intro h
    refine ⟨h.large, ?_⟩
    cases ccase with
    | uppercase => exact .inl rfl
    | lowercase => exact .inr h.numeral
  · rintro ⟨hlarge, hcase⟩
    apply textKept_of_twoDigits
    intro b hb
    have hlt := b.toNat_lt
    refine ⟨hlarge b hb, ?_⟩
    -- a numeral has no case
    rcases hcase with rfl | hsmall
    · exact ⟨isHexOf_upper _ (by omega), isHexOf_upper _ (by omega)⟩
    · exact ⟨isHexOf_numeral _ (hsmall b hb).1, isHexOf_numeral _ (hsmall b hb).2⟩

/-- The UUID of zeros has a text of 20 characters. -/
theorem zero_uuid_short : ¬ ∀ self ccase compressed, TextKept self ccase compressed := by
  intro h
  obtain ⟨hlen, -, -⟩ := h ⟨Vector.replicate 16 0⟩ .lowercase false
  exact absurd hlen (by decide)

end RoundTrip
end Stronk.Uuid
