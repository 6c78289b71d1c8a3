import Stronk.JsonText

/-! The grammar of JSON: which bytes spell which value, and that a text is read as the value that it
spells. -/
namespace JsonText

section Grammar

def Spaces (cs : List UInt8) : Prop := ∀ c ∈ cs, isSpace c = true

def Digits (cs : List UInt8) : Prop := cs ≠ [] ∧ ∀ c ∈ cs, isDigit c = true

/-- What stands behind a backslash for some bytes. -/
inductive SpellsEscape : List UInt8 → List UInt8 → Prop
  | simple {c byte : UInt8} (h : simpleEscape c = some byte) : SpellsEscape [byte] [c]
  | unicode {digits : List UInt8} {value : ℕ} (h : hex4 digits = some (value, []))
      (hhigh : ¬ (0xD800 ≤ value ∧ value ≤ 0xDBFF)) (hlow : ¬ (0xDC00 ≤ value ∧ value ≤ 0xDFFF)) :
      SpellsEscape (utf8Encode value) (117 :: digits)
  | pair {digits digits2 : List UInt8} {value value2 : ℕ} (h : hex4 digits = some (value, []))
      (hhigh : 0xD800 ≤ value ∧ value ≤ 0xDBFF) (h2 : hex4 digits2 = some (value2, []))
      (hlow : 0xDC00 ≤ value2 ∧ value2 ≤ 0xDFFF) :
      SpellsEscape (utf8Encode ((value-0xD800)*1024+(value2-0xDC00)+0x10000))
        (117 :: (digits ++ 92 :: 117 :: digits2))

/-- What stands between quotes for a text. -/
inductive SpellsText : List UInt8 → List UInt8 → Prop
  | nil : SpellsText [] []
  | plain {c : UInt8} {text cs : List UInt8} (hquote : c ≠ 34) (hcontrol : ¬ c < 32)
      (hescape : c ≠ 92) (h : SpellsText text cs) : SpellsText (c :: text) (c :: cs)
  | escape {bytes text es cs : List UInt8} (hbytes : SpellsEscape bytes es) (h : SpellsText text cs) :
      SpellsText (bytes ++ text) (92 :: (es ++ cs))

/-- The parts of a number. The digits behind the point and those of the exponent come with the
character in front of them. -/
structure Number where
  sign : List UInt8
  int : List UInt8
  frac : List UInt8
  exp : List UInt8
  sign_eq : sign = [] ∨ sign = [45]
  int_eq : int = [48] ∨ Digits int ∧ int.head? ≠ some 48
  frac_eq : frac = [] ∨ ∃ ds, Digits ds ∧ frac = 46 :: ds
  exp_eq : exp = [] ∨ ∃ e sign ds, (e = 101 ∨ e = 69) ∧ (sign = [] ∨ sign = [43] ∨ sign = [45]) ∧
    Digits ds ∧ exp = e :: (sign ++ ds)

def Number.text (n : Number) : List UInt8 := n.sign ++ (n.int ++ (n.frac ++ n.exp))

/-- What some bytes may spell: a value, a value with white space around it, the elements of an array,
a member of an object, its members. -/
inductive Phrase
  | value (v : Json)
  | padded (v : Json)
  | elements (vs : List Json)
  | member (key : List UInt8) (v : Json)
  | members (ms : List (List UInt8 × Json))

inductive Spells : Phrase → List UInt8 → Prop
  | null : Spells (.value .null) [110, 117, 108, 108]
  | yes : Spells (.value (.bool true)) [116, 114, 117, 101]
  | no : Spells (.value (.bool false)) [102, 97, 108, 115, 101]
  | number (n : Number) : Spells (.value (.number n.text)) n.text
  | string {text cs : List UInt8} (h : SpellsText text cs) :
      Spells (.value (.string text)) (34 :: (cs ++ [34]))
  | emptyArray {a : List UInt8} (h : Spaces a) : Spells (.value (.array [])) (91 :: (a ++ [93]))
  | array {vs : List Json} {cs : List UInt8} (h : Spells (.elements vs) cs) :
      Spells (.value (.array vs)) (91 :: (cs ++ [93]))
  | emptyObject {a : List UInt8} (h : Spaces a) : Spells (.value (.object [])) (123 :: (a ++ [125]))
  | object {ms : List (List UInt8 × Json)} {cs : List UInt8} (h : Spells (.members ms) cs) :
      Spells (.value (.object ms)) (123 :: (cs ++ [125]))
  | padded {v : Json} {a cs b : List UInt8} (ha : Spaces a) (h : Spells (.value v) cs)
      (hb : Spaces b) : Spells (.padded v) (a ++ (cs ++ b))
  | lastElement {v : Json} {cs : List UInt8} (h : Spells (.padded v) cs) : Spells (.elements [v]) cs
  | element {v : Json} {vs : List Json} {cs ds : List UInt8} (h : Spells (.padded v) cs)
      (hs : Spells (.elements vs) ds) : Spells (.elements (v :: vs)) (cs ++ 44 :: ds)
  | member {key : List UInt8} {v : Json} {a ks b cs : List UInt8} (ha : Spaces a)
      (hkey : SpellsText key ks) (hb : Spaces b) (h : Spells (.padded v) cs) :
      Spells (.member key v) (a ++ 34 :: (ks ++ 34 :: (b ++ 58 :: cs)))
  | lastMember {key : List UInt8} {v : Json} {cs : List UInt8} (h : Spells (.member key v) cs) :
      Spells (.members [(key, v)]) cs
  | moreMembers {key : List UInt8} {v : Json} {ms : List (List UInt8 × Json)} {cs ds : List UInt8}
      (h : Spells (.member key v) cs) (hs : Spells (.members ms) ds) :
      Spells (.members ((key, v) :: ms)) (cs ++ 44 :: ds)

end Grammar

section Texts

theorem hex4_front {cs rest : List UInt8} {value : ℕ} (h : hex4 cs = some (value, rest)) :
    ∃ digits, cs = digits ++ rest ∧ hex4 digits = some (value, []) := by
  match cs with
  | a :: b :: c :: d :: cs =>
    simp only [hex4, Option.bind_eq_bind, Option.bind_eq_some_iff, Option.some.injEq,
      Prod.mk.injEq] at h
    obtain ⟨w, hw, x, hx, y, hy, z, hz, rfl, rfl⟩ := h
    exact ⟨[a, b, c, d], rfl, by simp [hex4, hw, hx, hy, hz]⟩
  | [] => cases h
  | [_] => cases h
  | [_, _] => cases h
  | [_, _, _] => cases h

theorem hex4_append {digits : List UInt8} {value : ℕ} (h : hex4 digits = some (value, []))
    (rest : List UInt8) : hex4 (digits ++ rest) = some (value, rest) := by
  match digits with
  | a :: b :: c :: d :: cs =>
    simp only [hex4, Option.bind_eq_bind, Option.bind_eq_some_iff, Option.some.injEq,
      Prod.mk.injEq] at h
    obtain ⟨w, hw, x, hx, y, hy, z, hz, rfl, rfl⟩ := h
    simp [hex4, hw, hx, hy, hz]
  | [] => cases h
  | [_] => cases h
  | [_, _] => cases h
  | [_, _, _] => cases h

theorem escape_sound {cs bytes rest : List UInt8} (h : escape cs = some (bytes, rest)) :
    ∃ es, cs = es ++ rest ∧ SpellsEscape bytes es := by
  match cs with
  | [] => cases h
  | c :: cs =>
    rw [escape] at h
    split_ifs at h with hu
    · subst hu
      rw [unicodeEscape, Option.bind_eq_some_iff] at h
      obtain ⟨⟨value, rest1⟩, h1, h⟩ := h
      obtain ⟨digits, rfl, hdigits⟩ := hex4_front h1
      dsimp only at h
      split_ifs at h with hhigh hpair hlow
      · obtain ⟨⟨value2, rest2⟩, h2, h⟩ := Option.bind_eq_some_iff.mp h
        obtain ⟨digits2, hrest, hdigits2⟩ := hex4_front h2
        dsimp only at h
        split_ifs at h with hlow2
        simp only [Option.some.injEq, Prod.mk.injEq] at h
        obtain ⟨rfl, rfl⟩ := h
        have hsplit : rest1 = [92, 117] ++ (digits2 ++ rest2) := by
          rw [← hrest, ← hpair, List.take_append_drop]
        refine ⟨_, ?_, .pair hdigits hhigh hdigits2 hlow2⟩
        rw [hsplit]
        simp
      · cases h
        exact ⟨117 :: digits, rfl, .unicode hdigits hhigh hlow⟩
    · obtain ⟨byte, hbyte, hpair⟩ := Option.map_eq_some_iff.mp h
      cases hpair
      exact ⟨[c], rfl, .simple hbyte⟩

theorem escape_complete {bytes es : List UInt8} (h : SpellsEscape bytes es) (rest : List UInt8) :
    escape (es ++ rest) = some (bytes, rest) := by
  cases h with
  | @simple c byte h =>
    have hc : c ≠ 117 := by
      rintro rfl
      cases h
    rw [List.singleton_append, escape, if_neg hc, h]
    rfl
  | unicode h hhigh hlow =>
    rw [List.cons_append, escape, if_pos rfl, unicodeEscape, hex4_append h, Option.bind_some]
    simp only [if_neg hhigh, if_neg hlow]
  | pair h hhigh h2 hlow =>
    rw [List.cons_append, List.append_assoc, escape, if_pos rfl, unicodeEscape, hex4_append h,
      Option.bind_some]
    simp only [if_pos hhigh, List.cons_append, List.take_succ_cons, List.take_zero, if_true,
      List.drop_succ_cons, List.drop_zero, hex4_append h2, Option.bind_some, if_pos hlow]

theorem scanString_sound {fuel : ℕ} {cs text rest : List UInt8}
    (h : scanString fuel cs = some (text, rest)) :
    ∃ inner, cs = inner ++ 34 :: rest ∧ SpellsText text inner := by
  induction fuel generalizing cs text with
  | zero => cases h
  | succ fuel ih =>
    match cs with
    | [] => cases h
    | c :: cs =>
      rw [scanString] at h
      split_ifs at h with hquote hcontrol hescape
      · cases h
        exact ⟨[], by rw [hquote]; rfl, .nil⟩
      · obtain ⟨⟨bytes, rest1⟩, h1, h⟩ := Option.bind_eq_some_iff.mp h
        obtain ⟨⟨more, rest2⟩, h2, hmore⟩ := Option.map_eq_some_iff.mp h
        cases hmore
        obtain ⟨es, rfl, hes⟩ := escape_sound h1
        obtain ⟨inner, rfl, hinner⟩ := ih h2
        exact ⟨92 :: (es ++ inner), by simp [hescape], .escape hes hinner⟩
      · obtain ⟨⟨more, rest2⟩, h2, hmore⟩ := Option.map_eq_some_iff.mp h
        cases hmore
        obtain ⟨inner, rfl, hinner⟩ := ih h2
        exact ⟨c :: inner, rfl, .plain hquote hcontrol hescape hinner⟩

theorem scanString_complete {text inner : List UInt8} (h : SpellsText text inner) (rest : List UInt8)
    {fuel : ℕ} (hfuel : inner.length < fuel) :
    scanString fuel (inner ++ 34 :: rest) = some (text, rest) := by
  induction h generalizing fuel with
  | nil =>
    obtain ⟨fuel, rfl⟩ := Nat.exists_eq_succ_of_ne_zero (Nat.ne_of_gt hfuel)
    rw [List.nil_append, scanString, if_pos rfl]
  | @plain c text cs hquote hcontrol hescape _ ih =>
    rw [List.length_cons] at hfuel
    obtain ⟨fuel, rfl⟩ := Nat.exists_eq_succ_of_ne_zero (Nat.ne_of_gt (Nat.zero_lt_of_lt hfuel))
    rw [List.cons_append, scanString, if_neg hquote, if_neg hcontrol, if_neg hescape,
      ih (Nat.lt_of_succ_lt_succ hfuel)]
    rfl
  | @escape bytes text es cs hbytes _ ih =>
    rw [List.length_cons, List.length_append] at hfuel
    obtain ⟨fuel, rfl⟩ := Nat.exists_eq_succ_of_ne_zero (Nat.ne_of_gt (Nat.zero_lt_of_lt hfuel))
    rw [List.cons_append, List.append_assoc, scanString, if_neg (by decide), if_neg (by decide),
      if_pos rfl, escape_complete hbytes, Option.bind_some]
    have hrest := ih (show cs.length < fuel by omega)
    dsimp only
    rw [hrest]
    rfl

end Texts

section Spaces

theorem spaces_nil : Spaces [] := fun _ hc => absurd hc List.not_mem_nil

theorem skipSpace_spaces {a : List UInt8} (ha : Spaces a) {c : UInt8} (hc : isSpace c = false)
    (cs : List UInt8) : skipSpace (a ++ c :: cs) = c :: cs := by
  rw [skipSpace, List.dropWhile_append_of_pos ha]
  exact skipSpace_cons hc cs

theorem spaces_skipSpace (cs : List UInt8) : ∃ a, Spaces a ∧ cs = a ++ skipSpace cs := by
  refine ⟨cs.takeWhile isSpace, fun c hc => ?_, (List.takeWhile_append_dropWhile).symm⟩
  exact List.mem_takeWhile_imp hc

theorem behind_spaces {a : List UInt8} (ha : Spaces a) {c : UInt8} (hc : isSpace c = false)
    (cs : List UInt8) : behind c (a ++ c :: cs) = some cs := by
  rw [behind, skipSpace_spaces ha hc, List.head?_cons, if_pos rfl]
  rfl

theorem behind_other {a : List UInt8} (ha : Spaces a) {c d : UInt8} (hc : isSpace c = false)
    (hd : c ≠ d) (cs : List UInt8) : behind d (a ++ c :: cs) = none := by
  rw [behind, skipSpace_spaces ha hc, List.head?_cons, if_neg]
  exact fun h => hd (Option.some.inj h)

theorem behind_sound {c : UInt8} {cs rest : List UInt8} (h : behind c cs = some rest) :
    ∃ a, Spaces a ∧ cs = a ++ c :: rest := by
  obtain ⟨a, ha, hcs⟩ := spaces_skipSpace cs
  rw [behind] at h
  split_ifs at h with hhead
  cases h
  refine ⟨a, ha, hcs.trans ?_⟩
  cases hskip : skipSpace cs with
  | nil =>
    rw [hskip] at hhead
    cases hhead
  | cons d ds =>
    rw [hskip] at hhead
    cases hhead
    rfl

theorem scanText_complete {text inner a : List UInt8} (ha : Spaces a) (h : SpellsText text inner)
    (rest : List UInt8) : scanText (a ++ 34 :: (inner ++ 34 :: rest)) = some (text, rest) := by
  rw [scanText, behind_spaces ha (by decide), Option.bind_some]
  apply scanString_complete h
  rw [List.length_append, List.length_cons]
  omega

theorem scanText_sound {cs text rest : List UInt8} (h : scanText cs = some (text, rest)) :
    ∃ a inner, Spaces a ∧ cs = a ++ 34 :: (inner ++ 34 :: rest) ∧ SpellsText text inner := by
  obtain ⟨behindQuote, hquote, h⟩ := Option.bind_eq_some_iff.mp h
  obtain ⟨a, ha, hcs⟩ := behind_sound hquote
  obtain ⟨inner, hinner, hspells⟩ := scanString_sound h
  exact ⟨a, inner, ha, by rw [hcs, hinner], hspells⟩

end Spaces

section Numbers

theorem isDigit_bounds {c : UInt8} (h : isDigit c = true) : 48 ≤ c ∧ c ≤ 57 := by
  simpa [isDigit] using h

theorem ne_of_isDigit {c d : UInt8} (h : isDigit c = true) (hd : isDigit d = false) : c ≠ d := by
  rintro rfl
  rw [h] at hd
  cases hd

theorem isSpace_cases {c : UInt8} (h : isSpace c = true) : c = 32 ∨ c = 9 ∨ c = 10 ∨ c = 13 := by
  simpa [isSpace, or_assoc] using h

theorem isSpace_of_isDigit {c : UInt8} (h : isDigit c = true) : isSpace c = false := by
  by_contra hspace
  rw [Bool.not_eq_false] at hspace
  obtain rfl | rfl | rfl | rfl := isSpace_cases hspace <;> exact absurd h (by decide)

/-- Where digits end. -/
def NoDigit (cs : List UInt8) : Prop := ∀ c, cs.head? = some c → isDigit c = false

/-- Where any number ends. -/
def Breaks (cs : List UInt8) : Prop :=
  ∀ c, cs.head? = some c → isDigit c = false ∧ c ≠ 46 ∧ c ≠ 101 ∧ c ≠ 69

theorem Breaks.noDigit {cs : List UInt8} (h : Breaks cs) : NoDigit cs := fun c hc => (h c hc).1

theorem breaks_nil : Breaks [] := fun _ hc => by cases hc

theorem breaks_delimiter {c : UInt8} (hc : c = 44 ∨ c = 93 ∨ c = 125) (cs : List UInt8) :
    Breaks (c :: cs) := by
  intro d hd
  cases hd
  obtain rfl | rfl | rfl := hc <;> decide

theorem Breaks.spaces {a cs : List UInt8} (h : Breaks cs) (ha : Spaces a) : Breaks (a ++ cs) := by
  cases a with
  | nil => exact h
  | cons d a =>
    intro c hc
    obtain rfl := Option.some.inj hc
    obtain rfl | rfl | rfl | rfl := isSpace_cases (ha d (List.mem_cons_self ..)) <;> decide

theorem Digits.head {ds : List UInt8} (h : Digits ds) :
    ∃ d more, ds = d :: more ∧ isDigit d = true := by
  obtain ⟨d, more, rfl⟩ := List.exists_cons_of_ne_nil h.1
  exact ⟨d, more, rfl, h.2 d (List.mem_cons_self ..)⟩

theorem skipDigits_complete {ds rest : List UInt8} (h : Digits ds) (hrest : NoDigit rest) :
    skipDigits (ds ++ rest) = some rest := by
  obtain ⟨d, more, hds, hd⟩ := h.head
  have hstop : rest.dropWhile isDigit = rest := by
    cases rest with
    | nil => rfl
    | cons c cs => rw [List.dropWhile_cons_of_neg (by simp [hrest c rfl])]
  rw [skipDigits, List.dropWhile_append_of_pos h.2, hstop, if_pos]
  simp [hds, hd]

theorem skipDigits_sound {cs rest : List UInt8} (h : skipDigits cs = some rest) :
    ∃ ds, Digits ds ∧ cs = ds ++ rest := by
  rw [skipDigits] at h
  split_ifs at h with hhead
  cases h
  refine ⟨cs.takeWhile isDigit, ⟨?_, fun c hc => List.mem_takeWhile_imp hc⟩,
    (List.takeWhile_append_dropWhile).symm⟩
  cases cs with
  | nil => cases hhead
  | cons c cs =>
    rw [List.takeWhile_cons_of_pos (by simpa using hhead)]
    exact List.cons_ne_nil _ _

theorem Number.first (n : Number) :
    ∃ c more, n.text = c :: more ∧ (c = 45 ∨ isDigit c = true) := by
  obtain hsign | hsign := n.sign_eq
  · obtain hint | ⟨hint, -⟩ := n.int_eq
    · exact ⟨48, n.frac ++ n.exp, by simp [Number.text, hsign, hint], .inr (by decide)⟩
    · obtain ⟨d, more, hd, hdigit⟩ := hint.head
      exact ⟨d, more ++ (n.frac ++ n.exp), by simp [Number.text, hsign, hd], .inr hdigit⟩
  · exact ⟨45, n.int ++ (n.frac ++ n.exp), by simp [Number.text, hsign], .inl rfl⟩

theorem Number.int_head (n : Number) : ∃ d more, n.int = d :: more ∧ isDigit d = true := by
  obtain hint | ⟨hint, -⟩ := n.int_eq
  · exact ⟨48, [], hint, by decide⟩
  · exact hint.head

theorem Number.breaks_exp (n : Number) {rest : List UInt8} (hrest : Breaks rest) :
    NoDigit (n.exp ++ rest) ∧ (n.exp ++ rest).head? ≠ some 46 := by
  obtain hexp | ⟨e, sign, ds, he, -, -, hexp⟩ := n.exp_eq
  · rw [hexp, List.nil_append]
    exact ⟨hrest.noDigit, fun h => (hrest 46 h).2.1 rfl⟩
  · rw [hexp, List.cons_append]
    constructor
    · intro c hc
      cases hc
      obtain rfl | rfl := he <;> decide
    · intro h
      obtain rfl := Option.some.inj h
      obtain h | h := he <;> cases h

theorem Number.breaks_frac (n : Number) {rest : List UInt8} (hrest : Breaks rest) :
    NoDigit (n.frac ++ (n.exp ++ rest)) := by
  obtain hfrac | ⟨ds, -, hfrac⟩ := n.frac_eq
  · rw [hfrac]
    exact (n.breaks_exp hrest).1
  · rw [hfrac]
    intro c hc
    cases hc
    decide

theorem Number.skipInteger (n : Number) {rest : List UInt8} (hrest : NoDigit rest) :
    skipInteger (n.int ++ rest) = some rest := by
  obtain hint | ⟨hint, hzero⟩ := n.int_eq
  · rw [hint]
    rfl
  · obtain ⟨d, more, hd, -⟩ := hint.head
    rw [JsonText.skipInteger, if_neg, skipDigits_complete hint hrest]
    rwa [hd] at hzero ⊢

theorem Number.skipFraction (n : Number) {rest : List UInt8} (hrest : Breaks rest) :
    skipFraction (n.frac ++ (n.exp ++ rest)) = some (n.exp ++ rest) := by
  have hexp := n.breaks_exp hrest
  obtain hfrac | ⟨ds, hds, hfrac⟩ := n.frac_eq
  · rw [hfrac, List.nil_append, JsonText.skipFraction, if_neg hexp.2]
  · rw [hfrac, List.cons_append, JsonText.skipFraction, List.head?_cons, if_pos rfl]
    exact skipDigits_complete hds hexp.1

theorem Number.skipExponent (n : Number) {rest : List UInt8} (hrest : Breaks rest) :
    skipExponent (n.exp ++ rest) = some rest := by
  obtain hexp | ⟨e, sign, ds, he, hsign, hds, hexp⟩ := n.exp_eq
  · rw [hexp, List.nil_append, JsonText.skipExponent, if_neg]
    exact not_or.mpr ⟨fun h => (hrest 101 h).2.2.1 rfl, fun h => (hrest 69 h).2.2.2 rfl⟩
  · have hhead : (n.exp ++ rest).head? = some 101 ∨ (n.exp ++ rest).head? = some 69 := by
      rw [hexp]
      exact he.imp (congrArg some) (congrArg some)
    rw [JsonText.skipExponent, if_pos hhead, hexp]
    obtain ⟨d, more, hd, hdigit⟩ := hds.head
    obtain rfl | rfl | rfl := hsign
    · have hplus := ne_of_isDigit hdigit (show isDigit 43 = false by decide)
      have hminus := ne_of_isDigit hdigit (show isDigit 45 = false by decide)
      rw [if_neg (by simp [hd, hplus, hminus])]
      exact skipDigits_complete hds hrest.noDigit
    · exact skipDigits_complete hds hrest.noDigit
    · exact skipDigits_complete hds hrest.noDigit

theorem scanNumber_complete (n : Number) {rest : List UInt8} (hrest : Breaks rest) :
    scanNumber (n.text ++ rest) = some (.number n.text, rest) := by
  have hsign : (if (n.text ++ rest).head? = some 45 then (n.text ++ rest).drop 1 else n.text ++ rest) =
      n.int ++ (n.frac ++ (n.exp ++ rest)) := by
    obtain hsign | hsign := n.sign_eq
    · obtain ⟨d, more, hd, hdigit⟩ := n.int_head
      have hminus := ne_of_isDigit hdigit (show isDigit 45 = false by decide)
      rw [if_neg (by simp [Number.text, hsign, hd, hminus])]
      simp [Number.text, hsign]
    · rw [if_pos (by simp [Number.text, hsign])]
      simp [Number.text, hsign]
  rw [scanNumber, hsign, n.skipInteger (n.breaks_frac hrest)]
  simp only [Option.bind_eq_bind, Option.bind_some, n.skipFraction hrest, n.skipExponent hrest,
    List.length_append, Nat.add_sub_cancel, List.take_left]

theorem eq_cons_of_head? {c : UInt8} {cs : List UInt8} (h : cs.head? = some c) :
    cs = c :: cs.drop 1 := by
  cases cs with
  | nil => cases h
  | cons d cs =>
    rw [Option.some.inj h]
    rfl

theorem skipInteger_sound {cs rest : List UInt8} (h : skipInteger cs = some rest) :
    ∃ int : List UInt8, cs = int ++ rest ∧ (int = [48] ∨ Digits int ∧ int.head? ≠ some 48) := by
  rw [skipInteger] at h
  split_ifs at h with hzero
  · cases h
    exact ⟨[48], eq_cons_of_head? hzero, .inl rfl⟩
  · obtain ⟨int, hint, rfl⟩ := skipDigits_sound h
    obtain ⟨d, more, rfl, -⟩ := hint.head
    exact ⟨d :: more, rfl, .inr ⟨hint, hzero⟩⟩

theorem skipFraction_sound {cs rest : List UInt8} (h : skipFraction cs = some rest) :
    ∃ frac : List UInt8, cs = frac ++ rest ∧ (frac = [] ∨ ∃ ds, Digits ds ∧ frac = 46 :: ds) := by
  rw [skipFraction] at h
  split_ifs at h with hpoint
  · obtain ⟨ds, hds, hdrop⟩ := skipDigits_sound h
    refine ⟨46 :: ds, ?_, .inr ⟨ds, hds, rfl⟩⟩
    rw [eq_cons_of_head? hpoint, hdrop]
    rfl
  · cases h
    exact ⟨[], rfl, .inl rfl⟩

theorem skipExponent_sound {cs rest : List UInt8} (h : skipExponent cs = some rest) :
    ∃ exp : List UInt8, cs = exp ++ rest ∧ (exp = [] ∨ ∃ e sign ds, (e = 101 ∨ e = 69) ∧
      (sign = [] ∨ sign = [43] ∨ sign = [45]) ∧ Digits ds ∧ exp = e :: (sign ++ ds)) := by
  rw [skipExponent] at h
  split_ifs at h with hletter hsign
  · have hcs : ∃ e sign, (e = 101 ∨ e = 69) ∧ (sign = [43] ∨ sign = [45]) ∧
        cs = e :: (sign ++ cs.drop 2) := by
      match cs with
      | [] => cases hsign <;> contradiction
      | [_] => cases hsign <;> contradiction
      | e :: s :: cs =>
        refine ⟨e, [s], ?_, ?_, rfl⟩
        · exact hletter.imp Option.some.inj Option.some.inj
        · exact hsign.imp (fun hs => congrArg (fun c => [c]) (Option.some.inj hs))
            (fun hs => congrArg (fun c => [c]) (Option.some.inj hs))
    obtain ⟨e, sign, he, hsign, hcs⟩ := hcs
    obtain ⟨ds, hds, hdrop⟩ := skipDigits_sound h
    refine ⟨e :: (sign ++ ds), ?_, .inr ⟨e, sign, ds, he, .inr hsign, hds, rfl⟩⟩
    rw [hcs, hdrop]
    simp
  · obtain ⟨ds, hds, hdrop⟩ := skipDigits_sound h
    have hcs : ∃ e, (e = 101 ∨ e = 69) ∧ cs = e :: cs.drop 1 :=
      hletter.elim (fun he => ⟨101, .inl rfl, eq_cons_of_head? he⟩)
        (fun he => ⟨69, .inr rfl, eq_cons_of_head? he⟩)
    obtain ⟨e, he, hcs⟩ := hcs
    refine ⟨e :: ds, ?_, .inr ⟨e, [], ds, he, .inl rfl, hds, rfl⟩⟩
    rw [hcs, hdrop]
    rfl
  · cases h
    exact ⟨[], rfl, .inl rfl⟩

theorem scanNumber_sound {cs rest : List UInt8} {v : Json} (h : scanNumber cs = some (v, rest)) :
    ∃ n : Number, cs = n.text ++ rest ∧ v = .number n.text := by
  simp only [scanNumber, Option.bind_eq_bind, Option.bind_eq_some_iff, Option.some.injEq,
    Prod.mk.injEq] at h
  obtain ⟨afterInt, hskip, afterFrac, hskipFrac, afterExp, hskipExp, rfl, rfl⟩ := h
  obtain ⟨int, hafter, hint⟩ := skipInteger_sound hskip
  obtain ⟨frac, rfl, hfrac⟩ := skipFraction_sound hskipFrac
  obtain ⟨exp, rfl, hexp⟩ := skipExponent_sound hskipExp
  obtain ⟨sign, hcs, hsign⟩ : ∃ sign : List UInt8,
      cs = sign ++ (if cs.head? = some 45 then cs.drop 1 else cs) ∧ (sign = [] ∨ sign = [45]) := by
    split_ifs with hminus
    · exact ⟨[45], eq_cons_of_head? hminus, .inr rfl⟩
    · exact ⟨[], rfl, .inl rfl⟩
  let n : Number := ⟨sign, int, frac, exp, hsign, hint, hfrac, hexp⟩
  have hwhole : cs = n.text ++ afterExp := by
    rw [hcs, hafter]
    simp [n, Number.text]
  refine ⟨n, hwhole, ?_⟩
  rw [hwhole, List.length_append, Nat.add_sub_cancel, List.take_left]

end Numbers

section Values

/-- A value starts with a character that neither white space nor the end of anything starts with. -/
theorem Spells.first {v : Json} {cs : List UInt8} (h : Spells (.value v) cs) :
    ∃ c more, cs = c :: more ∧ isSpace c = false ∧ c ≠ 44 ∧ c ≠ 93 ∧ c ≠ 125 := by
  cases h with
  | null => exact ⟨110, _, rfl, by decide⟩
  | yes => exact ⟨116, _, rfl, by decide⟩
  | no => exact ⟨102, _, rfl, by decide⟩
  | number n =>
    obtain ⟨c, more, hc, rfl | hdigit⟩ := n.first
    · exact ⟨45, more, hc, by decide⟩
    · exact ⟨c, more, hc, isSpace_of_isDigit hdigit, ne_of_isDigit hdigit (by decide),
        ne_of_isDigit hdigit (by decide), ne_of_isDigit hdigit (by decide)⟩
  | string h => exact ⟨34, _, rfl, by decide⟩
  | emptyArray h => exact ⟨91, _, rfl, by decide⟩
  | array h => exact ⟨91, _, rfl, by decide⟩
  | emptyObject h => exact ⟨123, _, rfl, by decide⟩
  | object h => exact ⟨123, _, rfl, by decide⟩

/-- An array or an object that has something in it does not end there. -/
theorem Spells.not_behind {v : Json} {cs : List UInt8} (h : Spells (.padded v) cs) {d : UInt8}
    (hd : d = 93 ∨ d = 125) (rest : List UInt8) : behind d (cs ++ rest) = none := by
  cases h with
  | @padded _ a cs b ha h hb =>
    obtain ⟨c, more, rfl, hspace, -, hbracket, hbrace⟩ := h.first
    rw [List.append_assoc, List.cons_append, List.cons_append]
    apply behind_other ha hspace
    obtain rfl | rfl := hd
    · exact hbracket
    · exact hbrace

theorem scanText_spaces {a : List UInt8} (ha : Spaces a) {c : UInt8} (hc : isSpace c = false)
    (cs : List UInt8) : scanText (a ++ c :: cs) = scanText (c :: cs) := by
  rw [scanText, scanText, behind, behind, skipSpace_spaces ha hc, skipSpace_cons hc]

theorem scanValue_spaces (fuel : ℕ) {a : List UInt8} (ha : Spaces a) {c : UInt8}
    (hc : isSpace c = false) (cs : List UInt8) :
    scanValue fuel (a ++ c :: cs) = scanValue fuel (c :: cs) := by
  cases fuel with
  | zero => rfl
  | succ fuel =>
    rw [scanValue, scanValue, skipSpace_spaces ha hc, skipSpace_cons hc, scanText_spaces ha hc]

/-- What is read of the bytes that spell a phrase, whatever follows them. -/
def ScansAs : Phrase → List UInt8 → Prop
  | .value v, cs => ∀ fuel rest, Breaks rest → cs.length ≤ fuel →
    scanValue fuel (cs ++ rest) = some (v, rest)
  | .padded v, cs => ∀ fuel rest, Breaks rest → cs.length ≤ fuel →
    ∃ b, Spaces b ∧ scanValue fuel (cs ++ rest) = some (v, b ++ rest)
  | .elements vs, cs => ∀ fuel rest, cs.length < fuel →
    behind 93 (cs ++ 93 :: rest) = none ∧ scanElements fuel (cs ++ 93 :: rest) = some (vs, rest)
  | .member key v, cs => ∀ fuel rest, Breaks rest → cs.length ≤ fuel →
    ∃ b, Spaces b ∧ behind 125 (cs ++ rest) = none ∧
      scanMembers (fuel+1) (cs ++ rest) = moreMembers fuel (key, v) (b ++ rest)
  | .members ms, cs => ∀ fuel rest, cs.length < fuel →
    behind 125 (cs ++ 125 :: rest) = none ∧ scanMembers fuel (cs ++ 125 :: rest) = some (ms, rest)

theorem scanValue_number (fuel : ℕ) (n : Number) {rest : List UInt8} (hrest : Breaks rest) :
    scanValue (fuel+1) (n.text ++ rest) = some (.number n.text, rest) := by
  have hscan := scanNumber_complete n hrest
  obtain ⟨c, more, hc, hfirst⟩ := n.first
  have hspace : isSpace c = false := by
    obtain rfl | hdigit := hfirst
    · decide
    · exact isSpace_of_isDigit hdigit
  have hne {d : UInt8} (h45 : 45 ≠ d) (hd : isDigit d = false) : c ≠ d := by
    obtain rfl | hdigit := hfirst
    · exact h45
    · exact ne_of_isDigit hdigit hd
  rw [hc, List.cons_append] at hscan ⊢
  rw [scanValue, skipSpace_cons hspace]
  simp only [List.head?_cons, if_neg (hne (d := 34) (by decide) (by decide)),
    if_neg (hne (d := 123) (by decide) (by decide)), if_neg (hne (d := 91) (by decide) (by decide)),
    if_pos hfirst, hscan]

theorem scanValue_string (fuel : ℕ) {text cs : List UInt8} (h : SpellsText text cs)
    (rest : List UInt8) :
    scanValue (fuel+1) (34 :: (cs ++ 34 :: rest)) = some (.string text, rest) := by
  have htext : scanString (cs ++ 34 :: rest).length (cs ++ 34 :: rest) = some (text, rest) := by
    apply scanString_complete h
    rw [List.length_append, List.length_cons]
    omega
  rw [scanValue_text, htext]
  rfl

theorem scanValue_array (fuel : ℕ) {cs : List UInt8} (h : behind 93 cs = none) :
    scanValue (fuel+1) (91 :: cs) = (scanElements fuel cs).map fun p => (.array p.1, p.2) := by
  rw [scanValue, skipSpace_cons (by decide)]
  simp only [List.head?_cons, List.drop_succ_cons, List.drop_zero, h]
  rfl

theorem scanValue_members (fuel : ℕ) {cs : List UInt8} (h : behind 125 cs = none) :
    scanValue (fuel+1) (123 :: cs) = (scanMembers fuel cs).map fun p => (.object p.1, p.2) := by
  rw [scanValue, skipSpace_cons (by decide)]
  simp only [List.head?_cons, List.drop_succ_cons, List.drop_zero, h]
  rfl

/-- By induction on how the phrase is spelled; the counter is used up no faster than the bytes. -/
theorem Spells.scans {p : Phrase} {cs : List UInt8} (h : Spells p cs) : ScansAs p cs := by
  induction h with
  | null | yes | no =>
    intro fuel rest _ hfuel
    obtain ⟨fuel, rfl⟩ := Nat.exists_eq_succ_of_ne_zero (Nat.ne_of_gt (Nat.zero_lt_of_lt hfuel))
    rfl
  | number n =>
    intro fuel rest hrest hfuel
    obtain ⟨c, more, hc, -⟩ := n.first
    rw [hc, List.length_cons] at hfuel
    obtain ⟨fuel, rfl⟩ := Nat.exists_eq_succ_of_ne_zero (Nat.ne_of_gt (Nat.zero_lt_of_lt hfuel))
    exact scanValue_number fuel n hrest
  | @string text cs h =>
    intro fuel rest _ hfuel
    obtain ⟨fuel, rfl⟩ := Nat.exists_eq_succ_of_ne_zero (Nat.ne_of_gt (Nat.zero_lt_of_lt hfuel))
    rw [List.cons_append, List.append_assoc]
    exact scanValue_string fuel h rest
  | @emptyArray a ha =>
    intro fuel rest _ hfuel
    obtain ⟨fuel, rfl⟩ := Nat.exists_eq_succ_of_ne_zero (Nat.ne_of_gt (Nat.zero_lt_of_lt hfuel))
    rw [List.cons_append, List.append_assoc, scanValue, skipSpace_cons (by decide)]
    simp only [List.head?_cons, List.drop_succ_cons, List.drop_zero, List.singleton_append,
      behind_spaces ha (show isSpace 93 = false by decide)]
    rfl
  | @array vs cs _ ih =>
    intro fuel rest _ hfuel
    simp only [List.length_cons, List.length_append, List.length_nil] at hfuel
    obtain ⟨fuel, rfl⟩ := Nat.exists_eq_succ_of_ne_zero (Nat.ne_of_gt (Nat.zero_lt_of_lt hfuel))
    obtain ⟨hopen, hscan⟩ := ih fuel rest (by omega)
    rw [List.cons_append, List.append_assoc, List.singleton_append, scanValue_array fuel hopen, hscan]
    rfl
  | @emptyObject a ha =>
    intro fuel rest _ hfuel
    obtain ⟨fuel, rfl⟩ := Nat.exists_eq_succ_of_ne_zero (Nat.ne_of_gt (Nat.zero_lt_of_lt hfuel))
    rw [List.cons_append, List.append_assoc, scanValue, skipSpace_cons (by decide)]
    simp only [List.head?_cons, List.drop_succ_cons, List.drop_zero, List.singleton_append,
      behind_spaces ha (show isSpace 125 = false by decide)]
    rfl
  | @object ms cs _ ih =>
    intro fuel rest _ hfuel
    simp only [List.length_cons, List.length_append, List.length_nil] at hfuel
    obtain ⟨fuel, rfl⟩ := Nat.exists_eq_succ_of_ne_zero (Nat.ne_of_gt (Nat.zero_lt_of_lt hfuel))
    obtain ⟨hopen, hscan⟩ := ih fuel rest (by omega)
    rw [List.cons_append, List.append_assoc, List.singleton_append, scanValue_members fuel hopen,
      hscan]
    rfl
  | @padded v a cs b ha h hb ih =>
    intro fuel rest hrest hfuel
    rw [List.length_append, List.length_append] at hfuel
    refine ⟨b, hb, ?_⟩
    have hscan := ih fuel (b ++ rest) (hrest.spaces hb) (by omega)
    obtain ⟨c, more, hc, hspace, -⟩ := h.first
    rw [List.append_assoc, List.append_assoc, ← hscan, hc, List.cons_append,
      scanValue_spaces fuel ha hspace]
  | @lastElement v cs h ih =>
    intro fuel rest hfuel
    obtain ⟨fuel, rfl⟩ := Nat.exists_eq_succ_of_ne_zero (Nat.ne_of_gt (Nat.zero_lt_of_lt hfuel))
    obtain ⟨b, hb, hscan⟩ := ih fuel (93 :: rest) (breaks_delimiter (by simp) rest)
      (Nat.le_of_lt_succ hfuel)
    refine ⟨h.not_behind (.inl rfl) _, ?_⟩
    rw [scanElements, hscan, Option.bind_some]
    simp only [behind_other hb (show isSpace 93 = false by decide) (show (93 : UInt8) ≠ 44 by decide),
      behind_spaces hb (show isSpace 93 = false by decide)]
    rfl
  | @element v vs cs ds h _ ih ihs =>
    intro fuel rest hfuel
    rw [List.length_append, List.length_cons] at hfuel
    obtain ⟨fuel, rfl⟩ := Nat.exists_eq_succ_of_ne_zero (Nat.ne_of_gt (Nat.zero_lt_of_lt hfuel))
    obtain ⟨b, hb, hscan⟩ := ih fuel (44 :: (ds ++ 93 :: rest)) (breaks_delimiter (by simp) _)
      (by omega)
    obtain ⟨-, hmore⟩ := ihs fuel rest (by omega)
    rw [List.append_assoc, List.cons_append]
    refine ⟨h.not_behind (.inl rfl) _, ?_⟩
    rw [scanElements, hscan, Option.bind_some]
    simp only [behind_spaces hb (show isSpace 44 = false by decide), hmore]
    rfl
  | @member key v a ks b cs ha hkey hb h ih =>
    intro fuel rest hrest hfuel
    simp only [List.length_append, List.length_cons] at hfuel
    obtain ⟨d, hd, hscan⟩ := ih fuel rest hrest (by omega)
    have hassoc : a ++ 34 :: (ks ++ 34 :: (b ++ 58 :: cs)) ++ rest =
        a ++ 34 :: (ks ++ 34 :: (b ++ 58 :: (cs ++ rest))) := by simp
    refine ⟨d, hd, ?_, ?_⟩
    · rw [hassoc]
      exact behind_other ha (by decide) (by decide) _
    · rw [hassoc, scanMembers, scanText_complete ha hkey, Option.bind_some]
      dsimp only
      rw [behind_spaces hb (by decide), Option.bind_some, hscan]
      rfl
  | @lastMember key v cs _ ih =>
    intro fuel rest hfuel
    obtain ⟨fuel, rfl⟩ := Nat.exists_eq_succ_of_ne_zero (Nat.ne_of_gt (Nat.zero_lt_of_lt hfuel))
    obtain ⟨b, hb, hopen, hscan⟩ := ih fuel (125 :: rest) (breaks_delimiter (by simp) rest)
      (Nat.le_of_lt_succ hfuel)
    refine ⟨hopen, ?_⟩
    rw [hscan, JsonText.moreMembers]
    simp only [behind_other hb (show isSpace 125 = false by decide)
      (show (125 : UInt8) ≠ 44 by decide), behind_spaces hb (show isSpace 125 = false by decide)]
    rfl
  | @moreMembers key v ms cs ds _ _ ih ihs =>
    intro fuel rest hfuel
    rw [List.length_append, List.length_cons] at hfuel
    obtain ⟨fuel, rfl⟩ := Nat.exists_eq_succ_of_ne_zero (Nat.ne_of_gt (Nat.zero_lt_of_lt hfuel))
    obtain ⟨b, hb, hopen, hscan⟩ := ih fuel (44 :: (ds ++ 125 :: rest))
      (breaks_delimiter (by simp) _) (by omega)
    obtain ⟨-, hmore⟩ := ihs fuel rest (by omega)
    rw [List.append_assoc, List.cons_append]
    refine ⟨hopen, ?_⟩
    rw [hscan, JsonText.moreMembers]
    simp only [behind_spaces hb (show isSpace 44 = false by decide), hmore]
    rfl

/-- What is read is spelled by the bytes that were taken off, behind white space. -/
structure ScansSound (fuel : ℕ) : Prop where
  value : ∀ cs v rest, scanValue fuel cs = some (v, rest) →
    ∃ a t, Spaces a ∧ cs = a ++ (t ++ rest) ∧ Spells (.value v) t
  elements : ∀ cs vs rest, scanElements fuel cs = some (vs, rest) →
    ∃ t, cs = t ++ 93 :: rest ∧ Spells (.elements vs) t
  members : ∀ cs ms rest, scanMembers fuel cs = some (ms, rest) →
    ∃ t, cs = t ++ 125 :: rest ∧ Spells (.members ms) t

theorem scanName_sound {cs rest : List UInt8} {v : Json} (h : scanName cs = some (v, rest)) :
    ∃ t, cs = t ++ rest ∧ Spells (.value v) t := by
  have hsplit (n : ℕ) : cs = cs.take n ++ cs.drop n := (List.take_append_drop n cs).symm
  rw [scanName] at h
  split_ifs at h with hnull hyes hno
  · cases h
    exact ⟨_, hnull ▸ hsplit 4, .null⟩
  · cases h
    exact ⟨_, hyes ▸ hsplit 4, .yes⟩
  · cases h
    exact ⟨_, hno ▸ hsplit 5, .no⟩

variable {fuel : ℕ}

theorem ScansSound.scanElements_succ (h : ScansSound fuel) {cs rest : List UInt8} {vs : List Json}
    (hscan : scanElements (fuel+1) cs = some (vs, rest)) :
    ∃ t, cs = t ++ 93 :: rest ∧ Spells (.elements vs) t := by
  rw [scanElements, Option.bind_eq_some_iff] at hscan
  obtain ⟨⟨v, rest1⟩, hvalue, hscan⟩ := hscan
  obtain ⟨a, t, ha, rfl, ht⟩ := h.value _ _ _ hvalue
  dsimp only at hscan
  cases hcomma : behind 44 rest1 with
  | some rest2 =>
    rw [hcomma] at hscan
    obtain ⟨⟨more, rest3⟩, hmore, hpair⟩ := Option.map_eq_some_iff.mp hscan
    cases hpair
    obtain ⟨b, hb, rfl⟩ := behind_sound hcomma
    obtain ⟨ts, rfl, hts⟩ := h.elements _ _ _ hmore
    exact ⟨a ++ (t ++ b) ++ 44 :: ts, by simp, .element (.padded ha ht hb) hts⟩
  | none =>
    rw [hcomma] at hscan
    obtain ⟨rest2, hend, hpair⟩ := Option.map_eq_some_iff.mp hscan
    cases hpair
    obtain ⟨b, hb, rfl⟩ := behind_sound hend
    exact ⟨a ++ (t ++ b), by simp, .lastElement (.padded ha ht hb)⟩

theorem ScansSound.scanMembers_succ (h : ScansSound fuel) {cs rest : List UInt8}
    {ms : List (List UInt8 × Json)} (hscan : scanMembers (fuel+1) cs = some (ms, rest)) :
    ∃ t, cs = t ++ 125 :: rest ∧ Spells (.members ms) t := by
  rw [scanMembers, Option.bind_eq_some_iff] at hscan
  obtain ⟨⟨key, rest1⟩, hkey, hscan⟩ := hscan
  obtain ⟨a, ks, ha, rfl, hks⟩ := scanText_sound hkey
  rw [Option.bind_eq_some_iff] at hscan
  obtain ⟨rest2, hcolon, hscan⟩ := hscan
  obtain ⟨b, hb, rfl⟩ := behind_sound hcolon
  rw [Option.bind_eq_some_iff] at hscan
  obtain ⟨⟨v, rest3⟩, hvalue, hscan⟩ := hscan
  obtain ⟨c, t, hc, rfl, ht⟩ := h.value _ _ _ hvalue
  dsimp only at hscan
  cases hcomma : behind 44 rest3 with
  | some rest4 =>
    rw [hcomma] at hscan
    obtain ⟨⟨more, rest5⟩, hmore, hpair⟩ := Option.map_eq_some_iff.mp hscan
    cases hpair
    obtain ⟨d, hd, rfl⟩ := behind_sound hcomma
    obtain ⟨ts, rfl, hts⟩ := h.members _ _ _ hmore
    exact ⟨a ++ 34 :: (ks ++ 34 :: (b ++ 58 :: (c ++ (t ++ d)))) ++ 44 :: ts, by simp,
      .moreMembers (.member ha hks hb (.padded hc ht hd)) hts⟩
  | none =>
    rw [hcomma] at hscan
    obtain ⟨rest4, hend, hpair⟩ := Option.map_eq_some_iff.mp hscan
    cases hpair
    obtain ⟨d, hd, rfl⟩ := behind_sound hend
    exact ⟨a ++ 34 :: (ks ++ 34 :: (b ++ 58 :: (c ++ (t ++ d)))), by simp,
      .lastMember (.member ha hks hb (.padded hc ht hd))⟩

theorem ScansSound.scanValue_succ (h : ScansSound fuel) {cs rest : List UInt8} {v : Json}
    (hscan : scanValue (fuel+1) cs = some (v, rest)) :
    ∃ a t, Spaces a ∧ cs = a ++ (t ++ rest) ∧ Spells (.value v) t := by
  obtain ⟨a, ha, hcs⟩ := spaces_skipSpace cs
  rw [scanValue] at hscan
  cases hhead : (skipSpace cs).head? with
  | none =>
    rw [hhead] at hscan
    cases hscan
  | some c =>
    have hskip := eq_cons_of_head? hhead
    rw [hhead] at hscan
    dsimp only at hscan
    split_ifs at hscan with hquote hbrace hbracket hnumber
    · obtain ⟨⟨text, rest1⟩, htext, hpair⟩ := Option.map_eq_some_iff.mp hscan
      cases hpair
      obtain ⟨b, inner, hb, rfl, hinner⟩ := scanText_sound htext
      exact ⟨b, 34 :: (inner ++ [34]), hb, by simp, .string hinner⟩
    · subst hbrace
      cases hend : behind 125 ((skipSpace cs).drop 1) with
      | some rest1 =>
        rw [hend] at hscan
        cases hscan
        obtain ⟨b, hb, hdrop⟩ := behind_sound hend
        refine ⟨a, 123 :: (b ++ [125]), ha, ?_, .emptyObject hb⟩
        rw [hcs, hskip, hdrop]
        simp
      | none =>
        rw [hend] at hscan
        obtain ⟨⟨ms, rest1⟩, hms, hpair⟩ := Option.map_eq_some_iff.mp hscan
        cases hpair
        obtain ⟨t, hdrop, ht⟩ := h.members _ _ _ hms
        refine ⟨a, 123 :: (t ++ [125]), ha, ?_, .object ht⟩
        rw [hcs, hskip, hdrop]
        simp
    · subst hbracket
      cases hend : behind 93 ((skipSpace cs).drop 1) with
      | some rest1 =>
        rw [hend] at hscan
        cases hscan
        obtain ⟨b, hb, hdrop⟩ := behind_sound hend
        refine ⟨a, 91 :: (b ++ [93]), ha, ?_, .emptyArray hb⟩
        rw [hcs, hskip, hdrop]
        simp
      | none =>
        rw [hend] at hscan
        obtain ⟨⟨vs, rest1⟩, hvs, hpair⟩ := Option.map_eq_some_iff.mp hscan
        cases hpair
        obtain ⟨t, hdrop, ht⟩ := h.elements _ _ _ hvs
        refine ⟨a, 91 :: (t ++ [93]), ha, ?_, .array ht⟩
        rw [hcs, hskip, hdrop]
        simp
    · obtain ⟨n, hn, rfl⟩ := scanNumber_sound hscan
      exact ⟨a, n.text, ha, by rw [← hn, ← hcs], .number n⟩
    · obtain ⟨t, ht, hspells⟩ := scanName_sound hscan
      exact ⟨a, t, ha, by rw [← ht, ← hcs], hspells⟩

theorem scansSound (fuel : ℕ) : ScansSound fuel := by
  induction fuel with
  | zero =>
    refine ⟨fun _ _ _ h => ?_, fun _ _ _ h => ?_, fun _ _ _ h => ?_⟩
    · rw [scanValue] at h
      cases h
    · rw [scanElements] at h
      cases h
    · rw [scanMembers] at h
      cases h
  | succ fuel ih =>
    exact ⟨fun _ _ _ => ih.scanValue_succ, fun _ _ _ => ih.scanElements_succ,
      fun _ _ _ => ih.scanMembers_succ⟩

/-- A text is read as a value if and only if it is UTF-8 and spells the value, with white space
around it. -/
theorem parse_iff {cs : List UInt8} {v : Json} :
    parse cs = some v ↔ ValidUtf8 cs ∧ Spells (.padded v) cs := by
  rw [parse]
  constructor
  · intro h
    split_ifs at h with hvalid
    obtain ⟨⟨w, rest⟩, hscan, h⟩ := Option.bind_eq_some_iff.mp h
    dsimp only at h
    split_ifs at h with hend
    obtain rfl := Option.some.inj h
    obtain ⟨a, t, ha, rfl, ht⟩ := (scansSound _).value _ _ _ hscan
    obtain ⟨b, hb, hrest⟩ := spaces_skipSpace rest
    rw [hend, List.append_nil] at hrest
    exact ⟨hvalid, .padded ha ht (hrest ▸ hb)⟩
  · rintro ⟨hvalid, h⟩
    obtain ⟨b, hb, hscan⟩ := h.scans cs.length [] breaks_nil le_rfl
    rw [List.append_nil, List.append_nil] at hscan
    have hend : skipSpace b = [] := List.dropWhile_eq_nil_iff.mpr hb
    rw [if_pos hvalid, hscan, Option.bind_some]
    exact if_pos hend

/-- A text spells one value. -/
theorem Spells.unique {cs : List UInt8} {v w : Json} (hv : Spells (.padded v) cs)
    (hw : Spells (.padded w) cs) : v = w := by
  obtain ⟨_, _, hv⟩ := hv.scans cs.length [] breaks_nil le_rfl
  obtain ⟨_, _, hw⟩ := hw.scans cs.length [] breaks_nil le_rfl
  rw [hv] at hw
  exact (Prod.mk.inj (Option.some.inj hw)).1

end Values

section Compact

/-- A member, an object and a string without white space in them. -/
def memberText (key cs : List UInt8) : List UInt8 := 34 :: (key ++ 34 :: 58 :: cs)

def objectText (cs : List UInt8) : List UInt8 := 123 :: (cs ++ [125])

def stringText (cs : List UInt8) : List UInt8 := 34 :: (cs ++ [34])

variable {key cs : List UInt8} {v : Json}

instance (cs : List UInt8) : Decidable (Plain cs) :=
  inferInstanceAs (Decidable (∀ c ∈ cs, c ≠ 34 ∧ 32 ≤ c ∧ c ≠ 92))

theorem Plain.spells (h : Plain cs) : SpellsText cs cs := by
  induction cs with
  | nil => exact .nil
  | cons c cs ih =>
    obtain ⟨hquote, hcontrol, hescape⟩ := h c (List.mem_cons_self ..)
    exact .plain hquote (UInt8.not_lt.mpr hcontrol) hescape
      (ih fun d hd => h d (List.mem_cons_of_mem _ hd))

theorem Spells.bare (h : Spells (.value v) cs) : Spells (.padded v) cs := by
  have hpadded := Spells.padded spaces_nil h spaces_nil
  rwa [List.nil_append, List.append_nil] at hpadded

theorem spells_string (h : Plain cs) : Spells (.value (.string cs)) (stringText cs) := .string h.spells

theorem spells_member (hkey : Plain key) (h : Spells (.padded v) cs) :
    Spells (.member key v) (memberText key cs) :=
  .member spaces_nil hkey.spells spaces_nil h

theorem spells_object {ms : List (List UInt8 × Json)} (h : Spells (.members ms) cs) :
    Spells (.value (.object ms)) (objectText cs) := .object h

theorem scanMembers_next {fuel : ℕ} {rest e : List UInt8} {m : List UInt8 × Json}
    {ms : List (List UInt8 × Json)} (hm : Spells (.member key v) cs) (hfuel : cs.length ≤ fuel)
    (h : scanMembers (fuel+1) (cs ++ 44 :: rest) = some (m :: ms, e)) :
    scanMembers fuel rest = some (ms, e) := by
  obtain ⟨b, hb, -, hscan⟩ := hm.scans fuel (44 :: rest) (breaks_delimiter (by simp) rest) hfuel
  rw [hscan, moreMembers, behind_spaces hb (by decide)] at h
  obtain ⟨⟨more, end2⟩, hmore, hpair⟩ := Option.map_eq_some_iff.mp h
  cases hpair
  exact hmore

/-- What is read of a member of which only the name is known. -/
theorem scanMembers_value {fuel : ℕ} {e key' : List UInt8} {ms : List (List UInt8 × Json)}
    (hkey : Plain key) (h : scanMembers (fuel+1) (memberText key cs) = some ((key', v) :: ms, e)) :
    ∃ rest, scanValue fuel cs = some (v, rest) ∧ ((ms = [] ∧ behind 125 rest = some e) ∨
      ∃ more, behind 44 rest = some more ∧ scanMembers fuel more = some (ms, e)) := by
  rw [memberText, scanMembers, scanText_plain hkey, Option.bind_some] at h
  dsimp only at h
  rw [behind_self (by decide), Option.bind_some, Option.bind_eq_some_iff] at h
  obtain ⟨⟨w, rest⟩, hvalue, h⟩ := h
  dsimp only at h
  cases hcomma : behind 44 rest with
  | some more =>
    rw [hcomma] at h
    obtain ⟨⟨others, end2⟩, hmore, hpair⟩ := Option.map_eq_some_iff.mp h
    cases hpair
    exact ⟨rest, hvalue, .inr ⟨more, hcomma, hmore⟩⟩
  | none =>
    rw [hcomma] at h
    obtain ⟨end2, hend, hpair⟩ := Option.map_eq_some_iff.mp h
    cases hpair
    exact ⟨rest, hvalue, .inl ⟨rfl, hend⟩⟩

theorem SpellsEscape.count_quote {bytes es : List UInt8} (h : SpellsEscape bytes es) :
    es.count 34 ≤ bytes.count 34 := by
  have hhex {digits : List UInt8} {value : ℕ} (hdigits : hex4 digits = some (value, [])) :
      digits.count 34 = 0 := by
    match digits with
    | a :: b :: c :: d :: cs =>
      simp only [hex4, Option.bind_eq_bind, Option.bind_eq_some_iff, Option.some.injEq,
        Prod.mk.injEq] at hdigits
      obtain ⟨w, hw, x, hx, y, hy, z, hz, -, rfl⟩ := hdigits
      have hne {e : UInt8} {n : ℕ} (he : UrlQuery.hexDigit e = some n) : 34 ≠ e := by
        rintro rfl
        cases he
      rw [List.count_eq_zero]
      simp [hne hw, hne hx, hne hy, hne hz]
    | [] => cases hdigits
    | [_] => cases hdigits
    | [_, _] => cases hdigits
    | [_, _, _] => cases hdigits
  cases h with
  | @simple c byte h =>
    by_cases hc : c = 34
    · subst hc
      cases h
      exact le_rfl
    · rw [List.count_singleton, if_neg (by simpa using hc)]
      exact Nat.zero_le _
  | unicode h _ _ =>
    rw [List.count_cons_of_ne (by decide), hhex h]
    exact Nat.zero_le _
  | pair h _ h2 _ =>
    rw [List.count_cons_of_ne (by decide), List.count_append, List.count_cons_of_ne (by decide),
      List.count_cons_of_ne (by decide), hhex h, hhex h2]
    exact Nat.zero_le _

/-- A quote inside of a string stands for itself. -/
theorem SpellsText.count_quote {text inner : List UInt8} (h : SpellsText text inner) :
    inner.count 34 ≤ text.count 34 := by
  induction h with
  | nil => exact le_rfl
  | @plain c text cs hquote _ _ _ ih =>
    rw [List.count_cons_of_ne hquote, List.count_cons_of_ne hquote]
    exact ih
  | escape hbytes _ ih =>
    rw [List.count_cons_of_ne (by decide), List.count_append, List.count_append]
    exact Nat.add_le_add hbytes.count_quote ih

theorem Plain.count_quote {text : List UInt8} (h : Plain text) : text.count 34 = 0 := by
  rw [List.count_eq_zero]
  exact fun hmem => (h 34 hmem).1 rfl

theorem Spaces.count_quote {a : List UInt8} (h : Spaces a) : a.count 34 = 0 := by
  rw [List.count_eq_zero]
  exact fun hmem => absurd (h 34 hmem) (by decide)

/-- What stands in front of the first `x` is what stands in front of the first `x`. -/
theorem eq_of_first {x : UInt8} {p q r s : List UInt8} (hp : x ∉ p) (hq : x ∉ q)
    (h : p ++ x :: r = q ++ x :: s) : p = q := by
  have hfront {p r : List UInt8} (hp : x ∉ p) : (p ++ x :: r).takeWhile (· ≠ x) = p := by
    rw [List.takeWhile_append_of_pos, List.takeWhile_cons_of_neg (by simp), List.append_nil]
    intro c hc
    have hne : c ≠ x := by
      rintro rfl
      exact hp hc
    simpa using hne
  rw [← hfront hp, h, hfront hq]

/-- The one member of an object that is a string without quotes: it has the quotes around its name
and its text, and white space in front of them. -/
theorem Spells.string_member {text : List UInt8} (hkey : Plain key) (htext : Plain text)
    (h : Spells (.members [(key, .string text)]) cs) :
    cs.count 34 = 4 ∧ ∃ a more, Spaces a ∧ cs = a ++ 34 :: more := by
  cases h with
  | moreMembers _ hs => cases hs
  | lastMember h =>
    cases h with
    | @member _ _ a ks b _ ha hks hb h =>
      cases h with
      | @padded _ c _ d hc h hd =>
        cases h with
        | @string _ ts hts =>
          refine ⟨?_, a, _, ha, rfl⟩
          have hks0 := Nat.le_zero.mp (hkey.count_quote ▸ hks.count_quote)
          have hts0 := Nat.le_zero.mp (htext.count_quote ▸ hts.count_quote)
          simp [ha.count_quote, hb.count_quote, hc.count_quote, hd.count_quote,
            hks0, hts0]

end Compact

section Utf8

theorem ValidUtf8.append {cs ds : List UInt8} (hcs : ValidUtf8 cs) (hds : ValidUtf8 ds) :
    ValidUtf8 (cs ++ ds) := by
  rw [ValidUtf8, utf8Run_append, hcs]
  exact hds

theorem ValidUtf8.of_append {cs ds : List UInt8} (hcs : ValidUtf8 cs) (h : ValidUtf8 (cs ++ ds)) :
    ValidUtf8 ds := by
  rw [ValidUtf8, utf8Run_append, hcs] at h
  exact h

/-- A text ends where an ASCII character stands. -/
theorem ValidUtf8.of_ascii {cs ds : List UInt8} {c : UInt8} (hc : c < 0x80)
    (h : ValidUtf8 (cs ++ c :: ds)) : ValidUtf8 cs := by
  rw [ValidUtf8, utf8Run_append] at h
  obtain ⟨s, hs, hrest⟩ := Option.bind_eq_some_iff.mp h
  rw [utf8Run, List.foldlM_cons] at hrest
  obtain ⟨s', hs', -⟩ := Option.bind_eq_some_iff.mp hrest
  rw [ValidUtf8, hs, (utf8Step_ascii hc hs').1]

def IsAscii (cs : List UInt8) : Prop := ∀ c ∈ cs, c < 0x80

instance (cs : List UInt8) : Decidable (IsAscii cs) :=
  inferInstanceAs (Decidable (∀ c ∈ cs, c < 0x80))

theorem IsAscii.utf8 {cs : List UInt8} (h : IsAscii cs) : ValidUtf8 cs := utf8Run_ascii h

theorem IsAscii.nil : IsAscii [] := fun _ hc => absurd hc List.not_mem_nil

theorem IsAscii.append {cs ds : List UInt8} (hcs : IsAscii cs) (hds : IsAscii ds) :
    IsAscii (cs ++ ds) := fun c hc => (List.mem_append.mp hc).elim (hcs c) (hds c)

theorem IsAscii.cons {c : UInt8} {cs : List UInt8} (hc : c < 0x80) (hcs : IsAscii cs) :
    IsAscii (c :: cs) := List.forall_mem_cons.mpr ⟨hc, hcs⟩

theorem IsAscii.member {key cs : List UInt8} (hkey : IsAscii key) (hcs : IsAscii cs) :
    IsAscii (memberText key cs) :=
  .cons (by decide) (hkey.append (.cons (by decide) (.cons (by decide) hcs)))

theorem IsAscii.object {cs : List UInt8} (h : IsAscii cs) : IsAscii (objectText cs) :=
  .cons (by decide) (h.append (.cons (by decide) .nil))

theorem Digits.isAscii {ds : List UInt8} (h : Digits ds) : IsAscii ds := by
  intro c hc
  have hle := (isDigit_bounds (h.2 c hc)).2
  exact UInt8.lt_of_le_of_lt hle (by decide)

end Utf8

end JsonText
