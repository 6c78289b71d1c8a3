import Stronk.EncodeBounds
import Stronk.JsonText
import Stronk.ServerConnection

/-! The chat texts that `mcpr_as_chat` makes of messages, read as JSON. -/
namespace Stronk.Mcpr
open JsonText

section Model

/-- An allocated block and what is printed to it, with the terminator. -/
structure Printed where
  size : BitVec 32
  bytes : List UInt8

/-- The length that `vsnprintf` and `vsprintf` return for a message. They fail for one that is longer
than an `int` can tell. -/
def printedLength (message : List UInt8) : Option (BitVec 32) :=
  if message.length ≤ int32Max then some (.ofNat 32 message.length) else none

/-- The blocks that `mcpr_as_chat` prints to when it gets them, one for the message and one for the
chat text made of it. -/
def mcprAsChatBlocks (message : List UInt8) : Option (Printed × Printed) := do
  let messageLength ← printedLength message
  let bytesRequired ← addInt messageLength 1
  let size ← addInt messageLength 12
  some (⟨bytesRequired, message ++ [0]⟩,
    ⟨size, ascii "\x7b\"text\":\"" ++ message ++ ascii "\"\x7d" ++ [0]⟩)

end Model

section Property

def Printed.Fits (p : Printed) : Prop := p.bytes.length ≤ p.size.toInt

/-- A chat text is an object with the message for its only member, and what is printed fits. -/
structure ChatRight (message : List UInt8) (blocks : Printed × Printed) : Prop where
  fitsFirst : blocks.1.Fits
  fits : blocks.2.Fits
  parses : parse (cString blocks.2.bytes) = some (.object [(ascii "text", .string message)])

/-- A message that can stand between quotes as it is. -/
structure ChatPlain (message : List UInt8) : Prop where
  plain : Plain message
  utf8 : ValidUtf8 message
  short : message.length+12 ≤ int32Max

end Property

section Chat

/-- What is printed is the text that the rest of the server is given. -/
theorem mcprAsChatBlocks_text {message : List UInt8} {blocks : Printed × Printed}
    (h : mcprAsChatBlocks message = some blocks) :
    some blocks.2.bytes = (mcprAsChat true message).map (· ++ [0]) := by
  simp only [mcprAsChatBlocks, Option.bind_eq_bind, Option.bind_eq_some_iff,
    Option.some.injEq] at h
  obtain ⟨-, -, -, -, -, -, rfl⟩ := h
  rfl

theorem mcprAsChatBlocks_eq (message : List UInt8) : mcprAsChatBlocks message =
    if message.length+12 ≤ int32Max then
      some (⟨.ofNat 32 (message.length+1), message ++ [0]⟩,
        ⟨.ofNat 32 (message.length+12),
          ascii "\x7b\"text\":\"" ++ message ++ ascii "\"\x7d" ++ [0]⟩)
    else none := by
  have hadd (k : ℕ) (hle : message.length ≤ int32Max) :
      addInt (BitVec.ofNat 32 message.length) k =
        if message.length+k ≤ int32Max then some (BitVec.ofNat 32 (message.length+k)) else none := by
    rw [addInt_ofNat]
    simp only [int32Max] at hle ⊢
    exact if_congr (by omega) rfl rfl
  unfold mcprAsChatBlocks printedLength
  split_ifs with hle hlong
  · have hone := hadd 1 hle
    have htwelve := hadd 12 hle
    rw [if_pos (by push_cast; omega)] at hone htwelve
    simp only [Nat.cast_one, Nat.cast_ofNat] at hone htwelve
    simp only [Option.bind_eq_bind, Option.bind_some, hone, htwelve]
  · have htwelve := hadd 12 hle
    rw [if_neg (by push_cast; omega)] at htwelve
    simp only [Nat.cast_ofNat] at htwelve
    simp only [Option.bind_eq_bind, Option.bind_some, htwelve, Option.bind_none]
    cases addInt (BitVec.ofNat 32 message.length) 1 <;> rfl
  · omega
  · rfl

theorem toInt_ofNat_of_le {n : ℕ} (h : n ≤ int32Max) : (BitVec.ofNat 32 n).toInt = n := by
  rw [toInt_ofNat_32]
  simp only [int32Max] at h
  omega

/-- `mcpr_as_chat` makes a chat text of a message if and only if nothing in the message has a meaning
in JSON: it is not escaped. -/
theorem chat_right_iff (message : List UInt8) (hnul : 0 ∉ message) :
    (∃ blocks, mcprAsChatBlocks message = some blocks ∧ ChatRight message blocks) ↔
      ChatPlain message := by
  have hopen : ascii "\x7b\"text\":\"" = 123 :: 34 :: (ascii "text" ++ [34, 58, 34]) := by decide
  have hclose : ascii "\"\x7d" = [34, 125] := by decide
  have hkey : Plain (ascii "text") := by
    unfold Plain
    decide +kernel
  have hascii : ∀ c ∈ ascii "text", c < 0x80 := by decide +kernel
  set chat := ascii "\x7b\"text\":\"" ++ message ++ ascii "\"\x7d" with hchat
  have hparse : parse (cString (chat ++ [0])) = some (.object [(ascii "text", .string message)]) ↔
      Plain message ∧ ValidUtf8 message := by
    have hread : cString (chat ++ [0]) = chat := by
      apply cString_append_zero
      have hascii0 : 0 ∉ ascii "text" := by decide
      simp [hchat, hopen, hclose, hnul, hascii0]
    have hassoc : chat =
        123 :: 34 :: (ascii "text" ++ 34 :: 58 :: 34 :: (message ++ [34, 125])) := by
      rw [hchat, hopen, hclose]
      simp
    rw [hread, hassoc, parse_member_iff hkey hascii]
  rw [mcprAsChatBlocks_eq]
  constructor
  · rintro ⟨blocks, hblocks, hright⟩
    split_ifs at hblocks with hshort
    cases hblocks
    obtain ⟨hplain, hutf8⟩ := hparse.mp hright.parses
    exact ⟨hplain, hutf8, hshort⟩
  · intro h
    rw [if_pos h.short]
    refine ⟨_, rfl, ?_, ?_, hparse.mpr ⟨h.plain, h.utf8⟩⟩
    · rw [Printed.Fits, toInt_ofNat_of_le (by have := h.short; push_cast; omega)]
      simp
    · rw [Printed.Fits, toInt_ofNat_of_le (by have := h.short; push_cast; omega), hopen, hclose]
      simp [ascii]
      omega

/-- What a player says in plain words. -/
theorem hello_made_chat : ∃ blocks, mcprAsChatBlocks (ascii "hello there") = some blocks ∧
    ChatRight (ascii "hello there") blocks := by
  apply (chat_right_iff (ascii "hello there") (by decide)).mpr
  refine ⟨?_, by decide +kernel, by decide⟩
  unfold Plain
  decide +kernel

/-- A player that puts quotes around a word leaves no JSON behind. -/
theorem quoted_word_no_json : ¬ ∃ blocks, mcprAsChatBlocks (ascii "say \"hi\"") = some blocks ∧
    ChatRight (ascii "say \"hi\"") blocks := by
  rintro ⟨blocks, hblocks, hright⟩
  rw [mcprAsChatBlocks_eq, if_pos (by decide)] at hblocks
  cases hblocks
  have hnone : (parse (cString (ascii "\x7b\"text\":\"" ++ ascii "say \"hi\"" ++ ascii "\"\x7d" ++
      [0]))).isNone = true := by
    decide +kernel
  rw [hright.parses] at hnone
  cases hnone

end Chat

end Stronk.Mcpr
