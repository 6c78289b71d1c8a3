import Stronk.DecodeLayout

/-! When decoding is confined to its frame: exactly when the lengths announced inside the
frame fit the frame. The decoder does not make sure of that itself. -/
namespace Stronk.Mcpr
open ByteMemory BoundedReader

/-- Whatever the allocator does and whatever `out` held before: nothing behind the frame
reaches the result, what is consumed lies in the frame, and the count of what is left of it
never wraps. -/
def DecodesInFrame (state : McprState) (buf : Mem) (maxlen : UInt64) : Prop :=
  ∀ env out,
    (∀ buf', AgreeOn maxlen.toNat buf buf' →
      (mcprDecodePacket env out buf' state maxlen).exit =
        (mcprDecodePacket env out buf state maxlen).exit ∧
      (mcprDecodePacket env out buf' state maxlen).out =
        (mcprDecodePacket env out buf state maxlen).out) ∧
    (∀ n : ℤ, (mcprDecodePacket env out buf state maxlen).exit = .ret n → 0 ≤ n →
      n ≤ maxlen.toNat) ∧
    (mcprDecodePacket env out buf state maxlen).cursor.wrapped = false

/-- Lengths that fit keep the decoder from straying. -/
theorem mcprDecodePacket_strayed (env : DecodeEnv) (out : McprPacket) (mem : Mem)
    (state : McprState) (maxlen : UInt64) (h : lengthsFit mem state maxlen = true) :
    (mcprDecodePacket env out mem state maxlen).cursor.strayed = false := by
  by_contra hs
  have hw := (decodeRun_agrees env out mem state maxlen).strayed (eq_true_of_ne_false hs)
  rw [walkFrame_fits, h] at hw
  contradiction

/-- A count is the end of the walk. -/
theorem mcprDecodePacket_count (env : DecodeEnv) (out : McprPacket) (mem : Mem)
    (state : McprState) (maxlen : UInt64) (n : ℤ) (hn : 0 < n)
    (h : (mcprDecodePacket env out mem state maxlen).exit = .ret n) :
    ∃ k : ℕ, n = k ∧ (walkFrame mem state maxlen).1 = .ok k := by
  rcases (decodeRun_agrees env out mem state maxlen).outcome with ⟨-, hr⟩ | ⟨hr, -⟩
  · simp only [mcprDecodePacket, hr, exitOf, DecodeExit.ret.injEq] at h
    omega
  · rcases hw : (walkFrame mem state maxlen).1 with e | k <;> rw [hw] at hr
    · simp only [mcprDecodePacket, hr, Except.map, exitOf] at h
      subst h
      have := walkFrame_refusal mem state maxlen n hw
      omega
    · simp only [mcprDecodePacket, hr, Except.map, exitOf, DecodeExit.ret.injEq] at h
      exact ⟨k, h.symm, rfl⟩

/-- Decoding stays in the frame if and only if the announced lengths do. -/
theorem mcprDecodePacket_confined_iff (state : McprState) (buf : Mem) (maxlen : UInt64) :
    DecodesInFrame state buf maxlen ↔ lengthsFit buf state maxlen = true := by
  constructor
  · intro h
    by_contra hf
    have hw : (walkFrame buf state maxlen).2 = true := by
      rw [walkFrame_fits]
      simpa using hf
    -- with memory to spare, the run goes wrong where the walk does
    let env : DecodeEnv := { host := .little, malloc := fun _ => true }
    obtain ⟨-, hn, hwrap⟩ := h env default
    rcases (decodeRun_agrees env default buf state maxlen).outcome with
      ⟨⟨k, -, hk⟩, -⟩ | ⟨-, he⟩
    · contradiction
    · rcases he hw with he | ⟨n, he, hlt⟩
      · exact absurd (hwrap.symm.trans he) (by simp)
      · have hret : (mcprDecodePacket env default buf state maxlen).exit = .ret n := by
          simp only [mcprDecodePacket, he, exitOf]
        have := hn n hret (by omega)
        omega
  · intro h env out
    have hs := mcprDecodePacket_strayed env out buf state maxlen h
    refine ⟨fun buf' hb => ?_, fun n hn h0 => ?_, ?_⟩
    · rw [mcprDecodePacket_agree env out buf buf' state maxlen hb hs]
      exact ⟨rfl, rfl⟩
    · by_cases hz : n = 0
      · omega
      · obtain ⟨k, rfl, hk⟩ := mcprDecodePacket_count env out buf state maxlen n (by omega) hn
        have := walkFrame_le buf state maxlen k (Prod.ext hk (by simp [walkFrame_fits, h]))
        omega
    · simp only [Cursor.strayed, Bool.or_eq_false_iff] at hs
      exact hs.1

/-- A Login Start of two bytes that announces a name of five: the count returned is 7. -/
theorem login_start_not_confined : ¬ DecodesInFrame .login (ofList [0x00, 0x05]) 2 := by
  intro h
  have hn := (h { host := .little, malloc := fun _ => true } default).2.1 7 (by rfl) (by decide)
  exact absurd hn (by decide)

end Stronk.Mcpr
