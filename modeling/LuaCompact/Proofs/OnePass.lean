import LuaCompact.Proofs.Settled

namespace LuaCompact.Gap

variable (fill : Option UInt8 → Bytes → Option UInt8 → Bytes) (prev : Option UInt8)

/-- The white space behind the last kept byte. -/
theorem respace_of_gaps (before : Bytes) {run : Bytes} (gaps : ∀ b ∈ run, isGap b) :
    respace fill prev before run = fill prev (before ++ run) none := by
  induction run generalizing before with
  | nil => rw [respace, List.append_nil]
  | cons c run ih =>
    rw [respace, if_pos (gaps c (by simp)), ih _ fun b hb => gaps b (by simp [hb])]
    simp

/-- The white space up to the next kept byte. -/
theorem respace_append_cons (before : Bytes) {run : Bytes} (gaps : ∀ b ∈ run, isGap b) {c : UInt8}
    (kept : ¬ isGap c) (s : Bytes) :
    respace fill prev before (run ++ c :: s) =
      fill prev (before ++ run) (some c) ++ c :: respace fill (some c) [] s := by
  induction run generalizing before with
  | nil => rw [List.nil_append, respace, if_neg kept, List.append_nil]
  | cons d run ih =>
    rw [List.cons_append, respace, if_pos (gaps d (by simp)), ih _ fun b hb => gaps b (by simp [hb])]
    simp

/-- A second pass finds between two kept bytes what the first has put there, and puts it there
again. -/
theorem respace_respace (run s : Bytes) :
    respace separator prev [] (respace separator prev run s) = respace separator prev run s := by
  induction s generalizing prev run with
  | nil =>
    have gaps := isGap_of_mem_separator prev run none
    rw [respace, respace_of_gaps separator prev [] gaps, List.nil_append, separator_separator]
  | cons c s ih =>
    by_cases gap : isGap c
    · rw [respace, if_pos gap, ih]
    · have gaps := isGap_of_mem_separator prev run (some c)
      rw [respace, if_neg gap, respace_append_cons separator prev [] gaps gap, List.nil_append,
        separator_separator, ih]

/-- The four rules, one after the other, are one pass: bytes that are no white space stay in their
order, and `separator` tells from two neighbours, or from one and an end of the text, and from the
white space between them what takes its place. So running the rules again changes nothing. -/
theorem tighten_one_pass_and_idempotent (s : Bytes) :
    tighten s = respace separator none [] s ∧ tighten (tighten s) = tighten s := by
  have once := tighten_eq_respace s
  refine ⟨once, ?_⟩
  calc tighten (tighten s)
    _ = respace separator none [] (respace separator none [] s) := by rw [tighten_eq_respace, once]
    _ = respace separator none [] s := respace_respace none [] s
    _ = tighten s := once.symm

/-- Operators with a gap in common, two minus signs, and a semicolon before white space. -/
example : tighten (utf8 " a = ( - - b ) ;\t\x0cc\n\r d ") = utf8 " a=(- -b);\nc\nd " := by
  decide_cbv

end LuaCompact.Gap
