import LuaCompact.Minify
import LuaCompact.Proofs.BlankLines
import LuaCompact.Proofs.Grammar
import Mathlib.Data.Bool.AllAny

namespace LuaCompact

/-- No byte of the text opens a short string and no long bracket starts in it, so that it holds
nothing but code and line comments. -/
structure Plain (s : Bytes) : Prop where
  unquoted : ∀ b ∈ s, Token.isQuote b = false
  unbracketed : ∀ level, ¬ Bracket.opener level <:+: s

theorem Plain.of_infix {s t : Bytes} (plain : Plain s) (inside : t <:+: s) : Plain t where
  unquoted b hb := plain.unquoted b (inside.subset hb)
  unbracketed level opens := plain.unbracketed level (opens.trans inside)

theorem Plain.read?_eq_none {s t : Bytes} (plain : Plain s) (inside : t <:+: s) :
    Bracket.read? t = none := by
  apply Bracket.read?_eq_none_iff.mpr
  intro level opens
  exact plain.unbracketed level (opens.isInfix.trans inside)

namespace LineStrip

theorem dropLineComment_of_prefix {line : Bytes} (mark : Token.commentMark <+: line) :
    dropLineComment line = [] := by
  cases line with
  | nil => simp [Token.commentMark] at mark
  | cons c line => simp [dropLineComment, Bytes.cut, mark]

theorem dropLineComment_cons {c : UInt8} {line : Bytes}
    (unmarked : ¬ Token.commentMark <+: c :: line) :
    dropLineComment (c :: line) = c :: dropLineComment line := by
  unfold dropLineComment
  rw [Bytes.cut, if_neg (by simpa using unmarked)]
  cases Bytes.cut Token.commentMark line <;> rfl

theorem dropLineComment_prefix (line : Bytes) : dropLineComment line <+: line := by
  unfold dropLineComment
  split
  next before after found =>
    obtain ⟨rfl, _⟩ := Bytes.upToFirst_of_cut found
    exact ⟨Token.commentMark ++ after, by simp⟩
  next => exact List.prefix_rfl

/-- Without a long bracket a line only loses its line comment, and no block stays open. -/
theorem step_of_plain {line : Bytes} (plain : Plain line) :
    step false line = ⟨dropLineComment line, false, !isBlank (dropLineComment line)⟩ := by
  have closed : Bytes.cut blockOpener line = none := by
    apply (Bytes.cut_eq_none_iff (by decide)).mpr
    intro opens
    have bracket : Bracket.opener 0 <:+: blockOpener := ⟨Token.commentMark, [], by decide⟩
    exact plain.unbracketed 0 (bracket.trans opens)
  simp [step, leaveBlock, dropBlock, closed]

theorem steps_of_plain {ls : List Bytes} (plain : ∀ line ∈ ls, Plain line) :
    ((steps false ls).filter Step.keep).map Step.line =
      (ls.map dropLineComment).filter fun line => !isBlank line := by
  induction ls with
  | nil => rfl
  | cons line ls ih =>
    have rest := ih fun l hl => plain l (List.mem_cons_of_mem line hl)
    rw [steps, step_of_plain (plain line List.mem_cons_self), List.map_cons, List.filter_cons,
      List.filter_cons, ← rest]
    by_cases blank : isBlank (dropLineComment line) <;> simp [blank]

end LineStrip

namespace Token

/-- A comment mark does not reach over the end of a line. -/
theorem commentMark_prefix_append_iff {line rest : Bytes} (ends : EndsLine rest) :
    commentMark <+: line ++ rest ↔ commentMark <+: line := by
  constructor
  · intro mark
    match line, mark with
    | [], mark =>
      obtain ⟨tail, h⟩ := mark
      rw [List.nil_append] at h
      exact absurd (ends Byte.dash (by simp [← h, commentMark])) (by decide)
    | [c], mark =>
      obtain ⟨_, second⟩ := commentMark_prefix_cons_iff.mp mark
      exact absurd (ends Byte.dash second) (by decide)
    | c :: d :: line, mark =>
      obtain ⟨first, second⟩ := commentMark_prefix_cons_iff.mp mark
      exact commentMark_prefix_cons_iff.mpr ⟨first, second⟩
  · exact fun mark => mark.trans (List.prefix_append line rest)

/-- A byte of a plain text is code where no comment mark starts. -/
theorem scan_cons_of_plain {c : UInt8} {s : Bytes} (plain : Plain (c :: s))
    (unmarked : ¬ commentMark <+: c :: s) : scan (c :: s) = .code c :: scan s := by
  have unquoted : isQuote c = false := plain.unquoted c List.mem_cons_self
  have unread : Bracket.read? (c :: s) = none := plain.read?_eq_none List.infix_rfl
  rw [scan, next, if_neg (by rwa [← commentMark_prefix_cons_iff])]
  simp [unquoted, unread]

/-- What a line leaves behind, with the rest of the text after it. -/
theorem ofTokens_scan_line {line rest : Bytes} (plain : Plain (line ++ rest))
    (whole : Byte.lf ∉ line) (ends : EndsLine rest) :
    Atom.ofTokens (scan (line ++ rest)) =
      (LineStrip.dropLineComment line).map .code ++ Atom.ofTokens (scan rest) := by
  induction line with
  | nil => simp [LineStrip.dropLineComment, Bytes.cut, commentMark]
  | cons c line ih =>
    by_cases mark : commentMark <+: c :: line
    · obtain ⟨text, htext⟩ := mark
      have unread : Bracket.read? (text ++ rest) = none :=
        plain.read?_eq_none ⟨commentMark, [], by simp [← htext]⟩
      have within : Byte.lf ∉ text := fun mem => whole (htext ▸ List.mem_append_right _ mem)
      obtain ⟨htake, hdrop⟩ := takeWhile_append_of_endsLine within ends
      have comes : scan (c :: line ++ rest) = .lineComment text :: scan rest := by
        rw [← htext]
        simp [commentMark, scan, next, comment, unread, htake, hdrop]
      rw [comes, LineStrip.dropLineComment_of_prefix ⟨text, htext⟩]
      rfl
    · have comes : scan (c :: line ++ rest) = .code c :: scan (line ++ rest) := by
        have unmarked : ¬ commentMark <+: c :: line ++ rest := by
          rwa [commentMark_prefix_append_iff ends]
        exact scan_cons_of_plain plain unmarked
      have later := ih (plain.of_infix ⟨[c], [], by simp⟩)
        fun mem => whole (List.mem_cons_of_mem c mem)
      rw [comes, LineStrip.dropLineComment_cons mark, Atom.ofTokens_cons_of_atoms rfl, later]
      rfl

/-- The tokens of a plain text leave behind its lines, each up to its line comment. -/
theorem ofTokens_scan_joinLines {ls : List Bytes} (nonempty : ls ≠ [])
    (whole : ∀ line ∈ ls, Byte.lf ∉ line) (plain : Plain (Bytes.joinLines ls)) :
    Atom.ofTokens (scan (Bytes.joinLines ls)) =
      (Bytes.joinLines (ls.map LineStrip.dropLineComment)).map .code := by
  induction ls with
  | nil => exact absurd rfl nonempty
  | cons line ls ih =>
    have here : Byte.lf ∉ line := whole line List.mem_cons_self
    cases ls with
    | nil =>
      have only : Bytes.joinLines [line] = line ++ [] := by simp [Bytes.joinLines]
      rw [only, ofTokens_scan_line (only ▸ plain) here (by simp [EndsLine])]
      simp [Bytes.joinLines, scan, Atom.ofTokens]
    | cons line' ls =>
      have parts : Bytes.joinLines (line :: line' :: ls) =
          line ++ Byte.lf :: Bytes.joinLines (line' :: ls) := by
        simp [Bytes.joinLines, List.intercalate_cons_cons]
      rw [parts] at plain ⊢
      have rest : Plain (Bytes.joinLines (line' :: ls)) :=
        plain.of_infix ⟨line ++ [Byte.lf], [], by simp⟩
      have feed : scan (Byte.lf :: Bytes.joinLines (line' :: ls)) =
          .code Byte.lf :: scan (Bytes.joinLines (line' :: ls)) := by
        apply scan_cons_of_plain (plain.of_infix ⟨line, [], by simp⟩)
        rw [commentMark_prefix_cons_iff]
        exact fun dashes => absurd dashes.1 (by decide)
      rw [ofTokens_scan_line plain here (by simp [EndsLine]), feed, Atom.ofTokens_cons_of_atoms rfl,
        ih (by simp) (fun l hl => whole l (List.mem_cons_of_mem line hl)) rest]
      exact (Atom.map_code_joinLines_cons_cons _ _ _).symm

end Token

namespace Segment

theorem keepPieces_true (ps : List Bytes) :
    keepPieces true true ps = ps.filter fun p => !isBlank p := by
  induction ps with
  | nil => rfl
  | cons p ps ih =>
    cases ps with
    | nil => by_cases blank : isBlank p <;> simp [keepPieces, blank]
    | cons q ps =>
      rw [keepPieces, ih, List.filter_cons (x := p)]
      by_cases blank : isBlank p <;> simp [blank]

theorem dropBlankLines_ofCode (t : Bytes) :
    dropBlankLines (ofCode t) =
      ofCode (Bytes.joinLines ((Bytes.lines t).filter fun p => !isBlank p)) := by
  rw [← keepPieces_true]
  by_cases empty : t = []
  · subst empty
    decide_cbv
  · rw [ofCode, if_neg empty, dropBlankLines, dropBlankFrom, dropBlankPieces, dropBlankFrom,
      List.append_nil, List.isEmpty_nil]

theorem ofTokens_eq_ofCode {ts : List Token} {t : Bytes} (same : Atom.ofTokens ts = t.map .code) :
    ofTokens ts = ofCode t := by
  have separated : Separated (ofCode t) := by
    unfold ofCode
    split
    next => exact .nil
    next nonempty => exact .last nonempty
  exact ((renders_iff ts (ofCode t)).mp ⟨by rw [ofSegments_ofCode, same], separated⟩).symm

end Segment

/-- Where nothing but line comments can be found, both policies find the same. -/
theorem stripLiteralAware_eq_strip {s : Bytes} (plain : Plain s)
    (unmarked : ¬ Token.shebangMark <+: s) : stripLiteralAware s = LineStrip.strip s := by
  have joined : Bytes.joinLines (Bytes.lines s) = s := Atom.joinLines_lines s
  have nonempty : Bytes.lines s ≠ [] := List.splitOn_ne_nil Byte.lf s
  have whole : ∀ line ∈ Bytes.lines s, Byte.lf ∉ line := fun _ h => notMem_of_mem_splitOn h
  have lexed : Token.lex s = Token.scan (Bytes.joinLines (Bytes.lines s)) := by
    rw [Token.lex, if_neg (by simpa using unmarked), joined]
  have left := Token.ofTokens_scan_joinLines nonempty whole (joined.symm ▸ plain)
  have cutWhole : ∀ line ∈ (Bytes.lines s).map LineStrip.dropLineComment, Byte.lf ∉ line := by
    intro line hline mem
    obtain ⟨long, hlong, rfl⟩ := List.mem_map.mp hline
    exact whole long hlong ((LineStrip.dropLineComment_prefix long).subset mem)
  have relined : Bytes.lines (Bytes.joinLines ((Bytes.lines s).map LineStrip.dropLineComment)) =
      (Bytes.lines s).map LineStrip.dropLineComment :=
    List.splitOn_intercalate Byte.lf cutWhole (by simpa using nonempty)
  have each : ∀ line ∈ Bytes.lines s, Plain line :=
    fun line hline => plain.of_infix (infix_of_mem_splitOn hline)
  rw [stripLiteralAware, lexed, Segment.ofTokens_eq_ofCode left, Segment.dropBlankLines_ofCode,
    relined, LineStrip.strip, LineStrip.steps_of_plain each]

/-- In a text without quotes, long brackets and shebang the two policies leave the same text behind
and minify to the same. -/
theorem strip_and_minify_agree {s : Bytes} (unquoted : ∀ b ∈ s, Token.isQuote b = false)
    (unbracketed : ∀ level, ¬ Bracket.opener level <:+: s)
    (unmarked : ¬ Token.shebangMark <+: s) :
    Segment.join (strip .literal s) = Segment.join (strip .faithful s) ∧
      minify .literal s = minify .faithful s := by
  have same : strip .literal s = strip .faithful s :=
    stripLiteralAware_eq_strip ⟨unquoted, unbracketed⟩ unmarked
  exact ⟨congrArg Segment.join same, congrArg Gap.normalize same⟩

/-- Lone brackets, a closing long bracket, dashes and blank lines do not set the policies apart. -/
theorem strip_and_minify_agree_sample :
    (∀ b ∈ utf8 "a[1] = ]] - -b --- c\n \n--[ d\nx", Token.isQuote b = false) ∧
      minify .literal (utf8 "a[1] = ]] - -b --- c\n \n--[ d\nx") =
        minify .faithful (utf8 "a[1] = ]] - -b --- c\n \n--[ d\nx") := by
  have unquoted : ∀ b ∈ utf8 "a[1] = ]] - -b --- c\n \n--[ d\nx", Token.isQuote b = false :=
    List.all_iff_forall_prop.mp (by decide)
  have unbracketed (level : Nat) :
      ¬ Bracket.opener level <:+: utf8 "a[1] = ]] - -b --- c\n \n--[ d\nx" := by
    rintro ⟨before, after, h⟩
    have none : ∀ rest ∈ (utf8 "a[1] = ]] - -b --- c\n \n--[ d\nx").tails,
        Bracket.level? rest = none := by decide
    have opens := none (Bracket.opener level ++ after)
      ((List.mem_tails _ _).mpr ⟨before, by simpa using h⟩)
    simp [Bracket.level?_opener_append] at opens
  exact ⟨unquoted, (strip_and_minify_agree unquoted unbracketed (by decide)).2⟩

end LuaCompact
