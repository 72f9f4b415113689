import LuaCompact.Terminal.Notice
import LuaCompact.Proofs.BlankLines

namespace LuaCompact

namespace Bytes

theorem replace_append_of_notMem {first : UInt8} {rest new mark : Bytes} (absent : first ∉ mark)
    (s : Bytes) : replace (first :: rest) new (mark ++ s) = mark ++ replace (first :: rest) new s := by
  induction mark with
  | nil => rfl
  | cons c mark ih =>
    obtain ⟨other, absent⟩ := List.ne_and_not_mem_of_not_mem_cons absent
    have here : ¬ (first :: rest).isPrefixOf (c :: (mark ++ s)) := by simp [other]
    rw [List.cons_append, replace, if_neg here, ih absent, List.cons_append]

theorem lines_append_of_notMem {mark : Bytes} (whole : Byte.lf ∉ mark) (s : Bytes) :
    lines (mark ++ s) = (lines s).modifyHead (mark ++ ·) := by
  obtain ⟨line, ls, hlines⟩ := List.exists_cons_of_ne_nil (List.splitOn_ne_nil Byte.lf s)
  change s.splitOn Byte.lf = line :: ls at hlines
  induction mark with
  | nil => simp [lines, hlines]
  | cons c mark ih =>
    obtain ⟨other, whole⟩ := List.ne_and_not_mem_of_not_mem_cons whole
    unfold lines at ih ⊢
    rw [List.cons_append, List.splitOn_cons_eq_if_modifyHead, if_neg (by simpa using other.symm),
      ih whole, hlines]
    rfl

end Bytes

namespace Terminal

namespace Style

/-- What switches a style on. -/
def switchOn (style : Style) : Palette → Bytes
  | .plain => []
  | .trueColor => utf8 ("\x1b[" ++ style.codes ++ "m")

theorem switchOn_prefix_line (style : Style) (palette : Palette) (s : Bytes) :
    style.switchOn palette ++ s <+: style.line palette s := by
  cases palette with
  | plain => exact List.prefix_rfl
  | trueColor => exact List.prefix_append _ _

theorem plainBreaks_append {mark : Bytes} (tabFree : Byte.tab ∉ mark) (returnFree : Byte.cr ∉ mark)
    (s : Bytes) : plainBreaks (mark ++ s) = mark ++ plainBreaks s := by
  rw [plainBreaks, Bytes.replace_append_of_notMem tabFree,
    Bytes.replace_append_of_notMem returnFree, plainBreaks]

/-- A mark without breaks in front of a text stays in front of what is shown, behind the codes of the
style. -/
theorem prefix_render {mark : Bytes} (tabFree : Byte.tab ∉ mark) (returnFree : Byte.cr ∉ mark)
    (feedFree : Byte.lf ∉ mark) (style : Style) (palette : Palette) (s : Bytes) :
    style.switchOn palette ++ mark <+: style.render palette (mark ++ s) := by
  obtain ⟨line, ls, hlines⟩ :=
    List.exists_cons_of_ne_nil (List.splitOn_ne_nil Byte.lf (plainBreaks s))
  change Bytes.lines (plainBreaks s) = line :: ls at hlines
  have shown := switchOn_prefix_line style palette (mark ++ line)
  rw [render, plainBreaks_append tabFree returnFree, Bytes.lines_append_of_notMem feedFree, hlines,
    List.modifyHead_cons, List.map_cons, pad, List.map_cons, Bytes.joinLines,
    intercalate_cons_eq]
  rw [← List.append_assoc] at shown
  exact (List.prefix_append _ _).trans (shown.trans
    ((List.prefix_append _ _).trans (List.prefix_append _ _)))

end Style

namespace Notice

/-- What a message of a kind starts with as printed. -/
def opening (kind : Notice) (palette : Palette) : Bytes :=
  kind.style.switchOn palette ++ kind.sign

theorem opening_prefix_print (kind : Notice) (palette : Palette) (text : Bytes) :
    kind.opening palette <+: kind.print palette text := by
  have tabFree : Byte.tab ∉ kind.sign := by cases kind <;> decide
  have returnFree : Byte.cr ∉ kind.sign := by cases kind <;> decide
  have feedFree : Byte.lf ∉ kind.sign := by cases kind <;> decide
  exact (Style.prefix_render tabFree returnFree feedFree kind.style palette text).trans
    (List.prefix_append _ _)

theorem eq_of_opening_isPrefix {palette : Palette} {kind kind' : Notice}
    (begins : kind.opening palette <+: kind'.opening palette) : kind = kind' := by
  by_contra other
  revert begins
  cases palette <;> cases kind <;> cases kind' <;>
    first
    | exact absurd rfl other
    | decide

/-- Whatever a message says, its kind can be told from what is printed. -/
theorem eq_of_print_eq {palette : Palette} {kind kind' : Notice} {text text' : Bytes}
    (same : kind.print palette text = kind'.print palette text') : kind = kind' := by
  have mine := opening_prefix_print kind palette text
  have yours := opening_prefix_print kind' palette text'
  rw [same] at mine
  rcases List.prefix_or_prefix_of_prefix mine yours with begins | begins
  · exact eq_of_opening_isPrefix begins
  · exact (eq_of_opening_isPrefix begins).symm

theorem print_ne_nil (kind : Notice) (palette : Palette) (text : Bytes) :
    kind.print palette text ≠ [] := by
  simp [print]

end Notice

end Terminal

end LuaCompact
